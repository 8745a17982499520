import I8086.Proofs.Machine.Confined
import I8086.Proofs.Simulator.Trace
import I8086.Proofs.Register.Report
import I8086.Proofs.Text.Change

/-! # The record of a run -/

namespace I8086

/-!
## From machine to machine

A run as the machines that its steps leave (`trail_steps`). What every executed step keeps, the run keeps.
-/

/-- `x` is the execution of a decoded instruction that makes `m'` of `m`. -/
structure Step.Between (x : Step) (m m' : Machine) : Prop where
  before : x.before = m.registers
  after : x.after = m'.registers
  code : ∃ c : Code, x.instruction = c.instruction
  effect : ∃ ip, x.instruction.Effect (m.withIp ip) m'

inductive Trail : Machine → List Step → Machine → Prop
  | nil (m : Machine) : Trail m [] m
  | cons {x : Step} {l : List Step} {m m₁ m' : Machine} (head : x.Between m m₁) (tail : Trail m₁ l m') :
    Trail m (x :: l) m'

namespace Simulator

variable {s t : Simulator} {x : Step}

theorem between_of_step (h : step s = .ok (some x) t) : x.Between s.machine t.machine := by
  cases StepCase.of_step h with
  | @executed d m size running decode execute =>
    refine ⟨rfl, rfl, ?_, s.ip + BitVec.ofNat 16 d.size, (fit_of_decode decode).effect execute⟩
    obtain ⟨c, _, rfl⟩ := Code.exists_of_decode decode
    exact ⟨c, rfl⟩

theorem machine_of_step_error {e : Error} (h : step s = .error e t) : t.machine = s.machine :=
  (step_error h).machine.symm

theorem trail_steps (s : Simulator) (n : Nat) : Trail s.machine (s.trace n) (s.steps n).2.machine := by
  induction n generalizing s with
  | zero => exact .nil s.machine
  | succ n ih =>
    cases hs : step s with
    | error e t =>
      rw [steps_of_error hs, trace, hs, ← machine_of_step_error hs]
      exact .nil _
    | ok x t =>
      cases x with
      | none =>
        rw [steps_of_none hs, trace, hs, step_none hs]
        exact .nil _
      | some x =>
        rw [steps_of_some hs, trace, hs]
        exact .cons (between_of_step hs) (ih t)

end Simulator

/-! ### One step -/

namespace Step.Between

variable {x : Step} {m m' : Machine}

theorem fit (h : x.Between m m') : x.instruction.Fit := by
  obtain ⟨c, hc⟩ := h.code
  exact hc ▸ c.fit

theorem not_control (h : x.Between m m') : ∀ o ∈ x.instruction.operands, o.isControl = false := by
  obtain ⟨c, hc⟩ := h.code
  exact hc ▸ c.not_control

theorem confined (h : x.Between m m') : x.instruction.Confined m m' := by
  have hseparate := h.fit.separate h.not_control
  obtain ⟨ip, heffect⟩ := h.effect
  exact (Instruction.confined_withIp hseparate m ip).trans (heffect.confined hseparate) (m.effective_withIp ip)

theorem getLsbD_flags (h : x.Between m m') {i : Nat} (hi : Flag.Reserved i) :
    m'.flags.getLsbD i = m.flags.getLsbD i := by
  obtain ⟨ip, heffect⟩ := h.effect
  rw [heffect.getLsbD_flags hi, m.flags_withIp]

theorem flags_of_not_arith (h : x.Between m m') (hx : x.instruction.operation.isArith = false) : m'.flags = m.flags := by
  apply h.confined.word_eq
  · rintro ⟨_, o, view, ho, hview, hflags⟩
    have hcontrol := h.not_control o (List.mem_of_getElem? ho)
    simp [Operand.isControl, hview, hflags] at hcontrol
  · simp [Instruction.Implicit, hx]

theorem byteAt_of_beyond (h : x.Between m m') {p : Fin Memory.size} (hp : 0x10000 < p.val) :
    m'.memory.byteAt p = m.memory.byteAt p := by
  by_contra hne
  obtain ⟨a, w, _, hcovers⟩ := h.confined.byte p hne
  have hlt := (m.effective a).isLt
  rcases hcovers with hp' | ⟨_, hp'⟩ <;> omega

theorem moves_of_ne (h : x.Between m m') {r : Register} (hr : r ∈ [.es, .cs, .ss, .ds])
    (hne : m'.registers.word r ≠ m.registers.word r) : x.instruction.Moves r := by
  obtain ⟨c, hc⟩ := h.code
  rcases h.confined.word r hne with hassigns | himplicit
  · rw [hc] at hassigns ⊢
    exact Code.moves_of_assigns hr hassigns
  · exact absurd himplicit (x.instruction.not_implicit_of_segment hr)

end Step.Between

/-! ### The whole run -/

namespace Trail

variable {l : List Step} {m m' : Machine}

theorem keeps {α : Type} {f : Machine → α} (hf : ∀ {x : Step} {m m' : Machine}, x.Between m m' → f m' = f m)
    (h : Trail m l m') : f m' = f m := by
  induction h with
  | nil => rfl
  | cons head _ ih => rw [ih, hf head]

theorem getLsbD_flags (h : Trail m l m') {i : Nat} (hi : Flag.Reserved i) : m'.flags.getLsbD i = m.flags.getLsbD i :=
  h.keeps (f := fun m => m.flags.getLsbD i) (fun hx => hx.getLsbD_flags hi)

theorem byteAt_of_beyond (h : Trail m l m') {p : Fin Memory.size} (hp : 0x10000 < p.val) :
    m'.memory.byteAt p = m.memory.byteAt p :=
  h.keeps (f := fun m => m.memory.byteAt p) (fun hx => hx.byteAt_of_beyond hp)

theorem exists_between (h : Trail m l m') : ∀ x ∈ l, ∃ m m', x.Between m m' := by
  induction h with
  | nil => simp
  | cons head _ ih => exact List.forall_mem_cons.mpr ⟨⟨_, _, head⟩, ih⟩

theorem word_of_not_moves (h : Trail m l m') {r : Register} (hr : r ∈ [.es, .cs, .ss, .ds])
    (hl : ∀ x ∈ l, ¬x.instruction.Moves r) : m'.registers.word r = m.registers.word r := by
  induction h with
  | nil => rfl
  | cons head _ ih =>
    obtain ⟨hx, hl⟩ := List.forall_mem_cons.mp hl
    rw [ih hl]
    by_contra hne
    exact hx (head.moves_of_ne hr hne)

end Trail

/-- FLAGS after the last addition, subtraction or comparison of `l`, and `initial` if there is none. -/
def lastStatus (initial : Word) (l : List Step) : Word :=
  ((l.filter (·.instruction.operation.isArith)).map (·.after.word .flags)).getLastD initial

theorem lastStatus_cons (initial : Word) (x : Step) (l : List Step) : lastStatus initial (x :: l) =
    lastStatus (if x.instruction.operation.isArith then x.after.word .flags else initial) l := by
  cases hx : x.instruction.operation.isArith
  · simp [lastStatus, hx]
  · simp only [lastStatus, List.filter_cons, hx, if_true, List.map_cons, List.getLastD_cons]

theorem Trail.flags_eq {l : List Step} {m m' : Machine} (h : Trail m l m') : m'.flags = lastStatus m.flags l := by
  induction h with
  | nil => rfl
  | @cons x l m m₁ m' head _ ih =>
    rw [ih, lastStatus_cons]
    cases hx : x.instruction.operation.isArith
    · rw [head.flags_of_not_arith hx, if_neg Bool.false_ne_true]
    · rw [if_pos rfl, head.after, Machine.flags]

/-!
## What runs leave alone

A step changes what its instruction can change and nothing else. So no run changes the reserved bits of FLAGS or the
memory that no effective address reaches, and segment registers change by moves to them only (`run_confined`).
-/

namespace Simulator

variable {s t : Simulator} {x : Step}

theorem confined_of_step (h : step s = .ok (some x) t) : x.instruction.Confined s.machine t.machine :=
  (between_of_step h).confined

theorem flags_eq_zero_iff {flags : Word} (h : ∀ i, Flag.Reserved i → flags.getLsbD i = false) :
    flags = 0 ↔ ∀ f : Flag, f.isSet flags = false := by
  refine ⟨?_, ?_⟩
  · rintro rfl f
    exact BitVec.getLsbD_zero
  · intro hset
    apply Flag.eq_of_isSet
    · intro f
      rw [hset f]
      exact BitVec.getLsbD_zero.symm
    · intro i hi
      rw [h i hi]
      exact BitVec.getLsbD_zero.symm

-- From a start without flags no bit can be set besides the six.
theorem hasFlagsLine_of_trail {l : List Step} {m m' : Machine} (h : Trail m l m') (hzero : m.flags = 0) :
    Register.File.HasFlagsLine m'.registers.summary ↔ ∃ f : Flag, f.isSet m'.flags = true := by
  have hreserved : ∀ i, Flag.Reserved i → m'.flags.getLsbD i = false := by
    intro i hi
    rw [h.getLsbD_flags hi, hzero]
    exact BitVec.getLsbD_zero
  rw [Register.File.hasFlagsLine_summary, ← Machine.flags, ne_eq, flags_eq_zero_iff hreserved]
  simp

theorem run_confined (s : Simulator) (n : Nat) :
    (∀ u v : Simulator, (∀ x, step u = .ok (some x) v → x.instruction.Confined u.machine v.machine) ∧
      (step u = .ok none v ∨ (∃ e, step u = .error e v) → v.machine = u.machine)) ∧
    (∀ i, Flag.Reserved i → (s.steps n).2.machine.flags.getLsbD i = s.machine.flags.getLsbD i) ∧
    (s.steps n).2.machine.flags = lastStatus s.machine.flags (s.trace n) ∧
    (∀ p : Fin Memory.size, 0x10000 < p.val →
      (s.steps n).2.machine.memory.byteAt p = s.machine.memory.byteAt p) ∧
    (∀ r ∈ [Register.es, .cs, .ss, .ds],
      (∀ x ∈ s.trace n, x.after.word r ≠ x.before.word r → x.instruction.Moves r) ∧
      ((∀ x ∈ s.trace n, ¬x.instruction.Moves r) →
        (s.steps n).2.machine.registers.word r = s.machine.registers.word r)) ∧
    (s.machine.flags = 0 → (Register.File.HasFlagsLine (s.steps n).2.machine.registers.summary ↔
      ∃ f : Flag, (s.steps n).2.machine.isSet f = true)) := by
  have htrail := s.trail_steps n
  refine ⟨?_, ?_, htrail.flags_eq, ?_, ?_, ?_⟩
  · intro u v
    refine ⟨fun x => confined_of_step, ?_⟩
    rintro (hnone | ⟨e, herror⟩)
    · rw [step_none hnone]
    · exact machine_of_step_error herror
  · intro i hi
    exact htrail.getLsbD_flags hi
  · intro p hp
    exact htrail.byteAt_of_beyond hp
  · intro r hr
    refine ⟨?_, htrail.word_of_not_moves hr⟩
    intro x hx hne
    obtain ⟨m, m', hbetween⟩ := htrail.exists_between x hx
    rw [hbetween.before, hbetween.after] at hne
    exact hbetween.moves_of_ne hr hne
  · intro hzero
    exact hasFlagsLine_of_trail htrail hzero

theorem run_confined_of_move_to_es :
    ∃ s t u, s = ofProgram #[0xB8, 0x01, 0x00, 0x8E, 0xC0, 0x2D, 0x01, 0x00] false ∧ s.steps 4 = (.finished, t) ∧
      (∃ x ∈ s.trace 4, x.instruction.Moves .es) ∧ t.machine.registers.word .ds = 0 ∧
      (∃ x, step s = .ok (some x) u ∧ x.instruction.Confined s.machine u.machine) ∧
      (∀ v, step t = .ok none v → v.machine = t.machine) ∧ step t = .ok none t ∧
      t.machine.flags.getLsbD 1 = false ∧ t.machine.memory.byteAt ⟨0x10001, by decide⟩ = 0 ∧
      Register.File.HasFlagsLine t.machine.registers.summary := by
  obtain ⟨hstep, hreserved, _, hbeyond, hsegment, hline⟩ :=
    run_confined (ofProgram #[0xB8, 0x01, 0x00, 0x8E, 0xC0, 0x2D, 0x01, 0x00] false) 4
  have hes : ∃ x ∈ (ofProgram #[0xB8, 0x01, 0x00, 0x8E, 0xC0, 0x2D, 0x01, 0x00] false).trace 4,
      x.after.word .es ≠ x.before.word .es := by decide
  have hds : ∀ x ∈ (ofProgram #[0xB8, 0x01, 0x00, 0x8E, 0xC0, 0x2D, 0x01, 0x00] false).trace 4,
      x.instruction.destination?.map Operand.kind ≠ some (.register (.whole .ds)) := by decide
  refine ⟨_, _, _, rfl, rfl, ?_, ?_, ⟨_, rfl, ?_⟩, ?_, rfl, ?_, ?_, ?_⟩
  · obtain ⟨x, hx, hne⟩ := hes
    exact ⟨x, hx, (hsegment .es (by decide)).1 x hx hne⟩
  · refine (hsegment .ds (by decide)).2 ?_
    rintro x hx ⟨_, o, ho, hkind⟩
    apply hds x hx
    rw [ho, Option.map_some, hkind]
  · exact (hstep _ _).1 _ rfl
  · intro v hv
    exact (hstep _ v).2 (.inl hv)
  · exact hreserved 1 (by intro f; cases f <;> decide)
  · exact hbeyond _ (by decide)
  · exact (hline rfl).mpr ⟨.zero, rfl⟩

end Simulator

/-!
## Nothing is lost on the lines

Each step begins with the registers that the one before it has left. So the registers at the start and the lines tell
the registers at the end (`trace_lossless`), FLAGS included, since no step changes a bit of it that has no letter.
-/

-- With a g in no instruction, the name of FLAGS is told from all that stands in front of it.
theorem Code.g_not_mem_text (c : Code) : 'g' ∉ c.instruction.text.toList := by
  have hmnemonic : ∀ o ∈ Operation.all, 'g' ∉ o.mnemonic.toList := by decide
  have hregisters : ∀ (w : Width) (k : Fin 8), 'g' ∉ w.registers[k].name.toList := by
    intro w
    cases w <;> decide
  have hsegments : ∀ k : Fin 4, 'g' ∉ Register.segments[k].name.toList := by decide
  have hoperation := hmnemonic _ c.instruction.operation.mem_all
  have hoperand : ∀ s ∈ c.operands.map (Instruction.operandText c.operation), 'g' ∉ s.toList := by
    intro s hs
    obtain ⟨o, ho, rfl⟩ := List.mem_map.mp hs
    apply Text.Foreign.not_mem_operandText ⟨by decide, by decide⟩
    intro view hview
    rcases c.common_or_segment o ho with hcommon | ⟨_, k, rfl⟩
    · cases hcommon with
      | register size w k =>
        cases hview
        exact hregisters w k
      | _ => cases hview
    · cases hview
      exact hsegments k
  unfold Instruction.text
  split
  · exact hoperation
  · exact Text.not_mem_append (Text.not_mem_append hoperation (by decide)) (Text.not_mem_intercalate (by decide) hoperand)

/-! ### One step -/

namespace Step.Between

variable {x y : Step} {m m' k k' : Machine}

theorem flags_eq_iff (h : x.Between m m') : x.before.word .flags = x.after.word .flags ↔
    ∀ f : Flag, f.isSet (x.before.word .flags) = f.isSet (x.after.word .flags) := by
  refine ⟨?_, ?_⟩
  · intro heq f
    rw [heq]
  · intro hset
    apply Flag.eq_of_isSet hset
    intro i hi
    rw [h.before, h.after]
    exact (h.getLsbD_flags hi).symm

theorem showsFlags_iff (h : x.Between m m') : x.ShowsFlags ↔
    ∃ f : Flag, f.isSet (x.before.word .flags) ≠ f.isSet (x.after.word .flags) := by
  obtain ⟨c, hc⟩ := h.code
  have hg : 'g' ∉ x.instruction.text.toList := hc ▸ c.g_not_mem_text
  rw [Step.showsFlags_iff hg, ne_eq, h.flags_eq_iff]
  exact not_forall

theorem text_of_showsFlags (h : x.Between m m') (hx : x.ShowsFlags) : ∃ front, x.text =
    front ++ " flags:" ++ Flag.letters (x.before.word .flags) ++ "->" ++ Flag.letters (x.after.word .flags) ∧
      Flag.letters (x.before.word .flags) ≠ Flag.letters (x.after.word .flags) := by
  obtain ⟨f, hf⟩ := h.showsFlags_iff.mp hx
  have hletters : Flag.letters (x.before.word .flags) ≠ Flag.letters (x.after.word .flags) :=
    fun heq => hf (Flag.letters_inj heq f)
  obtain ⟨front, htext⟩ := Step.text_of_flags_ne fun heq => hletters (congrArg Flag.letters heq)
  exact ⟨front, htext, hletters⟩

theorem registers_eq (hx : x.Between m m') (hy : y.Between k k') (hr : m.registers = k.registers)
    (h : x.text = y.text) : m'.registers = k'.registers := by
  have hbefore : x.before = y.before := by rw [hx.before, hy.before, hr]
  obtain ⟨hgeneral, hflags⟩ := Step.after_of_text_eq hbefore h
  rw [hx.after, hy.after] at hgeneral hflags
  apply Register.File.ext_word
  intro r
  rcases List.mem_append.mp r.mem_all with hr' | hr'
  · exact hgeneral r hr'
  · rw [List.mem_singleton.mp hr']
    apply Flag.eq_of_isSet hflags
    intro i hi
    have hm := hx.getLsbD_flags hi
    have hk := hy.getLsbD_flags hi
    rw [Machine.flags, Machine.flags] at hm hk
    rw [hm, hk, hr]

end Step.Between

/-! ### The whole run -/

namespace Trail

variable {l l' : List Step} {m m' k k' : Machine}

theorem before_head (h : Trail m l m') : ∀ x ∈ l.head?, x.before = m.registers := by
  cases h with
  | nil => exact nofun
  | cons head =>
    rintro _ ⟨⟩
    exact head.before

theorem isChain (h : Trail m l m') : l.IsChain (fun x y => y.before = x.after) := by
  induction h with
  | nil => exact .nil
  | cons head tail ih =>
    cases tail with
    | nil => exact .singleton _
    | cons head' _ => exact .cons_cons (head'.before.trans head.after.symm) ih

theorem registers_last (h : Trail m l m') : m'.registers = (l.map Step.after).getLastD m.registers := by
  induction h with
  | nil => rfl
  | @cons x l m m₁ m' head tail ih =>
    rw [ih, ← head.after, List.map_cons, List.getLastD_cons]

theorem registers_eq (h : Trail m l m') (h' : Trail k l' k') (hr : m.registers = k.registers)
    (ht : l.map Step.text = l'.map Step.text) : m'.registers = k'.registers := by
  induction h generalizing k l' with
  | nil =>
    obtain rfl := List.map_eq_nil_iff.mp ht.symm
    cases h'
    exact hr
  | cons head tail ih =>
    cases h' with
    | nil => cases ht
    | cons head' tail' =>
      obtain ⟨htext, htexts⟩ := List.cons.inj ht
      exact ih tail' (head.registers_eq head' hr htext) htexts

end Trail

namespace Simulator

theorem lines_lines (s : Simulator) (n : Nat) : Text.lines (s.lines n) = (s.trace n).map Step.text ++ [""] := by
  have hlines : s.lines n = String.join (((s.trace n).map Step.text).map (· ++ "\n")) := by
    rw [lines, List.map_map]
    rfl
  rw [hlines, ← String.append_empty (s := String.join _), Text.lines_join, Text.lines_empty]
  intro text htext
  obtain ⟨x, _, rfl⟩ := List.mem_map.mp htext
  exact x.lineEnd_not_mem_text

theorem trace_lossless :
    (∀ x y : Step, x.before = y.before → x.text = y.text → x.instruction.text = y.instruction.text ∧
      (∀ r ∈ Register.general, x.after.word r = y.after.word r) ∧
      ∀ f : Flag, f.isSet (x.after.word .flags) = f.isSet (y.after.word .flags)) ∧
    (∀ (s : Simulator) (n : Nat),
      (∀ x ∈ (s.trace n).head?, x.before = s.machine.registers) ∧
      (s.trace n).IsChain (fun x y => y.before = x.after) ∧
      (s.steps n).2.machine.registers = ((s.trace n).map Step.after).getLastD s.machine.registers ∧
      ∀ x ∈ s.trace n,
        (x.ShowsFlags ↔ ∃ f : Flag, f.isSet (x.before.word .flags) ≠ f.isSet (x.after.word .flags)) ∧
        (x.ShowsFlags → ∃ front, x.text = front ++ " flags:" ++ Flag.letters (x.before.word .flags) ++ "->" ++
            Flag.letters (x.after.word .flags) ∧
          Flag.letters (x.before.word .flags) ≠ Flag.letters (x.after.word .flags))) ∧
    ∀ (s t : Simulator) (m n : Nat), s.machine.registers = t.machine.registers → s.lines m = t.lines n →
      (s.steps m).2.machine.registers = (t.steps n).2.machine.registers := by
  refine ⟨?_, ?_, ?_⟩
  · intro x y hb h
    exact ⟨Step.instruction_of_text_eq h, Step.after_of_text_eq hb h⟩
  · intro s n
    have htrail := s.trail_steps n
    refine ⟨htrail.before_head, htrail.isChain, htrail.registers_last, ?_⟩
    intro x hx
    obtain ⟨m, m', hbetween⟩ := htrail.exists_between x hx
    exact ⟨hbetween.showsFlags_iff, hbetween.text_of_showsFlags⟩
  · intro s t m n hr h
    have htexts : (s.trace m).map Step.text = (t.trace n).map Step.text := by
      rw [← List.append_left_inj [""], ← lines_lines, ← lines_lines, h]
    exact (s.trail_steps m).registers_eq (t.trail_steps n) hr htexts

theorem trace_lossless_of_two_encodings :
    ∃ s t x y, s = ofProgram #[0x29, 0xC0] false ∧ t = ofProgram #[0x2B, 0xC0] false ∧ s.trace 1 = [x] ∧
      t.trace 1 = [y] ∧ x.instruction.text = y.instruction.text ∧ x.after.word .ip = y.after.word .ip ∧ x.ShowsFlags ∧
      Flag.letters (x.before.word .flags) ≠ Flag.letters (x.after.word .flags) ∧
      x.before = s.machine.registers ∧ (s.steps 1).2.machine.registers = (t.steps 1).2.machine.registers := by
  obtain ⟨htext, hrun, hlines⟩ := trace_lossless
  refine ⟨_, _, _, _, rfl, rfl, rfl, rfl, ?_⟩
  obtain ⟨hbefore, _, _, hflags⟩ := hrun (ofProgram #[0x29, 0xC0] false) 1
  obtain ⟨hshows, hchanged⟩ := hflags _ (.head _)
  obtain ⟨hinstruction, hgeneral, _⟩ := htext _ _ rfl rfl
  have hshown := hshows.mpr ⟨.zero, by decide⟩
  obtain ⟨_, _, hne⟩ := hchanged hshown
  exact ⟨hinstruction, hgeneral .ip (by decide), hshown, hne, hbefore _ rfl, hlines _ _ 1 1 rfl rfl⟩

end Simulator

end I8086
