import Mathlib.Data.List.Chain
import I8086.Proofs.Machine.Confined
import I8086.Proofs.Program.Walk
import I8086.Proofs.Simulator.Trace
import I8086.Proofs.Simulator.Jump

/-! # Loops, and programs without a way back -/

namespace I8086

/-!
## Loops

A loop whose body has no jumps and assigns nothing to CX goes through its body as often as CX says, or 65536 times where
CX is zero: CX is counted down before it is tested.
-/

open Walk

inductive Block (program : Array Byte) : Nat → List Item → Prop
  | nil {offset : Nat} : Block program offset []
  | cons {offset : Nat} {d : Decoded} {items : List Item} (decode : decode program offset = .ok d)
    (block : Block program (offset + d.size) items) : Block program offset (⟨offset, d⟩ :: items)

/-- A body at `offset`, and behind it a loop instruction that leads back to `offset`. -/
structure Loop (program : Array Byte) (offset : Nat) (body : List Item) (d : Decoded) : Prop where
  block : Block program offset body
  notJump : ∀ item ∈ body, item.decoded.instruction.operation.isJump = false
  notAssigns : ∀ item ∈ body, ¬item.decoded.instruction.Assigns .cx
  decode : decode program (offset + covered body) = .ok d
  operation : d.instruction.operation = .loop .always
  displacement : ∃ x, d.instruction.displacement = .ok x ∧ x.toInt = -(covered body + 2)

def Loop.pass (offset : Nat) (body : List Item) (d : Decoded) : List (Nat × Instruction) :=
  body.map Item.place ++ [(offset + covered body, d.instruction)]

theorem Block.offset_lt {program : Array Byte} {offset : Nat} {items : List Item} {item : Item}
    (h : Block program offset items) (hi : item ∈ items) : item.offset < offset + covered items := by
  induction h with
  | nil => cases hi
  | @cons offset d items _ _ ih =>
    have hpos := d.size_pos
    rw [covered_cons]
    change _ < offset + (d.size + covered items)
    cases hi with
    | head => exact Nat.lt_add_of_pos_right (by omega)
    | tail _ hi =>
      have := ih hi
      omega

theorem Loop.le_of_mem_pass {program : Array Byte} {offset : Nat} {body : List Item} {d : Decoded}
    {p : Nat × Instruction} (h : Loop program offset body d) (hp : p ∈ pass offset body d) :
    p.1 ≤ offset + covered body := by
  rcases List.mem_append.mp hp with hp | hp
  · obtain ⟨item, hi, rfl⟩ := List.mem_map.mp hp
    exact Nat.le_of_lt (h.block.offset_lt hi)
  · obtain rfl := List.mem_singleton.mp hp
    exact Nat.le_refl _

namespace Simulator

variable {s t u : Simulator} {x : Step} {places places' : List (Nat × Instruction)}

/-- The next steps execute what is at the places, one after the other, and leave `t`. -/
structure Executes (s : Simulator) (places : List (Nat × Instruction)) (t : Simulator) : Prop where
  steps : s.steps places.length = (.limit, t)
  trace : (s.trace places.length).map Step.place = places

namespace Executes

theorem refl (s : Simulator) : s.Executes [] s := ⟨rfl, rfl⟩

theorem of_step {d : Decoded} (hd : decode s.program s.ip.toNat = .ok d) (h : step s = .ok (some x) t) :
    s.Executes [(s.ip.toNat, d.instruction)] t where
  steps := steps_of_some h 0
  trace := by
    change (s.trace 1).map Step.place = _
    rw [Simulator.trace, h, ← place_of_step hd h]
    rfl

theorem append (h : s.Executes places t) (h' : t.Executes places' u) : s.Executes (places ++ places') u where
  steps := by rw [List.length_append, steps_add h.steps, h'.steps]
  trace := by rw [List.length_append, trace_add h.steps, List.map_append, h.trace, h'.trace]

theorem program (h : s.Executes places t) : t.program = s.program := program_of_steps h.steps

theorem exists_place (h : s.Executes places t) {m : Nat} (hm : m < places.length) :
    ∃ p ∈ places, p.1 = (s.steps m).2.ip.toNat := by
  obtain ⟨x, hx, haddress⟩ := exists_mem_trace h.steps hm
  refine ⟨x.place, ?_, congrArg BitVec.toNat haddress⟩
  rw [← h.trace]
  exact List.mem_map_of_mem hx

end Executes

theorem exists_executes_block {offset : Nat} {body : List Item} (hb : Block s.program offset body)
    (size : s.program.size ≤ maxProgramSize) (hip : s.ip.toNat = offset)
    (hjump : ∀ item ∈ body, item.decoded.instruction.operation.isJump = false)
    (hassigns : ∀ item ∈ body, ¬item.decoded.instruction.Assigns .cx) :
    ∃ t, s.Executes (body.map Item.place) t ∧ t.ip.toNat = offset + covered body ∧
      t.machine.registers.word .cx = s.machine.registers.word .cx := by
  generalize hprogram : s.program = program at hb
  induction hb generalizing s with
  | nil => exact ⟨s, .refl s, hip, rfl⟩
  | @cons offset d items decode block ih =>
    subst hprogram hip
    obtain ⟨m, hm, hstep⟩ := step_of_not_jump size decode (hjump _ (.head _))
    have hcx : m.registers.word .cx = s.machine.registers.word .cx :=
      (confined_of_decode decode hm).word_eq (hassigns _ (.head _))
        (Instruction.not_implicit_cx (hjump _ (.head _)))
    have hprogram := program_of_step hstep
    obtain ⟨t, ht, hip, hkept⟩ := ih (hprogram ▸ size) (by rw [ip_executing_withIp, toNat_behind size decode])
      (fun item hi => hjump item (.tail _ hi)) (fun item hi => hassigns item (.tail _ hi)) hprogram
    refine ⟨t, (Executes.of_step decode hstep).append ht, ?_, ?_⟩
    · rw [hip, covered_cons, Nat.add_assoc]
    · rw [hkept, ← hcx]
      exact m.word_withIp _ .cx

/-! ### Passes -/

section
variable {body : List Item} {d : Decoded}

theorem exists_executes_loop {y : Word} (size : s.program.size ≤ maxProgramSize)
    (hd : decode s.program s.ip.toNat = .ok d) (ho : d.instruction.operation = .loop .always)
    (hy : d.instruction.displacement = .ok y) :
    ∃ t, s.Executes [(s.ip.toNat, d.instruction)] t ∧ t.machine.flags = s.machine.flags ∧
      t.machine.registers.word .cx = s.machine.registers.word .cx - 1 ∧
      t.ip = if s.machine.registers.word .cx - 1 = 0 then s.ip + 2 else s.ip + 2 + y := by
  obtain ⟨x, z, hx, hstep⟩ := step_of_isJump size hd (by rw [ho]; rfl)
  cases hx.symm.trans hy
  rw [ho] at hstep
  refine ⟨_, .of_step hd hstep, ?_, ?_, ?_⟩
  · exact (Machine.flags_withIp _ _).trans (Machine.flags_countDown _)
  · exact (Machine.word_withIp _ _ .cx).trans (Machine.cx_countDown _)
  · rw [ip_executing_withIp]
    simp [Machine.takes, LoopTest.holds]

theorem exists_executes_pass (h : Loop s.program s.ip.toNat body d) (size : s.program.size ≤ maxProgramSize) :
    ∃ u t, s.Executes (body.map Item.place) u ∧ u.Executes [(s.ip.toNat + covered body, d.instruction)] t ∧
      t.machine.flags = u.machine.flags ∧ (body = [] → t.machine.flags = s.machine.flags) ∧
      t.machine.registers.word .cx = s.machine.registers.word .cx - 1 ∧
      (s.machine.registers.word .cx - 1 ≠ 0 → t.ip = s.ip) ∧
      (s.machine.registers.word .cx - 1 = 0 → t.ip.toNat = s.ip.toNat + covered body + 2) := by
  obtain ⟨u, hu, hip, hcx⟩ := exists_executes_block h.block size rfl h.notJump h.notAssigns
  obtain ⟨y, hy, hback⟩ := h.displacement
  have hd := h.decode
  rw [← hip, ← hu.program] at hd
  obtain ⟨t, ht, hflags, hcount, hnext⟩ := exists_executes_loop (hu.program ▸ size) hd h.operation hy
  have hbehind := toNat_behind_jump (hu.program ▸ size) hd (by rw [h.operation]; rfl)
  rw [hcx] at hcount hnext
  rw [hip] at ht
  refine ⟨u, t, hu, ht, hflags, ?_, hcount, ?_, ?_⟩
  · rintro rfl
    cases hu.steps
    exact hflags
  · intro hne
    rw [hnext, if_neg hne]
    -- The displacement is negative, so as a word it leads back by going over the top.
    apply BitVec.eq_of_toNat_eq
    rw [BitVec.toInt_eq_toNat_cond] at hback
    rw [BitVec.toNat_add, hbehind, hip]
    have := s.ip.isLt
    have := y.isLt
    split at hback <;> omega
  · intro hzero
    rw [hnext, if_pos hzero, hbehind, hip]

theorem exists_executes_passes {n : Nat} (h : Loop s.program s.ip.toNat body d)
    (size : s.program.size ≤ maxProgramSize) (hn : (s.machine.registers.word .cx - 1).toNat = n) :
    ∃ u t, s.Executes ((List.replicate n (Loop.pass s.ip.toNat body d)).flatten ++ body.map Item.place) u ∧
      u.Executes [(s.ip.toNat + covered body, d.instruction)] t ∧
      t.machine.flags = u.machine.flags ∧ (body = [] → t.machine.flags = s.machine.flags) ∧
      t.machine.registers.word .cx = 0 ∧ t.ip.toNat = s.ip.toNat + covered body + 2 := by
  -- `n` is how often the loop instruction will still lead back: once less than it is executed.
  induction n generalizing s with
  | zero =>
    obtain ⟨u, t, hu, ht, hflags, hempty, hcount, _, hexit⟩ := exists_executes_pass h size
    have hzero : s.machine.registers.word .cx - 1 = 0 := BitVec.eq_of_toNat_eq hn
    exact ⟨u, t, hu, ht, hflags, hempty, hcount.trans hzero, hexit hzero⟩
  | succ n ih =>
    obtain ⟨v, w, hv, hw, _, hempty, hcount, hagain, _⟩ := exists_executes_pass h size
    have hne : s.machine.registers.word .cx - 1 ≠ 0 := by
      intro hzero
      rw [hzero] at hn
      cases hn
    have hpass : s.Executes (Loop.pass s.ip.toNat body d) w := hv.append hw
    have hip := hagain hne
    have hprogram := hpass.program
    have hleft : (w.machine.registers.word .cx - 1).toNat = n := by
      rw [hcount]
      bv_omega
    rw [← hprogram, ← hip] at h
    obtain ⟨u, t, hu, ht, hflags, hkept, hzero, hexit⟩ := ih h (hprogram ▸ size) hleft
    rw [hip] at hu ht hexit
    refine ⟨u, t, ?_, ht, hflags, fun hb => (hkept hb).trans (hempty hb), hzero, hexit⟩
    rw [List.replicate_succ, List.flatten_cons, List.append_assoc]
    exact hpass.append hu

theorem toNat_sub_one_add_one (x : Word) : (x - 1).toNat + 1 = if x = 0 then 65536 else x.toNat := by
  split <;> bv_omega

/-- A loop executes its body and itself as often as CX says, or 65536 times if CX is zero, and only then leads behind
itself. CX is zero then, and the flags are those of the last body, or those from before if the body is empty. -/
theorem loop_repeats_body (size : s.program.size ≤ maxProgramSize) (h : Loop s.program s.ip.toNat body d) :
    let cx := s.machine.registers.word .cx
    let n := if cx = 0 then 65536 else cx.toNat
    let count := n * (body.length + 1)
    let behind := s.ip.toNat + covered body + 2
    ∃ t, s.steps count = (.limit, t) ∧
      (s.trace count).map Step.place = (List.replicate n (Loop.pass s.ip.toNat body d)).flatten ∧
      t.ip.toNat = behind ∧ (∀ m < count, (s.steps m).2.ip.toNat ≠ behind) ∧
      t.machine.registers.word .cx = 0 ∧ t.executed = s.executed + count ∧
      (body = [] → t.machine.flags = s.machine.flags) ∧
      ∃ u, s.steps (count - 1) = (.limit, u) ∧ t.machine.flags = u.machine.flags := by
  intro cx n count behind
  obtain ⟨u, t, hu, ht, hflags, hempty, hzero, hip⟩ := exists_executes_passes h size rfl
  have hpasses : (List.replicate (cx - 1).toNat (Loop.pass s.ip.toNat body d)).flatten ++ body.map Item.place ++
      [(s.ip.toNat + covered body, d.instruction)] = (List.replicate n (Loop.pass s.ip.toNat body d)).flatten := by
    rw [List.append_assoc, ← Loop.pass, ← List.flatten_concat, ← List.replicate_succ', toNat_sub_one_add_one]
  have hall := hu.append ht
  rw [hpasses] at hall
  have hcount : (List.replicate n (Loop.pass s.ip.toNat body d)).flatten.length = count := by simp [Loop.pass, count]
  have hlast := congrArg List.length hpasses
  rw [hcount, List.length_append, List.length_singleton] at hlast
  have hsteps := hall.steps
  have htrace := hall.trace
  rw [hcount] at hsteps htrace
  refine ⟨t, hsteps, htrace, hip, ?_, hzero, executed_of_steps hsteps, hempty, u, ?_, hflags⟩
  · intro m hm
    obtain ⟨p, hp, hplace⟩ := hall.exists_place (hcount.symm ▸ hm)
    obtain ⟨_, hpass, hp⟩ := List.mem_flatten.mp hp
    have hle := h.le_of_mem_pass (List.eq_of_mem_replicate hpass ▸ hp)
    omega
  · rw [← hlast]
    exact hu.steps

theorem loop_repeats_addition :
    ∃ t, (ofProgram #[0x01, 0xD8, 0xE2, 0xFC] false).steps 131072 = (.limit, t) ∧ t.ip.toNat = 4 ∧
      t.machine.registers.word .cx = 0 := by
  have hdecode : decode #[0x01, 0xD8, 0xE2, 0xFC] 0 =
      .ok ⟨⟨.arith .add, [.register (.whole .ax), .register (.whole .bx)]⟩, 2, by decide⟩ := rfl
  have hloop : Loop #[0x01, 0xD8, 0xE2, 0xFC] 0
      [⟨0, ⟨⟨.arith .add, [.register (.whole .ax), .register (.whole .bx)]⟩, 2, by decide⟩⟩]
      ⟨⟨.loop .always, [.signed 0xFFFC]⟩, 2, by decide⟩ := {
    block := .cons hdecode .nil
    notJump := by
      intro item hi
      obtain rfl := List.mem_singleton.mp hi
      rfl
    notAssigns := by
      intro item hi
      obtain rfl := List.mem_singleton.mp hi
      rintro ⟨_, o, view, ho, hkind, hview⟩
      cases ho
      cases hkind
      cases hview
    decode := rfl
    operation := rfl
    displacement := ⟨0xFFFC, rfl, rfl⟩ }
  obtain ⟨t, hsteps, _, hip, _, hcx, _⟩ :=
    loop_repeats_body (s := ofProgram #[0x01, 0xD8, 0xE2, 0xFC] false) (by decide) hloop
  exact ⟨t, hsteps, hip, hcx⟩

end

end Simulator

/-!
## Programs whose jumps lead forward

Where no jump leads back, and none past the last address that IP has, every step moves IP on by two bytes at least and
none of them wraps. So the steps end, behind at most one instruction for every two bytes (`forward_halts`).
-/

theorem Operation.isJump_of_takes {m : Machine} {o : Operation} (h : m.takes o = true) : o.isJump = true := by
  cases o with
  | mov | arith op => cases h
  | jump c | loop t | jcxz => rfl

namespace Simulator

/-- Whatever jump is decoded at an offset of the program, it leads behind itself, and no further than IP reaches. -/
structure Forward (program : Array Byte) : Prop where
  size : program.size ≤ maxProgramSize
  jumps : ∀ offset d x, offset < program.size → decode program offset = .ok d →
    d.instruction.operation.isJump = true → d.instruction.displacement = .ok x →
      0 ≤ x.toInt ∧ offset + 2 + x.toInt ≤ 65535

structure Onward (s : Simulator) (d : Decoded) (t : Simulator) : Prop where
  end_le : s.ip.toNat + d.size ≤ s.program.size
  behind : s.machine.takes d.instruction.operation = false → t.ip.toNat = s.ip.toNat + d.size
  branched : s.machine.takes d.instruction.operation = true →
    ∃ y, d.instruction.displacement = .ok y ∧ (t.ip.toNat : Int) = s.target y
  le : s.ip.toNat + 2 ≤ t.ip.toNat

variable {s t u : Simulator} {x : Step} {d : Decoded} {n : Nat}

/-! ### One step -/

theorem Forward.target_bounds {y : Word} (hp : Forward s.program) (hd : decode s.program s.ip.toNat = .ok d)
    (hjump : d.instruction.operation.isJump = true) (hy : d.instruction.displacement = .ok y) :
    s.ip.toNat + 2 ≤ s.target y ∧ s.target y < 0x10000 := by
  have hlt : s.ip.toNat < s.program.size := Nat.lt_of_not_le (of_decide_eq_false (running_of_decode hd))
  have hforward := hp.jumps _ d y hlt hd hjump hy
  rw [target]
  omega

theorem ip_of_not_takes (size : s.program.size ≤ maxProgramSize) (hd : decode s.program s.ip.toNat = .ok d)
    (htakes : s.machine.takes d.instruction.operation = false) (h : step s = .ok (some x) t) :
    t.ip.toNat = s.ip.toNat + d.size := by
  cases hjump : d.instruction.operation.isJump with
  | false =>
    obtain ⟨_, _, hstep, _, _, _, _, hip⟩ := next_of_not_jump size hd hjump
    cases h.symm.trans hstep
    exact hip
  | true =>
    obtain ⟨y, z, _, hstep⟩ := step_of_isJump size hd hjump
    rw [htakes, if_neg Bool.false_ne_true] at hstep
    cases h.symm.trans hstep
    rw [ip_executing_withIp, size_of_isJump hd hjump]
    exact toNat_behind_jump size hd hjump

theorem onward_of_step (hp : Forward s.program) (hd : decode s.program s.ip.toNat = .ok d)
    (h : step s = .ok (some x) t) : s.Onward d t := by
  have hfits := Family.fits_of_decode hd
  cases htakes : s.machine.takes d.instruction.operation with
  | false =>
    have hip := ip_of_not_takes hp.size hd htakes h
    have hle : s.ip.toNat + 2 ≤ t.ip.toNat := by
      have := hfits.bounds
      omega
    exact ⟨hfits.le, fun _ => hip, fun ht => absurd (htakes.symm.trans ht) Bool.false_ne_true, hle⟩
  | true =>
    have hjump := Operation.isJump_of_takes htakes
    obtain ⟨y, z, t', hy, hstep, _, hip⟩ := exists_step_of_takes hp.size hd hjump htakes
    cases h.symm.trans hstep
    have hbounds := hp.target_bounds hd hjump hy
    have htarget : (t.ip.toNat : Int) = s.target y := by omega
    exact ⟨hfits.le, fun ht => absurd (ht.symm.trans htakes) Bool.false_ne_true, fun _ => ⟨y, hy, htarget⟩, by omega⟩

theorem exists_onward (hp : Forward s.program) (h : step s = .ok (some x) t) :
    ∃ d, decode s.program s.ip.toNat = .ok d ∧ x.instruction = d.instruction ∧ s.Onward d t := by
  cases StepCase.of_step h with
  | @executed d m size running hd hm => exact ⟨d, hd, rfl, onward_of_step hp hd h⟩

/-! ### The whole run -/

theorem address_head (s : Simulator) (n : Nat) : ∀ x ∈ (s.trace n).head?, x.address = s.ip := by
  cases n with
  | zero =>
    rintro _ ⟨⟩
  | succ n =>
    rw [trace]
    split
    · next hs =>
      rintro _ ⟨⟩
      exact address_of_step hs
    all_goals rintro _ ⟨⟩

theorem isChain_forward (hp : Forward s.program) (n : Nat) :
    (s.trace n).IsChain fun x y => x.address.toNat + 2 ≤ y.address.toNat := by
  induction n generalizing s with
  | zero => exact .nil
  | succ n ih =>
    rw [trace]
    split
    · next x t hs =>
      obtain ⟨d, _, _, honward⟩ := exists_onward hp hs
      refine List.isChain_cons.mpr ⟨?_, ih (program_of_step hs ▸ hp)⟩
      intro y hy
      rw [address_of_step hs, t.address_head n y hy]
      exact honward.le
    · exact .nil
    · exact .nil

theorem exists_ends_forward (hp : Forward s.program) : ∃ n u, 2 * n ≤ s.program.size - s.ip.toNat ∧
    (s.Ends n u .finished ∨ ∃ e, s.Ends n u (.failed e) ∧ decode u.program u.ip.toNat = .error e) := by
  -- on what is left of the program behind IP: each step shortens it by two bytes at least
  induction hroom : s.program.size - s.ip.toNat using Nat.strongRecOn generalizing s with
  | _ room ih =>
    have hc := step_cases s
    generalize hs : step s = r at hc
    cases hc with
    | tooLarge size => exact absurd hp.size (Nat.not_le.mpr size)
    | finished => exact ⟨0, s, Nat.zero_le _, .inl (.zero_of_none hs)⟩
    | @undecoded e size running decode => exact ⟨0, s, Nat.zero_le _, .inr ⟨e, .zero_of_error hs, decode⟩⟩
    | @executed d m size running decode execute =>
      have honward := onward_of_step hp decode hs
      have hprogram := program_of_step hs
      have hbounds := (Family.fits_of_decode decode).bounds
      have hend := honward.end_le
      have hle := honward.le
      obtain ⟨n, u, hn, hends⟩ := ih _ (by rw [hprogram]; omega) (hprogram ▸ hp) rfl
      refine ⟨n + 1, u, by rw [hprogram] at hn; omega, ?_⟩
      rcases hends with hends | ⟨e, hends, hdecode⟩
      · exact .inl (hends.cons hs)
      · exact .inr ⟨e, hends.cons hs, hdecode⟩

/-- In a program whose jumps lead forward each step executes behind the one before it and takes IP on without wrapping.
After at most half as many steps as the program has bytes it is at its end, or there is nothing to decode. -/
theorem forward_halts (s : Simulator) (hp : Forward s.program) :
    (∀ n u x t, s.steps n = (.limit, u) → step u = .ok (some x) t → x.address = u.ip ∧
      ∃ d, decode s.program u.ip.toNat = .ok d ∧ x.instruction = d.instruction ∧ u.Onward d t) ∧
    (∀ n, (s.trace n).IsChain fun x y => x.address.toNat + 2 ≤ y.address.toNat) ∧
    ∃ n u, n ≤ s.program.size / 2 ∧ u.executed = s.executed + n ∧
      (s.Ends n u .finished ∨ ∃ e, s.Ends n u (.failed e) ∧ decode s.program u.ip.toNat = .error e) := by
  refine ⟨?_, isChain_forward hp, ?_⟩
  · intro n u x t hu hs
    have hprogram := program_of_steps hu
    obtain ⟨d, hd, hinstruction, honward⟩ := exists_onward (hprogram ▸ hp) hs
    exact ⟨address_of_step hs, d, hprogram ▸ hd, hinstruction, honward⟩
  · obtain ⟨n, u, hn, hends⟩ := exists_ends_forward hp
    refine ⟨n, u, by omega, ?_, ?_⟩
    · rcases hends with hends | ⟨e, hends, _⟩
      · exact executed_of_steps hends.steps
      · exact executed_of_steps hends.steps
    · rcases hends with hends | ⟨e, hends, hd⟩
      · exact .inl hends
      · exact .inr ⟨e, hends, program_of_steps hends.steps ▸ hd⟩

theorem forward_halts_over_move :
    Forward #[0xE3, 0x02, 0x89, 0xC0] ∧
      ∃ n u, n ≤ 2 ∧ ((ofProgram #[0xE3, 0x02, 0x89, 0xC0] false).Ends n u .finished ∨
        ∃ e, (ofProgram #[0xE3, 0x02, 0x89, 0xC0] false).Ends n u (.failed e)) := by
  have hforward : Forward #[0xE3, 0x02, 0x89, 0xC0] := by
    refine ⟨by decide, ?_⟩
    intro offset d x hlt hd hjump hx
    have hoffset : offset = 0 ∨ offset = 1 ∨ offset = 2 ∨ offset = 3 := by
      change offset < 4 at hlt
      omega
    rcases hoffset with rfl | rfl | rfl | rfl
    · cases hd
      cases hx
      decide
    · cases hd
    · cases hd
      cases hjump
    · cases hd
  obtain ⟨_, _, n, u, hn, _, hends⟩ := forward_halts (ofProgram #[0xE3, 0x02, 0x89, 0xC0] false) hforward
  refine ⟨hforward, n, u, hn, ?_⟩
  rcases hends with hends | ⟨e, hends, _⟩
  · exact .inl hends
  · exact .inr ⟨e, hends⟩

end Simulator

end I8086
