import I8086.Proofs.Encoding.Table
import I8086.Proofs.Machine.Execute

/-! # Execution of what was decoded -/

namespace I8086

/-!
## Executing what was decoded

A decoded instruction is fit for execution: it has two operands of known width of which the first is a place, or one
displacement (`fit_of_decode`). So it executes in every state, and only a jump moves IP (`Effect.movesIp`).
-/

theorem Width.width_registers : ∀ (w : Width) (k : Fin 8), w.registers[k].width = w := by
  intro w; cases w <;> decide

theorem Width.register_registers : ∀ (w : Width) (k : Fin 8),
    w.registers[k].register ≠ .ip ∧ w.registers[k].register ≠ .flags := by
  intro w; cases w <;> decide

theorem Width.not_segment_registers : ∀ (w : Width) (k : Fin 8), w.registers[k].register ∉ [.es, .cs, .ss, .ds] := by
  intro w; cases w <;> decide

theorem Register.segments_ne : ∀ k : Fin 4, Register.segments[k] ≠ .ip ∧ Register.segments[k] ≠ .flags := by decide

namespace Operand

theorem isControl_registers (w : Width) (k : Fin 8) (size : Option Width) :
    isControl ⟨size, .register w.registers[k]⟩ = false := by
  have := w.register_registers k
  simp only [isControl, this.1, this.2, or_self, decide_false]

theorem isControl_segments (k : Fin 4) (size : Option Width) :
    isControl ⟨size, .register (.whole Register.segments[k])⟩ = false := by
  have := Register.segments_ne k
  simp only [isControl, Register.View.whole, this.1, this.2, or_self, decide_false]

end Operand

namespace Place

variable (p : Place) (w : Width)

theorem width?_operand : (p.operand w).width? = some w := by
  cases p with
  | register rm => exact congrArg some (w.width_registers rm.toFin)
  | _ => rfl

theorem isPlace_operand : (p.operand w).isPlace = true := by cases p <;> rfl

theorem isControl_operand : (p.operand w).isControl = false := by
  cases p with
  | register rm => exact Operand.isControl_registers w rm.toFin none
  | _ => rfl

end Place

namespace Instruction

theorem pair_eq {i : Instruction} {dst src : Operand} {rest : List Operand} {w : Width} (h : i.operands = dst :: src :: rest)
    (hw : (dst.width? <|> src.width?) = some w) : i.pair = .ok (dst, src, w) := by
  simp only [pair, destination?, source?, h, List.getElem?_cons_zero, List.getElem?_cons_succ, hw]

theorem displacement_eq {i : Instruction} {size : Option Width} {x : Word} (h : i.operands = [⟨size, .signed x⟩]) :
    i.displacement = .ok x := by
  simp only [displacement, destination?, h, List.getElem?_cons_zero]

end Instruction

/-! ### Operands of what was decoded -/

inductive Operand.Common : Operand → Prop
  | register (size : Option Width) (w : Width) (k : Fin 8) : Common ⟨size, .register w.registers[k]⟩
  | signed (size : Option Width) (x : Word) : Common ⟨size, .signed x⟩
  | unsigned (size : Option Width) (x : Word) : Common ⟨size, .unsigned x⟩
  | memory (size : Option Width) (a : Address) : Common ⟨size, .memory a⟩

theorem Place.common_operand (p : Place) (w : Width) : (p.operand w).Common := by
  cases p with
  | register rm => exact .register _ w rm.toFin
  | _ => exact .memory _ _

theorem Code.common_or_segment (c : Code) : ∀ o ∈ c.operands, o.Common ∨
    c.operation = .mov ∧ ∃ k : Fin 4, o = ⟨none, .register (.whole Register.segments[k])⟩ := by
  have hpair {a b : Operand} {P : Operand → Prop} (ha : a.Common) (hb : b.Common) : ∀ o ∈ [a, b], o.Common ∨ P o := by
    simp [ha, hb]
  have hreg (w : Width) (reg : BitVec 3) := Operand.Common.register none w reg.toFin
  have hacc (w : Width) := Operand.Common.register none w 0
  cases c with
  | movRm d w reg rm | arithRm op d w reg rm =>
    cases d
    · exact hpair (rm.common_operand w) (hreg w reg)
    · exact hpair (hreg w reg) (rm.common_operand w)
  | movImm x w reg rm data | arithImm op w rm data => exact hpair (rm.common_operand w) (.unsigned _ _)
  | arithExtended op w rm data => exact hpair (rm.common_operand w) (.signed _ _)
  | movAcc d w address =>
    cases d
    · exact hpair (hacc w) (.memory _ _)
    · exact hpair (.memory _ _) (hacc w)
  | movReg w reg data => exact hpair (hreg w reg) (.signed _ _)
  | arithAcc op x w data => exact hpair (hacc w) (.signed _ _)
  | movSegment d segment rm =>
    intro o ho
    have ho : o = rm.operand .word ∨ o = ⟨none, .register (.whole Register.segments[segment.toFin])⟩ := by
      cases d
      · simpa [operands] using ho
      · simpa [operands, or_comm] using ho
    rcases ho with rfl | rfl
    · exact .inl (rm.common_operand .word)
    · exact .inr ⟨rfl, segment.toFin, rfl⟩
  | jump c x | loop t x | jcxz x =>
    intro o ho
    obtain rfl := List.mem_singleton.mp ho
    exact .inl (.signed _ _)

open Instruction in
theorem Code.fit (c : Code) : c.instruction.Fit := by
  cases c with
  | movRm d w reg rm | arithRm op d w reg rm =>
    cases d
    · exact .pair rfl (pair_eq rfl (by rw [rm.width?_operand]; rfl)) (rm.isPlace_operand w) (rm.isControl_operand w)
    · exact .pair rfl (pair_eq rfl (congrArg some (w.width_registers reg.toFin))) rfl
        (Operand.isControl_registers w reg.toFin none)
  | movImm x w reg rm data | arithImm op w rm data | arithExtended op w rm data =>
    exact .pair rfl (pair_eq rfl (by rw [rm.width?_operand]; rfl)) (rm.isPlace_operand w) (rm.isControl_operand w)
  | movAcc d w address =>
    cases d
    · exact .pair rfl (pair_eq rfl (congrArg some (w.width_registers 0))) rfl (Operand.isControl_registers w 0 none)
    · exact .pair rfl (pair_eq rfl (congrArg some (w.width_registers 0))) rfl rfl
  | movReg w reg data =>
    exact .pair rfl (pair_eq rfl (congrArg some (w.width_registers reg.toFin))) rfl
      (Operand.isControl_registers w reg.toFin none)
  | arithAcc op x w data =>
    exact .pair rfl (pair_eq rfl (congrArg some (w.width_registers 0))) rfl (Operand.isControl_registers w 0 none)
  | movSegment d segment rm =>
    cases d
    · exact .pair rfl (pair_eq rfl (by rw [rm.width?_operand]; rfl)) (rm.isPlace_operand .word)
        (rm.isControl_operand .word)
    · exact .pair rfl (pair_eq rfl rfl) rfl (Operand.isControl_segments segment.toFin none)
  | jump c x | loop t x | jcxz x => exact .jump rfl (displacement_eq rfl)

theorem fit_of_decode {program : Array Byte} {offset : Nat} {d : Decoded} (h : decode program offset = .ok d) :
    d.instruction.Fit := by
  obtain ⟨c, _, rfl⟩ := Code.exists_of_decode h
  exact c.fit

theorem size_of_isJump {program : Array Byte} {offset : Nat} {d : Decoded} (h : decode program offset = .ok d)
    (hj : d.instruction.operation.isJump = true) : d.size = 2 := by
  obtain ⟨c, _, rfl⟩ := Code.exists_of_decode h
  cases c with
  | jump c x | loop t x | jcxz x => rfl
  | _ => cases hj

theorem Byte.toInt_signExtend_bounds (b : Byte) :
    -128 ≤ (BitVec.signExtend 16 b).toInt ∧ (BitVec.signExtend 16 b).toInt ≤ 127 := by
  rw [BitVec.toInt_signExtend_of_le (by decide)]
  have := b.two_mul_toInt_lt
  have := b.le_two_mul_toInt
  omega

theorem toInt_displacement {program : Array Byte} {offset : Nat} {d : Decoded} {x : Word}
    (h : decode program offset = .ok d) (hj : d.instruction.operation.isJump = true)
    (hx : d.instruction.displacement = .ok x) : -128 ≤ x.toInt ∧ x.toInt ≤ 127 := by
  obtain ⟨c, _, rfl⟩ := Code.exists_of_decode h
  cases c with
  | jump _ b | loop _ b | jcxz b =>
    cases hx
    exact Byte.toInt_signExtend_bounds b
  | _ => cases hj

/-! ### Where execution leaves IP -/

def Machine.MovesIp (i : Instruction) (m m' : Machine) : Prop :=
  (i.operation.isJump = false → m'.registers.word .ip = m.registers.word .ip) ∧
    ∀ x, i.displacement = .ok x → i.operation.isJump = true →
      m'.registers.word .ip = m.registers.word .ip ∨ m'.registers.word .ip = m.registers.word .ip + x

theorem Machine.movesIp_of_eq (i : Instruction) {m m' : Machine} (h : m'.registers.word .ip = m.registers.word .ip) :
    MovesIp i m m' :=
  ⟨fun _ => h, fun _ _ _ => .inl h⟩

theorem Machine.ip_jumpIf (m : Machine) (taken : Bool) (x : Word) : (m.jumpIf taken x).registers.word .ip =
    if taken then m.registers.word .ip + x else m.registers.word .ip := by
  cases taken <;> simp [jumpIf]

open Machine in
theorem Instruction.Effect.movesIp {i : Instruction} {m m' : Machine} (h : i.Effect m m') : MovesIp i m m' := by
  cases h with
  | move operation pair notControl => exact movesIp_of_eq i (m.word_put_of_not_control _ _ notControl (.inl rfl))
  | compare => exact movesIp_of_eq i (m.word_setStatus_of_ne _ (by decide))
  | compute operation keeps pair notControl =>
    refine movesIp_of_eq i ?_
    rw [word_put_of_not_control _ _ _ notControl (.inl rfl), m.word_setStatus_of_ne _ (by decide)]
  | @jump x isJump displacement =>
    refine ⟨?_, ?_⟩
    · intro notJump
      cases isJump.symm.trans notJump
    · intro y hy _
      cases displacement.symm.trans hy
      rw [ip_jumpIf, m.word_counted_of_ne _ (by decide)]
      split
      · exact .inr rfl
      · exact .inl rfl

/-!
## Operands and IP

No operand of a decoded instruction is IP or FLAGS. So what an instruction other than a jump does is the same wherever
IP stands, and leaves IP there (`Instruction.execute_withIp`).
-/

namespace Register.File

theorem set_comm (f : File) {r s : Register} (x y : Word) (h : r ≠ s) : (f.set r x).set s y = (f.set s y).set r x := by
  apply ext_word
  intro t
  simp only [word_set]
  split
  · next ht => rw [if_neg (ht ▸ h.symm)]
  · rfl

theorem set_set (f : File) (r : Register) (x y : Word) : (f.set r x).set r y = f.set r y := by
  apply ext_word
  intro t
  simp only [word_set]
  split <;> rfl

theorem read_set_of_ne (f : File) {v : View} {r : Register} (x : Word) (h : v.register ≠ r) :
    (f.set r x).read v = f.read v := by
  have hword : (f.set r x).word v.register = f.word v.register := by rw [word_set, if_neg h]
  simp only [read, low, high, hword]

theorem write_set_of_ne (f : File) {v : View} {r : Register} (x w : Word) (h : v.register ≠ r) :
    (f.set r x).write v w = (f.write v w).set r x := by
  have hword : (f.set r x).word v.register = f.word v.register := by rw [word_set, if_neg h]
  unfold write
  split
  · exact f.set_comm _ _ h.symm
  · rw [setLow, setLow, high, hword, high]
    exact f.set_comm _ _ h.symm
  · rw [setHigh, setHigh, low, hword, low]
    exact f.set_comm _ _ h.symm

end Register.File

namespace Operand

theorem ne_of_not_control {size : Option Width} {v : Register.View} (h : isControl ⟨size, .register v⟩ = false) :
    v.register ≠ .ip ∧ v.register ≠ .flags := by
  simpa [isControl] using h

end Operand

namespace Code

theorem not_control (c : Code) : ∀ o ∈ c.operands, o.isControl = false := by
  intro o ho
  rcases c.common_or_segment o ho with hcommon | ⟨_, k, rfl⟩
  · cases hcommon with
    | register size w k => exact Operand.isControl_registers w k size
    | _ => rfl
  · exact Operand.isControl_segments k none

end Code

theorem not_control_of_decode {program : Array Byte} {offset : Nat} {d : Decoded} (h : decode program offset = .ok d) :
    ∀ o ∈ d.instruction.operands, o.isControl = false := by
  obtain ⟨c, _, rfl⟩ := Code.exists_of_decode h
  exact c.not_control

namespace Instruction

variable {i : Instruction} {dst src : Operand} {w : Width}

theorem operands_of_pair (h : i.pair = .ok (dst, src, w)) : ∃ rest, i.operands = dst :: src :: rest := by
  obtain ⟨operation, operands⟩ := i
  match operands with
  | [] => cases h
  | [_] => cases h
  | a :: b :: rest =>
    simp only [pair, destination?, source?, List.getElem?_cons_zero, List.getElem?_cons_succ] at h
    split at h <;> cases h
    exact ⟨rest, rfl⟩

theorem of_pair (h : i.pair = .ok (dst, src, w)) :
    dst ∈ i.operands ∧ src ∈ i.operands ∧ (dst.width? <|> src.width?) = some w := by
  unfold pair at h
  split at h
  · next hdst hsrc =>
    split at h
    · next hw =>
      cases h
      exact ⟨List.mem_of_getElem? hdst, List.mem_of_getElem? hsrc, hw⟩
    · cases h
  · cases h

end Instruction

/-! ### Wherever IP stands -/

namespace Machine

def withIp (m : Machine) (x : Word) : Machine := { m with registers := m.registers.set .ip x }

variable (m : Machine) (x : Word)

@[simp] theorem memory_withIp : (m.withIp x).memory = m.memory := rfl

@[simp] theorem word_withIp (r : Register) :
    (m.withIp x).registers.word r = if r = .ip then x else m.registers.word r := by
  rw [withIp, Register.File.word_set]

theorem flags_withIp : (m.withIp x).flags = m.flags := by
  rw [flags, word_withIp, if_neg (by decide), flags]

theorem effective_withIp (a : Address) : (m.withIp x).effective a = m.effective a := by
  obtain ⟨base, displacement⟩ := a
  cases base <;> simp [effective, Base.registers]

theorem effective_setStatus {n : Nat} (o : Outcome n) (a : Address) : (m.setStatus o).effective a = m.effective a := by
  obtain ⟨base, displacement⟩ := a
  cases base <;> simp [effective, Base.registers, setStatus]

theorem value_withIp {o : Operand} (w : Width) (h : o.isControl = false) : (m.withIp x).value o w = m.value o w := by
  obtain ⟨size, kind⟩ := o
  cases kind with
  | register view => exact m.registers.read_set_of_ne x (Operand.ne_of_not_control h).1
  | signed value | unsigned value => rfl
  | memory a => cases w <;> simp only [value, effective_withIp, memory_withIp]

theorem put_withIp {o : Operand} (w : Width) (y : Word) (h : o.isControl = false) :
    (m.withIp x).put o w y = (m.put o w y).withIp x := by
  obtain ⟨size, kind⟩ := o
  cases kind with
  | register view =>
    simp only [put, withIp, m.registers.write_set_of_ne x y (Operand.ne_of_not_control h).1]
  | signed value | unsigned value => rfl
  | memory a => cases w <;> simp only [put, effective_withIp] <;> rfl

theorem setStatus_withIp {n : Nat} (o : Outcome n) : (m.withIp x).setStatus o = (m.setStatus o).withIp x := by
  have hflags : (m.withIp x).registers.word .flags = m.registers.word .flags := m.flags_withIp x
  have hcomm := m.registers.set_comm x (o.flags (m.registers.word .flags)) (by decide : Register.ip ≠ .flags)
  simp only [setStatus, Register.File.modify, hflags]
  simp only [withIp, hcomm]

theorem outcome_withIp (op : Arith) {dst src : Operand} (w : Width) (hdst : dst.isControl = false)
    (hsrc : src.isControl = false) : (m.withIp x).outcome op dst src w = m.outcome op dst src w := by
  rw [outcome, m.value_withIp x w hdst, m.value_withIp x w hsrc, outcome]

theorem countDown_withIp : (m.withIp x).countDown = m.countDown.withIp x := by
  have hcx : (m.withIp x).registers.word .cx = m.registers.word .cx := by simp
  have hcomm := m.registers.set_comm x (m.registers.word .cx - 1) (by decide : Register.ip ≠ .cx)
  simp only [countDown, Register.File.modify, hcx]
  simp only [withIp, hcomm]

theorem counted_withIp (operation : Operation) : (m.withIp x).counted operation = (m.counted operation).withIp x := by
  cases operation with
  | loop t => exact m.countDown_withIp x
  | _ => rfl

theorem takes_withIp (operation : Operation) : (m.withIp x).takes operation = m.takes operation := by
  cases operation <;> simp [takes, flags_withIp]

theorem jumpIf_withIp (taken : Bool) (y : Word) : (m.withIp x).jumpIf taken y = m.withIp (if taken then x + y else x) := by
  cases taken
  · rfl
  · simp [jumpIf, withIp, Register.File.modify, Register.File.set_set]

end Machine

/-! ### Registers that are no destination -/

def Instruction.Assigns (i : Instruction) (r : Register) : Prop :=
  i.operation ∈ [.mov, .arith .add, .arith .sub] ∧
    ∃ o view, i.destination? = some o ∧ o.kind = .register view ∧ view.register = r

open Machine in
theorem Instruction.execute_withIp {i : Instruction} (hfit : i.Fit) (hcontrol : ∀ o ∈ i.operands, o.isControl = false)
    (hjump : i.operation.isJump = false) (m : Machine) (x : Word) :
    ∃ m', execute i m = .ok () m' ∧ execute i (m.withIp x) = .ok () (m'.withIp x) := by
  cases hfit with
  | jump isJump => cases isJump.symm.trans hjump
  | @pair dst src w _ pair place _ =>
    obtain ⟨hmemdst, hmemsrc, _⟩ := of_pair pair
    have hdst := hcontrol dst hmemdst
    have hsrc := hcontrol src hmemsrc
    cases ho : i.operation with
    | jump c | loop t | jcxz =>
      rw [ho] at hjump
      cases hjump
    | mov =>
      refine ⟨_, execute_mov ho pair place, ?_⟩
      rw [execute_mov ho pair place, m.value_withIp x w hsrc, m.put_withIp x w _ hdst]
    | arith op =>
      by_cases hop : op = .cmp
      · subst hop
        refine ⟨_, execute_cmp ho pair, ?_⟩
        rw [execute_cmp ho pair, m.outcome_withIp x .cmp w hdst hsrc, m.setStatus_withIp]
      · refine ⟨_, execute_arith ho hop pair place, ?_⟩
        rw [execute_arith ho hop pair place, m.outcome_withIp x op w hdst hsrc, m.setStatus_withIp,
          put_withIp _ x w _ hdst]

/-!
## Instructions that do the same

Of the operands of an instruction execution sees the place that is written, and of the source only the value at the width
of the access.
-/

namespace Machine

variable (m : Machine) {w : Width} {x y : Word}

theorem write_congr (f : Register.File) {v : Register.View} (hv : v.width = w)
    (h : x.setWidth w.bits = y.setWidth w.bits) : f.write v x = f.write v y := by
  obtain ⟨r, part⟩ := v
  subst hv
  cases part with
  | whole =>
    have hxy : x = y := by simpa [Register.View.width, Width.bits] using h
    rw [hxy]
  | low | high =>
    have hlow : x.low = y.low := h
    simp only [Register.File.write, hlow]

theorem put_congr {o o' : Operand} (hk : o.kind = o'.kind) (hw : ∀ v, o.kind = .register v → v.width = w)
    (h : x.setWidth w.bits = y.setWidth w.bits) : m.put o w x = m.put o' w y := by
  simp only [put, ← hk]
  cases hkind : o.kind with
  | register view => simp only [write_congr m.registers (hw view hkind) h]
  | signed value | unsigned value => rfl
  | memory a =>
    cases w with
    | byte =>
      have hlow : x.low = y.low := h
      simp only [hlow]
    | word =>
      have hxy : x = y := by simpa [Width.bits] using h
      simp only [hxy]

theorem value_congr {o o' : Operand} (hk : o.kind = o'.kind) : m.value o w = m.value o' w := by
  simp only [value, hk]

theorem execute_congr {i i' : Instruction} {dst dst' src src' : Operand} (ho : i.operation = i'.operation)
    (hjump : i.operation.isJump = false) (hp : i.pair = .ok (dst, src, w)) (hp' : i'.pair = .ok (dst', src', w))
    (hplace : dst.isPlace = true) (hdst : dst.kind = dst'.kind)
    (hsrc : ∀ m : Machine, (m.value src w).setWidth w.bits = (m.value src' w).setWidth w.bits) :
    execute i m = execute i' m := by
  have hwidth (v : Register.View) (hv : dst.kind = .register v) : v.width = w := by
    obtain ⟨_, _, hw⟩ := Instruction.of_pair hp
    simpa [Operand.width?, hv] using hw
  have hplace' : dst'.isPlace = true := by
    rw [Operand.isPlace, ← hdst]
    exact hplace
  have houtcome (op : Arith) : m.outcome op dst src w = m.outcome op dst' src' w := by
    rw [outcome, outcome, m.value_congr hdst, hsrc]
  cases hop : i.operation with
  | jump c | loop t | jcxz =>
    rw [hop] at hjump
    cases hjump
  | mov => rw [execute_mov hop hp hplace, execute_mov (ho ▸ hop) hp' hplace', m.put_congr hdst hwidth (hsrc m)]
  | arith op =>
    by_cases hcmp : op = .cmp
    · subst hcmp
      rw [execute_cmp hop hp, execute_cmp (ho ▸ hop) hp', houtcome]
    · rw [execute_arith hop hcmp hp hplace, execute_arith (ho ▸ hop) hcmp hp' hplace', houtcome,
        put_congr _ hdst hwidth rfl]

end Machine

end I8086
