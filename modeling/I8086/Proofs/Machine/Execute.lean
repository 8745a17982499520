import I8086.Machine
import I8086.Error
import I8086.Proofs.Memory
import I8086.Proofs.Register

/-! # Execution by the kind of instruction -/

namespace I8086

/-!
## Values and places

Loading an operand and storing to a place always succeed, since sixteen bits of address end far below the end of the
memory. `value` and `put` say what they give.
-/

def Operand.isPlace (o : Operand) : Bool :=
  match o.kind with
  | .register _ | .memory _ => true
  | .signed _ | .unsigned _ => false

def Operand.isControl (o : Operand) : Bool :=
  match o.kind with
  | .register v => v.register = .ip ∨ v.register = .flags
  | _ => false

namespace Machine

theorem toNat_lt_size (a : Word) : a.toNat < Memory.size := by
  have := a.isLt
  simp only [Memory.size]; omega

theorem toNat_succ_lt_size (a : Word) : a.toNat + 1 < Memory.size := by
  have := a.isLt
  simp only [Memory.size]; omega

def physical (a : Word) : Fin Memory.size := ⟨a.toNat, toNat_lt_size a⟩

def physicalNext (a : Word) : Fin Memory.size := ⟨a.toNat + 1, toNat_succ_lt_size a⟩

def value (m : Machine) (o : Operand) (w : Width) : Word :=
  match o.kind with
  | .register view => m.registers.read view
  | .signed x | .unsigned x => x
  | .memory a =>
    match w with
    | .byte => (m.memory.byteAt (physical (m.effective a))).zeroExtend
    | .word => .ofBytes (m.memory.byteAt (physical (m.effective a))) (m.memory.byteAt (physicalNext (m.effective a)))

def put (m : Machine) (o : Operand) (w : Width) (x : Word) : Machine :=
  match o.kind with
  | .register view => { m with registers := m.registers.write view x }
  | .signed _ | .unsigned _ => m
  | .memory a =>
    match w with
    | .byte => { m with memory := m.memory.put (physical (m.effective a)) x.low }
    | .word =>
      { m with
        memory := (m.memory.put (physical (m.effective a)) x.low).put (physicalNext (m.effective a)) x.high }

theorem load_eq (m : Machine) (o : Operand) (w : Width) : m.load o w = .ok (m.value o w) := by
  obtain ⟨size, kind⟩ := o
  cases kind with
  | register view | signed x | unsigned x => rfl
  | memory a =>
    have h₀ := toNat_lt_size (m.effective a)
    have h₁ := toNat_succ_lt_size (m.effective a)
    cases w with
    | byte => exact congrArg (Byte.zeroExtend <$> ·) (m.memory.readByte_of_lt h₀)
    | word => exact m.memory.readWord_of_lt h₁

theorem store_eq (m : Machine) (operation : Operation) {o : Operand} (w : Width) (x : Word) (h : o.isPlace = true) :
    store operation o w x m = .ok () (m.put o w x) := by
  obtain ⟨size, kind⟩ := o
  cases kind with
  | register view => rfl
  | signed value | unsigned value => cases h
  | memory a =>
    have h₀ := toNat_lt_size (m.effective a)
    have h₁ := toNat_succ_lt_size (m.effective a)
    cases w with
    | byte =>
      change onMemory (Memory.writeByte (m.effective a).toNat x.low) m = _
      rw [onMemory, m.memory.writeByte_of_lt x.low h₀]
      rfl
    | word =>
      change onMemory (Memory.writeWord (m.effective a).toNat x) m = _
      rw [onMemory, m.memory.writeWord_of_lt x h₁]
      rfl

theorem word_put_of_ne (m : Machine) {o : Operand} (w : Width) (x : Word) {r : Register}
    (h : ∀ view, o.kind = .register view → r ≠ view.register) :
    (m.put o w x).registers.word r = m.registers.word r := by
  obtain ⟨size, kind⟩ := o
  cases kind with
  | register view => exact m.registers.word_write_of_ne x (h view rfl)
  | signed value | unsigned value => rfl
  | memory a => cases w <;> rfl

theorem word_put_of_not_control (m : Machine) {o : Operand} (w : Width) (x : Word) (h : o.isControl = false)
    {r : Register} (hr : r = .ip ∨ r = .flags) : (m.put o w x).registers.word r = m.registers.word r := by
  apply m.word_put_of_ne
  rintro view hview rfl
  simp [Operand.isControl, hview, hr] at h

end Machine

/-!
## What execution does

For each kind of operation the state that an instruction leaves, as far as its operands are fit for it.
-/

namespace Machine

def jumpIf (m : Machine) (taken : Bool) (displacement : Word) : Machine :=
  if taken then { m with registers := m.registers.modify .ip (· + displacement) } else m

def countDown (m : Machine) : Machine := { m with registers := m.registers.modify .cx (· - 1) }

def outcome (m : Machine) (op : Arith) (dst src : Operand) (w : Width) : Outcome w.bits :=
  op.outcome ((m.value dst w).setWidth w.bits) ((m.value src w).setWidth w.bits)

def setStatus {n : Nat} (m : Machine) (o : Outcome n) : Machine :=
  { m with registers := m.registers.modify .flags o.flags }

variable {m : Machine} {i : Instruction} {dst src : Operand} {w : Width} {x : Word}

theorem execute_mov (ho : i.operation = .mov) (hp : i.pair = .ok (dst, src, w)) (hd : dst.isPlace = true) :
    execute i m = .ok () (m.put dst w (m.value src w)) := by
  unfold execute
  simp only [ho]
  rw [bind_of_ok (ofExcept_of_ok hp)]
  simp only []
  rw [get_bind, bind_of_ok (ofExcept_of_ok (m.load_eq src w)), m.store_eq _ w _ hd]

theorem execute_cmp (ho : i.operation = .arith .cmp) (hp : i.pair = .ok (dst, src, w)) :
    execute i m = .ok () (m.setStatus (m.outcome .cmp dst src w)) := by
  unfold execute
  simp only [ho]
  rw [arithmetic, bind_of_ok (ofExcept_of_ok hp)]
  simp only []
  rw [get_bind, bind_of_ok (ofExcept_of_ok (m.load_eq dst w)), get_bind, bind_of_ok (ofExcept_of_ok (m.load_eq src w))]
  rfl

theorem execute_arith {op : Arith} (ho : i.operation = .arith op) (hop : op ≠ .cmp) (hp : i.pair = .ok (dst, src, w))
    (hd : dst.isPlace = true) :
    execute i m = .ok ()
      ((m.setStatus (m.outcome op dst src w)).put dst w ((m.outcome op dst src w).value.setWidth 16)) := by
  unfold execute
  simp only [ho]
  rw [arithmetic, bind_of_ok (ofExcept_of_ok hp)]
  simp only []
  rw [get_bind, bind_of_ok (ofExcept_of_ok (m.load_eq dst w)), get_bind, bind_of_ok (ofExcept_of_ok (m.load_eq src w)),
    modifyRegisters, modify_bind, if_pos hop]
  exact store_eq _ _ w _ hd

theorem branch_eq (m : Machine) (taken : Bool) (displacement : Word) :
    branch taken displacement m = .ok () (m.jumpIf taken displacement) := by
  cases taken <;> rfl

theorem execute_jump {c : Condition} (ho : i.operation = .jump c) (hx : i.displacement = .ok x) :
    execute i m = .ok () (m.jumpIf (c.holds m.flags) x) := by
  unfold execute
  simp only [ho]
  rw [bind_of_ok (ofExcept_of_ok hx), get_bind, branch_eq]

theorem execute_loop {t : LoopTest} (ho : i.operation = .loop t) (hx : i.displacement = .ok x) :
    execute i m = .ok () (m.countDown.jumpIf
      (m.countDown.registers.word .cx != 0 && t.holds m.countDown.flags) x) := by
  unfold execute
  simp only [ho]
  rw [bind_of_ok (ofExcept_of_ok hx), modifyRegisters, modify_bind, get_bind, branch_eq]
  rfl

theorem execute_jcxz (ho : i.operation = .jcxz) (hx : i.displacement = .ok x) :
    execute i m = .ok () (m.jumpIf (m.registers.word .cx == 0) x) := by
  unfold execute
  simp only [ho]
  rw [bind_of_ok (ofExcept_of_ok hx), get_bind, branch_eq]

/-! ### Operands that are not there, or not fit for what they are there for -/

theorem execute_of_pair_error {e : Error} (notJump : i.operation.isJump = false) (pair : i.pair = .error e) :
    execute i m = .error e m := by
  unfold execute
  cases ho : i.operation with
  | mov => exact bind_of_error (ofExcept_of_error pair)
  | arith op => exact bind_of_error (ofExcept_of_error pair)
  | jump c | loop t | jcxz =>
    rw [ho] at notJump
    cases notJump

theorem execute_of_displacement_error {e : Error} (isJump : i.operation.isJump = true)
    (displacement : i.displacement = .error e) : execute i m = .error e m := by
  unfold execute
  cases ho : i.operation with
  | mov | arith op =>
    rw [ho] at isJump
    cases isJump
  | jump c | loop t | jcxz => exact bind_of_error (ofExcept_of_error displacement)

theorem store_of_not_place (operation : Operation) {o : Operand} (h : o.isPlace = false) :
    store operation o w x m = .error (.invalidOperand operation o) m := by
  obtain ⟨size, kind⟩ := o
  cases kind with
  | register view | memory a => cases h
  | signed value | unsigned value => rfl

theorem execute_mov_of_not_place (ho : i.operation = .mov) (hp : i.pair = .ok (dst, src, w)) (hd : dst.isPlace = false) :
    execute i m = .error (.invalidOperand i.operation dst) m := by
  unfold execute
  simp only [ho]
  rw [bind_of_ok (ofExcept_of_ok hp)]
  simp only []
  rw [get_bind, bind_of_ok (ofExcept_of_ok (m.load_eq src w)), store_of_not_place _ hd]

theorem execute_arith_of_not_place {op : Arith} (ho : i.operation = .arith op) (hop : op ≠ .cmp)
    (hp : i.pair = .ok (dst, src, w)) (hd : dst.isPlace = false) :
    execute i m = .error (.invalidOperand i.operation dst) (m.setStatus (m.outcome op dst src w)) := by
  unfold execute
  simp only [ho]
  rw [arithmetic, bind_of_ok (ofExcept_of_ok hp)]
  simp only []
  rw [get_bind, bind_of_ok (ofExcept_of_ok (m.load_eq dst w)), get_bind, bind_of_ok (ofExcept_of_ok (m.load_eq src w)),
    modifyRegisters, modify_bind, if_pos hop, store_of_not_place _ hd, ho]
  rfl

end Machine

/-!
## All that an instruction can do

What is fit for execution executes in every state, with one of four effects (`Instruction.Fit.exists_effect`). What holds
of all instructions is read from these.
-/

namespace Machine

/-- Whether a jump is taken. A loop asks what CX will be once it is counted down. -/
def takes (m : Machine) : Operation → Bool
  | .jump c => c.holds m.flags
  | .loop t => m.registers.word .cx - 1 != 0 && t.holds m.flags
  | .jcxz => m.registers.word .cx == 0
  | .mov | .arith _ => false

def counted (m : Machine) : Operation → Machine
  | .loop _ => m.countDown
  | _ => m

theorem cx_countDown (m : Machine) : m.countDown.registers.word .cx = m.registers.word .cx - 1 := by simp [countDown]

theorem flags_countDown (m : Machine) : m.countDown.flags = m.flags := by simp [countDown, flags]

theorem memory_counted (m : Machine) (operation : Operation) : (m.counted operation).memory = m.memory := by
  cases operation <;> rfl

theorem word_counted_of_ne (m : Machine) (operation : Operation) {r : Register} (h : r ≠ .cx) :
    (m.counted operation).registers.word r = m.registers.word r := by
  cases operation <;> simp [counted, countDown, h]

theorem memory_jumpIf (m : Machine) (taken : Bool) (x : Word) : (m.jumpIf taken x).memory = m.memory := by
  cases taken <;> rfl

theorem word_jumpIf_of_ne (m : Machine) (taken : Bool) (x : Word) {r : Register} (h : r ≠ .ip) :
    (m.jumpIf taken x).registers.word r = m.registers.word r := by
  cases taken <;> simp [jumpIf, h]

theorem word_setStatus_of_ne {n : Nat} (m : Machine) (o : Outcome n) {r : Register} (h : r ≠ .flags) :
    (m.setStatus o).registers.word r = m.registers.word r := by
  rw [setStatus, Register.File.word_modify, if_neg h]

theorem flags_setStatus {n : Nat} (m : Machine) (o : Outcome n) : (m.setStatus o).flags = o.flags m.flags := by
  simp [setStatus, flags]

end Machine

namespace Instruction

inductive Fit (i : Instruction) : Prop
  | pair {dst src : Operand} {w : Width} (notJump : i.operation.isJump = false) (pair : i.pair = .ok (dst, src, w))
    (place : dst.isPlace = true) (notControl : dst.isControl = false)
  | jump {x : Word} (isJump : i.operation.isJump = true) (displacement : i.displacement = .ok x)

open Machine

inductive Effect (i : Instruction) (m : Machine) : Machine → Prop
  | move {dst src : Operand} {w : Width} (operation : i.operation = .mov) (pair : i.pair = .ok (dst, src, w))
    (notControl : dst.isControl = false) : Effect i m (m.put dst w (m.value src w))
  | compare {dst src : Operand} {w : Width} (operation : i.operation = .arith .cmp) (pair : i.pair = .ok (dst, src, w)) :
    Effect i m (m.setStatus (m.outcome .cmp dst src w))
  | compute {op : Arith} {dst src : Operand} {w : Width} (operation : i.operation = .arith op) (keeps : op ≠ .cmp)
    (pair : i.pair = .ok (dst, src, w)) (notControl : dst.isControl = false) :
    Effect i m ((m.setStatus (m.outcome op dst src w)).put dst w ((m.outcome op dst src w).value.setWidth 16))
  | jump {x : Word} (isJump : i.operation.isJump = true) (displacement : i.displacement = .ok x) :
    Effect i m ((m.counted i.operation).jumpIf (m.takes i.operation) x)

variable {i : Instruction} {m m' : Machine}

theorem execute_of_isJump {x : Word} (isJump : i.operation.isJump = true) (displacement : i.displacement = .ok x)
    (m : Machine) : execute i m = .ok () ((m.counted i.operation).jumpIf (m.takes i.operation) x) := by
  cases ho : i.operation with
  | mov | arith op =>
    rw [ho] at isJump
    cases isJump
  | jump c => exact execute_jump ho displacement
  | jcxz => exact execute_jcxz ho displacement
  | loop t =>
    have hexecute := execute_loop (m := m) ho displacement
    rw [cx_countDown, flags_countDown] at hexecute
    exact hexecute

theorem Fit.exists_effect (h : i.Fit) (m : Machine) : ∃ m', execute i m = .ok () m' ∧ i.Effect m m' := by
  cases h with
  | jump isJump displacement => exact ⟨_, execute_of_isJump isJump displacement m, .jump isJump displacement⟩
  | pair notJump pair place notControl =>
    cases ho : i.operation with
    | mov => exact ⟨_, execute_mov ho pair place, .move ho pair notControl⟩
    | arith op =>
      by_cases hop : op = .cmp
      · subst hop
        exact ⟨_, execute_cmp ho pair, .compare ho pair⟩
      · exact ⟨_, execute_arith ho hop pair place, .compute ho hop pair notControl⟩
    | jump c | loop t | jcxz =>
      rw [ho] at notJump
      cases notJump

theorem Fit.effect (h : i.Fit) (hm : execute i m = .ok () m') : i.Effect m m' := by
  obtain ⟨m'', hm'', heffect⟩ := h.exists_effect m
  cases hm.symm.trans hm''
  exact heffect

end Instruction

end I8086
