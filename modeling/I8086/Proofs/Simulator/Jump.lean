import Mathlib.Data.BitVec
import I8086.Proofs.Simulator.Trace
import I8086.Proofs.Text.Instruction
import I8086.Proofs.Machine.Status
import I8086.Proofs.Simulator.Step

/-! # Steps that jump -/

namespace I8086

/-!
## Jumps out of the program

IP has sixteen bits, so a jump that leads out of the program ends the run unless its target comes round to an address of
the program (`finished_behind_jump`). Only a program that nearly fills the segment lets it come round.
-/

namespace Simulator

variable {s t : Simulator} {d : Decoded}

def target (s : Simulator) (x : Word) : Int := s.ip.toNat + 2 + x.toInt

def Outside (s : Simulator) (a : Int) : Prop := a < 0 ∨ s.program.size ≤ a

instance (s : Simulator) (a : Int) : Decidable (s.Outside a) := inferInstanceAs (Decidable (_ ∨ _))

/-- Behind the last address that IP has, or so far in front of the program that it is an address of the program once it is
cut to sixteen bits. -/
def ComesRound (s : Simulator) (a : Int) : Prop := 0xFFFF < a ∨ a < 0 ∧ a + 0x10000 < s.program.size

theorem toNat_add_displacement (s : Simulator) (x : Word) : ((s.ip + 2 + x).toNat : Int) = s.target x % 0x10000 := by
  have hip : s.ip + 2 + x = BitVec.ofInt 16 (s.target x) := by
    simp [target, BitVec.ofInt_add]
  rw [hip, BitVec.toNat_ofInt]
  omega

theorem finished_iff (size : t.program.size ≤ maxProgramSize) :
    t.finished = true ∧ step t = .ok none t ↔ t.program.size ≤ t.ip.toNat := by
  refine ⟨?_, ?_⟩
  · rintro ⟨hf, _⟩
    exact of_decide_eq_true hf
  · intro h
    have hf : t.finished = true := decide_eq_true h
    exact ⟨hf, step_of_finished size hf⟩

theorem target_bounds {x : Word} (hd : decode s.program s.ip.toNat = .ok d)
    (hjump : d.instruction.operation.isJump = true) (hx : d.instruction.displacement = .ok x) :
    -126 ≤ s.target x ∧ s.target x ≤ s.program.size + 127 := by
  have hbyte := toInt_displacement hd hjump hx
  have hle := (Family.fits_of_decode hd).le
  rw [size_of_isJump hd hjump] at hle
  rw [target]
  omega

theorem le_emod_iff {x : Word} (size : s.program.size ≤ maxProgramSize)
    (hbounds : -126 ≤ s.target x ∧ s.target x ≤ s.program.size + 127) (houtside : s.Outside (s.target x)) :
    s.program.size ≤ s.target x % 0x10000 ↔ ¬s.ComesRound (s.target x) := by
  rw [maxProgramSize] at size
  unfold ComesRound
  unfold Outside at houtside
  omega

theorem not_comesRound {x : Word} (size : s.program.size ≤ 65408)
    (hbounds : -126 ≤ s.target x ∧ s.target x ≤ s.program.size + 127) : ¬s.ComesRound (s.target x) := by
  unfold ComesRound
  omega

theorem exists_step_of_takes (size : s.program.size ≤ maxProgramSize) (hd : decode s.program s.ip.toNat = .ok d)
    (hjump : d.instruction.operation.isJump = true) (htaken : s.machine.takes d.instruction.operation = true) :
    ∃ x z t, d.instruction.displacement = .ok x ∧ step s = .ok (some z) t ∧ t.program = s.program ∧
      (t.ip.toNat : Int) = s.target x % 0x10000 := by
  obtain ⟨x, z, hx, hstep⟩ := step_of_isJump size hd hjump
  rw [htaken, if_pos rfl] at hstep
  refine ⟨x, z, _, hx, hstep, s.traced_program, ?_⟩
  rw [ip_executing_withIp, toNat_add_displacement]

/-- A jump that is taken leads to its target modulo 65536. From a target outside the program nothing is executed any
more, except where it comes round, which it does in no program of up to 65408 bytes. -/
theorem finished_behind_jump (size : s.program.size ≤ maxProgramSize) (hd : decode s.program s.ip.toNat = .ok d)
    (hjump : d.instruction.operation.isJump = true) (htaken : s.machine.takes d.instruction.operation = true) :
    ∃ x z t, d.instruction.displacement = .ok x ∧ step s = .ok (some z) t ∧ (t.ip.toNat : Int) = s.target x % 0x10000 ∧
      (s.Outside (s.target x) →
        (t.finished = true ∧ step t = .ok none t ↔ ¬s.ComesRound (s.target x)) ∧
        (s.program.size ≤ 65408 → ¬s.ComesRound (s.target x))) := by
  obtain ⟨x, z, t, hx, hstep, hprogram, hip⟩ := exists_step_of_takes size hd hjump htaken
  have hbounds := target_bounds hd hjump hx
  refine ⟨x, z, t, hx, hstep, hip, ?_⟩
  intro houtside
  refine ⟨?_, fun hsmall => not_comesRound hsmall hbounds⟩
  rw [finished_iff (hprogram ▸ size), ← le_emod_iff size hbounds houtside, ← hip, hprogram]
  omega

theorem finished_behind_jump_to_last_address :
    ∃ x z t, (⟨.jcxz, [.signed 0xFFFD]⟩ : Instruction).displacement = .ok x ∧
      step (ofProgram #[0xE3, 0xFD] false) = .ok (some z) t ∧ (t.ip.toNat : Int) = 65535 ∧
      t.finished = true ∧ step t = .ok none t := by
  have hd : decode #[0xE3, 0xFD] 0 = .ok ⟨⟨.jcxz, [.signed 0xFFFD]⟩, 2, by decide⟩ := rfl
  obtain ⟨x, z, t, hx, hstep, hip, houtside⟩ :=
    finished_behind_jump (s := ofProgram #[0xE3, 0xFD] false) (by decide) hd rfl (by decide)
  cases hx
  obtain ⟨hfinished, hsmall⟩ := houtside (by decide)
  exact ⟨_, z, t, rfl, hstep, hip, hfinished.mpr (hsmall (by decide))⟩

/-- A jump at the very beginning leads 126 bytes back, from where a program of 65535 bytes goes on near its end. -/
theorem jump_comes_round :
    ¬∀ (s : Simulator) (d : Decoded) (x : Word) (z : Step) (t : Simulator), s.program.size ≤ maxProgramSize →
      decode s.program s.ip.toNat = .ok d → d.instruction.operation.isJump = true →
      s.machine.takes d.instruction.operation = true → d.instruction.displacement = .ok x →
      s.Outside (s.target x) → step s = .ok (some z) t → t.finished = true ∧ step t = .ok none t := by
  intro h
  obtain ⟨program, hprogram⟩ : ∃ program : Array Byte, program = #[0xE3, 0x80] ++ Array.replicate 65533 0x00 := ⟨_, rfl⟩
  have hsize : program.size = 65535 := by simp [hprogram]
  have hbytes : (Code.jcxz 0x80).bytes <+: program.toList := by
    rw [hprogram, Array.toList_append]
    exact List.prefix_append ..
  have hd : decode program 0 = .ok (Code.jcxz 0x80).decoded := (Code.jcxz 0x80).decode_of_bytes hbytes
  have hle : (ofProgram program false).program.size ≤ maxProgramSize := Nat.le_of_eq hsize
  obtain ⟨x, z, t, hx, hstep, hprogram', hip⟩ := exists_step_of_takes hle hd rfl rfl
  cases hx
  have htarget : (ofProgram program false).target 0xFF80 = -126 := rfl
  obtain ⟨hfinished, _⟩ := h _ _ 0xFF80 z t hle hd rfl rfl rfl (.inl (by rw [htarget]; decide)) hstep
  have hend : t.program.size ≤ t.ip.toNat := of_decide_eq_true hfinished
  rw [hprogram'] at hend
  change program.size ≤ t.ip.toNat at hend
  change (t.ip.toNat : Int) = (ofProgram program false).target 0xFF80 % 0x10000 at hip
  rw [htarget] at hip
  omega

end Simulator

/-!
## Where a jump leads

The text of a jump says where it leads and, by its mnemonic, when it is taken. A step goes there then, and to the next
instruction otherwise (`step_jumps`). Where the jump leads to the next instruction both are the same
(`jump_to_next_not_taken`).
-/

namespace Machine

/-- When the jump of a mnemonic is taken. A loop asks what CX is once it has counted it down. -/
def Asks (m : Machine) : String → Prop
  | "jo" => m.isSet .overflow
  | "jno" => ¬m.isSet .overflow
  | "jb" => m.isSet .carry
  | "jnb" => ¬m.isSet .carry
  | "je" => m.isSet .zero
  | "jne" => ¬m.isSet .zero
  | "jbe" => m.isSet .carry ∨ m.isSet .zero
  | "jnbe" => ¬m.isSet .carry ∧ ¬m.isSet .zero
  | "js" => m.isSet .sign
  | "jns" => ¬m.isSet .sign
  | "jp" => m.isSet .parity
  | "jnp" => ¬m.isSet .parity
  | "jl" => m.isSet .sign ≠ m.isSet .overflow
  | "jnl" => m.isSet .sign = m.isSet .overflow
  | "jle" => m.isSet .zero ∨ m.isSet .sign ≠ m.isSet .overflow
  | "jnle" => ¬m.isSet .zero ∧ m.isSet .sign = m.isSet .overflow
  | "jcxz" => m.registers.word .cx = 0
  | "loop" => m.registers.word .cx - 1 ≠ 0
  | "loopz" => m.registers.word .cx - 1 ≠ 0 ∧ m.isSet .zero
  | "loopnz" => m.registers.word .cx - 1 ≠ 0 ∧ ¬m.isSet .zero
  | _ => False

theorem holds_iff (m : Machine) (c : Condition) : c.holds m.flags = true ↔ m.Asks c.mnemonic := by
  obtain ⟨test, negated⟩ := c
  cases test <;> cases negated <;> simp [Condition.holds, Test.holds, Condition.mnemonic, Test.letters, Asks, isSet]

theorem takes_iff (m : Machine) (operation : Operation) : m.takes operation = true ↔ m.Asks operation.mnemonic := by
  cases operation with
  | jump c => exact m.holds_iff c
  | loop t => cases t <;> simp [takes, LoopTest.holds, LoopTest.mnemonic, Operation.mnemonic, Asks, isSet]
  | jcxz => simp [takes, Operation.mnemonic, Asks]
  | mov => simp [takes, Operation.mnemonic, Asks]
  | arith op => cases op <;> simp [takes, Operation.mnemonic, Arith.mnemonic, Asks]

theorem cx_counted (m : Machine) (operation : Operation) : (m.counted operation).registers.word .cx =
    if operation.mnemonic ∈ ["loop", "loopz", "loopnz"] then m.registers.word .cx - 1 else m.registers.word .cx := by
  cases operation with
  | loop t =>
    have hmnemonic : (Operation.loop t).mnemonic ∈ ["loop", "loopz", "loopnz"] := by cases t <;> decide
    rw [if_pos hmnemonic]
    exact m.cx_countDown
  | jump c =>
    obtain ⟨test, negated⟩ := c
    cases test <;> cases negated <;> rfl
  | jcxz | mov => rfl
  | arith op => cases op <;> rfl

end Machine

open Text in
theorem Instruction.text_of_operand {i : Instruction} {size : Option Width} {x : Word}
    (hjump : i.operation.isJump = true) (h : i.operands = [⟨size, .signed x⟩]) :
    i.text = i.operation.mnemonic ++ " $" ++ signed (x.toInt + 2) := by
  have hblank : " $" = " " ++ "$" := by decide
  have hne : i.operands ≠ [] := h ▸ List.cons_ne_nil _ _
  rw [text_of_ne_nil hne, h, List.map_singleton, String.intercalate_singleton, operandText_of_jump hjump, hblank,
    ← String.append_assoc, ← String.append_assoc]

namespace Simulator

open Machine Text

variable {s : Simulator} {d : Decoded}

theorem text_of_isJump {x : Word} (hd : decode s.program s.ip.toNat = .ok d)
    (hjump : d.instruction.operation.isJump = true) (hx : d.instruction.displacement = .ok x) :
    d.instruction.text = d.instruction.operation.mnemonic ++ " $" ++ signed (x.toInt + 2) := by
  obtain ⟨c, _, rfl⟩ := Code.exists_of_decode hd
  obtain ⟨y, hy⟩ := Code.operands_of_isJump hjump
  cases hx.symm.trans (Instruction.displacement_eq hy)
  exact Instruction.text_of_operand hjump hy

/-- The text of a jump ends in one way only in `$` and a number with a sign. The jump leads that far from itself, modulo
65536, if what its mnemonic asks holds, and to the next instruction if not, which are one address where the number is 2.
Memory and registers stay but IP, and CX in a loop. -/
theorem step_jumps (size : s.program.size ≤ maxProgramSize) (hd : decode s.program s.ip.toNat = .ok d)
    (hjump : d.instruction.operation.isJump = true) :
    ∃ N z t, d.instruction.text = d.instruction.operation.mnemonic ++ " $" ++ signed N ∧
      (∀ front M, d.instruction.text = front ++ "$" ++ signed M → M = N) ∧ step s = .ok (some z) t ∧
      (s.machine.Asks d.instruction.operation.mnemonic → (t.ip.toNat : Int) = (s.ip.toNat + N) % 0x10000) ∧
      (¬s.machine.Asks d.instruction.operation.mnemonic → t.ip.toNat = s.ip.toNat + 2) ∧
      ((t.ip.toNat : Int) = (s.ip.toNat + N) % 0x10000 ↔ s.machine.Asks d.instruction.operation.mnemonic ∨ N = 2) ∧
      t.machine.memory = s.machine.memory ∧
      (∀ r, r ≠ .ip → r ≠ .cx → t.machine.registers.word r = s.machine.registers.word r) ∧
      t.machine.registers.word .cx =
        if d.instruction.operation.mnemonic ∈ ["loop", "loopz", "loopnz"] then s.machine.registers.word .cx - 1
        else s.machine.registers.word .cx := by
  obtain ⟨x, z, hx, hstep⟩ := step_of_isJump size hd hjump
  have htext := text_of_isJump hd hjump hx
  have hrange := toInt_displacement hd hjump hx
  have hbehind := toNat_behind_jump size hd hjump
  have htarget := s.toNat_add_displacement x
  rw [target] at htarget
  have htaken := s.machine.takes_iff d.instruction.operation
  refine ⟨_, z, _, htext, ?_, hstep, ?_, ?_, ?_, ?_, ?_, ?_⟩
  · intro front M hM
    exact (append_signed_inj (hM.symm.trans htext)).2
  · intro hasks
    rw [ip_executing_withIp, if_pos (htaken.mpr hasks)]
    omega
  · intro hasks
    rw [ip_executing_withIp, if_neg (mt htaken.mp hasks)]
    exact hbehind
  · rw [ip_executing_withIp, ← htaken]
    cases s.machine.takes d.instruction.operation
    · rw [if_neg Bool.false_ne_true]
      simp only [Bool.false_eq_true, false_or]
      omega
    · rw [if_pos rfl]
      simp only [true_or, iff_true]
      omega
  · exact s.machine.memory_counted _
  · intro r hip hcx
    exact (word_withIp _ _ r).trans ((if_neg hip).trans (s.machine.word_counted_of_ne _ hcx))
  · exact (word_withIp _ _ .cx).trans ((if_neg (by decide)).trans (s.machine.cx_counted _))

theorem step_jumps_of_loop :
    let s : Simulator := ⟨⟨Register.File.zero.set .flags 0x40, .zero⟩, #[0xE1, 0xFC], false, 0, []⟩
    (⟨.loop .zero, [.signed 0xFFFC]⟩ : Instruction).text = "loopz $-2" ∧
      decode #[0xE1, 0xFC] 0 = .ok ⟨⟨.loop .zero, [.signed 0xFFFC]⟩, 2, by decide⟩ ∧
      ∃ z t, step s = .ok (some z) t ∧ (t.ip.toNat : Int) = 0xFFFE ∧ t.machine.registers.word .cx = 0xFFFF := by
  intro s
  have hd : decode #[0xE1, 0xFC] 0 = .ok ⟨⟨.loop .zero, [.signed 0xFFFC]⟩, 2, by decide⟩ := rfl
  obtain ⟨N, z, t, _, hunique, hstep, htaken, _, _, _, _, hcx⟩ := step_jumps (s := s) (by decide) hd rfl
  obtain rfl := hunique "loopz " (-2) (by decide)
  have hasks : s.machine.Asks "loopz" := ⟨by decide, by decide⟩
  exact ⟨by decide, hd, z, t, hstep, htaken hasks, hcx⟩

/-- A jump to the next instruction gets there without being taken. -/
theorem jump_to_next_not_taken :
    ¬∀ (s : Simulator) (d : Decoded) (N : Int) (z : Step) (t : Simulator), s.program.size ≤ maxProgramSize →
      decode s.program s.ip.toNat = .ok d → d.instruction.operation.isJump = true →
      d.instruction.text = d.instruction.operation.mnemonic ++ " $" ++ signed N → step s = .ok (some z) t →
      ((t.ip.toNat : Int) = (s.ip.toNat + N) % 0x10000 ↔ s.machine.Asks d.instruction.operation.mnemonic) := by
  intro h
  have hsize : (ofProgram #[0x74, 0x00] false).program.size ≤ maxProgramSize := by decide
  have hd : decode #[0x74, 0x00] 0 = .ok (Code.jump ⟨.equal, false⟩ 0).decoded := rfl
  obtain ⟨x, z, hx, hstep⟩ := step_of_isJump hsize hd rfl
  have htext : (Code.jump ⟨.equal, false⟩ 0).instruction.text = "je" ++ " $" ++ signed 2 := by decide
  have hasks : ¬Machine.zero.Asks "je" := by
    change ¬Machine.zero.isSet .zero = true
    decide
  exact hasks ((h _ _ 2 z _ hsize hd rfl htext hstep).mp (by cases hx; rfl))

end Simulator

/-!
## Jumps behind a comparison

What each condition asks of the two numbers that were compared, unsigned, signed, or of the bits of their difference, and
that a conditional jump behind a comparison is taken exactly where this holds (`comparison_decides_jump`).
-/

namespace Condition

section
variable {n : Nat} (a b : BitVec n)

def Relation : Condition → Prop
  | ⟨.equal, false⟩ => a = b
  | ⟨.equal, true⟩ => a ≠ b
  | ⟨.below, false⟩ => a.toNat < b.toNat
  | ⟨.below, true⟩ => b.toNat ≤ a.toNat
  | ⟨.belowOrEqual, false⟩ => a.toNat ≤ b.toNat
  | ⟨.belowOrEqual, true⟩ => b.toNat < a.toNat
  | ⟨.less, false⟩ => a.toInt < b.toInt
  | ⟨.less, true⟩ => b.toInt ≤ a.toInt
  | ⟨.lessOrEqual, false⟩ => a.toInt ≤ b.toInt
  | ⟨.lessOrEqual, true⟩ => b.toInt < a.toInt
  | ⟨.sign, false⟩ => (a - b).msb = true
  | ⟨.sign, true⟩ => (a - b).msb = false
  | ⟨.overflow, false⟩ => a.toInt - b.toInt < -2 ^ (n - 1) ∨ 2 ^ (n - 1) ≤ a.toInt - b.toInt
  | ⟨.overflow, true⟩ => -2 ^ (n - 1) ≤ a.toInt - b.toInt ∧ a.toInt - b.toInt < 2 ^ (n - 1)
  | ⟨.parity, false⟩ => Even ((List.range 8).countP (a - b).getLsbD)
  | ⟨.parity, true⟩ => Odd ((List.range 8).countP (a - b).getLsbD)

theorem relation_negated (t : Test) : Relation a b ⟨t, true⟩ ↔ ¬Relation a b ⟨t, false⟩ := by
  cases t <;> simp [Relation]

theorem msb_sub_ne_iff (hn : n = 8 ∨ n = 16) : (a - b).msb ≠ BitVec.ssubOverflow a b ↔ a.toInt < b.toInt := by
  have ha := a.two_mul_toInt_lt
  have ha' := a.le_two_mul_toInt
  have hb := b.two_mul_toInt_lt
  have hb' := b.le_two_mul_toInt
  rw [BitVec.msb_eq_toInt, BitVec.toInt_sub, BitVec.ssubOverflow, Int.bmod_def, Ne, ← Bool.decide_or, decide_eq_decide]
  generalize a.toInt = x at *
  generalize b.toInt = y at *
  rcases hn with rfl | rfl
  · split <;> omega
  · split <;> omega

theorem toNat_le_iff : a.toNat ≤ b.toNat ↔ a.toNat < b.toNat ∨ a = b := by
  rw [Nat.le_iff_lt_or_eq, BitVec.toNat_inj]

theorem toInt_le_iff : a.toInt ≤ b.toInt ↔ a = b ∨ a.toInt < b.toInt := by
  rw [Int.le_iff_lt_or_eq, BitVec.toInt_inj, or_comm]

theorem holds_sub (hn : n = 8 ∨ n = 16) (flags : Word) (c : Condition) :
    c.holds ((Outcome.sub a b).flags flags) = true ↔ c.Relation a b := by
  obtain ⟨t, negated⟩ := c
  have htest : t.holds ((Outcome.sub a b).flags flags) = true ↔ Relation a b ⟨t, false⟩ := by
    have hzero : a - b = 0#n ↔ a = b := sub_eq_zero
    cases t <;> simp only [Test.holds, Outcome.isSet_flags, Outcome.status, Relation]
    case overflow => simp [Outcome.sub, BitVec.ssubOverflow, or_comm]
    case below => simp [Outcome.sub, BitVec.usubOverflow]
    case equal => simp [Outcome.sub, hzero]
    case belowOrEqual => simp [Outcome.sub, BitVec.usubOverflow, hzero, toNat_le_iff]
    case sign => rfl
    case parity => exact Outcome.evenParity_value (Outcome.sub a b)
    case less => simpa [Outcome.sub] using msb_sub_ne_iff a b hn
    case lessOrEqual =>
      rw [toInt_le_iff, ← msb_sub_ne_iff a b hn]
      simp [Outcome.sub, hzero]
  cases negated
  · simpa [Condition.holds] using htest
  · rw [relation_negated, ← htest]
    simp [Condition.holds]

end

end Condition

namespace Simulator

open Machine

theorem holds_of_step {s t : Simulator} {d : Decoded} {z : Step} (hsize : s.program.size ≤ maxProgramSize)
    (hd : decode s.program s.ip.toNat = .ok d) (hcmp : d.instruction.operation = .arith .cmp)
    (hstep : step s = .ok (some z) t) {dst src : Operand} {w : Width} (hp : d.instruction.pair = .ok (dst, src, w))
    (c : Condition) : c.holds t.machine.flags = true ↔
      c.Relation ((s.machine.value dst w).setWidth w.bits) ((s.machine.value src w).setWidth w.bits) := by
  obtain ⟨m, hm, hstep'⟩ := step_of_not_jump hsize hd (by rw [hcmp]; rfl)
  cases hstep.symm.trans hstep'
  cases hm.symm.trans (execute_cmp hcmp hp)
  have hbits : w.bits = 8 ∨ w.bits = 16 := by
    cases w
    · exact .inl rfl
    · exact .inr rfl
  simp only [executing, flags_withIp, flags_setStatus]
  exact Condition.holds_sub _ _ hbits _ c

/-- What a comparison of any two operands leaves decides each conditional jump behind it as its relation says. -/
theorem comparison_decides_jump (s : Simulator) (hsize : s.program.size ≤ maxProgramSize) {d : Decoded}
    (hd : decode s.program s.ip.toNat = .ok d) (hcmp : d.instruction.operation = .arith .cmp) :
    ∃ dst src w x y z t, d.instruction.pair = .ok (dst, src, w) ∧
      s.machine.load dst w = .ok x ∧ s.machine.load src w = .ok y ∧
      step s = .ok (some z) t ∧ t.ip.toNat = s.ip.toNat + d.size ∧
      let a := x.setWidth w.bits
      let b := y.setWidth w.bits
      (∀ test, Condition.Relation a b ⟨test, true⟩ ↔ ¬Condition.Relation a b ⟨test, false⟩) ∧
      ∀ j c, decode s.program (s.ip.toNat + d.size) = .ok j → j.instruction.operation = .jump c →
        ∃ displacement z' u, j.instruction.displacement = .ok displacement ∧ step t = .ok (some z') u ∧
          (c.Relation a b → u.ip = t.ip + 2 + displacement) ∧ (¬c.Relation a b → u.ip.toNat = t.ip.toNat + 2) := by
  have hjump : d.instruction.operation.isJump = false := by rw [hcmp]; rfl
  cases fit_of_decode hd with
  | jump isJump => cases hjump.symm.trans isJump
  | @pair dst src w _ pair =>
    obtain ⟨z, t, hstep, _, _, hprogram, _, hip⟩ := next_of_not_jump hsize hd hjump
    refine ⟨dst, src, w, _, _, z, t, pair, load_eq .., load_eq .., hstep, hip, Condition.relation_negated _ _, ?_⟩
    intro j c hj hc
    have hholds := holds_of_step hsize hd hcmp hstep pair c
    rw [← hip, ← hprogram] at hj
    obtain ⟨displacement, z', u, hx, hstep', htaken, hnot⟩ := ip_of_jump (hprogram ▸ hsize) hj hc
    refine ⟨displacement, z', u, hx, hstep', ?_, ?_⟩
    · intro h
      exact htaken (hholds.mpr h)
    · intro h
      exact hnot (Bool.eq_false_iff.mpr (fun e => h (hholds.mp e)))

theorem comparison_decides_jump_below :
    decode #[0x3C, 0xFF, 0x72, 0xFE] 0 = .ok ⟨⟨.arith .cmp, [.register ⟨.ax, .low⟩, .signed 0xFFFF]⟩, 2, by decide⟩ ∧
      ∃ dst src w x y z t, Instruction.pair ⟨.arith .cmp, [.register ⟨.ax, .low⟩, .signed 0xFFFF]⟩ = .ok (dst, src, w) ∧
        Machine.zero.load dst w = .ok x ∧ Machine.zero.load src w = .ok y ∧
        step (ofProgram #[0x3C, 0xFF, 0x72, 0xFE] false) = .ok (some z) t ∧ t.ip.toNat = 2 ∧
        ∃ z' u, step t = .ok (some z') u ∧ u.ip = 2 := by
  have hd : decode #[0x3C, 0xFF, 0x72, 0xFE] 0 =
      .ok ⟨⟨.arith .cmp, [.register ⟨.ax, .low⟩, .signed 0xFFFF]⟩, 2, by decide⟩ := rfl
  obtain ⟨dst, src, w, x, y, z, t, pair, hx, hy, hstep, hip, _, hnext⟩ :=
    comparison_decides_jump (ofProgram #[0x3C, 0xFF, 0x72, 0xFE] false) (by decide) hd rfl
  cases pair
  cases hx
  cases hy
  obtain ⟨_, z', u, hdisplacement, hstep', htaken, _⟩ := hnext _ ⟨.below, false⟩ rfl rfl
  cases hdisplacement
  have hu := htaken (show 0 < 0xFF by decide)
  have ht : t.ip = 2 := BitVec.eq_of_toNat_eq hip
  rw [ht] at hu
  exact ⟨hd, _, _, _, _, _, z, t, rfl, rfl, rfl, hstep, hip, z', u, hstep', hu⟩

end Simulator

end I8086
