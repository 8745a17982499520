import Mathlib.Data.BitVec
import I8086.Proofs.Machine.Cell
import I8086.Proofs.Machine.Status
import I8086.Proofs.Simulator.Step
import I8086.Proofs.Machine.Frame

/-! # Steps with two operands -/

namespace I8086

/-!
## Moves and arithmetic as numbers

A step over an instruction of two operands is said in the numbers that they stand for before it. A move leaves the
number of its source in its destination (`step_moves`). An addition, subtraction or comparison decides the six flags, and
leaves its result in the destination unless it compares (`step_computes`).
-/

/-- Two operands, of which one at least has a width and none has another one. Neither is IP or FLAGS. -/
structure Instruction.Binary (i : Instruction) (dst src : Operand) (w : Width) : Prop where
  operands : i.operands = [dst, src]
  place : dst.isPlace = true
  notControl : dst.isControl = false ∧ src.isControl = false
  known : dst.width? = some w ∨ src.width? = some w
  destination : ∀ v, dst.width? = some v → v = w
  source : ∀ v, src.width? = some v → v = w

namespace Instruction

variable {i : Instruction} {dst src : Operand} {w : Width}

theorem Binary.pair (h : i.Binary dst src w) : i.pair = .ok (dst, src, w) := by
  refine pair_eq h.operands ?_
  cases hd : dst.width? with
  | some v => exact congrArg some (h.destination v hd)
  | none =>
    rcases h.known with hk | hk
    · cases hd.symm.trans hk
    · exact hk

theorem WellFormed.exists_binary (h : i.WellFormed) (hjump : i.operation.isJump = false) :
    ∃ dst src w, i.Binary dst src w := by
  cases h with
  | jump isJump => cases isJump.symm.trans hjump
  | @pair dst src _ operands place _ known each destination source =>
    have hcontrol : dst.isControl = false ∧ src.isControl = false :=
      ⟨(each dst (by simp)).notControl, (each src (by simp)).notControl⟩
    have hself {o : Operand} {w : Width} (h : o.width? = some w) (v : Width) (hv : o.width? = some v) : v = w :=
      Option.some.inj (hv.symm.trans h)
    cases hd : dst.width? with
    | some w =>
      exact ⟨dst, src, w, operands, place, hcontrol, .inl hd, hself hd, fun v hv => source.width v w hv hd⟩
    | none =>
      obtain ⟨w, hs⟩ := Option.ne_none_iff_exists'.mp (known.resolve_left (not_not_intro hd))
      exact ⟨dst, src, w, operands, place, hcontrol, .inr hs, fun v hv => destination.width v w hv hs, hself hs⟩

end Instruction

theorem Outcome.toNat_setWidth_value {n : Nat} (o : Outcome n) (hn : n ≤ 16) :
    (o.value.setWidth 16).toNat % 2 ^ n = o.value.toNat := by
  rw [BitVec.toNat_setWidth_of_le hn, Nat.mod_eq_of_lt o.value.isLt]

namespace Machine

variable (m : Machine) {dst src : Operand} {w : Width}

theorem toNat_value_outcome (op : Arith) (hdst : ∀ v, dst.width? = some v → v = w)
    (hsrc : ∀ v, src.width? = some v → v = w) :
    (m.outcome op dst src w).value.toNat = op.result w.bits (m.number dst w) (m.number src w) := by
  rw [outcome, Arith.toNat_value_outcome, m.toNat_value hdst, m.toNat_value hsrc]

theorem status_outcome (op : Arith) (hdst : ∀ v, dst.width? = some v → v = w)
    (hsrc : ∀ v, src.width? = some v → v = w) (f : Flag) :
    (m.outcome op dst src w).status f = true ↔ op.Sets w.bits (m.number dst w) (m.number src w) f := by
  rw [outcome, Arith.status_outcome, m.toNat_value hdst, m.toNat_value hsrc]

def results (op : Arith) (dst : Operand) (w : Width) : List Cell := if op = .cmp then [] else m.cells dst w

theorem execute_computes {i : Instruction} {op : Arith} (operation : i.operation = .arith op)
    (h : i.Binary dst src w) :
    ∃ m', execute i m = .ok () m' ∧ m'.flags = (m.outcome op dst src w).flags m.flags ∧
      AgreeOutside (Cell.ofRegister .flags ++ m.results op dst w) m m' ∧
      (op ≠ .cmp → m'.stored (m.cells dst w) = op.result w.bits (m.number dst w) (m.number src w)) := by
  have hstatus : AgreeOutside (Cell.ofRegister .flags) m (m.setStatus (m.outcome op dst src w)) :=
    m.agreeOutside_set .flags _
  by_cases hop : op = .cmp
  · subst hop
    refine ⟨_, execute_cmp operation h.pair, m.flags_setStatus _, ?_, fun hne => absurd rfl hne⟩
    rw [results, if_pos rfl, List.append_nil]
    exact hstatus
  · refine ⟨_, execute_arith operation hop h.pair h.place, ?_, ?_, ?_⟩
    · rw [flags, word_put_of_not_control _ _ _ h.notControl.1 (.inr rfl), ← flags_setStatus, flags]
    · rw [results, if_neg hop, ← m.cells_setStatus (m.outcome op dst src w)]
      exact hstatus.trans (agreeOutside_put _ _ _ _)
    · intro _
      rw [← m.cells_setStatus (m.outcome op dst src w), stored_put _ _ h.place h.destination,
        Outcome.toNat_setWidth_value _ (by cases w <;> decide), m.toNat_value_outcome op h.destination h.source]

end Machine

namespace Simulator

open Machine

variable {s : Simulator} {d : Decoded}

theorem exists_binary_step (size : s.program.size ≤ maxProgramSize) (hd : decode s.program s.ip.toNat = .ok d)
    (hjump : d.instruction.operation.isJump = false) :
    ∃ dst src w m z t, d.instruction.Binary dst src w ∧ execute d.instruction s.machine = .ok () m ∧
      step s = .ok (some z) t ∧ t.machine = m.withIp (s.ip + BitVec.ofNat 16 d.size) ∧
      t.ip.toNat = s.ip.toNat + d.size := by
  have hwellFormed : d.instruction.WellFormed := by
    obtain ⟨c, _, rfl⟩ := Code.exists_of_decode hd
    exact c.wellFormed
  obtain ⟨dst, src, w, hbinary⟩ := hwellFormed.exists_binary hjump
  obtain ⟨m, hm, hstep⟩ := step_of_not_jump size hd hjump
  refine ⟨dst, src, w, m, _, _, hbinary, hm, hstep, rfl, ?_⟩
  rw [ip_executing_withIp, toNat_behind size hd]

/-- A move leaves in its destination the number that its source was, where the destination was: both are read before
anything changes. Nothing else changes but IP. -/
theorem step_moves (size : s.program.size ≤ maxProgramSize) (hd : decode s.program s.ip.toNat = .ok d)
    (operation : d.instruction.operation = .mov) :
    ∃ dst src w z t, d.instruction.Binary dst src w ∧ step s = .ok (some z) t ∧
      t.machine.stored (s.machine.cells dst w) = s.machine.number src w ∧ t.machine.flags = s.machine.flags ∧
      AgreeOutside (s.machine.cells dst w ++ Cell.ofRegister .ip) s.machine t.machine ∧
      t.ip.toNat = s.ip.toNat + d.size := by
  have hjump : d.instruction.operation.isJump = false := by rw [operation]; rfl
  obtain ⟨dst, src, w, m, z, t, hbinary, hm, hstep, ht, hip⟩ := exists_binary_step size hd hjump
  rw [execute_mov operation hbinary.pair hbinary.place] at hm
  cases hm
  have hdst := hbinary.notControl.1
  refine ⟨dst, src, w, z, t, hbinary, hstep, ?_, ?_, ?_, hip⟩
  · rw [ht, stored_withIp _ _ _ hdst, stored_put _ _ hbinary.place hbinary.destination,
      ← BitVec.toNat_setWidth, toNat_value _ hbinary.source]
  · rw [ht, flags_withIp, flags, word_put_of_not_control _ _ _ hdst (.inr rfl), flags]
  · rw [ht]
    exact (agreeOutside_put _ _ _ _).trans (agreeOutside_set _ .ip _)

theorem step_moves_into_base :
    let memory := (Memory.zero.put (physical 0xFFFF) 0x34).put (physicalNext 0xFFFF) 0x12
    let s : Simulator := ⟨⟨Register.File.zero.set .bx 0xFFFF, memory⟩, #[0x8B, 0x1F], false, 0, []⟩
    decode #[0x8B, 0x1F] 0 = .ok ⟨⟨.mov, [.register (.whole .bx), .memory (some .word) .bx 0]⟩, 2, by decide⟩ ∧
      ∃ z t, step s = .ok (some z) t ∧ t.machine.stored (Cell.ofRegister .bx) = 0x1234 ∧ t.ip.toNat = 2 := by
  intro memory s
  have hd : decode #[0x8B, 0x1F] 0 =
      .ok ⟨⟨.mov, [.register (.whole .bx), .memory (some .word) .bx 0]⟩, 2, by decide⟩ := rfl
  obtain ⟨dst, src, w, z, t, hbinary, hstep, hstored, _, _, hip⟩ := step_moves (s := s) (by decide) hd rfl
  cases hbinary.operands
  obtain rfl := hbinary.destination .word rfl
  exact ⟨hd, z, t, hstep, hstored, hip⟩

/-- An operation decides each flag by the numbers that its operands are before it, and keeps the other bits of FLAGS. Its
result is left in the destination, unless it compares. Nothing else changes but IP. -/
theorem step_computes (size : s.program.size ≤ maxProgramSize) (hd : decode s.program s.ip.toNat = .ok d) {op : Arith}
    (operation : d.instruction.operation = .arith op) :
    ∃ dst src w z t, d.instruction.Binary dst src w ∧ step s = .ok (some z) t ∧
      (∀ f, t.machine.isSet f = true ↔ op.Sets w.bits (s.machine.number dst w) (s.machine.number src w) f) ∧
      (∀ i, Flag.Reserved i → t.machine.flags.getLsbD i = s.machine.flags.getLsbD i) ∧
      (op ≠ .cmp → t.machine.stored (s.machine.cells dst w) =
        op.result w.bits (s.machine.number dst w) (s.machine.number src w)) ∧
      AgreeOutside (Cell.ofRegister .flags ++ s.machine.results op dst w ++ Cell.ofRegister .ip) s.machine t.machine ∧
      t.ip.toNat = s.ip.toNat + d.size ∧
      (op = .cmp → ∃ m, execute ⟨.arith .sub, d.instruction.operands⟩ s.machine = .ok () m ∧
        m.flags = t.machine.flags) := by
  have hjump : d.instruction.operation.isJump = false := by rw [operation]; rfl
  obtain ⟨dst, src, w, m, z, t, hbinary, hm, hstep, ht, hip⟩ := exists_binary_step size hd hjump
  obtain ⟨m', hm', hflags, hagree, hstored⟩ := s.machine.execute_computes operation hbinary
  cases hm.symm.trans hm'
  have hflags' : t.machine.flags = (s.machine.outcome op dst src w).flags s.machine.flags := by
    rw [ht, flags_withIp, hflags]
  refine ⟨dst, src, w, z, t, hbinary, hstep, ?_, ?_, ?_, ?_, hip, ?_⟩
  · intro f
    rw [isSet, hflags', Outcome.isSet_flags]
    exact s.machine.status_outcome op hbinary.destination hbinary.source f
  · intro i hi
    rw [hflags', Outcome.getLsbD_flags _ _ hi]
  · intro hop
    rw [ht, stored_withIp _ _ _ hbinary.notControl.1, hstored hop]
  · rw [ht]
    exact hagree.trans (agreeOutside_set _ .ip _)
  · rintro rfl
    have hsub : (⟨.arith .sub, d.instruction.operands⟩ : Instruction).Binary dst src w := { hbinary with }
    obtain ⟨m', hm', hsubtracted, _⟩ := s.machine.execute_computes rfl hsub
    exact ⟨m', hm', hsubtracted.trans hflags'.symm⟩

theorem step_computes_in_half :
    let s : Simulator := ⟨⟨Register.File.zero.set .ax 0x7F01, .zero⟩, #[0x00, 0xC4], false, 0, []⟩
    decode #[0x00, 0xC4] 0 = .ok ⟨⟨.arith .add, [.register ⟨.ax, .high⟩, .register ⟨.ax, .low⟩]⟩, 2, by decide⟩ ∧
      ∃ z t, step s = .ok (some z) t ∧ t.machine.stored [.half .ax .high] = 0x80 ∧
        t.machine.byte (.half .ax .low) = 0x01 ∧ t.machine.isSet .overflow = true ∧ t.machine.isSet .carry = false := by
  intro s
  have hd : decode #[0x00, 0xC4] 0 =
      .ok ⟨⟨.arith .add, [.register ⟨.ax, .high⟩, .register ⟨.ax, .low⟩]⟩, 2, by decide⟩ := rfl
  obtain ⟨dst, src, w, z, t, hbinary, hstep, hset, _, hstored, hagree, _, _⟩ := step_computes (s := s) (by decide) hd rfl
  cases hbinary.operands
  obtain rfl := hbinary.destination .byte rfl
  have hlow := hagree (.half .ax .low) (by decide)
  refine ⟨hd, z, t, hstep, (hstored nofun).trans (by decide), hlow.trans (by decide),
    (hset .overflow).mpr (by decide), Bool.eq_false_iff.mpr (mt (hset .carry).mp (by decide))⟩

end Simulator

/-!
## Alternative encodings

The machine has several codes for one instruction. Those that differ in their layout only decode to the same
instruction; the short forms decode to others, which do the same to every machine.
-/

namespace Code

inductive Moded : (Place → Code) → Prop
  | movRm (toRegister : Bool) (w : Width) (reg : BitVec 3) : Moded (movRm toRegister w reg)
  | arithRm (op : Arith) (toRegister : Bool) (w : Width) (reg : BitVec 3) : Moded (arithRm op toRegister w reg)
  | movImm (x : Bool) (w : Width) (ignored : BitVec 3) (data : BitVec w.bits) :
    Moded fun rm => movImm x w ignored rm data
  | arithImm (op : Arith) (w : Width) (data : BitVec w.bits) : Moded fun rm => arithImm op w rm data
  | arithExtended (op : Arith) (w : Width) (data : Byte) : Moded fun rm => arithExtended op w rm data
  | movSegment (toSegment : Bool) (segment : BitVec 2) : Moded (movSegment toSegment segment)

/-- Codes that differ in their layout only. -/
inductive Twin : Code → Code → Prop
  | movSwapped (w : Width) (reg rm : BitVec 3) : Twin (movRm false w reg (.register rm)) (movRm true w rm (.register reg))
  | arithSwapped (op : Arith) (w : Width) (reg rm : BitVec 3) :
    Twin (arithRm op false w reg (.register rm)) (arithRm op true w rm (.register reg))
  | far {f : Place → Code} (hf : Moded f) (rm : BitVec 3) (x : Byte) :
    Twin (f (.near rm x)) (f (.far rm (BitVec.signExtend 16 x)))
  | base {f : Place → Code} (hf : Moded f) (rm : BitVec 3) (h : rm ≠ 0b110) : Twin (f (.base rm h)) (f (.near rm 0))

inductive Alternative : Code → Code → Prop
  | twin {c c' : Code} (h : Twin c c') : Alternative c c'
  | extended (op : Arith) (w : Width) (rm : Place) (data : Byte) :
    Alternative (arithExtended op w rm data) (arithImm op w rm (BitVec.signExtend w.bits data))
  | accumulator (op : Arith) (x : Bool) (w : Width) (data : BitVec w.bits) :
    Alternative (arithAcc op x w data) (arithImm op w (.register 0) data)
  | register (w : Width) (reg : BitVec 3) (x : Bool) (ignored : BitVec 3) (data : BitVec w.bits) :
    Alternative (movReg w reg data) (movImm x w ignored (.register reg) data)
  | direct (toMemory : Bool) (w : Width) (address : Word) :
    Alternative (movAcc toMemory w address) (movRm (!toMemory) w 0 (.direct address))

theorem Moded.instruction_congr {f : Place → Code} (hf : Moded f) {p p' : Place} (h : ∀ w, p.operand w = p'.operand w) :
    (f p).instruction = (f p').instruction := by
  cases hf <;> simp [instruction, operation, operands, h]

theorem Twin.instruction_eq {c c' : Code} (h : Twin c c') : c.instruction = c'.instruction := by
  cases h with
  | movSwapped w reg rm | arithSwapped op w reg rm => rfl
  | far hf rm x => exact hf.instruction_congr fun _ => rfl
  | base hf rm h => exact hf.instruction_congr fun _ => rfl

theorem Alternative.isJump_eq_false {c c' : Code} (h : Alternative c c') :
    c.operation.isJump = false ∧ c'.operation.isJump = false := by
  cases h with
  | twin h =>
    cases h with
    | movSwapped | arithSwapped => exact ⟨rfl, rfl⟩
    | far hf | base hf => cases hf <;> exact ⟨rfl, rfl⟩
  | extended | accumulator | register | direct => exact ⟨rfl, rfl⟩

end Code

/-! ### Instructions that do the same -/

namespace Width

variable (w : Width)

theorem setWidth_signExtend (x : BitVec w.bits) : (BitVec.signExtend 16 x).setWidth w.bits = x := by
  apply BitVec.eq_of_getLsbD_eq
  intro i hi
  have : w.bits ≤ 16 := by cases w <;> decide
  simp [-BitVec.getLsbD_eq_getElem, BitVec.getLsbD_signExtend, hi, show i < 16 by omega]

theorem setWidth_setWidth (x : BitVec w.bits) : (x.setWidth 16).setWidth w.bits = x := by
  apply BitVec.eq_of_getLsbD_eq
  intro i hi
  have : w.bits ≤ 16 := by cases w <;> decide
  simp [hi, show i < 16 by omega]

theorem setWidth_extended (x : Byte) : (BitVec.signExtend 16 x).setWidth w.bits = BitVec.signExtend w.bits x := by
  cases w with
  | byte => exact (setWidth_signExtend .byte x).trans (BitVec.signExtend_eq x).symm
  | word => exact BitVec.setWidth_eq _

end Width

open Machine Instruction in
theorem Code.Alternative.execute_eq {c c' : Code} (h : Alternative c c') (m : Machine) :
    execute c.instruction m = execute c'.instruction m := by
  have hregister (w : Width) (k : Fin 8) := congrArg some (w.width_registers k)
  cases h with
  | twin h => rw [h.instruction_eq]
  | extended op w rm data =>
    have hwidth : ((rm.operand w).width? <|> some w) = some w := by rw [rm.width?_operand]; rfl
    refine execute_congr m rfl rfl (pair_eq rfl hwidth) (pair_eq rfl hwidth) (rm.isPlace_operand w) rfl ?_
    intro m
    exact (w.setWidth_extended data).trans (w.setWidth_setWidth _).symm
  | accumulator op x w data =>
    refine execute_congr m rfl rfl (pair_eq rfl (hregister w 0)) (pair_eq rfl (hregister w 0)) rfl rfl ?_
    intro m
    exact (w.setWidth_signExtend data).trans (w.setWidth_setWidth data).symm
  | register w reg x ignored data =>
    have hreg := hregister w reg.toFin
    refine execute_congr m rfl rfl (pair_eq rfl hreg) (pair_eq rfl hreg) rfl rfl ?_
    intro m
    exact (w.setWidth_signExtend data).trans (w.setWidth_setWidth data).symm
  | direct toMemory w address =>
    have hacc := hregister w 0
    cases toMemory
    · exact execute_congr m rfl rfl (pair_eq rfl hacc) (pair_eq rfl hacc) rfl rfl fun _ => rfl
    · exact execute_congr m rfl rfl (pair_eq rfl hacc) (pair_eq rfl rfl) rfl rfl fun _ => rfl

/-! ### In programs -/

namespace Simulator

/-- Codes of one instruction decode to instructions that do the same to every machine, twins even to the same one. Where
the one code stands in place of the other, a step leaves the same but for IP, which is behind its own code. -/
theorem alternatives_agree {c c' : Code} (h : c.Alternative c') :
    (∀ (program program' : Array Byte) (offset offset' : Nat), c.bytes <+: program.toList.drop offset →
      c'.bytes <+: program'.toList.drop offset' →
      ∃ d d', decode program offset = .ok d ∧ decode program' offset' = .ok d' ∧
        (c.Twin c' → d.instruction = d'.instruction) ∧
        ∀ m, ∃ m', Machine.execute d.instruction m = .ok () m' ∧ Machine.execute d'.instruction m = .ok () m') ∧
    ∀ (s : Simulator) (program' : Array Byte), s.program.size ≤ maxProgramSize → program'.size ≤ maxProgramSize →
      c.bytes <+: s.program.toList.drop s.ip.toNat → c'.bytes <+: program'.toList.drop s.ip.toNat →
      ∃ x x' t t', step s = .ok (some x) t ∧ step { s with program := program' } = .ok (some x') t' ∧
        t'.machine.memory = t.machine.memory ∧
        (∀ r, r ≠ .ip → t'.machine.registers.word r = t.machine.registers.word r) ∧
        t.ip = s.ip + BitVec.ofNat 16 c.bytes.length ∧ t'.ip = s.ip + BitVec.ofNat 16 c'.bytes.length := by
  refine ⟨?_, ?_⟩
  · intro program program' offset offset' hc hc'
    refine ⟨_, _, c.decode_of_bytes hc, c'.decode_of_bytes hc', Code.Twin.instruction_eq, ?_⟩
    intro m
    obtain ⟨m', hm, _⟩ := c.fit.exists_effect m
    exact ⟨m', hm, h.execute_eq m ▸ hm⟩
  · intro s program' hsize hsize' hc hc'
    obtain ⟨m, hm, hstep⟩ := step_of_not_jump hsize (c.decode_of_bytes hc) h.isJump_eq_false.1
    obtain ⟨m', hm', hstep'⟩ := step_of_not_jump (s := { s with program := program' }) hsize' (c'.decode_of_bytes hc')
      h.isJump_eq_false.2
    obtain rfl : m = m' := by
      have hmm' := (h.execute_eq s.machine).symm.trans hm
      cases hm'.symm.trans hmm'
      rfl
    refine ⟨_, _, _, _, hstep, hstep', rfl, ?_, ip_executing_withIp .., ip_executing_withIp ..⟩
    intro r hr
    simp [executing, hr]

theorem alternatives_agree_on_accumulator :
    ∃ x x' t t', step (ofProgram #[0xB8, 0xFB, 0xFF] false) = .ok (some x) t ∧
      step (ofProgram #[0xC7, 0xC0, 0xFB, 0xFF] false) = .ok (some x') t' ∧ t'.machine.memory = t.machine.memory ∧
      (∀ r, r ≠ .ip → t'.machine.registers.word r = t.machine.registers.word r) ∧ t.ip = 3 ∧ t'.ip = 4 :=
  (alternatives_agree (.register .word 0 true 0 0xFFFB)).2 (ofProgram #[0xB8, 0xFB, 0xFF] false)
    #[0xC7, 0xC0, 0xFB, 0xFF] (by decide) (by decide) (by decide) (by decide)

end Simulator

end I8086
