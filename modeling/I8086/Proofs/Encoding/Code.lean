import I8086.Proofs.Encoding.Fields

/-!
# Machine code by its fields

A `Code` is an instruction as the opcode table lays it out: `bytes` puts its fields together, `instruction` says what
they mean. Decoding is shown to undo `bytes` (`decode_of_bytes`), so what the bytes of a code mean is all that is read.
-/

namespace I8086

def Width.registers : Width → Vector Register.View 8
  | .byte =>
    #v[⟨.ax, .low⟩, ⟨.cx, .low⟩, ⟨.dx, .low⟩, ⟨.bx, .low⟩, ⟨.ax, .high⟩, ⟨.cx, .high⟩, ⟨.dx, .high⟩, ⟨.bx, .high⟩]
  | .word =>
    #v[⟨.ax, .whole⟩, ⟨.cx, .whole⟩, ⟨.dx, .whole⟩, ⟨.bx, .whole⟩, ⟨.sp, .whole⟩, ⟨.bp, .whole⟩, ⟨.si, .whole⟩,
      ⟨.di, .whole⟩]

def Register.segments : Vector Register 4 := #v[.es, .cs, .ss, .ds]

def Base.ofRm : Vector Base 8 := #v[.bxSi, .bxDi, .bpSi, .bpDi, .si, .di, .bp, .bx]

def Width.bit : Width → BitVec 1
  | .byte => 0
  | .word => 1

def Width.littleEndian : (w : Width) → BitVec w.bits → List Byte
  | .byte, b => [b]
  | .word, x => [x.extractLsb' 0 8, x.extractLsb' 8 8]

inductive Place
  | register (rm : BitVec 3)
  | direct (address : Word)
  | base (rm : BitVec 3) (h : rm ≠ 0b110)
  | near (rm : BitVec 3) (displacement : Byte)
  | far (rm : BitVec 3) (displacement : Word)

namespace Place

def mode : Place → BitVec 2
  | register _ => 0b11
  | direct _ | base _ _ => 0b00
  | near _ _ => 0b01
  | far _ _ => 0b10

def rm : Place → BitVec 3
  | register rm | base rm _ | near rm _ | far rm _ => rm
  | direct _ => 0b110

def displacement : Place → List Byte
  | register _ | base _ _ => []
  | direct address => Width.word.littleEndian address
  | near _ displacement => [displacement]
  | far _ displacement => Width.word.littleEndian displacement

def modrm (p : Place) (reg : BitVec 3) : Byte := p.mode ++ reg ++ p.rm

def operand (w : Width) : Place → Operand
  | register rm => ⟨none, .register w.registers[rm.toFin]⟩
  | direct address => ⟨w, .memory ⟨.direct, address⟩⟩
  | base rm _ => ⟨w, .memory ⟨Base.ofRm[rm.toFin], 0⟩⟩
  | near rm displacement => ⟨w, .memory ⟨Base.ofRm[rm.toFin], BitVec.signExtend 16 displacement⟩⟩
  | far rm displacement => ⟨w, .memory ⟨Base.ofRm[rm.toFin], displacement⟩⟩

end Place

def Arith.code : Arith → BitVec 3
  | add => 0b000
  | sub => 0b101
  | cmp => 0b111

def Test.code : Test → BitVec 3
  | overflow => 0 | below => 1 | equal => 2 | belowOrEqual => 3
  | sign => 4 | parity => 5 | less => 6 | lessOrEqual => 7

def LoopTest.code : LoopTest → BitVec 2
  | notZero => 0
  | zero => 1
  | always => 2

/-- An instruction by its fields. Fields named `ignored` can be anything. -/
inductive Code
  | movRm (toRegister : Bool) (w : Width) (reg : BitVec 3) (rm : Place)
  | arithRm (op : Arith) (toRegister : Bool) (w : Width) (reg : BitVec 3) (rm : Place)
  | movImm (ignored : Bool) (w : Width) (ignoredReg : BitVec 3) (rm : Place) (data : BitVec w.bits)
  | arithImm (op : Arith) (w : Width) (rm : Place) (data : BitVec w.bits)
  | arithExtended (op : Arith) (w : Width) (rm : Place) (data : Byte)
  | movAcc (toMemory : Bool) (w : Width) (address : Word)
  | movReg (w : Width) (reg : BitVec 3) (data : BitVec w.bits)
  | arithAcc (op : Arith) (ignored : Bool) (w : Width) (data : BitVec w.bits)
  | movSegment (toSegment : Bool) (segment : BitVec 2) (rm : Place)
  | jump (condition : Condition) (displacement : Byte)
  | loop (test : LoopTest) (displacement : Byte)
  | jcxz (displacement : Byte)

namespace Code

def opcode : Code → Byte
  | movRm d w _ _ => 0b100010#6 ++ BitVec.ofBool d ++ w.bit
  | arithRm op d w _ _ => 0b00#2 ++ op.code ++ 0#1 ++ BitVec.ofBool d ++ w.bit
  | movImm x w _ _ _ => 0b110001#6 ++ BitVec.ofBool x ++ w.bit
  | arithImm _ w _ _ => 0b100000#6 ++ 0#1 ++ w.bit
  | arithExtended _ w _ _ => 0b100000#6 ++ 1#1 ++ w.bit
  | movAcc d w _ => 0b101000#6 ++ BitVec.ofBool d ++ w.bit
  | movReg w reg _ => 0b1011#4 ++ w.bit ++ reg
  | arithAcc op x w _ => 0b00#2 ++ op.code ++ 1#1 ++ BitVec.ofBool x ++ w.bit
  | movSegment d _ _ => 0b100011#6 ++ BitVec.ofBool d ++ 0#1
  | jump c _ => 0b0111#4 ++ c.test.code ++ BitVec.ofBool c.negated
  | loop t _ => 0b111000#6 ++ t.code
  | jcxz _ => 0b11100011

def tail : Code → List Byte
  | movRm _ _ reg rm => rm.modrm reg :: rm.displacement
  | arithRm _ _ _ reg rm => rm.modrm reg :: rm.displacement
  | movImm _ w x rm data => rm.modrm x :: rm.displacement ++ w.littleEndian data
  | arithImm op w rm data => rm.modrm op.code :: rm.displacement ++ w.littleEndian data
  | arithExtended op _ rm data => rm.modrm op.code :: rm.displacement ++ [data]
  | movAcc _ _ address => Width.word.littleEndian address
  | movReg w _ data => w.littleEndian data
  | arithAcc _ _ w data => w.littleEndian data
  | movSegment _ segment rm => rm.modrm (0#1 ++ segment) :: rm.displacement
  | jump _ displacement | loop _ displacement | jcxz displacement => [displacement]

def bytes (c : Code) : List Byte := c.opcode :: c.tail

def operation : Code → Operation
  | movRm .. | movImm .. | movAcc .. | movReg .. | movSegment .. => .mov
  | arithRm op .. | arithImm op .. | arithExtended op .. | arithAcc op .. => .arith op
  | jump c _ => .jump c
  | loop t _ => .loop t
  | jcxz _ => .jcxz

def operands : Code → List Operand
  | movRm d w reg rm | arithRm _ d w reg rm =>
    let reg : Operand := ⟨none, .register w.registers[reg.toFin]⟩
    if d then [reg, rm.operand w] else [rm.operand w, reg]
  | movImm _ w _ rm data => [rm.operand w, ⟨w, .unsigned (data.setWidth 16)⟩]
  | arithImm _ w rm data => [rm.operand w, ⟨w, .unsigned (data.setWidth 16)⟩]
  | arithExtended _ w rm data => [rm.operand w, ⟨w, .signed (BitVec.signExtend 16 data)⟩]
  | movAcc toMemory w address =>
    let memory : Operand := ⟨none, .memory ⟨.direct, address⟩⟩
    let accumulator : Operand := ⟨none, .register w.registers[0]⟩
    if toMemory then [memory, accumulator] else [accumulator, memory]
  | movReg w reg data => [⟨none, .register w.registers[reg.toFin]⟩, ⟨none, .signed (BitVec.signExtend 16 data)⟩]
  | arithAcc _ _ w data => [⟨none, .register w.registers[0]⟩, ⟨none, .signed (BitVec.signExtend 16 data)⟩]
  | movSegment toSegment segment rm =>
    let segment : Operand := ⟨none, .register (.whole Register.segments[segment.toFin])⟩
    if toSegment then [segment, rm.operand .word] else [rm.operand .word, segment]
  | jump _ displacement | loop _ displacement | jcxz displacement => [⟨none, .signed (BitVec.signExtend 16 displacement)⟩]

def instruction (c : Code) : Instruction := ⟨c.operation, c.operands⟩

end Code

/-! ## Reading what was laid out -/

section
variable {α β : Type} {x : EStateM Error Reader α} {bs cs : List Byte}

def Reader.rest (r : Reader) : List Byte := r.program.toList.drop (r.start + r.consumed)

theorem Reader.rest_skip (r : Reader) (n : Nat) : (r.skip n).rest = r.rest.drop n := by
  simp [rest, skip, Nat.add_assoc]

/-- Where `bytes` come next, `x` takes them and gives `a`. -/
def Reads (x : EStateM Error Reader α) (bytes : List Byte) (a : α) : Prop :=
  ∀ r : Reader, bytes <+: r.rest → x r = .ok a (r.skip bytes.length)

theorem reads_pure (a : α) : Reads (pure a) [] a := fun _ _ => rfl

theorem Reads.map {a : α} (g : α → β) (h : Reads x bs a) : Reads (g <$> x) bs (g a) :=
  fun r hr => map_of_ok g (h r hr)

theorem Reads.bind {f : α → EStateM Error Reader β} {a : α} {b : β} (hx : Reads x bs a) (hf : Reads (f a) cs b) :
    Reads (x >>= f) (bs ++ cs) b := by
  intro r hr
  have hc : cs <+: (r.skip bs.length).rest := by
    obtain ⟨t, ht⟩ := hr
    exact ⟨t, by rw [Reader.rest_skip, ← ht, List.append_assoc, List.drop_left]⟩
  rw [bind_of_ok (hx r ((List.prefix_append bs cs).trans hr)), hf _ hc, Reader.skip_skip, List.length_append]

theorem Reads.bind_pure {f : α → β} {a : α} (h : Reads x bs a) : Reads (x >>= fun a => pure (f a)) bs (f a) := by
  have := h.bind (f := fun a => pure (f a)) (reads_pure (f a))
  rwa [List.append_nil] at this

theorem getElem?_of_prefix_rest {r : Reader} {n : Nat} {b : Byte} (h : bs <+: r.rest) (hb : bs[n]? = some b) :
    r.program[r.start + r.consumed + n]? = some b := by
  obtain ⟨t, ht⟩ := h
  have : r.rest[n]? = some b := by
    rw [← ht, List.getElem?_append_left (List.getElem?_eq_some_iff.mp hb).1, hb]
  simpa [Reader.rest, List.getElem?_drop] using this

theorem reads_byte (b : Byte) : Reads Reader.byte [b] b := by
  intro r hr
  have hb := getElem?_of_prefix_rest (n := 0) hr rfl
  rw [Nat.add_zero] at hb
  simp only [Reader.byte, hb]
  rfl

theorem reads_word (w : Word) : Reads Reader.word [w.extractLsb' 0 8, w.extractLsb' 8 8] w := by
  intro r hr
  have hl := getElem?_of_prefix_rest (n := 0) hr rfl
  have hh := getElem?_of_prefix_rest (n := 1) hr rfl
  rw [Nat.add_zero] at hl
  have hw : Word.ofBytes (w.extractLsb' 0 8) (w.extractLsb' 8 8) = w :=
    Word.ofBytes_low_high w
  simp only [Reader.word, hl, hh]
  rw [hw]
  rfl

theorem reads_signed (w : Width) (x : BitVec w.bits) :
    Reads (Reader.signed w) (w.littleEndian x) (BitVec.signExtend 16 x) := by
  cases w with
  | byte => exact (reads_byte x).map _
  | word =>
    have : BitVec.signExtend 16 (x : Word) = x := BitVec.signExtend_eq _
    rw [this]
    exact reads_word x

theorem reads_unsigned (w : Width) (x : BitVec w.bits) :
    Reads (Reader.unsigned w) (w.littleEndian x) (BitVec.setWidth 16 x) := by
  cases w with
  | byte => exact (reads_byte x).map _
  | word =>
    have : BitVec.setWidth 16 (x : Word) = x := BitVec.setWidth_eq _
    rw [this]
    exact reads_word x

end

theorem Register.View.ofField_eq : ∀ (field : BitVec 3) (w : Width), ofField field w = w.registers[field.toFin] := by
  intro field w; cases w <;> revert field <;> decide

theorem Register.View.width_ofField (field : BitVec 3) (w : Width) : (ofField field w).width = w := by
  cases w <;> revert field <;> decide

theorem Register.View.accumulator_eq (w : Width) : accumulator w = w.registers[0] := by
  cases w <;> rfl

theorem Register.segment_eq : ∀ field : BitVec 2, segment field = Register.segments[field.toFin] := by decide

theorem Base.ofField_eq : ∀ field : BitVec 3, ofField field = Base.ofRm[field.toFin] := by decide

theorem ModRM.ofByte_append : ∀ (mode : BitVec 2) (reg rm : BitVec 3), ofByte (mode ++ reg ++ rm) = ⟨mode, reg, rm⟩ := by
  decide +kernel

theorem Place.reads_operand (p : Place) (reg : BitVec 3) (w : Width) :
    Reads ((ModRM.ofByte (p.modrm reg)).operand w) p.displacement (p.operand w) := by
  rw [modrm, ModRM.ofByte_append]
  cases p with
  | register rm =>
    rw [operand, ← Register.View.ofField_eq]
    exact reads_pure _
  | direct address => exact (reads_word address).bind_pure
  | base rm h =>
    rw [operand, ← Base.ofField_eq]
    simp only [ModRM.operand, mode, Place.rm, h]
    exact reads_pure _
  | near rm displacement =>
    rw [operand, ← Base.ofField_eq]
    exact (reads_signed .byte displacement).bind_pure
  | far rm displacement =>
    rw [operand, ← Base.ofField_eq]
    exact (reads_word displacement).bind_pure

namespace Code

def form : Code → Form
  | movRm d w _ _ | arithRm _ d w _ _ => .rmReg w d
  | movImm _ w _ _ _ | arithImm _ w _ _ => .rmImm w false
  | arithExtended _ w _ _ => .rmImm w true
  | movAcc d w _ => .accMem w d
  | movReg w reg _ => .regImm (.ofField reg w)
  | arithAcc _ _ w _ => .accImm w
  | movSegment d _ _ => .rmSeg d
  | jump .. | loop .. | jcxz _ => .shortJump

-- Of the second byte the table looks at the middle field only.
theorem lookup_eq (first second : Byte) :
    Form.lookup first second = Form.lookup first (0#2 ++ second.extractLsb' 3 3 ++ 0#3) := by
  have : ∀ field : BitVec 3, (0#2 ++ field ++ 0#3).extractLsb' 3 3 = field := by decide
  simp only [Form.lookup, this]

theorem extractLsb'_modrm (rm : Place) (reg : BitVec 3) : (rm.modrm reg).extractLsb' 3 3 = reg :=
  congrArg ModRM.reg (ModRM.ofByte_append rm.mode reg rm.rm)

theorem lookup_opcode (c : Code) {second : Byte} (h : c.tail[0]? = some second) :
    Form.lookup c.opcode second = some (c.form, c.operation) := by
  cases c with
  | movRm d w reg rm => rw [opcode]; cases d <;> cases w <;> rfl
  | arithRm op d w reg rm => rw [opcode]; cases op <;> cases d <;> cases w <;> rfl
  | movImm x w x' rm data => rw [opcode]; cases x <;> cases w <;> rfl
  | arithImm op w rm data | arithExtended op w rm data =>
    obtain rfl : rm.modrm op.code = second := Option.some.inj h
    rw [opcode, lookup_eq, extractLsb'_modrm]
    cases op <;> cases w <;> rfl
  | movAcc d w address => rw [opcode]; cases d <;> cases w <;> rfl
  | movReg w reg data =>
    have hreg : ∀ (w : Width) (reg field : BitVec 3), Form.lookup (0b1011#4 ++ w.bit ++ reg) (0#2 ++ field ++ 0#3) =
        some (.regImm (.ofField reg w), .mov) := by
      intro w; cases w <;> decide
    rw [opcode, lookup_eq]
    exact hreg w reg _
  | arithAcc op x w data => rw [opcode]; cases op <;> cases x <;> cases w <;> rfl
  | movSegment d segment rm => rw [opcode]; cases d <;> rfl
  | jump c displacement =>
    obtain ⟨t, n⟩ := c
    rw [opcode]
    cases t <;> cases n <;> rfl
  | loop t displacement => rw [opcode]; cases t <;> rfl
  | jcxz displacement => rw [opcode]; rfl

theorem reg_modrm (rm : Place) (reg : BitVec 3) : (ModRM.ofByte (rm.modrm reg)).reg = reg :=
  extractLsb'_modrm rm reg

theorem getLsbD_modrm_segment : ∀ (rm : Place) (segment : BitVec 2), (rm.modrm (0#1 ++ segment)).getLsbD 5 = false := by
  have : ∀ (mode : BitVec 2) (segment : BitVec 2) (rm : BitVec 3),
      (mode ++ (0#1 ++ segment) ++ rm : Byte).getLsbD 5 = false := by decide
  exact fun rm segment => this rm.mode segment rm.rm

theorem reads_operands (c : Code) : Reads c.form.operands c.tail c.operands := by
  cases c with
  | movRm d w reg rm | arithRm op d w reg rm =>
    refine (reads_byte _).bind ?_
    simp only [operands, reg_modrm, ← Register.View.ofField_eq]
    exact (rm.reads_operand reg w).bind_pure
  | movImm x w reg rm data =>
    refine (reads_byte _).bind ((rm.reads_operand reg w).bind ?_)
    exact ((reads_unsigned w data).map Operand.Kind.unsigned).bind_pure
  | arithImm op w rm data =>
    refine (reads_byte _).bind ((rm.reads_operand op.code w).bind ?_)
    exact ((reads_unsigned w data).map Operand.Kind.unsigned).bind_pure
  | arithExtended op w rm data =>
    refine (reads_byte _).bind ((rm.reads_operand op.code w).bind ?_)
    exact ((reads_signed .byte data).map Operand.Kind.signed).bind_pure
  | movAcc d w address =>
    rw [operands, ← Register.View.accumulator_eq]
    exact (reads_word address).bind_pure
  | movReg w reg data =>
    rw [form, Form.operands, Register.View.width_ofField, operands, ← Register.View.ofField_eq]
    exact (reads_signed w data).bind_pure
  | arithAcc op x w data =>
    rw [operands, ← Register.View.accumulator_eq]
    exact (reads_signed w data).bind_pure
  | movSegment d segment rm =>
    refine (reads_byte _).bind ?_
    simp only [getLsbD_modrm_segment, reg_modrm, operands, ← Register.segment_eq]
    have : (0#1 ++ segment : BitVec 3).setWidth 2 = segment := by revert segment; decide
    rw [this]
    exact (rm.reads_operand (0#1 ++ segment) .word).bind_pure
  | jump c displacement | loop t displacement | jcxz displacement => exact (reads_signed .byte displacement).bind_pure

def decoded (c : Code) : Decoded := ⟨c.instruction, c.bytes.length, by simp [bytes]⟩

theorem exists_second (c : Code) : ∃ second, c.tail[0]? = some second := by
  cases c with
  | movReg w _ data | arithAcc _ _ w data => cases w <;> exact ⟨_, rfl⟩
  | _ => exact ⟨_, rfl⟩

theorem decode_of_bytes {program : Array Byte} {offset : Nat} (c : Code) (h : c.bytes <+: program.toList.drop offset) :
    decode program offset = .ok c.decoded := by
  obtain ⟨second, hs⟩ := c.exists_second
  have hr : c.bytes <+: Reader.rest ⟨program, offset, 0⟩ := h
  have h₁ : program[offset]? = some c.opcode := getElem?_of_prefix_rest hr (n := 0) rfl
  have h₂ : program[offset + 1]? = some second := getElem?_of_prefix_rest hr (n := 1) hs
  have ht : c.tail <+: Reader.rest ⟨program, offset, 1⟩ := by
    obtain ⟨t, ht⟩ := hr
    refine ⟨t, ?_⟩
    have := Reader.rest_skip ⟨program, offset, 0⟩ 1
    rw [← ht] at this
    exact this.symm
  simp only [decode, h₁, h₂, Form.identify, c.lookup_opcode hs]
  rw [c.reads_operands _ ht]
  simp only [Reader.skip, decoded, instruction, bytes, List.length_cons, Nat.add_comm 1]
  exact dif_pos (Nat.succ_pos _)

end Code

end I8086
