import I8086.Error

/-!
# Encoding

From the bytes at an offset to the instruction there: the form is looked up by the first two bytes, and its fields are
read one after the other.
-/

namespace I8086

/-! ## Forms: the opcode table, and how the bytes after an opcode are laid out -/

inductive Form
  | rmReg (width : Width) (toRegister : Bool)
  | rmImm (width : Width) (extended : Bool)
  | accMem (width : Width) (toMemory : Bool)
  | regImm (view : Register.View)
  | accImm (width : Width)
  | rmSeg (toSegment : Bool)
  | shortJump
  deriving DecidableEq

namespace Form

def group (field : BitVec 3) : Option Arith :=
  match field.toFin with
  | 0 => some .add
  | 5 => some .sub
  | 7 => some .cmp
  | _ => none

def lookup (first second : Byte) : Option (Form × Operation) :=
  let width := Width.ofBit (first.getLsbD 0)
  let direction := first.getLsbD 1
  match first.extractLsb' 2 6 with
  | 0b000000 => some (rmReg width direction, .arith .add)
  | 0b000001 => some (accImm width, .arith .add)
  | 0b001010 => some (rmReg width direction, .arith .sub)
  | 0b001011 => some (accImm width, .arith .sub)
  | 0b001110 => some (rmReg width direction, .arith .cmp)
  | 0b001111 => some (accImm width, .arith .cmp)
  | 0b100000 => (group (second.extractLsb' 3 3)).map fun op => (rmImm width direction, .arith op)
  | 0b100010 => some (rmReg width direction, .mov)
  | 0b101000 => some (accMem width direction, .mov)
  | 0b110001 => some (rmImm width false, .mov)
  | _ =>
    match first.extractLsb' 4 4 with
    | 0b0111 => some (shortJump, .jump (Condition.ofField (first.extractLsb' 0 4)))
    | 0b1011 => some (regImm (.ofField (first.extractLsb' 0 3) (Width.ofBit (first.getLsbD 3))), .mov)
    | _ =>
      match first with
      | 0x8C => some (rmSeg false, .mov)
      | 0x8E => some (rmSeg true, .mov)
      | 0xE0 => some (shortJump, .loop .notZero)
      | 0xE1 => some (shortJump, .loop .zero)
      | 0xE2 => some (shortJump, .loop .always)
      | 0xE3 => some (shortJump, .jcxz)
      | _ => none

def identify (first second : Byte) (offset : Nat) : Except Error (Form × Operation) :=
  match lookup first second with
  | some found => .ok found
  | none => .error (.unimplementedOpcode first second offset)

end Form

/-! ## Readers: the bytes of one instruction, taken from the front -/

/-- The next byte is the one `consumed` after `start`. -/
structure Reader where
  program : Array Byte
  start : Nat
  consumed : Nat

namespace Reader

def ofOffset (program : Array Byte) (start : Nat) : Reader := ⟨program, start, 0⟩

def truncated (r : Reader) (count : Nat) : Error := .truncated r.start (r.consumed + count) (r.program.size - r.start)

def byte : EStateM Error Reader Byte := fun r =>
  match r.program[r.start + r.consumed]? with
  | some b => .ok b { r with consumed := r.consumed + 1 }
  | none => .error (r.truncated 1) r

/-- Takes a word, or fails and takes nothing, even if its low byte is there. -/
def word : EStateM Error Reader Word := fun r =>
  match r.program[r.start + r.consumed]?, r.program[r.start + r.consumed + 1]? with
  | some low, some high => .ok (Word.ofBytes low high) { r with consumed := r.consumed + 2 }
  | _, _ => .error (r.truncated 2) r

def signed : Width → EStateM Error Reader Word
  | .byte => Byte.signExtend <$> byte
  | .word => word

def unsigned : Width → EStateM Error Reader Word
  | .byte => Byte.zeroExtend <$> byte
  | .word => word

end Reader

/-! ## Decoding: from the bytes at an offset to the instruction there -/

structure ModRM where
  mode : BitVec 2
  reg : BitVec 3
  rm : BitVec 3
  deriving DecidableEq

namespace ModRM

def ofByte (b : Byte) : ModRM := ⟨b.extractLsb' 6 2, b.extractLsb' 3 3, b.extractLsb' 0 3⟩

def operand (m : ModRM) (w : Width) : EStateM Error Reader Operand :=
  match m.mode.toFin with
  | 0 =>
    if m.rm = 0b110 then return .memory w .direct (← Reader.word)
    else return .memory w (.ofField m.rm) 0
  | 1 => return .memory w (.ofField m.rm) (← Reader.signed .byte)
  | 2 => return .memory w (.ofField m.rm) (← Reader.signed .word)
  | 3 => return .register (.ofField m.rm w)

end ModRM

namespace Form

def operands : Form → EStateM Error Reader (List Operand)
  | rmReg w toRegister => do
    let m := ModRM.ofByte (← Reader.byte)
    let rm ← m.operand w
    let reg := Operand.register (.ofField m.reg w)
    return if toRegister then [reg, rm] else [rm, reg]
  | rmImm w extended => do
    let rm ← (ModRM.ofByte (← Reader.byte)).operand w
    let value ← if extended then Operand.Kind.signed <$> Reader.signed .byte else .unsigned <$> Reader.unsigned w
    return [rm, ⟨w, value⟩]
  | accMem w toMemory => do
    let memory := Operand.memory none .direct (← Reader.word)
    let accumulator := Operand.register (.accumulator w)
    return if toMemory then [memory, accumulator] else [accumulator, memory]
  | regImm view => return [.register view, .signed (← Reader.signed view.width)]
  | accImm w => return [.register (.accumulator w), .signed (← Reader.signed w)]
  | rmSeg toSegment => do
    let b ← Reader.byte
    if b.getLsbD 5 then throw (.illegalSegment b (← get).start)
    let m := ModRM.ofByte b
    let rm ← m.operand .word
    let segment := Operand.register (.whole (.segment (m.reg.setWidth 2)))
    return if toSegment then [segment, rm] else [rm, segment]
  | shortJump => return [.signed (← Reader.signed .byte)]

end Form

structure Decoded where
  instruction : Instruction
  size : Nat
  size_pos : 0 < size
  deriving DecidableEq

/-- The instruction at `offset`. Two bytes must be there before the opcode is looked at. -/
def decode (program : Array Byte) (offset : Nat) : Except Error Decoded :=
  match program[offset]?, program[offset + 1]? with
  | some first, some second =>
    match Form.identify first second offset with
    | .error e => .error e
    | .ok (form, operation) =>
      match form.operands ⟨program, offset, 1⟩ with
      | .error e _ => .error e
      | .ok operands r =>
        if h : 0 < r.consumed then .ok ⟨⟨operation, operands⟩, r.consumed, h⟩ else .error (.noAdvance offset)
  | _, _ => .error (.truncated offset 2 (program.size - offset))

end I8086
