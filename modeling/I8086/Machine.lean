import Std.Data.TreeMap.Basic
import I8086.Error
import I8086.Register
import I8086.Word

/-!
# The machine

Memory and registers, the values of operands in them, and what an instruction does to them.
-/

namespace I8086

/-! ## Memory: one mebibyte of bytes, zero at first -/

abbrev Memory.size : Nat := 0x100000

structure Memory where
  cells : Std.TreeMap (Fin Memory.size) Byte

namespace Memory

def zero : Memory := ⟨∅⟩

def byteAt (m : Memory) (a : Fin size) : Byte := m.cells.getD a 0

def put (m : Memory) (a : Fin size) (b : Byte) : Memory := ⟨m.cells.insert a b⟩

def readByte (m : Memory) (address : Nat) : Except Error Byte :=
  if h : address < size then .ok (m.byteAt ⟨address, h⟩) else .error (.memoryOutOfRange address)

def readWord (m : Memory) (address : Nat) : Except Error Word :=
  return .ofBytes (← m.readByte address) (← m.readByte (address + 1))

def writeByte (address : Nat) (b : Byte) : EStateM Error Memory Unit := fun m =>
  if h : address < size then .ok () (m.put ⟨address, h⟩ b) else .error (.memoryOutOfRange address) m

def writeWord (address : Nat) (w : Word) : EStateM Error Memory Unit := fun m =>
  if h : address + 1 < size then .ok () ((m.put ⟨address, by omega⟩ w.low).put ⟨address + 1, h⟩ w.high)
  else .error (.memoryOutOfRange (address + 1)) m

def putAll (m : Memory) (address : Nat) : List Byte → Memory
  | [] => m
  | b :: rest =>
    if h : address < size then (m.put ⟨address, h⟩ b).putAll (address + 1) rest else m

/-- Writes all of `data`, or nothing if its last byte is outside. No data fits up to the very end. -/
def copy (address : Nat) (data : List Byte) : EStateM Error Memory Unit := fun m =>
  if address + data.length ≤ size then .ok () (m.putAll address data)
  else .error (.memoryOutOfRange (address + data.length - 1)) m

def image (m : Memory) : ByteArray := ⟨Array.ofFn fun a : Fin size => .ofBitVec (m.byteAt a)⟩

def nonZero (m : Memory) : List (Fin size × Byte) := m.cells.toList.filter fun (_, b) => b != 0

end Memory

/-! ## The machine: registers and memory, and the values of operands in them -/

structure Machine where
  registers : Register.File
  memory : Memory

namespace Machine

def zero : Machine := ⟨.zero, .zero⟩

def flags (m : Machine) : Word := m.registers.word .flags

def isSet (m : Machine) (f : Flag) : Bool := f.isSet m.flags

def assign (m : Machine) (f : Flag) (on : Bool) : Machine :=
  { m with registers := m.registers.set .flags (f.assign m.flags on) }

def onMemory {α : Type} (x : EStateM Error Memory α) : EStateM Error Machine α := fun m =>
  match x m.memory with
  | .ok a memory => .ok a { m with memory }
  | .error e memory => .error e { m with memory }

def effective (m : Machine) (a : Address) : Word :=
  a.base.registers.foldl (fun sum r => sum + m.registers.word r) a.displacement

def load (m : Machine) (o : Operand) (w : Width) : Except Error Word :=
  match o.kind with
  | .register view => .ok (m.registers.read view)
  | .signed value | .unsigned value => .ok value
  | .memory a =>
    match w with
    | .byte => Byte.zeroExtend <$> m.memory.readByte (m.effective a).toNat
    | .word => m.memory.readWord (m.effective a).toNat

def store (operation : Operation) (o : Operand) (w : Width) (value : Word) : EStateM Error Machine Unit := do
  match o.kind with
  | .register view => modify fun m => { m with registers := m.registers.write view value }
  | .signed _ | .unsigned _ => throw (.invalidOperand operation o)
  | .memory a =>
    let address := ((← get).effective a).toNat
    match w with
    | .byte => onMemory (Memory.writeByte address value.low)
    | .word => onMemory (Memory.writeWord address value)

end Machine

/-! ## Execution: what an instruction does to the machine -/

def Arith.outcome {w : Nat} : Arith → BitVec w → BitVec w → Outcome w
  | add => Outcome.add
  | sub | cmp => Outcome.sub

def Outcome.flags {w : Nat} (o : Outcome w) (flags : Word) : Word :=
  let flags := Flag.overflow.assign flags o.overflow
  let flags := Flag.carry.assign flags o.carry
  let flags := Flag.zero.assign flags (o.value == 0)
  let flags := Flag.sign.assign flags o.value.msb
  let flags := Flag.parity.assign flags (Word.evenParity (o.value.setWidth 16))
  Flag.auxCarry.assign flags o.auxCarry

def LoopTest.holds (flags : Word) : LoopTest → Bool
  | always => true
  | zero => Flag.isSet flags .zero
  | notZero => !Flag.isSet flags .zero

namespace Instruction

def pair (i : Instruction) : Except Error (Operand × Operand × Width) :=
  match i.destination?, i.source? with
  | some dst, some src =>
    match dst.width? <|> src.width? with
    | some w => .ok (dst, src, w)
    | none => .error (.invalidOperand i.operation dst)
  | _, _ => .error (.missingOperand i.operation)

def displacement (i : Instruction) : Except Error Word :=
  match i.destination? with
  | none => .error (.missingOperand i.operation)
  | some o =>
    match o.kind with
    | .signed value => .ok value
    | _ => .error (.invalidOperand i.operation o)

end Instruction

namespace Machine

def modifyRegisters (f : Register.File → Register.File) : EStateM Error Machine Unit :=
  modify fun m => { m with registers := f m.registers }

def branch (taken : Bool) (displacement : Word) : EStateM Error Machine Unit :=
  if taken then modifyRegisters fun f => f.modify .ip (· + displacement) else pure ()

/-- The flags are set before the result is stored, and stay set where it cannot be. -/
def arithmetic (i : Instruction) (op : Arith) : EStateM Error Machine Unit := do
  let (dst, src, w) ← ofExcept i.pair
  let x ← ofExcept ((← get).load dst w)
  let y ← ofExcept ((← get).load src w)
  let o := op.outcome (x.setWidth w.bits) (y.setWidth w.bits)
  modifyRegisters fun f => f.modify .flags o.flags
  if op ≠ .cmp then store i.operation dst w (o.value.setWidth 16)

/-- IP is already behind the instruction. Operands behind those that the operation uses are ignored. -/
def execute (i : Instruction) : EStateM Error Machine Unit := do
  match i.operation with
  | .mov =>
    let (dst, src, w) ← ofExcept i.pair
    store i.operation dst w (← ofExcept ((← get).load src w))
  | .arith op => arithmetic i op
  | .jump c =>
    let displacement ← ofExcept i.displacement
    branch (c.holds (← get).flags) displacement
  | .loop t =>
    let displacement ← ofExcept i.displacement
    modifyRegisters fun f => f.modify .cx (· - 1)
    let m ← get
    branch (m.registers.word .cx != 0 && t.holds m.flags) displacement
  | .jcxz =>
    let displacement ← ofExcept i.displacement
    branch ((← get).registers.word .cx == 0) displacement

end Machine

end I8086
