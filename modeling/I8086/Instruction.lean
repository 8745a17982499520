import I8086.Register
import I8086.Word

/-!
# Instructions

An instruction is an operation and its operands, the destination first.
-/

namespace I8086

/-! ## Conditions: what a jump asks of the status flags -/

inductive Test
  | overflow | below | equal | belowOrEqual | sign | parity | less | lessOrEqual
  deriving DecidableEq

structure Condition where
  test : Test
  negated : Bool
  deriving DecidableEq

namespace Test

def all : List Test := [overflow, below, equal, belowOrEqual, sign, parity, less, lessOrEqual]

def ofField (field : BitVec 3) : Test :=
  match field.toFin with
  | 0 => overflow | 1 => below | 2 => equal | 3 => belowOrEqual
  | 4 => sign | 5 => parity | 6 => less | 7 => lessOrEqual

def letters : Test → String
  | overflow => "o" | below => "b" | equal => "e" | belowOrEqual => "be"
  | sign => "s" | parity => "p" | less => "l" | lessOrEqual => "le"

/-- Below is unsigned and shows as a borrow; less is signed and shows as a sign that overflow has not turned. -/
def holds (flags : Word) : Test → Bool
  | overflow => Flag.isSet flags .overflow
  | below => Flag.isSet flags .carry
  | equal => Flag.isSet flags .zero
  | belowOrEqual => Flag.isSet flags .carry || Flag.isSet flags .zero
  | sign => Flag.isSet flags .sign
  | parity => Flag.isSet flags .parity
  | less => Flag.isSet flags .sign != Flag.isSet flags .overflow
  | lessOrEqual => Flag.isSet flags .zero || Flag.isSet flags .sign != Flag.isSet flags .overflow

end Test

namespace Condition

def all : List Condition := Test.all.flatMap fun t => [⟨t, false⟩, ⟨t, true⟩]

def ofField (field : BitVec 4) : Condition := ⟨Test.ofField (field.extractLsb' 1 3), field.getLsbD 0⟩

def mnemonic (c : Condition) : String := "j" ++ (if c.negated then "n" else "") ++ c.test.letters

def holds (flags : Word) (c : Condition) : Bool := c.negated ^^ c.test.holds flags

end Condition

/-! ## Operations and their mnemonics -/

inductive Arith
  | add | sub | cmp
  deriving DecidableEq

inductive LoopTest
  | always | zero | notZero
  deriving DecidableEq

inductive Operation
  | mov
  | arith (op : Arith)
  | jump (condition : Condition)
  | loop (test : LoopTest)
  | jcxz
  deriving DecidableEq

def Arith.mnemonic : Arith → String
  | add => "add"
  | sub => "sub"
  | cmp => "cmp"

def LoopTest.mnemonic : LoopTest → String
  | always => "loop"
  | zero => "loopz"
  | notZero => "loopnz"

namespace Operation

def all : List Operation :=
  [mov, arith .add, arith .sub, arith .cmp] ++ Condition.all.map jump ++
    [loop .always, loop .zero, loop .notZero, jcxz]

def mnemonic : Operation → String
  | mov => "mov"
  | arith op => op.mnemonic
  | jump c => c.mnemonic
  | loop t => t.mnemonic
  | jcxz => "jcxz"

def ofMnemonic? (s : String) : Option Operation := all.find? (·.mnemonic == s)

def isJump : Operation → Bool
  | mov | arith _ => false
  | jump _ | loop _ | jcxz => true

end Operation

/-! ## Operands: registers, immediates and memory addresses -/

inductive Base
  | bxSi | bxDi | bpSi | bpDi | si | di | bp | bx | direct
  deriving DecidableEq

namespace Base

def all : List Base := [bxSi, bxDi, bpSi, bpDi, si, di, bp, bx, direct]

def ofField (field : BitVec 3) : Base :=
  match field.toFin with
  | 0 => bxSi | 1 => bxDi | 2 => bpSi | 3 => bpDi
  | 4 => si | 5 => di | 6 => bp | 7 => bx

def registers : Base → List Register
  | bxSi => [.bx, .si]
  | bxDi => [.bx, .di]
  | bpSi => [.bp, .si]
  | bpDi => [.bp, .di]
  | si => [.si]
  | di => [.di]
  | bp => [.bp]
  | bx => [.bx]
  | direct => []

def text (b : Base) : String := String.intercalate "+" (b.registers.map Register.name)

end Base

structure Address where
  base : Base
  displacement : Word
  deriving DecidableEq

def Address.text (a : Address) : String :=
  match a.base with
  | .direct => "[" ++ Text.decimal a.displacement.toNat ++ "]"
  | base => "[" ++ base.text ++ Text.signed a.displacement.toInt ++ "]"

namespace Operand

inductive Kind
  | register (view : Register.View)
  | signed (value : Word)
  | unsigned (value : Word)
  | memory (address : Address)
  deriving DecidableEq

def Kind.text : Kind → String
  | register view => view.name
  | signed value => Text.decimal value.toInt
  | unsigned value => Text.decimal value.toNat
  | memory address => address.text

end Operand

structure Operand where
  size : Option Width
  kind : Operand.Kind
  deriving DecidableEq

namespace Operand

def register (view : Register.View) : Operand := ⟨none, .register view⟩

def signed (value : Word) : Operand := ⟨none, .signed value⟩

def memory (size : Option Width) (base : Base) (displacement : Word) : Operand :=
  ⟨size, .memory ⟨base, displacement⟩⟩

/-- The width as far as the operand alone tells: a register has its own, anything else the one it is marked with. -/
def width? (o : Operand) : Option Width :=
  match o.kind with
  | .register view => some view.width
  | _ => o.size

def text (o : Operand) : String :=
  match o.size with
  | none => o.kind.text
  | some w => w.name ++ " " ++ o.kind.text

end Operand

/-! ## Instructions and their assembly text -/

structure Instruction where
  operation : Operation
  operands : List Operand
  deriving DecidableEq

namespace Instruction

def destination? (i : Instruction) : Option Operand := i.operands[0]?

def source? (i : Instruction) : Option Operand := i.operands[1]?

/-- The displacement of a jump is written from the jump itself, which is two bytes long. -/
def operandText (operation : Operation) (o : Operand) : String :=
  match o.kind with
  | .signed value => if operation.isJump then "$" ++ Text.signed (value.toInt + 2) else o.text
  | _ => o.text

def text (i : Instruction) : String :=
  match i.operands.map (operandText i.operation) with
  | [] => i.operation.mnemonic
  | operands => i.operation.mnemonic ++ " " ++ String.intercalate ", " operands

end Instruction

end I8086
