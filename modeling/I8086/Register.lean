import I8086.Word

/-!
# Registers

The registers, what of them an operand can name, what they hold, and how that is told.
-/

namespace I8086

/-! ## Registers: the fourteen words of the processor -/

/-- In the order in which they are stored and reported. -/
inductive Register
  | ax | bx | cx | dx | sp | bp | si | di | es | cs | ss | ds | ip | flags
  deriving DecidableEq

namespace Register

def general : List Register := [ax, bx, cx, dx, sp, bp, si, di, es, cs, ss, ds, ip]

def all : List Register := general ++ [flags]

def index : Register → Fin 14
  | ax => 0 | bx => 1 | cx => 2 | dx => 3
  | sp => 4 | bp => 5 | si => 6 | di => 7
  | es => 8 | cs => 9 | ss => 10 | ds => 11
  | ip => 12 | flags => 13

def name : Register → String
  | ax => "ax" | bx => "bx" | cx => "cx" | dx => "dx"
  | sp => "sp" | bp => "bp" | si => "si" | di => "di"
  | es => "es" | cs => "cs" | ss => "ss" | ds => "ds"
  | ip => "ip" | flags => "flags"

def ofName? (s : String) : Option Register := all.find? (·.name == s)

def ofField (field : BitVec 3) : Register :=
  match field.toFin with
  | 0 => ax | 1 => cx | 2 => dx | 3 => bx
  | 4 => sp | 5 => bp | 6 => si | 7 => di

def segment (field : BitVec 2) : Register :=
  match field.toFin with
  | 0 => es | 1 => cs | 2 => ss | 3 => ds

theorem index_inj : ∀ {r s : Register}, r.index = s.index → r = s := by
  intro r s; cases r <;> cases s <;> simp [index]

theorem index_surj : ∀ i : Fin 14, ∃ r : Register, r.index = i
  | 0 => ⟨ax, rfl⟩ | 1 => ⟨bx, rfl⟩ | 2 => ⟨cx, rfl⟩ | 3 => ⟨dx, rfl⟩
  | 4 => ⟨sp, rfl⟩ | 5 => ⟨bp, rfl⟩ | 6 => ⟨si, rfl⟩ | 7 => ⟨di, rfl⟩
  | 8 => ⟨es, rfl⟩ | 9 => ⟨cs, rfl⟩ | 10 => ⟨ss, rfl⟩ | 11 => ⟨ds, rfl⟩
  | 12 => ⟨ip, rfl⟩ | 13 => ⟨flags, rfl⟩

end Register

/-! ## Views: a register, or one byte of it, as an operand names it -/

namespace Register

inductive Part
  | whole | low | high
  deriving DecidableEq

structure View where
  register : Register
  part : Part
  deriving DecidableEq

namespace View

def whole (r : Register) : View := ⟨r, .whole⟩

def width (v : View) : Width :=
  match v.part with
  | .whole => .word
  | .low | .high => .byte

def ofField (field : BitVec 3) : Width → View
  | .word => whole (Register.ofField field)
  | .byte => ⟨Register.ofField (field &&& 0b011), if field.msb then .high else .low⟩

def accumulator (w : Width) : View := ofField 0 w

def name : View → String
  | ⟨r, .whole⟩ => r.name
  | ⟨ax, .low⟩ => "al" | ⟨bx, .low⟩ => "bl" | ⟨cx, .low⟩ => "cl" | ⟨dx, .low⟩ => "dl"
  | ⟨ax, .high⟩ => "ah" | ⟨bx, .high⟩ => "bh" | ⟨cx, .high⟩ => "ch" | ⟨dx, .high⟩ => "dh"
  | ⟨r, .low⟩ => "low " ++ r.name
  | ⟨r, .high⟩ => "high " ++ r.name

end View

end Register

/-! ## Register files: the contents of the registers, by word and by half -/

namespace Register

structure File where
  slots : Vector Word 14
  deriving DecidableEq

namespace File

def zero : File := ⟨.replicate 14 0⟩

def word (f : File) (r : Register) : Word := f.slots[r.index]

def low (f : File) (r : Register) : Byte := (f.word r).low

def high (f : File) (r : Register) : Byte := (f.word r).high

def set (f : File) (r : Register) (w : Word) : File := ⟨f.slots.set r.index w⟩

def setLow (f : File) (r : Register) (b : Byte) : File := f.set r (.ofBytes b (f.high r))

def setHigh (f : File) (r : Register) (b : Byte) : File := f.set r (.ofBytes (f.low r) b)

def read (f : File) (v : View) : Word :=
  match v.part with
  | .whole => f.word v.register
  | .low => (f.low v.register).zeroExtend
  | .high => (f.high v.register).zeroExtend

def write (f : File) (v : View) (w : Word) : File :=
  match v.part with
  | .whole => f.set v.register w
  | .low => f.setLow v.register w.low
  | .high => f.setHigh v.register w.low

def modify (f : File) (r : Register) (g : Word → Word) : File := f.set r (g (f.word r))

@[simp] theorem word_zero (r : Register) : zero.word r = 0 := by simp [zero, word]

@[simp] theorem word_set (f : File) (r s : Register) (w : Word) :
    (f.set r w).word s = if s = r then w else f.word s := by
  by_cases h : s = r
  · simp [h, set, word]
  · have hi : r.index.val ≠ s.index.val := fun e => h (index_inj (Fin.ext e.symm))
    simp [h, set, word, Vector.getElem_set_ne _ _ hi]

theorem ext_word {f g : File} (h : ∀ r, f.word r = g.word r) : f = g := by
  rcases f with ⟨f⟩
  rcases g with ⟨g⟩
  congr 1
  refine Vector.ext fun i hi => ?_
  obtain ⟨r, hr⟩ := index_surj ⟨i, hi⟩
  simpa [word, hr] using h r

end File

end Register

/-! ## Status flags: six bits of the FLAGS word -/

inductive Flag
  | carry | parity | auxCarry | zero | sign | overflow
  deriving DecidableEq

namespace Flag

def all : List Flag := [carry, parity, auxCarry, zero, sign, overflow]

def bit : Flag → Fin 16
  | carry => 0
  | parity => 2
  | auxCarry => 4
  | zero => 6
  | sign => 7
  | overflow => 11

def letter : Flag → Char
  | carry => 'C'
  | parity => 'P'
  | auxCarry => 'A'
  | zero => 'Z'
  | sign => 'S'
  | overflow => 'O'

def mask (f : Flag) : Word := BitVec.twoPow 16 f.bit

def isSet (flags : Word) (f : Flag) : Bool := flags.getLsbD f.bit

def assign (flags : Word) (f : Flag) (on : Bool) : Word :=
  if on then flags ||| f.mask else flags &&& ~~~f.mask

def letters (flags : Word) : String := String.ofList ((all.filter (isSet flags)).map letter)

def letterOrDash (flags : Word) (f : Flag) : Char := if isSet flags f then f.letter else '-'

theorem bit_inj : ∀ {f g : Flag}, f.bit = g.bit → f = g := by
  intro f g; cases f <;> cases g <;> simp [bit]

theorem getLsbD_mask (f : Flag) (i : Nat) : f.mask.getLsbD i = decide (i = f.bit) := by
  have := f.bit.isLt
  rw [mask, BitVec.getLsbD_twoPow]
  by_cases h : i = f.bit
  · simp [h]
  · simp [h, Ne.symm h]

theorem getLsbD_assign (flags : Word) (f : Flag) (on : Bool) (i : Nat) :
    (assign flags f on).getLsbD i = if i = f.bit then on else flags.getLsbD i := by
  have := f.bit.isLt
  by_cases h : i < 16
  · cases on <;> by_cases e : i = f.bit <;>
      simp [-BitVec.getLsbD_eq_getElem, assign, getLsbD_mask, e, h]
  · rw [BitVec.getLsbD_of_ge _ _ (by omega), BitVec.getLsbD_of_ge _ _ (by omega), if_neg (by omega)]

end Flag

/-! ## Reports of a register file: its changes, its summary, its full text and its state line -/

namespace Register

namespace File

def changed (before after : File) : List (Register × Word × Word) :=
  (general.map fun r => (r, before.word r, after.word r)).filter fun (_, x, y) => x != y

def wordLine (column : Nat) (f : File) (r : Register) : String :=
  Text.padLeft column r.name ++ ": 0x" ++ Text.hex 4 (f.word r).toNat ++ " (" ++ (f.word r).toNat.repr ++ ")\n"

def flagsLine (column : Nat) (f : File) : String :=
  Text.padLeft column flags.name ++ ": " ++ Flag.letters (f.word flags) ++ "\n"

/-- The registers that are not zero, and FLAGS if any of its bits is set. -/
def summary (f : File) : String :=
  "Final registers:\n" ++
    String.join ((general.filter fun r => f.word r != 0).map (f.wordLine 8)) ++
    (if f.word flags = 0 then "" else f.flagsLine 8)

def text (f : File) : String := String.join (general.map (f.wordLine 5)) ++ f.flagsLine 5

def stateLine (f : File) : String :=
  String.join ([ax, bx, cx, dx, sp, bp, si, di].map fun r => Text.hex 4 (f.word r).toNat ++ " ") ++
    String.ofList (Flag.all.reverse.map (Flag.letterOrDash (f.word flags))) ++
    " ip=" ++ Text.hex 4 (f.word ip).toNat

end File

end Register

end I8086
