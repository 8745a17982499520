/-! # Bytes, words and numerals -/

namespace I8086

/-!
## Bytes and words

The units of the machine: a byte, a word made of a low and a high byte, and the width of an access.
-/

abbrev Byte := BitVec 8

abbrev Word := BitVec 16

namespace Byte

def zeroExtend (b : Byte) : Word := b.setWidth 16

def signExtend (b : Byte) : Word := BitVec.signExtend 16 b

end Byte

namespace Word

def low (w : Word) : Byte := w.setWidth 8

def high (w : Word) : Byte := (w >>> 8).setWidth 8

def ofBytes (low high : Byte) : Word := low.zeroExtend ||| high.zeroExtend <<< 8

def evenParity (w : Word) : Bool := (List.range 8).countP w.low.getLsbD % 2 == 0

@[simp] theorem low_ofBytes (l h : Byte) : (ofBytes l h).low = l := by
  refine BitVec.eq_of_getLsbD_eq fun i hi => ?_
  simp [low, ofBytes, Byte.zeroExtend, hi]

@[simp] theorem high_ofBytes (l h : Byte) : (ofBytes l h).high = h := by
  refine BitVec.eq_of_getLsbD_eq fun i hi => ?_
  simp [high, ofBytes, Byte.zeroExtend, hi, show 8 + i < 16 by omega, show i < 16 by omega]

@[simp] theorem ofBytes_low_high (w : Word) : ofBytes w.low w.high = w := by
  refine BitVec.eq_of_getLsbD_eq fun i hi => ?_
  by_cases h : i < 8
  · simp [low, high, ofBytes, Byte.zeroExtend, h, hi]
  · have e : 8 + (i - 8) = i := by omega
    simp [low, high, ofBytes, Byte.zeroExtend, h, hi, e, show i - 8 < 8 by omega]

end Word

inductive Width
  | byte
  | word
  deriving DecidableEq

namespace Width

def ofBit (w : Bool) : Width := if w then word else byte

def bits : Width → Nat
  | byte => 8
  | word => 16

def name : Width → String
  | byte => "byte"
  | word => "word"

end Width

/-!
## Sums and differences with their status

A sum or difference at any width, with the three facts that the value alone does not show: whether it left the unsigned
range, whether it left the signed range, and whether the low four bits did.
-/

structure Outcome (w : Nat) where
  value : BitVec w
  carry : Bool
  overflow : Bool
  auxCarry : Bool
  deriving DecidableEq

namespace Outcome

variable {w : Nat}

def add (x y : BitVec w) : Outcome w where
  value := x + y
  carry := BitVec.uaddOverflow x y
  overflow := BitVec.saddOverflow x y
  auxCarry := BitVec.uaddOverflow (x.setWidth 4) (y.setWidth 4)

def sub (x y : BitVec w) : Outcome w where
  value := x - y
  carry := BitVec.usubOverflow x y
  overflow := BitVec.ssubOverflow x y
  auxCarry := BitVec.usubOverflow (x.setWidth 4) (y.setWidth 4)

end Outcome

/-!
## Numerals and columns

Numbers written in base 2, 10 and 16, and text set in columns.
-/

namespace Text

def hex (width n : Nat) : String := String.ofList ((Nat.toDigits 16 n).leftpad width '0')

def binary (width n : Nat) : String := String.ofList ((Nat.toDigits 2 n).leftpad width '0')

def decimal : Int → String
  | .ofNat n => n.repr
  | .negSucc n => "-" ++ (n + 1).repr

def signed : Int → String
  | .ofNat n => "+" ++ n.repr
  | .negSucc n => "-" ++ (n + 1).repr

def spaces (n : Nat) : String := String.ofList (List.replicate n ' ')

def padRight (width : Nat) (s : String) : String := s ++ spaces (width - s.length)

def padLeft (width : Nat) (s : String) : String := spaces (width - s.length) ++ s

end Text

end I8086
