import Mathlib.Algebra.Ring.Parity
import Mathlib.Data.BitVec
import I8086.Machine

/-! # Results and flags of arithmetic -/

namespace I8086

/-!
## The status of an outcome

What each of the six flags says of an outcome, read back from the FLAGS word, whose other bits no outcome changes.
-/

theorem Flag.isSet_assign (flags : Word) (f g : Flag) (on : Bool) :
    isSet (f.assign flags on) g = if g = f then on else isSet flags g := by
  rw [isSet, getLsbD_assign, isSet]
  by_cases h : g = f
  · simp [h]
  · have hbit : (g.bit : Nat) ≠ f.bit := by
      intro e
      exact h (bit_inj (Fin.ext e))
    simp [h, hbit]

def Flag.Reserved (i : Nat) : Prop := ∀ f : Flag, i ≠ f.bit

theorem Flag.eq_of_isSet {x y : Word} (hset : ∀ f, isSet x f = isSet y f)
    (hreserved : ∀ i, Reserved i → x.getLsbD i = y.getLsbD i) : x = y := by
  apply BitVec.eq_of_getLsbD_eq
  intro i _
  by_cases hi : Reserved i
  · exact hreserved i hi
  · obtain ⟨f, hf⟩ := not_forall_not.mp hi
    exact hf ▸ hset f

namespace Outcome

variable {n : Nat} (o : Outcome n)

def status : Flag → Bool
  | .carry => o.carry
  | .parity => Word.evenParity (o.value.setWidth 16)
  | .auxCarry => o.auxCarry
  | .zero => o.value == 0
  | .sign => o.value.msb
  | .overflow => o.overflow

theorem isSet_flags (flags : Word) (f : Flag) : Flag.isSet (o.flags flags) f = o.status f := by
  cases f <;> simp [Outcome.flags, Flag.isSet_assign, status]

theorem getLsbD_flags (flags : Word) {i : Nat} (hi : Flag.Reserved i) : (o.flags flags).getLsbD i = flags.getLsbD i := by
  simp only [Outcome.flags, Flag.getLsbD_assign, if_neg (hi _)]

theorem evenParity_value : Word.evenParity (o.value.setWidth 16) = true ↔
    Even ((List.range 8).countP o.value.getLsbD) := by
  have hcount : (List.range 8).countP (Word.low (o.value.setWidth 16)).getLsbD =
      (List.range 8).countP o.value.getLsbD := by
    apply List.countP_congr
    intro i hi
    simp [Word.low, List.mem_range.mp hi]
  rw [Word.evenParity, hcount, Nat.even_iff, beq_iff_eq]

end Outcome

/-!
## Results and flags as numbers

The result of an addition or subtraction and each of its six flags, said of the two numbers themselves
(`Arith.status_outcome`).
-/

namespace Arith

def exact (op : Arith) (x y : Int) : Int :=
  match op with
  | add => x + y
  | sub | cmp => x - y

def result (op : Arith) (n a b : Nat) : Nat := (op.exact a b % 2 ^ n).toNat

/-- When a flag is set after an operation on two numbers of `n` bits. Overflow is about the same bits with a sign. -/
def Sets (op : Arith) (n a b : Nat) : Flag → Prop
  | .carry =>
    match op with
    | add => 2 ^ n ≤ a + b
    | sub | cmp => a < b
  | .auxCarry =>
    match op with
    | add => 16 ≤ a % 16 + b % 16
    | sub | cmp => a % 16 < b % 16
  | .zero => op.result n a b = 0
  | .sign => (op.result n a b).testBit (n - 1) = true
  | .parity => Even ((List.range 8).countP (op.result n a b).testBit)
  | .overflow =>
    op.exact (Int.bmod a (2 ^ n)) (Int.bmod b (2 ^ n)) < -2 ^ (n - 1) ∨
      2 ^ (n - 1) ≤ op.exact (Int.bmod a (2 ^ n)) (Int.bmod b (2 ^ n))

instance (op : Arith) (n a b : Nat) : DecidablePred (op.Sets n a b)
  | .carry | .auxCarry =>
    match op with
    | add => Nat.decLe ..
    | sub | cmp => Nat.decLt ..
  | .zero => Nat.decEq ..
  | .sign => inferInstanceAs (Decidable (_ = true))
  | .parity => inferInstanceAs (Decidable (Even _))
  | .overflow => inferInstanceAs (Decidable (_ ∨ _))

variable {n : Nat} (op : Arith) (x y : BitVec n)

theorem value_outcome : (op.outcome x y).value = BitVec.ofInt n (op.exact x.toNat y.toNat) := by
  have hdifference : x - y = BitVec.ofInt n (x.toNat - y.toNat) := by
    rw [Int.sub_eq_add_neg, BitVec.ofInt_add, BitVec.ofInt_neg, ← BitVec.sub_eq_add_neg]
    simp
  cases op with
  | add => simp [outcome, Outcome.add, exact, BitVec.ofInt_add]
  | sub | cmp => exact hdifference

theorem toNat_value_outcome : (op.outcome x y).value.toNat = op.result n x.toNat y.toNat := by
  rw [value_outcome, BitVec.toNat_ofInt, result]
  norm_cast

theorem status_outcome (f : Flag) : (op.outcome x y).status f = true ↔ op.Sets n x.toNat y.toNat f := by
  have hvalue := op.toNat_value_outcome x y
  cases f <;> simp only [Outcome.status, Sets]
  case carry => cases op <;> simp [outcome, Outcome.add, Outcome.sub, BitVec.uaddOverflow, BitVec.usubOverflow]
  case auxCarry => cases op <;> simp [outcome, Outcome.add, Outcome.sub, BitVec.uaddOverflow, BitVec.usubOverflow]
  case zero =>
    rw [← hvalue, beq_iff_eq, BitVec.toNat_eq]
    rfl
  case sign =>
    rw [← hvalue, BitVec.testBit_toNat, BitVec.msb_eq_getLsbD_last]
  case parity =>
    rw [Outcome.evenParity_value, ← hvalue]
    rfl
  case overflow =>
    rw [← BitVec.toInt_eq_toNat_bmod, ← BitVec.toInt_eq_toNat_bmod]
    cases op <;> simp [outcome, Outcome.add, Outcome.sub, exact, BitVec.saddOverflow, BitVec.ssubOverflow, or_comm]

end Arith

end I8086
