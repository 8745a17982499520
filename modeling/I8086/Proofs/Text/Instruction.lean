import Mathlib.Data.List.Nodup
import Mathlib.Data.List.Forall2
import I8086.Proofs.Text.Line
import I8086.Proofs.Machine.Frame

/-! # What the text of an instruction tells -/

namespace I8086

/-!
## What the text of an operand says

Operands with one text are the same, except that a number that is not negative can be signed in one and unsigned in the
other (`Operand.same_of_text_eq`).
-/

open Text

/-! ### Names -/

namespace Register.View

def all : List View := Register.all.flatMap fun r => [⟨r, .whole⟩, ⟨r, .low⟩, ⟨r, .high⟩]

theorem mem_all (v : View) : v ∈ all := by
  obtain ⟨r, part⟩ := v
  cases part <;> cases r <;> decide

theorem name_inj {v v' : View} (h : v.name = v'.name) : v = v' :=
  List.inj_on_of_nodup_map (by decide : (all.map name).Nodup) (mem_all v) (mem_all v') h

end Register.View

namespace Operation

theorem mem_all (o : Operation) : o ∈ all := by
  cases o with
  | mov | jcxz => decide
  | arith op => cases op <;> decide
  | jump c =>
    obtain ⟨t, negated⟩ := c
    cases negated <;> cases t <;> decide
  | loop t => cases t <;> decide

theorem mnemonic_inj {o o' : Operation} (h : o.mnemonic = o'.mnemonic) : o = o' :=
  List.inj_on_of_nodup_map (by decide : (all.map mnemonic).Nodup) (mem_all o) (mem_all o') h

theorem blank_not_mem_mnemonic (o : Operation) : ' ' ∉ o.mnemonic.toList := by
  have hall : ∀ o ∈ all, ' ' ∉ o.mnemonic.toList := by decide
  exact hall o (mem_all o)

end Operation

/-! ### Addresses -/

theorem Base.text_inj {b b' : Base} (h : b.text = b'.text) : b = b' := by
  have hall : ∀ b : Base, b ∈ Base.all := by intro b; cases b <;> decide
  exact List.inj_on_of_nodup_map (by decide : (Base.all.map Base.text).Nodup) (hall b) (hall b') h

theorem Address.text_eq (a : Address) : a.text =
    "[" ++ (if a.base = .direct then a.displacement.toNat.repr else a.base.text ++ signed a.displacement.toInt) ++ "]" := by
  obtain ⟨base, displacement⟩ := a
  cases base
  case direct => rfl
  all_goals simp [text, String.append_assoc]

theorem Address.text_inj {a a' : Address} (h : a.text = a'.text) : a = a' := by
  obtain ⟨base, x⟩ := a
  obtain ⟨base', x'⟩ := a'
  rw [text_eq, text_eq, String.append_left_inj, String.append_right_inj] at h
  simp only at h
  split at h <;> rename_i hbase <;> split at h <;> rename_i hbase'
  · rw [hbase, hbase', BitVec.eq_of_toNat_eq (repr_inj h)]
  · exact absurd h (repr_ne_append_signed _ _ _)
  · exact absurd h.symm (repr_ne_append_signed _ _ _)
  · obtain ⟨htext, hint⟩ := append_signed_inj h
    rw [Base.text_inj htext, BitVec.toInt_inj.mp hint]

/-! ### Operands -/

namespace Operand

inductive Shape
  | name | number | address
  deriving DecidableEq

def shape? (text : String) : Option Shape :=
  text.toList.head?.map fun c => if c.isDigit ∨ c = '-' then .number else if c = '[' then .address else .name

def Kind.shape : Kind → Shape
  | .register _ => .name
  | .signed _ | .unsigned _ => .number
  | .memory _ => .address

theorem shape?_name (v : Register.View) : shape? v.name = some .name := by
  have hall : ∀ v ∈ Register.View.all, shape? v.name = some .name := by decide
  exact hall v v.mem_all

theorem shape?_decimal (i : Int) : shape? (decimal i) = some .number := by
  cases i with
  | ofNat n =>
    change shape? n.repr = _
    cases hn : n.repr.toList with
    | nil => exact absurd (Nat.toList_repr ▸ hn) Nat.toDigits_ne_nil
    | cons c l =>
      have hc : c.isDigit = true := isDigit_of_mem_repr (n := n) (hn ▸ .head _)
      rw [shape?, hn, List.head?_cons, Option.map_some, if_pos (.inl hc)]
  | negSucc n => simp [shape?, decimal]

theorem shape?_text (k : Kind) : shape? k.text = some k.shape := by
  cases k with
  | register view => exact shape?_name view
  | signed value => exact shape?_decimal value.toInt
  | unsigned value => exact shape?_decimal value.toNat
  | memory address =>
    rw [Kind.text, Address.text_eq]
    simp [shape?, Kind.shape]

/-- The same register, address or number, where the number can be signed in one and unsigned in the other unless it is
negative. -/
inductive Kind.Same : Kind → Kind → Prop
  | refl (k : Kind) : Same k k
  | unsigned {value : Word} (h : 0 ≤ value.toInt) : Same (.signed value) (.unsigned value)
  | signed {value : Word} (h : 0 ≤ value.toInt) : Same (.unsigned value) (.signed value)

structure Same (o o' : Operand) : Prop where
  size : o.size = o'.size
  kind : o.kind.Same o'.kind

theorem eq_of_toInt_eq_toNat {x y : Word} (h : x.toInt = y.toNat) : x = y ∧ 0 ≤ x.toInt := by
  refine ⟨?_, ?_⟩
  · apply BitVec.eq_of_toNat_eq
    rw [BitVec.toInt_eq_toNat_cond] at h
    split at h <;> omega
  · omega

theorem Kind.same_of_text_eq {k k' : Kind} (h : k.text = k'.text) : k.Same k' := by
  have hshape : k.shape = k'.shape := by
    rw [← Option.some_inj, ← shape?_text, ← shape?_text, h]
  -- Kinds of one shape are left: the same kind twice, or a number that is signed in one of them only.
  cases k <;> cases k' <;> cases hshape
  case register view view' =>
    rw [Register.View.name_inj h]
    exact .refl _
  case signed.signed x x' =>
    rw [BitVec.toInt_inj.mp (decimal_inj h)]
    exact .refl _
  case signed.unsigned x x' =>
    obtain ⟨rfl, hx⟩ := eq_of_toInt_eq_toNat (decimal_inj h)
    exact .unsigned hx
  case unsigned.signed x x' =>
    obtain ⟨rfl, hx⟩ := eq_of_toInt_eq_toNat (decimal_inj h.symm)
    exact .signed hx
  case unsigned.unsigned x x' =>
    have hx : (x.toNat : Int) = x'.toNat := decimal_inj h
    rw [BitVec.eq_of_toNat_eq (Int.ofNat_inj.mp hx)]
    exact .refl _
  case memory a a' =>
    rw [Address.text_inj h]
    exact .refl _

theorem Kind.text_ne_marked (k : Kind) (w : Width) (t : String) : k.text ≠ w.name ++ " " ++ t := by
  intro h
  have hshape : k.shape = .name := by
    rw [← Option.some_inj, ← shape?_text, h]
    cases w <;> simp [shape?, Width.name]
  cases k <;> cases hshape
  case register view =>
    have hall : ∀ v ∈ Register.View.all, ∀ w ∈ [Width.byte, .word], ¬(w.name ++ " ").toList <+: v.name.toList := by decide
    have hw : w ∈ [Width.byte, .word] := by cases w <;> decide
    apply hall view view.mem_all w hw
    rw [show view.name = _ from h, String.toList_append (s := w.name ++ " ")]
    exact List.prefix_append ..

theorem same_of_text_eq {o o' : Operand} (h : o.text = o'.text) : o.Same o' := by
  obtain ⟨size, kind⟩ := o
  obtain ⟨size', kind'⟩ := o'
  cases size with
  | none =>
    cases size' with
    | none => exact ⟨rfl, Kind.same_of_text_eq h⟩
    | some w' => exact absurd h (kind.text_ne_marked w' _)
  | some w =>
    cases size' with
    | none => exact absurd h.symm (kind'.text_ne_marked w _)
    | some w' =>
      have hblank (w : Width) : ' ' ∉ w.name.toList := by cases w <;> decide
      obtain ⟨hname, htext⟩ := append_inj_of_not_mem [] (hblank w) (hblank w') h
      have hw : w = w' := by
        cases w <;> cases w' <;> first | rfl | exact absurd hname (by decide)
      exact ⟨congrArg some hw, Kind.same_of_text_eq htext⟩

end Operand

/-! ### Characters that are in no operand -/

namespace Text

theorem not_mem_append {c : Char} {a b : String} (ha : c ∉ a.toList) (hb : c ∉ b.toList) : c ∉ (a ++ b).toList := by
  rw [String.toList_append, List.mem_append]
  exact not_or.mpr ⟨ha, hb⟩

theorem not_mem_intercalate {c : Char} {sep : String} (hsep : c ∉ sep.toList) {l : List String}
    (h : ∀ s ∈ l, c ∉ s.toList) : c ∉ (String.intercalate sep l).toList := by
  induction l with
  | nil => simp
  | cons a l ih =>
    obtain ⟨ha, hl⟩ := List.forall_mem_cons.mp h
    cases l with
    | nil =>
      rw [String.intercalate_singleton]
      exact ha
    | cons b l =>
      rw [String.intercalate_cons_cons]
      exact not_mem_append (not_mem_append ha hsep) (ih hl)

def operandMarks : List Char := "+-[]$ bdeioprstwxy".toList

/-- Operands have such a character in names of registers only. -/
structure Foreign (c : Char) : Prop where
  digit : c.isDigit = false
  mark : c ∉ operandMarks

namespace Foreign

variable {c : Char} (hc : Foreign c)
include hc

theorem not_mem_repr (n : Nat) : c ∉ n.repr.toList := by
  intro h
  cases hc.digit.symm.trans (isDigit_of_mem_repr h)

theorem not_mem_of_marks {s : String} (hs : s.toList ⊆ operandMarks) : c ∉ s.toList := fun h => hc.mark (hs h)

theorem not_mem_signed (i : Int) : c ∉ (signed i).toList := by
  cases i with
  | ofNat n => exact not_mem_append (hc.not_mem_of_marks (by decide)) (hc.not_mem_repr n)
  | negSucc n => exact not_mem_append (hc.not_mem_of_marks (by decide)) (hc.not_mem_repr (n + 1))

theorem not_mem_decimal (i : Int) : c ∉ (decimal i).toList := by
  cases i with
  | ofNat n => exact hc.not_mem_repr n
  | negSucc n => exact not_mem_append (hc.not_mem_of_marks (by decide)) (hc.not_mem_repr (n + 1))

theorem not_mem_address (a : Address) : c ∉ a.text.toList := by
  have hopen := hc.not_mem_of_marks (s := "[") (by decide)
  have hclose := hc.not_mem_of_marks (s := "]") (by decide)
  have hbase : c ∉ a.base.text.toList := by
    apply hc.not_mem_of_marks
    cases a.base <;> decide
  rw [a.text_eq]
  split
  · exact not_mem_append (not_mem_append hopen (hc.not_mem_repr _)) hclose
  · exact not_mem_append (not_mem_append hopen (not_mem_append hbase (hc.not_mem_signed _))) hclose

theorem not_mem_operand {o : Operand} (hname : ∀ view, o.kind = .register view → c ∉ view.name.toList) :
    c ∉ o.text.toList := by
  obtain ⟨size, kind⟩ := o
  have hkind : c ∉ kind.text.toList := by
    cases kind with
    | register view => exact hname view rfl
    | signed value => exact hc.not_mem_decimal value.toInt
    | unsigned value => exact hc.not_mem_decimal value.toNat
    | memory address => exact hc.not_mem_address address
  cases size with
  | none => exact hkind
  | some w =>
    have hw : c ∉ (w.name ++ " ").toList := by
      apply hc.not_mem_of_marks
      cases w <;> decide
    exact not_mem_append hw hkind

theorem not_mem_operandText (operation : Operation) {o : Operand}
    (hname : ∀ view, o.kind = .register view → c ∉ view.name.toList) :
    c ∉ (Instruction.operandText operation o).toList := by
  unfold Instruction.operandText
  split
  · split
    · exact not_mem_append (hc.not_mem_of_marks (by decide)) (hc.not_mem_signed _)
    · exact hc.not_mem_operand hname
  · exact hc.not_mem_operand hname

end Foreign

end Text

theorem Register.View.comma_not_mem_name (v : View) : ',' ∉ v.name.toList := by
  have hall : ∀ v ∈ all, ',' ∉ v.name.toList := by decide
  exact hall v v.mem_all

theorem Instruction.comma_not_mem_operandText (operation : Operation) (o : Operand) :
    ',' ∉ (operandText operation o).toList :=
  Foreign.not_mem_operandText ⟨by decide, by decide⟩ operation fun view _ => view.comma_not_mem_name

/-!
## What the text of an instruction says

Instructions that were decoded and have one text are the same operation on the same operands, and do the same to every
machine (`text_decides_execution`).
-/

open Text

/-! ### Texts -/

namespace Instruction

variable {i j : Instruction}

theorem text_of_ne_nil (h : i.operands ≠ []) : i.text =
    i.operation.mnemonic ++ " " ++ String.intercalate ", " (i.operands.map (operandText i.operation)) := by
  unfold text
  split
  · next hnil => exact absurd (List.map_eq_nil_iff.mp hnil) h
  · rfl

theorem of_text_eq (hi : i.operands ≠ []) (hj : j.operands ≠ []) (h : i.text = j.text) :
    i.operation = j.operation ∧ i.operands.map (operandText i.operation) = j.operands.map (operandText j.operation) := by
  have hcomma (i : Instruction) : ∀ s ∈ i.operands.map (operandText i.operation), ',' ∉ s.toList := by
    intro s hs
    obtain ⟨o, _, rfl⟩ := List.mem_map.mp hs
    exact comma_not_mem_operandText i.operation o
  rw [text_of_ne_nil hi, text_of_ne_nil hj] at h
  obtain ⟨hmnemonic, hoperands⟩ :=
    append_inj_of_not_mem [] i.operation.blank_not_mem_mnemonic j.operation.blank_not_mem_mnemonic h
  have hne {l : List Operand} (f : Operand → String) (h : l ≠ []) : l.map f ≠ [] := fun e => h (List.map_eq_nil_iff.mp e)
  exact ⟨Operation.mnemonic_inj hmnemonic, intercalate_inj (hne _ hi) (hne _ hj) (hcomma i) (hcomma j) hoperands⟩

theorem operandText_of_not_jump {operation : Operation} (h : operation.isJump = false) (o : Operand) :
    operandText operation o = o.text := by
  unfold operandText
  split
  · rw [h, if_neg Bool.false_ne_true]
  · rfl

theorem operandText_of_jump {operation : Operation} (h : operation.isJump = true) (size : Option Width) (x : Word) :
    operandText operation ⟨size, .signed x⟩ = "$" ++ signed (x.toInt + 2) :=
  if_pos h

end Instruction

namespace Code

open Instruction

variable {c c' : Code}

theorem operands_ne_nil (c : Code) : c.operands ≠ [] := by
  cases c with
  | movRm d | arithRm _ d | movAcc d | movSegment d => cases d <;> exact List.cons_ne_nil _ _
  | _ => exact List.cons_ne_nil _ _

theorem operands_of_isJump (h : c.operation.isJump = true) : ∃ x, c.operands = [⟨none, .signed x⟩] := by
  cases c with
  | jump _ x | loop _ x | jcxz x => exact ⟨_, rfl⟩
  | _ => cases h

theorem same_of_text_eq (h : c.instruction.text = c'.instruction.text) :
    c.operation = c'.operation ∧ List.Forall₂ Operand.Same c.operands c'.operands := by
  obtain ⟨hoperation, hoperands⟩ := of_text_eq c.operands_ne_nil c'.operands_ne_nil h
  change c.operation = c'.operation at hoperation
  change c.operands.map (operandText c.operation) = c'.operands.map (operandText c'.operation) at hoperands
  refine ⟨hoperation, ?_⟩
  rw [← hoperation] at hoperands
  cases hjump : c.operation.isJump with
  | true =>
    obtain ⟨x, hx⟩ := operands_of_isJump hjump
    obtain ⟨x', hx'⟩ := operands_of_isJump (hoperation ▸ hjump)
    rw [hx, hx', List.map_singleton, List.map_singleton, operandText_of_jump hjump, operandText_of_jump hjump] at hoperands
    obtain ⟨_, htarget⟩ := append_signed_inj (List.cons.inj hoperands).1
    obtain rfl : x = x' := BitVec.toInt_inj.mp (by omega)
    rw [hx, hx']
    exact .cons ⟨rfl, .refl _⟩ .nil
  | false =>
    rw [← List.forall₂_eq_eq_eq, List.forall₂_map_left_iff, List.forall₂_map_right_iff] at hoperands
    refine hoperands.imp ?_
    intro o o' ho
    rw [operandText_of_not_jump hjump, operandText_of_not_jump hjump] at ho
    exact Operand.same_of_text_eq ho

end Code

/-! ### Execution -/

namespace Operand.Same

variable {o o' : Operand} (h : o.Same o')
include h

theorem width?_eq : o.width? = o'.width? := by
  obtain ⟨size, kind⟩ := o
  obtain ⟨size', kind'⟩ := o'
  obtain ⟨hsize, hkind⟩ := h
  subst hsize
  cases hkind <;> rfl

theorem kind_eq (hplace : o.isPlace = true) : o.kind = o'.kind := by
  obtain ⟨size, kind⟩ := o
  obtain ⟨size', kind'⟩ := o'
  cases h.kind with
  | refl => rfl
  | unsigned | signed => cases hplace

theorem value_eq (m : Machine) (w : Width) : m.value o w = m.value o' w := by
  obtain ⟨size, kind⟩ := o
  obtain ⟨size', kind'⟩ := o'
  cases h.kind <;> rfl

end Operand.Same

namespace Instruction

variable {i j : Instruction}

theorem operands_of_displacement {x : Word} (h : i.displacement = .ok x) :
    ∃ size rest, i.operands = ⟨size, .signed x⟩ :: rest := by
  obtain ⟨operation, operands⟩ := i
  match operands with
  | [] => cases h
  | ⟨size, kind⟩ :: rest =>
    cases kind with
    | signed value =>
      cases h
      exact ⟨size, rest, rfl⟩
    | register _ | unsigned _ | memory _ => cases h

open Machine in
theorem execute_of_same (ho : i.operation = j.operation) (hs : List.Forall₂ Operand.Same i.operands j.operands)
    (hi : i.Fit) (hj : j.Fit) (m : Machine) : execute i m = execute j m := by
  cases hi with
  | @pair dst src w notJump pair place _ =>
    obtain ⟨rest, hoperands⟩ := operands_of_pair pair
    rw [hoperands] at hs
    generalize hoperands' : j.operands = operands' at hs
    cases hs with
    | @cons _ dst' _ _ hdst hs =>
      cases hs with
      | @cons _ src' _ rest' hsrc hs =>
        have hwidth : (dst'.width? <|> src'.width?) = some w := by
          rw [← hdst.width?_eq, ← hsrc.width?_eq]
          exact (of_pair pair).2.2
        refine execute_congr m ho notJump pair (pair_eq hoperands' hwidth) place (hdst.kind_eq place) ?_
        intro m
        rw [hsrc.value_eq m w]
  | @jump x isJump displacement =>
    cases hj with
    | pair notJump => cases (ho ▸ isJump).symm.trans notJump
    | @jump x' isJump' displacement' =>
      obtain ⟨size, rest, hoperands⟩ := operands_of_displacement displacement
      obtain ⟨size', rest', hoperands'⟩ := operands_of_displacement displacement'
      rw [hoperands, hoperands'] at hs
      obtain rfl : x = x' := by
        cases hs with
        | cons hsame => cases hsame.kind; rfl
      rw [execute_of_isJump isJump displacement, execute_of_isJump isJump' displacement', ho]

end Instruction

/-- What was decoded from two places and has the same text is the same operation on operands that are pairwise the same,
up to the signedness of numbers that are not negative. It does the same to every machine. -/
theorem text_decides_execution {program program' : Array Byte} {offset offset' : Nat} {d d' : Decoded}
    (hd : decode program offset = .ok d) (hd' : decode program' offset' = .ok d')
    (h : d.instruction.text = d'.instruction.text) :
    d.instruction.operation = d'.instruction.operation ∧
      List.Forall₂ Operand.Same d.instruction.operands d'.instruction.operands ∧
      ∀ m, Machine.execute d.instruction m = Machine.execute d'.instruction m := by
  obtain ⟨c, _, rfl⟩ := Code.exists_of_decode hd
  obtain ⟨c', _, rfl⟩ := Code.exists_of_decode hd'
  obtain ⟨hoperation, hoperands⟩ := Code.same_of_text_eq h
  exact ⟨hoperation, hoperands, Instruction.execute_of_same hoperation hoperands c.fit c'.fit⟩

theorem text_decides_execution_of_extended_immediate :
    let extended : Instruction := ⟨.arith .add, [.register (.whole .si), ⟨some .word, .signed 2⟩]⟩
    let whole : Instruction := ⟨.arith .add, [.register (.whole .si), ⟨some .word, .unsigned 2⟩]⟩
    decode #[0x83, 0xC6, 0x02] 0 = .ok ⟨extended, 3, by decide⟩ ∧
      decode #[0x90, 0x81, 0xC6, 0x02, 0x00] 1 = .ok ⟨whole, 4, by decide⟩ ∧
      extended.text = whole.text ∧ ∀ m, Machine.execute extended m = Machine.execute whole m := by
  intro extended whole
  have hd : decode #[0x83, 0xC6, 0x02] 0 = .ok ⟨extended, 3, by decide⟩ := rfl
  have hd' : decode #[0x90, 0x81, 0xC6, 0x02, 0x00] 1 = .ok ⟨whole, 4, by decide⟩ := rfl
  exact ⟨hd, hd', rfl, (text_decides_execution hd hd' rfl).2.2⟩

end I8086
