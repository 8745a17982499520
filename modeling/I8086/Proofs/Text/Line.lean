import Mathlib.Data.List.DropRight
import Mathlib.Data.List.Basic
import Mathlib.Data.List.Nodup
import I8086.Instruction
import I8086.Word

/-! # Lines and numerals -/

namespace I8086

/-!
## Parts of a text

A text that was put together with a character behind each part, or in front of each, is cut at this character into the
parts again (`parts_join`, `parts_append_join`). The parts that a line end is behind are lines.
-/

namespace Text

def parts (c : Char) (text : String) : List String := (text.toList.splitOn c).map String.ofList

def lines (text : String) : List String := parts '\n' text

variable {c : Char} {a : String} {texts : List String}

theorem parts_append (h : c ∉ a.toList) (rest : String) : parts c (a ++ String.singleton c ++ rest) = a :: parts c rest := by
  have htoList : (a ++ String.singleton c ++ rest).toList = a.toList ++ c :: rest.toList := by simp
  rw [parts, htoList, List.splitOn_append_cons_self_of_not_mem h, List.map_cons, String.ofList_toList, ← parts]

theorem parts_of_not_mem (h : c ∉ a.toList) : parts c a = [a] := by
  rw [parts, List.splitOn_eq_singleton h, List.map_singleton, String.ofList_toList]

theorem parts_join (h : ∀ text ∈ texts, c ∉ text.toList) (rest : String) :
    parts c (String.join (texts.map (· ++ String.singleton c)) ++ rest) = texts ++ parts c rest := by
  induction texts with
  | nil => rw [List.map_nil, String.join_nil, String.empty_append, List.nil_append]
  | cons text texts ih =>
    rw [List.map_cons, String.join_cons, String.append_assoc, parts_append (h _ (.head _)),
      ih (fun t ht => h t (.tail _ ht)), List.cons_append]

theorem parts_append_join (ha : c ∉ a.toList) (h : ∀ text ∈ texts, c ∉ text.toList) :
    parts c (a ++ String.join (texts.map (String.singleton c ++ ·))) = a :: texts := by
  induction texts generalizing a with
  | nil => rw [List.map_nil, String.join_nil, String.append_empty, parts_of_not_mem ha]
  | cons text texts ih =>
    obtain ⟨htext, htexts⟩ := List.forall_mem_cons.mp h
    rw [List.map_cons, String.join_cons, String.append_assoc, ← String.append_assoc, parts_append ha, ih htext htexts]

theorem lines_join (h : ∀ text ∈ texts, '\n' ∉ text.toList) (rest : String) :
    lines (String.join (texts.map (· ++ "\n")) ++ rest) = texts ++ lines rest :=
  parts_join h rest

theorem lines_empty : lines "" = [""] := parts_of_not_mem List.not_mem_nil

end Text

/-!
## Instructions on a line

The text of an instruction has no mark and no line end in it and does not end with a blank. So what stands in front of
the mark on a line, but for the blanks at its end, is that text (`column_line`).
-/

namespace Text

def Plain (s : String) : Prop := ∀ c ∈ s.toList, c ≠ ';' ∧ c ≠ '\n'

instance (s : String) : Decidable (Plain s) := List.decidableBAll (fun c => c ≠ ';' ∧ c ≠ '\n') s.toList

structure Clean (s : String) : Prop where
  plain : Plain s
  last : s.toList.getLast?.any (· ≠ ' ') = true

instance (s : String) : Decidable (Clean s) :=
  decidable_of_iff (Plain s ∧ s.toList.getLast?.any (· ≠ ' ') = true) ⟨fun h => ⟨h.1, h.2⟩, fun h => ⟨h.1, h.2⟩⟩

theorem Plain.append {a b : String} (ha : Plain a) (hb : Plain b) : Plain (a ++ b) := by
  intro c hc
  rw [String.toList_append, List.mem_append] at hc
  rcases hc with hc | hc
  · exact ha c hc
  · exact hb c hc

theorem Clean.exists_concat {s : String} (h : Clean s) : ∃ l c, s.toList = l ++ [c] ∧ c ≠ ' ' := by
  obtain ⟨c, hc, hblank⟩ := (Option.any_eq_true _ _).mp h.last
  obtain ⟨l, hl⟩ := List.getLast?_eq_some_iff.mp hc
  exact ⟨l, c, hl, of_decide_eq_true hblank⟩

theorem clean_of_concat {s : String} {l : List Char} {c : Char} (hs : Plain s) (hl : s.toList = l ++ [c]) (hc : c ≠ ' ') :
    Clean s := by
  refine ⟨hs, ?_⟩
  rw [hl, List.getLast?_concat]
  exact decide_eq_true hc

theorem Clean.append {a b : String} (ha : Plain a) (hb : Clean b) : Clean (a ++ b) := by
  obtain ⟨l, c, hl, hc⟩ := hb.exists_concat
  apply clean_of_concat (ha.append hb.plain) (l := a.toList ++ l) (c := c) _ hc
  rw [String.toList_append, hl, List.append_assoc]

theorem clean_intercalate {sep : String} (hsep : Plain sep) {l : List String} (hne : l ≠ []) (h : ∀ s ∈ l, Clean s) :
    Clean (String.intercalate sep l) := by
  induction l with
  | nil => exact absurd rfl hne
  | cons a l ih =>
    have ha := h a (.head _)
    cases l with
    | nil =>
      rw [String.intercalate_singleton]
      exact ha
    | cons b l =>
      rw [String.intercalate_cons_cons]
      have hrest := ih (List.cons_ne_nil _ _) (fun s hs => h s (.tail _ hs))
      exact hrest.append (ha.plain.append hsep)

/-! ### Numerals -/

theorem clean_repr (n : Nat) : Clean n.repr := by
  have htoList : n.repr.toList = Nat.toDigits 10 n := String.toList_ofList
  have hdigit : ∀ c ∈ n.repr.toList, c.isDigit = true := by
    intro c hc
    rw [htoList] at hc
    exact Nat.isDigit_of_mem_toDigits (by decide) (by decide) hc
  have hne : n.repr.toList ≠ [] := by
    rw [htoList]
    exact Nat.toDigits_ne_nil
  apply clean_of_concat _ (List.dropLast_append_getLast hne).symm
  · intro hblank
    cases hblank ▸ hdigit _ (List.getLast_mem hne)
  · intro c hc
    have := hdigit c hc
    refine ⟨?_, ?_⟩ <;> rintro rfl <;> cases this

theorem clean_decimal (i : Int) : Clean (decimal i) := by
  cases i with
  | ofNat n => exact clean_repr n
  | negSucc n => exact (clean_repr (n + 1)).append (by decide)

theorem clean_signed (i : Int) : Clean (signed i) := by
  cases i with
  | ofNat n => exact (clean_repr n).append (by decide)
  | negSucc n => exact (clean_repr (n + 1)).append (by decide)

end Text

open Text

/-! ### Instructions -/

theorem Register.clean_name (r : Register) : Clean r.name := by cases r <;> decide

theorem Register.View.clean_name (v : View) : Clean v.name := by
  obtain ⟨r, part⟩ := v
  cases part
  · exact r.clean_name
  all_goals cases r <;> decide

theorem Base.plain_text (b : Base) : Plain b.text := by cases b <;> decide

theorem Address.clean_text (a : Address) : Clean a.text := by
  obtain ⟨base, displacement⟩ := a
  have hopen : Plain "[" := by decide
  have hclose : Clean "]" := by decide
  cases base
  case direct => exact hclose.append (hopen.append (clean_decimal _).plain)
  all_goals exact hclose.append ((hopen.append (Base.plain_text _)).append (clean_signed _).plain)

theorem Operand.Kind.clean_text (k : Kind) : Clean k.text := by
  cases k with
  | register view => exact view.clean_name
  | signed value => exact clean_decimal value.toInt
  | unsigned value => exact clean_decimal value.toNat
  | memory address => exact address.clean_text

theorem Operand.clean_text (o : Operand) : Clean o.text := by
  obtain ⟨size, kind⟩ := o
  cases size with
  | none => exact kind.clean_text
  | some w =>
    have hname : Plain (w.name ++ " ") := by cases w <;> decide
    exact kind.clean_text.append hname

theorem Condition.clean_mnemonic (c : Condition) : Clean c.mnemonic := by
  obtain ⟨test, negated⟩ := c
  cases test <;> cases negated <;> decide

theorem Operation.clean_mnemonic (operation : Operation) : Clean operation.mnemonic := by
  cases operation with
  | mov | jcxz => decide
  | arith op => cases op <;> decide
  | jump c => exact c.clean_mnemonic
  | loop t => cases t <;> decide

namespace Instruction

theorem clean_operandText (operation : Operation) (o : Operand) : Clean (operandText operation o) := by
  unfold operandText
  split
  · split
    · exact (clean_signed _).append (by decide)
    · exact o.clean_text
  · exact o.clean_text

theorem clean_text (i : Instruction) : Clean i.text := by
  have hmnemonic := i.operation.clean_mnemonic
  unfold text
  split
  · exact hmnemonic
  · next hne =>
    have hoperands : Clean (String.intercalate ", " (i.operands.map (operandText i.operation))) := by
      apply clean_intercalate (by decide)
      · intro h
        exact hne h
      · intro s hs
        obtain ⟨o, _, rfl⟩ := List.mem_map.mp hs
        exact clean_operandText i.operation o
    exact hoperands.append (hmnemonic.plain.append (by decide))

end Instruction

/-! ### The column in front of the mark -/

namespace Text

def beforeMark : List Char → List Char
  | ' ' :: ';' :: _ => []
  | c :: rest => c :: beforeMark rest
  | [] => []

def column (line : String) : String := String.ofList ((beforeMark line.toList).rdropWhile (· = ' '))

theorem beforeMark_append {l : List Char} (h : ';' ∉ l) (rest : List Char) : beforeMark (l ++ ' ' :: ';' :: rest) = l := by
  induction l with
  | nil => rfl
  | cons c l ih =>
    have hl : ';' ∉ l := fun hm => h (.tail _ hm)
    rw [List.cons_append, beforeMark, ih hl]
    -- The next character is a blank in front of the mark or one of the text, so it is no mark.
    cases l with
    | nil => simp
    | cons b l =>
      intro rest' _ hb
      cases hb
      exact hl (.head _)

theorem rdropWhile_replicate {l : List Char} {c : Char} (hc : c ≠ ' ') (k : Nat) :
    (l ++ [c] ++ List.replicate k ' ').rdropWhile (· = ' ') = l ++ [c] := by
  induction k with
  | zero => simp [hc]
  | succ k ih =>
    rw [List.replicate_succ', ← List.append_assoc, List.rdropWhile_concat_pos _ _ _ (by decide), ih]

theorem column_line {s : String} (h : Clean s) (width : Nat) (rest : String) :
    column (padRight width s ++ " ;" ++ rest) = s := by
  obtain ⟨l, c, hl, hc⟩ := h.exists_concat
  have hmark : ';' ∉ s.toList ++ List.replicate (width - s.length) ' ' := by
    intro hm
    rw [List.mem_append] at hm
    rcases hm with hm | hm
    · exact (h.plain _ hm).1 rfl
    · cases List.eq_of_mem_replicate hm
  have hline : (padRight width s ++ " ;" ++ rest).toList =
      s.toList ++ List.replicate (width - s.length) ' ' ++ ' ' :: ';' :: rest.toList := by
    simp [padRight, spaces]
  rw [column, hline, beforeMark_append hmark, hl, rdropWhile_replicate hc, ← hl, String.ofList_toList]

end Text

/-!
## Texts taken apart

A text is cut at the first or the last character of a kind in one way only, and a numeral is that of one number.
-/

namespace Text

section
variable {P : Char → Prop} {l l' r r' : List Char} {c c' : Char}

theorem append_cons_inj (hl : ∀ a ∈ l, ¬P a) (hl' : ∀ a ∈ l', ¬P a) (hc : P c) (hc' : P c')
    (h : l ++ c :: r = l' ++ c' :: r') : l = l' ∧ c = c' ∧ r = r' := by
  induction l generalizing l' with
  | nil =>
    cases l' with
    | nil =>
      cases h
      exact ⟨rfl, rfl, rfl⟩
    | cons b l' =>
      cases h
      exact absurd hc (hl' _ (.head _))
  | cons a l ih =>
    cases l' with
    | nil =>
      cases h
      exact absurd hc' (hl _ (.head _))
    | cons b l' =>
      obtain ⟨rfl, htail⟩ := List.cons.inj h
      obtain ⟨rfl, hrest⟩ := ih (fun d hd => hl d (.tail _ hd)) (fun d hd => hl' d (.tail _ hd)) htail
      exact ⟨rfl, hrest⟩

theorem append_cons_inj_right (hr : ∀ a ∈ r, ¬P a) (hr' : ∀ a ∈ r', ¬P a) (hc : P c) (hc' : P c')
    (h : l ++ c :: r = l' ++ c' :: r') : l = l' ∧ c = c' ∧ r = r' := by
  have hreverse := congrArg List.reverse h
  simp only [List.reverse_append, List.reverse_cons, List.append_assoc, List.singleton_append] at hreverse
  obtain ⟨hrr, hcc, hll⟩ := append_cons_inj (P := P) (by simpa using hr) (by simpa using hr') hc hc' hreverse
  exact ⟨List.reverse_injective hll, hcc, List.reverse_injective hrr⟩

end

theorem append_inj_of_not_mem (sep : List Char) {a a' b b' : String} {c : Char} (ha : c ∉ a.toList) (ha' : c ∉ a'.toList)
    (h : a ++ String.ofList (c :: sep) ++ b = a' ++ String.ofList (c :: sep) ++ b') : a = a' ∧ b = b' := by
  have htoList := congrArg String.toList h
  simp only [String.toList_append, String.toList_ofList, List.append_assoc, List.cons_append] at htoList
  obtain ⟨haa, _, hbb⟩ := append_cons_inj (P := (· = c)) (fun d hd => fun e => ha (e ▸ hd))
    (fun d hd => fun e => ha' (e ▸ hd)) rfl rfl htoList
  exact ⟨String.toList_inj.mp haa, String.toList_inj.mp (List.append_cancel_left hbb)⟩

theorem mem_intercalate_cons_cons (a b : String) (l : List String) :
    ',' ∈ (String.intercalate ", " (a :: b :: l)).toList := by
  rw [String.intercalate_cons_cons]
  simp

theorem intercalate_inj {l l' : List String} (hne : l ≠ []) (hne' : l' ≠ []) (hl : ∀ s ∈ l, ',' ∉ s.toList)
    (hl' : ∀ s ∈ l', ',' ∉ s.toList) (h : String.intercalate ", " l = String.intercalate ", " l') : l = l' := by
  induction l generalizing l' with
  | nil => exact absurd rfl hne
  | cons a l ih =>
    cases l' with
    | nil => exact absurd rfl hne'
    | cons a' l' =>
      have ha := hl a (.head _)
      have ha' := hl' a' (.head _)
      cases l with
      | nil =>
        cases l' with
        | nil => simpa using h
        | cons b' l' =>
          rw [String.intercalate_singleton] at h
          exact absurd (h ▸ mem_intercalate_cons_cons a' b' l') ha
      | cons b l =>
        cases l' with
        | nil =>
          rw [String.intercalate_singleton] at h
          exact absurd (h ▸ mem_intercalate_cons_cons a b l) ha'
        | cons b' l' =>
          rw [String.intercalate_cons_cons, String.intercalate_cons_cons] at h
          obtain ⟨rfl, hrest⟩ := append_inj_of_not_mem [' '] ha ha' h
          rw [ih (List.cons_ne_nil _ _) (List.cons_ne_nil _ _) (fun s hs => hl s (.tail _ hs))
            (fun s hs => hl' s (.tail _ hs)) hrest]

/-! ### Numerals -/

theorem isDigit_of_mem_repr {n : Nat} {c : Char} (h : c ∈ n.repr.toList) : c.isDigit = true := by
  rw [Nat.toList_repr] at h
  exact Nat.isDigit_of_mem_toDigits (by decide) (by decide) h

theorem repr_inj {m n : Nat} (h : m.repr = n.repr) : m = n := by
  have hdigits : Nat.toDigits 10 m = Nat.toDigits 10 n := by rw [← Nat.toList_repr, ← Nat.toList_repr, h]
  calc
    m = Nat.ofDigitChars 10 (Nat.toDigits 10 m) 0 := Nat.ofDigitChars_ten_toDigits.symm
    _ = Nat.ofDigitChars 10 (Nat.toDigits 10 n) 0 := by rw [hdigits]
    _ = n := Nat.ofDigitChars_ten_toDigits

def IsSign (c : Char) : Prop := c = '+' ∨ c = '-'

theorem not_isSign_of_mem_repr {n : Nat} : ∀ c ∈ n.repr.toList, ¬IsSign c := by
  intro c hc hsign
  have hdigit := isDigit_of_mem_repr hc
  rcases hsign with rfl | rfl <;> cases hdigit

theorem exists_signed (i : Int) :
    ∃ (c : Char) (n : Nat), signed i = String.singleton c ++ n.repr ∧ IsSign c ∧ i = if c = '+' then (n : Int) else -n := by
  cases i with
  | ofNat n => exact ⟨'+', n, rfl, .inl rfl, rfl⟩
  | negSucc n => exact ⟨'-', n + 1, rfl, .inr rfl, rfl⟩

theorem append_signed_inj {a b : String} {i j : Int} (h : a ++ signed i = b ++ signed j) : a = b ∧ i = j := by
  obtain ⟨c, m, hi, hc, rfl⟩ := exists_signed i
  obtain ⟨c', n, hj, hc', rfl⟩ := exists_signed j
  have htoList := congrArg String.toList h
  simp only [hi, hj, String.toList_append, String.toList_singleton, List.singleton_append] at htoList
  obtain ⟨hab, rfl, hmn⟩ := append_cons_inj_right not_isSign_of_mem_repr not_isSign_of_mem_repr hc hc' htoList
  rw [repr_inj (String.toList_inj.mp hmn)]
  exact ⟨String.toList_inj.mp hab, rfl⟩

theorem repr_ne_append_signed (n : Nat) (a : String) (i : Int) : n.repr ≠ a ++ signed i := by
  intro h
  obtain ⟨c, m, hi, hc, _⟩ := exists_signed i
  have hmem : c ∈ n.repr.toList := by
    rw [h, hi]
    simp
  exact not_isSign_of_mem_repr c hmem hc

theorem decimal_inj {i j : Int} (h : decimal i = decimal j) : i = j := by
  -- A negative number has the same text with its sign as without.
  have hnegative (n : Nat) : decimal (.negSucc n) = "" ++ signed (.negSucc n) := String.empty_append.symm
  cases i with
  | ofNat m =>
    cases j with
    | ofNat n => rw [repr_inj h]
    | negSucc n => exact absurd (h.trans (hnegative n)) (repr_ne_append_signed m _ _)
  | negSucc m =>
    cases j with
    | ofNat n => exact absurd (h.symm.trans (hnegative m)) (repr_ne_append_signed n _ _)
    | negSucc n =>
      rw [hnegative, hnegative] at h
      exact (append_signed_inj h).2

end Text

/-!
## Hexadecimal numerals

A hexadecimal numeral consists of hexadecimal digits, and it is that of one number: `ofHex` reads the number back,
whatever the width.
-/

namespace Text

def hexDigits : List Char := (List.range 16).map Nat.digitChar

def ofHex (digits : List Char) : Nat := digits.foldl (fun n c => 16 * n + hexDigits.idxOf c) 0

theorem digitChar_mem_hexDigits {d : Nat} (h : d < 16) : d.digitChar ∈ hexDigits :=
  List.mem_map_of_mem (List.mem_range.mpr h)

theorem idxOf_digitChar {d : Nat} (h : d < 16) : hexDigits.idxOf d.digitChar = d := by
  have hall : ∀ d : Fin 16, hexDigits.idxOf d.val.digitChar = d := by decide
  exact hall ⟨d, h⟩

theorem ofHex_concat (digits : List Char) (c : Char) : ofHex (digits ++ [c]) = 16 * ofHex digits + hexDigits.idxOf c := by
  rw [ofHex, List.foldl_append, List.foldl_cons, List.foldl_nil, ofHex]

theorem ofHex_zeros (k : Nat) (digits : List Char) : ofHex (List.replicate k '0' ++ digits) = ofHex digits := by
  induction k with
  | zero => rfl
  | succ k ih =>
    rw [List.replicate_succ, List.cons_append, ofHex, List.foldl_cons]
    exact ih

theorem toDigits_spec (n : Nat) : ofHex (Nat.toDigits 16 n) = n ∧ ∀ c ∈ Nat.toDigits 16 n, c ∈ hexDigits := by
  induction n using Nat.strongRecOn with
  | ind n ih =>
    by_cases h : n < 16
    · rw [Nat.toDigits_of_lt_base h]
      refine ⟨?_, ?_⟩
      · rw [← List.nil_append [n.digitChar], ofHex_concat, idxOf_digitChar h]
        exact Nat.zero_add n
      · simp [digitChar_mem_hexDigits h]
    · have hmod : n % 16 < 16 := Nat.mod_lt n (by decide)
      obtain ⟨hvalue, hdigits⟩ := ih (n / 16) (by omega)
      rw [Nat.toDigits_of_base_le (by decide) (Nat.le_of_not_lt h)]
      refine ⟨?_, ?_⟩
      · rw [ofHex_concat, hvalue, idxOf_digitChar hmod]
        omega
      · intro c hc
        rcases List.mem_append.mp hc with hc | hc
        · exact hdigits c hc
        · rw [List.mem_singleton.mp hc]
          exact digitChar_mem_hexDigits hmod

theorem toList_hex (width n : Nat) :
    (hex width n).toList = List.replicate (width - (Nat.toDigits 16 n).length) '0' ++ Nat.toDigits 16 n := by
  simp [hex, List.leftpad]

theorem ofHex_hex (width n : Nat) : ofHex (hex width n).toList = n := by
  rw [toList_hex, ofHex_zeros, (toDigits_spec n).1]

theorem hex_inj {width m n : Nat} (h : hex width m = hex width n) : m = n := by
  rw [← ofHex_hex width m, h, ofHex_hex]

theorem mem_hexDigits_of_mem_hex {width n : Nat} {c : Char} (h : c ∈ (hex width n).toList) : c ∈ hexDigits := by
  rw [toList_hex, List.mem_append] at h
  rcases h with h | h
  · rw [List.eq_of_mem_replicate h]
    decide
  · exact (toDigits_spec n).2 c h

end Text

end I8086
