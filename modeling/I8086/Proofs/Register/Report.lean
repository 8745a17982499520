import I8086.Proofs.Text.Line
import I8086.Register
import I8086.Proofs.Text.Change

/-! # Reports of registers -/

namespace I8086

/-!
## Lines of the summary

The summary has a line of flags exactly if FLAGS is not zero.
-/

namespace Text

theorem plain_hex (width n : Nat) : Plain (hex width n) := by
  have hdigits : Plain (String.ofList hexDigits) := by decide
  intro c hc
  apply hdigits c
  rw [String.toList_ofList]
  exact mem_hexDigits_of_mem_hex hc

theorem Plain.padLeft {s : String} (h : Plain s) (width : Nat) : Plain (padLeft width s) := by
  refine Plain.append ?_ h
  intro c hc
  rw [spaces, String.toList_ofList] at hc
  rw [List.eq_of_mem_replicate hc]
  decide

theorem Plain.lineEnd_not_mem {s : String} (h : Plain s) : '\n' ∉ s.toList := fun hc => (h _ hc).2 rfl

end Text

open Text

theorem Flag.plain_letters (flags : Word) : Plain (letters flags) := by
  have hall : ∀ f : Flag, f.letter ≠ ';' ∧ f.letter ≠ '\n' := by intro f; cases f <;> decide
  intro c hc
  rw [letters, String.toList_ofList] at hc
  obtain ⟨f, _, rfl⟩ := List.mem_map.mp hc
  exact hall f

namespace Register.File

variable (f : File) (column : Nat)

def wordText (r : Register) : String :=
  padLeft column r.name ++ ": 0x" ++ hex 4 (f.word r).toNat ++ " (" ++ (f.word r).toNat.repr ++ ")"

def flagsText : String := padLeft column flags.name ++ ": " ++ Flag.letters (f.word flags)

theorem wordLine_eq (r : Register) : f.wordLine column r = f.wordText column r ++ "\n" := by
  simp only [wordLine, wordText, String.append_assoc]
  rfl

theorem flagsLine_eq : f.flagsLine column = f.flagsText column ++ "\n" := rfl

theorem plain_wordText (r : Register) : Plain (f.wordText column r) := by
  have hname := r.clean_name.plain.padLeft column
  have hword := plain_hex 4 (f.word r).toNat
  have hrepr := (clean_repr (f.word r).toNat).plain
  exact ((((hname.append (by decide)).append hword).append (by decide)).append hrepr).append (by decide)

theorem plain_flagsText : Plain (f.flagsText column) := by
  have hname := flags.clean_name.plain.padLeft column
  have hletters := Flag.plain_letters (f.word flags)
  exact (hname.append (by decide)).append hletters

def summaryTexts : List String :=
  ["Final registers:"] ++ (general.filter fun r => f.word r != 0).map (f.wordText 8) ++
    if f.word flags = 0 then [] else [f.flagsText 8]

theorem summary_eq : f.summary = String.join (f.summaryTexts.map (· ++ "\n")) := by
  have hwords : f.wordLine 8 = fun r => f.wordText 8 r ++ "\n" := funext (f.wordLine_eq 8)
  unfold summary summaryTexts
  simp only [hwords, flagsLine_eq]
  split <;> simp [Function.comp_def, String.append_assoc]

theorem lines_summary : lines f.summary = f.summaryTexts ++ [""] := by
  rw [summary_eq, ← String.append_empty (s := String.join _), lines_join, lines_empty]
  intro text htext
  simp only [summaryTexts, List.mem_append, List.mem_singleton, List.mem_map] at htext
  rcases htext with (rfl | ⟨r, _, rfl⟩) | htext
  · decide
  · exact (f.plain_wordText 8 r).lineEnd_not_mem
  · split at htext
    · cases htext
    · rw [List.mem_singleton.mp htext]
      exact (f.plain_flagsText 8).lineEnd_not_mem

def HasFlagsLine (text : String) : Prop := ∃ line ∈ lines text, "   flags: ".toList <+: line.toList

theorem not_prefix_wordText {r : Register} (hr : r ∈ general) : ¬"   flags: ".toList <+: (f.wordText 8 r).toList := by
  have hname : ∀ r ∈ general, (padLeft 8 r.name).length ≤ 10 ∧ ¬(padLeft 8 r.name).toList <+: "   flags: ".toList := by
    decide
  obtain ⟨hlength, hnot⟩ := hname r hr
  have hprefix : (padLeft 8 r.name).toList <+: (f.wordText 8 r).toList := by
    simp only [wordText, String.toList_append, List.append_assoc]
    exact List.prefix_append _ _
  intro hflags
  exact hnot (List.prefix_of_prefix_length_le hprefix hflags hlength)

theorem hasFlagsLine_summary : HasFlagsLine f.summary ↔ f.word flags ≠ 0 := by
  rw [HasFlagsLine, lines_summary]
  refine ⟨?_, ?_⟩
  · rintro ⟨line, hline, hprefix⟩ hzero
    simp only [summaryTexts, if_pos hzero, List.append_nil, List.mem_append, List.mem_singleton, List.mem_map] at hline
    rcases hline with (rfl | ⟨r, hr, rfl⟩) | rfl
    · revert hprefix
      decide
    · exact f.not_prefix_wordText (List.mem_filter.mp hr).1 hprefix
    · revert hprefix
      decide
  · intro hne
    have hmem : f.flagsText 8 ∈ f.summaryTexts := by
      rw [summaryTexts, if_neg hne]
      exact List.mem_append_right _ (List.mem_singleton.mpr rfl)
    refine ⟨f.flagsText 8, List.mem_append_left _ hmem, ?_⟩
    rw [flagsText, String.toList_append]
    exact List.prefix_append _ _

end Register.File

/-!
## What the reports of two register files tell

The text of a register file tells its registers and the six flags, and the summary tells besides whether FLAGS is zero.
The changes between two files are what has to be replaced in the one to have the registers of the other
(`reports_determine`).
-/

namespace Text

theorem padLeft_inj {width : Nat} {a b : String} (ha : ' ' ∉ a.toList) (hb : ' ' ∉ b.toList)
    (h : padLeft width a = padLeft width b) : a = b := by
  have hdrop (s : String) (hs : ' ' ∉ s.toList) : (padLeft width s).toList.dropWhile (· = ' ') = s.toList := by
    have hspaces : ∀ c ∈ List.replicate (width - s.length) ' ', decide (c = ' ') = true := by simp
    rw [padLeft, spaces, String.toList_append, String.toList_ofList, List.dropWhile_append_of_pos hspaces,
      List.dropWhile_eq_self_iff]
    intro hpos hblank
    exact hs (of_decide_eq_true hblank ▸ List.getElem_mem hpos)
  apply String.toList_inj.mp
  rw [← hdrop a ha, ← hdrop b hb, h]

theorem join_lines_inj {l l' : List String} (hl : ∀ text ∈ l, '\n' ∉ text.toList) (hl' : ∀ text ∈ l', '\n' ∉ text.toList)
    (h : String.join (l.map (· ++ "\n")) = String.join (l'.map (· ++ "\n"))) : l = l' := by
  have hlines (l : List String) (hl : ∀ text ∈ l, '\n' ∉ text.toList) :
      lines (String.join (l.map (· ++ "\n"))) = l ++ [""] := by
    rw [← String.append_empty (s := String.join _), lines_join hl, lines_empty]
  apply (List.append_left_inj [""]).mp
  rw [← hlines l hl, ← hlines l' hl', h]

end Text

open Text

theorem Flag.letters_eq_iff {x y : Word} : letters x = letters y ↔ ∀ f, isSet x f = isSet y f := by
  refine ⟨letters_inj, fun h => ?_⟩
  rw [letters, letters, funext h]

namespace Register

theorem mem_general_iff {r : Register} : r ∈ general ↔ r ≠ flags := by
  cases r <;> simp [general]

def told : Register → Word → String
  | flags, w => Flag.letters w
  | _, w => "0x" ++ hex 4 w.toNat ++ " (" ++ w.toNat.repr ++ ")"

theorem told_of_mem_general {r : Register} (h : r ∈ general) (w : Word) :
    r.told w = "0x" ++ hex 4 w.toNat ++ " (" ++ w.toNat.repr ++ ")" := by
  cases r
  case flags => exact absurd rfl (mem_general_iff.mp h)
  all_goals rfl

theorem told_inj {r : Register} (hr : r ∈ general) {x y : Word} (h : r.told x = r.told y) : x = y := by
  have hblank (w : Word) : ' ' ∉ (hex 4 w.toNat).toList := by
    intro hmem
    have hdigit := mem_hexDigits_of_mem_hex hmem
    revert hdigit
    decide
  have htold (w : Word) : r.told w = "0x" ++ (hex 4 w.toNat ++ " (" ++ (w.toNat.repr ++ ")")) := by
    simp only [told_of_mem_general hr, String.append_assoc]
  rw [htold, htold, String.append_right_inj] at h
  obtain ⟨hhex, _⟩ := append_inj_of_not_mem ['('] (hblank x) (hblank y) h
  exact BitVec.eq_of_toNat_eq (hex_inj hhex)

namespace File

variable (f g : File) (column : Nat)

/-- The same registers but for bits of FLAGS that are no flag. -/
structure Agree : Prop where
  word : ∀ r ∈ general, f.word r = g.word r
  isSet : ∀ flag, Flag.isSet (f.word flags) flag = Flag.isSet (g.word flags) flag

variable {f g} in
theorem agree_iff : f.Agree g ↔ ∀ r : Register, r.told (f.word r) = r.told (g.word r) := by
  refine ⟨?_, ?_⟩
  · intro h r
    by_cases hr : r ∈ general
    · rw [h.word r hr]
    · obtain rfl : r = flags := not_not.mp (mt mem_general_iff.mpr hr)
      exact Flag.letters_eq_iff.mpr h.isSet
  · intro h
    exact ⟨fun r hr => told_inj hr (h r), Flag.letters_eq_iff.mp (h flags)⟩

/-! ### Reports by their lines -/

def lineText (r : Register) : String := padLeft column r.name ++ ": " ++ r.told (f.word r)

theorem lineText_of_mem_general {r : Register} (h : r ∈ general) : f.lineText column r = f.wordText column r := by
  rw [lineText, told_of_mem_general h, wordText]
  apply String.toList_inj.mp
  simp

theorem lineText_flags : f.lineText column flags = f.flagsText column := rfl

theorem lineEnd_not_mem_lineText (r : Register) : '\n' ∉ (f.lineText column r).toList := by
  by_cases hr : r ∈ general
  · rw [f.lineText_of_mem_general column hr]
    exact (f.plain_wordText column r).lineEnd_not_mem
  · obtain rfl : r = flags := not_not.mp (mt mem_general_iff.mpr hr)
    exact (f.plain_flagsText column).lineEnd_not_mem

variable {f g column} in
theorem lineText_inj {r s : Register} (h : f.lineText column r = g.lineText column s) :
    r = s ∧ r.told (f.word r) = s.told (g.word s) := by
  have hname (r : Register) : ' ' ∉ r.name.toList ∧ ':' ∉ r.name.toList := by cases r <;> decide
  have hcolon (r : Register) : ':' ∉ (padLeft column r.name).toList := by
    refine not_mem_append ?_ (hname r).2
    simp [spaces]
  obtain ⟨hpad, htold⟩ := append_inj_of_not_mem [' '] (hcolon r) (hcolon s) h
  exact ⟨name_inj (padLeft_inj (hname r).1 (hname s).1 hpad), htold⟩

theorem text_eq_join : f.text = String.join ((all.map (f.lineText 5)).map (· ++ "\n")) := by
  have hgeneral : general.map (f.wordLine 5) = (general.map (f.lineText 5)).map (· ++ "\n") := by
    rw [List.map_map]
    apply List.map_congr_left
    intro r hr
    rw [wordLine_eq, Function.comp_apply, f.lineText_of_mem_general 5 hr]
  rw [text, hgeneral, all, List.map_append, List.map_append, String.join_append]
  simp [flagsLine_eq, lineText_flags]

theorem summaryTexts_eq :
    f.summaryTexts = "Final registers:" :: (all.filter fun r => f.word r != 0).map (f.lineText 8) := by
  have hgeneral : (general.filter fun r => f.word r != 0).map (f.wordText 8) =
      (general.filter fun r => f.word r != 0).map (f.lineText 8) := by
    apply List.map_congr_left
    intro r hr
    rw [f.lineText_of_mem_general 8 (List.mem_filter.mp hr).1]
  have hflags : ([flags].filter fun r => f.word r != 0).map (f.lineText 8) =
      if f.word flags = 0 then [] else [f.flagsText 8] := by
    rw [List.filter_singleton]
    by_cases h : f.word flags = 0
    · simp [h]
    · simp only [bne_iff_ne.mpr h, if_neg h]
      rfl
  rw [summaryTexts, hgeneral, all, List.filter_append, List.map_append, hflags]
  rfl

/-! ### Two files -/

variable {f g}

theorem text_eq_iff : f.text = g.text ↔ f.Agree g := by
  rw [agree_iff, text_eq_join, text_eq_join]
  have hline (f : File) : ∀ text ∈ all.map (f.lineText 5), '\n' ∉ text.toList := by
    intro text htext
    obtain ⟨r, _, rfl⟩ := List.mem_map.mp htext
    exact f.lineEnd_not_mem_lineText 5 r
  refine ⟨?_, ?_⟩
  · intro h r
    have hlines := join_lines_inj (hline f) (hline g) h
    exact (lineText_inj (List.map_inj_left.mp hlines r r.mem_all)).2
  · intro h
    have hlines : f.lineText 5 = g.lineText 5 := by
      funext r
      rw [lineText, lineText, h r]
    rw [hlines]

theorem told_of_summary_eq (h : f.summary = g.summary) {r : Register} (hr : f.word r ≠ 0) :
    g.word r ≠ 0 ∧ r.told (f.word r) = r.told (g.word r) := by
  have htexts : f.summaryTexts = g.summaryTexts := by
    apply (List.append_left_inj [""]).mp
    rw [← lines_summary, ← lines_summary, h]
  rw [summaryTexts_eq, summaryTexts_eq, List.cons_inj_right] at htexts
  have hmem : f.lineText 8 r ∈ (all.filter fun r => f.word r != 0).map (f.lineText 8) :=
    List.mem_map_of_mem (List.mem_filter.mpr ⟨r.mem_all, bne_iff_ne.mpr hr⟩)
  rw [htexts] at hmem
  obtain ⟨s, hs, hline⟩ := List.mem_map.mp hmem
  obtain ⟨rfl, htold⟩ := lineText_inj hline
  exact ⟨bne_iff_ne.mp (List.mem_filter.mp hs).2, htold.symm⟩

theorem summary_eq_iff : f.summary = g.summary ↔ f.Agree g ∧ (f.word flags = 0 ↔ g.word flags = 0) := by
  refine ⟨?_, ?_⟩
  · intro h
    have hzero (r : Register) : f.word r = 0 ↔ g.word r = 0 :=
      not_iff_not.mp ⟨fun hr => (told_of_summary_eq h hr).1, fun hr => (told_of_summary_eq h.symm hr).1⟩
    refine ⟨agree_iff.mpr ?_, hzero flags⟩
    intro r
    by_cases hr : f.word r = 0
    · rw [hr, (hzero r).mp hr]
    · exact (told_of_summary_eq h hr).2
  · rintro ⟨h, hflags⟩
    have hline : f.lineText 8 = g.lineText 8 := by
      funext r
      rw [lineText, lineText, agree_iff.mp h r]
    have hzero (r : Register) : (f.word r != 0) = (g.word r != 0) := by
      by_cases hr : r ∈ general
      · rw [h.word r hr]
      · obtain rfl : r = flags := not_not.mp (mt mem_general_iff.mpr hr)
        rw [Bool.eq_iff_iff, bne_iff_ne, bne_iff_ne]
        exact not_congr hflags
    rw [summary_eq, summary_eq, summaryTexts_eq, summaryTexts_eq, hline, funext hzero]

/-! ### Changes -/

theorem mem_changed {r : Register} {x y : Word} :
    (r, x, y) ∈ f.changed g ↔ r ∈ general ∧ x = f.word r ∧ y = g.word r ∧ x ≠ y := by
  simp only [changed, List.mem_filter, List.mem_map, Prod.mk.injEq, bne_iff_ne]
  refine ⟨?_, ?_⟩
  · rintro ⟨⟨s, hs, rfl, rfl, rfl⟩, hne⟩
    exact ⟨hs, rfl, rfl, hne⟩
  · rintro ⟨hr, rfl, rfl, hne⟩
    exact ⟨⟨r, hr, rfl, rfl, rfl⟩, hne⟩

theorem pairwise_changed (f g : File) : (f.changed g).Pairwise fun c d => c.1.index < d.1.index := by
  have hgeneral : general.Pairwise fun r s => r.index < s.index := by decide
  exact List.Pairwise.filter _ (List.pairwise_map.mpr hgeneral)

def replace (f : File) (changes : List (Register × Word × Word)) : File := changes.foldl (fun f c => f.set c.1 c.2.2) f

theorem word_replace {changes : List (Register × Word × Word)} (h : ∀ c ∈ changes, c.2.2 = g.word c.1) (r : Register) :
    (f.replace changes).word r = if ∃ c ∈ changes, c.1 = r then g.word r else f.word r := by
  induction changes generalizing f with
  | nil => simp [replace]
  | cons c changes ih =>
    obtain ⟨hc, h⟩ := List.forall_mem_cons.mp h
    change ((f.set c.1 c.2.2).replace changes).word r = _
    rw [ih h, word_set]
    by_cases hr : r = c.1
    · simp [hr, hc]
    · simp [hr, Ne.symm hr]

theorem changed_eq_nil_iff : f.changed g = [] ↔ ∀ r ∈ general, f.word r = g.word r := by
  refine ⟨?_, ?_⟩
  · intro h r hr
    by_contra hne
    have hmem := mem_changed.mpr ⟨hr, rfl, rfl, hne⟩
    rw [h] at hmem
    cases hmem
  · intro h
    refine List.eq_nil_iff_forall_not_mem.mpr ?_
    rintro ⟨r, x, y⟩ hmem
    obtain ⟨hr, rfl, rfl, hne⟩ := mem_changed.mp hmem
    exact hne (h r hr)

theorem word_replace_changed (f g : File) {r : Register} (hr : r ∈ general) :
    (f.replace (f.changed g)).word r = g.word r := by
  have hchanges : ∀ c ∈ f.changed g, c.2.2 = g.word c.1 := by
    rintro ⟨s, x, y⟩ hmem
    exact (mem_changed.mp hmem).2.2.1
  rw [word_replace hchanges]
  split
  · rfl
  · next hnone =>
    by_contra hne
    exact hnone ⟨(r, f.word r, g.word r), mem_changed.mpr ⟨hr, rfl, rfl, hne⟩, rfl⟩

/-- Equal texts, equal summaries and the changes each tell what two files have in common. The changes are those of the
registers that differ, in storage order, so none is there twice. -/
theorem reports_determine (f g : File) :
    (f.text = g.text ↔ f.Agree g) ∧
    (f.summary = g.summary ↔ f.Agree g ∧ (f.word flags = 0 ↔ g.word flags = 0)) ∧
    (∀ r x y, (r, x, y) ∈ f.changed g ↔ r ∈ general ∧ x = f.word r ∧ y = g.word r ∧ x ≠ y) ∧
    ((f.changed g).Pairwise fun c d => c.1.index < d.1.index) ∧
    (f.changed g = [] ↔ ∀ r ∈ general, f.word r = g.word r) ∧
    ∀ r ∈ general, (f.replace (f.changed g)).word r = g.word r :=
  ⟨text_eq_iff, summary_eq_iff, fun _ _ _ => mem_changed, pairwise_changed f g, changed_eq_nil_iff,
    fun _ hr => word_replace_changed f g hr⟩

/-- A bit of FLAGS that is no flag shows in the summary and not in the text. -/
theorem reports_determine_of_reserved_bit :
    zero.text = (zero.set flags 2).text ∧ zero.summary ≠ (zero.set flags 2).summary ∧ ip ∈ general ∧
      (zero.replace (zero.changed (zero.set ip 3))).word ip = 3 := by
  have hagree : zero.Agree (zero.set flags 2) := by
    refine ⟨by decide, ?_⟩
    intro flag
    cases flag <;> decide
  refine ⟨(reports_determine _ _).1.mpr hagree, ?_, by decide, ?_⟩
  · intro h
    have hzero := ((reports_determine _ _).2.1.mp h).2
    revert hzero
    decide
  · exact (reports_determine zero (zero.set ip 3)).2.2.2.2.2 ip (by decide)

end File

end Register

end I8086
