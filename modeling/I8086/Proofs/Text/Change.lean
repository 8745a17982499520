import I8086.Proofs.Text.Line
import I8086.Proofs.Text.Instruction
import I8086.Simulator.Run

/-!
# What the text of a step says

Behind the instruction the text has one entry for each register that has changed, FLAGS by its letters. So the text and
the registers before the step tell the registers after it (`after_of_text_eq`).
-/

namespace I8086

open Text

/-! ## Words by the text that a change shows -/

theorem Flag.letters_inj {x y : Word} (h : letters x = letters y) (f : Flag) : isSet x f = isSet y f := by
  have hletter : Function.Injective letter := by intro f g; cases f <;> cases g <;> simp [letter]
  have hfilter : all.filter (isSet x) = all.filter (isSet y) := hletter.list_map (String.ofList_injective h)
  have hall : f ∈ all := by cases f <;> decide
  have hmem : f ∈ all.filter (isSet x) ↔ f ∈ all.filter (isSet y) := by rw [hfilter]
  simpa [hall] using hmem

namespace Register

theorem mem_all (r : Register) : r ∈ all := by cases r <;> decide

theorem name_inj {r s : Register} (h : r.name = s.name) : r = s := by
  have hview : (View.whole r).name = (View.whole s).name := h
  exact congrArg View.register (View.name_inj hview)

def shown : Register → Word → String
  | flags, w => Flag.letters w
  | _, w => "0x" ++ hex 1 w.toNat

theorem shown_of_mem_general {r : Register} (h : r ∈ general) (w : Word) : r.shown w = "0x" ++ hex 1 w.toNat := by
  cases r
  case flags => exact absurd h (by decide)
  all_goals rfl

theorem shown_inj {r : Register} (hr : r ∈ general) {x y : Word} (h : r.shown x = r.shown y) : x = y := by
  rw [shown_of_mem_general hr, shown_of_mem_general hr, String.append_right_inj] at h
  exact BitVec.eq_of_toNat_eq (hex_inj h)

def shownChars : List Char := hexDigits ++ ['x', 'C', 'P', 'A', 'Z', 'S', 'O']

theorem not_mem_shown {c : Char} (hc : c ∉ shownChars) (r : Register) (w : Word) : c ∉ (r.shown w).toList := by
  obtain ⟨hhex, hmark⟩ := not_or.mp (mt List.mem_append.mpr hc)
  by_cases hr : r ∈ general
  · rw [shown_of_mem_general hr]
    apply not_mem_append
    · rintro h
      rcases List.mem_pair.mp h with rfl | rfl
      · exact hhex (by decide)
      · exact hmark (by decide)
    · exact fun h => hhex (mem_hexDigits_of_mem_hex h)
  · cases r
    case flags =>
      intro h
      obtain ⟨f, _, rfl⟩ := List.mem_map.mp (String.toList_ofList ▸ h)
      revert hmark
      cases f <;> decide
    all_goals exact absurd (by decide) hr

end Register

/-! ## Entries -/

namespace Step

def entry (r : Register) (x y : Word) : String := r.name ++ ":" ++ r.shown x ++ "->" ++ r.shown y

def entries (s : Step) : List String :=
  (Register.all.filter fun r => s.before.word r != s.after.word r).map fun r =>
    entry r (s.before.word r) (s.after.word r)

theorem changeText_eq {r : Register} (h : r ∈ Register.general) (x y : Word) :
    changeText (r, x, y) = " " ++ entry r x y := by
  simp only [changeText, entry, Register.shown_of_mem_general h]
  apply String.toList_inj.mp
  simp

theorem flagsText_eq (x y : Word) : flagsText x y = if x = y then "" else " " ++ entry .flags x y := by
  unfold flagsText
  split
  · rfl
  · apply String.toList_inj.mp
    simp [entry, Register.shown, Register.name]

theorem text_eq (s : Step) : s.text =
    padRight 20 s.instruction.text ++ " ;" ++ String.join (s.entries.map (" " ++ ·)) := by
  have hgeneral : (s.before.changed s.after).map changeText =
      (Register.general.filter fun r => s.before.word r != s.after.word r).map fun r =>
        " " ++ entry r (s.before.word r) (s.after.word r) := by
    rw [Register.File.changed, List.filter_map, List.map_map]
    apply List.map_congr_left
    intro r hr
    exact changeText_eq (List.mem_filter.mp hr).1 _ _
  rw [text, hgeneral, flagsText_eq, entries, Register.all, List.filter_append, List.map_append, List.map_append,
    String.join_append, List.map_map]
  by_cases h : s.before.word .flags = s.after.word .flags
  · simp [h, Function.comp_def]
  · simp [h, Function.comp_def, String.append_assoc]

theorem not_mem_entry {c : Char} {r : Register} (hname : c ∉ r.name.toList) (hmark : c ≠ ':' ∧ c ≠ '-' ∧ c ≠ '>')
    (hshown : c ∉ Register.shownChars) (x y : Word) : c ∉ (entry r x y).toList := by
  have hcolon : c ∉ ":".toList := by simp [hmark.1]
  have harrow : c ∉ "->".toList := by simp [hmark.2]
  have hword (w : Word) : c ∉ (r.shown w).toList := Register.not_mem_shown hshown r w
  exact not_mem_append (not_mem_append (not_mem_append (not_mem_append hname hcolon) (hword x)) harrow) (hword y)

theorem not_mem_entries {c : Char} (s : Step) (hmark : c ≠ ':' ∧ c ≠ '-' ∧ c ≠ '>') (hshown : c ∉ Register.shownChars)
    (hname : ∀ r : Register, s.before.word r ≠ s.after.word r → c ∉ r.name.toList) : ∀ e ∈ s.entries, c ∉ e.toList := by
  intro e he
  obtain ⟨r, hr, rfl⟩ := List.mem_map.mp he
  have hchanged := bne_iff_ne.mp (List.mem_filter.mp hr).2
  exact not_mem_entry (hname r hchanged) hmark hshown _ _

theorem entry_inj {r r' : Register} {x x' y y' : Word} (h : entry r x y = entry r' x' y') :
    r = r' ∧ r.shown x = r'.shown x' ∧ r.shown y = r'.shown y' := by
  have hcolon (r : Register) : ':' ∉ r.name.toList := by cases r <;> decide
  have hminus (r : Register) (w : Word) : '-' ∉ (r.shown w).toList := Register.not_mem_shown (by decide) r w
  have hentry (r : Register) (x y : Word) :
      entry r x y = r.name ++ ":" ++ (r.shown x ++ "->" ++ r.shown y) := by
    simp only [entry, String.append_assoc]
  rw [hentry, hentry] at h
  obtain ⟨hname, hshown⟩ := append_inj_of_not_mem [] (hcolon r) (hcolon r') h
  obtain ⟨hx, hy⟩ := append_inj_of_not_mem ['>'] (hminus r x) (hminus r' x') hshown
  exact ⟨Register.name_inj hname, hx, hy⟩

/-! ## What the text tells -/

variable {s t : Step}

theorem column_line (s : Step) : column s.line = s.instruction.text := by
  rw [line, text_eq, String.append_assoc, Text.column_line s.instruction.clean_text]

theorem instruction_of_text_eq (h : s.text = t.text) : s.instruction.text = t.instruction.text := by
  rw [← s.column_line, ← t.column_line, line, line, h]

theorem entries_of_text_eq (h : s.text = t.text) : s.entries = t.entries := by
  have hi := instruction_of_text_eq h
  have hblank (s : Step) : ∀ e ∈ s.entries, ' ' ∉ e.toList :=
    s.not_mem_entries (by decide) (by decide) fun r _ => by cases r <;> decide
  have hparts (s : Step) : parts ' ' ("" ++ String.join (s.entries.map (" " ++ ·))) = "" :: s.entries :=
    parts_append_join List.not_mem_nil (hblank s)
  rw [text_eq, text_eq, hi, String.append_right_inj] at h
  rw [← List.cons_inj_right "", ← hparts, ← hparts, h]

theorem shown_after_of_ne (h : s.entries = t.entries) {r : Register}
    (hr : s.before.word r ≠ s.after.word r) : r.shown (s.after.word r) = r.shown (t.after.word r) := by
  have hs : entry r (s.before.word r) (s.after.word r) ∈ s.entries := by
    apply List.mem_map_of_mem
    exact List.mem_filter.mpr ⟨r.mem_all, bne_iff_ne.mpr hr⟩
  rw [h] at hs
  obtain ⟨r', _, hentry⟩ := List.mem_map.mp hs
  obtain ⟨rfl, _, hafter⟩ := entry_inj hentry
  exact hafter.symm

theorem shown_after_of_entries_eq (hb : s.before = t.before) (h : s.entries = t.entries) (r : Register) :
    r.shown (s.after.word r) = r.shown (t.after.word r) := by
  -- A register without an entry is as before, and before the step it is the same in both.
  by_cases hs : s.before.word r = s.after.word r
  · by_cases ht : t.before.word r = t.after.word r
    · rw [← hs, ← ht, hb]
    · exact (shown_after_of_ne h.symm ht).symm
  · exact shown_after_of_ne h hs

theorem after_of_text_eq (hb : s.before = t.before) (h : s.text = t.text) :
    (∀ r ∈ Register.general, s.after.word r = t.after.word r) ∧
      ∀ f : Flag, f.isSet (s.after.word .flags) = f.isSet (t.after.word .flags) := by
  have hshown := shown_after_of_entries_eq hb (entries_of_text_eq h)
  exact ⟨fun r hr => Register.shown_inj hr (hshown r), Flag.letters_inj (hshown .flags)⟩

/-! ## Characters that the text does not have -/

theorem not_mem_text {c : Char} (hi : c ∉ s.instruction.text.toList) (hmark : c ≠ ' ' ∧ c ≠ ';')
    (h : ∀ e ∈ s.entries, c ∉ e.toList) : c ∉ s.text.toList := by
  have hspaces (n : Nat) : c ∉ (spaces n).toList := by simp [spaces, hmark.1]
  have hentries : c ∉ (String.join (s.entries.map (" " ++ ·))).toList := by
    rw [String.toList_join, List.mem_flatMap]
    rintro ⟨_, hmem, hc⟩
    obtain ⟨e, he, rfl⟩ := List.mem_map.mp hmem
    exact not_mem_append (by simp [hmark.1]) (h e he) hc
  rw [text_eq]
  exact not_mem_append (not_mem_append (not_mem_append hi (hspaces _)) (by simp [hmark])) hentries

theorem lineEnd_not_mem_text (s : Step) : '\n' ∉ s.text.toList := by
  apply not_mem_text (fun hc => (s.instruction.clean_text.plain _ hc).2 rfl) (by decide)
  apply s.not_mem_entries (by decide) (by decide)
  intro r _
  cases r <;> decide

/-! ## The flags -/

def ShowsFlags (s : Step) : Prop := " flags:".toList <:+: s.text.toList

theorem text_of_flags_ne (h : s.before.word .flags ≠ s.after.word .flags) : ∃ front, s.text =
    front ++ " flags:" ++ Flag.letters (s.before.word .flags) ++ "->" ++ Flag.letters (s.after.word .flags) := by
  refine ⟨padRight 20 s.instruction.text ++ " ;" ++ String.join ((s.before.changed s.after).map changeText), ?_⟩
  rw [text, flagsText, if_neg h]
  simp only [String.append_assoc]

theorem showsFlags_iff (hi : 'g' ∉ s.instruction.text.toList) :
    s.ShowsFlags ↔ s.before.word .flags ≠ s.after.word .flags := by
  refine ⟨?_, ?_⟩
  · intro hshows heq
    -- Of all that can stand on the line only the name of FLAGS has a g in it.
    have hg : 'g' ∈ s.text.toList := hshows.mem (by decide)
    refine not_mem_text hi (by decide) (s.not_mem_entries (by decide) (by decide) ?_) hg
    intro r hr
    cases r
    case flags => exact absurd heq hr
    all_goals decide
  · intro hne
    obtain ⟨front, htext⟩ := text_of_flags_ne hne
    simp only [ShowsFlags, htext, String.toList_append, List.append_assoc]
    exact ⟨_, _, List.append_assoc ..⟩

end Step

end I8086
