import I8086.Proofs.Encoding.Table

/-!
# Fetching bytes and words

Bytes and words can be fetched in any order, from any start, and on behind a fetch that failed. Put together, what was
fetched is the slice of the program between the start and the place that was reached (`fetched_is_slice`).
-/

namespace I8086.Reader

def fetch : (w : Width) → EStateM Error Reader (BitVec w.bits)
  | .byte => byte
  | .word => word

def Inside (r : Reader) (w : Width) : Prop := ∀ i < w.size, r.start + r.consumed + i < r.program.size

/-! ## One fetch -/

section
variable {r : Reader} {w : Width}

theorem inside_iff : r.Inside w ↔ r.start + r.consumed + w.size ≤ r.program.size := by
  constructor
  · intro h
    cases w with
    | byte => exact h 0 (by decide)
    | word => exact h 1 (by decide)
  · intro h i hi
    omega

instance (r : Reader) (w : Width) : Decidable (r.Inside w) := decidable_of_iff _ inside_iff.symm

theorem Inside.le_length_rest (h : r.Inside w) : w.size ≤ r.rest.length := by
  have hend := inside_iff.mp h
  rw [rest, List.length_drop, Array.length_toList]
  omega

theorem reads_fetch (w : Width) (v : BitVec w.bits) : Reads (fetch w) (w.littleEndian v) v := by
  cases w with
  | byte => exact reads_byte v
  | word => exact reads_word v

theorem fetch_of_inside (h : r.Inside w) :
    ∃ v, fetch w r = .ok v (r.skip w.size) ∧ w.littleEndian v = r.rest.take w.size := by
  have hlength := List.length_take_of_le h.le_length_rest
  obtain ⟨v, hv⟩ := w.exists_littleEndian _ hlength
  have hfetch := reads_fetch w v r (hv ▸ List.take_prefix _ _)
  rw [hv, hlength] at hfetch
  exact ⟨v, hfetch, hv⟩

theorem fetch_of_not_inside (h : ¬r.Inside w) : fetch w r = .error (r.truncated w.size) r := by
  rw [inside_iff] at h
  cases w with
  | byte => exact byte_of_le (Nat.le_of_not_lt h)
  | word => exact word_of_le (Nat.le_of_not_lt h)

inductive FetchCase (r : Reader) (w : Width) : EStateM.Result Error Reader (BitVec w.bits) → Prop
  | taken {v : BitVec w.bits} (inside : r.Inside w) (bytes : w.littleEndian v = r.rest.take w.size) :
    FetchCase r w (.ok v (r.skip w.size))
  | refused (outside : ¬r.Inside w) : FetchCase r w (.error (r.truncated w.size) r)

theorem fetch_cases (r : Reader) (w : Width) : FetchCase r w (fetch w r) := by
  by_cases h : r.Inside w
  · obtain ⟨v, hfetch, hv⟩ := fetch_of_inside h
    rw [hfetch]
    exact .taken h hv
  · rw [fetch_of_not_inside h]
    exact .refused h

theorem exists_fetch_iff : (∃ v t, fetch w r = .ok v t) ↔ r.Inside w := by
  constructor
  · rintro ⟨v, t, h⟩
    have hcase := fetch_cases r w
    rw [h] at hcase
    cases hcase with
    | taken inside bytes => exact inside
  · intro h
    obtain ⟨v, hfetch, _⟩ := fetch_of_inside h
    exact ⟨v, _, hfetch⟩

theorem of_fetch_eq_ok {v : BitVec w.bits} {t : Reader} (h : fetch w r = .ok v t) :
    t = r.skip w.size ∧ w.littleEndian v = r.rest.take w.size := by
  have hcase := fetch_cases r w
  rw [h] at hcase
  cases hcase with
  | taken inside bytes => exact ⟨rfl, bytes⟩

theorem of_fetch_eq_error {e : Error} {t : Reader} (h : fetch w r = .error e t) : t = r ∧ e = r.truncated w.size := by
  have hcase := fetch_cases r w
  rw [h] at hcase
  cases hcase with
  | refused outside => exact ⟨rfl, rfl⟩

theorem fetch_of_last (h : r.start + r.consumed + 1 = r.program.size) :
    ¬r.Inside .word ∧ ∃ b, r.program.back? = some b ∧ fetch .byte r = .ok b (r.skip 1) := by
  have hlt : r.start + r.consumed < r.program.size := by omega
  have hb := Array.getElem?_eq_getElem hlt
  constructor
  · rw [inside_iff, ← h, Width.size]
    omega
  · refine ⟨r.program[r.start + r.consumed], ?_, ?_⟩
    · rw [Array.back?_eq_getElem?, ← h, Nat.add_sub_cancel, hb]
    · simp only [fetch, byte, hb]
      rfl

end

/-! ## Sequences of fetches, the newest first -/

structure Fetched where
  width : Width
  value : BitVec width.bits
  deriving DecidableEq

def Fetched.bytes (f : Fetched) : List Byte := f.width.littleEndian f.value

section
variable (program : Array Byte) (start : Nat)

def after : List Width → Reader
  | [] => ofOffset program start
  | w :: earlier =>
    match fetch w (after earlier) with
    | .ok _ r | .error _ r => r

/-- What the fetches gave that did not fail, the oldest first. -/
def fetched : List Width → List Fetched
  | [] => []
  | w :: earlier =>
    match fetch w (after program start earlier) with
    | .ok v _ => fetched earlier ++ [⟨w, v⟩]
    | .error _ _ => fetched earlier

def content (history : List Width) : List Byte := (fetched program start history).flatMap Fetched.bytes

section
variable {program start} {w : Width} {earlier : List Width}

theorem after_of_inside (h : (after program start earlier).Inside w) :
    after program start (w :: earlier) = (after program start earlier).skip w.size ∧
      content program start (w :: earlier) =
        content program start earlier ++ (after program start earlier).rest.take w.size := by
  obtain ⟨v, hfetch, hv⟩ := fetch_of_inside h
  simp only [after, content, fetched, hfetch, List.flatMap_append, List.flatMap_singleton, Fetched.bytes, hv, and_self]

theorem after_of_not_inside (h : ¬(after program start earlier).Inside w) :
    after program start (w :: earlier) = after program start earlier ∧
      content program start (w :: earlier) = content program start earlier := by
  simp only [after, content, fetched, fetch_of_not_inside h, and_self]

end

theorem content_append_rest (history : List Width) :
    content program start history ++ (after program start history).rest = program.toList.drop start := by
  induction history with
  | nil => rfl
  | cons w earlier ih =>
    by_cases h : (after program start earlier).Inside w
    · obtain ⟨hafter, hcontent⟩ := after_of_inside h
      rw [hafter, hcontent, rest_skip, List.append_assoc, List.take_append_drop, ih]
    · obtain ⟨hafter, hcontent⟩ := after_of_not_inside h
      rw [hafter, hcontent, ih]

theorem after_eq (history : List Width) :
    after program start history = ⟨program, start, (content program start history).length⟩ := by
  induction history with
  | nil => rfl
  | cons w earlier ih =>
    by_cases h : (after program start earlier).Inside w
    · obtain ⟨hafter, hcontent⟩ := after_of_inside h
      rw [hafter, hcontent, List.length_append, List.length_take_of_le h.le_length_rest, skip, ih]
    · obtain ⟨hafter, hcontent⟩ := after_of_not_inside h
      rw [hafter, hcontent, ih]

/-- Whatever was fetched before, what all the fetches gave is the slice from the start to the place that was reached. The
next one succeeds exactly where its bytes are in the program, and gives these; where it fails, nothing is taken. -/
theorem fetched_is_slice (history : List Width) (w : Width) :
    let r := after program start history
    (r = ⟨program, start, (content program start history).length⟩ ∧
      content program start history = (program.extract start (start + r.consumed)).toList) ∧
    ((∃ v t, fetch w r = .ok v t) ↔ r.Inside w) ∧
    (∀ v t, fetch w r = .ok v t → t = { r with consumed := r.consumed + w.size } ∧
      w.littleEndian v = (program.extract (start + r.consumed) (start + t.consumed)).toList) ∧
    (∀ e t, fetch w r = .error e t →
      t = r ∧ e = .truncated start (r.consumed + w.size) (program.size - start)) ∧
    (start + r.consumed + 1 = program.size → (∃ e, fetch .word r = .error e r) ∧
      ∃ b t, program.back? = some b ∧ fetch .byte (after program start (.word :: history)) = .ok b t) := by
  intro r
  have hr := after_eq program start history
  have hprogram : r.program = program := congrArg Reader.program hr
  have hstart : r.start = start := congrArg Reader.start hr
  have hconsumed : r.consumed = (content program start history).length := congrArg Reader.consumed hr
  have hslice (i n : Nat) : (program.extract i (i + n)).toList = (program.toList.drop i).take n := by simp
  refine ⟨⟨hr, ?_⟩, exists_fetch_iff, ?_, ?_, ?_⟩
  · rw [hslice, hconsumed, ← content_append_rest program start history, List.take_left]
  · intro v t hfetch
    obtain ⟨rfl, hv⟩ := of_fetch_eq_ok hfetch
    refine ⟨rfl, ?_⟩
    rw [hv, rest, hprogram, hstart, ← hslice, skip, Nat.add_assoc]
  · intro e t hfetch
    obtain ⟨rfl, rfl⟩ := of_fetch_eq_error hfetch
    rw [truncated, hprogram, hstart]
    exact ⟨rfl, rfl⟩
  · intro hlast
    rw [← hprogram, ← hstart] at hlast
    obtain ⟨hword, b, hback, hbyte⟩ := fetch_of_last hlast
    have hafter : after program start (.word :: history) = r := (after_of_not_inside hword).1
    exact ⟨⟨_, fetch_of_not_inside hword⟩, b, r.skip 1, hprogram ▸ hback, hafter ▸ hbyte⟩

theorem fetched_is_slice_at_cut_word :
    let program : Array Byte := #[0x90, 0x11, 0x22, 0x33]
    let r := after program 1 [.word]
    (∃ v t, fetch .word (after program 1 []) = .ok v t ∧ Width.word.littleEndian v = [0x11, 0x22]) ∧
      content program 1 [.word] = [0x11, 0x22] ∧ fetch .word r = .error (.truncated 1 4 3) r ∧
      (∃ t, fetch .byte (after program 1 [.word, .word]) = .ok 0x33 t) ∧
      ¬∃ v t, fetch .byte (after program 9 [.word]) = .ok v t := by
  intro program r
  obtain ⟨_, hinside, hword, _⟩ := fetched_is_slice program 1 [] .word
  obtain ⟨⟨_, hcontent⟩, _, _, hcut, hlast⟩ := fetched_is_slice program 1 [.word] .word
  obtain ⟨_, hpast, _⟩ := fetched_is_slice program 9 [.word] .byte
  obtain ⟨v, t, hfirst⟩ := hinside.mpr (by decide)
  obtain ⟨rfl, hv⟩ := hword v t hfirst
  obtain ⟨⟨e, he⟩, b, t, hback, hbyte⟩ := hlast rfl
  obtain ⟨_, rfl⟩ := hcut e r he
  cases hback
  exact ⟨⟨v, _, hfirst, hv⟩, hcontent, he, ⟨t, hbyte⟩, fun h => absurd (hpast.mp h) (by decide)⟩

end

end I8086.Reader
