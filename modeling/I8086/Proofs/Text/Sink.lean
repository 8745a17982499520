import I8086.Output

/-!
# Texts in a sink

A sink keeps the first bytes of all that is written to it, in one piece or in several.
-/

namespace I8086

theorem toUTF8_append (a b : String) : (a ++ b).toUTF8 = a.toUTF8 ++ b.toUTF8 := String.toByteArray_append

theorem utf8ByteSize_pos {text : String} (h : text ≠ "") : 0 < text.utf8ByteSize :=
  Nat.pos_of_ne_zero fun e => h (String.utf8ByteSize_eq_zero_iff.mp e)

namespace Sink

variable {s t : Sink} {a b : String}

def Fits (s : Sink) (text : String) : Prop := text.utf8ByteSize ≤ s.room

instance (s : Sink) (text : String) : Decidable (s.Fits text) := inferInstanceAs (Decidable (_ ≤ _))

def fill (s : Sink) (text : String) : Sink := { s with written := s.written ++ text.toUTF8.extract 0 s.room }

theorem extract_of_fits (h : s.Fits a) : a.toUTF8.extract 0 s.room = a.toUTF8 := by
  apply ByteArray.ext
  rw [ByteArray.data_extract]
  exact Array.extract_eq_self_of_le h

theorem fill_of_fits (h : s.Fits a) : s.fill a = { s with written := s.written ++ a.toUTF8 } := by
  rw [fill, extract_of_fits h]

theorem write_of_fits (h : s.Fits a) : write a s = .ok () (s.fill a) := by
  have hsize : a.toUTF8.size ≤ s.room := h
  rw [write, append, if_pos hsize, fill_of_fits h]

theorem write_of_not_fits (h : ¬s.Fits a) : write a s = .error .outputFull (s.fill a) := by
  have hsize : ¬a.toUTF8.size ≤ s.room := h
  rw [write, append, if_neg hsize]
  rfl

theorem room_fill (h : s.Fits a) : (s.fill a).room = s.room - a.utf8ByteSize := by
  have hsize : (s.written ++ a.toUTF8).size = s.written.size + a.utf8ByteSize := ByteArray.size_append
  rw [fill_of_fits h, room, hsize, ← Nat.sub_sub]
  rfl

theorem fits_append (h : s.Fits a) : s.Fits (a ++ b) ↔ (s.fill a).Fits b := by
  unfold Fits at h ⊢
  rw [room_fill h, String.utf8ByteSize_append]
  omega

theorem Fits.of_append (h : s.Fits (a ++ b)) : s.Fits a := by
  unfold Fits at h ⊢
  rw [String.utf8ByteSize_append] at h
  omega

theorem fill_append (h : s.Fits a) : s.fill (a ++ b) = (s.fill a).fill b := by
  have hextract : (a ++ b).toUTF8.extract 0 s.room = a.toUTF8 ++ b.toUTF8.extract 0 (s.fill a).room := by
    apply ByteArray.ext
    have ha : a.toUTF8.data.extract 0 s.room = a.toUTF8.data := Array.extract_eq_self_of_le h
    rw [room_fill h, toUTF8_append, ByteArray.data_extract, ByteArray.data_append, ByteArray.data_append,
      ByteArray.data_extract, Array.extract_append, ha, Nat.zero_sub]
    rfl
  rw [fill, fill, hextract, ← ByteArray.append_assoc, fill_of_fits h]

theorem fill_append_of_not_fits (h : ¬s.Fits a) : s.fill (a ++ b) = s.fill a := by
  have hroom : s.room ≤ a.toUTF8.data.size := Nat.le_of_lt (Nat.lt_of_not_le h)
  have hextract : (a ++ b).toUTF8.extract 0 s.room = a.toUTF8.extract 0 s.room := by
    apply ByteArray.ext
    rw [toUTF8_append, ByteArray.data_extract, ByteArray.data_append, ByteArray.data_extract, Array.extract_append,
      Nat.sub_eq_zero_of_le hroom, Array.extract_zero, Array.append_empty]
  rw [fill, fill, hextract]

theorem fill_empty : s.fill "" = s := by
  have hempty : ("" : String).toUTF8.extract 0 s.room = .empty := by
    apply ByteArray.ext
    rw [ByteArray.data_extract]
    exact Array.extract_empty ..
  rw [fill, hempty, ByteArray.append_empty]

theorem fits_empty : s.Fits "" := Nat.zero_le _

theorem fill_ofLimit (limit : Nat) (text : String) :
    (ofLimit limit).fill text = ⟨limit, text.toUTF8.extract 0 limit⟩ := by
  rw [fill, ofLimit, ByteArray.empty_append]
  rfl

theorem text_fill_ofLimit {limit : Nat} (h : (ofLimit limit).Fits a) : ((ofLimit limit).fill a).text = a := by
  rw [fill_of_fits h, text, ofLimit, ByteArray.empty_append, String.toUTF8_eq_toByteArray, String.fromUTF8?,
    dif_pos a.isValidUTF8]
  rfl

end Sink

end I8086
