import I8086.Register

/-! # Registers as pairs of bytes -/

namespace I8086

/-! ## Registers and halves that a write leaves alone -/

namespace Register.File

theorem word_setLow_of_ne (f : File) {r s : Register} (b : Byte) (h : s ≠ r) : (f.setLow r b).word s = f.word s := by
  rw [setLow, word_set, if_neg h]

theorem word_setHigh_of_ne (f : File) {r s : Register} (b : Byte) (h : s ≠ r) : (f.setHigh r b).word s = f.word s := by
  rw [setHigh, word_set, if_neg h]

@[simp] theorem high_setLow (f : File) (r : Register) (b : Byte) : (f.setLow r b).high r = f.high r := by
  rw [high, setLow, word_set, if_pos rfl, Word.high_ofBytes]

@[simp] theorem low_setHigh (f : File) (r : Register) (b : Byte) : (f.setHigh r b).low r = f.low r := by
  rw [low, setHigh, word_set, if_pos rfl, Word.low_ofBytes]

theorem word_write_of_ne (f : File) {v : View} {r : Register} (w : Word) (h : r ≠ v.register) :
    (f.write v w).word r = f.word r := by
  unfold write
  split
  · rw [word_set, if_neg h]
  · exact f.word_setLow_of_ne _ h
  · exact f.word_setHigh_of_ne _ h

@[simp] theorem word_modify (f : File) (r s : Register) (g : Word → Word) :
    (f.modify r g).word s = if s = r then g (f.word r) else f.word s := by
  rw [modify, word_set]

end Register.File

/-!
## Register files as pairs of bytes

Behind any sequence of calls a register file holds, in each half of each register, the byte that was written there last,
and zero where none was. Calls that write apart from one another can change places (`after_is_pairs`).
-/

theorem Word.toNat_eq_low_add_high (w : Word) : w.toNat = w.low.toNat + 256 * w.high.toNat := by
  have hw := w.isLt
  have hlow : w.low.toNat = w.toNat % 2 ^ 8 := BitVec.toNat_setWidth 8 w
  have hhigh : w.high.toNat = w.toNat / 2 ^ 8 % 2 ^ 8 := by
    rw [high, BitVec.toNat_setWidth, BitVec.toNat_ushiftRight, Nat.shiftRight_eq_div_pow]
  omega

theorem Byte.toNat_zeroExtend (b : Byte) : b.zeroExtend.toNat = b.toNat :=
  BitVec.toNat_setWidth_of_le (by decide)

namespace Register

inductive Half
  | low | high
  deriving DecidableEq

namespace Half

def of (w : Word) : Half → Byte
  | low => w.low
  | high => w.high

end Half

def Part.halves : Part → List Half
  | whole => [.low, .high]
  | low => [.low]
  | high => [.high]

theorem Part.not_mem_high {h : Half} (hlow : h ∈ low.halves) : h ∉ high.halves := by
  cases List.mem_singleton.mp hlow
  decide

namespace View

def Shows (v : View) (r : Register) (h : Half) : Prop := r = v.register ∧ h ∈ v.part.halves

instance (v : View) (r : Register) (h : Half) : Decidable (v.Shows r h) := inferInstanceAs (Decidable (_ ∧ _))

/-- Views of two registers, or of the two halves of one. -/
def Apart (v w : View) : Prop :=
  v.register ≠ w.register ∨ v.part = .low ∧ w.part = .high ∨ v.part = .high ∧ w.part = .low

def number (v : View) (bytes : Half → Byte) : Nat :=
  match v.part with
  | .whole => (bytes .low).toNat + 256 * (bytes .high).toNat
  | .low => (bytes .low).toNat
  | .high => (bytes .high).toNat

@[simp] theorem shows_whole {r s : Register} {h : Half} : (⟨r, .whole⟩ : View).Shows s h ↔ s = r := by
  cases h <;> simp [Shows, Part.halves]

@[simp] theorem shows_low {r s : Register} {h : Half} : (⟨r, .low⟩ : View).Shows s h ↔ s = r ∧ h = .low := by
  simp [Shows, Part.halves]

@[simp] theorem shows_high {r s : Register} {h : Half} : (⟨r, .high⟩ : View).Shows s h ↔ s = r ∧ h = .high := by
  simp [Shows, Part.halves]

theorem Apart.symm {v w : View} (h : v.Apart w) : w.Apart v := by
  rcases h with hne | ⟨hv, hw⟩ | ⟨hv, hw⟩
  · exact .inl hne.symm
  · exact .inr (.inr ⟨hw, hv⟩)
  · exact .inr (.inl ⟨hw, hv⟩)

theorem Apart.not_shows {v w : View} (h : v.Apart w) {r : Register} {a : Half} (hv : v.Shows r a) : ¬w.Shows r a := by
  intro hw
  rcases h with hne | ⟨hpv, hpw⟩ | ⟨hpv, hpw⟩
  · exact hne (hv.1.symm.trans hw.1)
  · exact Part.not_mem_high (hpv ▸ hv.2) (hpw ▸ hw.2)
  · exact Part.not_mem_high (hpw ▸ hw.2) (hpv ▸ hv.2)

end View

namespace File

def byte (f : File) (r : Register) : Half → Byte
  | .low => f.low r
  | .high => f.high r

inductive Call
  | set (r : Register) (w : Word)
  | setLow (r : Register) (b : Byte)
  | setHigh (r : Register) (b : Byte)
  | write (v : View) (w : Word)
  | modify (r : Register) (g : Word → Word)

namespace Call

def run (f : File) : Call → File
  | set r w => f.set r w
  | setLow r b => f.setLow r b
  | setHigh r b => f.setHigh r b
  | write v w => f.write v w
  | modify r g => f.modify r g

def view : Call → View
  | set r _ | modify r _ => .whole r
  | setLow r _ => ⟨r, .low⟩
  | setHigh r _ => ⟨r, .high⟩
  | write v _ => v

def byte (old : Half → Byte) (h : Half) : Call → Byte
  | set _ w => h.of w
  | setLow _ b | setHigh _ b => b
  | write v w => if v.part = .whole then h.of w else w.low
  | modify _ g => h.of (g (.ofBytes (old .low) (old .high)))

end Call

/-! ### One call -/

theorem word_eq_ofBytes (f : File) (r : Register) : f.word r = .ofBytes (f.byte r .low) (f.byte r .high) :=
  (Word.ofBytes_low_high _).symm

theorem ext_byte {f g : File} (h : ∀ r a, f.byte r a = g.byte r a) : f = g := by
  refine ext_word fun r => ?_
  rw [word_eq_ofBytes, word_eq_ofBytes, h, h]

theorem byte_set (f : File) (r s : Register) (w : Word) (h : Half) :
    (f.set r w).byte s h = if s = r then h.of w else f.byte s h := by
  cases h <;> simp only [byte, low, high, Half.of, word_set] <;> split <;> rfl

theorem byte_setLow (f : File) (r s : Register) (b : Byte) (h : Half) :
    (f.setLow r b).byte s h = if s = r ∧ h = .low then b else f.byte s h := by
  rw [setLow, byte_set]
  by_cases hs : s = r
  · subst hs
    cases h <;> simp [Half.of, byte]
  · simp [hs]

theorem byte_setHigh (f : File) (r s : Register) (b : Byte) (h : Half) :
    (f.setHigh r b).byte s h = if s = r ∧ h = .high then b else f.byte s h := by
  rw [setHigh, byte_set]
  by_cases hs : s = r
  · subst hs
    cases h <;> simp [Half.of, byte]
  · simp [hs]

theorem byte_run (f : File) (c : Call) (r : Register) (h : Half) :
    (c.run f).byte r h = if c.view.Shows r h then c.byte (f.byte r) h else f.byte r h := by
  cases c with
  | set s w => simp [Call.run, Call.view, Call.byte, View.whole, byte_set]
  | setLow s b => simp [Call.run, Call.view, Call.byte, byte_setLow]
  | setHigh s b => simp [Call.run, Call.view, Call.byte, byte_setHigh]
  | write v w =>
    rcases v with ⟨s, _ | _ | _⟩
    · simp [Call.run, Call.view, Call.byte, write, byte_set]
    · simp [Call.run, Call.view, Call.byte, write, byte_setLow]
    · simp [Call.run, Call.view, Call.byte, write, byte_setHigh]
  | modify s g =>
    simp only [Call.run, Call.view, Call.byte, View.whole, modify, byte_set, View.shows_whole]
    by_cases hr : r = s
    · rw [if_pos hr, if_pos hr, hr, ← word_eq_ofBytes]
    · rw [if_neg hr, if_neg hr]

theorem Call.byte_congr (c : Call) {old new : Half → Byte} {r : Register} {h : Half} (hc : c.view.Shows r h)
    (heq : ∀ a, c.view.Shows r a → old a = new a) : c.byte old h = c.byte new h := by
  cases c with
  | set s w | setLow s b | setHigh s b | write v w => rfl
  | modify s g =>
    have hr : r = s := hc.1
    rw [byte, byte, heq .low (View.shows_whole.mpr hr), heq .high (View.shows_whole.mpr hr)]

theorem byte_run_run_of_shows (f : File) {c d : Call} {r : Register} {h : Half} (hapart : c.view.Apart d.view)
    (hc : c.view.Shows r h) : (d.run (c.run f)).byte r h = (c.run (d.run f)).byte r h := by
  rw [byte_run, if_neg (hapart.not_shows hc), byte_run, byte_run, if_pos hc, if_pos hc]
  refine c.byte_congr hc fun a ha => ?_
  rw [byte_run, if_neg (hapart.not_shows ha)]

theorem run_comm (f : File) {c d : Call} (hapart : c.view.Apart d.view) : d.run (c.run f) = c.run (d.run f) := by
  refine ext_byte fun r h => ?_
  by_cases hc : c.view.Shows r h
  · exact f.byte_run_run_of_shows hapart hc
  by_cases hd : d.view.Shows r h
  · exact (f.byte_run_run_of_shows hapart.symm hd).symm
  · simp only [byte_run, if_neg hc, if_neg hd]

/-! ### Sequences of calls, the newest first -/

def after : List Call → File
  | [] => zero
  | c :: earlier => c.run (after earlier)

/-- The byte that was written last to a half of a register. -/
def lastByte : List Call → Register → Half → Byte
  | [], _, _ => 0
  | c :: earlier, r, h => if c.view.Shows r h then c.byte (lastByte earlier r) h else lastByte earlier r h

theorem byte_after (history : List Call) (r : Register) : (after history).byte r = lastByte history r := by
  funext h
  induction history generalizing h with
  | nil => cases h <;> simp [after, byte, low, high, lastByte, Word.low, Word.high]
  | cons c earlier ih => rw [after, byte_run, funext ih, lastByte]

theorem toNat_read (f : File) (v : View) : (f.read v).toNat = v.number (f.byte v.register) := by
  rcases v with ⟨r, _ | _ | _⟩
  · exact Word.toNat_eq_low_add_high _
  · exact Byte.toNat_zeroExtend _
  · exact Byte.toNat_zeroExtend _

/-- Whatever calls lie behind, each half of each register is the byte written last, and every view shows just these
bytes. A call changes the halves that it writes and no others, and calls that write apart can change places. -/
theorem after_is_pairs (history : List Call) :
    (∀ r, (after history).low r = lastByte history r .low ∧ (after history).high r = lastByte history r .high ∧
      ((after history).word r).toNat = ((after history).low r).toNat + 256 * ((after history).high r).toNat) ∧
    (∀ v : View, ((after history).read v).toNat = v.number (lastByte history v.register)) ∧
    (∀ (f : File) (c : Call) r h,
      (c.run f).byte r h = if c.view.Shows r h then c.byte (f.byte r) h else f.byte r h) ∧
    ∀ (f : File) (c d : Call), c.view.Apart d.view → d.run (c.run f) = c.run (d.run f) := by
  refine ⟨fun r => ⟨?_, ?_, Word.toNat_eq_low_add_high _⟩, fun v => ?_, byte_run, fun f c d => f.run_comm⟩
  · rw [← byte_after, byte]
  · rw [← byte_after, byte]
  · rw [toNat_read, byte_after]

theorem after_is_pairs_of_halves :
    let history := [Call.setHigh .ax 0x12, .write ⟨.ax, .low⟩ 0xFF34, .set .ax 0xFFFF]
    ((after history).read (.whole .ax)).toNat = 0x1234 ∧ ∀ f : File,
      (Call.setHigh .ax 0x12).run ((Call.setLow .ax 0x34).run f) =
        (Call.setLow .ax 0x34).run ((Call.setHigh .ax 0x12).run f) := by
  intro history
  obtain ⟨_, hread, _, hcomm⟩ := after_is_pairs history
  exact ⟨(hread (.whole .ax)).trans (by decide), fun f => hcomm f _ _ (.inr (.inl ⟨rfl, rfl⟩))⟩

end File

end Register

end I8086
