import Std.Data.TreeMap.Lemmas
import I8086.Machine
import I8086.Error

/-! # Memory as a map -/

namespace I8086

/-!
## Bytes of memory

Of the bytes of memory a write changes those that it covers. Reads and writes succeed below the end of memory.
-/

namespace Memory

theorem byteAt_put (m : Memory) (a p : Fin size) (b : Byte) : (m.put a b).byteAt p = if p = a then b else m.byteAt p := by
  simp only [byteAt, put, Std.TreeMap.getD_insert, Std.LawfulEqCmp.compare_eq_iff_eq]
  by_cases h : p = a
  · rw [if_pos h, if_pos h.symm]
  · rw [if_neg h, if_neg (Ne.symm h)]

theorem byteAt_put_of_ne (m : Memory) {a p : Fin size} (b : Byte) (h : p ≠ a) : (m.put a b).byteAt p = m.byteAt p := by
  rw [byteAt_put, if_neg h]

theorem byteAt_putAll (m : Memory) (address : Nat) (data : List Byte) (p : Fin size) :
    (m.putAll address data).byteAt p =
      (if address ≤ p then data[p.val - address]? else none).getD (m.byteAt p) := by
  induction data generalizing m address with
  | nil => simp [putAll]
  | cons b rest ih =>
    rw [putAll]
    split
    · next ha =>
      rw [ih]
      -- The rest is written behind the first byte, so it does not cover that one.
      rcases Nat.lt_trichotomy p.val address with hlt | heq | hgt
      · rw [if_neg (by omega), if_neg (by omega)]
        exact m.byteAt_put_of_ne b (Fin.ne_of_lt hlt)
      · rw [if_neg (by omega), if_pos (by omega), heq, Nat.sub_self]
        exact (m.byteAt_put _ p b).trans (if_pos (Fin.ext heq))
      · rw [if_pos (Nat.succ_le_of_lt hgt), if_pos (Nat.le_of_lt hgt), m.byteAt_put_of_ne b (Fin.ne_of_gt hgt),
          show p.val - address = p.val - (address + 1) + 1 by omega, List.getElem?_cons_succ]
    · rw [if_neg (by omega)]
      rfl

theorem putAll_byte (m : Memory) {address : Nat} (b : Byte) (h : address < size) :
    m.putAll address [b] = m.put ⟨address, h⟩ b := by
  rw [putAll, dif_pos h, putAll]

theorem putAll_word (m : Memory) {address : Nat} (w : Word) (h : address + 1 < size) :
    m.putAll address [w.low, w.high] = (m.put ⟨address, Nat.lt_of_succ_lt h⟩ w.low).put ⟨address + 1, h⟩ w.high := by
  rw [putAll, dif_pos (Nat.lt_of_succ_lt h), putAll_byte]

/-! ### Bytes and words at the end of memory -/

theorem readByte_of_lt (m : Memory) {address : Nat} (h : address < size) :
    m.readByte address = .ok (m.byteAt ⟨address, h⟩) := by
  rw [readByte, dif_pos h]

theorem readByte_of_le (m : Memory) {address : Nat} (h : size ≤ address) :
    m.readByte address = .error (.memoryOutOfRange address) := by
  rw [readByte, dif_neg (Nat.not_lt.mpr h)]

theorem readWord_of_lt (m : Memory) {address : Nat} (h : address + 1 < size) :
    m.readWord address = .ok (.ofBytes (m.byteAt ⟨address, Nat.lt_of_succ_lt h⟩) (m.byteAt ⟨address + 1, h⟩)) := by
  rw [readWord, m.readByte_of_lt (Nat.lt_of_succ_lt h), m.readByte_of_lt h]
  rfl

theorem readWord_of_le (m : Memory) {address : Nat} (h : size ≤ address + 1) :
    m.readWord address = .error (.memoryOutOfRange (if address < size then address + 1 else address)) := by
  rw [readWord]
  split
  · next hlt =>
    rw [m.readByte_of_lt hlt, m.readByte_of_le h]
    rfl
  · next hle =>
    rw [m.readByte_of_le (Nat.not_lt.mp hle)]
    rfl

theorem writeByte_of_lt (m : Memory) {address : Nat} (b : Byte) (h : address < size) :
    writeByte address b m = .ok () (m.put ⟨address, h⟩ b) := by
  rw [writeByte, dif_pos h]

theorem writeByte_of_le (m : Memory) {address : Nat} (b : Byte) (h : size ≤ address) :
    writeByte address b m = .error (.memoryOutOfRange address) m := by
  rw [writeByte, dif_neg (Nat.not_lt.mpr h)]

theorem writeWord_of_lt (m : Memory) {address : Nat} (w : Word) (h : address + 1 < size) :
    writeWord address w m =
      .ok () ((m.put ⟨address, Nat.lt_of_succ_lt h⟩ w.low).put ⟨address + 1, h⟩ w.high) := by
  rw [writeWord, dif_pos h]

theorem writeWord_of_le (m : Memory) {address : Nat} (w : Word) (h : size ≤ address + 1) :
    writeWord address w m = .error (.memoryOutOfRange (address + 1)) m := by
  rw [writeWord, dif_neg (Nat.not_lt.mpr h)]

end Memory

/-!
## Memory as a map

Behind any sequence of calls the memory is the map that takes each address to the byte that was written there last, and
zero where none was; its image is that map. A call that covers a byte outside changes nothing (`after_is_map`).
-/

namespace Memory

inductive Call
  | copy (address : Nat) (data : List Byte)
  | writeByte (address : Nat) (b : Byte)
  | writeWord (address : Nat) (w : Word)
  | readByte (address : Nat)
  | readWord (address : Nat)

inductive Answer
  | done
  | byte (b : Byte)
  | word (w : Word)
  deriving DecidableEq

namespace Call

def run : Call → EStateM Error Memory Answer
  | copy address data => (fun _ => .done) <$> Memory.copy address data
  | writeByte address b => (fun _ => .done) <$> Memory.writeByte address b
  | writeWord address w => (fun _ => .done) <$> Memory.writeWord address w
  | readByte address => get >>= fun m => .byte <$> ofExcept (m.readByte address)
  | readWord address => get >>= fun m => .word <$> ofExcept (m.readWord address)

def address : Call → Nat
  | copy address _ | writeByte address _ | writeWord address _ | readByte address | readWord address => address

def length : Call → Nat
  | copy _ data => data.length
  | writeByte _ _ | readByte _ => 1
  | writeWord _ _ | readWord _ => 2

def Covers (c : Call) (p : Nat) : Prop := c.address ≤ p ∧ p < c.address + c.length

/-- A byte that the call covers is not in memory. A call that covers none is outside if not even its address is the end
of memory. -/
def Outside (c : Call) : Prop := (∃ p, c.Covers p ∧ size ≤ p) ∨ c.length = 0 ∧ size < c.address

/-- The address that the error of a call outside names. Of a word to be read it is the first byte that is outside. -/
def reported : Call → Nat
  | copy address data => address + data.length - 1
  | writeByte address _ | readByte address => address
  | writeWord address _ => address + 1
  | readWord address => if address < size then address + 1 else address

def data : Call → List Byte
  | copy _ data => data
  | writeByte _ b => [b]
  | writeWord _ w => [w.low, w.high]
  | readByte _ | readWord _ => []

def written (c : Call) (p : Nat) : Option Byte := if c.address ≤ p then c.data[p - c.address]? else none

def answer (bytes : Nat → Byte) : Call → Answer
  | copy _ _ | writeByte _ _ | writeWord _ _ => .done
  | readByte address => .byte (bytes address)
  | readWord address => .word (.ofBytes (bytes address) (bytes (address + 1)))

theorem outside_iff (c : Call) : c.Outside ↔ size < c.address + c.length := by
  constructor
  · rintro (⟨p, hp, hout⟩ | ⟨hlength, hout⟩)
    · exact Nat.lt_of_le_of_lt hout hp.2
    · rwa [hlength]
  · intro h
    by_cases hlength : c.length = 0
    · exact .inr ⟨hlength, by rwa [hlength] at h⟩
    · exact .inl ⟨c.address + c.length - 1, ⟨by omega, by omega⟩, by omega⟩

theorem length_data_le (c : Call) : c.data.length ≤ c.length := by
  cases c with
  | copy address data | writeByte address b | writeWord address w => exact Nat.le_refl _
  | readByte address | readWord address => exact Nat.zero_le _

theorem written_of_not_covers {c : Call} {p : Nat} (h : ¬c.Covers p) : c.written p = none := by
  have hle := c.length_data_le
  rw [written]
  split
  · next hp =>
    have hend : c.address + c.length ≤ p := Nat.not_lt.mp fun hlt => h ⟨hp, hlt⟩
    exact List.getElem?_eq_none (by omega)
  · rfl

instance (c : Call) : Decidable c.Outside := decidable_of_iff _ c.outside_iff.symm

end Call

/-! ### One call -/

namespace Call

theorem run_of_outside {c : Call} (m : Memory) (h : c.Outside) :
    c.run m = .error (.memoryOutOfRange c.reported) m := by
  rw [outside_iff] at h
  cases c with
  | copy address data => exact map_of_error _ (if_neg (Nat.not_le.mpr h))
  | writeByte address b => exact map_of_error _ (m.writeByte_of_le b (Nat.le_of_lt_succ h))
  | writeWord address w => exact map_of_error _ (m.writeWord_of_le w (Nat.le_of_lt_succ h))
  | readByte address => exact map_of_error _ (ofExcept_of_error (m.readByte_of_le (Nat.le_of_lt_succ h)))
  | readWord address => exact map_of_error _ (ofExcept_of_error (m.readWord_of_le (Nat.le_of_lt_succ h)))

theorem run_of_not_outside {c : Call} {m : Memory} {bytes : Nat → Byte} (hbytes : ∀ p : Fin size, m.byteAt p = bytes p)
    (h : ¬c.Outside) : c.run m = .ok (c.answer bytes) (m.putAll c.address c.data) := by
  rw [outside_iff, Nat.not_lt] at h
  cases c with
  | copy address data => exact map_of_ok _ (if_pos h)
  | writeByte address b =>
    have hlt : address < size := h
    rw [Call.address, data, m.putAll_byte b hlt]
    exact map_of_ok _ (m.writeByte_of_lt b hlt)
  | writeWord address w =>
    have hlt : address + 1 < size := h
    rw [Call.address, data, m.putAll_word w hlt]
    exact map_of_ok _ (m.writeWord_of_lt w hlt)
  | readByte address =>
    rw [answer, ← hbytes ⟨address, h⟩]
    exact map_of_ok _ (ofExcept_of_ok (m.readByte_of_lt h))
  | readWord address =>
    rw [answer, ← hbytes ⟨address, Nat.lt_of_succ_lt h⟩, ← hbytes ⟨address + 1, h⟩]
    exact map_of_ok _ (ofExcept_of_ok (m.readWord_of_lt h))

end Call

/-! ### Sequences of calls, the newest first -/

def after : List Call → Memory
  | [] => zero
  | c :: earlier =>
    match c.run (after earlier) with
    | .ok _ m | .error _ m => m

/-- The byte that was written last at an address by a call that is not outside. -/
def lastWritten (history : List Call) (p : Nat) : Byte :=
  ((history.filter fun c => ¬c.Outside).findSome? fun c => c.written p).getD 0

theorem lastWritten_of_outside {c : Call} (earlier : List Call) (h : c.Outside) :
    lastWritten (c :: earlier) = lastWritten earlier := by
  funext p
  simp [lastWritten, h]

theorem lastWritten_of_not_outside {c : Call} (earlier : List Call) (p : Nat) (h : ¬c.Outside) :
    lastWritten (c :: earlier) p = (c.written p).getD (lastWritten earlier p) := by
  cases hwritten : c.written p <;> simp [lastWritten, h, hwritten]

theorem byteAt_after (history : List Call) (p : Fin size) : (after history).byteAt p = lastWritten history p := by
  induction history generalizing p with
  | nil => rfl
  | cons c earlier ih =>
    rw [after]
    by_cases h : c.Outside
    · rw [c.run_of_outside _ h, lastWritten_of_outside earlier h]
      exact ih p
    · rw [Call.run_of_not_outside ih h, lastWritten_of_not_outside earlier p h, ← ih]
      exact byteAt_putAll _ _ _ p

theorem size_image (m : Memory) : m.image.size = size := Array.size_ofFn

theorem getElem?_image (m : Memory) (p : Fin size) : m.image.data[p.val]? = some (.ofBitVec (m.byteAt p)) := by
  rw [image, Array.getElem?_ofFn, dif_pos p.isLt]

/-- Whatever calls lie behind, each byte of memory is the one written last, the image shows just these bytes, a call
outside fails and changes nothing, and any other call answers from these bytes and changes those that it writes. -/
theorem after_is_map (history : List Call) (c : Call) :
    (∀ p : Fin size, (after history).byteAt p = lastWritten history p) ∧
    (after history).image.size = size ∧
    (∀ p : Fin size, (after history).image.data[p.val]? = some (.ofBitVec (lastWritten history p))) ∧
    (c.Outside → c.run (after history) = .error (.memoryOutOfRange c.reported) (after history)) ∧
    (¬c.Outside → ∃ m, c.run (after history) = .ok (c.answer (lastWritten history)) m ∧
      (∀ p : Fin size, m.byteAt p = (c.written p).getD ((after history).byteAt p)) ∧
      ∀ p : Fin size, ¬c.Covers p → m.byteAt p = (after history).byteAt p) := by
  refine ⟨byteAt_after history, size_image _, fun p => ?_, c.run_of_outside _, fun h => ?_⟩
  · rw [getElem?_image, byteAt_after]
  · have hbytes : ∀ p : Fin size, ((after history).putAll c.address c.data).byteAt p =
        (c.written p).getD ((after history).byteAt p) := byteAt_putAll _ _ _
    refine ⟨_, Call.run_of_not_outside (byteAt_after history) h, hbytes, fun p hp => ?_⟩
    rw [hbytes, Call.written_of_not_covers hp]
    rfl

theorem after_is_map_at_end :
    let history := [Call.writeWord 0xFFFFF 0xFFFF, Call.writeWord 0xFFFFE 0x1234]
    (Call.copy 0xFFFFF [1, 2]).run (after history) = .error (.memoryOutOfRange 0x100000) (after history) ∧
    ∃ m, (Call.readWord 0xFFFFE).run (after history) = .ok (.word 0x1234) m := by
  intro history
  obtain ⟨_, _, _, hcopy, _⟩ := after_is_map history (.copy 0xFFFFF [1, 2])
  obtain ⟨_, _, _, _, hread⟩ := after_is_map history (.readWord 0xFFFFE)
  obtain ⟨m, hrun, _⟩ := hread (by decide)
  have hword : Call.answer (lastWritten history) (.readWord 0xFFFFE) = .word 0x1234 := by decide
  exact ⟨hcopy (by decide), m, hrun.trans (by rw [hword])⟩

end Memory

end I8086
