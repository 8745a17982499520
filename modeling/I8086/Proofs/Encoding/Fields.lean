import Mathlib.Algebra.GroupWithZero.Nat
import I8086.Encoding
import I8086.Error

/-!
# Fields of an instruction

An instruction is read field by field. Which sizes the fields have is settled by the form and the byte behind the
opcode, and reading fails in one way only: at the first field that does not fit (`decode_of_lookup`).
-/

namespace I8086

def Width.size : Width → Nat
  | .byte => 1
  | .word => 2

/-- The end of the first field that does not fit into `room` bytes, `taken` of which lie before the fields. -/
def overrun (room : Nat) : Nat → List Nat → Option Nat
  | _, [] => none
  | taken, n :: ns => if taken + n ≤ room then overrun room (taken + n) ns else some (taken + n)

theorem overrun_append (room : Nat) : ∀ (taken : Nat) (ms ns : List Nat),
    overrun room taken (ms ++ ns) = (overrun room taken ms).or (overrun room (taken + ms.sum) ns)
  | taken, [], ns => by simp [overrun]
  | taken, m :: ms, ns => by
    simp only [List.cons_append, overrun]
    split
    · rw [overrun_append room (taken + m) ms ns, List.sum_cons, Nat.add_assoc]
    · rfl

theorem overrun_eq_none_iff (room : Nat) : ∀ (taken : Nat) (ns : List Nat), taken ≤ room →
    (overrun room taken ns = none ↔ taken + ns.sum ≤ room)
  | taken, [], h => by simp [overrun, h]
  | taken, n :: ns, h => by
    simp only [overrun, List.sum_cons]
    split
    · next hn => rw [overrun_eq_none_iff room (taken + n) ns hn, Nat.add_assoc]
    · simp only [reduceCtorEq, false_iff]; omega

theorem overrun_bounds {room taken needed : Nat} {ns : List Nat} (h : overrun room taken ns = some needed) :
    room < needed ∧ needed ≤ taken + ns.sum := by
  induction ns generalizing taken with
  | nil => cases h
  | cons n ns ih =>
    rw [overrun] at h
    rw [List.sum_cons]
    split at h
    · have := ih h
      omega
    · cases h
      omega

namespace Reader

def skip (r : Reader) (n : Nat) : Reader := { r with consumed := r.consumed + n }

def available (r : Reader) : Nat := r.program.size - r.start

/-- `x` takes fields of the given sizes, or fails at the first that does not fit. -/
def Takes {α : Type} (r : Reader) (x : EStateM Error Reader α) (fields : List Nat) : Prop :=
  match overrun r.available r.consumed fields with
  | none => ∃ a, x r = .ok a (r.skip fields.sum)
  | some needed => ∃ t, x r = .error (.truncated r.start needed r.available) t

@[simp] theorem skip_skip (r : Reader) (m n : Nat) : (r.skip m).skip n = r.skip (m + n) := by
  simp [skip, Nat.add_assoc]

variable {α β : Type} {r : Reader} {x : EStateM Error Reader α} {ms ns : List Nat}

theorem takes_pure (a : α) : r.Takes (pure a) [] := ⟨a, rfl⟩

theorem Takes.map (g : α → β) (h : r.Takes x ns) : r.Takes (g <$> x) ns := by
  unfold Takes at h ⊢
  split at h
  · obtain ⟨a, ha⟩ := h
    exact ⟨g a, map_of_ok g ha⟩
  · obtain ⟨t, ht⟩ := h
    exact ⟨t, map_of_error g ht⟩

theorem Takes.bind {f : α → EStateM Error Reader β} (hx : r.Takes x ms)
    (hf : ∀ a, x r = .ok a (r.skip ms.sum) → (r.skip ms.sum).Takes (f a) ns) : r.Takes (x >>= f) (ms ++ ns) := by
  unfold Takes at hx ⊢
  rw [overrun_append, List.sum_append]
  cases hm : overrun r.available r.consumed ms with
  | some needed =>
    rw [hm] at hx
    obtain ⟨t, ht⟩ := hx
    exact ⟨t, bind_of_error ht⟩
  | none =>
    rw [hm] at hx
    obtain ⟨a, ha⟩ := hx
    rw [bind_of_ok ha, ← skip_skip]
    exact hf a ha

theorem Takes.bind_pure {f : α → β} (h : r.Takes x ns) : r.Takes (x >>= fun a => pure (f a)) ns := by
  have := h.bind (f := fun a => pure (f a)) fun a _ => takes_pure (f a)
  rwa [List.append_nil] at this

theorem byte_of_le (h : r.program.size ≤ r.start + r.consumed) : byte r = .error (r.truncated 1) r := by
  simp [byte, h]

theorem word_of_le (h : r.program.size ≤ r.start + r.consumed + 1) : word r = .error (r.truncated 2) r := by
  simp [word, h]

theorem takes_byte (r : Reader) : r.Takes byte [1] := by
  have ha : r.available = r.program.size - r.start := rfl
  simp only [Takes, overrun]
  by_cases h : r.consumed + 1 ≤ r.available
  · rw [if_pos h]
    have hb : r.start + r.consumed < r.program.size := by omega
    exact ⟨r.program[r.start + r.consumed], by simp [byte, skip, hb]⟩
  · rw [if_neg h]
    exact ⟨r, byte_of_le (by omega)⟩

theorem takes_word (r : Reader) : r.Takes word [2] := by
  have ha : r.available = r.program.size - r.start := rfl
  simp only [Takes, overrun]
  by_cases h : r.consumed + 2 ≤ r.available
  · rw [if_pos h]
    have hh : r.start + r.consumed + 1 < r.program.size := by omega
    have hl : r.start + r.consumed < r.program.size := by omega
    exact ⟨.ofBytes r.program[r.start + r.consumed] r.program[r.start + r.consumed + 1], by simp [word, skip, hl, hh]⟩
  · rw [if_neg h]
    exact ⟨r, word_of_le (by omega)⟩

theorem takes_signed (r : Reader) (w : Width) : r.Takes (signed w) [w.size] := by
  cases w
  · exact (takes_byte r).map _
  · exact takes_word r

theorem takes_unsigned (r : Reader) (w : Width) : r.Takes (unsigned w) [w.size] := by
  cases w
  · exact (takes_byte r).map _
  · exact takes_word r

end Reader

def ModRM.fields (m : ModRM) : List Nat :=
  match m.mode.toFin with
  | 0 => if m.rm = 0b110 then [2] else []
  | 1 => [1]
  | 2 => [2]
  | 3 => []

theorem ModRM.takes_operand (m : ModRM) (w : Width) (r : Reader) : r.Takes (m.operand w) m.fields := by
  unfold operand
  split <;> rename_i hm
  · split <;> rename_i hrm
    · rw [fields, hm]; simp only [hrm, if_true]
      exact (Reader.takes_word r).bind_pure
    · rw [fields, hm]; simp only [hrm, if_false]
      exact Reader.takes_pure _
  · rw [fields, hm]; exact (Reader.takes_signed r .byte).bind_pure
  · rw [fields, hm]; exact (Reader.takes_signed r .word).bind_pure
  · rw [fields, hm]; exact Reader.takes_pure _

namespace Form

def fields (form : Form) (second : Byte) : List Nat :=
  match form with
  | rmReg _ _ | rmSeg _ => [1] ++ (ModRM.ofByte second).fields
  | rmImm w extended => [1] ++ ((ModRM.ofByte second).fields ++ [if extended then 1 else w.size])
  | accMem _ _ => [2]
  | regImm view => [view.width.size]
  | accImm w => [w.size]
  | shortJump => [1]

def reserved : Form → Byte → Bool
  | rmSeg _, second => second.getLsbD 5
  | _, _ => false

theorem takes_operands {form : Form} {second : Byte} {r : Reader} (hr : r.program[r.start + r.consumed]? = some second)
    (hs : form.reserved second = false) : r.Takes form.operands (form.fields second) := by
  have hb : ∀ b, Reader.byte r = .ok b (r.skip [1].sum) → b = second := by
    intro b h
    simp only [Reader.byte, hr] at h
    cases h
    rfl
  cases form with
  | rmReg w toRegister =>
    refine (Reader.takes_byte r).bind fun b h => ?_
    obtain rfl := hb b h
    exact (ModRM.takes_operand _ w _).bind_pure
  | rmImm w extended =>
    refine (Reader.takes_byte r).bind fun b h => ?_
    obtain rfl := hb b h
    refine (ModRM.takes_operand _ w _).bind fun _ _ => ?_
    cases extended
    · exact ((Reader.takes_unsigned _ w).map _).bind_pure
    · exact ((Reader.takes_signed _ .byte).map _).bind_pure
  | accMem w toMemory => exact (Reader.takes_word r).bind_pure
  | regImm view => exact (Reader.takes_signed r view.width).bind_pure
  | accImm w => exact (Reader.takes_signed r w).bind_pure
  | rmSeg toSegment =>
    refine (Reader.takes_byte r).bind fun b h => ?_
    obtain rfl := hb b h
    simp only [reserved] at hs
    simp only [hs]
    exact (ModRM.takes_operand _ .word _).bind_pure
  | shortJump => exact (Reader.takes_signed r .byte).bind_pure

theorem operands_of_reserved {form : Form} {second : Byte} {r : Reader}
    (hr : r.program[r.start + r.consumed]? = some second) (hs : form.reserved second = true) :
    form.operands r = .error (.illegalSegment second r.start) (r.skip 1) := by
  cases form with
  | rmSeg toSegment =>
    have hb : Reader.byte r = .ok second (r.skip 1) := by simp only [Reader.byte, hr]; rfl
    rw [operands, bind_of_ok hb]
    simp only [reserved] at hs
    simp only [hs]
    rfl
  | _ => cases hs

end Form

section
variable {program : Array Byte} {offset : Nat} {first second : Byte} {form : Form} {operation : Operation}

theorem decode_of_short (h : program.size < offset + 2) :
    decode program offset = .error (.truncated offset 2 (program.size - offset)) := by
  unfold decode
  split
  · next hs =>
    rw [Array.getElem?_eq_none (by omega)] at hs
    cases hs
  · rfl

theorem decode_of_unknown (h₁ : program[offset]? = some first) (h₂ : program[offset + 1]? = some second)
    (hl : Form.lookup first second = none) :
    decode program offset = .error (.unimplementedOpcode first second offset) := by
  simp only [decode, h₁, h₂, Form.identify, hl]

theorem decode_of_reserved (h₁ : program[offset]? = some first) (h₂ : program[offset + 1]? = some second)
    (hl : Form.lookup first second = some (form, operation)) (hs : form.reserved second = true) :
    decode program offset = .error (.illegalSegment second offset) := by
  simp only [decode, h₁, h₂, Form.identify, hl]
  rw [Form.operands_of_reserved h₂ hs]

theorem decode_of_lookup (h₁ : program[offset]? = some first) (h₂ : program[offset + 1]? = some second)
    (hl : Form.lookup first second = some (form, operation)) (hs : form.reserved second = false) :
    match overrun (program.size - offset) 1 (form.fields second) with
    | none => ∃ d, decode program offset = .ok d ∧ d.size = 1 + (form.fields second).sum
    | some needed => decode program offset = .error (.truncated offset needed (program.size - offset)) := by
  have h : Reader.Takes ⟨program, offset, 1⟩ form.operands (form.fields second) := Form.takes_operands h₂ hs
  simp only [Reader.Takes, Reader.available] at h
  cases ho : overrun (program.size - offset) 1 (form.fields second) with
  | none =>
    rw [ho] at h
    obtain ⟨operands, h⟩ := h
    refine ⟨⟨⟨operation, operands⟩, 1 + (form.fields second).sum, by omega⟩, ?_, rfl⟩
    simp only [decode, h₁, h₂, Form.identify, hl]
    rw [h]
    exact dif_pos (by simp only [Reader.skip]; omega)
  | some needed =>
    rw [ho] at h
    obtain ⟨t, h⟩ := h
    change decode program offset = _
    simp only [decode, h₁, h₂, Form.identify, hl]
    rw [h]

inductive DecodeCase (program : Array Byte) (offset : Nat) : Except Error Decoded → Prop
  | short (size : program.size < offset + 2) :
    DecodeCase program offset (.error (.truncated offset 2 (program.size - offset)))
  | unknown {first second : Byte} (opening₁ : program[offset]? = some first) (opening₂ : program[offset + 1]? = some second)
    (lookup : Form.lookup first second = none) :
    DecodeCase program offset (.error (.unimplementedOpcode first second offset))
  | reserved {first second : Byte} {form : Form} {operation : Operation} (opening₁ : program[offset]? = some first)
    (opening₂ : program[offset + 1]? = some second) (lookup : Form.lookup first second = some (form, operation))
    (reserved : form.reserved second = true) : DecodeCase program offset (.error (.illegalSegment second offset))
  | cut {first second : Byte} {form : Form} {operation : Operation} {needed : Nat}
    (opening₁ : program[offset]? = some first) (opening₂ : program[offset + 1]? = some second)
    (lookup : Form.lookup first second = some (form, operation)) (reserved : form.reserved second = false)
    (overrun : overrun (program.size - offset) 1 (form.fields second) = some needed) :
    DecodeCase program offset (.error (.truncated offset needed (program.size - offset)))
  | decoded {first second : Byte} {form : Form} {operation : Operation} {d : Decoded}
    (opening₁ : program[offset]? = some first) (opening₂ : program[offset + 1]? = some second)
    (lookup : Form.lookup first second = some (form, operation)) (reserved : form.reserved second = false)
    (overrun : overrun (program.size - offset) 1 (form.fields second) = none)
    (size : d.size = 1 + (form.fields second).sum) : DecodeCase program offset (.ok d)

theorem decode_cases (program : Array Byte) (offset : Nat) : DecodeCase program offset (decode program offset) := by
  by_cases hlen : program.size < offset + 2
  · rw [decode_of_short hlen]
    exact .short hlen
  have h₁ : program[offset]? = some program[offset] := Array.getElem?_eq_getElem (by omega)
  have h₂ : program[offset + 1]? = some program[offset + 1] := Array.getElem?_eq_getElem (by omega)
  cases hl : Form.lookup program[offset] program[offset + 1] with
  | none =>
    rw [decode_of_unknown h₁ h₂ hl]
    exact .unknown h₁ h₂ hl
  | some found =>
    obtain ⟨form, operation⟩ := found
    cases hs : form.reserved program[offset + 1] with
    | true =>
      rw [decode_of_reserved h₁ h₂ hl hs]
      exact .reserved h₁ h₂ hl hs
    | false =>
      have hf := decode_of_lookup h₁ h₂ hl hs
      split at hf <;> rename_i ho
      · obtain ⟨d, hd, hsize⟩ := hf
        rw [hd]
        exact .decoded h₁ h₂ hl hs ho hsize
      · rw [hf]
        exact .cut h₁ h₂ hl hs ho

theorem exists_of_decode_eq_ok {d : Decoded} (h : decode program offset = .ok d) :
    ∃ first second form operation, program[offset]? = some first ∧ program[offset + 1]? = some second ∧
      Form.lookup first second = some (form, operation) ∧ form.reserved second = false ∧
      d.size = 1 + (form.fields second).sum ∧ offset + d.size ≤ program.size := by
  have hcase := decode_cases program offset
  rw [h] at hcase
  cases hcase with
  | decoded h₁ h₂ hl hs ho hsize =>
    obtain ⟨hlen, _⟩ := Array.getElem?_eq_some_iff.mp h₂
    have := (overrun_eq_none_iff _ 1 _ (by omega)).mp ho
    exact ⟨_, _, _, _, h₁, h₂, hl, hs, hsize, by omega⟩

theorem decode_eq_error {e : Error} (h : decode program offset = .error e) :
    (∃ first second, e = .unimplementedOpcode first second offset) ∨ (∃ b, e = .illegalSegment b offset) ∨
      ∃ needed, e = .truncated offset needed (program.size - offset) := by
  have hcase := decode_cases program offset
  rw [h] at hcase
  cases hcase with
  | unknown => exact .inl ⟨_, _, rfl⟩
  | reserved => exact .inr (.inl ⟨_, rfl⟩)
  | short | cut => exact .inr (.inr ⟨_, rfl⟩)

def Error.offset? : Error → Option Nat
  | unimplementedOpcode _ _ offset | noAdvance offset | illegalSegment _ offset | truncated offset _ _ => some offset
  | _ => none

theorem offset?_of_decode {e : Error} (h : decode program offset = .error e) : e.offset? = some offset := by
  rcases decode_eq_error h with ⟨_, _, rfl⟩ | ⟨_, rfl⟩ | ⟨_, rfl⟩ <;> rfl

end

end I8086
