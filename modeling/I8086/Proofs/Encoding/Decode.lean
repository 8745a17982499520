import I8086.Proofs.Encoding.Table

/-! # What decoding looks at, and what it refuses -/

namespace I8086

/-!
## Decoding is local

What an instruction is depends on its own bytes only, not on where they stand or on what is around them, and no
instruction is the beginning of another: where its bytes are cut off, nothing but the cut is reported.
-/

def SameBytes (n : Nat) (program : Array Byte) (offset : Nat) (program' : Array Byte) (offset' : Nat) : Prop :=
  ∀ i < n, program'[offset' + i]? = program[offset + i]?

def Error.shift (n : Nat) : Error → Error
  | unimplementedOpcode first second offset => unimplementedOpcode first second (n + offset)
  | noAdvance offset => noAdvance (n + offset)
  | illegalSegment byte offset => illegalSegment byte (n + offset)
  | truncated offset needed available => truncated (n + offset) needed available
  | e => e

section
variable {program program' : Array Byte} {offset offset' n : Nat} {d : Decoded}

theorem Code.isPrefix_of_sameBytes {c : Code} (hc : c.bytes = (program.toList.drop offset).take n)
    (h : SameBytes n program offset program' offset') : c.bytes <+: program'.toList.drop offset' := by
  rw [List.prefix_iff_getElem?]
  intro i hi
  have hin : i < n := by
    rw [hc, List.length_take] at hi
    omega
  have hbyte : c.bytes[i]? = program[offset + i]? := by
    rw [hc, List.getElem?_take_of_lt hin, List.getElem?_drop, Array.getElem?_toList]
  rw [List.getElem?_drop, Array.getElem?_toList, h i hin, ← hbyte, List.getElem?_eq_getElem hi]

theorem decode_of_sameBytes (hd : decode program offset = .ok d) (h : SameBytes d.size program offset program' offset') :
    decode program' offset' = .ok d := by
  obtain ⟨c, hc, rfl⟩ := Code.exists_of_decode hd
  exact c.decode_of_bytes (Code.isPrefix_of_sameBytes hc h)

theorem decode_of_cut {m : Nat} (hd : decode program offset = .ok d) (hm : m < d.size)
    (hend : program'.size = offset' + m) (h : SameBytes m program offset program' offset') :
    ∃ needed, decode program' offset' = .error (.truncated offset' needed m) ∧ m < needed ∧ needed ≤ d.size := by
  have havailable : program'.size - offset' = m := by omega
  have hbounds := (Family.fits_of_decode hd).bounds
  by_cases hshort : m < 2
  · have hcut : decode program' offset' = .error (.truncated offset' 2 (program'.size - offset')) :=
      decode_of_short (by omega)
    exact ⟨2, havailable ▸ hcut, hshort, hbounds.1⟩
  · obtain ⟨first, second, form, operation, h₁, h₂, hl, hs, hsize, _⟩ := exists_of_decode_eq_ok hd
    have h₁' : program'[offset']? = some first := (h 0 (by omega)).trans h₁
    have h₂' : program'[offset' + 1]? = some second := (h 1 (by omega)).trans h₂
    have hcut := decode_of_lookup h₁' h₂' hl hs
    rw [havailable] at hcut
    -- the fields end where the instruction ends, so of those that are cut off the first ends no later
    split at hcut
    · next hnone =>
      have := (overrun_eq_none_iff m 1 _ (by omega)).mp hnone
      omega
    · next needed hsome =>
      have := overrun_bounds hsome
      exact ⟨needed, hcut, by omega, by omega⟩

end

/-! ### Bytes in front -/

section
variable (p q : Array Byte) (k : Nat)

theorem sameBytes_append (n : Nat) : SameBytes n q k (p ++ q) (p.size + k) := by
  intro i _
  rw [Array.getElem?_append_right (by omega), show p.size + k + i - p.size = k + i by omega]

theorem decode_append : decode (p ++ q) (p.size + k) = (decode q k).mapError (Error.shift p.size) := by
  have hsame := sameBytes_append p q k
  have h₁ {b : Byte} (h : q[k]? = some b) : (p ++ q)[p.size + k]? = some b := (hsame 1 0 (by omega)).trans h
  have h₂ {b : Byte} (h : q[k + 1]? = some b) : (p ++ q)[p.size + k + 1]? = some b := (hsame 2 1 (by omega)).trans h
  have havailable : (p ++ q).size - (p.size + k) = q.size - k := by
    rw [Array.size_append]
    omega
  have hcase := decode_cases q k
  cases hd : decode q k with
  | ok d => exact decode_of_sameBytes hd (hsame d.size)
  | error e =>
    rw [hd] at hcase
    cases hcase with
    | short size =>
      have hshort : (p ++ q).size < p.size + k + 2 := by
        rw [Array.size_append]
        omega
      rw [decode_of_short hshort, havailable]
      rfl
    | unknown hq₁ hq₂ hl => exact decode_of_unknown (h₁ hq₁) (h₂ hq₂) hl
    | reserved hq₁ hq₂ hl hs => exact decode_of_reserved (h₁ hq₁) (h₂ hq₂) hl hs
    | cut hq₁ hq₂ hl hs ho =>
      have hcut := decode_of_lookup (h₁ hq₁) (h₂ hq₂) hl hs
      rw [havailable, ho] at hcut
      exact hcut

end

/-- The bytes of an instruction mean the same wherever they stand, the first of them alone are truncated, and bytes in
front of a program only move the offsets. -/
theorem decode_local :
    (∀ (program : Array Byte) (offset : Nat) (d : Decoded), decode program offset = .ok d →
      ∀ (program' : Array Byte) (offset' : Nat),
        (SameBytes d.size program offset program' offset' → decode program' offset' = .ok d) ∧
        ∀ m < d.size, program'.size = offset' + m → SameBytes m program offset program' offset' →
          ∃ needed, decode program' offset' = .error (.truncated offset' needed m) ∧ m < needed ∧ needed ≤ d.size) ∧
    ∀ (p q : Array Byte) (k : Nat), decode (p ++ q) (p.size + k) = (decode q k).mapError (Error.shift p.size) := by
  refine ⟨?_, decode_append⟩
  intro program offset d hd program' offset'
  refine ⟨decode_of_sameBytes hd, ?_⟩
  intro m hm hend h
  exact decode_of_cut hd hm hend h

theorem decode_local_in_displacement :
    decode #[0xC7, 0x87, 0x34, 0x12, 0x78, 0x56] 0 =
        .ok ⟨⟨.mov, [.memory (some .word) .bx 0x1234, ⟨some .word, .unsigned 0x5678⟩]⟩, 6, by decide⟩ ∧
      ∃ needed, decode #[0x90, 0xC7, 0x87, 0x34] 1 = .error (.truncated 1 needed 3) ∧ 3 < needed ∧ needed ≤ 6 := by
  have hsame : SameBytes 3 #[0xC7, 0x87, 0x34, 0x12, 0x78, 0x56] 0 #[0x90, 0xC7, 0x87, 0x34] 1 := by
    unfold SameBytes
    decide
  exact ⟨rfl, (decode_local.1 _ 0 _ rfl #[0x90, 0xC7, 0x87, 0x34] 1).2 3 (by decide) rfl hsame⟩

/-!
## What decoding refuses

Bytes can be wrong in more than one way at once. Of these one is reported, the first in the order in which they are read:
two bytes are not there, the two are not in the table, they are reserved, a field is cut off (`decode_refuses`).
-/

namespace Family

/-- Where the fields behind the first two bytes end, counted from the first one. Only an immediate to register or memory
has a displacement in front of its last field. -/
def ends (family : Family) (first second : Byte) : List Nat :=
  match family with
  | immRm => [2 + displacementSize second, family.length first second]
  | _ => [family.length first second]

end Family

/-- Why there is no instruction at `offset`, and the error that says so. Each reason asks that the ones before it do not
hold. -/
inductive Refused (program : Array Byte) (offset : Nat) : Error → Prop
  | short (size : program.size < offset + 2) : Refused program offset (.truncated offset 2 (program.size - offset))
  | unknown {first second : Byte} (opening₁ : program[offset]? = some first) (opening₂ : program[offset + 1]? = some second)
    (family : Family.of? first second = none) : Refused program offset (.unimplementedOpcode first second offset)
  | reserved {first second : Byte} (opening₁ : program[offset]? = some first)
    (opening₂ : program[offset + 1]? = some second) (family : Family.of? first second = some .rmSegment)
    (bit : second.getLsbD 5 = true) : Refused program offset (.illegalSegment second offset)
  | cut {first second : Byte} {family : Family} {needed : Nat} (opening₁ : program[offset]? = some first)
    (opening₂ : program[offset + 1]? = some second) (family_eq : Family.of? first second = some family)
    (bit : family = .rmSegment → second.getLsbD 5 = false)
    (field : (family.ends first second).find? (program.size - offset < ·) = some needed) :
    Refused program offset (.truncated offset needed (program.size - offset))

theorem ModRM.fields_eq (modrm : ModRM) : modrm.fields = [] ∨ ∃ n, modrm.fields = [n] := by
  unfold fields
  split
  · split <;> simp
  all_goals simp

/-! ### Families and forms -/

namespace Family

theorem of?_eq_none {first second : Byte} (h : Form.lookup first second = none) : of? first second = none := by
  have hgroup : ∀ field : BitVec 3, Form.group field = none → field ∉ [0b000, 0b101, 0b111] := by decide
  have hloop : ∀ b : Byte, b.extractLsb' 2 6 = 0b111000 → b ∈ [0xE0, 0xE1, 0xE2, 0xE3] := by decide
  unfold Form.lookup at h
  split at h <;> rename_i ho
  case h_7 =>
    have hfield := hgroup _ (Option.map_eq_none_iff.mp h)
    simp only [of?, ho, if_neg hfield]
    rfl
  case h_11 =>
    split at h
    · cases h
    · cases h
    · split at h
      case h_7 =>
        have hfirst := hloop first
        simp_all [of?]
      all_goals cases h
  all_goals cases h

theorem exists_lookup {first second : Byte} {family : Family} (h : of? first second = some family) :
    ∃ form operation, Form.lookup first second = some (form, operation) ∧ ofForm form = family := by
  cases hl : Form.lookup first second with
  | none => cases (of?_eq_none hl).symm.trans h
  | some found =>
    obtain ⟨form, operation⟩ := found
    cases (of?_lookup hl).symm.trans h
    exact ⟨form, operation, rfl, rfl⟩

theorem reserved_iff {form : Form} {second : Byte} :
    form.reserved second = true ↔ ofForm form = rmSegment ∧ second.getLsbD 5 = true := by
  cases form <;> simp [Form.reserved, ofForm]

/-! ### Fields that are cut off -/

section
variable {room taken : Nat}

theorem overrun_singleton (n : Nat) : overrun room taken [n] = [taken + n].find? (room < ·) := by
  by_cases h : taken + n ≤ room <;> simp [overrun, h]

theorem overrun_modrm (second : Byte) (h : 2 ≤ room) :
    overrun room 2 (ModRM.ofByte second).fields = [2 + displacementSize second].find? (room < ·) := by
  have hsum := sum_fields_modrm second
  rcases ModRM.fields_eq (ModRM.ofByte second) with hf | ⟨n, hf⟩ <;> rw [hf] at hsum ⊢ <;> rw [← hsum]
  · have hfits : decide (room < 2) = false := decide_eq_false (Nat.not_lt.mpr h)
    rw [List.sum_nil, Nat.add_zero, List.find?_singleton, hfits]
    rfl
  · exact overrun_singleton n

theorem overrun_behind_opcode (ns : List Nat) (h : 2 ≤ room) : overrun room 1 ([1] ++ ns) = overrun room 2 ns := by
  simp [overrun, h]

theorem overrun_fields {first second : Byte} {form : Form} {operation : Operation}
    (hl : Form.lookup first second = some (form, operation)) (h : 2 ≤ room) :
    overrun room 1 (form.fields second) = ((ofForm form).ends first second).find? (room < ·) := by
  have hlength := length_lookup hl
  cases form with
  | rmReg | rmSeg =>
    rw [Form.fields, overrun_behind_opcode _ h, overrun_modrm second h]
    rfl
  | rmImm w extended =>
    have hend : immRm.length first second = 2 + displacementSize second + (if extended then 1 else w.size) := by
      rw [ofForm, Form.fields, sum_fields_rm, List.sum_singleton] at hlength
      omega
    rw [Form.fields, overrun_behind_opcode _ h, overrun_append, overrun_modrm second h, sum_fields_modrm,
      overrun_singleton, ← hend, ← List.find?_append]
    rfl
  | accMem => exact overrun_singleton 2
  | regImm | accImm =>
    rw [Form.fields, List.sum_singleton] at hlength
    rw [Form.fields, overrun_singleton, ← hlength]
    rfl
  | shortJump => exact overrun_singleton 1

end

end Family

/-! ### Reasons and errors -/

section
variable {program : Array Byte} {offset : Nat} {e : Error}

theorem refused_of_decode (h : decode program offset = .error e) : Refused program offset e := by
  have hcase := decode_cases program offset
  rw [h] at hcase
  cases hcase with
  | short size => exact .short size
  | unknown h₁ h₂ hl => exact .unknown h₁ h₂ (Family.of?_eq_none hl)
  | reserved h₁ h₂ hl hs =>
    obtain ⟨hfamily, hbit⟩ := Family.reserved_iff.mp hs
    exact .reserved h₁ h₂ (hfamily ▸ Family.of?_lookup hl) hbit
  | @cut first second form operation needed h₁ h₂ hl hs ho =>
    have hsize := (Array.getElem?_eq_some_iff.mp h₂).1
    rw [Family.overrun_fields hl (by omega)] at ho
    refine .cut h₁ h₂ (Family.of?_lookup hl) ?_ ho
    intro hfamily
    cases hbit : second.getLsbD 5 with
    | false => rfl
    | true => cases hs.symm.trans (Family.reserved_iff.mpr ⟨hfamily, hbit⟩)

theorem Refused.decode_eq (h : Refused program offset e) : decode program offset = .error e := by
  cases h with
  | short size => exact decode_of_short size
  | @unknown first second h₁ h₂ hfamily =>
    cases hl : Form.lookup first second with
    | none => exact decode_of_unknown h₁ h₂ hl
    | some found => cases (Family.of?_lookup hl).symm.trans hfamily
  | reserved h₁ h₂ hfamily hbit =>
    obtain ⟨form, operation, hl, hform⟩ := Family.exists_lookup hfamily
    exact decode_of_reserved h₁ h₂ hl (Family.reserved_iff.mpr ⟨hform, hbit⟩)
  | @cut first second family needed h₁ h₂ hfamily hbit hfield =>
    obtain ⟨form, operation, hl, rfl⟩ := Family.exists_lookup hfamily
    have hsize := (Array.getElem?_eq_some_iff.mp h₂).1
    have hs : form.reserved second = false := by
      refine Bool.eq_false_iff.mpr fun hs => ?_
      obtain ⟨hform, hset⟩ := Family.reserved_iff.mp hs
      cases (hbit hform).symm.trans hset
    have hcut := decode_of_lookup h₁ h₂ hl hs
    rw [Family.overrun_fields hl (by omega), hfield] at hcut
    exact hcut

end

/-- Decoding fails with an error exactly where that is the first reason to refuse the bytes. An error that counts bytes
needs more than there are. -/
theorem decode_refuses (program : Array Byte) (offset : Nat) :
    (∀ e, decode program offset = .error e ↔ Refused program offset e) ∧
    (∀ offset', decode program offset ≠ .error (.noAdvance offset')) ∧
    ∀ offset' needed available, decode program offset = .error (.truncated offset' needed available) →
      offset' = offset ∧ available = program.size - offset ∧ available < needed := by
  refine ⟨fun e => ⟨refused_of_decode, Refused.decode_eq⟩, ?_, ?_⟩
  · intro offset' h
    cases refused_of_decode h
  · intro offset' needed available h
    cases refused_of_decode h with
    | short size => exact ⟨rfl, rfl, by omega⟩
    | cut _ _ _ _ field =>
      have hneeded := List.find?_some field
      exact ⟨rfl, rfl, of_decide_eq_true hneeded⟩

/-- Each of these is wrong in two ways: an unknown byte stands alone, a reserved bit is set and the displacement missing,
displacement and immediate are cut off. -/
theorem decode_refuses_in_order :
    decode #[0xF4] 0 = .error (.truncated 0 2 1) ∧ decode #[0x8E, 0xA0] 0 = .error (.illegalSegment 0xA0 0) ∧
      decode #[0x90, 0xC7, 0x87, 0x34] 1 = .error (.truncated 1 4 3) ∧ 3 < 4 := by
  have hfamily : Family.of? 0xC7 0x87 = some .immRm := rfl
  have hcut : decode #[0x90, 0xC7, 0x87, 0x34] 1 = .error (.truncated 1 4 3) :=
    ((decode_refuses _ 1).1 _).mpr (.cut rfl rfl hfamily nofun rfl)
  exact ⟨((decode_refuses _ 0).1 _).mpr (.short (by decide)), ((decode_refuses _ 0).1 _).mpr (.reserved rfl rfl rfl rfl),
    hcut, ((decode_refuses _ 1).2.2 _ _ _ hcut).2.2⟩

end I8086
