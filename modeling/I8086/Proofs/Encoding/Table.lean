import I8086.Proofs.Encoding.Code

/-!
# The opcode table

Which pairs of bytes begin an instruction, and how long it is, are functions of those two bytes alone. Decoding accepts
exactly the instructions of the table, and reads each as its fields say (`decode_exact`).
-/

namespace I8086

inductive Family
  | rmReg | immRm | memAcc | immReg | immAcc | rmSegment | shortJump
  deriving DecidableEq

namespace Family

def of? (first second : Byte) : Option Family :=
  let opcode := first.extractLsb' 2 6
  if opcode ∈ [0b000000, 0b001010, 0b001110, 0b100010] then some rmReg
  else if opcode ∈ [0b000001, 0b001011, 0b001111] then some immAcc
  else if opcode = 0b100000 then if second.extractLsb' 3 3 ∈ [0b000, 0b101, 0b111] then some immRm else none
  else if opcode = 0b110001 then some immRm
  else if opcode = 0b101000 then some memAcc
  else if first.extractLsb' 4 4 = 0b1011 then some immReg
  else if first ∈ [0x8C, 0x8E] then some rmSegment
  else if first.extractLsb' 4 4 = 0b0111 ∨ opcode = 0b111000 then some shortJump
  else none

def displacementSize (second : Byte) : Nat :=
  if second.extractLsb' 6 2 = 0b11 then 0
  else if second.extractLsb' 6 2 = 0b01 then 1
  else if second.extractLsb' 6 2 = 0b10 ∨ second.extractLsb' 0 3 = 0b110 then 2
  else 0

/-- How many bytes an immediate to register or memory has: two if W is set, except with S set and an operation that is
not a move. -/
def immediateSize (first : Byte) : Nat :=
  if first.getLsbD 0 ∧ ¬(first.extractLsb' 2 6 ≠ 0b110001 ∧ first.getLsbD 1) then 2 else 1

def length (family : Family) (first second : Byte) : Nat :=
  match family with
  | rmReg | rmSegment => 2 + displacementSize second
  | immRm => 2 + displacementSize second + immediateSize first
  | memAcc => 3
  | immReg => if first.getLsbD 3 then 3 else 2
  | immAcc => if first.getLsbD 0 then 3 else 2
  | shortJump => 2

theorem length_bounds (family : Family) (first second : Byte) :
    2 ≤ family.length first second ∧ family.length first second ≤ 6 := by
  have hd : displacementSize second ≤ 2 := by unfold displacementSize; split <;> (try split) <;> (try split) <;> omega
  have hi : immediateSize first ≤ 2 := by unfold immediateSize; split <;> omega
  cases family <;> simp only [length] <;> (try split) <;> omega

theorem sum_fields_modrm : ∀ second : Byte, (ModRM.ofByte second).fields.sum = displacementSize second := by decide

def ofForm : Form → Family
  | .rmReg _ _ => rmReg
  | .rmImm _ _ => immRm
  | .accMem _ _ => memAcc
  | .regImm _ => immReg
  | .accImm _ => immAcc
  | .rmSeg _ => rmSegment
  | .shortJump => shortJump

theorem group_eq_some : ∀ {field : BitVec 3} {op : Arith}, Form.group field = some op → field = op.code := by
  intro field op; cases op <;> revert field <;> decide

theorem of?_lookup {first second : Byte} {form : Form} {operation : Operation}
    (h : Form.lookup first second = some (form, operation)) : of? first second = some (ofForm form) := by
  unfold Form.lookup at h
  split at h <;> rename_i ho
  case h_7 =>
    obtain ⟨op, hg, he⟩ := Option.map_eq_some_iff.mp h
    cases he
    have hf := group_eq_some hg
    cases op <;> simp [of?, ofForm, ho, hf, Arith.code]
  case h_11 =>
    split at h <;> rename_i ho'
    · have h₁ : first ≠ 0x8C := by rintro rfl; cases ho'
      have h₂ : first ≠ 0x8E := by rintro rfl; cases ho'
      cases h; simp_all [of?, ofForm]
    · cases h; simp_all [of?, ofForm]
    · split at h <;> cases h <;> decide +revert
  all_goals cases h; simp [of?, ofForm, ho]

theorem sum_fields_rm (second : Byte) (ns : List Nat) :
    ([1] ++ ((ModRM.ofByte second).fields ++ ns)).sum = 1 + (displacementSize second + ns.sum) := by
  rw [List.sum_append, List.sum_append, sum_fields_modrm]
  rfl

theorem length_lookup {first second : Byte} {form : Form} {operation : Operation}
    (h : Form.lookup first second = some (form, operation)) :
    (ofForm form).length first second = 1 + (form.fields second).sum := by
  have hrm (w : Width) (d : Bool) : rmReg.length first second = 1 + ((Form.rmReg w d).fields second).sum := by
    have := sum_fields_rm second []
    rw [List.append_nil] at this
    rw [Form.fields, this, length, List.sum_nil]
    omega
  have hacc : immAcc.length first second = 1 + ((Form.accImm (Width.ofBit (first.getLsbD 0))).fields second).sum := by
    rw [length, Form.fields]; cases first.getLsbD 0 <;> rfl
  unfold Form.lookup at h
  split at h <;> rename_i ho
  case h_7 =>
    obtain ⟨op, hg, he⟩ := Option.map_eq_some_iff.mp h
    cases he
    rw [ofForm, length, Form.fields, sum_fields_rm, immediateSize, ho]
    cases first.getLsbD 0 <;> cases first.getLsbD 1 <;> simp [Width.ofBit, Width.size] <;> omega
  case h_10 =>
    cases h
    rw [ofForm, length, Form.fields, sum_fields_rm, immediateSize, ho]
    cases first.getLsbD 0 <;> simp [Width.ofBit, Width.size] <;> omega
  case h_11 =>
    split at h <;> rename_i ho'
    · cases h; rfl
    · cases h
      rw [ofForm, length, Form.fields, Register.View.width_ofField]
      cases first.getLsbD 3 <;> rfl
    · split at h <;> cases h <;> first | rfl | exact hrm .word true
  case h_9 => cases h; rfl
  all_goals cases h; first | exact hrm _ _ | exact hacc

end Family

/-! ## The bytes of the table are those of codes -/

theorem Width.exists_littleEndian : ∀ (w : Width) (bs : List Byte), bs.length = w.size →
    ∃ x : BitVec w.bits, w.littleEndian x = bs
  | .byte, [b], _ => ⟨b, rfl⟩
  | .word, [l, h], _ => by
    refine ⟨h ++ l, ?_⟩
    have hl : (h ++ l).extractLsb' 0 8 = l := BitVec.extractLsb'_append_eq_right
    have hh : (h ++ l).extractLsb' 8 8 = h := BitVec.extractLsb'_append_eq_left
    change [(h ++ l).extractLsb' 0 8, (h ++ l).extractLsb' 8 8] = _
    rw [hl, hh]

theorem Byte.eq_append_modrm : ∀ b : Byte, b.extractLsb' 6 2 ++ b.extractLsb' 3 3 ++ b.extractLsb' 0 3 = b := by decide

theorem Byte.eq_append_opcode : ∀ b : Byte,
    b.extractLsb' 2 6 ++ BitVec.ofBool (b.getLsbD 1) ++ (Width.ofBit (b.getLsbD 0)).bit = b := by
  decide

theorem Place.exists_of_bytes (second : Byte) (bs : List Byte) (h : bs.length = Family.displacementSize second) :
    ∃ p : Place, p.modrm (second.extractLsb' 3 3) = second ∧ p.displacement = bs := by
  have hm := Byte.eq_append_modrm second
  have h00 : ∀ mode : BitVec 2, mode ≠ 0b11 → mode ≠ 0b01 → mode ≠ 0b10 → mode = 0b00 := by decide
  unfold Family.displacementSize at h
  split at h
  · next h11 =>
    rw [h11] at hm
    obtain rfl := List.length_eq_zero_iff.mp h
    exact ⟨.register _, hm, rfl⟩
  next h11 =>
  split at h
  · next h01 =>
    rw [h01] at hm
    obtain ⟨b, rfl⟩ := List.length_eq_one_iff.mp h
    exact ⟨.near _ b, hm, rfl⟩
  next h01 =>
  by_cases h10 : second.extractLsb' 6 2 = 0b10
  · rw [if_pos (.inl h10)] at h
    rw [h10] at hm
    obtain ⟨x, rfl⟩ := Width.exists_littleEndian .word _ h
    exact ⟨.far _ x, hm, rfl⟩
  rw [h00 _ h11 h01 h10] at hm
  split at h
  · next hrm =>
    rw [hrm.resolve_left h10] at hm
    obtain ⟨x, rfl⟩ := Width.exists_littleEndian .word _ h
    exact ⟨.direct x, hm, rfl⟩
  · next hrm =>
    obtain rfl := List.length_eq_zero_iff.mp h
    exact ⟨.base _ (fun e => hrm (.inr e)), hm, rfl⟩

theorem Place.exists_of_append (second : Byte) (bs : List Byte) (n : Nat)
    (h : bs.length = Family.displacementSize second + n) :
    ∃ (p : Place) (data : List Byte), p.modrm (second.extractLsb' 3 3) = second ∧ p.displacement ++ data = bs ∧
      data.length = n := by
  obtain ⟨p, hp, hd⟩ := exists_of_bytes second (bs.take (Family.displacementSize second))
    (by rw [List.length_take]; omega)
  exact ⟨p, bs.drop (Family.displacementSize second), hp, by rw [hd, List.take_append_drop], by rw [List.length_drop]; omega⟩

theorem Byte.eq_append_immReg : ∀ b : Byte,
    b.extractLsb' 4 4 ++ (Width.ofBit (b.getLsbD 3)).bit ++ b.extractLsb' 0 3 = b := by
  decide

theorem Byte.eq_append_jump : ∀ b : Byte, b.extractLsb' 4 4 ++ b.extractLsb' 1 3 ++ BitVec.ofBool (b.getLsbD 0) = b := by
  decide

theorem Byte.eq_append_loop : ∀ b : Byte, b.extractLsb' 2 6 ++ b.extractLsb' 0 2 = b := by decide

theorem Test.exists_code (field : BitVec 3) : ∃ t : Test, t.code = field := by
  have : ∀ field : BitVec 3, (Test.ofField field).code = field := by decide
  exact ⟨_, this field⟩

namespace Code

theorem bytes_eq {c : Code} {first second : Byte} {rest : List Byte} (ho : c.opcode = first)
    (ht : c.tail = second :: rest) : c.bytes = first :: second :: rest := by
  rw [bytes, ho, ht]

theorem immediateSize_eq {first : Byte} : Family.immediateSize first =
    if first.getLsbD 1 ∧ first.extractLsb' 2 6 ≠ 0b110001 then 1 else (Width.ofBit (first.getLsbD 0)).size := by
  unfold Family.immediateSize
  cases first.getLsbD 0 <;> cases first.getLsbD 1 <;> simp [Width.ofBit, Width.size]

section
variable {first second : Byte} {rest : List Byte}

theorem exists_rmReg (ho : first.extractLsb' 2 6 ∈ [0b000000, 0b001010, 0b001110, 0b100010])
    (hl : rest.length + 2 = Family.rmReg.length first second) : ∃ c : Code, c.bytes = first :: second :: rest := by
  have hb := Byte.eq_append_opcode first
  obtain ⟨p, hp, rfl⟩ := Place.exists_of_bytes second rest (by rw [Family.length] at hl; omega)
  simp only [List.mem_cons, List.not_mem_nil, or_false] at ho
  rcases ho with ho | ho | ho | ho <;> rw [ho] at hb
  · exact ⟨.arithRm .add _ _ _ p, bytes_eq hb (by rw [tail, hp])⟩
  · exact ⟨.arithRm .sub _ _ _ p, bytes_eq hb (by rw [tail, hp])⟩
  · exact ⟨.arithRm .cmp _ _ _ p, bytes_eq hb (by rw [tail, hp])⟩
  · exact ⟨.movRm _ _ _ p, bytes_eq hb (by rw [tail, hp])⟩

theorem exists_immAcc (ho : first.extractLsb' 2 6 ∈ [0b000001, 0b001011, 0b001111])
    (hl : rest.length + 2 = Family.immAcc.length first second) : ∃ c : Code, c.bytes = first :: second :: rest := by
  have hb := Byte.eq_append_opcode first
  obtain ⟨x, hx⟩ := (Width.ofBit (first.getLsbD 0)).exists_littleEndian (second :: rest)
    (by rw [Family.length] at hl; revert hl; cases first.getLsbD 0 <;> simp [Width.ofBit, Width.size])
  simp only [List.mem_cons, List.not_mem_nil, or_false] at ho
  rcases ho with ho | ho | ho <;> rw [ho] at hb
  · exact ⟨.arithAcc .add _ _ x, bytes_eq hb hx⟩
  · exact ⟨.arithAcc .sub _ _ x, bytes_eq hb hx⟩
  · exact ⟨.arithAcc .cmp _ _ x, bytes_eq hb hx⟩

theorem exists_arithImm (ho : first.extractLsb' 2 6 = 0b100000) (hg : second.extractLsb' 3 3 ∈ [0b000, 0b101, 0b111])
    (hl : rest.length + 2 = Family.immRm.length first second) : ∃ c : Code, c.bytes = first :: second :: rest := by
  have hb := Byte.eq_append_opcode first
  rw [Family.length] at hl
  obtain ⟨p, data, hp, rfl, hdata⟩ := Place.exists_of_append second rest (Family.immediateSize first) (by omega)
  obtain ⟨op, hop⟩ : ∃ op : Arith, op.code = second.extractLsb' 3 3 := by
    simp only [List.mem_cons, List.not_mem_nil, or_false] at hg
    rcases hg with hg | hg | hg
    · exact ⟨.add, hg.symm⟩
    · exact ⟨.sub, hg.symm⟩
    · exact ⟨.cmp, hg.symm⟩
  rw [immediateSize_eq, ho] at hdata
  rw [ho] at hb
  -- S decides whether the data is a byte that is extended or a number of the width.
  cases hS : first.getLsbD 1 <;> rw [hS] at hb hdata
  · obtain ⟨x, rfl⟩ := Width.exists_littleEndian _ data hdata
    exact ⟨.arithImm op _ p x, bytes_eq hb (by rw [tail, hop, hp, List.cons_append])⟩
  · obtain ⟨b, rfl⟩ := List.length_eq_one_iff.mp hdata
    exact ⟨.arithExtended op _ p b, bytes_eq hb (by rw [tail, hop, hp, List.cons_append])⟩

theorem exists_movImm (ho : first.extractLsb' 2 6 = 0b110001)
    (hl : rest.length + 2 = Family.immRm.length first second) : ∃ c : Code, c.bytes = first :: second :: rest := by
  have hb := Byte.eq_append_opcode first
  rw [Family.length] at hl
  obtain ⟨p, data, hp, rfl, hdata⟩ := Place.exists_of_append second rest (Family.immediateSize first) (by omega)
  rw [immediateSize_eq, ho] at hdata
  rw [ho] at hb
  obtain ⟨x, rfl⟩ := Width.exists_littleEndian _ data (by simpa using hdata)
  exact ⟨.movImm _ _ _ p x, bytes_eq hb (by rw [tail, hp, List.cons_append])⟩

theorem exists_movAcc (ho : first.extractLsb' 2 6 = 0b101000)
    (hl : rest.length + 2 = Family.memAcc.length first second) : ∃ c : Code, c.bytes = first :: second :: rest := by
  have hb := Byte.eq_append_opcode first
  rw [ho] at hb
  rw [Family.length] at hl
  obtain ⟨x, hx⟩ := Width.exists_littleEndian .word (second :: rest) (by rw [List.length_cons, Width.size]; omega)
  exact ⟨.movAcc _ _ x, bytes_eq hb hx⟩

theorem exists_movReg (ho : first.extractLsb' 4 4 = 0b1011)
    (hl : rest.length + 2 = Family.immReg.length first second) : ∃ c : Code, c.bytes = first :: second :: rest := by
  have hb := Byte.eq_append_immReg first
  rw [ho] at hb
  obtain ⟨x, hx⟩ := (Width.ofBit (first.getLsbD 3)).exists_littleEndian (second :: rest)
    (by rw [Family.length] at hl; revert hl; cases first.getLsbD 3 <;> simp [Width.ofBit, Width.size])
  exact ⟨.movReg _ _ x, bytes_eq hb hx⟩

theorem exists_movSegment (ho : first ∈ [0x8C, 0x8E]) (hs : second.getLsbD 5 = false)
    (hl : rest.length + 2 = Family.rmSegment.length first second) : ∃ c : Code, c.bytes = first :: second :: rest := by
  obtain ⟨p, hp, rfl⟩ := Place.exists_of_bytes second rest (by rw [Family.length] at hl; omega)
  have hreg : ∀ b : Byte, b.getLsbD 5 = false → 0#1 ++ b.extractLsb' 3 2 = b.extractLsb' 3 3 := by decide
  have ht (d : Bool) : (movSegment d (second.extractLsb' 3 2) p).tail = second :: p.displacement := by
    rw [tail, hreg second hs, hp]
  simp only [List.mem_cons, List.not_mem_nil, or_false] at ho
  rcases ho with rfl | rfl
  · exact ⟨_, bytes_eq rfl (ht false)⟩
  · exact ⟨_, bytes_eq rfl (ht true)⟩

theorem exists_shortJump (ho : first.extractLsb' 4 4 = 0b0111 ∨ first.extractLsb' 2 6 = 0b111000)
    (hl : rest.length + 2 = Family.shortJump.length first second) : ∃ c : Code, c.bytes = first :: second :: rest := by
  obtain rfl : rest = [] := List.length_eq_zero_iff.mp (by rw [Family.length] at hl; omega)
  rcases ho with ho | ho
  · have hb := Byte.eq_append_jump first
    obtain ⟨t, ht⟩ := Test.exists_code (first.extractLsb' 1 3)
    rw [ho, ← ht] at hb
    exact ⟨.jump ⟨t, first.getLsbD 0⟩ second, bytes_eq hb rfl⟩
  · have hb := Byte.eq_append_loop first
    have h4 : ∀ field : BitVec 2, field = 0 ∨ field = 1 ∨ field = 2 ∨ field = 3 := by decide
    rw [ho] at hb
    rcases h4 (first.extractLsb' 0 2) with h | h | h | h <;> rw [h] at hb
    · exact ⟨.loop .notZero second, bytes_eq hb rfl⟩
    · exact ⟨.loop .zero second, bytes_eq hb rfl⟩
    · exact ⟨.loop .always second, bytes_eq hb rfl⟩
    · exact ⟨.jcxz second, bytes_eq hb rfl⟩

theorem exists_of_bytes {family : Family} (rest : List Byte) (hf : Family.of? first second = some family)
    (hs : family = .rmSegment → second.getLsbD 5 = false) (hl : rest.length + 2 = family.length first second) :
    ∃ c : Code, c.bytes = first :: second :: rest := by
  simp only [Family.of?] at hf
  split at hf
  · next ho => cases hf; exact exists_rmReg ho hl
  split at hf
  · next ho => cases hf; exact exists_immAcc ho hl
  split at hf
  · next ho =>
    split at hf
    · next hg => cases hf; exact exists_arithImm ho hg hl
    · cases hf
  split at hf
  · next ho => cases hf; exact exists_movImm ho hl
  split at hf
  · next ho => cases hf; exact exists_movAcc ho hl
  split at hf
  · next ho => cases hf; exact exists_movReg ho hl
  split at hf
  · next ho => cases hf; exact exists_movSegment ho (hs rfl) hl
  split at hf
  · next ho => cases hf; exact exists_shortJump ho hl
  · cases hf

end

end Code

/-! ## What decoding accepts -/

/-- At `offset` stand `n` bytes of an instruction of the table: its first two bytes select a family, and as many bytes
are there as the family asks for. -/
def Family.Fits (program : Array Byte) (offset n : Nat) : Prop :=
  ∃ first second family, program[offset]? = some first ∧ program[offset + 1]? = some second ∧
    of? first second = some family ∧ (family = .rmSegment → second.getLsbD 5 = false) ∧
    n = family.length first second ∧ offset + n ≤ program.size

theorem Family.Fits.le {program : Array Byte} {offset n : Nat} (h : Fits program offset n) : offset + n ≤ program.size := by
  obtain ⟨_, _, _, _, _, _, _, _, hn⟩ := h
  exact hn

theorem Family.Fits.bounds {program : Array Byte} {offset n : Nat} (h : Fits program offset n) : 2 ≤ n ∧ n ≤ 6 := by
  obtain ⟨first, second, family, _, _, _, _, rfl, _⟩ := h
  exact family.length_bounds first second

theorem Family.fits_of_decode {program : Array Byte} {offset : Nat} {d : Decoded} (h : decode program offset = .ok d) :
    Fits program offset d.size := by
  obtain ⟨first, second, form, operation, h₁, h₂, hl, hs, hsize, hn⟩ := exists_of_decode_eq_ok h
  have hreserved : ofForm form = .rmSegment → second.getLsbD 5 = false := by
    cases form <;> first | exact fun _ => hs | exact fun e => nomatch e
  exact ⟨first, second, ofForm form, h₁, h₂, of?_lookup hl, hreserved, by rw [hsize, length_lookup hl], hn⟩

theorem Code.exists_of_fits {program : Array Byte} {offset n : Nat} (h : Family.Fits program offset n) :
    ∃ c : Code, c.bytes = (program.toList.drop offset).take n := by
  obtain ⟨first, second, family, h₁, h₂, hf, hs, rfl, hn⟩ := h
  have hb := (family.length_bounds first second).1
  obtain ⟨ho₁, rfl⟩ := Array.getElem?_eq_some_iff.mp h₁
  obtain ⟨ho₂, rfl⟩ := Array.getElem?_eq_some_iff.mp h₂
  have hd : program.toList.drop offset = program[offset] :: program[offset + 1] :: program.toList.drop (offset + 2) := by
    rw [List.drop_eq_getElem_cons (by simpa using ho₁), List.drop_eq_getElem_cons (by simpa using ho₂)]
    simp only [Array.getElem_toList]
  obtain ⟨m, hm⟩ : ∃ m, family.length program[offset] program[offset + 1] = m + 2 := ⟨_, (Nat.sub_add_cancel hb).symm⟩
  obtain ⟨c, hc⟩ := exists_of_bytes ((program.toList.drop (offset + 2)).take m) hf hs
    (by rw [List.length_take, List.length_drop, Array.length_toList]; omega)
  exact ⟨c, by rw [hc, hd, hm, List.take_succ_cons, List.take_succ_cons]⟩

theorem decode_of_take {program : Array Byte} {offset n : Nat} (hn : offset + n ≤ program.size) {c : Code}
    (hc : c.bytes = (program.toList.drop offset).take n) : decode program offset = .ok c.decoded ∧ c.decoded.size = n := by
  refine ⟨c.decode_of_bytes (hc ▸ List.take_prefix _ _), ?_⟩
  change c.bytes.length = n
  rw [hc, List.length_take, List.length_drop, Array.length_toList]
  omega

theorem Decoded.ext {d e : Decoded} (hi : d.instruction = e.instruction) (hs : d.size = e.size) : d = e := by
  cases d; cases e; cases hi; cases hs; rfl

theorem Code.exists_of_decode {program : Array Byte} {offset : Nat} {d : Decoded} (h : decode program offset = .ok d) :
    ∃ c : Code, c.bytes = (program.toList.drop offset).take d.size ∧ c.decoded = d := by
  have hf := Family.fits_of_decode h
  obtain ⟨c, hc⟩ := exists_of_fits hf
  have hd := (decode_of_take hf.le hc).1
  rw [h] at hd
  cases hd
  exact ⟨c, hc, rfl⟩

/-- Decoding accepts exactly the instructions of the table, and reads each as its fields say. -/
theorem decode_exact (program : Array Byte) (offset : Nat) :
    ((∃ d, decode program offset = .ok d) ↔ ∃ n, Family.Fits program offset n) ∧
    ∀ d, decode program offset = .ok d ↔
      Family.Fits program offset d.size ∧ 2 ≤ d.size ∧ d.size ≤ 6 ∧
        ∃ c : Code, c.bytes = (program.toList.drop offset).take d.size ∧ c.instruction = d.instruction := by
  refine ⟨⟨?_, ?_⟩, fun d => ⟨?_, ?_⟩⟩
  · rintro ⟨d, h⟩
    exact ⟨d.size, Family.fits_of_decode h⟩
  · rintro ⟨n, hf⟩
    obtain ⟨c, hc⟩ := Code.exists_of_fits hf
    exact ⟨c.decoded, (decode_of_take hf.le hc).1⟩
  · intro h
    have hf := Family.fits_of_decode h
    obtain ⟨c, hc, rfl⟩ := Code.exists_of_decode h
    exact ⟨hf, hf.bounds.1, hf.bounds.2, c, hc, rfl⟩
  · rintro ⟨hf, _, _, c, hc, hi⟩
    obtain ⟨hd, hs⟩ := decode_of_take hf.le hc
    rw [hd, Decoded.ext hi hs]

end I8086
