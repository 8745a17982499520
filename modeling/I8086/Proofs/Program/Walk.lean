import I8086.Program.Listing
import I8086.Proofs.Encoding.Table
import I8086.Proofs.Encoding.Decode

/-! # Walks through a program -/

namespace I8086

/-!
## Walks tile programs

The items of a walk lie one behind the other, each where the last one ends, up to the end of the program or to an error.
-/

theorem le_of_decode {program : Array Byte} {offset : Nat} {d : Decoded} (h : decode program offset = .ok d) :
    offset + d.size ≤ program.size :=
  (Family.fits_of_decode h).le

/-- The items that cover a program from `offset` on. -/
inductive Tiles (program : Array Byte) : Nat → List (Except Error Walk.Item) → Prop
  | finished {offset : Nat} (size : program.size ≤ offset) : Tiles program offset []
  | undecoded {offset : Nat} {e : Error} (size : offset < program.size) (decode : decode program offset = .error e) :
    Tiles program offset [.error e]
  | decoded {offset : Nat} {d : Decoded} {items : List (Except Error Walk.Item)} (size : offset < program.size)
    (decode : decode program offset = .ok d) (tiles : Tiles program (offset + d.size) items) :
    Tiles program offset (.ok ⟨offset, d⟩ :: items)

namespace Walk

def Item.place (item : Item) : Nat × Instruction := (item.offset, item.decoded.instruction)

def found (items : List (Except Error Item)) : List Item := items.filterMap Except.toOption

def failure? (items : List (Except Error Item)) : Option Error :=
  items.findSome? fun
    | .ok _ => none
    | .error e => some e

theorem found_ok (item : Item) (items : List (Except Error Item)) : found (.ok item :: items) = item :: found items := rfl

theorem failure?_ok (item : Item) (items : List (Except Error Item)) : failure? (.ok item :: items) = failure? items := rfl

theorem items_of_none {w : Walk} (h : w.next? = none) : w.items = [] := by
  unfold items
  split
  · rfl
  · next hw => cases h.symm.trans hw

theorem items_of_some {w v : Walk} {x : Except Error Item} (h : w.next? = some (x, v)) : w.items = x :: v.items := by
  conv => lhs; unfold items
  split
  · next hw => cases h.symm.trans hw
  · next hw =>
    cases h.symm.trans hw
    rfl

theorem items_of_failed {w : Walk} (h : w.failed = true) : w.items = [] :=
  items_of_none (by rw [next?, if_pos (.inl h)])

theorem tiles_items (w : Walk) (h : w.failed = false) : Tiles w.program w.offset w.items := by
  unfold items
  split
  · next hnext =>
    rw [next?] at hnext
    split at hnext
    · next hw =>
      simp only [h, Bool.false_eq_true, false_or] at hw
      exact .finished hw
    · split at hnext <;> cases hnext
  · next x v hnext =>
    have hroom := room_lt_of_next? hnext
    rw [next?] at hnext
    split at hnext
    · cases hnext
    · next hw =>
      have size := Nat.lt_of_not_le (not_or.mp hw).2
      split at hnext
      · next d hd =>
        cases hnext
        exact .decoded size hd (tiles_items { w with offset := w.offset + d.size } h)
      · next e he =>
        cases hnext
        have hitems : Walk.items { w with failed := true } = [] := items_of_failed rfl
        rw [hitems]
        exact .undecoded size he
termination_by w.room

theorem tiles_ofProgram (program : Array Byte) : Tiles program 0 (ofProgram program).items :=
  tiles_items (ofProgram program) rfl

end Walk

namespace Tiles

variable {program : Array Byte} {offset : Nat} {items : List (Except Error Walk.Item)} {item : Walk.Item}

theorem unique {items' : List (Except Error Walk.Item)} (h : Tiles program offset items) (h' : Tiles program offset items') :
    items = items' := by
  induction h generalizing items' with
  | finished size =>
    cases h' with
    | finished => rfl
    | undecoded size' => exact absurd size (Nat.not_le.mpr size')
    | decoded size' => exact absurd size (Nat.not_le.mpr size')
  | undecoded size decode =>
    cases h' with
    | finished size' => exact absurd size' (Nat.not_le.mpr size)
    | undecoded _ decode' =>
      cases decode.symm.trans decode'
      rfl
    | decoded _ decode' => cases decode.symm.trans decode'
  | decoded size decode tiles ih =>
    cases h' with
    | finished size' => exact absurd size' (Nat.not_le.mpr size)
    | undecoded _ decode' => cases decode.symm.trans decode'
    | decoded _ decode' tiles' =>
      cases decode.symm.trans decode'
      rw [ih tiles']

theorem eq_append (h : Tiles program offset items) :
    items = (Walk.found items).map .ok ++ ((Walk.failure? items).map .error).toList := by
  induction h with
  | finished | undecoded => rfl
  | @decoded offset d items size decode tiles ih =>
    rw [Walk.found_ok, Walk.failure?_ok, List.map_cons, List.cons_append, ← ih]

theorem decode_of_mem (h : Tiles program offset items) (hi : .ok item ∈ items) :
    decode program item.offset = .ok item.decoded := by
  induction h with
  | finished => cases hi
  | undecoded => cases hi with
    | tail _ hi => cases hi
  | decoded size decode tiles ih =>
    cases hi with
    | head => exact decode
    | tail _ hi => exact ih hi

theorem next_of_mem (h : Tiles program offset items) (herror : ∀ e, .error e ∉ items) (hi : .ok item ∈ items) :
    program.size ≤ item.offset + item.decoded.size ∨
      ∃ next, .ok next ∈ items ∧ next.offset = item.offset + item.decoded.size := by
  induction h with
  | finished => cases hi
  | undecoded => cases hi with
    | tail _ hi => cases hi
  | @decoded offset d items size decode tiles ih =>
    cases hi with
    | tail _ hi =>
      have herror' : ∀ e, .error e ∉ items := fun e he => herror e (.tail _ he)
      rcases ih herror' hi with hend | ⟨next, hn, ho⟩
      · exact .inl hend
      · exact .inr ⟨next, .tail _ hn, ho⟩
    | head =>
      cases tiles with
      | finished size => exact .inl size
      | undecoded => exact absurd (.tail _ (.head _)) (herror _)
      | decoded => exact .inr ⟨_, .tail _ (.head _), rfl⟩

end Tiles

namespace Walk

theorem items_eq_append (w : Walk) : w.items = (found w.items).map .ok ++ (w.error?.map .error).toList := by
  cases hf : w.failed with
  | true =>
    rw [error?, items_of_failed hf]
    rfl
  | false => exact (tiles_items w hf).eq_append

theorem error_not_mem {w : Walk} (h : w.error? = none) (e : Error) : .error e ∉ w.items := by
  intro he
  rw [error?, List.findSome?_eq_none_iff] at h
  cases h _ he

theorem instructions_eq (w : Walk) : w.instructions = (found w.items).map fun item => item.decoded.instruction := by
  rw [found, List.map_filterMap, instructions]
  apply congrArg (List.filterMap · w.items)
  funext x
  cases x <;> rfl

theorem mem_instructions {w : Walk} {item : Item} (h : .ok item ∈ w.items) :
    item.decoded.instruction ∈ w.instructions :=
  List.mem_filterMap.mpr ⟨_, h, rfl⟩

end Walk

/-!
## Walks through two programs

A walk that gets to the end of a program goes on in what is appended to it as a walk of that alone would, only that all
offsets are further on.
-/

namespace Walk

def Item.shift (n : Nat) (item : Item) : Item := { item with offset := n + item.offset }

def shift (n : Nat) : Except Error Item → Except Error Item
  | .ok item => .ok (item.shift n)
  | .error e => .error (e.shift n)

variable (n : Nat) (items : List (Except Error Item))

theorem found_map_shift : found (items.map (shift n)) = (found items).map (Item.shift n) := by
  induction items with
  | nil => rfl
  | cons x items ih =>
    cases x with
    | ok item => exact congrArg (item.shift n :: ·) ih
    | error e => exact ih

theorem failure?_map_shift : failure? (items.map (shift n)) = (failure? items).map (Error.shift n) := by
  induction items with
  | nil => rfl
  | cons x items ih =>
    cases x with
    | ok item => exact ih
    | error e => rfl

theorem failure?_append (rest : List (Except Error Item)) :
    failure? (items ++ rest) = (failure? items).or (failure? rest) := List.findSome?_append

end Walk

namespace Tiles

open Walk

variable {p q : Array Byte} {offset : Nat} {items rest : List (Except Error Item)}

theorem append (h : Tiles p offset items) (he : failure? items = none) (hle : offset ≤ p.size)
    (hrest : Tiles (p ++ q) p.size rest) : Tiles (p ++ q) offset (items ++ rest) := by
  induction h with
  | finished size =>
    rw [Nat.le_antisymm hle size]
    exact hrest
  | undecoded => cases he
  | @decoded offset d items size decode tiles ih =>
    have hend := le_of_decode decode
    have hsame : SameBytes d.size p offset (p ++ q) offset := by
      intro i hi
      exact Array.getElem?_append_left (by omega)
    refine .decoded ?_ (decode_of_sameBytes decode hsame) (ih he hend)
    rw [Array.size_append]
    omega

theorem shift (h : Tiles q offset items) : Tiles (p ++ q) (p.size + offset) (items.map (Walk.shift p.size)) := by
  induction h with
  | finished size =>
    refine .finished ?_
    rw [Array.size_append]
    omega
  | @undecoded offset e size decode =>
    refine .undecoded ?_ ?_
    · rw [Array.size_append]
      omega
    · rw [decode_append, decode]
      rfl
  | @decoded offset d items size decode tiles ih =>
    refine .decoded ?_ ?_ (by rwa [Nat.add_assoc])
    · rw [Array.size_append]
      omega
    · rw [decode_append, decode]
      rfl

end Tiles

namespace Walk

variable {p : Array Byte} (h : (ofProgram p).error? = none) (q : Array Byte)
include h

theorem items_append : (ofProgram (p ++ q)).items = (ofProgram p).items ++ (ofProgram q).items.map (shift p.size) :=
  (tiles_ofProgram (p ++ q)).unique
    ((tiles_ofProgram p).append h (Nat.zero_le _) (tiles_ofProgram q).shift)

theorem error?_append : (ofProgram (p ++ q)).error? = (ofProgram q).error?.map (Error.shift p.size) := by
  have herror : failure? (ofProgram (p ++ q)).items = (failure? (ofProgram q).items).map (Error.shift p.size) := by
    rw [items_append h q, failure?_append, failure?_map_shift]
    exact congrArg (Option.or · _) h
  exact herror

theorem instructions_append : (ofProgram (p ++ q)).instructions = (ofProgram p).instructions ++ (ofProgram q).instructions := by
  rw [instructions_eq, instructions_eq, instructions_eq, items_append h q, found, List.filterMap_append, ← found, ← found,
    found_map_shift, List.map_append, List.map_map]
  rfl

end Walk

/-!
## Walks, item by item

What a walk answers when it is asked for its next item again and again: the instructions that cover the program one
behind the other, an error if there is one, and nothing from then on (`walk_tiles`).
-/

namespace Walk

def call (w : Walk) : Option (Except Error Item) × Walk :=
  match w.next? with
  | none => (none, w)
  | some (x, v) => (some x, v)

def answer (w : Walk) : Nat → Option (Except Error Item)
  | 0 => w.call.1
  | n + 1 => w.call.2.answer n

def covered (items : List Item) : Nat := (items.map fun item => item.decoded.size).sum

theorem covered_cons (item : Item) (items : List Item) : covered (item :: items) = item.decoded.size + covered items := by
  rw [covered, List.map_cons, List.sum_cons, covered]

theorem answer_of_none {w : Walk} (h : w.next? = none) (n : Nat) : w.answer n = none := by
  induction n with
  | zero => rw [answer, call, h]
  | succ n ih => rw [answer, call, h, ih]

theorem answer_eq (w : Walk) (n : Nat) : w.answer n = w.items[n]? := by
  cases hnext : w.next? with
  | none => rw [answer_of_none hnext, items_of_none hnext, List.getElem?_nil]
  | some next =>
    obtain ⟨x, v⟩ := next
    rw [items_of_some hnext]
    cases n with
    | zero => rw [answer, call, hnext, List.getElem?_cons_zero]
    | succ n => rw [answer, call, hnext, answer_eq v n, List.getElem?_cons_succ]

end Walk

namespace Tiles

open Walk

variable {program : Array Byte} {offset : Nat} {items : List (Except Error Item)}

theorem two_mul_length_le (h : Tiles program offset items) : 2 * (found items).length ≤ covered (found items) := by
  induction h with
  | finished | undecoded => exact Nat.le_refl 0
  | @decoded offset d items size decode tiles ih =>
    have hbounds := (Family.fits_of_decode decode).bounds
    rw [found_ok, covered_cons, List.length_cons]
    change 2 * ((found items).length + 1) ≤ d.size + covered (found items)
    omega

theorem offset_eq (h : Tiles program offset items) {i : Nat} {item : Item} (hi : (found items)[i]? = some item) :
    item.offset = offset + covered ((found items).take i) := by
  induction h generalizing i with
  | finished | undecoded => cases hi
  | @decoded offset d items size decode tiles ih =>
    rw [found_ok] at hi ⊢
    cases i with
    | zero =>
      cases hi
      rfl
    | succ i =>
      rw [List.getElem?_cons_succ] at hi
      rw [List.take_succ_cons, covered_cons, ih hi, Nat.add_assoc]

theorem end_eq (h : Tiles program offset items) (hle : offset ≤ program.size) :
    match failure? items with
    | none => offset + covered (found items) = program.size
    | some e => offset + covered (found items) < program.size ∧ decode program (offset + covered (found items)) = .error e := by
  induction h with
  | finished size => exact Nat.le_antisymm hle size
  | undecoded size decode => exact ⟨size, decode⟩
  | @decoded offset d items size decode tiles ih =>
    rw [failure?_ok, found_ok, covered_cons, ← Nat.add_assoc]
    exact ih (le_of_decode decode)

end Tiles

namespace Walk

theorem length_of_getElem?_error {w : Walk} {e : Error} {n : Nat} (h : w.items[n]? = some (.error e)) :
    w.items.length = n + 1 := by
  rw [items_eq_append, List.getElem?_append] at h
  split at h
  · rw [List.getElem?_map] at h
    cases hfound : (found w.items)[n]? <;> rw [hfound] at h <;> cases h
  · next hn =>
    rw [items_eq_append, List.length_append]
    cases he : w.error? with
    | none =>
      rw [he] at h
      cases h
    | some e' =>
      rw [he] at h
      obtain ⟨hlt, _⟩ := List.getElem?_eq_some_iff.mp h
      change _ < 1 at hlt
      change _ + 1 = n + 1
      omega

/-- A walk of a program answers with at most half as many instructions as there are bytes, each where the ones before it
end, and then with an error or not at all. If there is no error they cover the program, else the error is where they
end. A walk that has once answered with an error or nothing answers nothing from then on. -/
theorem walk_tiles :
    (∀ program : Array Byte,
      let walk := ofProgram program
      let instructions := found walk.items
      (∀ n, walk.answer n = (instructions.map .ok ++ (walk.error?.map .error).toList)[n]?) ∧
      2 * instructions.length ≤ program.size ∧
      (∀ i item, instructions[i]? = some item →
        item.offset = covered (instructions.take i) ∧ decode program item.offset = .ok item.decoded) ∧
      match walk.error? with
      | none => covered instructions = program.size
      | some e => covered instructions < program.size ∧ decode program (covered instructions) = .error e) ∧
    ∀ (w : Walk) (m n : Nat), (w.answer m = none ∨ ∃ e, w.answer m = some (.error e)) → m < n → w.answer n = none := by
  refine ⟨?_, ?_⟩
  · intro program walk instructions
    have htiles := tiles_ofProgram program
    have hend := htiles.end_eq (Nat.zero_le _)
    rw [Nat.zero_add] at hend
    have hle : covered instructions ≤ program.size := by
      split at hend
      · exact Nat.le_of_eq hend
      · exact Nat.le_of_lt hend.1
    refine ⟨?_, Nat.le_trans htiles.two_mul_length_le hle, ?_, hend⟩
    · intro n
      rw [answer_eq, ← items_eq_append]
    · intro i item hi
      have hmem : .ok item ∈ walk.items := by
        rw [items_eq_append]
        exact List.mem_append_left _ (List.mem_map_of_mem (List.mem_of_getElem? hi))
      have hoffset := htiles.offset_eq hi
      rw [Nat.zero_add] at hoffset
      exact ⟨hoffset, htiles.decode_of_mem hmem⟩
  · intro w m n hm hmn
    rw [answer_eq] at hm ⊢
    rw [List.getElem?_eq_none_iff]
    rcases hm with hm | ⟨e, hm⟩
    · rw [List.getElem?_eq_none_iff] at hm
      omega
    · rw [length_of_getElem?_error hm]
      omega

theorem walk_tiles_to_cut_instruction :
    (ofProgram #[0x89, 0xD9, 0xB8]).answer 1 = some (.error (.truncated 2 2 1)) ∧
      ∀ n, (ofProgram #[0x89, 0xD9, 0xB8]).answer (n + 2) = none := by
  have hcut : (ofProgram #[0x89, 0xD9, 0xB8]).answer 1 = some (.error (.truncated 2 2 1)) := rfl
  exact ⟨hcut, fun n => walk_tiles.2 _ 1 (n + 2) (.inr ⟨_, hcut⟩) (by omega)⟩

end Walk

end I8086
