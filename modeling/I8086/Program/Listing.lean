import I8086.Encoding
import I8086.Output

/-!
# Programs

The instructions of a program one behind the other, and their listing.
-/

namespace I8086

/-! ## Walks: the instructions of a program one behind the other, up to the first bad one -/

/-- The length of a bad instruction is unknown, so a walk that met one has no next item. -/
structure Walk where
  program : Array Byte
  offset : Nat
  failed : Bool

namespace Walk

structure Item where
  offset : Nat
  decoded : Decoded
  deriving DecidableEq

def ofProgram (program : Array Byte) : Walk := ⟨program, 0, false⟩

def next? (w : Walk) : Option (Except Error Item × Walk) :=
  if w.failed ∨ w.program.size ≤ w.offset then none
  else match decode w.program w.offset with
    | .ok d => some (.ok ⟨w.offset, d⟩, { w with offset := w.offset + d.size })
    | .error e => some (.error e, { w with failed := true })

def room (w : Walk) : Nat := if w.failed then 0 else w.program.size - w.offset

theorem room_lt_of_next? {w v : Walk} {x : Except Error Item} (h : w.next? = some (x, v)) : v.room < w.room := by
  unfold next? at h
  split at h
  · cases h
  · next hw =>
    obtain ⟨hf, ho⟩ := not_or.mp hw
    split at h
    · next d _ =>
      cases h
      have := d.size_pos
      simp only [room, hf, Bool.false_eq_true, if_false]
      omega
    · cases h
      simp only [room, hf, Bool.false_eq_true, if_false, if_true]
      omega

def items (w : Walk) : List (Except Error Item) :=
  match _h : w.next? with
  | none => []
  | some (x, v) => x :: v.items
termination_by w.room
decreasing_by exact room_lt_of_next? _h

def instructions (w : Walk) : List Instruction :=
  w.items.filterMap fun
    | .ok item => some item.decoded.instruction
    | .error _ => none

def error? (w : Walk) : Option Error :=
  w.items.findSome? fun
    | .ok _ => none
    | .error e => some e

end Walk

/-! ## Listings: a program as assembly text, an instruction a line -/

namespace Walk

def Item.event (item : Item) : Event := .decoded item.offset item.decoded

def events (w : Walk) : List Event :=
  w.items.filterMap fun
    | .ok item => some item.event
    | .error _ => none

end Walk

namespace Listing

def header : String := "bits 16\n\n"

def line (i : Instruction) : String := i.text ++ "\n"

structure Draft where
  sink : Sink
  journal : Journal

def Draft.ofLimit (limit : Nat) : Draft := ⟨.ofLimit limit, []⟩

def write (text : String) : EStateM Error Draft Unit := fun d =>
  match Sink.write text d.sink with
  | .ok _ sink => .ok () { d with sink }
  | .error e sink => .error e { d with sink }

def writeItems : List (Except Error Walk.Item) → EStateM Error Draft Unit
  | [] => pure ()
  | .error e :: _ => throw e
  | .ok item :: rest => do
    modify fun d => { d with journal := item.event :: d.journal }
    write (line item.decoded.instruction)
    writeItems rest

def writeProgram (program : Array Byte) : EStateM Error Draft Unit := do
  write header
  writeItems (Walk.ofProgram program).items

def text (program : Array Byte) : String :=
  String.join (header :: (Walk.ofProgram program).instructions.map line)

/-- A listing that is written to a sink of its own and read back from there. -/
def ofProgramWithin (limit : Nat) (program : Array Byte) : Except Error String :=
  match writeProgram program (.ofLimit limit) with
  | .ok _ d => .ok d.sink.text
  | .error e _ => .error e

-- With more room than this nothing would be different.
def ofProgram (program : Array Byte) : Except Error String :=
  ofProgramWithin (text program).utf8ByteSize program

end Listing

end I8086
