import I8086.Error
import I8086.Encoding
import I8086.Register

/-!
# Output

What a listing or a run writes, and what it notes about itself as it goes.
-/

namespace I8086

/-! ## Sinks: output that takes a limited number of bytes -/

structure Sink where
  limit : Nat
  written : ByteArray

namespace Sink

def ofLimit (limit : Nat) : Sink := ⟨limit, .empty⟩

def room (s : Sink) : Nat := s.limit - s.written.size

/-- Takes all bytes, or fails with the first ones that fit. No bytes always fit. -/
def append (bytes : ByteArray) : EStateM Error Sink Unit := fun s =>
  if bytes.size ≤ s.room then .ok () { s with written := s.written ++ bytes }
  else .error .outputFull { s with written := s.written ++ bytes.extract 0 s.room }

def write (text : String) : EStateM Error Sink Unit := append text.toUTF8

/-- What was written, read as UTF-8. Only a sink that cut a character off holds bytes that are no text. -/
def text (s : Sink) : String := (String.fromUTF8? s.written).getD "\uFFFD"

theorem room_lt_of_append {bytes : ByteArray} {s t : Sink} (hne : bytes.size ≠ 0) (h : append bytes s = .ok () t) :
    t.room < s.room := by
  unfold append at h
  split at h
  · next hroom =>
    cases h
    simp only [room, ByteArray.size_append] at hroom ⊢
    omega
  · cases h

theorem room_lt_of_write {text : String} {s t : Sink} (hne : text ≠ "") (h : write text s = .ok () t) :
    t.room < s.room :=
  room_lt_of_append (fun e => hne (String.utf8ByteSize_eq_zero_iff.mp e)) h

end Sink

/-! ## Journals: what a listing or a run notes about itself as it goes -/

inductive Level
  | debug | trace
  deriving DecidableEq

inductive Event
  | simulating (size : Nat)
  | state (registers : Register.File)
  | decoded (offset : Nat) (d : Decoded)
  | finished (executed : Nat)
  deriving DecidableEq

namespace Event

def level : Event → Level
  | decoded _ _ => .trace
  | _ => .debug

def message : Event → String
  | simulating size => "Simulating " ++ size.repr ++ " bytes of code"
  | state registers => registers.stateLine
  | decoded offset d => Text.hex 4 offset ++ ": " ++ d.instruction.text ++ " (" ++ d.size.repr ++ " bytes)"
  | finished executed => "Simulation finished after " ++ executed.repr ++ " instructions"

def text (e : Event) : String :=
  match e.level with
  | .debug => "DEBUG " ++ e.message
  | .trace => "TRACE " ++ e.message

def upTo (level : Level) (events : List Event) : List Event :=
  match level with
  | .trace => events
  | .debug => events.filter (·.level = .debug)

end Event

abbrev Journal := List Event

end I8086
