import I8086.Program.Listing
import I8086.Simulator.Run

/-!
# The command

A file is listed or executed, on any host that has files and an output.
-/

namespace I8086

/-! ## Options: the command line, from its arguments -/

structure Options where
  file : String
  execute : Bool
  dump : Option String
  trace : Bool
  deriving DecidableEq

namespace Options

inductive Refusal
  | help
  | invalid
  deriving DecidableEq

structure Seen where
  file : Option String
  execute : Bool
  dump : Option String
  trace : Bool

namespace Seen

def addFile (s : Seen) (arg : String) : Except Refusal Seen :=
  if arg = "" ∨ s.file.isSome then .error .invalid else .ok { s with file := some arg }

def addDump (s : Seen) (value : String) : Except Refusal Seen :=
  if value = "" ∨ s.dump.isSome then .error .invalid else .ok { s with dump := some value }

def isOption (arg : String) : Bool :=
  match arg.toList with
  | ['-'] => false
  | '-' :: _ => true
  | _ => false

/-- Adds arguments from left to right, and stops at the first that does not belong. No option is given twice or cut
short, and behind two dashes there are no options. -/
def add (s : Seen) : List String → Except Refusal Seen
  | [] => .ok s
  | "--" :: rest => rest.foldlM addFile s
  | "--help" :: _ => .error .help
  | "--exec" :: rest => if s.execute then .error .invalid else { s with execute := true }.add rest
  | "--trace" :: rest => if s.trace then .error .invalid else { s with trace := true }.add rest
  | "--dump" :: value :: rest => do
    if isOption value then throw .invalid
    (← s.addDump value).add rest
  | arg :: rest => do
    match "--dump=".toList.isPrefixOf? arg.toList with
    | some value => (← s.addDump (String.ofList value)).add rest
    | none =>
      if isOption arg then throw (if "-h".toList.isPrefixOf arg.toList then .help else .invalid)
      (← s.addFile arg).add rest

end Seen

def ofArgs (args : List String) : Except Refusal Options := do
  let s ← Seen.add ⟨none, false, none, false⟩ args
  match s.file with
  | none => .error .invalid
  | some file =>
    if s.dump.isSome ∧ ¬s.execute then .error .invalid else return ⟨file, s.execute, s.dump, s.trace⟩

end Options

/-! ## The command: a file is listed or executed, on any host that has files and an output -/

inductive FileError
  | missing | denied | notDirectory | isDirectory | noSpace | nameTooLong
  | other (details : String)
  deriving DecidableEq

def FileError.message : FileError → String
  | missing => "No such file or directory (os error 2)"
  | denied => "Permission denied (os error 13)"
  | notDirectory => "Not a directory (os error 20)"
  | isDirectory => "Is a directory (os error 21)"
  | noSpace => "No space left on device (os error 28)"
  | nameTooLong => "File name too long (os error 36)"
  | other details => details

structure Host (m : Type → Type) where
  readFile : String → m (Except FileError (Array Byte))
  createFile : String → m (Except FileError Unit)
  writeFile : String → ByteArray → m (Except FileError Unit)
  print : String → m Unit
  note : Event → m Unit

namespace Command

inductive Failure
  | read (file : String) (e : FileError)
  | create (file : String) (e : FileError)
  | write (e : FileError)
  | program (e : Error)
  deriving DecidableEq

def Failure.report : Failure → String
  | read file e => "Error: failed to read " ++ file ++ "\n\nCaused by:\n    " ++ e.message ++ "\n"
  | create file e => "Error: failed to create " ++ file ++ "\n\nCaused by:\n    " ++ e.message ++ "\n"
  | write e => "Error: " ++ e.message ++ "\n"
  | program e => "Error: " ++ e.message ++ "\n"

variable {m : Type → Type} [Monad m]

def list (host : Host m) (program : Array Byte) : m (Except Failure Unit) := do
  let walk := Walk.ofProgram program
  walk.events.forM host.note
  host.print (Listing.text program)
  return match walk.error? with
    | none => .ok ()
    | some e => .error (.program e)

def patience : Nat := 0x10000000000000000

@[specialize] def stepOn (host : Host m) (s : Simulator) : Nat → m (Except Failure Machine)
  | 0 => return .ok s.machine
  | n + 1 =>
    match Simulator.step { s with journal := [] } with
    | .error e s => do
      s.journal.reverse.forM host.note
      return .error (.program e)
    | .ok none s => do
      host.print s.report
      host.note (.finished s.executed)
      return .ok s.machine
    | .ok (some x) s => do
      s.journal.reverse.forM host.note
      host.print x.line
      stepOn host s n

def execute (host : Host m) (program : Array Byte) (trace : Bool) : m (Except Failure Machine) := do
  host.note (.simulating program.size)
  stepOn host (.ofProgram program trace) patience

def dump (host : Host m) (memory : Memory) (file : String) : m (Except Failure Unit) := do
  match ← host.createFile file with
  | .error e => return .error (.create file e)
  | .ok () =>
    match ← host.writeFile file memory.image with
    | .error e => return .error (.write e)
    | .ok () => return .ok ()

def run (host : Host m) (o : Options) : m (Except Failure Unit) := do
  match ← host.readFile o.file with
  | .error e => return .error (.read o.file e)
  | .ok program =>
    if !o.execute then list host program
    else match ← execute host program o.trace, o.dump with
      | .error e, _ => return .error e
      | .ok _, none => return .ok ()
      | .ok machine, some file => dump host machine.memory file

end Command

end I8086
