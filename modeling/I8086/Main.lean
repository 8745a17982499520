import I8086.Command

/-! # The command line -/

namespace I8086

def hasNumber (code number : UInt32) : Bool := code == number || code == -number

def FileError.ofError : IO.Error → FileError
  | .noFileOrDirectory .. => .missing
  | .permissionDenied .. => .denied
  | .inappropriateType _ code _ => if hasNumber code 21 then .isDirectory else .notDirectory
  | e@(.resourceExhausted _ code _) => if hasNumber code 28 then .noSpace else .other e.toString
  | e@(.invalidArgument _ code _) => if hasNumber code 36 then .nameTooLong else .other e.toString
  | e => .other e.toString

def attempt {α β : Type} (f : α → β) (x : IO α) : IO (Except FileError β) := do
  match ← x.toBaseIO with
  | .ok a => return .ok (f a)
  | .error e => return .error (.ofError e)

def levelOf : Option String → Option Level
  | some "debug" => some .debug
  | some "trace" => some .trace
  | _ => none

def systemHost (level : Option Level) : Host IO where
  readFile path := attempt (fun bytes => bytes.data.map UInt8.toBitVec) (IO.FS.readBinFile path)
  createFile path := attempt id (IO.FS.writeBinFile path .empty)
  writeFile path bytes := attempt id (IO.FS.writeBinFile path bytes)
  print := IO.print
  note e := (level.elim [] fun l => Event.upTo l [e]).forM fun e => IO.eprintln e.text

def usage : String :=
  "Usage: i8086 [--exec [--dump PATH]] [--trace] FILE\n\n" ++
    "Lists the 8086 code of FILE, or executes it.\n\n" ++
    "  --exec       execute the program instead of listing it\n" ++
    "  --dump PATH  write the memory to PATH after the execution\n" ++
    "  --trace      note the registers before every instruction, shown with I8086_LOG=debug\n"

end I8086

open I8086 in
def main (args : List String) : IO UInt32 := do
  match Options.ofArgs args with
  | .error .help =>
    IO.print usage
    return 0
  | .error .invalid =>
    IO.eprint usage
    return 2
  | .ok options =>
    let level := levelOf (← IO.getEnv "I8086_LOG")
    match ← Command.run (systemHost level) options with
    | .ok () => return 0
    | .error failure =>
      IO.eprint failure.report
      return 1
