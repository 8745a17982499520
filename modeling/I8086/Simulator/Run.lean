import I8086.Output
import I8086.Machine

/-!
# Simulators

A machine that executes a program, one instruction after the other, until it ends, fails or has no more room for output.
-/

namespace I8086

/-! ## Simulators: a machine that executes a program, one instruction after the other -/

/-- Code is fetched from `program` and never from the machine's memory. -/
structure Simulator where
  machine : Machine
  program : Array Byte
  tracing : Bool
  executed : Nat
  journal : Journal

structure Step where
  address : Word
  instruction : Instruction
  before : Register.File
  after : Register.File
  deriving DecidableEq

namespace Step

def changeText (change : Register × Word × Word) : String :=
  let (r, before, after) := change
  " " ++ r.name ++ ":0x" ++ Text.hex 1 before.toNat ++ "->0x" ++ Text.hex 1 after.toNat

/-- FLAGS by its letters, where any of its bits has changed. -/
def flagsText (before after : Word) : String :=
  if before = after then "" else " flags:" ++ Flag.letters before ++ "->" ++ Flag.letters after

def text (s : Step) : String :=
  Text.padRight 20 s.instruction.text ++ " ;" ++
    String.join ((s.before.changed s.after).map changeText) ++
    flagsText (s.before.word .flags) (s.after.word .flags)

def line (s : Step) : String := s.text ++ "\n"

theorem line_ne_empty (s : Step) : s.line ≠ "" := by simp [line]

end Step

namespace Simulator

/-- The longest program whose end IP can reach without starting over. -/
def maxProgramSize : Nat := 65535

def ofProgram (program : Array Byte) (tracing : Bool) : Simulator := ⟨.zero, program, tracing, 0, []⟩

def ip (s : Simulator) : Word := s.machine.registers.word .ip

def finished (s : Simulator) : Bool := s.program.size ≤ s.ip.toNat

def note (s : Simulator) (e : Event) : Simulator := { s with journal := e :: s.journal }

def onMachine {α : Type} (x : EStateM Error Machine α) : EStateM Error Simulator α := fun s =>
  match x s.machine with
  | .ok a machine => .ok a { s with machine }
  | .error e machine => .error e { s with machine }

/-- Executes the instruction at IP, which moves behind it first; nothing is left to do at the end of the program. -/
def step : EStateM Error Simulator (Option Step) := do
  let s ← get
  if maxProgramSize < s.program.size then throw (.programTooLarge s.program.size)
  else if s.finished then return none
  else
    if s.tracing then modify (note · (.state s.machine.registers))
    let d ← ofExcept (decode s.program s.ip.toNat)
    modify (note · (.decoded s.ip.toNat d))
    onMachine (Machine.modifyRegisters fun f => f.modify .ip (· + BitVec.ofNat 16 d.size))
    onMachine (Machine.execute d.instruction)
    modify fun t => { t with executed := t.executed + 1 }
    return some ⟨s.ip, d.instruction, s.machine.registers, (← get).machine.registers⟩

end Simulator

/-! ## Runs: steps to the end of the program, to an error, or to a limit -/

inductive Stop
  | limit
  | finished
  | failed (e : Error)
  deriving DecidableEq

namespace Simulator

def steps : Nat → Simulator → Stop × Simulator
  | 0, s => (.limit, s)
  | n + 1, s =>
    match step s with
    | .ok (some _) t => t.steps n
    | .ok none t => (.finished, t)
    | .error e t => (.failed e, t)

def report (s : Simulator) : String := "\n" ++ s.machine.registers.summary ++ "\n"

/-- Writes a line for each step and the report at the end. Each line takes room, so the sink ends a run that would not
end by itself. -/
def runFrom (s : Simulator) (out : Sink) : EStateM.Result Error (Simulator × Sink) Unit :=
  match step s with
  | .error e s => .error e (s, out)
  | .ok none s =>
    match Sink.write s.report out with
    | .error e out => .error e (s, out)
    | .ok _ out => .ok () (s.note (.finished s.executed), out)
  | .ok (some x) s =>
    match _h : Sink.write x.line out with
    | .error e out => .error e (s, out)
    | .ok _ out => s.runFrom out
termination_by out.room
decreasing_by exact Sink.room_lt_of_write (Step.line_ne_empty x) _h

def run : EStateM Error (Simulator × Sink) Unit := fun (s, out) => (s.note (.simulating s.program.size)).runFrom out

end Simulator

end I8086
