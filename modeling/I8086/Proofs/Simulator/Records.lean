import Mathlib.Data.List.Forall2
import I8086.Proofs.Simulator.Run

/-!
# What a run notes

Between what it notes first and last a run notes what its steps note, in their order, and each step notes one decoding.
Nothing else in a run depends on whether the registers are noted too (`run_notes`).
-/

namespace I8086

open Text

/-- The records of a step: the registers before it where they are asked for, then what was decoded and how long it is. -/
def Step.Noted (tracing : Bool) (program : Array Byte) (x : Step) (records : List String) : Prop :=
  ∃ d, decode program x.address.toNat = .ok d ∧ x.instruction = d.instruction ∧
    records = (if tracing then ["DEBUG " ++ x.before.stateLine] else []) ++
      ["TRACE " ++ hex 4 x.address.toNat ++ ": " ++ x.instruction.text ++ " (" ++ d.size.repr ++ " bytes)"]

namespace Simulator

def records (s : Simulator) : List String := s.journal.reverse.map Event.text

def decodings (s : Simulator) : Nat := s.journal.countP (·.level = .trace)

def closing (tracing : Bool) (program : Array Byte) (t : Simulator) : Stop → List String
  | .finished => ["DEBUG Simulation finished after " ++ t.executed.repr ++ " instructions"]
  | .failed e =>
    if tracing ∧ decode program t.ip.toNat = .error e then ["DEBUG " ++ t.machine.registers.stateLine] else []
  | .limit => []

@[simp] theorem records_note (s : Simulator) (e : Event) : (s.note e).records = s.records ++ [e.text] := by
  simp [records, note]

@[simp] theorem decodings_note (s : Simulator) (e : Event) :
    (s.note e).decodings = s.decodings + if e.level = .trace then 1 else 0 := by
  simp [decodings, note, List.countP_cons]

variable {s t u v : Simulator} {out out' : Sink} {x : Step} {n : Nat} {e : Error} {stop : Stop}

/-! ## What a step notes -/

theorem records_traced (s : Simulator) :
    s.traced.records = s.records ++ if s.tracing then ["DEBUG " ++ s.machine.registers.stateLine] else [] := by
  unfold traced
  cases s.tracing
  · simp
  · simp only [if_true, records_note]
    rfl

theorem decodings_traced (s : Simulator) : s.traced.decodings = s.decodings := by
  unfold traced
  split
  · simp [Event.level]
  · rfl

theorem tracing_traced (s : Simulator) : s.traced.tracing = s.tracing := by unfold traced; split <;> rfl

theorem tracing_of_step (h : step s = .ok (some x) t) : t.tracing = s.tracing := by
  cases StepCase.of_step h
  exact s.tracing_traced

theorem decodings_of_step (h : step s = .ok (some x) t) : t.decodings = s.decodings + 1 := by
  cases StepCase.of_step h with
  | @executed d m size running decode execute =>
    change (s.traced.note (.decoded s.ip.toNat d)).decodings = _
    rw [decodings_note, decodings_traced]
    rfl

theorem text_decoded (offset : Nat) (d : Decoded) : (Event.decoded offset d).text =
    "TRACE " ++ hex 4 offset ++ ": " ++ d.instruction.text ++ " (" ++ d.size.repr ++ " bytes)" := by
  show "TRACE " ++ (hex 4 offset ++ ": " ++ d.instruction.text ++ " (" ++ d.size.repr ++ " bytes)") = _
  simp only [String.append_assoc]

theorem records_of_step (h : step s = .ok (some x) t) :
    ∃ chunk, x.Noted s.tracing s.program chunk ∧ t.records = s.records ++ chunk := by
  cases StepCase.of_step h with
  | @executed d m size running decode execute =>
    refine ⟨(if s.tracing then ["DEBUG " ++ s.machine.registers.stateLine] else []) ++
      [(Event.decoded s.ip.toNat d).text], ⟨d, decode, rfl, ?_⟩, ?_⟩
    · rw [text_decoded]
    · change (s.traced.note (.decoded s.ip.toNat d)).records = _
      rw [records_note, records_traced, List.append_assoc]

theorem decodings_of_step_error (h : step s = .error e t) : t.decodings = s.decodings := by
  cases StepCase.of_step h with
  | tooLarge => rfl
  | undecoded => exact s.decodings_traced

theorem closing_of_no_offset (h : e.offset? = none) (tracing : Bool) (program : Array Byte) (t : Simulator) :
    closing tracing program t (.failed e) = [] := by
  have hdecode : decode program t.ip.toNat ≠ .error e := by
    intro hd
    cases h.symm.trans (offset?_of_decode hd)
  simp [closing, hdecode]

theorem records_of_step_error (h : step s = .error e t) :
    t.records = s.records ++ closing s.tracing s.program t (.failed e) := by
  cases StepCase.of_step h with
  | tooLarge => rw [closing_of_no_offset rfl, List.append_nil]
  | undecoded size running decode =>
    have hip : s.traced.ip = s.ip := by rw [ip, ip, s.traced_machine]
    rw [records_traced, closing, hip, s.traced_machine]
    simp [decode]

/-! ## Runs that note otherwise -/

theorem Alike.report (h : Alike s t) : s.report = t.report := by rw [Simulator.report, Simulator.report, h.machine]

namespace Runs

theorem ne_limit (h : Runs s out stop t out') : stop ≠ .limit := by
  induction h with
  | failed | finished | cut | full => nofun
  | more _ _ _ ih => exact ih

theorem of_alike (h : Runs s out stop t out') (hs : Alike s v) : ∃ u, Runs v out stop u out' ∧ Alike t u := by
  induction h generalizing v with
  | failed step =>
    obtain ⟨u, hu, halike⟩ := hs.step_error step
    exact ⟨u, .failed hu, halike⟩
  | finished step fits =>
    obtain ⟨u, hu, _⟩ := hs.step_ok step
    obtain rfl := step_none hu
    rw [hs.report] at fits ⊢
    exact ⟨_, .finished hu fits, (Alike.note ..).symm.trans (hs.trans (Alike.note ..))⟩
  | cut step full =>
    obtain ⟨u, hu, _⟩ := hs.step_ok step
    obtain rfl := step_none hu
    rw [hs.report] at full ⊢
    exact ⟨u, .cut hu full, hs⟩
  | full step full =>
    obtain ⟨u, hu, halike⟩ := hs.step_ok step
    exact ⟨u, .full hu full, halike⟩
  | more step fits _ ih =>
    obtain ⟨u, hu, halike⟩ := hs.step_ok step
    obtain ⟨w, hrest, hw⟩ := ih halike
    exact ⟨w, .more hu fits hrest, hw⟩

end Runs

/-! ## What a run notes -/

/-- A run from `s` that ends with `stop` after `n` steps leaves `t`, and has noted nothing but those steps and its end. -/
structure Recorded (s : Simulator) (n : Nat) (stop : Stop) (t : Simulator) : Prop where
  steps : ∃ u, s.steps n = (.limit, u) ∧ Alike u t
  records : ∃ chunks, List.Forall₂ (Step.Noted s.tracing s.program) (s.trace n) chunks ∧
    t.records = s.records ++ chunks.flatten ++ closing s.tracing s.program t stop
  decodings : t.decodings = s.decodings + n

namespace Recorded

theorem zero (halike : Alike s t) (hrecords : t.records = s.records ++ closing s.tracing s.program t stop)
    (hdecodings : t.decodings = s.decodings) : Recorded s 0 stop t := by
  refine ⟨⟨s, rfl, halike⟩, ⟨[], .nil, ?_⟩, hdecodings⟩
  rw [hrecords, List.flatten_nil, List.append_nil]

theorem cons (hs : step s = .ok (some x) t) (h : Recorded t n stop u) : Recorded s (n + 1) stop u := by
  obtain ⟨chunk, hchunk, hstep⟩ := records_of_step hs
  obtain ⟨v, hsteps, halike⟩ := h.steps
  obtain ⟨chunks, hchunks, hrecords⟩ := h.records
  rw [tracing_of_step hs, program_of_step hs] at hchunks hrecords
  refine ⟨⟨v, ?_, halike⟩, ⟨chunk :: chunks, ?_, ?_⟩, ?_⟩
  · rw [steps_of_some hs, hsteps]
  · rw [trace_of_some hs]
    exact .cons hchunk hchunks
  · rw [hrecords, hstep, List.flatten_cons, List.append_assoc s.records]
  · rw [h.decodings, decodings_of_step hs]
    omega

end Recorded

theorem Runs.recorded (h : Runs s out stop t out') : ∃ n, Recorded s n stop t := by
  induction h with
  | failed step => exact ⟨0, .zero (step_error step) (records_of_step_error step) (decodings_of_step_error step)⟩
  | finished step fits =>
    refine ⟨0, .zero (Alike.note ..) ?_ ?_⟩
    · rw [records_note]
      rfl
    · rw [decodings_note]
      rfl
  | cut step full =>
    refine ⟨0, .zero (Alike.refl _) ?_ rfl⟩
    rw [closing_of_no_offset rfl, List.append_nil]
  | @full s t out x step full =>
    have hrest : Recorded t 0 (.failed .outputFull) t := by
      refine .zero (Alike.refl t) ?_ rfl
      rw [closing_of_no_offset rfl, List.append_nil]
    exact ⟨1, hrest.cons step⟩
  | more step fits _ ih =>
    obtain ⟨n, hrest⟩ := ih
    exact ⟨n + 1, hrest.cons step⟩

def prepared (machine : Machine) (program : Array Byte) (tracing : Bool) : Simulator := ⟨machine, program, tracing, 0, []⟩

/-- A run notes the size of the program, then what its steps note in their order, then how it ended; it notes as many
decodings as it counts instructions. It does and writes the same whether or not it notes the registers. -/
theorem run_notes (machine : Machine) (program : Array Byte) (tracing : Bool) (limit : Nat) :
    ∃ (n : Nat) (u t t' : Simulator) (stop : Stop) (out : Sink) (chunks : List (List String)),
      run (prepared machine program tracing, .ofLimit limit) = stop.result t out ∧ stop ≠ .limit ∧
      (prepared machine program tracing).steps n = (.limit, u) ∧ t.machine = u.machine ∧ t.executed = n ∧
      List.Forall₂ (Step.Noted tracing program) ((prepared machine program tracing).trace n) chunks ∧
      t.records = ["DEBUG Simulating " ++ program.size.repr ++ " bytes of code"] ++ chunks.flatten ++
        closing tracing program t stop ∧
      t.decodings = n ∧
      run (prepared machine program (!tracing), .ofLimit limit) = stop.result t' out ∧
      t'.machine = t.machine ∧ t'.executed = t.executed := by
  obtain ⟨stop, t, out, hrun⟩ := exists_runs ((prepared machine program tracing).note (.simulating program.size)) (.ofLimit limit)
  obtain ⟨n, ⟨v, hv, hvt⟩, ⟨chunks, hchunks, hrecords⟩, hdecodings⟩ := hrun.recorded
  have hnote := (Alike.note (prepared machine program tracing) (.simulating program.size)).symm
  have hother : Alike (prepared machine program tracing) (prepared machine program (!tracing)) := ⟨rfl, rfl, rfl⟩
  obtain ⟨u, hu, hvu⟩ := hnote.steps hv
  obtain ⟨t', hrun', halike⟩ := hrun.of_alike (hnote.trans (hother.trans (Alike.note _ (.simulating program.size))))
  have hexecuted : t.executed = 0 + n := by
    rw [← hvt.executed, executed_of_steps hv]
    rfl
  refine ⟨n, u, t, t', stop, out, chunks, hrun.runFrom_eq, hrun.ne_limit, hu, ?_, ?_, ?_, ?_, ?_, hrun'.runFrom_eq,
    halike.machine.symm, halike.executed.symm⟩
  · rw [← hvt.machine, hvu.machine]
  · rw [hexecuted, Nat.zero_add]
  · rw [← hnote.trace]
    exact hchunks
  · exact hrecords
  · rw [hdecodings, decodings_note]
    exact Nat.zero_add n

end Simulator

end I8086
