import Mathlib.Data.String.Basic
import I8086.Proofs.Simulator.Trace

/-! # Runs -/

namespace I8086

/-!
## What a run does

A run is its steps: it writes what they write as far as the sink takes it, and stops with what the steps end with or
behind the step whose line did not fit.
-/

def Stop.result : Stop → Simulator → Sink → EStateM.Result Error (Simulator × Sink) Unit
  | .failed e, s, out => .error e (s, out)
  | .finished, s, out => .ok () (s, out)
  | .limit, s, out => .ok () (s, out)

namespace Simulator

variable {s t u v : Simulator} {out out' : Sink} {x : Step} {n : Nat} {stop : Stop}

inductive RunCase (s : Simulator) (out : Sink) : EStateM.Result Error (Simulator × Sink) Unit → Prop
  | ended {n : Nat} {u v : Simulator} {stop : Stop} (ends : s.Ends n u stop) (alike : Alike u v)
    (fits : out.Fits (s.output (n + 1))) : RunCase s out (stop.result v (out.fill (s.output (n + 1))))
  | cut {n : Nat} {u v : Simulator} {stop : Stop} (ends : s.Ends n u stop) (alike : Alike u v)
    (fits : out.Fits (s.lines n)) (full : ¬out.Fits (s.output (n + 1))) :
    RunCase s out (.error .outputFull (v, out.fill (s.output (n + 1))))
  | full {n : Nat} {u v : Simulator} (steps : s.steps (n + 1) = (.limit, u)) (alike : Alike u v)
    (fits : out.Fits (s.lines n)) (full : ¬out.Fits (s.lines (n + 1))) :
    RunCase s out (.error .outputFull (v, out.fill (s.lines (n + 1))))

namespace RunCase

variable {r : EStateM.Result Error (Simulator × Sink) Unit}

theorem cons (hs : step s = .ok (some x) t) (hx : out.Fits x.line) (h : RunCase t (out.fill x.line) r) :
    RunCase s out r := by
  cases h with
  | @ended n _ _ _ ends alike fits =>
    rw [← Sink.fits_append hx, ← output_of_some hs] at fits
    rw [← Sink.fill_append hx, ← output_of_some hs]
    exact .ended (ends.cons hs) alike fits
  | @cut n _ _ _ ends alike fits full =>
    rw [← Sink.fits_append hx, ← lines_of_some hs] at fits
    rw [← Sink.fits_append hx, ← output_of_some hs] at full
    rw [← Sink.fill_append hx, ← output_of_some hs]
    exact .cut (ends.cons hs) alike fits full
  | @full n _ _ steps alike fits full =>
    rw [← Sink.fits_append hx, ← lines_of_some hs] at fits full
    rw [← Sink.fill_append hx, ← lines_of_some hs]
    exact .full (steps_of_some hs (n + 1) ▸ steps) alike fits full

theorem of_alike (hs : Alike s t) (h : RunCase s out r) : RunCase t out r := by
  cases h with
  | @ended n _ _ _ ends alike fits =>
    obtain ⟨w, hends, halike⟩ := hs.ends ends
    rw [hs.output] at fits ⊢
    exact .ended hends (halike.symm.trans alike) fits
  | @cut n _ _ _ ends alike fits full =>
    obtain ⟨w, hends, halike⟩ := hs.ends ends
    rw [hs.lines] at fits
    rw [hs.output] at full ⊢
    exact .cut hends (halike.symm.trans alike) fits full
  | @full n _ _ steps alike fits full =>
    obtain ⟨w, hsteps, halike⟩ := hs.steps steps
    rw [hs.lines] at fits full ⊢
    exact .full hsteps (halike.symm.trans alike) fits full

end RunCase

/-! ### One step of a run -/

theorem runFrom_of_error {e : Error} (hs : step s = .error e t) (out : Sink) : s.runFrom out = .error e (t, out) := by
  rw [runFrom, hs]

theorem runFrom_of_none (hs : step s = .ok none t) (h : out.Fits t.report) :
    s.runFrom out = .ok () (t.note (.finished t.executed), out.fill t.report) := by
  rw [runFrom, hs]
  simp only [Sink.write_of_fits h]

theorem runFrom_of_none_full (hs : step s = .ok none t) (h : ¬out.Fits t.report) :
    s.runFrom out = .error .outputFull (t, out.fill t.report) := by
  rw [runFrom, hs]
  simp only [Sink.write_of_not_fits h]

theorem runFrom_of_some (hs : step s = .ok (some x) t) (h : out.Fits x.line) :
    s.runFrom out = t.runFrom (out.fill x.line) := by
  rw [runFrom, hs]
  simp only
  split
  · next hw => cases (Sink.write_of_fits h).symm.trans hw
  · next hw =>
    cases (Sink.write_of_fits h).symm.trans hw
    rfl

theorem runFrom_of_some_full (hs : step s = .ok (some x) t) (h : ¬out.Fits x.line) :
    s.runFrom out = .error .outputFull (t, out.fill x.line) := by
  rw [runFrom, hs]
  simp only
  split
  · next hw =>
    cases (Sink.write_of_not_fits h).symm.trans hw
    rfl
  · next hw => cases (Sink.write_of_not_fits h).symm.trans hw

/-! ### A run, step by step -/

/-- A run from `s` into `out` ends with `stop` and leaves `t` and `out'`. -/
inductive Runs : Simulator → Sink → Stop → Simulator → Sink → Prop
  | failed {s t : Simulator} {out : Sink} {e : Error} (step : step s = .error e t) : Runs s out (.failed e) t out
  | finished {s : Simulator} {out : Sink} (step : step s = .ok none s) (fits : out.Fits s.report) :
    Runs s out .finished (s.note (.finished s.executed)) (out.fill s.report)
  | cut {s : Simulator} {out : Sink} (step : step s = .ok none s) (full : ¬out.Fits s.report) :
    Runs s out (.failed .outputFull) s (out.fill s.report)
  | full {s t : Simulator} {out : Sink} {x : Step} (step : step s = .ok (some x) t) (full : ¬out.Fits x.line) :
    Runs s out (.failed .outputFull) t (out.fill x.line)
  | more {s t u : Simulator} {out out' : Sink} {x : Step} {stop : Stop} (step : step s = .ok (some x) t)
    (fits : out.Fits x.line) (rest : Runs t (out.fill x.line) stop u out') : Runs s out stop u out'

-- The induction is on the room that is left: the lines have no end where the steps have none.
theorem exists_runs (s : Simulator) (out : Sink) : ∃ stop t out', Runs s out stop t out' := by
  induction hroom : out.room using Nat.strongRecOn generalizing s out with
  | ind room ih =>
    cases hs : step s with
    | error e t => exact ⟨_, _, _, .failed hs⟩
    | ok x t =>
      cases x with
      | none =>
        obtain rfl := step_none hs
        by_cases hfits : out.Fits t.report
        · exact ⟨_, _, _, .finished hs hfits⟩
        · exact ⟨_, _, _, .cut hs hfits⟩
      | some x =>
        by_cases hfits : out.Fits x.line
        · have hless : (out.fill x.line).room < room :=
            hroom ▸ Sink.room_lt_of_write x.line_ne_empty (Sink.write_of_fits hfits)
          obtain ⟨stop, u, out', hrest⟩ := ih _ hless t (out.fill x.line) rfl
          exact ⟨stop, u, out', .more hs hfits hrest⟩
        · exact ⟨_, _, _, .full hs hfits⟩

theorem Runs.runFrom_eq (h : Runs s out stop t out') : s.runFrom out = stop.result t out' := by
  induction h with
  | failed step => exact runFrom_of_error step _
  | finished step fits => exact runFrom_of_none step fits
  | cut step full => exact runFrom_of_none_full step full
  | full step full => exact runFrom_of_some_full step full
  | more step fits _ ih => rw [runFrom_of_some step fits, ih]

theorem runFrom_cases (s : Simulator) (out : Sink) : RunCase s out (s.runFrom out) := by
  obtain ⟨stop, t, out', hruns⟩ := exists_runs s out
  rw [hruns.runFrom_eq]
  induction hruns with
  | @failed s t out e step =>
    have houtput := output_of_error step 0
    have h : RunCase s out ((Stop.failed e).result t (out.fill (s.output 1))) :=
      .ended (.zero_of_error step) (step_error step) (houtput ▸ Sink.fits_empty)
    rw [houtput, Sink.fill_empty] at h
    exact h
  | finished step fits =>
    have houtput := output_of_none step 0
    rw [← houtput]
    exact .ended (.zero_of_none step) (.note ..) (houtput ▸ fits)
  | cut step full =>
    have houtput := output_of_none step 0
    rw [← houtput]
    exact .cut (.zero_of_none step) (.refl _) Sink.fits_empty (houtput ▸ full)
  | @full s t out x step full =>
    have hline : s.lines 1 = x.line := (lines_of_some step 0).trans String.append_empty
    rw [← hline]
    exact .full (steps_of_some step 0) (.refl t) Sink.fits_empty (hline ▸ full)
  | more step fits _ ih => exact ih.cons step fits

theorem run_cases (s : Simulator) (out : Sink) : RunCase s out (run (s, out)) :=
  (runFrom_cases (s.note (.simulating s.program.size)) out).of_alike (Alike.note ..).symm

theorem run_of_fits (h : s.Ends n u stop) (hfits : out.Fits (s.output (n + 1))) :
    ∃ t, Alike u t ∧ run (s, out) = stop.result t (out.fill (s.output (n + 1))) := by
  have hc := run_cases s out
  generalize run (s, out) = r at hc ⊢
  cases hc with
  | ended ends alike fits =>
    obtain ⟨rfl, rfl, rfl⟩ := h.unique ends
    exact ⟨_, alike, rfl⟩
  | cut ends alike fits full =>
    obtain ⟨rfl, _⟩ := h.unique ends
    exact absurd hfits full
  | full steps alike fits full =>
    have hle := size_lines_le h.steps (h.le_of_steps steps)
    rw [Simulator.output_add h.steps] at hfits
    exact absurd (Nat.le_trans hle hfits.of_append) full

end Simulator

/-!
## Room ends a run

Each line has 23 bytes at least, so a run that does not end by itself is ended by the room: with room for `limit` bytes
it makes at most `limit / 23 + 1` steps, and one of these finds the end or meets the limit (`run_within_budget`).
-/

theorem Text.length_le_utf8ByteSize (s : String) : s.length ≤ s.utf8ByteSize := by
  have hlist (l : List Char) : l.length ≤ String.utf8Len l := by
    induction l with
    | nil => exact Nat.le_refl 0
    | cons c l ih =>
      have hpos := c.utf8Size_pos
      rw [List.length_cons, String.utf8Len_cons]
      omega
  have h := hlist s.toList
  rw [← String.utf8ByteSize_ofList, String.ofList_toList] at h
  exact h

-- The column of 20, the mark and the line end are on every line.
theorem Step.size_line (x : Step) : 23 ≤ x.line.utf8ByteSize := by
  have hcolumn : 20 ≤ (Text.padRight 20 x.instruction.text).utf8ByteSize := by
    have hlength := Text.length_le_utf8ByteSize (Text.padRight 20 x.instruction.text)
    have hpadded : (Text.padRight 20 x.instruction.text).length =
        x.instruction.text.length + (20 - x.instruction.text.length) := by
      simp [Text.padRight, Text.spaces]
    omega
  have hmark : " ;".utf8ByteSize = 2 := by decide
  have hend : "\n".utf8ByteSize = 1 := by decide
  simp only [line, text, String.utf8ByteSize_append, hmark, hend]
  omega

namespace Simulator

variable {s t u : Simulator} {n : Nat}

theorem size_lines (h : s.steps n = (.limit, u)) : 23 * n ≤ (s.lines n).utf8ByteSize := by
  induction n generalizing s with
  | zero => exact Nat.zero_le _
  | succ n ih =>
    obtain ⟨x, t, hs, ht⟩ := exists_of_steps h
    have hline := x.size_line
    have hlines := ih ht
    rw [lines_of_some hs, String.utf8ByteSize_append]
    omega

/-- A run that makes at most `n` steps, and gives no result if these are not enough. -/
def runWithin : Nat → Simulator → Sink → Option (EStateM.Result Error (Simulator × Sink) Unit)
  | 0, _, _ => none
  | n + 1, s, out =>
    match step s with
    | .error e s => some (.error e (s, out))
    | .ok none s =>
      match Sink.write s.report out with
      | .error e out => some (.error e (s, out))
      | .ok _ out => some (.ok () (s.note (.finished s.executed), out))
    | .ok (some x) s =>
      match Sink.write x.line out with
      | .error e out => some (.error e (s, out))
      | .ok _ out => runWithin n s out

-- Steps are enough if there is no room for as many lines, and each line takes the room of one.
theorem runWithin_eq {out : Sink} (h : out.room < 23 * n) : runWithin n s out = some (s.runFrom out) := by
  induction n generalizing s out with
  | zero => exact absurd h (Nat.not_lt_zero _)
  | succ n ih =>
    unfold runWithin
    cases hs : step s with
    | error e t => rw [runFrom_of_error hs]
    | ok x t =>
      cases x with
      | none =>
        by_cases hfits : out.Fits t.report
        · simp only [runFrom_of_none hs hfits, Sink.write_of_fits hfits]
        · simp only [runFrom_of_none_full hs hfits, Sink.write_of_not_fits hfits]
      | some x =>
        by_cases hfits : out.Fits x.line
        · have hroom : (out.fill x.line).room < 23 * n := by
            have hline := x.size_line
            have hle : x.line.utf8ByteSize ≤ out.room := hfits
            rw [Sink.room_fill hfits]
            omega
          simp only [Sink.write_of_fits hfits]
          rw [runFrom_of_some hs hfits, ih hroom]
        · simp only [runFrom_of_some_full hs hfits, Sink.write_of_not_fits hfits]

theorem le_of_fits {limit : Nat} (h : s.steps n = (.limit, u)) (hfits : (Sink.ofLimit limit).Fits (s.lines n)) :
    n ≤ limit / 23 := by
  have hsize := size_lines h
  have hlimit : (s.lines n).utf8ByteSize ≤ limit := hfits
  omega

theorem run_within_budget (s : Simulator) (limit : Nat) :
    (s.note (.simulating s.program.size)).runWithin (limit / 23 + 1) (.ofLimit limit) = some (run (s, .ofLimit limit)) ∧
    ∃ n u t stop out, n ≤ limit / 23 + 1 ∧ s.steps n = (.limit, u) ∧ t.machine = u.machine ∧
      t.executed = s.executed + n ∧ run (s, .ofLimit limit) = Stop.result stop t out := by
  refine ⟨?_, ?_⟩
  · apply runWithin_eq
    change limit - 0 < _
    omega
  · have hc := run_cases s (.ofLimit limit)
    generalize run (s, .ofLimit limit) = r at hc ⊢
    cases hc with
    | @ended n u t stop ends alike fits =>
      rw [Simulator.output_add ends.steps] at fits
      have hn := le_of_fits ends.steps fits.of_append
      have hexecuted := executed_of_steps ends.steps
      exact ⟨n, u, t, stop, _, by omega, ends.steps, alike.machine.symm, alike.executed ▸ hexecuted, rfl⟩
    | @cut n u t stop ends alike fits full =>
      have hn := le_of_fits ends.steps fits
      have hexecuted := executed_of_steps ends.steps
      exact ⟨n, u, t, .failed .outputFull, _, by omega, ends.steps, alike.machine.symm, alike.executed ▸ hexecuted, rfl⟩
    | @full n u t steps alike fits full =>
      obtain ⟨w, hw, _⟩ := exists_of_steps_add steps
      have hn := le_of_fits hw fits
      have hexecuted := executed_of_steps steps
      exact ⟨n + 1, u, t, .failed .outputFull, _, by omega, steps, alike.machine.symm, alike.executed ▸ hexecuted, rfl⟩

end Simulator

end I8086
