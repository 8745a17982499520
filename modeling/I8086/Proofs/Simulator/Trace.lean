import I8086.Simulator.Run
import I8086.Proofs.Simulator.Step
import I8086.Proofs.Text.Sink

/-!
# What steps write

The lines of the steps of a simulator, and behind them the report where the steps end at the end of the program. Each
line has a byte at least, so every byte of a text without end is among those of finitely many steps.
-/

namespace I8086

def Step.place (x : Step) : Nat × Instruction := (x.address.toNat, x.instruction)

namespace Simulator

def trace : Nat → Simulator → List Step
  | 0, _ => []
  | n + 1, s =>
    match step s with
    | .ok (some x) t => x :: t.trace n
    | .ok none _ => []
    | .error _ _ => []

def lines (n : Nat) (s : Simulator) : String := String.join ((s.trace n).map Step.line)

def output : Nat → Simulator → String
  | 0, _ => ""
  | n + 1, s =>
    match step s with
    | .ok (some x) t => x.line ++ t.output n
    | .ok none t => t.report
    | .error _ _ => ""

/-- The bytes of all the output, which may have no end. -/
def transcript (s : Simulator) (i : Nat) : Option UInt8 := (s.output (i + 1)).toUTF8.data[i]?

variable {s t u : Simulator} {x : Step} {m n : Nat}

/-! ## One step more -/

theorem steps_of_some (h : step s = .ok (some x) t) (n : Nat) : s.steps (n + 1) = t.steps n := by rw [steps, h]

theorem steps_of_none (h : step s = .ok none t) (n : Nat) : s.steps (n + 1) = (.finished, t) := by rw [steps, h]

theorem steps_of_error {e : Error} (h : step s = .error e t) (n : Nat) : s.steps (n + 1) = (.failed e, t) := by
  rw [steps, h]

theorem exists_of_steps (h : s.steps (n + 1) = (.limit, t)) :
    ∃ x u, step s = .ok (some x) u ∧ u.steps n = (.limit, t) := by
  unfold steps at h
  split at h
  · next x u hs => exact ⟨x, u, hs, h⟩
  · cases h
  · cases h

theorem address_of_step (h : step s = .ok (some x) t) : x.address = s.ip := by
  cases StepCase.of_step h
  rfl

theorem program_of_step (h : step s = .ok (some x) t) : t.program = s.program := by
  cases StepCase.of_step h
  exact s.traced_program

theorem executed_of_step (h : step s = .ok (some x) t) : t.executed = s.executed + 1 := by
  cases StepCase.of_step h
  rfl

theorem place_of_step {d : Decoded} (hd : decode s.program s.ip.toNat = .ok d) (h : step s = .ok (some x) t) :
    x.place = (s.ip.toNat, d.instruction) := by
  cases StepCase.of_step h with
  | executed _ _ hd' =>
    cases hd.symm.trans hd'
    rfl

theorem program_of_steps (h : s.steps n = (.limit, t)) : t.program = s.program := by
  induction n generalizing s with
  | zero =>
    cases h
    rfl
  | succ n ih =>
    obtain ⟨x, u, hs, hu⟩ := exists_of_steps h
    rw [ih hu, program_of_step hs]

theorem executed_of_steps (h : s.steps n = (.limit, t)) : t.executed = s.executed + n := by
  induction n generalizing s with
  | zero =>
    cases h
    rfl
  | succ n ih =>
    obtain ⟨x, u, hs, hu⟩ := exists_of_steps h
    rw [ih hu, executed_of_step hs]
    omega

theorem exists_mem_trace (h : s.steps n = (.limit, t)) (hm : m < n) : ∃ x ∈ s.trace n, x.address = (s.steps m).2.ip := by
  induction n generalizing s m with
  | zero => exact absurd hm (Nat.not_lt_zero m)
  | succ n ih =>
    obtain ⟨x, u, hs, hu⟩ := exists_of_steps h
    rw [trace, hs]
    cases m with
    | zero => exact ⟨x, .head _, address_of_step hs⟩
    | succ m =>
      obtain ⟨y, hy, haddress⟩ := ih hu (Nat.lt_of_succ_lt_succ hm)
      rw [steps_of_some hs]
      exact ⟨y, .tail _ hy, haddress⟩

theorem lines_zero (s : Simulator) : s.lines 0 = "" := rfl

theorem trace_of_some (h : step s = .ok (some x) t) (n : Nat) : s.trace (n + 1) = x :: t.trace n := by rw [trace, h]

theorem lines_of_some (h : step s = .ok (some x) t) (n : Nat) : s.lines (n + 1) = x.line ++ t.lines n := by
  rw [lines, trace_of_some h]
  exact String.join_cons

theorem output_of_some (h : step s = .ok (some x) t) (n : Nat) : s.output (n + 1) = x.line ++ t.output n := by
  rw [output, h]

theorem output_of_none (h : step s = .ok none t) (n : Nat) : s.output (n + 1) = t.report := by rw [output, h]

theorem output_of_error {e : Error} (h : step s = .error e t) (n : Nat) : s.output (n + 1) = "" := by rw [output, h]

theorem size_line_pos (x : Step) : 0 < x.line.utf8ByteSize := utf8ByteSize_pos x.line_ne_empty

/-! ## Steps that come after others -/

theorem steps_add (h : s.steps m = (.limit, t)) (n : Nat) : s.steps (m + n) = t.steps n := by
  induction m generalizing s with
  | zero =>
    cases h
    rw [Nat.zero_add]
  | succ m ih =>
    obtain ⟨x, u, hs, hu⟩ := exists_of_steps h
    rw [Nat.succ_add, steps_of_some hs, ih hu]

theorem trace_add (h : s.steps m = (.limit, t)) (n : Nat) : s.trace (m + n) = s.trace m ++ t.trace n := by
  induction m generalizing s with
  | zero =>
    cases h
    rw [Nat.zero_add]
    rfl
  | succ m ih =>
    obtain ⟨x, u, hs, hu⟩ := exists_of_steps h
    rw [Nat.succ_add, trace, trace, hs]
    exact congrArg (x :: ·) (ih hu)

theorem lines_add (h : s.steps m = (.limit, t)) (n : Nat) : s.lines (m + n) = s.lines m ++ t.lines n := by
  rw [lines, trace_add h, List.map_append, String.join_append]
  rfl

theorem output_add (h : s.steps m = (.limit, t)) (n : Nat) : s.output (m + n) = s.lines m ++ t.output n := by
  induction m generalizing s with
  | zero =>
    cases h
    rw [Nat.zero_add, lines_zero, String.empty_append]
  | succ m ih =>
    obtain ⟨x, u, hs, hu⟩ := exists_of_steps h
    rw [Nat.succ_add, output_of_some hs, lines_of_some hs, ih hu, String.append_assoc]

theorem exists_of_steps_add (h : s.steps (m + n) = (.limit, t)) : ∃ u, s.steps m = (.limit, u) ∧ u.steps n = (.limit, t) := by
  induction m generalizing s with
  | zero =>
    rw [Nat.zero_add] at h
    exact ⟨s, rfl, h⟩
  | succ m ih =>
    rw [Nat.succ_add] at h
    obtain ⟨x, v, hs, hv⟩ := exists_of_steps h
    obtain ⟨u, hm, hn⟩ := ih hv
    exact ⟨u, steps_of_some hs m ▸ hm, hn⟩

theorem size_lines_le (h : s.steps n = (.limit, t)) (hm : m ≤ n) :
    (s.lines m).utf8ByteSize ≤ (s.lines n).utf8ByteSize := by
  obtain ⟨k, rfl⟩ := Nat.exists_eq_add_of_le hm
  obtain ⟨u, hu, _⟩ := exists_of_steps_add h
  rw [lines_add hu, String.utf8ByteSize_append]
  exact Nat.le_add_right ..

/-- The steps from `s` end with `stop` behind the first `n` of them, which leave `u`. -/
structure Ends (s : Simulator) (n : Nat) (u : Simulator) (stop : Stop) : Prop where
  steps : s.steps n = (.limit, u)
  stops : (u.steps 1).1 = stop
  ne_limit : stop ≠ .limit

theorem step_none (h : step s = .ok none t) : t = s := by
  cases StepCase.of_step h
  rfl

theorem step_error {e : Error} (h : step s = .error e t) : Alike s t := by
  cases StepCase.of_step h with
  | tooLarge => exact .refl s
  | undecoded => exact ⟨s.traced_machine.symm, s.traced_program.symm, s.traced_executed.symm⟩

theorem exists_of_stops {stop : Stop} (h : (s.steps 1).1 = stop) (hne : stop ≠ .limit) :
    stop = .finished ∧ step s = .ok none s ∨ ∃ e t, stop = .failed e ∧ step s = .error e t := by
  cases hs : step s with
  | error e t =>
    rw [steps_of_error hs] at h
    exact .inr ⟨e, t, h.symm, rfl⟩
  | ok x t =>
    cases x with
    | some x =>
      rw [steps_of_some hs] at h
      exact absurd h.symm hne
    | none =>
      obtain rfl := step_none hs
      rw [steps_of_none hs] at h
      exact .inl ⟨h.symm, rfl⟩

namespace Ends

variable {stop stop' : Stop}

theorem zero_of_none (h : step s = .ok none s) : s.Ends 0 s .finished :=
  ⟨rfl, congrArg Prod.fst (steps_of_none h 0), nofun⟩

theorem zero_of_error {e : Error} (h : step s = .error e t) : s.Ends 0 s (.failed e) :=
  ⟨rfl, congrArg Prod.fst (steps_of_error h 0), nofun⟩

theorem cons (hs : step s = .ok (some x) t) (h : t.Ends n u stop) : s.Ends (n + 1) u stop :=
  ⟨steps_of_some hs n ▸ h.steps, h.stops, h.ne_limit⟩

theorem stops_add (h : s.Ends n u stop) (m : Nat) : (s.steps (n + (m + 1))).1 = stop := by
  rw [steps_add h.steps]
  rcases exists_of_stops h.stops h.ne_limit with ⟨rfl, hu⟩ | ⟨e, t, rfl, hu⟩
  · rw [steps_of_none hu]
  · rw [steps_of_error hu]

theorem le_of_steps (h : s.Ends n u stop) (hm : s.steps m = (.limit, t)) : m ≤ n := by
  by_cases hle : m ≤ n
  · exact hle
  · obtain ⟨k, rfl⟩ : ∃ k, m = n + (k + 1) := ⟨m - n - 1, by omega⟩
    have hstop := h.stops_add k
    rw [hm] at hstop
    exact absurd hstop.symm h.ne_limit

theorem unique (h : s.Ends m t stop) (h' : s.Ends n u stop') : m = n ∧ t = u ∧ stop = stop' := by
  obtain rfl : m = n := Nat.le_antisymm (h'.le_of_steps h.steps) (h.le_of_steps h'.steps)
  cases h.steps.symm.trans h'.steps
  exact ⟨rfl, rfl, h.stops.symm.trans h'.stops⟩

theorem output_add (h : s.Ends n u stop) (m : Nat) : s.output (n + (m + 1)) = s.output (n + 1) := by
  rw [Simulator.output_add h.steps, Simulator.output_add h.steps]
  rcases exists_of_stops h.stops h.ne_limit with ⟨_, hu⟩ | ⟨e, t, _, hu⟩
  · rw [output_of_none hu, output_of_none hu]
  · rw [output_of_error hu, output_of_error hu]

theorem output_of_finished (h : s.Ends n u .finished) : s.output (n + 1) = s.lines n ++ u.report := by
  rw [Simulator.output_add h.steps]
  rcases exists_of_stops h.stops h.ne_limit with ⟨_, hu⟩ | ⟨_, _, he, _⟩
  · rw [output_of_none hu]
  · cases he

theorem output_of_failed {e : Error} (h : s.Ends n u (.failed e)) : s.output (n + 1) = s.lines n := by
  rw [Simulator.output_add h.steps]
  rcases exists_of_stops h.stops h.ne_limit with ⟨he, _⟩ | ⟨_, _, _, hu⟩
  · cases he
  · rw [output_of_error hu, String.append_empty]

end Ends

/-! ## All the output -/

theorem getElem?_output {i : Nat} (hm : i < m ∨ i < (s.output m).utf8ByteSize) (hn : i < n) :
    (s.output m).toUTF8.data[i]? = (s.output n).toUTF8.data[i]? := by
  induction m generalizing s i n with
  | zero =>
    rcases hm with hm | hm
    · exact absurd hm (Nat.not_lt_zero i)
    · exact absurd hm (Nat.not_lt_zero i)
  | succ m ih =>
    obtain ⟨n, rfl⟩ : ∃ k, n = k + 1 := ⟨n - 1, by omega⟩
    cases hs : step s with
    | error e t => rw [output_of_error hs, output_of_error hs]
    | ok x t =>
      cases x with
      | none => rw [output_of_none hs, output_of_none hs]
      | some x =>
        rw [output_of_some hs, String.utf8ByteSize_append] at hm
        rw [output_of_some hs, output_of_some hs, toUTF8_append, toUTF8_append, ByteArray.data_append,
          ByteArray.data_append, Array.getElem?_append, Array.getElem?_append]
        have hpos := size_line_pos x
        have hsize : x.line.toUTF8.data.size = x.line.utf8ByteSize := rfl
        split
        · rfl
        · exact ih (by omega) (by omega)

theorem transcript_eq {i : Nat} (h : i < n) : s.transcript i = (s.output n).toUTF8.data[i]? :=
  getElem?_output (.inl (Nat.lt_succ_self i)) h

theorem Ends.transcript {stop : Stop} (h : s.Ends n u stop) (i : Nat) :
    s.transcript i = (s.output (n + 1)).toUTF8.data[i]? := by
  have hi : i < n + (i + 1) := by omega
  rw [transcript_eq hi, h.output_add]

/-! ## What the journal has no part in -/

namespace Alike

theorem output_lines_steps (h : Alike s t) (n : Nat) :
    s.output n = t.output n ∧ s.lines n = t.lines n ∧
      ∀ stop u, s.steps n = (stop, u) → ∃ v, t.steps n = (stop, v) ∧ Alike u v := by
  induction n generalizing s t with
  | zero =>
    refine ⟨rfl, rfl, ?_⟩
    intro stop u hu
    cases hu
    exact ⟨t, rfl, h⟩
  | succ n ih =>
    cases hs : step s with
    | error e u =>
      obtain ⟨v, ht, hv⟩ := h.step_error hs
      refine ⟨?_, ?_, ?_⟩
      · rw [output_of_error hs, output_of_error ht]
      · rw [lines, lines, trace, trace, hs, ht]
      · intro stop w hw
        rw [steps_of_error hs] at hw
        cases hw
        exact ⟨v, steps_of_error ht n, hv⟩
    | ok x u =>
      obtain ⟨v, ht, hv⟩ := h.step_ok hs
      cases x with
      | none =>
        refine ⟨?_, ?_, ?_⟩
        · rw [output_of_none hs, output_of_none ht, report, report, hv.machine]
        · rw [lines, lines, trace, trace, hs, ht]
        · intro stop w hw
          rw [steps_of_none hs] at hw
          cases hw
          exact ⟨v, steps_of_none ht n, hv⟩
      | some x =>
        obtain ⟨houtput, hlines, hsteps⟩ := ih hv
        refine ⟨?_, ?_, ?_⟩
        · rw [output_of_some hs, output_of_some ht, houtput]
        · rw [lines_of_some hs, lines_of_some ht, hlines]
        · rw [steps_of_some hs, steps_of_some ht]
          exact hsteps

theorem output (h : Alike s t) (n : Nat) : s.output n = t.output n := (h.output_lines_steps n).1

theorem lines (h : Alike s t) (n : Nat) : s.lines n = t.lines n := (h.output_lines_steps n).2.1

theorem trace (h : Alike s t) (n : Nat) : s.trace n = t.trace n := by
  induction n generalizing s t with
  | zero => rfl
  | succ n ih =>
    cases hs : step s with
    | error e u =>
      obtain ⟨v, ht, _⟩ := h.step_error hs
      rw [Simulator.trace, Simulator.trace, hs, ht]
    | ok x u =>
      obtain ⟨v, ht, hv⟩ := h.step_ok hs
      cases x with
      | none => rw [Simulator.trace, Simulator.trace, hs, ht]
      | some x => rw [trace_of_some hs, trace_of_some ht, ih hv]

theorem steps {stop : Stop} (h : Alike s t) (hu : s.steps n = (stop, u)) : ∃ v, t.steps n = (stop, v) ∧ Alike u v :=
  (h.output_lines_steps n).2.2 stop u hu

theorem ends {stop : Stop} (h : Alike s t) (hu : s.Ends n u stop) : ∃ v, t.Ends n v stop ∧ Alike u v := by
  obtain ⟨v, hv, huv⟩ := h.steps hu.steps
  have hstop : u.steps 1 = (stop, (u.steps 1).2) := Prod.ext hu.stops rfl
  obtain ⟨w, hw, _⟩ := huv.steps hstop
  exact ⟨v, ⟨hv, congrArg Prod.fst hw, hu.ne_limit⟩, huv⟩

end Alike

end Simulator

end I8086
