import I8086.Simulator.Run
import I8086.Proofs.Machine.Frame

/-!
# What a step does

A step fails before it changes anything, finds the program ended, or executes the instruction at IP: nothing that was
decoded fails to execute (`step_cases`).
-/

namespace I8086.Simulator

open Machine

def traced (s : Simulator) : Simulator := if s.tracing then s.note (.state s.machine.registers) else s

def advanced (s : Simulator) (d : Decoded) : Machine :=
  { s.machine with registers := s.machine.registers.modify .ip (· + BitVec.ofNat 16 d.size) }

def executing (s : Simulator) (d : Decoded) (m : Machine) : Simulator :=
  { s.traced.note (.decoded s.ip.toNat d) with machine := m, executed := s.executed + 1 }

inductive StepCase (s : Simulator) : EStateM.Result Error Simulator (Option Step) → Prop
  | tooLarge (size : maxProgramSize < s.program.size) : StepCase s (.error (.programTooLarge s.program.size) s)
  | finished (size : s.program.size ≤ maxProgramSize) (finished : s.finished = true) : StepCase s (.ok none s)
  | undecoded {e : Error} (size : s.program.size ≤ maxProgramSize) (running : s.finished = false)
    (decode : decode s.program s.ip.toNat = .error e) : StepCase s (.error e s.traced)
  | executed {d : Decoded} {m : Machine} (size : s.program.size ≤ maxProgramSize) (running : s.finished = false)
    (decode : decode s.program s.ip.toNat = .ok d) (execute : execute d.instruction (s.advanced d) = .ok () m) :
    StepCase s (.ok (some ⟨s.ip, d.instruction, s.machine.registers, m.registers⟩) (s.executing d m))

theorem traced_machine (s : Simulator) : s.traced.machine = s.machine := by unfold traced; split <;> rfl

theorem traced_program (s : Simulator) : s.traced.program = s.program := by unfold traced; split <;> rfl

theorem traced_executed (s : Simulator) : s.traced.executed = s.executed := by unfold traced; split <;> rfl

def fetch (s : Simulator) : EStateM Error Simulator (Option Step) := do
  let d ← ofExcept (decode s.program s.ip.toNat)
  modify (note · (.decoded s.ip.toNat d))
  onMachine (modifyRegisters fun f => f.modify .ip (· + BitVec.ofNat 16 d.size))
  onMachine (Machine.execute d.instruction)
  modify fun t => { t with executed := t.executed + 1 }
  return some ⟨s.ip, d.instruction, s.machine.registers, (← get).machine.registers⟩

section
variable {s : Simulator}

theorem step_of_tooLarge (size : maxProgramSize < s.program.size) :
    step s = .error (.programTooLarge s.program.size) s := by
  unfold step
  rw [get_bind, if_pos size]
  rfl

theorem step_of_finished (size : s.program.size ≤ maxProgramSize) (finished : s.finished = true) : step s = .ok none s := by
  unfold step
  rw [get_bind, if_neg (Nat.not_lt.mpr size), if_pos finished]
  rfl

theorem step_of_running (size : s.program.size ≤ maxProgramSize) (running : s.finished = false) :
    step s = s.fetch s.traced := by
  have hrunning : ¬s.finished = true := Bool.eq_false_iff.mp running
  unfold step traced
  rw [get_bind, if_neg (Nat.not_lt.mpr size), if_neg hrunning]
  cases s.tracing <;> rfl

theorem fetch_of_error {e : Error} (hd : decode s.program s.ip.toNat = .error e) : s.fetch s.traced = .error e s.traced := by
  unfold fetch
  rw [bind_of_error (ofExcept_of_error hd)]

theorem fetch_of_ok {d : Decoded} {m : Machine} (hd : decode s.program s.ip.toNat = .ok d)
    (hm : execute d.instruction (s.advanced d) = .ok () m) :
    s.fetch s.traced = .ok (some ⟨s.ip, d.instruction, s.machine.registers, m.registers⟩) (s.executing d m) := by
  have hmachine : (s.traced.note (.decoded s.ip.toNat d)).machine = s.machine := s.traced_machine
  have hadvance : onMachine (modifyRegisters fun f => f.modify .ip (· + BitVec.ofNat 16 d.size))
      (s.traced.note (.decoded s.ip.toNat d)) =
        .ok ⟨⟩ { s.traced.note (.decoded s.ip.toNat d) with machine := s.advanced d } := by
    rw [onMachine, hmachine]
    rfl
  have hexecute : onMachine (Machine.execute d.instruction)
      { s.traced.note (.decoded s.ip.toNat d) with machine := s.advanced d } =
        .ok ⟨⟩ { s.traced.note (.decoded s.ip.toNat d) with machine := m } := by
    simp only [onMachine, hm]
  have hcount : (s.traced.note (.decoded s.ip.toNat d)).executed = s.executed := s.traced_executed
  unfold fetch
  rw [bind_of_ok (ofExcept_of_ok hd), modify_bind, bind_of_ok hadvance, bind_of_ok hexecute, modify_bind, get_bind, hcount]
  rfl

end

theorem step_cases (s : Simulator) : StepCase s (step s) := by
  by_cases size : maxProgramSize < s.program.size
  · rw [step_of_tooLarge size]
    exact .tooLarge size
  have size := Nat.le_of_not_lt size
  cases hf : s.finished with
  | true =>
    rw [step_of_finished size hf]
    exact .finished size hf
  | false =>
    rw [step_of_running size hf]
    cases hd : decode s.program s.ip.toNat with
    | error e =>
      rw [fetch_of_error hd]
      exact .undecoded size hf hd
    | ok d =>
      obtain ⟨m, hm, _⟩ := (fit_of_decode hd).exists_effect (s.advanced d)
      rw [fetch_of_ok hd hm]
      exact .executed size hf hd hm

theorem StepCase.step_eq {s : Simulator} {r : EStateM.Result Error Simulator (Option Step)} (h : StepCase s r) :
    step s = r := by
  cases h with
  | tooLarge size => exact step_of_tooLarge size
  | finished size finished => exact step_of_finished size finished
  | undecoded size running decode => exact (step_of_running size running).trans (fetch_of_error decode)
  | executed size running decode execute => exact (step_of_running size running).trans (fetch_of_ok decode execute)

theorem StepCase.of_step {s : Simulator} {r : EStateM.Result Error Simulator (Option Step)} (h : step s = r) :
    StepCase s r :=
  h ▸ step_cases s

theorem running_of_decode {s : Simulator} {d : Decoded} (hd : decode s.program s.ip.toNat = .ok d) :
    s.finished = false := by
  have hle := (Family.fits_of_decode hd).le
  have hpos := d.size_pos
  rw [finished, decide_eq_false_iff_not]
  omega

theorem step_of_decode {s : Simulator} {d : Decoded} {m : Machine} (size : s.program.size ≤ maxProgramSize)
    (hd : decode s.program s.ip.toNat = .ok d) (hm : execute d.instruction (s.advanced d) = .ok () m) :
    step s = .ok (some ⟨s.ip, d.instruction, s.machine.registers, m.registers⟩) (s.executing d m) :=
  (StepCase.executed size (running_of_decode hd) hd hm).step_eq

theorem toNat_behind {s : Simulator} {d : Decoded} (size : s.program.size ≤ maxProgramSize)
    (hd : decode s.program s.ip.toNat = .ok d) : (s.ip + BitVec.ofNat 16 d.size).toNat = s.ip.toNat + d.size := by
  have hle := (Family.fits_of_decode hd).le
  rw [maxProgramSize] at size
  rw [BitVec.toNat_add, BitVec.toNat_ofNat]
  omega

theorem toNat_behind_jump {s : Simulator} {d : Decoded} (size : s.program.size ≤ maxProgramSize)
    (hd : decode s.program s.ip.toNat = .ok d) (hjump : d.instruction.operation.isJump = true) :
    (s.ip + 2).toNat = s.ip.toNat + 2 := by
  have hbehind := toNat_behind size hd
  rw [size_of_isJump hd hjump] at hbehind
  exact hbehind

theorem step_of_not_jump {s : Simulator} {d : Decoded} (size : s.program.size ≤ maxProgramSize)
    (hd : decode s.program s.ip.toNat = .ok d) (hjump : d.instruction.operation.isJump = false) :
    ∃ m, execute d.instruction s.machine = .ok () m ∧
      step s = .ok (some ⟨s.ip, d.instruction, s.machine.registers,
          (m.withIp (s.ip + BitVec.ofNat 16 d.size)).registers⟩)
        (s.executing d (m.withIp (s.ip + BitVec.ofNat 16 d.size))) := by
  obtain ⟨m, hm, hadvanced⟩ := Instruction.execute_withIp (fit_of_decode hd) (not_control_of_decode hd) hjump
    s.machine (s.ip + BitVec.ofNat 16 d.size)
  exact ⟨m, hm, step_of_decode size hd hadvanced⟩

theorem advanced_of_jump {s : Simulator} {d : Decoded} (hd : decode s.program s.ip.toNat = .ok d)
    (hjump : d.instruction.operation.isJump = true) : s.advanced d = s.machine.withIp (s.ip + 2) := by
  rw [advanced, size_of_isJump hd hjump]
  rfl

theorem step_of_isJump {s : Simulator} {d : Decoded} (size : s.program.size ≤ maxProgramSize)
    (hd : decode s.program s.ip.toNat = .ok d) (hjump : d.instruction.operation.isJump = true) :
    ∃ x z, d.instruction.displacement = .ok x ∧ step s = .ok (some z)
      (s.executing d ((s.machine.counted d.instruction.operation).withIp
        (if s.machine.takes d.instruction.operation then s.ip + 2 + x else s.ip + 2))) := by
  cases fit_of_decode hd with
  | pair notJump => cases hjump.symm.trans notJump
  | @jump x _ displacement =>
    have hadvanced := advanced_of_jump hd hjump
    have hexecute := Instruction.execute_of_isJump hjump displacement (s.advanced d)
    rw [hadvanced, counted_withIp, takes_withIp, jumpIf_withIp, ← hadvanced] at hexecute
    exact ⟨x, _, displacement, step_of_decode size hd hexecute⟩

/-! ## Where a step leaves IP -/

theorem ip_advanced (s : Simulator) (d : Decoded) :
    (s.advanced d).registers.word .ip = s.ip + BitVec.ofNat 16 d.size := by
  rw [advanced, Register.File.word_modify, if_pos rfl]
  rfl

theorem ip_executing_withIp (s : Simulator) (d : Decoded) (m : Machine) (x : Word) : (s.executing d (m.withIp x)).ip = x := by
  simp [ip, executing]

theorem next_of_not_jump {s : Simulator} {d : Decoded} (size : s.program.size ≤ maxProgramSize)
    (hd : decode s.program s.ip.toNat = .ok d) (hjump : d.instruction.operation.isJump = false) :
    ∃ x t, step s = .ok (some x) t ∧ x.address = s.ip ∧ x.instruction = d.instruction ∧ t.program = s.program ∧
      t.executed = s.executed + 1 ∧ t.ip.toNat = s.ip.toNat + d.size := by
  obtain ⟨m, _, hstep⟩ := step_of_not_jump size hd hjump
  refine ⟨_, _, hstep, rfl, rfl, s.traced_program, rfl, ?_⟩
  rw [ip_executing_withIp, toNat_behind size hd]

theorem ip_of_jump {s : Simulator} {d : Decoded} {c : Condition} (size : s.program.size ≤ maxProgramSize)
    (hd : decode s.program s.ip.toNat = .ok d) (ho : d.instruction.operation = .jump c) :
    ∃ x z t, d.instruction.displacement = .ok x ∧ step s = .ok (some z) t ∧
      (c.holds s.machine.flags = true → t.ip = s.ip + 2 + x) ∧
      (c.holds s.machine.flags = false → t.ip.toNat = s.ip.toNat + 2) := by
  have hjump : d.instruction.operation.isJump = true := by rw [ho]; rfl
  obtain ⟨x, z, hx, hstep⟩ := step_of_isJump size hd hjump
  have htakes : s.machine.takes d.instruction.operation = c.holds s.machine.flags := by rw [ho]; rfl
  refine ⟨x, z, _, hx, hstep, ?_, ?_⟩
  · intro h
    rw [ip_executing_withIp, htakes, h, if_pos rfl]
  · intro h
    rw [ip_executing_withIp, htakes, h, if_neg Bool.false_ne_true]
    exact toNat_behind_jump size hd hjump

theorem ip_executing {s : Simulator} {d : Decoded} {m : Machine} (hd : decode s.program s.ip.toNat = .ok d)
    (hm : execute d.instruction (s.advanced d) = .ok () m) :
    (s.executing d m).ip = s.ip + BitVec.ofNat 16 d.size ∨
      d.instruction.operation.isJump = true ∧ d.size = 2 ∧
        ∃ x, d.instruction.displacement = .ok x ∧ (s.executing d m).ip = s.ip + BitVec.ofNat 16 d.size + x := by
  have hfit := fit_of_decode hd
  obtain ⟨hstay, hjump⟩ := (hfit.effect hm).movesIp
  rw [ip_advanced] at hstay hjump
  cases hfit with
  | pair notJump => exact .inl (hstay notJump)
  | jump isJump displacement =>
    rcases hjump _ displacement isJump with h | h
    · exact .inl h
    · exact .inr ⟨isJump, size_of_isJump hd isJump, _, displacement, h⟩

/-- What was decoded executes in every state, so a step fails before the instruction or not at all, and one that fails
or finds the program ended leaves registers, memory and count as they were. -/
theorem step_atomic :
    (∀ (program : Array Byte) (offset : Nat) (d : Decoded) (m : Machine), decode program offset = .ok d →
      ∃ m', execute d.instruction m = .ok () m') ∧
    ∀ s t : Simulator,
      (step s = .ok none t → t.machine = s.machine ∧ t.executed = s.executed) ∧
      ∀ e, step s = .error e t →
        (t.machine = s.machine ∧ t.executed = s.executed) ∧
        (maxProgramSize < s.program.size ∧ e = .programTooLarge s.program.size ∨
          s.program.size ≤ maxProgramSize ∧ decode s.program s.ip.toNat = .error e) ∧
        ∀ operation operand address,
          e ≠ .missingOperand operation ∧ e ≠ .invalidOperand operation operand ∧ e ≠ .memoryOutOfRange address := by
  refine ⟨?_, ?_⟩
  · intro program offset d m hd
    obtain ⟨m', hm, _⟩ := (fit_of_decode hd).exists_effect m
    exact ⟨m', hm⟩
  · intro s t
    have hc := step_cases s
    refine ⟨?_, ?_⟩
    · intro h
      rw [h] at hc
      cases hc
      exact ⟨rfl, rfl⟩
    · intro e h
      rw [h] at hc
      cases hc with
      | tooLarge size => exact ⟨⟨rfl, rfl⟩, .inl ⟨size, rfl⟩, fun _ _ _ => ⟨nofun, nofun, nofun⟩⟩
      | undecoded size running hd =>
        refine ⟨⟨s.traced_machine, s.traced_executed⟩, .inr ⟨size, hd⟩, ?_⟩
        intro operation operand address
        rcases decode_eq_error hd with ⟨_, _, rfl⟩ | ⟨_, rfl⟩ | ⟨_, rfl⟩
        all_goals exact ⟨nofun, nofun, nofun⟩

theorem step_atomic_at_unknown_opcode :
    (∃ m', execute ⟨.arith .add, [.register (.whole .ax), .memory (some .word) .bx 0]⟩ .zero = .ok () m') ∧
    step (ofProgram #[0xCD, 0x21] true) =
      .error (.unimplementedOpcode 0xCD 0x21 0) (ofProgram #[0xCD, 0x21] true).traced ∧
    (ofProgram #[0xCD, 0x21] true).traced.machine = .zero := by
  have hstep : step (ofProgram #[0xCD, 0x21] true) =
      .error (.unimplementedOpcode 0xCD 0x21 0) (ofProgram #[0xCD, 0x21] true).traced := rfl
  exact ⟨step_atomic.1 #[0x03, 0x07] 0 ⟨_, 2, by decide⟩ .zero rfl, hstep, ((step_atomic.2 _ _).2 _ hstep).1.1⟩

/-! ## What the journal has no part in -/

/-- The same simulator but for what is noted. -/
structure Alike (s t : Simulator) : Prop where
  machine : s.machine = t.machine
  program : s.program = t.program
  executed : s.executed = t.executed

namespace Alike

variable {s t s' t' : Simulator}

theorem refl (s : Simulator) : Alike s s := ⟨rfl, rfl, rfl⟩

theorem symm (h : Alike s t) : Alike t s := ⟨h.machine.symm, h.program.symm, h.executed.symm⟩

theorem trans {u : Simulator} (h : Alike s t) (h' : Alike t u) : Alike s u :=
  ⟨h.machine.trans h'.machine, h.program.trans h'.program, h.executed.trans h'.executed⟩

theorem note (s : Simulator) (e : Event) : Alike s (s.note e) := ⟨rfl, rfl, rfl⟩

theorem traced (h : Alike s t) : Alike s.traced t.traced := by
  refine ⟨?_, ?_, ?_⟩
  · rw [s.traced_machine, t.traced_machine, h.machine]
  · rw [s.traced_program, t.traced_program, h.program]
  · rw [s.traced_executed, t.traced_executed, h.executed]

theorem ip (h : Alike s t) : s.ip = t.ip := by rw [Simulator.ip, Simulator.ip, h.machine]

theorem finished (h : Alike s t) : s.finished = t.finished := by
  rw [Simulator.finished, Simulator.finished, h.ip, h.program]

theorem executing (h : Alike s t) (d : Decoded) (m : Machine) : Alike (s.executing d m) (t.executing d m) :=
  ⟨rfl, h.traced.program, congrArg (· + 1) h.executed⟩

theorem step_ok {x : Option Step} (h : Alike s t) (hs : step s = .ok x s') : ∃ t', step t = .ok x t' ∧ Alike s' t' := by
  cases StepCase.of_step hs with
  | finished size finished =>
    have hstep := StepCase.finished (h.program ▸ size) (h.finished ▸ finished)
    exact ⟨t, hstep.step_eq, h⟩
  | @executed d m size running decode execute =>
    have hadvanced : s.advanced d = t.advanced d := by rw [Simulator.advanced, Simulator.advanced, h.machine]
    have hstep := StepCase.executed (h.program ▸ size) (h.finished ▸ running) (h.ip ▸ h.program ▸ decode)
      (hadvanced ▸ execute)
    refine ⟨t.executing d m, ?_, h.executing d m⟩
    rw [hstep.step_eq, h.ip, h.machine]

theorem step_error {e : Error} (h : Alike s t) (hs : step s = .error e s') : ∃ t', step t = .error e t' ∧ Alike s' t' := by
  cases StepCase.of_step hs with
  | tooLarge size =>
    have hstep := StepCase.tooLarge (h.program ▸ size)
    exact ⟨t, h.program ▸ hstep.step_eq, h⟩
  | undecoded size running decode =>
    have hstep := StepCase.undecoded (h.program ▸ size) (h.finished ▸ running) (h.ip ▸ h.program ▸ decode)
    exact ⟨t.traced, hstep.step_eq, h.traced⟩

end Alike

end I8086.Simulator
