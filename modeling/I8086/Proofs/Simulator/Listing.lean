import I8086.Proofs.Program.Listing
import I8086.Proofs.Program.Walk
import I8086.Proofs.Simulator.Trace
import I8086.Proofs.Simulator.Run
import I8086.Proofs.Text.Change

/-! # Runs beside the listing -/

namespace I8086

/-!
## Programs whose jumps stay among their instructions

If every jump of a program leads to an instruction that a listing shows, or behind the program, then whatever is
executed is in the listing, and no step fails.
-/

namespace Walk

def Reaches (program : Array Byte) (offset : Nat) : Prop :=
  program.size ≤ offset ∨ ∃ item, .ok item ∈ (ofProgram program).items ∧ item.offset = offset

def Item.target (item : Item) (x : Word) : Nat := ((item.offset + 2 + x.toInt) % 0x10000).toNat

/-- A program that fits behind IP, that a walk gets through, and whose jumps lead to items or behind it. -/
structure Closed (program : Array Byte) : Prop where
  size : program.size ≤ Simulator.maxProgramSize
  error : (ofProgram program).error? = none
  jumps : ∀ item x, .ok item ∈ (ofProgram program).items → item.decoded.instruction.operation.isJump = true →
    item.decoded.instruction.displacement = .ok x → Reaches program (item.target x)

theorem Item.toNat_target (item : Item) (x : Word) : (BitVec.ofNat 16 (item.offset + 2) + x).toNat = item.target x := by
  have hx : x.toInt % 0x10000 = x.toNat % 0x10000 := by
    rw [BitVec.toInt_eq_toNat_bmod]
    exact Int.bmod_emod ..
  have htoNat : (BitVec.ofNat 16 (item.offset + 2) + x).toNat = (item.offset + 2 + x.toNat) % 0x10000 := by
    rw [BitVec.toNat_add, BitVec.toNat_ofNat]
    omega
  rw [htoNat, target]
  omega

variable {program : Array Byte} {item : Item}

theorem Reaches.of_le {offset : Nat} (h : program.size ≤ offset) : Reaches program offset := .inl h

theorem Reaches.of_mem (h : .ok item ∈ (ofProgram program).items) : Reaches program item.offset := .inr ⟨item, h, rfl⟩

theorem Closed.decode_of_mem (h : Closed program) (hi : .ok item ∈ (ofProgram program).items) :
    decode program item.offset = .ok item.decoded ∧ Reaches program (item.offset + item.decoded.size) := by
  have htiles := tiles_ofProgram program
  refine ⟨htiles.decode_of_mem hi, ?_⟩
  rcases htiles.next_of_mem (error_not_mem h.error) hi with hend | ⟨next, hnext, ho⟩
  · exact .of_le hend
  · exact ho ▸ .of_mem hnext

end Walk

namespace Listing

theorem exists_of_mem {program : Array Byte} {item : Walk.Item} (he : (Walk.ofProgram program).error? = none)
    (hi : .ok item ∈ (Walk.ofProgram program).items) :
    ∃ before behind : List Instruction, ofProgram program = .ok (header ++ String.join (before.map line) ++
      line item.decoded.instruction ++ String.join (behind.map line)) := by
  obtain ⟨before, behind, hsplit⟩ := List.append_of_mem (Walk.mem_instructions hi)
  refine ⟨before, behind, ofProgram_eq_ok_iff.mpr ⟨he, ?_⟩⟩
  rw [text, hsplit, List.map_append, List.map_cons, String.join_cons, String.join_append, String.join_cons,
    String.append_assoc, String.append_assoc]

end Listing

namespace Simulator

variable {s t : Simulator} {n : Nat}

def Shown (program : Array Byte) (x : Step) : Prop :=
  ∃ item, .ok item ∈ (Walk.ofProgram program).items ∧ item.offset = x.address.toNat ∧
    item.decoded.instruction = x.instruction

theorem exists_item (hp : Walk.Closed s.program) (hr : Walk.Reaches s.program s.ip.toNat) (running : s.finished = false) :
    ∃ item, .ok item ∈ (Walk.ofProgram s.program).items ∧ item.offset = s.ip.toNat ∧
      decode s.program s.ip.toNat = .ok item.decoded := by
  rcases hr with hend | ⟨item, hi, ho⟩
  · rw [finished, decide_eq_false_iff_not] at running
    exact absurd hend running
  · exact ⟨item, hi, ho, ho ▸ (hp.decode_of_mem hi).1⟩

theorem step_closed (hp : Walk.Closed s.program) (hr : Walk.Reaches s.program s.ip.toNat) :
    step s = .ok none s ∨
      ∃ x t, step s = .ok (some x) t ∧ t.program = s.program ∧ Walk.Reaches s.program t.ip.toNat ∧ Shown s.program x := by
  have hc := step_cases s
  generalize step s = r at hc ⊢
  cases hc with
  | tooLarge size => exact absurd hp.size (Nat.not_le.mpr size)
  | finished => exact .inl rfl
  | undecoded size running decode =>
    obtain ⟨item, _, _, hdecode⟩ := exists_item hp hr running
    cases decode.symm.trans hdecode
  | @executed d m size running decode execute =>
    obtain ⟨item, hi, ho, hdecode⟩ := exists_item hp hr running
    cases decode.symm.trans hdecode
    refine .inr ⟨_, _, rfl, s.traced_program, ?_, item, hi, ho, rfl⟩
    obtain ⟨hread, hnext⟩ := hp.decode_of_mem hi
    have hbehind : s.ip + BitVec.ofNat 16 item.decoded.size = BitVec.ofNat 16 (item.offset + item.decoded.size) := by
      rw [BitVec.ofNat_add, ho, BitVec.ofNat_toNat, BitVec.setWidth_eq]
    rcases ip_executing decode execute with h | ⟨isJump, hsize, x, displacement, h⟩
    · have hle : item.offset + item.decoded.size < 0x10000 := by
        have := le_of_decode hread
        rw [maxProgramSize] at size
        omega
      rw [h, hbehind, BitVec.toNat_ofNat, Nat.mod_eq_of_lt hle]
      exact hnext
    · rw [h, hbehind, hsize, item.toNat_target]
      exact hp.jumps item x hi isJump displacement

theorem program_steps_closed (hp : Walk.Closed s.program) (hr : Walk.Reaches s.program s.ip.toNat) (n : Nat) :
    Walk.Reaches s.program (s.steps n).2.ip.toNat ∧ (∀ e, (s.steps n).1 ≠ .failed e) ∧
      ∀ x ∈ s.trace n, Shown s.program x := by
  induction n generalizing s with
  | zero =>
    refine ⟨hr, ?_, ?_⟩
    · intro e h
      cases h
    · intro x hx
      cases hx
  | succ n ih =>
    rcases step_closed hp hr with hs | ⟨x, t, hs, ht, hreach, hshown⟩
    · rw [steps_of_none hs, trace, hs]
      refine ⟨hr, ?_, ?_⟩
      · intro e h
        cases h
      · intro x hx
        cases hx
    · rw [steps_of_some hs, trace, hs]
      rw [← ht] at hp hreach hshown ⊢
      obtain ⟨hip, herror, htrace⟩ := ih hp hreach
      refine ⟨hip, herror, ?_⟩
      intro y hy
      cases hy with
      | head => exact hshown
      | tail _ hy => exact htrace y hy

/-- A simulator in a closed program that stands at an item stays at items or behind the program, never fails, and
executes items only. The instruction in each of its lines is a line of the listing. -/
theorem steps_closed (s : Simulator) (hp : Walk.Closed s.program) (hr : Walk.Reaches s.program s.ip.toNat) (n : Nat) :
    Walk.Reaches s.program (s.steps n).2.ip.toNat ∧ (∀ e, (s.steps n).1 ≠ .failed e) ∧
      ∀ x ∈ s.trace n, Shown s.program x ∧
        (∃ changes, x.line = Text.padRight 20 x.instruction.text ++ " ;" ++ changes) ∧
        ∃ before behind : List Instruction, Listing.ofProgram s.program = .ok (Listing.header ++
          String.join (before.map Listing.line) ++ Listing.line x.instruction ++
          String.join (behind.map Listing.line)) := by
  obtain ⟨hip, herror, htrace⟩ := program_steps_closed hp hr n
  refine ⟨hip, herror, ?_⟩
  intro x hx
  obtain ⟨item, hi, ho, hinstruction⟩ := htrace x hx
  refine ⟨⟨item, hi, ho, hinstruction⟩, ⟨?_, ?_⟩⟩
  · rw [Step.line, Step.text, String.append_assoc, String.append_assoc]
    exact ⟨_, rfl⟩
  · exact hinstruction ▸ Listing.exists_of_mem hp.error hi

theorem steps_closed_in_loop :
    Walk.Closed #[0xB9, 0x03, 0x00, 0xE2, 0xFE] ∧
      ∀ e, ((ofProgram #[0xB9, 0x03, 0x00, 0xE2, 0xFE] false).steps 4).1 ≠ .failed e := by
  have htiles : Tiles #[0xB9, 0x03, 0x00, 0xE2, 0xFE] 0
      [.ok ⟨0, ⟨.mov, [.register (.whole .cx), ⟨none, .signed 3⟩]⟩, 3, by decide⟩,
        .ok ⟨3, ⟨.loop .always, [⟨none, .signed (-2)⟩]⟩, 2, by decide⟩] :=
    .decoded (by decide) rfl (.decoded (by decide) rfl (.finished (by decide)))
  have hitems := (Walk.tiles_ofProgram _).unique htiles
  have hreaches (offset : Nat) (h : offset = 0 ∨ offset = 3) :
      Walk.Reaches #[0xB9, 0x03, 0x00, 0xE2, 0xFE] offset := by
    rw [Walk.Reaches, hitems]
    rcases h with rfl | rfl
    · exact .inr ⟨_, .head _, rfl⟩
    · exact .inr ⟨_, .tail _ (.head _), rfl⟩
  have hclosed : Walk.Closed #[0xB9, 0x03, 0x00, 0xE2, 0xFE] := by
    refine ⟨by decide, ?_, ?_⟩
    · rw [Walk.error?, hitems]
      rfl
    · intro item x hi hj hx
      rw [hitems] at hi
      cases hi with
      | head => cases hj
      | tail _ hi =>
        cases hi with
        | head =>
          cases hx
          exact hreaches _ (.inr rfl)
        | tail _ hi => cases hi
  exact ⟨hclosed, (steps_closed (ofProgram _ false) hclosed (hreaches _ (.inl rfl)) 4).2.1⟩

end Simulator

/-!
## Programs without jumps

A simulator goes through a program without jumps as a walk does, item by item. It ends where the walk ends, with the
same error if there is one, and what it writes in front of its changes are the lines of the listing.
-/

namespace Walk

def Straight (items : List (Except Error Item)) : Prop :=
  ∀ item, .ok item ∈ items → item.decoded.instruction.operation.isJump = false

end Walk

def Stop.ofFailure? : Option Error → Stop
  | none => .finished
  | some e => .failed e

namespace Simulator

open Walk

variable {s u : Simulator} {items : List (Except Error Item)}

/-- The steps from `s` execute the items that were found, one after the other, and leave `u` where these end. -/
structure Follows (s : Simulator) (items : List (Except Error Item)) (u : Simulator) : Prop where
  ends : s.Ends (found items).length u (.ofFailure? (failure? items))
  trace : (s.trace (found items).length).map Step.place = (found items).map Item.place
  executed : u.executed = s.executed + (found items).length
  finished : failure? items = none → u.ip.toNat = s.program.size
  failed : ∀ e, failure? items = some e → decode s.program u.ip.toNat = .error e

theorem Follows.cons {d : Decoded} {x : Step} {t : Simulator} (hd : decode s.program s.ip.toNat = .ok d)
    (hstep : step s = .ok (some x) t) (h : t.Follows items u) : s.Follows (.ok ⟨s.ip.toNat, d⟩ :: items) u where
  ends := h.ends.cons hstep
  trace := by
    change (s.trace ((found items).length + 1)).map Step.place = Item.place ⟨s.ip.toNat, d⟩ :: (found items).map Item.place
    rw [Simulator.trace, hstep, List.map_cons, h.trace, place_of_step hd hstep, Item.place]
  executed := by
    change u.executed = s.executed + ((found items).length + 1)
    rw [h.executed, executed_of_step hstep]
    omega
  finished := fun he => program_of_step hstep ▸ h.finished he
  failed := fun e he => program_of_step hstep ▸ h.failed e he

theorem exists_follows {program : Array Byte} {offset : Nat} (ht : Tiles program offset items) (hprogram : s.program = program)
    (hip : s.ip.toNat = offset) (hsize : program.size ≤ maxProgramSize) (hle : offset ≤ program.size)
    (hstraight : Straight items) : ∃ u, s.Follows items u := by
  induction ht generalizing s with
  | @finished offset size =>
    subst hprogram hip
    have hstep := step_of_finished hsize (decide_eq_true size)
    refine ⟨s, .zero_of_none hstep, rfl, rfl, fun _ => Nat.le_antisymm hle size, ?_⟩
    intro e he
    cases he
  | @undecoded offset e size decode =>
    subst hprogram hip
    have hstep := (StepCase.undecoded hsize (decide_eq_false (Nat.not_le.mpr size)) decode).step_eq
    refine ⟨s, .zero_of_error hstep, rfl, rfl, ?_, ?_⟩
    · intro he
      cases he
    · intro e he
      cases he
      exact decode
  | @decoded offset d items size decode tiles ih =>
    subst hprogram hip
    obtain ⟨x, t, hstep, _, _, hprogram, _, hip⟩ := next_of_not_jump hsize decode (hstraight _ (.head _))
    obtain ⟨u, hu⟩ := ih hprogram hip (le_of_decode decode) (fun item hi => hstraight item (.tail _ hi))
    exact ⟨u, hu.cons decode hstep⟩

theorem listing_of_follows {program : Array Byte} {n : Nat} (he : (Walk.ofProgram program).error? = none)
    (htrace : (s.trace n).map Step.place = (found (Walk.ofProgram program).items).map Item.place) :
    Listing.ofProgram program =
      .ok (Listing.header ++ String.join ((s.trace n).map fun x => Text.column x.line ++ "\n")) := by
  have hlines : (s.trace n).map (fun x => Text.column x.line ++ "\n") =
      (Walk.ofProgram program).instructions.map Listing.line := by
    have hmap := congrArg (List.map fun p => Listing.line p.2) htrace
    rw [List.map_map, List.map_map] at hmap
    rw [instructions_eq, List.map_map]
    simp only [Step.column_line]
    exact hmap
  refine Listing.ofProgram_eq_ok_iff.mpr ⟨he, ?_⟩
  rw [hlines, Listing.text, String.join_cons]

/-- A program without jumps is executed item by item, as a walk finds them. A run that has room for its output ends at
the end of the program with the lines of the listing in front of the marks, or at the walk's error. -/
theorem run_straight (s : Simulator) (hsize : s.program.size ≤ maxProgramSize) (hip : s.ip = 0)
    (hstraight : Straight (Walk.ofProgram s.program).items) :
    let walk := Walk.ofProgram s.program
    let n := (found walk.items).length
    (s.trace n).map Step.place = (found walk.items).map Item.place ∧
      ∃ u, s.steps n = (.limit, u) ∧ u.executed = s.executed + n ∧
        ∀ out : Sink, out.Fits (s.output (n + 1)) →
          ∃ t out', t.machine = u.machine ∧ t.executed = u.executed ∧
            match walk.error? with
            | none => run (s, out) = .ok () (t, out') ∧ t.ip.toNat = s.program.size ∧
                out'.written = out.written ++ (s.lines n ++ t.report).toUTF8 ∧
                Listing.ofProgram s.program =
                  .ok (Listing.header ++ String.join ((s.trace n).map fun x => Text.column x.line ++ "\n"))
            | some e => run (s, out) = .error e (t, out') ∧ decode s.program t.ip.toNat = .error e ∧
                e.offset? = some t.ip.toNat ∧ out'.written = out.written ++ (s.lines n).toUTF8 := by
  have hzero : s.ip.toNat = 0 := by rw [hip]; rfl
  obtain ⟨u, hu⟩ := exists_follows (Walk.tiles_ofProgram s.program) rfl hzero hsize (Nat.zero_le _) hstraight
  refine ⟨hu.trace, u, hu.ends.steps, hu.executed, ?_⟩
  intro out hfits
  obtain ⟨t, ht, hrun⟩ := run_of_fits hu.ends hfits
  refine ⟨t, out.fill (s.output ((found (Walk.ofProgram s.program).items).length + 1)), ht.machine.symm,
    ht.executed.symm, ?_⟩
  have hends := hu.ends
  have hfinished := hu.finished
  have hfailed := hu.failed
  have hfailure : failure? (Walk.ofProgram s.program).items = (Walk.ofProgram s.program).error? := rfl
  rw [hfailure] at hends hfinished hfailed hrun
  rw [ht.ip] at hfinished hfailed
  cases hwalk : (Walk.ofProgram s.program).error? with
  | none =>
    rw [hwalk] at hends hrun
    have houtput := hends.output_of_finished
    have hreport : u.report = t.report := by rw [report, report, ht.machine]
    rw [hreport] at houtput
    refine ⟨hrun, hfinished hwalk, ?_, listing_of_follows hwalk hu.trace⟩
    rw [Sink.fill_of_fits hfits, houtput]
  | some e =>
    rw [hwalk] at hends hrun
    refine ⟨hrun, hfailed e hwalk, offset?_of_decode (hfailed e hwalk), ?_⟩
    rw [Sink.fill_of_fits hfits, hends.output_of_failed]

theorem run_straight_to_unknown_opcode :
    Straight (Walk.ofProgram #[0x89, 0xD9, 0xCD, 0x21]).items ∧
      ∃ limit t out, run (ofProgram #[0x89, 0xD9, 0xCD, 0x21] false, .ofLimit limit) =
          .error (.unimplementedOpcode 0xCD 0x21 2) (t, out) ∧
        t.executed = 1 ∧ t.ip.toNat = 2 := by
  have htiles : Tiles #[0x89, 0xD9, 0xCD, 0x21] 0
      [.ok ⟨0, ⟨.mov, [.register (.whole .cx), .register (.whole .bx)]⟩, 2, by decide⟩,
        .error (.unimplementedOpcode 0xCD 0x21 2)] :=
    .decoded (by decide) rfl (.undecoded (by decide) rfl)
  have hitems := (Walk.tiles_ofProgram _).unique htiles
  have hstraight : Straight (Walk.ofProgram #[0x89, 0xD9, 0xCD, 0x21]).items := by
    intro item hi
    rw [hitems] at hi
    cases hi with
    | head => rfl
    | tail _ hi => cases hi with
      | tail _ hi => cases hi
  have herror : (Walk.ofProgram #[0x89, 0xD9, 0xCD, 0x21]).error? = some (.unimplementedOpcode 0xCD 0x21 2) := by
    rw [Walk.error?, hitems]
    rfl
  have hrun := run_straight (ofProgram #[0x89, 0xD9, 0xCD, 0x21] false) (by decide) rfl hstraight
  simp only [ofProgram, herror, hitems] at hrun
  obtain ⟨_, u, _, hexecuted, hall⟩ := hrun
  obtain ⟨t, out, _, ht, hrun, _, hoffset, _⟩ := hall (.ofLimit _) (Nat.le_refl _)
  exact ⟨hstraight, _, t, out, hrun, ht.trans hexecuted, (Option.some.inj hoffset).symm⟩

end Simulator

end I8086
