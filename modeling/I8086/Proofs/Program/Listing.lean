import I8086.Program.Listing
import I8086.Proofs.Program.Walk
import I8086.Proofs.Text.Line
import I8086.Proofs.Text.Sink

/-!
# What a listing writes

A listing writes its text as far as the sink takes it. It fails with the error of the walk, or before that where the
sink is full (`listing_written`).
-/

namespace I8086.Listing

open Walk

def lines (items : List Item) : String := String.join (items.map fun item => line item.decoded.instruction)

theorem lines_cons (item : Item) (items : List Item) :
    lines (item :: items) = line item.decoded.instruction ++ lines items := by
  rw [lines, List.map_cons, String.join_cons, lines]

theorem text_eq (program : Array Byte) : text program = header ++ lines (found (Walk.ofProgram program).items) := by
  rw [text, String.join_cons, instructions_eq, List.map_map, lines]
  rfl

def ending (d : Draft) : Option Error → EStateM.Result Error Draft Unit
  | none => .ok () d
  | some e => .error e d

/-- `x` writes `text` as far as there is room for it. If there is room for all of it `x` ends with `failure`. -/
def Writes (x : EStateM Error Draft Unit) (text : String) (failure : Option Error) : Prop :=
  ∀ d : Draft, ∃ journal, x d =
    ending ⟨d.sink.fill text, journal⟩ (if d.sink.Fits text then failure else some .outputFull)

section
variable {x y : EStateM Error Draft Unit} {a b : String} {failure : Option Error}

theorem writes_pure : Writes (pure ()) "" none := by
  intro d
  rw [Sink.fill_empty, if_pos Sink.fits_empty]
  exact ⟨d.journal, rfl⟩

theorem writes_throw (e : Error) : Writes (throw e) "" (some e) := by
  intro d
  rw [Sink.fill_empty, if_pos Sink.fits_empty]
  exact ⟨d.journal, rfl⟩

theorem writes_write (a : String) : Writes (write a) a none := by
  intro d
  refine ⟨d.journal, ?_⟩
  by_cases h : d.sink.Fits a
  · rw [write, Sink.write_of_fits h, if_pos h]
    rfl
  · rw [write, Sink.write_of_not_fits h, if_neg h]
    rfl

theorem Writes.note (h : Writes x a failure) (e : Event) :
    Writes (modify (fun d => { d with journal := e :: d.journal }) >>= fun _ => x) a failure :=
  fun d => h { d with journal := e :: d.journal }

theorem Writes.bind (hx : Writes x a none) (hy : Writes y b failure) : Writes (x >>= fun _ => y) (a ++ b) failure := by
  intro d
  obtain ⟨journal, hx⟩ := hx d
  by_cases h : d.sink.Fits a
  · rw [if_pos h, ending] at hx
    obtain ⟨journal', hy⟩ := hy ⟨d.sink.fill a, journal⟩
    refine ⟨journal', ?_⟩
    rw [bind_of_ok hx, hy, Sink.fill_append h]
    exact congrArg (ending _) (if_congr (Sink.fits_append h).symm rfl rfl)
  · -- What comes behind `a` is not written, and would not have been: `a` has filled the sink.
    rw [if_neg h, ending] at hx
    refine ⟨journal, ?_⟩
    rw [bind_of_error hx, Sink.fill_append_of_not_fits h, if_neg fun hall => h hall.of_append, ending]

end

theorem writes_items (items : List Item) (failure : Option Error) :
    Writes (writeItems (items.map .ok ++ (failure.map .error).toList)) (lines items) failure := by
  induction items with
  | nil =>
    cases failure with
    | none => exact writes_pure
    | some e => exact writes_throw e
  | cons item items ih =>
    rw [lines_cons]
    exact ((writes_write _).bind ih).note item.event

theorem writes_program (program : Array Byte) :
    Writes (writeProgram program) (text program) (Walk.ofProgram program).error? := by
  rw [text_eq, writeProgram]
  have hitems := writes_items (found (Walk.ofProgram program).items) (Walk.ofProgram program).error?
  rw [← items_eq_append] at hitems
  exact (writes_write header).bind hitems

theorem ofProgramWithin_eq {program : Array Byte} {limit : Nat} (h : (text program).utf8ByteSize ≤ limit) :
    ofProgramWithin limit program =
      match (Walk.ofProgram program).error? with
      | none => .ok (text program)
      | some e => .error e := by
  obtain ⟨journal, hwritten⟩ := writes_program program (.ofLimit limit)
  have hfits : (Draft.ofLimit limit).sink.Fits (text program) := h
  rw [if_pos hfits] at hwritten
  rw [ofProgramWithin, hwritten]
  cases (Walk.ofProgram program).error? with
  | none => exact congrArg Except.ok (Sink.text_fill_ofLimit hfits)
  | some e => rfl

theorem ofProgram_eq (program : Array Byte) :
    ofProgram program =
      match (Walk.ofProgram program).error? with
      | none => .ok (text program)
      | some e => .error e :=
  ofProgramWithin_eq (Nat.le_refl _)

theorem ofProgram_eq_ok_iff {program : Array Byte} {t : String} :
    ofProgram program = .ok t ↔ (Walk.ofProgram program).error? = none ∧ t = text program := by
  rw [ofProgram_eq]
  cases (Walk.ofProgram program).error? with
  | none => simp [eq_comm]
  | some e => simp

theorem ofProgram_eq_error_iff {program : Array Byte} {e : Error} :
    ofProgram program = .error e ↔ (Walk.ofProgram program).error? = some e := by
  rw [ofProgram_eq]
  cases (Walk.ofProgram program).error? with
  | none => simp
  | some e' => simp

theorem error?_ne_outputFull (program : Array Byte) : (Walk.ofProgram program).error? ≠ some .outputFull := by
  intro h
  have hend := (tiles_ofProgram program).end_eq (Nat.zero_le _)
  rw [show failure? (Walk.ofProgram program).items = some .outputFull from h] at hend
  rcases decode_eq_error hend.2 with ⟨_, _, he⟩ | ⟨_, he⟩ | ⟨_, he⟩ <;> cases he

/-- With room for its text a listing writes all of it and ends as the walk does. With less room it writes the first
`limit` bytes and fails. The text has a line for each instruction, and appending to a program without error appends
to its lines. -/
theorem listing_written (program : Array Byte) :
    (∀ limit, ∃ journal,
      ((text program).utf8ByteSize ≤ limit →
        writeProgram program (.ofLimit limit) =
          ending ⟨⟨limit, (text program).toUTF8⟩, journal⟩ (Walk.ofProgram program).error?) ∧
      (limit < (text program).utf8ByteSize →
        writeProgram program (.ofLimit limit) =
          .error .outputFull ⟨⟨limit, (text program).toUTF8.extract 0 limit⟩, journal⟩)) ∧
    (Walk.ofProgram program).error? ≠ some .outputFull ∧
    text program = "bits 16\n" ++ "\n" ++
      String.join ((Walk.ofProgram program).instructions.map fun i => i.text ++ "\n") ∧
    (∀ i ∈ (Walk.ofProgram program).instructions, '\n' ∉ i.text.toList) ∧
    (∀ t, ofProgram program = .ok t ↔ (Walk.ofProgram program).error? = none ∧ t = text program) ∧
    (∀ e, ofProgram program = .error e ↔ (Walk.ofProgram program).error? = some e) ∧
    (∀ limit, (text program).utf8ByteSize ≤ limit → ofProgramWithin limit program = ofProgram program) ∧
    ((Walk.ofProgram program).error? = none → ∀ q : Array Byte,
      text (program ++ q) = text program ++ String.join ((Walk.ofProgram q).instructions.map line) ∧
      (Walk.ofProgram (program ++ q)).error? = (Walk.ofProgram q).error?.map (Error.shift program.size)) := by
  refine ⟨?_, error?_ne_outputFull program, ?_, ?_, fun _ => ofProgram_eq_ok_iff, fun _ => ofProgram_eq_error_iff, ?_, ?_⟩
  · intro limit
    obtain ⟨journal, h⟩ := writes_program program (.ofLimit limit)
    refine ⟨journal, ?_, ?_⟩
    · intro (hfits : (Draft.ofLimit limit).sink.Fits (text program))
      rw [h, if_pos hfits, Sink.fill_of_fits hfits, Draft.ofLimit, Sink.ofLimit, ByteArray.empty_append]
    · intro hfull
      have hfull : ¬(Draft.ofLimit limit).sink.Fits (text program) := Nat.not_le.mpr hfull
      rw [h, if_neg hfull, Draft.ofLimit, Sink.fill_ofLimit, ending]
  · rw [text, String.join_cons]
    rfl
  · intro i _ hi
    exact (i.clean_text.plain _ hi).2 rfl
  · intro limit h
    rw [ofProgramWithin_eq h, ofProgram_eq]
  · intro h q
    refine ⟨?_, error?_append h q⟩
    rw [text, instructions_append h q, List.map_append, String.join_cons, String.join_append, text, String.join_cons,
      String.append_assoc]

theorem listing_written_of_move :
    (∃ journal, writeProgram #[0x89, 0xD9] (.ofLimit 20) =
      .ok () ⟨⟨20, "bits 16\n\nmov cx, bx\n".toUTF8⟩, journal⟩) ∧
    (∃ journal, writeProgram #[0x89, 0xD9] (.ofLimit 12) = .error .outputFull ⟨⟨12, "bits 16\n\nmov".toUTF8⟩, journal⟩) ∧
    (Walk.ofProgram (#[0x89, 0xD9] ++ #[0xCD, 0x21])).error? = some (.unimplementedOpcode 0xCD 0x21 2) := by
  have htiles : Tiles #[0x89, 0xD9] 0
      [.ok ⟨0, ⟨.mov, [.register (.whole .cx), .register (.whole .bx)]⟩, 2, by decide⟩] :=
    .decoded (by decide) rfl (.finished (by decide))
  have hitems := (tiles_ofProgram _).unique htiles
  have htext : text #[0x89, 0xD9] = "bits 16\n\nmov cx, bx\n" := by
    rw [text_eq, hitems]
    rfl
  have herror : (Walk.ofProgram #[0x89, 0xD9]).error? = none := by
    rw [error?, hitems]
    rfl
  have herror' : (Walk.ofProgram #[0xCD, 0x21]).error? = some (.unimplementedOpcode 0xCD 0x21 0) := by
    have htiles' : Tiles #[0xCD, 0x21] 0 [.error (.unimplementedOpcode 0xCD 0x21 0)] := .undecoded (by decide) rfl
    rw [error?, (tiles_ofProgram _).unique htiles']
    rfl
  obtain ⟨hwritten, _, _, _, _, _, _, happend⟩ := listing_written #[0x89, 0xD9]
  rw [htext, herror] at hwritten
  obtain ⟨journal, hfits, _⟩ := hwritten 20
  obtain ⟨journal', _, hfull⟩ := hwritten 12
  refine ⟨⟨journal, hfits (by decide)⟩, ⟨journal', ?_⟩, ?_⟩
  · rw [hfull (by decide)]
    rfl
  · rw [(happend herror #[0xCD, 0x21]).2, herror']
    rfl

end I8086.Listing
