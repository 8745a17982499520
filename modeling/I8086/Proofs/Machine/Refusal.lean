import I8086.Proofs.Machine.Frame

/-!
# What execution refuses

An instruction that was not decoded can lack operands, leave its width open, or name a destination that cannot be
written. Execution fails with the first of these that applies, whatever the machine (`execute_refuses`). It leaves the
machine alone then, but for a sum or a difference without a place for the result, which has set the flags already
(`execute_error_spares`).
-/

namespace I8086

namespace Operation

def arity : Operation → Nat
  | mov | arith _ => 2
  | jump _ | loop _ | jcxz => 1

theorem arity_of_isJump {operation : Operation} (h : operation.isJump = true) : operation.arity = 1 := by
  cases operation with
  | mov | arith op => cases h
  | jump c | loop t | jcxz => rfl

theorem arity_of_not_jump {operation : Operation} (h : operation.isJump = false) : operation.arity = 2 := by
  cases operation with
  | mov | arith op => rfl
  | jump c | loop t | jcxz => cases h

end Operation

namespace Operand

def Unsized (o : Operand) : Prop := (∀ view, o.kind ≠ .register view) ∧ o.size = none

def Immediate (o : Operand) : Prop := ∃ x, o.kind = .signed x ∨ o.kind = .unsigned x

variable {o : Operand}

theorem width?_eq_none_iff : o.width? = none ↔ o.Unsized := by
  obtain ⟨size, kind⟩ := o
  cases kind <;> simp [width?, Unsized]

theorem isPlace_eq_false_iff : o.isPlace = false ↔ o.Immediate := by
  obtain ⟨size, kind⟩ := o
  cases kind <;> simp [isPlace, Immediate]

end Operand

namespace Instruction

/-- Why an instruction is not executed, and the error that says so. -/
inductive Unfit (i : Instruction) : Error → Prop
  | missing (few : i.operands.length < i.operation.arity) : Unfit i (.missingOperand i.operation)
  | unsized {dst src : Operand} {rest : List Operand} (notJump : i.operation.isJump = false)
    (operands : i.operands = dst :: src :: rest) (unsized : dst.Unsized ∧ src.Unsized) :
    Unfit i (.invalidOperand i.operation dst)
  | unwritable {dst src : Operand} {rest : List Operand} (notJump : i.operation.isJump = false)
    (keeps : i.operation ≠ .arith .cmp) (operands : i.operands = dst :: src :: rest) (sized : ¬(dst.Unsized ∧ src.Unsized))
    (immediate : dst.Immediate) : Unfit i (.invalidOperand i.operation dst)
  | undirected {o : Operand} {rest : List Operand} (isJump : i.operation.isJump = true) (operands : i.operands = o :: rest)
    (notSigned : ∀ x, o.kind ≠ .signed x) : Unfit i (.invalidOperand i.operation o)

variable {i : Instruction} {dst src : Operand} {w : Width} {e : Error} {rest : List Operand}

/-! ## Operands as execution finds them -/

theorem pair_of_few (h : i.operands.length < 2) : i.pair = .error (.missingOperand i.operation) := by
  have hsource : i.source? = none := List.getElem?_eq_none (Nat.le_of_lt_succ h)
  simp [pair, hsource]

theorem pair_of_unsized (operands : i.operands = dst :: src :: rest) (unsized : dst.Unsized ∧ src.Unsized) :
    i.pair = .error (.invalidOperand i.operation dst) := by
  have hdst := Operand.width?_eq_none_iff.mpr unsized.1
  have hsrc := Operand.width?_eq_none_iff.mpr unsized.2
  simp [pair, destination?, source?, operands, hdst, hsrc]

theorem exists_pair_of_sized (operands : i.operands = dst :: src :: rest) (sized : ¬(dst.Unsized ∧ src.Unsized)) :
    ∃ w, i.pair = .ok (dst, src, w) := by
  cases hw : dst.width? <|> src.width? with
  | some w => exact ⟨w, pair_eq operands hw⟩
  | none =>
    obtain ⟨hdst, hsrc⟩ := Option.or_eq_none_iff.mp (Option.orElse_eq_or.symm.trans hw)
    exact absurd ⟨Operand.width?_eq_none_iff.mp hdst, Operand.width?_eq_none_iff.mp hsrc⟩ sized

theorem displacement_of_few (h : i.operands.length < 1) : i.displacement = .error (.missingOperand i.operation) := by
  have hdestination : i.destination? = none := List.getElem?_eq_none (Nat.le_of_lt_succ h)
  simp [displacement, hdestination]

theorem displacement_of_not_signed {o : Operand} (operands : i.operands = o :: rest) (notSigned : ∀ x, o.kind ≠ .signed x) :
    i.displacement = .error (.invalidOperand i.operation o) := by
  obtain ⟨size, kind⟩ := o
  cases kind with
  | signed x => exact absurd rfl (notSigned x)
  | register view | unsigned x | memory a => simp [displacement, destination?, operands]

theorem displacement_of_signed {o : Operand} {x : Word} (operands : i.operands = o :: rest) (signed : o.kind = .signed x) :
    i.displacement = .ok x := by
  simp [displacement, destination?, operands, signed]

def used (i : Instruction) : Instruction := { i with operands := i.operands.take i.operation.arity }

theorem pair_used (notJump : i.operation.isJump = false) : i.used.pair = i.pair := by
  simp [used, pair, destination?, source?, Operation.arity_of_not_jump notJump]

theorem displacement_used (isJump : i.operation.isJump = true) : i.used.displacement = i.displacement := by
  simp [used, displacement, destination?, Operation.arity_of_isJump isJump]

/-! ## All that execution can do -/

open Machine

/-- A sum or a difference whose result has no place to go to, though it has a width. -/
structure Unstored (i : Instruction) (op : Arith) (dst src : Operand) (w : Width) : Prop where
  operation : i.operation = .arith op
  keeps : op ≠ .cmp
  pair : i.pair = .ok (dst, src, w)
  immediate : dst.Immediate

inductive ExecuteCase (i : Instruction) (m : Machine) : EStateM.Result Error Machine Unit → Prop
  | executed (m' : Machine) : ExecuteCase i m (.ok () m')
  | refused {e : Error} (unfit : i.Unfit e) (stored : ∀ op dst src w, ¬i.Unstored op dst src w) : ExecuteCase i m (.error e m)
  | unstored {op : Arith} {dst src : Operand} {w : Width} (unstored : i.Unstored op dst src w) :
    ExecuteCase i m (.error (.invalidOperand i.operation dst) (m.setStatus (m.outcome op dst src w)))

theorem Unstored.notJump {op : Arith} (h : i.Unstored op dst src w) : i.operation.isJump = false := by
  rw [h.operation]
  rfl

theorem Unstored.unfit {op : Arith} (h : i.Unstored op dst src w) : i.Unfit (.invalidOperand i.operation dst) := by
  obtain ⟨rest, operands⟩ := operands_of_pair h.pair
  refine .unwritable h.notJump ?_ operands ?_ h.immediate
  · rw [h.operation]
    exact fun e => h.keeps (Operation.arith.inj e)
  · intro unsized
    cases h.pair.symm.trans (pair_of_unsized operands unsized)

theorem execute_cases_of_isJump (isJump : i.operation.isJump = true) (m : Machine) : ExecuteCase i m (execute i m) := by
  have stored (op : Arith) (dst src : Operand) (w : Width) : ¬i.Unstored op dst src w := by
    intro h
    cases isJump.symm.trans h.notJump
  cases operands : i.operands with
  | nil =>
    have few : i.operands.length < 1 := by simp [operands]
    rw [execute_of_displacement_error isJump (displacement_of_few few)]
    exact .refused (.missing (Operation.arity_of_isJump isJump ▸ few)) stored
  | cons o rest =>
    by_cases signed : ∃ x, o.kind = .signed x
    · obtain ⟨x, signed⟩ := signed
      rw [execute_of_isJump isJump (displacement_of_signed operands signed)]
      exact .executed _
    · have notSigned := not_exists.mp signed
      rw [execute_of_displacement_error isJump (displacement_of_not_signed operands notSigned)]
      exact .refused (.undirected isJump operands notSigned) stored

theorem execute_cases_of_pair_error (notJump : i.operation.isJump = false) (pair : i.pair = .error e) (unfit : i.Unfit e)
    (m : Machine) : ExecuteCase i m (execute i m) := by
  rw [execute_of_pair_error notJump pair]
  refine .refused unfit ?_
  intro op dst src w h
  cases h.pair.symm.trans pair

theorem execute_cases_of_pair (notJump : i.operation.isJump = false) (pair : i.pair = .ok (dst, src, w)) (m : Machine) :
    ExecuteCase i m (execute i m) := by
  obtain ⟨rest, operands⟩ := operands_of_pair pair
  have sized : ¬(dst.Unsized ∧ src.Unsized) := by
    intro unsized
    cases pair.symm.trans (pair_of_unsized operands unsized)
  cases ho : i.operation with
  | jump c | loop t | jcxz =>
    rw [ho] at notJump
    cases notJump
  | mov =>
    cases place : dst.isPlace with
    | true =>
      rw [execute_mov ho pair place]
      exact .executed _
    | false =>
      rw [execute_mov_of_not_place ho pair place]
      refine .refused (.unwritable notJump ?_ operands sized (Operand.isPlace_eq_false_iff.mp place)) ?_
      · simp [ho]
      · intro op dst src w h
        cases ho.symm.trans h.operation
  | arith op =>
    by_cases hop : op = .cmp
    · subst hop
      rw [execute_cmp ho pair]
      exact .executed _
    · cases place : dst.isPlace with
      | true =>
        rw [execute_arith ho hop pair place]
        exact .executed _
      | false =>
        rw [execute_arith_of_not_place ho hop pair place]
        exact .unstored ⟨ho, hop, pair, Operand.isPlace_eq_false_iff.mp place⟩

theorem execute_cases (i : Instruction) (m : Machine) : ExecuteCase i m (execute i m) := by
  cases hjump : i.operation.isJump with
  | true => exact execute_cases_of_isJump hjump m
  | false =>
    have harity := Operation.arity_of_not_jump hjump
    match operands : i.operands with
    | [] | [_] =>
      have few : i.operands.length < 2 := by simp [operands]
      exact execute_cases_of_pair_error hjump (pair_of_few few) (.missing (harity ▸ few)) m
    | dst :: src :: rest =>
      by_cases unsized : dst.Unsized ∧ src.Unsized
      · exact execute_cases_of_pair_error hjump (pair_of_unsized operands unsized) (.unsized hjump operands unsized) m
      · obtain ⟨w, pair⟩ := exists_pair_of_sized operands unsized
        exact execute_cases_of_pair hjump pair m

theorem execute_used (i : Instruction) (m : Machine) : execute i.used m = execute i m := by
  have hoperation : i.used.operation = i.operation := rfl
  unfold execute
  rw [hoperation]
  cases ho : i.operation with
  | mov => simp only [pair_used (i := i) (by rw [ho]; rfl)]
  | arith op => simp only [arithmetic, pair_used (i := i) (by rw [ho]; rfl), hoperation]
  | jump c | loop t | jcxz => simp only [displacement_used (i := i) (by rw [ho]; rfl)]

theorem Unfit.exists_error (h : i.Unfit e) (m : Machine) : ∃ m', execute i m = .error e m' := by
  cases h with
  | missing few =>
    cases hjump : i.operation.isJump with
    | true =>
      rw [Operation.arity_of_isJump hjump] at few
      exact ⟨m, execute_of_displacement_error hjump (displacement_of_few few)⟩
    | false =>
      rw [Operation.arity_of_not_jump hjump] at few
      exact ⟨m, execute_of_pair_error hjump (pair_of_few few)⟩
  | unsized notJump operands unsized => exact ⟨m, execute_of_pair_error notJump (pair_of_unsized operands unsized)⟩
  | undirected isJump operands notSigned =>
    exact ⟨m, execute_of_displacement_error isJump (displacement_of_not_signed operands notSigned)⟩
  | unwritable notJump keeps operands sized immediate =>
    obtain ⟨w, pair⟩ := exists_pair_of_sized operands sized
    have place := Operand.isPlace_eq_false_iff.mpr immediate
    cases ho : i.operation with
    | jump c | loop t | jcxz =>
      rw [ho] at notJump
      cases notJump
    | mov => exact ⟨m, ho ▸ execute_mov_of_not_place ho pair place⟩
    | arith op =>
      have hop : op ≠ .cmp := by
        rintro rfl
        exact keeps ho
      have hexecute := execute_arith_of_not_place (m := m) ho hop pair place
      exact ⟨_, ho ▸ hexecute⟩

/-! ## Errors and what they leave -/

/-- Execution fails with an error exactly where it is what the instruction is unfit for, in every machine. Operands behind
those that the operation uses have no part in it, and no address is out of range. -/
theorem execute_refuses (i : Instruction) (m : Machine) :
    (∀ e, (∃ m', execute i m = .error e m') ↔ i.Unfit e) ∧
    (∀ address m', execute i m ≠ .error (.memoryOutOfRange address) m') ∧
    execute { i with operands := i.operands.take i.operation.arity } m = execute i m := by
  have hunfit (e : Error) (m' : Machine) (h : execute i m = .error e m') : i.Unfit e := by
    have hcase := execute_cases i m
    rw [h] at hcase
    cases hcase with
    | refused unfit stored => exact unfit
    | unstored unstored => exact unstored.unfit
  refine ⟨?_, ?_, execute_used i m⟩
  · intro e
    refine ⟨?_, fun h => h.exists_error m⟩
    rintro ⟨m', h⟩
    exact hunfit e m' h
  · intro address m' h
    cases hunfit _ m' h

theorem execute_refuses_in_turn :
    (∃ m', execute ⟨.mov, [.signed 5]⟩ .zero = .error (.missingOperand .mov) m') ∧
    (∃ m', execute ⟨.loop .always, [.register (.whole .cx), .signed 2]⟩ .zero =
      .error (.invalidOperand (.loop .always) (.register (.whole .cx))) m') ∧
    execute ⟨.arith .cmp, [.signed 5, .register (.whole .ax)]⟩ .zero =
      execute ⟨.arith .cmp, [.signed 5, .register (.whole .ax), .signed 1]⟩ .zero := by
  refine ⟨((execute_refuses _ _).1 _).mpr (.missing (by decide)), ?_, ?_⟩
  · exact ((execute_refuses _ _).1 _).mpr (.undirected rfl rfl nofun)
  · exact (execute_refuses ⟨.arith .cmp, [.signed 5, .register (.whole .ax), .signed 1]⟩ .zero).2.2

/-- What fails leaves memory and all registers but FLAGS as they were, and FLAGS too unless a result had no place to go
to. -/
theorem execute_error_spares {i : Instruction} {m m' : Machine} {e : Error} (h : execute i m = .error e m') :
    m'.memory = m.memory ∧ (∀ r, r ≠ .flags → m'.registers.word r = m.registers.word r) ∧
    ((∀ op dst src w, ¬i.Unstored op dst src w) → m' = m) ∧
    ∀ op dst src w, i.Unstored op dst src w →
      e = .invalidOperand i.operation dst ∧ m' = m.setStatus (m.outcome op dst src w) := by
  have hcase := execute_cases i m
  rw [h] at hcase
  cases hcase with
  | refused unfit stored => exact ⟨rfl, fun _ _ => rfl, fun _ => rfl, fun op dst src w h => absurd h (stored op dst src w)⟩
  | @unstored op dst src w unstored =>
    refine ⟨rfl, fun r hr => m.word_setStatus_of_ne _ hr, fun stored => absurd unstored (stored op dst src w), ?_⟩
    intro op' dst' src' w' h'
    cases unstored.operation.symm.trans h'.operation
    cases unstored.pair.symm.trans h'.pair
    exact ⟨rfl, rfl⟩

theorem execute_error_spares_accumulator : ∃ m',
    execute ⟨.arith .add, [.signed 0, .register (.whole .ax)]⟩ .zero =
      .error (.invalidOperand (.arith .add) (.signed 0)) m' ∧
    m'.memory = Machine.zero.memory ∧ m'.registers.word .ax = Machine.zero.registers.word .ax := by
  refine ⟨_, rfl, ?_⟩
  have hspares := execute_error_spares (i := ⟨.arith .add, [.signed 0, .register (.whole .ax)]⟩) (m := .zero) rfl
  exact ⟨hspares.1, hspares.2.1 .ax (by decide)⟩

/-- The sum is not stored and yet shows in the flags. -/
theorem flags_of_sum_without_place : ∃ m',
    execute ⟨.arith .add, [.signed 0, .register (.whole .ax)]⟩ .zero =
      .error (.invalidOperand (.arith .add) (.signed 0)) m' ∧
    m'.flags = 0x44 ∧ Machine.zero.flags = 0 :=
  ⟨_, rfl, by decide, by decide⟩

end Instruction

end I8086
