import I8086.Proofs.Machine.Frame
import I8086.Proofs.Machine.Status
import I8086.Proofs.Memory

/-!
# What an instruction can change

An instruction changes IP, the register or the bytes of memory that are its destination, CX if it is a loop, and FLAGS if
it is an arithmetic operation, and nothing else (`Instruction.Effect.confined`).
-/

namespace I8086

namespace Operation

def isArith : Operation → Bool
  | arith _ => true
  | _ => false

def isLoop : Operation → Bool
  | loop _ => true
  | _ => false

end Operation

def Instruction.Stores (i : Instruction) (a : Address) (w : Width) : Prop :=
  i.operation ∈ [.mov, .arith .add, .arith .sub] ∧ ∃ dst src, i.pair = .ok (dst, src, w) ∧ dst.kind = .memory a

/-- The byte at the sixteen bits of the effective address, and for a word the byte behind it. -/
def Machine.Covers (m : Machine) (a : Address) (w : Width) (p : Fin Memory.size) : Prop :=
  p.val = (m.effective a).toNat ∨ w = .word ∧ p.val = (m.effective a).toNat + 1

def Instruction.Implicit (i : Instruction) (r : Register) : Prop :=
  r = .ip ∨ r = .cx ∧ i.operation.isLoop = true ∨ r = .flags ∧ i.operation.isArith = true

/-- From `m` to `m'` only that has changed which executing `i` from `m` can change. -/
structure Instruction.Confined (i : Instruction) (m m' : Machine) : Prop where
  word : ∀ r, m'.registers.word r ≠ m.registers.word r → i.Assigns r ∨ i.Implicit r
  high : ∀ o r, i.destination? = some o → o.kind = .register ⟨r, .low⟩ → m'.registers.high r = m.registers.high r
  low : ∀ o r, i.destination? = some o → o.kind = .register ⟨r, .high⟩ → m'.registers.low r = m.registers.low r
  byte : ∀ p, m'.memory.byteAt p ≠ m.memory.byteAt p → ∃ a w, i.Stores a w ∧ m.Covers a w p

/-! ## Stores -/

namespace Machine

variable (m : Machine) {o : Operand} {w : Width} {x : Word}

theorem exists_register_of_word_put_ne {r : Register} (h : (m.put o w x).registers.word r ≠ m.registers.word r) :
    ∃ view, o.kind = .register view ∧ view.register = r := by
  by_cases hview : ∃ view, o.kind = .register view ∧ view.register = r
  · exact hview
  · refine absurd (m.word_put_of_ne w x ?_) h
    rintro view hkind rfl
    exact hview ⟨view, hkind, rfl⟩

theorem high_put {r : Register} (h : o.kind = .register ⟨r, .low⟩) :
    (m.put o w x).registers.high r = m.registers.high r := by
  simp [put, h, Register.File.write]

theorem low_put {r : Register} (h : o.kind = .register ⟨r, .high⟩) : (m.put o w x).registers.low r = m.registers.low r := by
  simp [put, h, Register.File.write]

theorem exists_memory_of_byteAt_put_ne {p : Fin Memory.size} (h : (m.put o w x).memory.byteAt p ≠ m.memory.byteAt p) :
    ∃ a, o.kind = .memory a ∧ m.Covers a w p := by
  cases hkind : o.kind with
  | register view | signed value | unsigned value =>
    simp only [put, hkind] at h
    exact absurd rfl h
  | memory a =>
    refine ⟨a, rfl, ?_⟩
    by_cases hlow : p = physical (m.effective a)
    · exact .inl (congrArg Fin.val hlow)
    · cases w with
      | byte =>
        simp only [put, hkind, Memory.byteAt_put_of_ne _ _ hlow] at h
        exact absurd rfl h
      | word =>
        by_cases hhigh : p = physicalNext (m.effective a)
        · exact .inr ⟨rfl, congrArg Fin.val hhigh⟩
        · simp only [put, hkind, Memory.byteAt_put_of_ne _ _ hhigh, Memory.byteAt_put_of_ne _ _ hlow] at h
          exact absurd rfl h

end Machine

namespace Instruction

variable {i : Instruction} {m m' : Machine} {dst src : Operand} {w : Width}

theorem destination?_of_pair (h : i.pair = .ok (dst, src, w)) : i.destination? = some dst := by
  obtain ⟨rest, hoperands⟩ := operands_of_pair h
  rw [destination?, hoperands, List.getElem?_cons_zero]

theorem confined_put (m : Machine) (x : Word) (hop : i.operation ∈ [.mov, .arith .add, .arith .sub])
    (pair : i.pair = .ok (dst, src, w)) : i.Confined m (m.put dst w x) := by
  have hdst := destination?_of_pair pair
  refine ⟨?_, ?_, ?_, ?_⟩
  · intro r hr
    obtain ⟨view, hview, rfl⟩ := m.exists_register_of_word_put_ne hr
    exact .inl ⟨hop, dst, view, hdst, hview, rfl⟩
  · intro o r ho hkind
    cases hdst.symm.trans ho
    exact m.high_put hkind
  · intro o r ho hkind
    cases hdst.symm.trans ho
    exact m.low_put hkind
  · intro p hp
    obtain ⟨a, ha, hcovers⟩ := m.exists_memory_of_byteAt_put_ne hp
    exact ⟨a, w, ⟨hop, dst, src, pair, ha⟩, hcovers⟩

/-! ## Registers besides the destination -/

def Separate (i : Instruction) : Prop :=
  ∀ o view, i.destination? = some o → o.kind = .register view → ¬i.Implicit view.register

theorem not_implicit_cx (h : i.operation.isJump = false) : ¬i.Implicit .cx := by
  rintro (hip | ⟨_, hloop⟩ | ⟨hflags, _⟩)
  · cases hip
  · cases hop : i.operation <;> rw [hop] at h hloop <;> cases h <;> cases hloop
  · cases hflags

theorem Fit.separate (hfit : i.Fit) (hcontrol : ∀ o ∈ i.operands, o.isControl = false) : i.Separate := by
  rintro o view ho hkind (hip | ⟨_, hloop⟩ | ⟨hflags, _⟩)
  · have := hcontrol o (List.mem_of_getElem? ho)
    simp [Operand.isControl, hkind, hip] at this
  · cases hfit with
    | pair notJump => exact not_implicit_cx notJump (.inr (.inl ⟨rfl, hloop⟩))
    | jump _ displacement =>
      rw [Instruction.displacement, ho] at displacement
      simp [hkind] at displacement
  · have := hcontrol o (List.mem_of_getElem? ho)
    simp [Operand.isControl, hkind, hflags] at this

theorem confined_of_implicit (hi : i.Separate) (hmemory : m'.memory = m.memory)
    (hword : ∀ r, ¬i.Implicit r → m'.registers.word r = m.registers.word r) : i.Confined m m' := by
  refine ⟨?_, ?_, ?_, ?_⟩
  · intro r hr
    exact .inr (Classical.not_not.mp fun himplicit => hr (hword r himplicit))
  · intro o r ho hkind
    rw [Register.File.high, hword r (hi o _ ho hkind), Register.File.high]
  · intro o r ho hkind
    rw [Register.File.low, hword r (hi o _ ho hkind), Register.File.low]
  · intro p hp
    exact absurd (congrArg (Memory.byteAt · p) hmemory) hp

theorem Confined.trans {m₁ : Machine} (h : i.Confined m m₁) (h' : i.Confined m₁ m')
    (heffective : ∀ a, m₁.effective a = m.effective a) : i.Confined m m' := by
  refine ⟨?_, ?_, ?_, ?_⟩
  · intro r hr
    by_cases hr' : m'.registers.word r = m₁.registers.word r
    · exact h.word r (hr' ▸ hr)
    · exact h'.word r hr'
  · intro o r ho hkind
    exact (h'.high o r ho hkind).trans (h.high o r ho hkind)
  · intro o r ho hkind
    exact (h'.low o r ho hkind).trans (h.low o r ho hkind)
  · intro p hp
    by_cases hp' : m'.memory.byteAt p = m₁.memory.byteAt p
    · exact h.byte p (hp' ▸ hp)
    · obtain ⟨a, w, hstores, hcovers⟩ := h'.byte p hp'
      refine ⟨a, w, hstores, ?_⟩
      rw [Machine.Covers, ← heffective]
      exact hcovers

theorem confined_withIp (hi : i.Separate) (m : Machine) (x : Word) : i.Confined m (m.withIp x) := by
  refine confined_of_implicit hi rfl ?_
  intro r hr
  rw [Machine.word_withIp, if_neg fun h => hr (.inl h)]

theorem confined_setStatus (hi : i.Separate) (harith : i.operation.isArith = true) {n : Nat} (m : Machine)
    (o : Outcome n) : i.Confined m (m.setStatus o) := by
  refine confined_of_implicit hi rfl ?_
  intro r hr
  exact m.word_setStatus_of_ne o fun h => hr (.inr (.inr ⟨h, harith⟩))

theorem Effect.confined (h : i.Effect m m') (hi : i.Separate) : i.Confined m m' := by
  cases h with
  | move operation pair => exact confined_put m _ (by simp [operation]) pair
  | compare operation => exact confined_setStatus hi (by rw [operation]; rfl) m _
  | @compute op _ _ _ operation keeps pair =>
    have hop : i.operation ∈ [.mov, .arith .add, .arith .sub] := by
      cases op <;> simp_all
    exact (confined_setStatus hi (by rw [operation]; rfl) m _).trans (confined_put _ _ hop pair) (m.effective_setStatus _)
  | @jump x isJump =>
    refine confined_of_implicit hi ?_ ?_
    · rw [Machine.memory_jumpIf, Machine.memory_counted]
    · intro r hr
      rw [Machine.word_jumpIf_of_ne _ _ _ fun h => hr (.inl h)]
      cases ho : i.operation with
      | loop t => exact m.word_counted_of_ne _ fun h => hr (.inr (.inl ⟨h, by rw [ho]; rfl⟩))
      | _ => rfl

theorem Confined.word_eq (h : i.Confined m m') {r : Register} (hassigns : ¬i.Assigns r) (himplicit : ¬i.Implicit r) :
    m'.registers.word r = m.registers.word r := by
  by_cases hr : m'.registers.word r = m.registers.word r
  · exact hr
  · exact absurd (h.word r hr) (not_or.mpr ⟨hassigns, himplicit⟩)

end Instruction

theorem confined_of_decode {program : Array Byte} {offset : Nat} {d : Decoded} {m m' : Machine}
    (h : decode program offset = .ok d) (hm : Machine.execute d.instruction m = .ok () m') :
    d.instruction.Confined m m' :=
  ((fit_of_decode h).effect hm).confined ((fit_of_decode h).separate (not_control_of_decode h))

/-! ## Reserved bits of FLAGS -/

theorem Instruction.Effect.getLsbD_flags {i : Instruction} {m m' : Machine} (h : i.Effect m m') {k : Nat}
    (hk : Flag.Reserved k) : m'.flags.getLsbD k = m.flags.getLsbD k := by
  cases h with
  | move operation pair notControl =>
    rw [Machine.flags, m.word_put_of_not_control _ _ notControl (.inr rfl), Machine.flags]
  | compare => rw [Machine.flags_setStatus, Outcome.getLsbD_flags _ _ hk]
  | compute operation keeps pair notControl =>
    rw [Machine.flags, Machine.word_put_of_not_control _ _ _ notControl (.inr rfl), ← Machine.flags,
      Machine.flags_setStatus, Outcome.getLsbD_flags _ _ hk]
  | jump =>
    rw [Machine.flags, Machine.word_jumpIf_of_ne _ _ _ (by decide), m.word_counted_of_ne _ (by decide), Machine.flags]

/-! ## Segment registers -/

def Instruction.Moves (i : Instruction) (r : Register) : Prop :=
  i.operation = .mov ∧ ∃ o, i.destination? = some o ∧ o.kind = .register (.whole r)

theorem Code.moves_of_assigns {c : Code} {r : Register} (hr : r ∈ [.es, .cs, .ss, .ds])
    (h : c.instruction.Assigns r) : c.instruction.Moves r := by
  obtain ⟨_, o, view, ho, hview, rfl⟩ := h
  rcases c.common_or_segment o (List.mem_of_getElem? ho) with hcommon | ⟨hmov, k, rfl⟩
  · cases hcommon with
    | register size w k =>
      cases hview
      exact absurd hr (w.not_segment_registers k)
    | _ => cases hview
  · cases hview
    exact ⟨hmov, _, ho, rfl⟩

theorem Instruction.not_implicit_of_segment {r : Register} (hr : r ∈ [.es, .cs, .ss, .ds]) (i : Instruction) :
    ¬i.Implicit r := by
  rintro (rfl | ⟨rfl, _⟩ | ⟨rfl, _⟩) <;> revert hr <;> decide

end I8086
