import I8086.Proofs.Machine.Frame

/-!
# Well-formed instructions

Operands can be put together in more ways than decoding does: a half of SI, an immediate destination, two widths that
clash. Decoding makes well-formed instructions only (`Code.wellFormed`). Of these every register has a name to print,
and execution comes to no operation that it has no answer for (`decode_wellFormed`).
-/

namespace I8086

namespace Register.View

def Named (v : View) : Prop := v.part = .whole ∨ v.register ∈ [.ax, .bx, .cx, .dx]

def name? : View → Option String
  | ⟨r, .whole⟩ => some r.name
  | ⟨.ax, .low⟩ => some "al" | ⟨.bx, .low⟩ => some "bl" | ⟨.cx, .low⟩ => some "cl" | ⟨.dx, .low⟩ => some "dl"
  | ⟨.ax, .high⟩ => some "ah" | ⟨.bx, .high⟩ => some "bh" | ⟨.cx, .high⟩ => some "ch" | ⟨.dx, .high⟩ => some "dh"
  | ⟨_, .low⟩ | ⟨_, .high⟩ => none

theorem name?_of_named {v : View} (h : v.Named) : v.name? = some v.name := by
  obtain ⟨r, part⟩ := v
  cases part with
  | whole => rfl
  | low | high =>
    rcases h with h | h
    · cases h
    · simp only [List.mem_cons, List.not_mem_nil, or_false] at h
      rcases h with rfl | rfl | rfl | rfl <;> rfl

end Register.View

namespace Operand

def isMemory (o : Operand) : Bool :=
  match o.kind with
  | .memory _ => true
  | _ => false

def isSegment (o : Operand) : Bool :=
  match o.kind with
  | .register v => v.register ∈ [.es, .cs, .ss, .ds]
  | _ => false

/-- What an operand is by itself: no register that only execution changes, no half without a name, and no number that is
too large for a byte it is marked to be. -/
structure WellFormed (o : Operand) : Prop where
  notControl : o.isControl = false
  named : ∀ v, o.kind = .register v → v.Named
  unsigned : ∀ x, o = ⟨some .byte, .unsigned x⟩ → x.toNat ≤ 255
  signed : ∀ x, o = ⟨some .byte, .signed x⟩ → -128 ≤ x.toInt ∧ x.toInt ≤ 127

/-- What an operand is beside its partner: a segment register only in a move of a word, and of the partner's width if
both have one. Without a width it is an immediate beside a register, or a direct address beside AL or AX. -/
structure Beside (operation : Operation) (o partner : Operand) : Prop where
  segment : o.isSegment = true → operation = .mov ∧ partner.isSegment = false ∧ partner.width? = some .word
  width : ∀ w w', o.width? = some w → partner.width? = some w' → w = w'
  unsized : o.width? = none →
    (∃ x view, o = .signed x ∧ partner = .register view) ∨
      ∃ address, o = .memory none .direct address ∧ partner ∈ [.register ⟨.ax, .low⟩, .register ⟨.ax, .whole⟩]

end Operand

namespace Instruction

inductive WellFormed (i : Instruction) : Prop
  | jump {x : Word} (isJump : i.operation.isJump = true) (operands : i.operands = [.signed x])
    (range : -128 ≤ x.toInt ∧ x.toInt ≤ 127)
  | pair {dst src : Operand} (notJump : i.operation.isJump = false) (operands : i.operands = [dst, src])
    (place : dst.isPlace = true) (oneMemory : dst.isMemory = false ∨ src.isMemory = false)
    (known : dst.width? ≠ none ∨ src.width? ≠ none) (each : ∀ o ∈ [dst, src], o.WellFormed)
    (destination : dst.Beside i.operation src) (source : src.Beside i.operation dst)

end Instruction

/-! ## Operands of codes -/

theorem Width.named_of_mem : ∀ {w : Width} {v : Register.View}, v ∈ w.registers → v.Named := by
  intro w; cases w <;> simp [registers, Register.View.Named]

namespace Operand

theorem WellFormed.register {v : Register.View} (hv : v.Named) (h : (Operand.register v).isControl = false) :
    (Operand.register v).WellFormed := by
  refine ⟨h, ?_, nofun, nofun⟩
  rintro _ ⟨⟩
  exact hv

theorem wellFormed_of_mem {w : Width} {v : Register.View} (h : v ∈ w.registers) : (Operand.register v).WellFormed := by
  have hv := Width.named_of_mem h
  obtain ⟨k, hk, rfl⟩ := Vector.getElem_of_mem h
  exact .register hv (isControl_registers w ⟨k, hk⟩ none)

theorem wellFormed_memory (size : Option Width) (a : Address) : (⟨size, .memory a⟩ : Operand).WellFormed :=
  ⟨rfl, nofun, nofun, nofun⟩

theorem wellFormed_signed (x : Word) : (Operand.signed x).WellFormed := ⟨rfl, nofun, nofun, nofun⟩

theorem wellFormed_unsigned (w : Width) (data : BitVec w.bits) :
    (⟨w, .unsigned (data.setWidth 16)⟩ : Operand).WellFormed := by
  refine ⟨rfl, nofun, ?_, nofun⟩
  intro x hx
  cases w with
  | byte =>
    cases hx
    have hdata : data.toNat < 256 := data.isLt
    rw [BitVec.toNat_setWidth]
    omega
  | word => cases hx

theorem wellFormed_extended (w : Width) (data : Byte) :
    (⟨w, .signed (BitVec.signExtend 16 data)⟩ : Operand).WellFormed := by
  refine ⟨rfl, nofun, nofun, ?_⟩
  rintro x ⟨⟩
  exact Byte.toInt_signExtend_bounds data

theorem forall_mem_pair {P : Operand → Prop} {a b : Operand} (ha : P a) (hb : P b) : ∀ o ∈ [a, b], P o :=
  List.forall_mem_cons.mpr ⟨ha, List.forall_mem_cons.mpr ⟨hb, nofun⟩⟩

theorem isSegment_of_mem {w : Width} {v : Register.View} (h : v ∈ w.registers) :
    (Operand.register v).isSegment = false := by
  obtain ⟨k, hk, rfl⟩ := Vector.getElem_of_mem h
  exact decide_eq_false (w.not_segment_registers ⟨k, hk⟩)

theorem width?_of_mem {w : Width} {v : Register.View} (h : v ∈ w.registers) : (Operand.register v).width? = some w := by
  obtain ⟨k, hk, rfl⟩ := Vector.getElem_of_mem h
  exact congrArg some (w.width_registers ⟨k, hk⟩)

theorem Beside.of_width {operation : Operation} {o partner : Operand} {w : Width} (h : o.width? = some w)
    (h' : partner.width? = some w)
    (hsegment : o.isSegment = true → operation = .mov ∧ partner.isSegment = false ∧ w = .word) :
    o.Beside operation partner := by
  refine ⟨?_, ?_, ?_⟩
  · intro ho
    obtain ⟨hmov, hpartner, rfl⟩ := hsegment ho
    exact ⟨hmov, hpartner, h'⟩
  · intro v v' hv hv'
    cases h.symm.trans hv
    cases h'.symm.trans hv'
    rfl
  · intro hnone
    cases h.symm.trans hnone

theorem Beside.of_register {operation : Operation} {v : Register.View} {partner : Operand}
    (h : (Operand.register v).isSegment = false) (h' : partner.width? = none) :
    (Operand.register v).Beside operation partner := by
  refine ⟨?_, ?_, nofun⟩
  · intro hv
    exact absurd (h.symm.trans hv) Bool.false_ne_true
  · intro _ _ _ hw
    cases h'.symm.trans hw

theorem signed_beside (operation : Operation) (x : Word) (v : Register.View) :
    (Operand.signed x).Beside operation (.register v) :=
  ⟨nofun, nofun, fun _ => .inl ⟨x, v, rfl, rfl⟩⟩

theorem direct_beside (operation : Operation) (address : Word) {partner : Operand}
    (h : partner ∈ [.register ⟨.ax, .low⟩, .register ⟨.ax, .whole⟩]) :
    (Operand.memory none .direct address).Beside operation partner :=
  ⟨nofun, nofun, fun _ => .inr ⟨address, rfl, h⟩⟩

end Operand

namespace Place

variable (p : Place) (w : Width)

theorem wellFormed_operand : (p.operand w).WellFormed := by
  cases p with
  | register rm => exact Operand.wellFormed_of_mem (w := w) (Vector.getElem_mem _)
  | _ => exact Operand.wellFormed_memory _ _

theorem isSegment_operand : (p.operand w).isSegment = false := by
  cases p with
  | register rm => exact Operand.isSegment_of_mem (w := w) (Vector.getElem_mem _)
  | _ => rfl

end Place

/-! ## Codes -/

namespace Instruction

variable {i : Instruction} {dst src : Operand} {w : Width}

theorem WellFormed.of_width (notJump : i.operation.isJump = false) (operands : i.operands = [dst, src])
    (place : dst.isPlace = true) (oneMemory : dst.isMemory = false ∨ src.isMemory = false)
    (hdst : dst.WellFormed ∧ dst.width? = some w ∧ dst.isSegment = false)
    (hsrc : src.WellFormed ∧ src.width? = some w ∧ src.isSegment = false) : i.WellFormed := by
  obtain ⟨hd, hdw, hds⟩ := hdst
  obtain ⟨hs, hsw, hss⟩ := hsrc
  refine .pair notJump operands place oneMemory (.inl ?_) (Operand.forall_mem_pair hd hs) (.of_width hdw hsw ?_)
    (.of_width hsw hdw ?_)
  · simp [hdw]
  · simp [hds]
  · simp [hss]

end Instruction

theorem Instruction.WellFormed.of_signed {i : Instruction} {w : Width} {v : Register.View} {x : Word}
    (hv : v ∈ w.registers) (notJump : i.operation.isJump = false) (operands : i.operands = [.register v, .signed x]) :
    i.WellFormed :=
  .pair notJump operands rfl (.inl rfl) (.inl (Option.some_ne_none _))
    (Operand.forall_mem_pair (Operand.wellFormed_of_mem hv) (Operand.wellFormed_signed x))
    (.of_register (Operand.isSegment_of_mem hv) rfl) (Operand.signed_beside _ x v)

namespace Code

open Operand in
theorem wellFormed (c : Code) : c.instruction.WellFormed := by
  have hplace (p : Place) (w : Width) : (p.operand w).WellFormed ∧ (p.operand w).width? = some w ∧
      (p.operand w).isSegment = false := ⟨p.wellFormed_operand w, p.width?_operand w, p.isSegment_operand w⟩
  have hregister {w : Width} {v : Register.View} (h : v ∈ w.registers) : (register v).WellFormed ∧
      (register v).width? = some w ∧ (register v).isSegment = false :=
    ⟨wellFormed_of_mem h, width?_of_mem h, isSegment_of_mem h⟩
  cases c with
  | movRm d w reg rm | arithRm op d w reg rm =>
    cases d
    · exact .of_width rfl rfl (rm.isPlace_operand w) (.inr rfl) (hplace rm w) (hregister (Vector.getElem_mem _))
    · exact .of_width rfl rfl rfl (.inl rfl) (hregister (Vector.getElem_mem _)) (hplace rm w)
  | movImm x w reg rm data | arithImm op w rm data =>
    exact .of_width rfl rfl (rm.isPlace_operand w) (.inr rfl) (hplace rm w) ⟨wellFormed_unsigned w data, rfl, rfl⟩
  | arithExtended op w rm data =>
    exact .of_width rfl rfl (rm.isPlace_operand w) (.inr rfl) (hplace rm w) ⟨wellFormed_extended w data, rfl, rfl⟩
  | movAcc d w address =>
    have hmem : w.registers[0] ∈ w.registers := Vector.getElem_mem _
    have haccumulator : register w.registers[0] ∈ [register ⟨.ax, .low⟩, register ⟨.ax, .whole⟩] := by
      cases w
      · exact .head _
      · exact .tail _ (.head _)
    have hmemory := wellFormed_memory none ⟨.direct, address⟩
    have hregister := wellFormed_of_mem hmem
    have hdirect := direct_beside .mov address haccumulator
    have hbeside : (register w.registers[0]).Beside .mov (memory none .direct address) :=
      .of_register (isSegment_of_mem hmem) rfl
    have hknown : (register w.registers[0]).width? ≠ none := Option.some_ne_none _
    cases d
    · exact .pair rfl rfl rfl (.inl rfl) (.inl hknown) (forall_mem_pair hregister hmemory) hbeside hdirect
    · exact .pair rfl rfl rfl (.inr rfl) (.inr hknown) (forall_mem_pair hmemory hregister) hdirect hbeside
  | movReg w reg data => exact .of_signed (w := w) (Vector.getElem_mem _) rfl rfl
  | arithAcc op x w data => exact .of_signed (w := w) (Vector.getElem_mem _) rfl rfl
  | movSegment d segment rm =>
    obtain ⟨hrm, hwidth, hsegment⟩ := hplace rm .word
    have hs : (register (.whole Register.segments[segment.toFin])).WellFormed :=
      .register (.inl rfl) (isControl_segments segment.toFin none)
    have hbeside : (register (.whole Register.segments[segment.toFin])).Beside .mov (rm.operand .word) :=
      .of_width rfl hwidth fun _ => ⟨rfl, hsegment, rfl⟩
    have hbeside' : (rm.operand .word).Beside .mov (register (.whole Register.segments[segment.toFin])) :=
      .of_width hwidth rfl fun h => absurd (hsegment.symm.trans h) Bool.false_ne_true
    have hknown : (register (.whole Register.segments[segment.toFin])).width? ≠ none := Option.some_ne_none _
    cases d
    · exact .pair rfl rfl (rm.isPlace_operand .word) (.inr rfl) (.inr hknown) (forall_mem_pair hrm hs) hbeside' hbeside
    · exact .pair rfl rfl rfl (.inl rfl) (.inl hknown) (forall_mem_pair hs hrm) hbeside hbeside'
  | jump c x | loop t x | jcxz x => exact .jump rfl rfl (Byte.toInt_signExtend_bounds x)

end Code

/-! ## Printing and execution that have no answer to what is not foreseen -/

namespace Instruction

def operandText? (operation : Operation) (o : Operand) : Option String :=
  match o.kind with
  | .register v => v.name?.map fun name =>
    match o.size with
    | none => name
    | some w => w.name ++ " " ++ name
  | _ => some (operandText operation o)

def text? (i : Instruction) : Option String :=
  (i.operands.mapM (operandText? i.operation)).map fun
    | [] => i.operation.mnemonic
    | operands => i.operation.mnemonic ++ " " ++ String.intercalate ", " operands

theorem operandText?_of_wellFormed (operation : Operation) {o : Operand} (h : o.WellFormed) :
    operandText? operation o = some (operandText operation o) := by
  obtain ⟨size, kind⟩ := o
  cases kind with
  | register v =>
    change v.name?.map _ = _
    rw [Register.View.name?_of_named (h.named v rfl)]
    cases size <;> rfl
  | signed x | unsigned x | memory a => rfl

theorem mapM_operandText? (operation : Operation) {operands : List Operand} (h : ∀ o ∈ operands, o.WellFormed) :
    operands.mapM (operandText? operation) = some (operands.map (operandText operation)) := by
  induction operands with
  | nil => rfl
  | cons o operands ih =>
    obtain ⟨ho, h⟩ := List.forall_mem_cons.mp h
    rw [List.mapM_cons, operandText?_of_wellFormed operation ho, ih h]
    rfl

theorem WellFormed.each {i : Instruction} (h : i.WellFormed) : ∀ o ∈ i.operands, o.WellFormed := by
  cases h with
  | jump isJump operands =>
    rw [operands]
    exact List.forall_mem_cons.mpr ⟨Operand.wellFormed_signed _, nofun⟩
  | pair _ operands _ _ _ each =>
    rw [operands]
    exact each

theorem WellFormed.text?_eq {i : Instruction} (h : i.WellFormed) : i.text? = some i.text := by
  rw [text?, mapM_operandText? i.operation h.each]
  rfl

end Instruction

namespace Machine

def taken? (m : Machine) : Operation → Option Bool
  | .jump c => some (c.holds m.flags)
  | .jcxz => some (m.registers.word .cx == 0)
  | .mov | .arith _ | .loop _ => none

def goesOn? (m : Machine) : Operation → Option Bool
  | .loop t => some (t.holds m.flags)
  | .mov | .arith _ | .jump _ | .jcxz => none

def jump? (i : Instruction) (m : Machine) : Option (EStateM.Result Error Machine Unit) :=
  match i.displacement with
  | .error e => some (.error e m)
  | .ok x => (m.taken? i.operation).map fun taken => branch taken x m

def loop? (i : Instruction) (m : Machine) : Option (EStateM.Result Error Machine Unit) :=
  match i.displacement with
  | .error e => some (.error e m)
  | .ok x =>
    if m.countDown.registers.word .cx = 0 then some (.ok () m.countDown)
    else (m.countDown.goesOn? i.operation).map fun taken => branch taken x m.countDown

/-- Execution by kinds of operation, each of which asks what only some operations have an answer to. -/
def execute? (i : Instruction) (m : Machine) : Option (EStateM.Result Error Machine Unit) :=
  match i.operation with
  | .mov | .arith _ => some (execute i m)
  | .loop _ => loop? i m
  | .jump _ | .jcxz => jump? i m

variable {i : Instruction} {m : Machine}

theorem loop?_eq {t : LoopTest} (ho : i.operation = .loop t) : loop? i m = some (execute i m) := by
  unfold loop?
  cases displacement : i.displacement with
  | error e => rw [execute_of_displacement_error (by rw [ho]; rfl) displacement]
  | ok x =>
    simp only [execute_loop ho displacement, ho, goesOn?, Option.map_some, branch_eq]
    split
    · next hcx => rw [hcx]; rfl
    · next hcx => rw [bne_iff_ne.mpr hcx, Bool.true_and]

theorem execute?_eq (i : Instruction) (m : Machine) : execute? i m = some (execute i m) := by
  unfold execute?
  cases ho : i.operation with
  | mov | arith op => rfl
  | loop t => exact loop?_eq ho
  | jump c =>
    unfold jump?
    cases displacement : i.displacement with
    | error e => rw [execute_of_displacement_error (by rw [ho]; rfl) displacement]
    | ok x => simp only [execute_jump ho displacement, ho, taken?, Option.map_some, branch_eq]
  | jcxz =>
    unfold jump?
    cases displacement : i.displacement with
    | error e => rw [execute_of_displacement_error (by rw [ho]; rfl) displacement]
    | ok x => simp only [execute_jcxz ho displacement, ho, taken?, Option.map_some, branch_eq]

end Machine

/-- What was decoded is well formed, so its text is made of names that there are, and executing it asks of its operation
only what it has an answer to. -/
theorem decode_wellFormed {program : Array Byte} {offset : Nat} {d : Decoded} (h : decode program offset = .ok d) :
    d.instruction.WellFormed ∧ d.instruction.text? = some d.instruction.text ∧
      ∀ m, Machine.execute? d.instruction m = some (Machine.execute d.instruction m) := by
  obtain ⟨c, _, rfl⟩ := Code.exists_of_decode h
  exact ⟨c.wellFormed, c.wellFormed.text?_eq, Machine.execute?_eq c.instruction⟩

theorem decode_wellFormed_of_segment : ∃ d, decode #[0x8C, 0x5E, 0x02] 0 = .ok d ∧
    d.instruction = ⟨.mov, [.memory (some .word) .bp 2, .register (.whole .ds)]⟩ ∧ d.instruction.WellFormed ∧
    d.instruction.text? = some "mov word [bp+2], ds" := by
  have hd : decode #[0x8C, 0x5E, 0x02] 0 =
      .ok ⟨⟨.mov, [.memory (some .word) .bp 2, .register (.whole .ds)]⟩, 3, by decide⟩ := rfl
  obtain ⟨hwellFormed, htext, _⟩ := decode_wellFormed hd
  exact ⟨_, hd, rfl, hwellFormed, htext.trans (congrArg some (by decide))⟩

end I8086
