import Mathlib.Data.BitVec
import I8086.Proofs.Machine.WellFormed
import I8086.Proofs.Register

/-!
# Operands as bytes

The bytes of the machine are the halves of its registers and the bytes of its memory. Which of them an operand stands
for and which number they make is said here without loading it. Loading gives that number, and storing leaves it there
and no other byte changed (`toNat_value`, `stored_put`, `agreeOutside_put`).
-/

namespace I8086

inductive Cell
  | half (r : Register) (h : Register.Half)
  | byte (p : Fin Memory.size)
  deriving DecidableEq

def Cell.ofRegister (r : Register) : List Cell := [.half r .low, .half r .high]

namespace Width

theorem toNat_toInt_emod (w : Width) (x : Word) : (x.toInt % 2 ^ w.bits).toNat = x.toNat % 2 ^ w.bits := by
  have hx := x.isLt
  rw [BitVec.toInt_eq_toNat_cond]
  cases w <;> simp only [bits] <;> split <;> omega

end Width

namespace Register.View

theorem number_lt (v : View) (bytes : Half → Byte) : v.number bytes < 2 ^ v.width.bits := by
  have hlow := (bytes .low).isLt
  have hhigh := (bytes .high).isLt
  obtain ⟨r, part⟩ := v
  cases part <;> simp only [number, width, Width.bits] <;> omega

theorem number_write (v : View) (f : File) (x : Word) :
    v.number ((f.write v x).byte v.register) = x.toNat % 2 ^ v.width.bits := by
  have hx := x.isLt
  obtain ⟨r, part⟩ := v
  cases part with
  | whole =>
    simp only [number, File.write, File.byte_set, if_true, Half.of]
    rw [← x.toNat_eq_low_add_high]
    exact (Nat.mod_eq_of_lt hx).symm
  | low => simp [number, File.write, File.byte_setLow, Word.low, width, Width.bits]
  | high => simp [number, File.write, File.byte_setHigh, Word.low, width, Width.bits]

end Register.View

namespace Machine

def byte (m : Machine) : Cell → Byte
  | .half r h => m.registers.byte r h
  | .byte p => m.memory.byteAt p

/-- The number in some cells, of which the first has its lowest byte. -/
def stored (m : Machine) : List Cell → Nat
  | [] => 0
  | c :: rest => (m.byte c).toNat + 256 * m.stored rest

def offset (m : Machine) (a : Address) : Word :=
  BitVec.ofNat 16 (a.displacement.toNat + (a.base.registers.map fun r => (m.registers.word r).toNat).sum)

/-- The cells of an operand. A word in memory goes on behind the last offset, and an immediate is in no cell. -/
def cells (m : Machine) (o : Operand) (w : Width) : List Cell :=
  match o.kind with
  | .register v => v.part.halves.map (.half v.register)
  | .signed _ | .unsigned _ => []
  | .memory a =>
    match w with
    | .byte => [.byte (physical (m.offset a))]
    | .word => [.byte (physical (m.offset a)), .byte (physicalNext (m.offset a))]

def number (m : Machine) (o : Operand) (w : Width) : Nat :=
  match o.kind with
  | .signed x => (x.toInt % 2 ^ w.bits).toNat
  | .unsigned x => x.toNat % 2 ^ w.bits
  | .register _ | .memory _ => m.stored (m.cells o w)

def AgreeOutside (cs : List Cell) (m m' : Machine) : Prop := ∀ c, c ∉ cs → m'.byte c = m.byte c

variable (m : Machine)

theorem offset_eq (a : Address) : m.effective a = m.offset a := by
  have hfoldl (x : Word) (rs : List Register) : rs.foldl (fun sum r => sum + m.registers.word r) x =
      x + BitVec.ofNat 16 (rs.map fun r => (m.registers.word r).toNat).sum := by
    induction rs generalizing x with
    | nil => simp
    | cons r rs ih => simp [ih, BitVec.ofNat_add, BitVec.add_assoc]
  rw [effective, hfoldl, offset, BitVec.ofNat_add, BitVec.ofNat_toNat, BitVec.setWidth_eq]

theorem AgreeOutside.trans {cs cs' : List Cell} {m m' m'' : Machine} (h : AgreeOutside cs m m')
    (h' : AgreeOutside cs' m' m'') : AgreeOutside (cs ++ cs') m m'' := by
  intro c hc
  obtain ⟨hcs, hcs'⟩ := not_or.mp (mt List.mem_append.mpr hc)
  exact (h' c hcs').trans (h c hcs)

variable {m} in
theorem stored_congr {m' : Machine} {cs : List Cell} (h : ∀ c ∈ cs, m'.byte c = m.byte c) : m'.stored cs = m.stored cs := by
  induction cs with
  | nil => rfl
  | cons c cs ih =>
    obtain ⟨hc, hcs⟩ := List.forall_mem_cons.mp h
    rw [stored, stored, hc, ih hcs]

theorem stored_view (v : Register.View) :
    m.stored (v.part.halves.map (.half v.register)) = v.number (m.registers.byte v.register) := by
  obtain ⟨r, part⟩ := v
  cases part <;> simp [stored, byte, Register.Part.halves, Register.View.number]

theorem toNat_value {o : Operand} {w : Width} (hw : ∀ v, o.width? = some v → v = w) :
    ((m.value o w).setWidth w.bits).toNat = m.number o w := by
  obtain ⟨size, kind⟩ := o
  rw [BitVec.toNat_setWidth]
  cases kind with
  | register v =>
    obtain rfl := hw _ rfl
    simp only [value, number, cells]
    rw [stored_view, Register.File.toNat_read, Nat.mod_eq_of_lt (v.number_lt _)]
  | signed x => exact (w.toNat_toInt_emod x).symm
  | unsigned x => rfl
  | memory a =>
    cases w with
    | byte =>
      simp only [value, number, cells, stored, byte, offset_eq, Byte.toNat_zeroExtend]
      exact Nat.mod_eq_of_lt (BitVec.isLt _)
    | word =>
      simp only [value, number, cells, stored, byte, offset_eq]
      refine (Nat.mod_eq_of_lt (BitVec.isLt _)).trans ?_
      rw [Word.toNat_eq_low_add_high, Word.low_ofBytes, Word.high_ofBytes]
      rfl

theorem half_mem_cells {v : Register.View} {r : Register} {h : Register.Half} :
    Cell.half r h ∈ v.part.halves.map (Cell.half v.register) ↔ v.Shows r h := by
  simp [Register.View.Shows, and_comm, eq_comm]

theorem agreeOutside_put (o : Operand) (w : Width) (x : Word) : AgreeOutside (m.cells o w) m (m.put o w x) := by
  obtain ⟨size, kind⟩ := o
  intro c hc
  cases kind with
  | register v =>
    cases c with
    | half r h =>
      have hshows : ¬v.Shows r h := fun hs => hc (half_mem_cells.mpr hs)
      exact (m.registers.byte_run (.write v x) r h).trans (if_neg hshows)
    | byte p => rfl
  | signed value | unsigned value => rfl
  | memory a =>
    cases c with
    | half r h => cases w <;> rfl
    | byte p =>
      cases w <;> simp only [put, cells, byte, offset_eq, List.mem_cons, not_or, Cell.byte.injEq] at hc ⊢
      · exact m.memory.byteAt_put_of_ne _ hc.1
      · rw [Memory.byteAt_put_of_ne _ _ hc.2.1, Memory.byteAt_put_of_ne _ _ hc.1]

theorem stored_put {o : Operand} {w : Width} (x : Word) (hplace : o.isPlace = true)
    (hw : ∀ v, o.width? = some v → v = w) : (m.put o w x).stored (m.cells o w) = x.toNat % 2 ^ w.bits := by
  obtain ⟨size, kind⟩ := o
  cases kind with
  | register v =>
    obtain rfl := hw _ rfl
    simp only [cells]
    rw [stored_view]
    exact v.number_write m.registers x
  | signed value | unsigned value => cases hplace
  | memory a =>
    have hne : physical (m.offset a) ≠ physicalNext (m.offset a) := Fin.ne_of_lt (Nat.lt_succ_self _)
    cases w with
    | byte => simp [put, cells, stored, byte, offset_eq, Memory.byteAt_put, Word.low, Width.bits]
    | word =>
      have hx := x.isLt
      simp only [put, cells, stored, byte, offset_eq]
      rw [Memory.byteAt_put_of_ne _ _ hne, Memory.byteAt_put, Memory.byteAt_put, if_pos rfl, if_pos rfl, Nat.mul_zero,
        Nat.add_zero, ← x.toNat_eq_low_add_high]
      exact (Nat.mod_eq_of_lt hx).symm

/-! ## IP and FLAGS -/

theorem agreeOutside_set (r : Register) (x : Word) :
    AgreeOutside (Cell.ofRegister r) m { m with registers := m.registers.set r x } := by
  intro c hc
  cases c with
  | byte p => rfl
  | half s h =>
    have hne : s ≠ r := by
      rintro rfl
      cases h <;> simp [Cell.ofRegister] at hc
    exact (m.registers.byte_set r s x h).trans (if_neg hne)

theorem not_mem_ofRegister {o : Operand} {w : Width} {r : Register} (h : o.isControl = false)
    (hr : r = .ip ∨ r = .flags) : ∀ c ∈ m.cells o w, c ∉ Cell.ofRegister r := by
  obtain ⟨size, kind⟩ := o
  intro c hc
  cases kind with
  | register v =>
    have hv := Operand.ne_of_not_control h
    obtain ⟨part, _, rfl⟩ := List.mem_map.mp hc
    rcases hr with rfl | rfl <;> simp [Cell.ofRegister, hv]
  | signed x | unsigned x => cases hc
  | memory a =>
    cases w <;> simp only [cells, List.mem_cons, List.not_mem_nil, or_false] at hc
    · subst hc
      simp [Cell.ofRegister]
    · rcases hc with rfl | rfl <;> simp [Cell.ofRegister]

theorem stored_withIp (m' : Machine) {o : Operand} {w : Width} (x : Word) (h : o.isControl = false) :
    (m'.withIp x).stored (m.cells o w) = m'.stored (m.cells o w) :=
  stored_congr fun c hc => m'.agreeOutside_set .ip x c (m.not_mem_ofRegister h (.inl rfl) c hc)

theorem cells_setStatus {n : Nat} (outcome : Outcome n) (o : Operand) (w : Width) :
    (m.setStatus outcome).cells o w = m.cells o w := by
  obtain ⟨size, kind⟩ := o
  cases kind with
  | memory a => simp only [cells, ← offset_eq, effective_setStatus]
  | _ => rfl

end Machine

end I8086
