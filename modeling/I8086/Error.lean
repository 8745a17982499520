import I8086.Instruction

/-!
# Errors

What can go wrong, how it is told, and how an action that can fail goes on.
-/

namespace I8086

/-! ## Errors: what can go wrong, and how it is told -/

inductive Error
  | unimplementedOpcode (first second : Byte) (offset : Nat)
  | noAdvance (offset : Nat)
  | illegalSegment (byte : Byte) (offset : Nat)
  /-- A field of the instruction at `offset` ends `needed` bytes after it, but only `available` are left there. -/
  | truncated (offset needed available : Nat)
  | memoryOutOfRange (address : Nat)
  | programTooLarge (size : Nat)
  | missingOperand (operation : Operation)
  | invalidOperand (operation : Operation) (operand : Operand)
  | outputFull
  deriving DecidableEq

namespace Error

def message : Error → String
  | unimplementedOpcode first second offset =>
    "unimplemented instruction at 0x" ++ Text.hex 4 offset ++ ": " ++
      Text.binary 8 first.toNat ++ " " ++ Text.binary 8 second.toNat
  | noAdvance offset => "instruction stream did not advance at 0x" ++ Text.hex 4 offset
  | illegalSegment byte offset =>
    "illegal segment register encoding at 0x" ++ Text.hex 4 offset ++ ": " ++ Text.binary 8 byte.toNat
  | truncated offset needed available =>
    "truncated instruction at 0x" ++ Text.hex 4 offset ++ ": needs " ++ needed.repr ++ " bytes, " ++
      available.repr ++ " left"
  | memoryOutOfRange address => "memory access out of range: 0x" ++ Text.hex 5 address
  | programTooLarge size => "program of " ++ size.repr ++ " bytes does not fit below the 64 KiB IP limit"
  | missingOperand operation => "`" ++ operation.mnemonic ++ "` is missing an operand"
  | invalidOperand operation operand => "`" ++ operation.mnemonic ++ "` cannot use operand `" ++ operand.text ++ "`"
  | outputFull => "output limit reached"

end Error

/-!
## Actions that can fail

How an action on a state goes on where its first part succeeds, where it fails, and what must have happened before.
-/

section
variable {ε σ α β : Type} {x : EStateM ε σ α} {f : α → EStateM ε σ β} {s t : σ}

theorem bind_of_ok {a : α} (h : x s = .ok a t) : (x >>= f) s = f a t := by
  change EStateM.bind x f s = _
  rw [EStateM.bind, h]

theorem bind_of_error {e : ε} (h : x s = .error e t) : (x >>= f) s = .error e t := by
  change EStateM.bind x f s = _
  rw [EStateM.bind, h]

theorem map_of_ok {a : α} (g : α → β) (h : x s = .ok a t) : (g <$> x) s = .ok (g a) t := by
  change EStateM.map g x s = _
  rw [EStateM.map, h]

theorem map_of_error {e : ε} (g : α → β) (h : x s = .error e t) : (g <$> x) s = .error e t := by
  change EStateM.map g x s = _
  rw [EStateM.map, h]

theorem ofExcept_of_ok {y : Except ε α} {a : α} (h : y = .ok a) : (ofExcept y : EStateM ε σ α) s = .ok a s := by
  rw [h]; rfl

theorem ofExcept_of_error {y : Except ε α} {e : ε} (h : y = .error e) : (ofExcept y : EStateM ε σ α) s = .error e s := by
  rw [h]; rfl

theorem get_bind {f : σ → EStateM ε σ β} : (get >>= f) s = f s s := rfl

theorem modify_bind {g : σ → σ} {f : PUnit → EStateM ε σ β} : (modify g >>= f) s = f ⟨⟩ (g s) := rfl

end

end I8086
