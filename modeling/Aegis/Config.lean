import Aegis.Lib.Word

/-!
# Constants and status codes (`config.h`, `types.h`, `status.h`)

Words are naturals: `u64` and `u32` are the truncations of `Word.wrap`, and an operation of the
source that can wrap is written with one of them. Masks that are only tested bit by bit (access
rights, page protections) are `BitVec 32`.
-/

namespace Aegis

variable {n x : Nat}

/-! ## Words -/

/-- Truncation to a `u64`, a `u32` and a `u8`. -/
def u64 (n : Nat) : Nat := Word.wrap 64 n
def u32 (n : Nat) : Nat := Word.wrap 32 n
def u8 (n : Nat) : Nat := Word.wrap 8 n

/-- Subtraction of two `u64`. -/
def sub64 (a b : Nat) : Nat := Word.sub 64 a b

theorem u64_lt (n : Nat) : u64 n < 2 ^ 64 := Word.wrap_lt 64 n
theorem u32_lt (n : Nat) : u32 n < 2 ^ 32 := Word.wrap_lt 32 n
theorem u64_of_lt (h : n < 2 ^ 64) : u64 n = n := Word.wrap_of_lt h
theorem u32_of_lt (h : n < 2 ^ 32) : u32 n = n := Word.wrap_of_lt h
theorem u8_of_lt (h : n < 2 ^ 8) : u8 n = n := Word.wrap_of_lt h
theorem sub64_lt (a b : Nat) : sub64 a b < 2 ^ 64 := Word.sub_lt 64 a b
theorem sub64_of_le {a b : Nat} (h : b ≤ a) (ha : a < 2 ^ 64) : sub64 a b = a - b :=
  Word.sub_of_le h ha

/-! ## Pages -/

/-- `PAGE_SHIFT`, `PAGE_SIZE` and `PAGE_MASK`. -/
def pageShift : Nat := 12
def pageSize : Nat := 4096
def pageMask : Nat := 4095

/-- `PAGE_ALIGN_DOWN`: `x & ~(u64)PAGE_MASK`. -/
def pageAlignDown (x : Nat) : Nat := x &&& (2 ^ 64 - 4096)

/-- `PAGE_ALIGN_UP`: `(x + PAGE_MASK) & ~(u64)PAGE_MASK`; the sum wraps. -/
def pageAlignUp (x : Nat) : Nat := u64 (x + pageMask) &&& (2 ^ 64 - 4096)

theorem pageAlignDown_eq (x : Nat) : pageAlignDown x = x % 2 ^ 64 / 4096 * 4096 :=
  Word.and_high_mask x (k := 12) (w := 64) (by decide)

theorem pageAlignDown_of_lt (h : x < 2 ^ 64) : pageAlignDown x = x / 4096 * 4096 := by
  rw [pageAlignDown_eq, Nat.mod_eq_of_lt h]

theorem pageAlignDown_lt (x : Nat) : pageAlignDown x < 2 ^ 64 := by
  rw [pageAlignDown_eq]; omega

theorem pageAlignDown_mod (x : Nat) : pageAlignDown x % 4096 = 0 := by
  rw [pageAlignDown_eq]; omega

theorem pageAlignUp_eq (x : Nat) : pageAlignUp x = (x + 4095) % 2 ^ 64 / 4096 * 4096 := by
  show pageAlignDown (u64 (x + 4095)) = _
  rw [pageAlignDown_of_lt (u64_lt _)]
  rfl

theorem pageAlignUp_of_le (h : x ≤ 2 ^ 64 - 4096) : pageAlignUp x = (x + 4095) / 4096 * 4096 := by
  rw [pageAlignUp_eq, Nat.mod_eq_of_lt (by omega)]

theorem pageAlignUp_mod (x : Nat) : pageAlignUp x % 4096 = 0 := by
  rw [pageAlignUp_eq]; omega

theorem pageAlignUp_lt (x : Nat) : pageAlignUp x < 2 ^ 64 := by
  rw [pageAlignUp_eq]; omega

/-! ## Status codes -/

/-- `status_t`, the codes the modelled functions return. -/
inductive Status
  | success
  | accessViolation
  | invalidHandle
  | invalidParameter
  | endOfFile
  | noMemory
  | conflictingAddresses
  | accessDenied
  | objectTypeMismatch
  | objectNameInvalid
  | objectNameNotFound
  | objectNameCollision
  | objectPathNotFound
  | invalidPageProtection
  | insufficientResources
  | notSupported
  | invalidImageFormat
  | noToken
  | noSuchFile
  | fileIsADirectory
  | notADirectory
  | nameTooLong
  | cannotDelete
  deriving DecidableEq, Repr

/-- The values of `ntstatus.h`. -/
def Status.code : Status → Nat
  | .success => 0x00000000
  | .accessViolation => 0xC0000005
  | .invalidHandle => 0xC0000008
  | .invalidParameter => 0xC000000D
  | .endOfFile => 0xC0000011
  | .noMemory => 0xC0000017
  | .conflictingAddresses => 0xC0000018
  | .accessDenied => 0xC0000022
  | .objectTypeMismatch => 0xC0000024
  | .objectNameInvalid => 0xC0000033
  | .objectNameNotFound => 0xC0000034
  | .objectNameCollision => 0xC0000035
  | .objectPathNotFound => 0xC000003A
  | .invalidPageProtection => 0xC0000045
  | .insufficientResources => 0xC000009A
  | .notSupported => 0xC00000BB
  | .invalidImageFormat => 0xC000007B
  | .noToken => 0xC000007C
  | .noSuchFile => 0xC000000F
  | .fileIsADirectory => 0xC00000BA
  | .notADirectory => 0xC0000103
  | .nameTooLong => 0xC0000106
  | .cannotDelete => 0xC0000121

/-- `NT_SUCCESS(s)`: `(i32)s >= 0`. -/
def ntSuccess (s : Status) : Bool := s.code < 2 ^ 31

theorem ntSuccess_iff (s : Status) : ntSuccess s = true ↔ s = .success := by
  cases s <;> decide

theorem ntSuccess_eq_false (s : Status) : ntSuccess s = false ↔ s ≠ .success := by
  rw [← Bool.not_eq_true, ntSuccess_iff]

/-- How a call that may stop the machine ends. `fault`: the code follows a pointer to something
other than what it takes it for. -/
inductive Outcome (α : Type)
  | ok (a : α)
  | panic (msg : String)
  | diverge
  | fault
  deriving DecidableEq, Repr

namespace Outcome

variable {α β : Type}

protected def bind : Outcome α → (α → Outcome β) → Outcome β
  | .ok a, f => f a
  | .panic m, _ => .panic m
  | .diverge, _ => .diverge
  | .fault, _ => .fault

instance : Monad Outcome where
  pure := .ok
  bind := Outcome.bind

/-- The result of a call that returns. -/
def get? : Outcome α → Option α
  | .ok a => some a
  | _ => none

@[simp] theorem pure_eq (a : α) : (pure a : Outcome α) = .ok a := rfl
@[simp] theorem ok_bind (a : α) (f : α → Outcome β) : (Outcome.ok a >>= f) = f a := rfl
@[simp] theorem panic_bind (m : String) (f : α → Outcome β) :
    (Outcome.panic m >>= f) = .panic m := rfl
@[simp] theorem diverge_bind (f : α → Outcome β) : (Outcome.diverge >>= f) = .diverge := rfl
@[simp] theorem fault_bind (f : α → Outcome β) : (Outcome.fault >>= f) = .fault := rfl

/-- A sequence returns when both parts do. -/
theorem bind_eq_ok {x : Outcome α} {f : α → Outcome β} {b : β} :
    (x >>= f) = .ok b ↔ ∃ a, x = .ok a ∧ f a = .ok b := by
  cases x <;> simp

theorem get?_eq_some {x : Outcome α} {a : α} : x.get? = some a ↔ x = .ok a := by
  cases x <;> simp [get?]

instance : (x : Outcome α) → Decidable (x = .fault)
  | .fault => isTrue rfl
  | .ok _ | .panic _ | .diverge => isFalse (by simp)

instance (x : Outcome α) (P : α → Prop) [DecidablePred P] : Decidable (∃ a, x = .ok a ∧ P a) :=
  @decidable_of_iff _ (∃ a ∈ x.get?, P a) (by simp only [Option.mem_def, get?_eq_some])
    (Option.decidableExistsMem _)

end Outcome

end Aegis
