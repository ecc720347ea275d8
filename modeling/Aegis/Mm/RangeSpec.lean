import Aegis.Mm.VmmSpec

/-!
# What the calls on ranges are for

A caller of `vmm_protect_user` and `vmm_free_user` names bytes; the calls work on pages. These are the
properties that connect the two, over the VADs and over the user's map.
-/

namespace Aegis

section
variable {α : Type}

/-- A byte of `[lo, hi)` lies in no VAD. -/
def Hole (l : List (Slot α)) (lo hi : Nat) : Prop :=
  ∃ a, lo ≤ a ∧ a < hi ∧ ∀ v ∈ l, ¬ (v.start ≤ a ∧ a < v.stop)

/-- Every byte of `[lo, hi)` lies in a VAD with the protection. -/
def Protects (l : List (Slot α)) (lo hi : Nat) (prot : Prot) : Prop :=
  ∀ a, lo ≤ a → a < hi → ∃ v ∈ l, (v.start ≤ a ∧ a < v.stop) ∧ v.prot = prot

/-- The protection of a page, if a VAD has it. -/
def protAt (l : List (Slot α)) (q : Nat) : Option Prot :=
  (vadLookup l (q * pageSize)).map fun x => x.1.prot

end

/-- `[base, base + size)` is made of pages of the user half. -/
structure PageRange (base size : Nat) : Prop where
  aligned : base % pageSize = 0
  pages : size % pageSize = 0
  pos : 0 < size
  top : base + size ≤ userCanonicalTop + 1

/-- The pages that start in `[lo, hi)` are all there and have the protection now, with the contents
they had; the others are as they were. -/
def Retargets (M : UserMap) (lo hi : Nat) (prot : Prot) (M' : UserMap) : Prop :=
  ∀ q, if InRange lo hi q then ∃ x, M q = some x ∧ M' q = some (prot, x.2) else M' q = M q

/-- The page has a byte of `[base, base + size)`. -/
def Touched (base size q : Nat) : Prop :=
  q * pageSize < base + size ∧ base < (q + 1) * pageSize
  deriving Decidable

/-- The pages of a map that have a byte of `[base, base + size)` were all there and are gone, and
the others are as they were. -/
def Removes {β : Type} (M : Nat → Option β) (base size : Nat) (M' : Nat → Option β) : Prop :=
  ∀ q, if Touched base size q then (M q).isSome ∧ M' q = none else M' q = M q

/-- `kalloc` gives the arrays that `vmm_free_user` needs for what is left of `v`. -/
def Host.ArraysFit (oom : Nat → Bool) (s : Host) (v : Slot Shadow) (nLeft nRight : Nat) : Prop :=
  v.shadow.pages.isSome → (nLeft ≠ 0 → oom s.next = false) ∧
    (nRight ≠ 0 → oom (if nLeft ≠ 0 then s.next + 1 else s.next) = false)

/-- The rounded range ends behind the last byte of the range: the size is not so large that rounding
it up gives 0, and base and size, which are rounded each on its own, lose no page. -/
def Rounds (base size : Nat) : Prop := base + size ≤ pageAlignDown base + pageAlignUp size
  deriving Decidable

end Aegis
