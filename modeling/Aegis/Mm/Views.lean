import Aegis.Mm.RangeSpec

/-!
# VADs that stay as they are

`vmm_protect_user` splits the VADs at the ends of its range, and then joins all neighbours that have
the same protection, wherever they are. `ViewKept` says of one VAD that neither happens to it.
-/

namespace Aegis

/-- The protection of a byte, if a VAD has it. -/
def protOf (l : List (Slot Unit)) (a : Nat) : Option Prot := (vadLookup l a).map fun x => x.1.prot

/-- The protections once `[lo, hi)` has `prot`. -/
def newProt (l : List (Slot Unit)) (lo hi : Nat) (prot : Prot) (a : Nat) : Option Prot :=
  if lo ≤ a ∧ a < hi then some prot else protOf l a

/-- The range that `vmm_protect_user` works on has a page, and a VAD for every byte. -/
def Covered (l : List (Slot Unit)) (base size : Nat) : Prop :=
  pageAlignUp size ≠ 0 ∧ ¬ Hole l (pageAlignDown base) (pageAlignDown base + pageAlignUp size)

/-- Once `[lo, hi)` has `prot`, the VAD `[a, b)` has one protection, and what touches it another. -/
def ViewKept (l : List (Slot Unit)) (a b lo hi : Nat) (prot : Prot) : Prop :=
  (lo ≤ a ∧ b ≤ hi ∨ b ≤ lo ∨ hi ≤ a ∨ protOf l a = some prot) ∧
    (a = 0 ∨ newProt l lo hi prot (a - 1) ≠ newProt l lo hi prot a) ∧
    newProt l lo hi prot b ≠ newProt l lo hi prot a
  deriving Decidable

end Aegis
