import Aegis.Ke.MemCall
import Aegis.Mm.Views

/-!
# Views of sections

A view is the VAD that `NtMapViewOfSection` has made; nothing else is kept of it, and
`NtUnmapViewOfSection` frees the VAD that starts at the address it is given, whatever has become of
it.
-/

namespace Aegis

variable {σ : Type} (m : Mmu σ)

/-- `NtUnmapViewOfSection` of `a`, by anyone and with any handle of the process `p`, succeeds,
unmaps the pages of `[a, b)`, and leaves all others as they are. -/
def MemSys.Unmaps (s : MemSys σ) (p a b : Nat) : Prop :=
  ∀ c proc s₁, s.processFor (some c) proc = .ok (.ok (some p), s₁) →
    ∃ s', s.ntUnmapViewOfSection m (some c) proc a = .ok (.success, s') ∧
      (∀ x, if a ≤ x ∧ x < b then
          (protOf (s.mem p).as.slots x).isSome ∧ protOf (s'.mem p).as.slots x = none
        else protOf (s'.mem p).as.slots x = protOf (s.mem p).as.slots x) ∧
      (s'.mem p).mmu = m.clearRange (s.mem p).mmu a ((b - a) / pageSize) ∧
      ∀ q, q ≠ p → s'.mem q = s.mem q

/-- Memory is asked for at the base of a page, and with a size that can be rounded up. -/
def MemOp.PageBased : MemOp → Prop
  | .newMem (.elfLoad ..) => False
  | .newMem (.allocate _ _ base size _) => base % pageSize = 0 ∧ size ≤ 2 ^ 64 - pageSize
  | .newMem (.mapView _ _ _ base _ _) => base % pageSize = 0
  | _ => True

/-- The call does not unmap or free memory, and leaves the VAD `[a, b)` of the process `p` as it
is. -/
def ViewOk (p a b : Nat) (s : MemSys σ) : MemOp → Prop
  | .newMem (.unmapView ..) => False
  | .newMem (.free ..) => False
  | .protect cur proc base size prot =>
    (s.world.processArg cur proc processVmOperation).2.1 = some p →
      Covered (s.mem p).as.slots base size →
      ViewKept (s.mem p).as.slots a b (pageAlignDown base)
        (pageAlignDown base + pageAlignUp size) prot
  | op => op.PageBased

end Aegis
