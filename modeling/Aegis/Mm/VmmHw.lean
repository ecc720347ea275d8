import Aegis.Mm.Vad

/-!
# User memory, hardware build (`mm/vmm.c` without `JASOS_HOST`)

The VADs of an address space, over page tables that are a parameter (`Mmu σ`): they decide which
steps run out of memory, and nothing else about them is read here.
-/

namespace Aegis

/-- The bits of a leaf that depend on the protection: `PTE_W` and `PTE_NX`. -/
structure LeafFlags where
  write : Bool
  noExecute : Bool
  deriving DecidableEq, Repr

/-- `pte_flags_from_prot`, which also sets `PTE_P` and `PTE_U`. -/
def pteFlagsFromProt (prot : Prot) : LeafFlags where
  write := prot &&& (pageReadWrite ||| pageExecuteReadWrite) ≠ 0
  noExecute := prot &&& (pageExecute ||| pageExecuteRead ||| pageExecuteReadWrite) = 0

/-- The page tables, the frame allocator and the kernel heap, as `vmm.c` uses them. -/
structure Mmu (σ : Type) where
  /-- `vmm_ensure_leaf`. -/
  ensureLeaf : σ → Nat → Status × σ
  /-- The walk to the leaf that marks it `PTE_SW_COMMIT`; `false` if there is no leaf. -/
  commitLeaf : σ → Nat → Bool × σ
  /-- Collecting, clearing and freeing the frames of a range. -/
  clearRange : σ → Nat → Nat → σ
  /-- `apply_prot_range`. -/
  applyProt : σ → Nat → Nat → Prot → σ
  /-- `vmm_write_aspace` of `n` bytes, over the VADs. -/
  write : σ → List (Slot Unit) → Nat → Nat → Status × σ

/-- An address space of the kernel. -/
structure HwState (σ : Type) where
  as : Aspace Unit
  mmu : σ

/-- The round of `vad_coalesce`, as long as there is a pair to join; every round removes a VAD, so
the number of VADs bounds the rounds. -/
def hwCoalesce : Nat → List (Slot Unit) → List (Slot Unit)
  | 0, l => l
  | k + 1, l =>
    match mergePair l with
    | none => l
    | some ((v, i), (u, j)) => hwCoalesce k (joinVads l v i u.stop j)

section
variable {σ : Type} (m : Mmu σ)

/-- The loop of `vmm_alloc_user` that creates the leaves of `k` pages from `page`. -/
def commitLoop : Nat → Nat → σ → Bool × σ
  | 0, _, d => (true, d)
  | k + 1, page, d =>
    let (st, d) := m.ensureLeaf d page
    if ntSuccess st = false then (false, d)
    else
      let (found, d) := m.commitLeaf d page
      if found then commitLoop k (page + pageSize) d else (false, d)

namespace HwState

/-- `vmm_free_user`. -/
def vmmFreeUser (s : HwState σ) (base size : Nat) : Status × HwState σ :=
  let base := pageAlignDown base
  match freePlan s.as base (freeSize size) with
  | .error st => (st, s)
  | .ok ⟨v, i, stop, nLeft, nMid, nRight⟩ =>
    (.success,
      { as := { s.as with
          slots := carve s.as.slots i v base stop nLeft nRight () ()
          committedPages := uncommit s.as.committedPages nMid }
        mmu := m.clearRange s.mmu base nMid })

/-- The status, the address `*base` after the call, and the state. -/
def vmmAllocUser (s : HwState σ) (base size : Nat) (prot : Prot) (type : Nat) :
    Status × Nat × HwState σ :=
  match allocPlan s.as base size with
  | .error st => (st, base, s)
  | .ok va =>
    let size := pageAlignUp size
    let as := s.as.addVad base va size prot type ()
    let (done, d) := commitLoop m (size / pageSize) va s.mmu
    if done then (.success, va, ⟨as, d⟩)
    else (.noMemory, base, (vmmFreeUser m ⟨as, d⟩ va size).2)

/-- The contained path of `vmm_protect_user`. -/
def protectContained (s : HwState σ) (i : Nat) (v : Slot Unit) (base size stop : Nat)
    (prot : Prot) : Status × Option Prot × HwState σ :=
  let nLeft := pagesBetween v.start base
  let nRight := pagesBetween stop v.stop
  let extra := (if nLeft ≠ 0 then 1 else 0) + (if nRight ≠ 0 then 1 else 0)
  if s.as.slots.length + extra > maxVads then (.insufficientResources, none, s)
  else
    let l := if extra = 0 then s.as.slots.set i { v with prot }
      else protectSplit s.as.slots i v base stop prot nLeft nRight () () ()
    (.success, some v.prot,
      { as := { s.as with slots := hwCoalesce l.length l }
        mmu := m.applyProt s.mmu base size prot })

/-- `vmm_protect_user`, at most `k` calls deep. -/
def protectAt (prot : Prot) :
    Nat → HwState σ → Nat → Nat → Outcome (Status × Option Prot × HwState σ) :=
  protectRange (fun s => s.as.slots)
    (fun s i v base size stop => .ok (protectContained m s i v base size stop prot)) prot

/-- `vmm_protect_user`. -/
def vmmProtectUser (s : HwState σ) (base size : Nat) (prot : Prot) :
    Outcome (Status × Option Prot × HwState σ) := protectAt m prot 2 s base size

end HwState

end

end Aegis
