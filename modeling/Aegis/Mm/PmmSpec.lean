import Aegis.Mm.Proof.PmmList
import Aegis.Lib.Run
import Mathlib.Order.CompletePartialOrder

/-!
# What the buddy allocator is for

The callers of the allocator hold a set of live blocks, as the address and order they were handed
out with. A run is a list of allocations and of frees of live blocks (`pmmStep`, `PmmOk`).
`BuddyInv` is the representation invariant in terms of three families: the free blocks, the live
blocks and the reserved frames.
-/

namespace Aegis

open Chain Dyadic

/-- The calls of a run. -/
inductive PmmOp
  | alloc (order : Nat) (flags : BitVec 32)
  | free (pa order : Nat)
  deriving Repr

/-- The allocator and the blocks its callers hold. -/
structure PmmState where
  pmm : Pmm
  live : Finset (Nat × Nat)

/-- One call; none where the kernel stops. -/
def pmmStep (s : PmmState) : PmmOp → Option PmmState
  | .alloc order flags =>
    let r := s.pmm.pmmAlloc order flags
    some ⟨r.1, if r.2 = pmmInvalid then s.live else insert (r.2, order) s.live⟩
  | .free pa order =>
    match s.pmm.pmmFree pa order with
    | .ok pmm => some ⟨pmm, s.live.erase (pa, order)⟩
    | _ => none

/-- The callers free what they hold, with its own order. -/
def PmmOk (s : PmmState) : PmmOp → Prop
  | .alloc order _ => order ≤ pmmMaxOrder
  | .free pa order => (pa, order) ∈ s.live

/-- The states that `pmm_init` and a run of the callers lead to. -/
def PmmReach (s : PmmState) : Prop :=
  ∃ t map kphys ksize s₀ ops, Pmm.pmmInit t map kphys ksize = .ok s₀ ∧ s₀.nframes < 2 ^ 31 ∧
    Run.Legal pmmStep PmmOk ⟨s₀, ∅⟩ ops ∧ Run.run pmmStep ⟨s₀, ∅⟩ ops = some s

namespace Pmm

/-- The blocks on the free lists. -/
def freeBlocks (s : Pmm) : Set (Nat × Nat) :=
  {b | b.1 < s.nframes ∧ (s.frames b.1).state = .free ∧ (s.frames b.1).order = b.2}

/-- The blocks that are handed out. -/
def liveBlocks (s : Pmm) (live : Finset (Nat × Nat)) : Set (Nat × Nat) :=
  {b | ∃ x ∈ live, b = (s.pfnOf x.1, x.2)}

/-- The block is aligned and inside the array, and its frames but the first are `TAIL`. -/
structure Whole (s : Pmm) (o p : Nat) : Prop where
  order : o ≤ pmmMaxOrder
  aligned : 2 ^ o ∣ p
  inside : p + 2 ^ o ≤ s.nframes
  tails : ∀ q, p < q → q < p + 2 ^ o → (s.frames q).state = .tail

end Pmm

/-- The representation invariant of the allocator. -/
structure BuddyInv (s : PmmState) : Prop where
  /-- Every list ends in `NIL`, repeats no frame and holds exactly the free blocks of its order. -/
  lists : ∀ o ≤ pmmMaxOrder, ∃ l, Linked pfnNil s.pmm.next (s.pmm.freeHead o) l ∧ l.Nodup ∧
    ∀ p, p ∈ l ↔ (p, o) ∈ s.pmm.freeBlocks
  free : ∀ b ∈ s.pmm.freeBlocks, s.pmm.Whole b.2 b.1
  live : ∀ b ∈ s.pmm.liveBlocks s.live, s.pmm.Whole b.2 b.1 ∧
    ((s.pmm.frames b.1).state = .kernel ∨ (s.pmm.frames b.1).state = .user)
  /-- Every frame is reserved, in a free block or in a live one. -/
  cover : ∀ f < s.pmm.nframes, (s.pmm.frames f).state = .reserved ∨
    f ∈ Dyadic.cover s.pmm.freeBlocks ∨ f ∈ Dyadic.cover (s.pmm.liveBlocks s.live)
  /-- No frame is in two of these. -/
  disjoint : ∀ b ∈ s.pmm.freeBlocks ∪ s.pmm.liveBlocks s.live,
    ∀ c ∈ s.pmm.freeBlocks ∪ s.pmm.liveBlocks s.live, ∀ f, Mem f b.1 b.2 → Mem f c.1 c.2 → b = c
  free_live : Disjoint s.pmm.freeBlocks (s.pmm.liveBlocks s.live)
  reserved : ∀ b ∈ s.pmm.freeBlocks ∪ s.pmm.liveBlocks s.live, ∀ f, Mem f b.1 b.2 →
    (s.pmm.frames f).state ≠ .reserved
  /-- `g_free_pages` counts the frames of the free blocks. -/
  pages : s.pmm.freePages = (Dyadic.cover s.pmm.freeBlocks).ncard

end Aegis
