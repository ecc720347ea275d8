import Aegis.Config
import Aegis.Lib.Dyadic

/-!
# The buddy allocator (`mm/pmm.c`)

The globals of `pmm.c` are the fields of `Pmm`. The frame array is a function of the page-frame
number, and so are the list heads; its entries at `nframes` and above are `FRAME_RESERVED`. (Only
the list build of an array within `2 ^ 18` frames of the end of the 32-bit numbers reads one.) The
frame array is a store of its own: the page contents that `PMM_ZERO` clears are not part of the
model.

A loop over an intrusive list runs on fuel and ends in `Outcome.diverge` when the fuel does; the
counting loops recurse on their number of rounds.
-/

namespace Aegis

/-- `state` of a `frame_t`. -/
inductive FrameState
  | free
  | tail
  | kernel
  | user
  | reserved
  deriving DecidableEq, Repr

def FrameState.code : FrameState → Nat
  | .free => 0
  | .tail => 1
  | .kernel => 2
  | .user => 3
  | .reserved => 4

/-- `frame_t`. -/
structure Frame where
  order : Nat
  state : FrameState
  nextPfn : Nat
  deriving Repr

/-- The variables of `pmm.c`. -/
structure Pmm where
  frames : Nat → Frame
  nframes : Nat
  physBase : Nat
  freeHead : Nat → Nat
  freePages : Nat
  totalAvail : Nat

def pmmMaxOrder : Nat := 18
def pmmInvalid : Nat := 2 ^ 64 - 1
def pmmUser : BitVec 32 := 0x8#32
def pfnNil : Nat := 0xFFFFFFFF

namespace Pmm

variable (s : Pmm)

/-- `pfn_of`. -/
def pfnOf (p : Nat) : Nat := u32 (sub64 p s.physBase >>> pageShift)

/-- `phys_of`. -/
def physOf (pfn : Nat) : Nat := u64 (s.physBase + pfn <<< pageShift)

/-- `pfn_ok`. -/
def pfnOk (pfn : Nat) : Bool := pfn < s.nframes

/-! ## Free lists -/

def setNext (pfn v : Nat) : Pmm :=
  { s with frames := Function.update s.frames pfn { s.frames pfn with nextPfn := v } }

def setHead (order pfn : Nat) : Pmm :=
  { s with freeHead := Function.update s.freeHead order pfn }

/-- `list_push`. -/
def listPush (order pfn : Nat) : Pmm :=
  (s.setNext pfn (s.freeHead order)).setHead order pfn

/-- `list_pop`. -/
def listPop (order : Nat) : Pmm × Nat :=
  let pfn := s.freeHead order
  if pfn = pfnNil then (s, pfnNil)
  else ((s.setHead order (s.frames pfn).nextPfn).setNext pfn pfnNil, pfn)

/-- `*w`: `none` is `&g_free_head[order]`, `some q` is `&g_frames[q].next_pfn`. -/
def linkGet (order : Nat) : Option Nat → Nat
  | none => s.freeHead order
  | some q => (s.frames q).nextPfn

def linkSet (order : Nat) (w : Option Nat) (v : Nat) : Pmm :=
  match w with
  | none => s.setHead order v
  | some q => s.setNext q v

/-- The loop of `pmm_list_remove` from the link `w`. -/
def listRemoveFrom (order pfn : Nat) : Nat → Pmm → Option Nat → Outcome Pmm
  | 0, _, _ => .diverge
  | k + 1, s, w =>
    let cur := s.linkGet order w
    if cur = pfnNil then .ok s
    else if cur = pfn then .ok ((s.linkSet order w (s.frames pfn).nextPfn).setNext pfn pfnNil)
    else listRemoveFrom order pfn k s (some cur)

/-- `pmm_list_remove`. A list of the allocator has at most `nframes` nodes. -/
def listRemove (order pfn : Nat) : Outcome Pmm :=
  listRemoveFrom order pfn (s.nframes + 1) s none

/-! ## Blocks -/

def setFrame (pfn order : Nat) (st : FrameState) : Pmm :=
  let fr : Frame := { s.frames pfn with order := u8 order, state := st }
  { s with frames := Function.update s.frames pfn fr }

/-- The tail loop of `mark_block`: `k` more rounds from `i`. -/
def markTails (pfn order : Nat) : Nat → Nat → Pmm → Pmm
  | 0, _, s => s
  | k + 1, i, s =>
    if u32 (pfn + i) < s.nframes then
      markTails pfn order k (i + 1) (s.setFrame (u32 (pfn + i)) order .tail)
    else s

/-- `mark_block`. -/
def markBlock (pfn order : Nat) (st : FrameState) : Pmm :=
  markTails pfn order (2 ^ order - 1) 1 (s.setFrame pfn order st)

/-! ## Allocation -/

/-- `while (o <= PMM_MAX_ORDER && g_free_head[o] == NIL) o++`, at most `k` rounds. -/
def findOrder (s : Pmm) : Nat → Nat → Nat
  | 0, o => o
  | k + 1, o => if o ≤ pmmMaxOrder ∧ s.freeHead o = pfnNil then findOrder s k (o + 1) else o

/-- The split loop of `pmm_alloc`, entered with `o = order + k`. -/
def splitLoop (pfn order : Nat) : Nat → Pmm → Pmm
  | 0, s => s
  | k + 1, s =>
    let o := order + k
    let buddy := u32 (pfn + 2 ^ o)
    splitLoop pfn order k
      ((((s.markBlock buddy o .free).listPush o buddy).markBlock pfn o .free))

/-- `pmm_alloc`. -/
def pmmAlloc (order : Nat) (flags : BitVec 32) : Pmm × Nat :=
  if order > pmmMaxOrder then (s, pmmInvalid)
  else
    let o := s.findOrder (pmmMaxOrder + 1 - order) order
    if o > pmmMaxOrder then (s, pmmInvalid)
    else
      let (s, pfn) := s.listPop o
      let s := splitLoop pfn order (o - order) s
      let st := if flags &&& pmmUser ≠ 0 then FrameState.user else .kernel
      let s := s.markBlock pfn order st
      let s := { s with freePages := sub64 s.freePages (2 ^ order) }
      (s, s.physOf pfn)

/-! ## Freeing -/

/-- The coalescing loop of `pmm_free`, at most `k` rounds: the state, the block and its order. -/
def mergeLoop : Nat → Pmm → Nat → Nat → Outcome (Pmm × Nat × Nat)
  | 0, s, pfn, order => .ok (s, pfn, order)
  | k + 1, s, pfn, order =>
    let buddy := pfn ^^^ 2 ^ order
    if ¬ s.pfnOk buddy then .ok (s, pfn, order)
    else if (s.frames buddy).state ≠ .free ∨ (s.frames buddy).order ≠ order then
      .ok (s, pfn, order)
    else do
      let s ← s.listRemove order buddy
      let pfn := if buddy < pfn then buddy else pfn
      mergeLoop k (s.markBlock pfn (order + 1) .free) pfn (order + 1)

/-- `pmm_free`. -/
def pmmFree (p order : Nat) : Outcome Pmm :=
  if p = pmmInvalid ∨ order > pmmMaxOrder then .panic "pmm: bad free"
  else
    let pfn := s.pfnOf p
    let st := (s.frames pfn).state
    if ¬ s.pfnOk pfn ∨ st = .free ∨ st = .tail ∨ st = .reserved then
      let n := st.code
      .panic s!"pmm: free of non-head pfn {pfn} state {n}"
    else
      let s := s.markBlock pfn order .free
      let s := { s with freePages := u64 (s.freePages + 2 ^ order) }
      do
        let (s, pfn, order) ← mergeLoop (pmmMaxOrder - order) s pfn order
        return s.listPush order pfn

/-! ## Initialisation -/

end Pmm

/-- An entry of the memory map. -/
structure MmapEntry where
  base : Nat
  length : Nat
  type : Nat
  deriving Repr

/-- The two builds of `pmm_init`; the host one runs on the block `calloc` returned. -/
inductive Target
  | host (hostRam : Nat)
  | hardware
  deriving Repr

namespace Pmm

/-- The first loop of `pmm_init`: the extent `(min, max)` of the available entries. -/
def scanMap (map : List MmapEntry) : Nat × Nat :=
  map.foldl (fun (mn, mx) e =>
    if e.type ≠ 1 then (mn, mx)
    else
      let fin := u64 (e.base + e.length)
      (if e.base < mn then e.base else mn, if fin > mx then fin else mx)) (2 ^ 64 - 1, 0)

/-- The address `pmm_init` steals the metadata from, 0 when no region fits. -/
def stealMeta (map : List MmapEntry) (size : Nat) : Nat :=
  match map with
  | [] => 0
  | e :: map =>
    if e.type ≠ 1 then stealMeta map size
    else
      let b := pageAlignUp e.base
      let b := if b < 0x100000 then 0x100000 else b
      if u64 (b + size) ≤ u64 (e.base + e.length) then b else stealMeta map size

/-- `for (p = lo; p < hi; p++) g_frames[p].state = st`. -/
def fillState (s : Pmm) (lo hi : Nat) (st : FrameState) : Pmm :=
  { s with frames := fun p => if lo ≤ p ∧ p < hi then { s.frames p with state := st }
      else s.frames p }

/-- The frames of one available entry. -/
def addRegion (s : Pmm) (e : MmapEntry) : Pmm :=
  if e.type ≠ 1 then s
  else
    let b := pageAlignUp e.base
    let fin := pageAlignDown (u64 (e.base + e.length))
    let b := if b < 0x100000 then 0x100000 else b
    if fin ≤ b then s
    else
      let pf := s.pfnOf b
      let pe := s.pfnOf fin
      if pf ≥ s.nframes then s
      else s.fillState pf (if pe > s.nframes then s.nframes else pe) .free

/-- `for (p = lo; p < hi && pfn_ok(p); p++) g_frames[p].state = FRAME_RESERVED`. -/
def reserve (s : Pmm) (lo hi : Nat) : Pmm := s.fillState lo (min hi s.nframes) .reserved

/-- The order of the block `pmm_init` builds at `p`, at most `k` doublings. -/
def growOrder (s : Pmm) (p : Nat) : Nat → Nat → Nat
  | 0, order => order
  | k + 1, order =>
    let n := 2 ^ (order + 1)
    if p % n ≠ 0 then order
    else if u32 (p + n) > s.nframes then order
    else if (List.range n).all fun j => (s.frames (u32 (p + j))).state == .free then
      growOrder s p k (order + 1)
    else order

/-- "Build buddy lists from free runs, largest order first", from `p`. -/
def buildLists : Nat → Pmm → Nat → Outcome Pmm
  | 0, _, _ => .diverge
  | k + 1, s, p =>
    if p < s.nframes then
      if (s.frames p).state ≠ .free then buildLists k s (u32 (p + 1))
      else
        let order := s.growOrder p pmmMaxOrder 0
        let s := (s.markBlock p order .free).listPush order p
        let s := { s with
          freePages := u64 (s.freePages + 2 ^ order)
          totalAvail := u64 (s.totalAvail + 2 ^ order) }
        buildLists k s (u32 (p + 2 ^ order))
    else .ok s

/-- `pmm_init` up to the list build: the frame states of the map. -/
def initFrames (t : Target) (map : List MmapEntry) (kphys ksize : Nat) : Outcome Pmm :=
  let (mn, mx) := scanMap map
  if mn = 2 ^ 64 - 1 ∨ mx ≤ mn then .panic "pmm: no available ram"
  else
    let mn := pageAlignDown mn
    let mx := pageAlignDown mx
    let nframes := sub64 mx mn >>> pageShift
    if nframes < 4096 then .panic "pmm: ram"
    else
      let size := pageAlignUp (u64 (nframes * 8))
      let blank (base : Nat) : Pmm :=
        { frames := fun _ => ⟨0, .reserved, pfnNil⟩, nframes, physBase := base,
          freeHead := fun _ => pfnNil, freePages := 0, totalAvail := 0 }
      match t with
      | .host ram =>
        if ram = 0 then .panic "pmm: host calloc"
        else .ok ((blank (pageAlignUp (u64 (ram + size)))).fillState 0 nframes .free)
      | .hardware =>
        let metaPhys := stealMeta map size
        if metaPhys = 0 then .panic "pmm: no room for metadata"
        else
          let s := map.foldl addRegion (blank mn)
          let kpe := s.pfnOf (pageAlignUp (u64 (kphys + ksize)))
          let s := s.reserve (s.pfnOf (pageAlignDown kphys))
            (if kpe > s.nframes then s.nframes else kpe)
          let mpf := s.pfnOf metaPhys
          .ok (s.reserve mpf (u32 (mpf + u32 (size >>> pageShift))))

/-- `pmm_init`. -/
def pmmInit (t : Target) (map : List MmapEntry) (kphys ksize : Nat) : Outcome Pmm := do
  let s ← initFrames t map kphys ksize
  buildLists (s.nframes + 1) s 0

end Pmm

end Aegis
