import Aegis.Config
import Aegis.Lib.SwapList

/-!
# Virtual address descriptors (`mm.h`, the first part of `mm/vmm.c`)

`Aspace α` is an `aspace_t`: its `vads[0 .. vad_count)` as a list, each entry with what the build
keeps for it beside the VAD (`α`: the host build's shadow pages, nothing in the hardware build).
The functions here are those that both builds share, and the steps of `vmm_free_user` and
`vmm_protect_user` on the VAD array.

Both are sequential: nothing runs where the source drops the lock to allocate, and the checks that
it repeats after taking the lock again are not.
-/

namespace Aegis

open SwapList

/-! ## Constants -/

def userCanonicalTop : Nat := 0x7FFFFFFFFFFF
def userHeapBase : Nat := 0x1000000
def maxVads : Nat := 64
def userCommitMax : Nat := 32 * 1024 * 1024

theorem userCanonicalTop_eq : userCanonicalTop = 2 ^ 47 - 1 := by decide

/-- A page protection: a set of `PAGE_…` bits. -/
abbrev Prot := BitVec 32

def pageNoAccess : Prot := 0x01#32
def pageReadOnly : Prot := 0x02#32
def pageReadWrite : Prot := 0x04#32
def pageExecute : Prot := 0x10#32
def pageExecuteRead : Prot := 0x20#32
def pageExecuteReadWrite : Prot := 0x40#32

def memCommit : Nat := 0x1000

/-! ## The VAD array -/

/-- `vad_t`. -/
structure Vad where
  start : Nat
  /-- `end`, which is past the last byte. -/
  stop : Nat
  prot : Prot
  type : Nat
  committed : Nat
  deriving DecidableEq, Repr

/-- A VAD, and what a build keeps with it. -/
structure Slot (α : Type) extends Vad where
  shadow : α

/-- `aspace_t`. -/
structure Aspace (α : Type) where
  slots : List (Slot α)
  committedPages : Nat
  brk : Nat

def Aspace.init (α : Type) : Aspace α := ⟨[], 0, userHeapBase⟩

section
variable {α : Type}

/-- `vad_lookup`. -/
def vadLookup (l : List (Slot α)) (page : Nat) : Option (Slot α × Nat) :=
  findAt (fun v => v.start ≤ page ∧ page < v.stop) l

/-- `vad_contains_range`. -/
def vadContainsRange (l : List (Slot α)) (base stop : Nat) : Option (Slot α × Nat) :=
  if stop ≤ base then none else findAt (fun v => v.start ≤ base ∧ stop ≤ v.stop) l

/-- The loop of `vad_run_covers` from `cur`, after `n` VADs. The code gives up past `MAX_VADS`
rounds, so the bound on the rounds is never what ends it. -/
def runLoop (l : List (Slot α)) (stop : Nat) : Nat → Nat → Nat → Option Nat
  | 0, _, _ => none
  | k + 1, cur, n =>
    if cur < stop then
      match vadLookup l cur with
      | none => none
      | some (v, _) =>
        if v.stop ≤ cur then none
        else if n + 1 > maxVads then none
        else runLoop l stop k v.stop (n + 1)
    else some n

/-- The VAD of the first page, and how many VADs the hole-free run has. -/
def vadRunCovers (l : List (Slot α)) (base stop : Nat) : Option (Slot α × Nat) :=
  if stop ≤ base then none
  else
    match vadLookup l (pageAlignDown base) with
    | none => none
    | some (v, _) => (runLoop l stop (maxVads + 2) base 0).map fun n => (v, n)

/-- The clips of a mixed run, or the status of the failure; at most `k` of them. -/
def clipLoop (l : List (Slot α)) (stop : Nat) : Nat → Nat → Except Status (List (Nat × Nat))
  | 0, cur => if cur < stop then .error .insufficientResources else .ok []
  | k + 1, cur =>
    if cur < stop then
      match vadLookup l cur with
      | none => .error .conflictingAddresses
      | some (v, _) =>
        let hi := if v.stop > stop then stop else v.stop
        if hi ≤ cur then .error .conflictingAddresses
        else (clipLoop l stop k hi).map fun clips => (cur, hi) :: clips
    else .ok []

/-- Pages between two addresses, as the code counts them. -/
def pagesBetween (a b : Nat) : Nat := u32 (sub64 b a / pageSize)

/-- The two VADs that one round of `vad_coalesce` joins: the first entry that another one follows,
and the first one that does. -/
def mergePair (l : List (Slot α)) : Option ((Slot α × Nat) × (Slot α × Nat)) :=
  l.zipIdx.findSome? fun x =>
    (l.zipIdx.find? fun y => x.2 ≠ y.2 ∧ x.1.stop = y.1.start ∧ x.1.prot = y.1.prot ∧
      x.1.type = y.1.type ∧ x.1.committed = y.1.committed).map fun y => (x, y)

/-- `vads[keep].end = vads[eat].end; vad_remove_at(eat)`. -/
def joinVads (l : List (Slot α)) (keep : Slot α) (i : Nat) (stop : Nat) (j : Nat) :
    List (Slot α) :=
  swapRemove (l.set i { keep with stop }) j

/-- What `vmm_free_user` leaves of the VAD `v` at index `i` without `[base, stop)`, with the
shadows of the rests. -/
def carve (l : List (Slot α)) (i : Nat) (v : Slot α) (base stop nLeft nRight : Nat)
    (left right : α) : List (Slot α) :=
  if nLeft ≠ 0 ∧ nRight ≠ 0 then
    l.set i { v with stop := base, shadow := left } ++
      [{ v with start := stop, shadow := right }]
  else if nLeft ≠ 0 then l.set i { v with stop := base, shadow := left }
  else if nRight ≠ 0 then l.set i { v with start := stop, shadow := right }
  else swapRemove l i

/-- What `vmm_protect_user` makes of the VAD `v` at index `i`: `[base, stop)` in its place, and the
rests at the end. -/
def protectSplit (l : List (Slot α)) (i : Nat) (v : Slot α) (base stop : Nat) (prot : Prot)
    (nLeft nRight : Nat) (left mid right : α) : List (Slot α) :=
  let l := l.set i { v with start := base, stop, prot, shadow := mid }
  let l := if nLeft ≠ 0 then l ++ [{ v with stop := base, shadow := left }] else l
  if nRight ≠ 0 then l ++ [{ v with start := stop, shadow := right }] else l

/-- `base > USER_CANONICAL_TOP || base + size < base || (size && base + size - 1 >
USER_CANONICAL_TOP)`, on `u64`. -/
def outsideUser (base size : Nat) : Bool :=
  userCanonicalTop < base ∨ u64 (base + size) < base ∨
    (size ≠ 0 ∧ userCanonicalTop < sub64 (u64 (base + size)) 1)

/-- `va < end && va + size > start` for one of the VADs. -/
def overlapsAny (l : List (Slot α)) (va size : Nat) : Bool :=
  l.any fun v => va < v.stop ∧ v.start < u64 (va + size)

/-- `prot_legal`. -/
def protLegal (prot : Prot) : Bool :=
  if prot &&& pageExecuteReadWrite ≠ 0 then false
  else if prot &&& pageNoAccess ≠ 0 then true
  else prot &&& (pageReadOnly ||| pageReadWrite ||| pageExecute ||| pageExecuteRead) ≠ 0

/-- The VAD that `vmm_free_user` works on and the end of the range: without a size it is the whole
VAD that starts at `base`. -/
def freeTarget (l : List (Slot α)) (base size : Nat) : Except Status (Slot α × Nat × Nat) :=
  if size = 0 then
    match findAt (fun v => v.start = base) l with
    | none => .error .invalidParameter
    | some (v, i) => .ok (v, i, v.stop)
  else
    match vadContainsRange l base (u64 (base + size)) with
    | none => .error .conflictingAddresses
    | some (v, i) => .ok (v, i, u64 (base + size))

/-- The checks of `vmm_alloc_user`, with the size rounded up: the address of the new VAD. -/
def allocTarget (as : Aspace α) (base size : Nat) : Except Status Nat :=
  let va := if base = 0 then as.brk else base
  if outsideUser va size then .error .conflictingAddresses
  else if as.slots.length ≥ maxVads then .error .insufficientResources
  else if as.committedPages + size / pageSize > userCommitMax / pageSize then
    .error .insufficientResources
  else if overlapsAny as.slots va size then .error .conflictingAddresses
  else .ok va

/-- The new VAD of `vmm_alloc_user`. -/
def Aspace.addVad (as : Aspace α) (base va size : Nat) (prot : Prot) (type : Nat) (shadow : α) :
    Aspace α :=
  { slots := as.slots ++ [⟨⟨va, u64 (va + size), prot, type, 1⟩, shadow⟩]
    committedPages := as.committedPages + size / pageSize
    brk := if base = 0 then u64 (va + size) else as.brk }

/-- `committed_pages` without `n` pages. -/
def uncommit (committed n : Nat) : Nat := if committed ≥ n then committed - n else 0

/-! ## What the builds share of the calls -/

/-- The checks of `vmm_alloc_user`: the address of the new VAD. -/
def allocPlan (as : Aspace α) (base size : Nat) : Except Status Nat :=
  if size = 0 then .error .invalidParameter
  else if pageAlignUp size / pageSize > userCommitMax / pageSize then .error .insufficientResources
  else allocTarget as base (pageAlignUp size)

/-- The size that `vmm_free_user` works with. -/
def freeSize (size : Nat) : Nat := if size ≠ 0 then pageAlignUp size else 0

/-- The VAD that `vmm_free_user` cuts, its index, the end of the range, and the pages before, in and
behind the range. -/
structure FreePlan (α : Type) where
  vad : Slot α
  index : Nat
  stop : Nat
  nLeft : Nat
  nMid : Nat
  nRight : Nat

/-- The checks of `vmm_free_user`, with base and size rounded. -/
def freePlan (as : Aspace α) (base size : Nat) : Except Status (FreePlan α) :=
  if outsideUser base size then .error .conflictingAddresses
  else
    match freeTarget as.slots base size with
    | .error st => .error st
    | .ok (v, i, stop) =>
      let nLeft := if size = 0 then 0 else pagesBetween v.start base
      let nMid := if size = 0 then pagesBetween v.start v.stop else u32 (size / pageSize)
      let nRight := if size = 0 then 0 else pagesBetween stop v.stop
      let extra := if nLeft ≠ 0 ∧ nRight ≠ 0 then 1 else 0
      if nMid = 0 then .error .invalidParameter
      else if as.slots.length + extra > maxVads then .error .insufficientResources
      else .ok ⟨v, i, stop, nLeft, nMid, nRight⟩

section
variable {σ : Type}

/-- The loop over the clips of a run, `one` for each. -/
def protectClips (one : σ → Nat → Nat → Outcome (Status × Option Prot × σ)) :
    List (Nat × Nat) → σ → Outcome (Status × σ)
  | [], s => .ok (.success, s)
  | (lo, hi) :: clips, s => do
    let (st, _, s) ← one s lo (hi - lo)
    if ntSuccess st = false then return (st, s) else protectClips one clips s

/-- `vmm_protect_user`, at most `k` calls deep, on the VADs `slots s`; `contained s i v base size stop`
is its path for a range that the VAD `v` at index `i` contains. The result is the status, the old
protection if it was set, and the state. -/
def protectRange (slots : σ → List (Slot α))
    (contained : σ → Nat → Slot α → Nat → Nat → Nat → Outcome (Status × Option Prot × σ))
    (prot : Prot) : Nat → σ → Nat → Nat → Outcome (Status × Option Prot × σ)
  | 0, _, _, _ => .diverge
  | k + 1, s, base, size =>
    if size = 0 then .ok (.invalidParameter, none, s)
    else if protLegal prot = false then .ok (.invalidPageProtection, none, s)
    else
      let base := pageAlignDown base
      let size := pageAlignUp size
      if outsideUser base size then .ok (.conflictingAddresses, none, s)
      else
        let stop := u64 (base + size)
        match vadContainsRange (slots s) base stop with
        | some (v, i) => contained s i v base size stop
        | none =>
          match vadRunCovers (slots s) base stop with
          | none => .ok (.conflictingAddresses, none, s)
          | some (v, n) =>
            if n < 2 then .ok (.conflictingAddresses, none, s)
            else
              match clipLoop (slots s) stop maxVads base with
              | .error st => .ok (st, none, s)
              | .ok clips => do
                let (st, s) ← protectClips (protectRange slots contained prot k) clips s
                return (st, some v.prot, s)

end

end

end Aegis
