import Aegis.Mm.Vad

/-!
# User memory, host build (`mm/vmm.c` with `JASOS_HOST`)

There are no page tables here: a VAD has an array of pointers to pages, which is made when the first
of them is touched, as is each page. The pages are numbered in the order of their allocation; `kfree`
takes one away, and what follows its pointer after that faults, as does an index outside of an array.

`oom n`: the `n`th `kalloc` fails.
-/

namespace Aegis

/-- The bytes of a page. -/
abbrev Page := Nat → UInt8

/-- `host_pages[i]` and `host_npages[i]`. -/
structure Shadow where
  pages : Option (List (Option Nat))
  npages : Nat
  deriving DecidableEq, Repr

/-- An address space of the host build, and its heap. -/
structure Host where
  as : Aspace Shadow
  heap : Nat → Option Page
  /-- The number of calls of `kalloc` so far. -/
  next : Nat

/-- A read past the array is a fault. -/
def entries (arr : List (Option Nat)) (lo n : Nat) : Outcome (List (Option Nat)) :=
  if lo + n ≤ arr.length then .ok ((arr.drop lo).take n) else .fault

/-- The entries that `vad_coalesce` takes from the array of a VAD of `n` pages. -/
def joined (pages : Option (List (Option Nat))) (n : Nat) : Outcome (List (Option Nat)) :=
  match pages with
  | some arr => entries arr 0 n
  | none => .ok (List.replicate n none)

namespace Host

def init : Host := ⟨Aspace.init Shadow, fun _ => none, 0⟩

def setSlots (s : Host) (slots : List (Slot Shadow)) : Host :=
  { s with as := { s.as with slots } }

/-- `kfree` of the pages of a list. -/
def kfree (s : Host) (l : List (Option Nat)) : Host :=
  { s with heap := fun x => if some x ∈ l then none else s.heap x }

section
variable (oom : Nat → Bool)

variable (s : Host)

/-- `kalloc` of an array of `n` entries. -/
def kallocArray (n : Nat) : Option (List (Option Nat)) × Host :=
  (if oom s.next then none else some (List.replicate n none), { s with next := s.next + 1 })

def kallocPage : Option Nat × Host :=
  if oom s.next then (none, { s with next := s.next + 1 })
  else (some s.next,
    { s with next := s.next + 1, heap := Function.update s.heap s.next (some fun _ => 0) })

/-- Whether an array of `n` pointers can be had, if one is needed. -/
def kallocIf (needed : Bool) (n : Nat) : Bool × Host :=
  if needed then ((s.kallocArray oom n).1.isSome, (s.kallocArray oom n).2) else (true, s)

/-! ## Pages -/

/-- The array of the VAD `v` at index `i`, of `np` pages. -/
def withArray (i : Nat) (v : Slot Shadow) (np : Nat) :
    Option (Slot Shadow × List (Option Nat)) × Host :=
  match v.shadow.pages with
  | some arr => (some (v, arr), s)
  | none =>
    let r := s.kallocArray oom np
    let v' := { v with shadow := ⟨r.1, np⟩ }
    (r.1.map fun arr => (v', arr), r.2.setSlots (r.2.as.slots.set i v'))

/-- The page at index `k` of the array. -/
def withPage (i : Nat) (v : Slot Shadow) (arr : List (Option Nat)) (k : Nat) :
    Outcome (Status × Host) :=
  if k ≥ v.shadow.npages then .ok (.accessViolation, s)
  else
    match arr[k]? with
    | none => .fault
    | some (some _) => .ok (.success, s)
    | some none =>
      match s.kallocPage oom with
      | (none, s) => .ok (.noMemory, s)
      | (some x, s) =>
        .ok (.success, s.setSlots (s.as.slots.set i
          { v with shadow := { v.shadow with pages := some (arr.set k (some x)) } }))

/-- `vmm_populate_page`. -/
def vmmPopulatePage (page : Nat) (write : Bool) : Outcome (Status × Host) :=
  match vadLookup s.as.slots page with
  | none => .ok (.accessViolation, s)
  | some (v, i) =>
    if v.prot &&& pageNoAccess ≠ 0 then .ok (.accessViolation, s)
    else if write ∧ v.prot &&& (pageReadWrite ||| pageExecuteReadWrite) = 0 then
      .ok (.accessViolation, s)
    else
      let np := pagesBetween v.start v.stop
      if np = 0 then .ok (.accessViolation, s)
      else
        match s.withArray oom i v np with
        | (none, s) => .ok (.noMemory, s)
        | (some (v, arr), s) => s.withPage oom i v arr (pagesBetween v.start page)

/-- The pointer that `vmm_write_aspace` and `vmm_read_aspace` find for a page. -/
def pagePointer (page : Nat) : Outcome (Option Nat) :=
  match vadLookup s.as.slots page with
  | none => .ok none
  | some (v, _) =>
    match v.shadow.pages with
    | none => .ok none
    | some arr =>
      if pagesBetween v.start page ≥ v.shadow.npages then .ok none
      else
        match arr[pagesBetween v.start page]? with
        | none => .fault
        | some p => .ok p

/-- The loop of `vmm_write_aspace`; each round writes a byte at least. -/
def writeLoop : Nat → Host → Nat → List UInt8 → Outcome (Status × Host)
  | _, s, _, [] => .ok (.success, s)
  | 0, _, _, _ :: _ => .diverge
  | k + 1, s, va, b :: bs => do
    let page := pageAlignDown va
    let (st, s) ← s.vmmPopulatePage oom page false
    if ntSuccess st = false then return (st, s)
    match ← s.pagePointer page with
    | none => return (.accessViolation, s)
    | some x =>
      match s.heap x with
      | none => .fault
      | some buf =>
        let off := va % pageSize
        let chunk := min (bs.length + 1) (pageSize - off)
        let buf' : Page := fun o =>
          if off ≤ o ∧ o < off + chunk then (b :: bs).getD (o - off) 0 else buf o
        writeLoop k { s with heap := Function.update s.heap x (some buf') } (u64 (va + chunk))
          ((b :: bs).drop chunk)

/-- `vmm_write_aspace`. -/
def vmmWriteAspace (va : Nat) (src : List UInt8) : Outcome (Status × Host) :=
  if src = [] then .ok (.invalidParameter, s) else writeLoop oom src.length s va src

/-- The loop of `vmm_read_aspace`: the status, and what has been read. -/
def readLoop : Nat → Host → Nat → Nat → Outcome (Status × List UInt8 × Host)
  | _, s, _, 0 => .ok (.success, [], s)
  | 0, _, _, _ + 1 => .diverge
  | k + 1, s, va, n + 1 => do
    let page := pageAlignDown va
    let (st, s) ← s.vmmPopulatePage oom page false
    if ntSuccess st = false then return (st, [], s)
    match ← s.pagePointer page with
    | none => return (.accessViolation, [], s)
    | some x =>
      match s.heap x with
      | none => .fault
      | some buf =>
        let off := va % pageSize
        let chunk := min (n + 1) (pageSize - off)
        let (st, rest, s) ← readLoop k s (u64 (va + chunk)) (n + 1 - chunk)
        return (st, (List.range chunk).map (fun i => buf (off + i)) ++ rest, s)

/-- `vmm_read_aspace`. -/
def vmmReadAspace (va n : Nat) : Outcome (Status × List UInt8 × Host) :=
  if n = 0 then .ok (.invalidParameter, [], s) else readLoop oom n s va n

/-! ## Ranges -/

/-- The rounds of `vad_coalesce`, as long as there is a pair to join; every round removes a VAD, so
the number of VADs bounds the rounds. -/
def vadCoalesce : Nat → Host → Outcome Host
  | 0, s => .ok s
  | k + 1, s =>
    match mergePair s.as.slots with
    | none => .ok s
    | some ((v, i), (u, j)) =>
      if v.shadow.pages.isSome ∨ u.shadow.pages.isSome then
        let nk := pagesBetween v.start v.stop
        let ne := pagesBetween u.start u.stop
        match s.kallocArray oom (nk + ne) with
        | (none, s) => .ok s
        | (some _, s) => do
          let hk ← joined v.shadow.pages nk
          let he ← joined u.shadow.pages ne
          vadCoalesce k (s.setSlots
            (joinVads s.as.slots { v with shadow := ⟨some (hk ++ he), nk + ne⟩ } i u.stop j))
      else vadCoalesce k (s.setSlots (joinVads s.as.slots v i u.stop j))

/-- The status, the address `*base` after the call, and the state. -/
def vmmAllocUser (base size : Nat) (prot : Prot) (type : Nat) : Status × Nat × Host :=
  match allocPlan s.as base size with
  | .error st => (st, base, s)
  | .ok va =>
    let size := pageAlignUp size
    (.success, va,
      { s with as := s.as.addVad base va size prot type ⟨none, u32 (size / pageSize)⟩ })

/-- The part of `vmm_free_user` on the array of the VAD `v` at index `i`: what is left of it, and
the pages that go. -/
def freeArrays (v : Slot Shadow) (nLeft nMid nRight : Nat) :
    Outcome (Option (Option (List (Option Nat)) × Option (List (Option Nat)) × List (Option Nat)) ×
      Host) :=
  match v.shadow.pages with
  | none => .ok (some (none, none, []), s)
  | some arr =>
    let (okLeft, s) := s.kallocIf oom (nLeft ≠ 0) nLeft
    if okLeft = false then .ok (none, s)
    else
      let (okRight, s) := s.kallocIf oom (nRight ≠ 0) nRight
      if okRight = false then .ok (none, s)
      else do
        let left ← entries arr 0 nLeft
        let mid ← entries arr nLeft nMid
        let right ← entries arr (nLeft + nMid) nRight
        return (some (if nLeft ≠ 0 then some left else none,
          if nRight ≠ 0 then some right else none, mid), s)

/-- `vmm_free_user`. -/
def vmmFreeUser (base size : Nat) : Outcome (Status × Host) :=
  let base := pageAlignDown base
  match freePlan s.as base (freeSize size) with
  | .error st => .ok (st, s)
  | .ok ⟨v, i, stop, nLeft, nMid, nRight⟩ => do
    match ← s.freeArrays oom v nLeft nMid nRight with
    | (none, s) => return (.noMemory, s)
    | (some (left, right, gone), s) =>
      return (.success,
        { s with as := { s.as with
            slots := carve s.as.slots i v base stop nLeft nRight ⟨left, nLeft⟩ ⟨right, nRight⟩
            committedPages := uncommit s.as.committedPages nMid } }.kfree gone)

/-- The part of `vmm_protect_user` on the array of the VAD `v`: the arrays of its three parts. -/
def protectArrays (v : Slot Shadow) (nLeft nMid nRight : Nat) :
    Outcome (Option (Option (List (Option Nat)) × Option (List (Option Nat)) ×
      Option (List (Option Nat))) × Host) :=
  match v.shadow.pages with
  | none => .ok (some (none, none, none), s)
  | some arr =>
    let (okLeft, s) := s.kallocIf oom (nLeft ≠ 0) nLeft
    if okLeft = false then .ok (none, s)
    else
      let (okMid, s) := s.kallocIf oom true nMid
      if okMid = false then .ok (none, s)
      else
        let (okRight, s) := s.kallocIf oom (nRight ≠ 0) nRight
        if okRight = false then .ok (none, s)
        else do
          let left ← entries arr 0 nLeft
          let mid ← entries arr nLeft nMid
          let right ← entries arr (nLeft + nMid) nRight
          return (some (some left, some mid, some right), s)

/-- The contained path of `vmm_protect_user`: `v` at index `i` contains `[base, stop)`. The result
is the status, the old protection if it was set, and the state. -/
def protectContained (i : Nat) (v : Slot Shadow) (base size stop : Nat) (prot : Prot) :
    Outcome (Status × Option Prot × Host) :=
  let nLeft := pagesBetween v.start base
  let nMid := u32 (size / pageSize)
  let nRight := pagesBetween stop v.stop
  let extra := (if nLeft ≠ 0 then 1 else 0) + (if nRight ≠ 0 then 1 else 0)
  if s.as.slots.length + extra > maxVads then .ok (.insufficientResources, none, s)
  else if extra = 0 then do
    let l := s.as.slots.set i { v with prot }
    let s ← vadCoalesce oom l.length (s.setSlots l)
    return (.success, some v.prot, s)
  else do
    match ← s.protectArrays oom v nLeft nMid nRight with
    | (none, s) => return (.noMemory, none, s)
    | (some (left, mid, right), s) =>
      let l := protectSplit s.as.slots i v base stop prot nLeft nRight ⟨left, nLeft⟩ ⟨mid, nMid⟩
        ⟨right, nRight⟩
      let s ← vadCoalesce oom l.length (s.setSlots l)
      return (.success, some v.prot, s)

/-- `vmm_protect_user`, at most `k` calls deep. -/
def protectAt (prot : Prot) : Nat → Host → Nat → Nat → Outcome (Status × Option Prot × Host) :=
  protectRange (fun s => s.as.slots)
    (fun s i v base size stop => s.protectContained oom i v base size stop prot) prot

/-- A clip is contained in one VAD, so the calls for the clips of a run make no further ones. -/
def vmmProtectUser (base size : Nat) (prot : Prot) :
    Outcome (Status × Option Prot × Host) := protectAt oom prot 2 s base size

end

end Host

end Aegis
