import Aegis.Mm.VmmHost
import Aegis.Mm.VmmHw

/-!
# Page tables (`mm/vmm.c` without `JASOS_HOST`)

The tables of one address space, the frames behind its leaves and the calls that go down to them.
Frames are numbered by their page, so an entry has the frame and the bits that are looked at or set;
`map_window(f)[i]` is `entry f i`, and the bytes of a frame that is not a table are `page f`.

`pmm` is what `pmm_alloc(0, ..)` returns in a state, if it does not fail, and `heap` whether `kalloc`
finds room. Both may depend on all that has happened, so every pattern of failures is one of them.
What `pmm_alloc` and `pmm_free` have been told is kept in `taken` and `freed`.
-/

namespace Aegis

/-! ## Entries -/

/-- An entry of a table. -/
structure Pte where
  /-- `PTE_ADDR`. -/
  frame : Nat := 0
  /-- `PTE_P`. -/
  present : Bool := false
  /-- `PTE_W`. -/
  write : Bool := false
  /-- `PTE_U`. -/
  user : Bool := false
  /-- `PTE_PS`. -/
  large : Bool := false
  /-- `PTE_NX`. -/
  noExecute : Bool := false
  /-- `PTE_SW_COMMIT`. -/
  commit : Bool := false
  deriving DecidableEq, Repr

namespace Pte

def table (n : Nat) (u : Bool) : Pte := { frame := n, present := true, write := true, user := u }

/-- The entry of a page with a protection. -/
def leaf (n : Nat) (prot : Prot) : Pte where
  frame := n
  present := true
  write := (pteFlagsFromProt prot).write
  user := true
  noExecute := (pteFlagsFromProt prot).noExecute

/-- `pa | PTE_SW_COMMIT | PTE_NX`: a frame that `PAGE_NOACCESS` hides. -/
def parked (n : Nat) : Pte := { frame := n, noExecute := true, commit := true }

end Pte

def kernelPml4Start : Nat := 256
def unmapBatch : Nat := 16
def copyMax : Nat := 1024 * 1024
/-- What `kalloc` gives out at most. -/
def kallocMax : Nat := 8 * 1024 * 1024

/-- The tables below `cr3_phys`, the pages, and the frames taken and given back. -/
structure PageTables where
  /-- `cr3_phys`. -/
  root : Nat
  entry : Nat → Nat → Pte
  page : Nat → Page
  taken : List Nat
  freed : List Nat
  /-- The calls of `pmm_alloc` and `kalloc` so far. -/
  allocs : Nat

namespace PageTables

def tableIndex (va shift : Nat) : Nat := (va >>> shift) % 512

def setEntry (d : PageTables) (t i : Nat) (e : Pte) : PageTables :=
  { d with entry := fun t' i' => if t' = t ∧ i' = i then e else d.entry t' i' }

/-- `walk_alloc` without `create`: the table and the index of the leaf. -/
def walk (d : PageTables) (va : Nat) : Option (Nat × Nat) :=
  let e4 := d.entry d.root (tableIndex va 39)
  let e3 := d.entry e4.frame (tableIndex va 30)
  let e2 := d.entry e3.frame (tableIndex va 21)
  if e4.present = false then none
  else if e3.present = false then none
  else if e2.large then none
  else if e2.present = false then none
  else some (e2.frame, tableIndex va 12)

/-- The leaf of a page, if the tables reach it. -/
def leafAt (d : PageTables) (va : Nat) : Option Pte := (d.walk va).map fun x => d.entry x.1 x.2

/-- `walk_fill_one`: the table `n` at the first hole on the way to the leaf. -/
def walkFillOne (d : PageTables) (va n : Nat) : Bool × PageTables :=
  let u := decide (tableIndex va 39 < kernelPml4Start)
  let e4 := d.entry d.root (tableIndex va 39)
  let e3 := d.entry e4.frame (tableIndex va 30)
  let e2 := d.entry e3.frame (tableIndex va 21)
  if e4.present = false then (true, d.setEntry d.root (tableIndex va 39) (.table n u))
  else if e3.present = false then (true, d.setEntry e4.frame (tableIndex va 30) (.table n u))
  else if e2.large then (false, d)
  else if e2.present = false then (true, d.setEntry e3.frame (tableIndex va 21) (.table n u))
  else (false, d)

def pmmFree (d : PageTables) (f : Nat) : PageTables := { d with freed := f :: d.freed }

def pmmFreeAll (d : PageTables) (fr : List Nat) : PageTables := fr.foldl pmmFree d

/-! ## Unmapping -/

/-- The loop of `collect_clear_locked` over `k` pages from `va`; `out` is what has been collected. -/
def collectClear (cap : Nat) : Nat → Nat → PageTables → List Nat → PageTables × List Nat
  | 0, _, d, out => (d, out)
  | k + 1, va, d, out =>
    match d.walk va with
    | none => collectClear cap k (u64 (va + pageSize)) d out
    | some (t, i) =>
      let pa := (d.entry t i).frame
      collectClear cap k (u64 (va + pageSize)) (d.setEntry t i {})
        (if pa ≠ 0 ∧ out.length < cap then out ++ [pa] else out)

/-- The loop of `vmm_unmap`: `done` of `n` pages are. -/
def unmapLoop (cap va n : Nat) : Nat → PageTables → Nat → Outcome PageTables
  | 0, _, _ => .diverge
  | k + 1, d, done =>
    if done < n then
      if d.root = 0 then .ok d
      else
        let chunk := min (n - done) cap
        let r := collectClear cap chunk (u64 (va + done * pageSize)) d []
        let d := r.1.pmmFreeAll r.2
        if chunk = 0 then .ok d else unmapLoop cap va n k d (done + chunk)
    else .ok d

/-- The loop of `vmm_free_user` that collects the frames of `n` pages from `base`; `fr` are those that
have not been freed yet. -/
def collectLoop (heap : Bool) (base n : Nat) : Nat → PageTables → Nat → List Nat → Outcome PageTables
  | 0, _, _, _ => .diverge
  | k + 1, d, collected, fr =>
    if collected < n then
      let cap := (if heap then n else unmapBatch) - fr.length
      let chunk := min (n - collected) cap
      let r := collectClear cap chunk (u64 (base + collected * pageSize)) d []
      let fr := fr ++ r.2
      let collected := collected + chunk
      if chunk = 0 then .ok (r.1.pmmFreeAll fr)
      else if heap = false ∧ collected < n then
        collectLoop heap base n k (r.1.pmmFreeAll fr) collected []
      else collectLoop heap base n k r.1 collected fr
    else .ok (d.pmmFreeAll fr)

section
variable (pmm : PageTables → Option Nat) (heap : PageTables → Bool)

/-- Whether `kalloc` of `n` bytes succeeds. -/
def kalloc (d : PageTables) (n : Nat) : Bool × PageTables :=
  (decide (n ≠ 0 ∧ n ≤ kallocMax) && heap d, { d with allocs := d.allocs + 1 })

/-- `vmm_unmap`. -/
def vmmUnmap (d : PageTables) (va n : Nat) : Outcome PageTables :=
  if n = 0 then .ok d
  else if n > unmapBatch then
    let r := d.kalloc heap (u64 (n * 8))
    unmapLoop (if r.1 then u32 n else unmapBatch) va n (n + 1) r.2 0
  else unmapLoop unmapBatch va n (n + 1) d 0

/-- The part of `vmm_free_user` on the page tables, for `n` pages from `base`. -/
def clearRange (d : PageTables) (base n : Nat) : Outcome PageTables :=
  if n > unmapBatch then
    let r := d.kalloc heap (n * 8)
    collectLoop r.1 base n (n + 1) r.2 0 []
  else collectLoop false base n (n + 1) d 0 []

/-! ## Mapping -/

/-- `pmm_alloc` of one frame. -/
def pmmAlloc (d : PageTables) : Option Nat × PageTables :=
  match pmm d with
  | none => (none, { d with allocs := d.allocs + 1 })
  | some n => (some n, { d with
      entry := fun t i => if t = n then {} else d.entry t i
      page := Function.update d.page n fun _ => 0
      taken := n :: d.taken
      allocs := d.allocs + 1 })

/-- The loop of `vmm_ensure_leaf`, `k` more rounds. -/
def ensureLoop (page : Nat) : Nat → PageTables → Status × PageTables
  | 0, d => (.noMemory, d)
  | k + 1, d =>
    match d.pmmAlloc pmm with
    | (none, d) => (.noMemory, d)
    | (some n, d) =>
      let r := d.walkFillOne page n
      let d := if r.1 then r.2 else r.2.pmmFree n
      if (d.walk page).isSome then (.success, d) else ensureLoop page k d

/-- `vmm_ensure_leaf`. -/
def vmmEnsureLeaf (d : PageTables) (page : Nat) : Status × PageTables :=
  if (d.walk page).isSome then (.success, d) else ensureLoop pmm page 16 d

/-- The rest of the round of `vmm_alloc_user`: the leaf is marked if it has nothing in it. -/
def commitLeaf (d : PageTables) (page : Nat) : Bool × PageTables :=
  match d.walk page with
  | none => (false, d)
  | some (t, i) =>
    (true, if (d.entry t i).present = false ∧ (d.entry t i).frame = 0 then
        d.setEntry t i { commit := true }
      else d)

/-- What `apply_prot_range` makes of a leaf. -/
def retarget (e : Pte) (prot : Prot) : Pte :=
  if prot &&& pageNoAccess ≠ 0 then
    if e.present then .parked e.frame else e
  else if e.present ∨ e.frame ≠ 0 then .leaf e.frame prot
  else e

/-- The loop of `apply_prot_range` over `k` pages from `page`. -/
def applyProt (prot : Prot) : Nat → Nat → PageTables → PageTables
  | 0, _, d => d
  | k + 1, page, d =>
    applyProt prot k (u64 (page + pageSize)) <|
      match d.walk page with
      | none => d
      | some (t, i) => d.setEntry t i (retarget (d.entry t i) prot)

/-- The page part of `vmm_populate_page`, for a VAD with the protection. -/
def populate (d : PageTables) (page : Nat) (prot : Prot) : Status × PageTables :=
  match d.pmmAlloc pmm with
  | (none, d) => (.noMemory, d)
  | (some n, d) =>
    match d.vmmEnsureLeaf pmm page with
    | (st, d) =>
      if ntSuccess st = false then (st, d.pmmFree n)
      else
        match d.walk page with
        | none => (.noMemory, d.pmmFree n)
        | some (t, i) =>
          let e := d.entry t i
          if e.present then (.success, d.pmmFree n)
          else if e.frame ≠ 0 then (.success, (d.setEntry t i (.leaf e.frame prot)).pmmFree n)
          else (.success, d.setEntry t i (.leaf n prot))

/-! ## Access over the VADs -/

/-- `vmm_populate_page`. -/
def vmmPopulatePage (l : List (Slot Unit)) (d : PageTables) (page : Nat) (write : Bool) :
    Status × PageTables :=
  match vadLookup l page with
  | none => (.accessViolation, d)
  | some (v, _) =>
    if v.prot &&& pageNoAccess ≠ 0 then (.accessViolation, d)
    else if write ∧ v.prot &&& (pageReadWrite ||| pageExecuteReadWrite) = 0 then
      (.accessViolation, d)
    else
      match d.leafAt page with
      | some e =>
        if e.present then
          (if write ∧ e.write = false then .accessViolation else .success, d)
        else d.populate pmm page v.prot
      | none => d.populate pmm page v.prot

/-- The frame that `vmm_write_aspace` and `vmm_read_aspace` find for a page. -/
def frameOf (d : PageTables) (page : Nat) : Option Nat :=
  (d.leafAt page).bind fun e => if e.present then some e.frame else none

/-- The loop of `vmm_write_aspace`; each round writes a byte at least. -/
def writeLoop (l : List (Slot Unit)) :
    Nat → PageTables → Nat → List UInt8 → Outcome (Status × PageTables)
  | _, d, _, [] => .ok (.success, d)
  | 0, _, _, _ :: _ => .diverge
  | k + 1, d, va, b :: bs =>
    match d.vmmPopulatePage pmm l (pageAlignDown va) false with
    | (st, d) =>
      if ntSuccess st = false then .ok (st, d)
      else
        match d.frameOf (pageAlignDown va) with
        | none => .ok (.accessViolation, d)
        | some f =>
          let off := va % pageSize
          let chunk := min (bs.length + 1) (pageSize - off)
          let buf : Page := fun o =>
            if off ≤ o ∧ o < off + chunk then (b :: bs).getD (o - off) 0 else d.page f o
          writeLoop l k { d with page := Function.update d.page f buf } (u64 (va + chunk))
            ((b :: bs).drop chunk)

/-- `vmm_write_aspace`. -/
def vmmWriteAspace (l : List (Slot Unit)) (d : PageTables) (va : Nat) (src : List UInt8) :
    Outcome (Status × PageTables) :=
  if src = [] then .ok (.invalidParameter, d) else d.writeLoop pmm l src.length va src

/-- The loop of `vmm_read_aspace`: the status, and what has been read. -/
def readLoop (l : List (Slot Unit)) :
    Nat → PageTables → Nat → Nat → Outcome (Status × List UInt8 × PageTables)
  | _, d, _, 0 => .ok (.success, [], d)
  | 0, _, _, _ + 1 => .diverge
  | k + 1, d, va, n + 1 =>
    match d.vmmPopulatePage pmm l (pageAlignDown va) false with
    | (st, d) =>
      if ntSuccess st = false then .ok (st, [], d)
      else
        match d.frameOf (pageAlignDown va) with
        | none => .ok (.accessViolation, [], d)
        | some f => do
          let off := va % pageSize
          let chunk := min (n + 1) (pageSize - off)
          let (st, rest, d') ← readLoop l k d (u64 (va + chunk)) (n + 1 - chunk)
          return (st, (List.range chunk).map (fun i => d.page f (off + i)) ++ rest, d')

/-- `vmm_read_aspace`. -/
def vmmReadAspace (l : List (Slot Unit)) (d : PageTables) (va n : Nat) :
    Outcome (Status × List UInt8 × PageTables) :=
  if n = 0 then .ok (.invalidParameter, [], d) else d.readLoop pmm l n va n

end

end PageTables

/-! ## The probe -/

/-- The test of `vmm_probe_user` for the VAD of a page. -/
def probeProt (write : Bool) (prot : Prot) : Bool :=
  if write then prot &&& (pageReadWrite ||| pageExecuteReadWrite) ≠ 0
  else prot &&& (pageReadOnly ||| pageReadWrite ||| pageExecute ||| pageExecuteRead |||
    pageExecuteReadWrite) ≠ 0

/-- The loop of `vmm_probe_user` from the page `p`, at most `k` rounds. -/
def probeLoop (l : List (Slot Unit)) (write : Bool) (stop : Nat) : Nat → Nat → Bool
  | 0, _ => true
  | k + 1, p =>
    if p < stop then
      match vadLookup l p with
      | none => false
      | some (v, _) =>
        if probeProt write v.prot then probeLoop l write stop k (u64 (p + pageSize)) else false
    else true

/-- `vmm_probe_user` of the hardware build; `n` bytes touch at most `n / 4096 + 2` pages. -/
def vmmProbeUser (l : List (Slot Unit)) (va n : Nat) (write : Bool) : Bool :=
  if userCanonicalTop < va ∨ copyMax < n ∨ u64 (va + n) < va then false
  else probeLoop l write (u64 (va + n)) (n / pageSize + 2) (pageAlignDown va)

namespace PageTables

/-- `copyout` for the address space of the current process. -/
def copyout (pmm : PageTables → Option Nat) (l : List (Slot Unit)) (d : PageTables) (udst : Nat)
    (src : List UInt8) : Outcome (Status × PageTables) :=
  if src = [] then .ok (.success, d)
  else if src.length > copyMax then .ok (.invalidParameter, d)
  else if vmmProbeUser l udst src.length true = false then .ok (.accessViolation, d)
  else d.vmmWriteAspace pmm l udst src

/-! ## The page tables of `vmm.c` -/

/-- The page tables as the VAD layer uses them. `src` are the bytes that a write takes, by address. -/
def mmu (pmm : PageTables → Option Nat) (heap : PageTables → Bool) (src : Nat → UInt8) :
    Mmu PageTables where
  ensureLeaf d page := d.vmmEnsureLeaf pmm page
  commitLeaf d page := d.commitLeaf page
  clearRange d base n := (d.clearRange heap base n).get?.getD d
  applyProt d base size prot := applyProt prot (size / pageSize) base d
  write d l va n := (d.vmmWriteAspace pmm l va ((List.range n).map fun i => src (va + i))).get?.getD
    (.noMemory, d)

/-- Page tables with memory, frame after frame. -/
def freshMmu : Mmu PageTables := mmu (fun d => some (d.allocs + 2)) (fun _ => true) fun _ => 0

end PageTables

def newAspace : HwState PageTables where
  as := Aspace.init Unit
  mmu := ⟨1, fun _ _ => {}, fun _ _ => 0, [], [], 0⟩

end Aegis
