import Aegis.Mm.VmmHw
import Aegis.Ob.Handle

/-!
# The memory system calls (`ke/syscall.c`, `ke/exec.c`, `ob/section.c`) and `elf_load` (`fs/elf.c`)

`MemSys` has the objects, the bodies of the section objects and the address space of every process,
in the hardware build. The contents of a section are only copied; how many bytes there are is all
that `Mmu.write` is told.

An image is the memory from `image` on: `img i` is the byte at `image + i`, whether or not it still
belongs to the file.
-/

namespace Aegis

/-! ## Images -/

/-- The little-endian number of `n` bytes at `off`. -/
def readLe (img : Nat → UInt8) (off : Nat) : Nat → Nat
  | 0 => 0
  | n + 1 => (img (u64 off)).toNat + 256 * readLe img (off + 1) n

/-- The fields of an `elf64_phdr` that are used. -/
structure Phdr where
  type : Nat
  flags : BitVec 32
  offset : Nat
  vaddr : Nat
  filesz : Nat
  memsz : Nat
  deriving DecidableEq, Repr

def sizeofEhdr : Nat := 64
def sizeofPhdr : Nat := 56

/-- The program header at `off`. -/
def phdrAt (img : Nat → UInt8) (off : Nat) : Phdr where
  type := readLe img off 4
  flags := BitVec.ofNat 32 (readLe img (off + 4) 4)
  offset := readLe img (off + 8) 8
  vaddr := readLe img (off + 16) 8
  filesz := readLe img (off + 32) 8
  memsz := readLe img (off + 40) 8

def ptLoad : Nat := 1
def ptDynamic : Nat := 2
def ptInterp : Nat := 3
def ptGnuStack : Nat := 0x6474E551
def pfX : BitVec 32 := 1#32
def pfW : BitVec 32 := 2#32

/-- The tests of the ELF header: the status if one fails. -/
def ehdrPolicy (img : Nat → UInt8) (len : Nat) : Option Status :=
  if len < sizeofEhdr then some .invalidImageFormat
  else if img 0 ≠ 0x7F ∨ img 1 ≠ 69 ∨ img 2 ≠ 76 ∨ img 3 ≠ 70 then some .invalidImageFormat
  else if img 4 ≠ 2 ∨ img 5 ≠ 1 then some .invalidImageFormat
  else if readLe img 18 2 ≠ 62 then some .invalidImageFormat
  else if readLe img 16 2 = 3 then some .notSupported
  else if readLe img 16 2 ≠ 2 then some .invalidImageFormat
  else if readLe img 54 2 ≠ sizeofPhdr ∨ readLe img 56 2 = 0 ∨ readLe img 56 2 > 32 then
    some .invalidImageFormat
  else if u64 (readLe img 32 8 + readLe img 56 2 * sizeofPhdr) > len then some .invalidImageFormat
  else if readLe img 24 8 > userCanonicalTop then some .invalidImageFormat
  else none

/-- The policy pass on one program header. -/
def phdrPolicy (len : Nat) (ph : Phdr) : Option Status :=
  if ph.type = ptInterp ∨ ph.type = ptDynamic then some .notSupported
  else if ph.type = ptGnuStack then
    if ph.flags &&& pfX ≠ 0 then some .invalidImageFormat else none
  else if ph.type ≠ ptLoad then none
  else if ph.flags &&& (pfW ||| pfX) = pfW ||| pfX then some .invalidImageFormat
  else if ph.vaddr > userCanonicalTop then some .accessViolation
  else if ph.memsz < ph.filesz then some .invalidImageFormat
  else if u64 (ph.offset + ph.filesz) > len then some .invalidImageFormat
  else none

/-- The table of program headers. -/
def phdrs (img : Nat → UInt8) : List Phdr :=
  (List.range (readLe img 56 2)).map fun i => phdrAt img (u64 (readLe img 32 8 + i * sizeofPhdr))

/-- The protection that the flags of a segment ask for. -/
def segmentProt (flags : BitVec 32) : Prot :=
  let prot := pageReadOnly
  let prot := if flags &&& pfW ≠ 0 then pageReadWrite else prot
  if flags &&& pfX ≠ 0 then pageExecuteRead else prot

section
variable {σ : Type} (m : Mmu σ)

namespace HwState

def vmmWriteAspace (s : HwState σ) (va n : Nat) : Status × HwState σ :=
  let r := m.write s.mmu s.as.slots va n
  (r.1, { s with mmu := r.2 })

/-- The loop over the program headers. -/
def loadSegments : List Phdr → HwState σ → Status × HwState σ
  | [], s => (.success, s)
  | ph :: phs, s =>
    if ph.type ≠ ptLoad then loadSegments phs s
    else
      let va := pageAlignDown ph.vaddr
      let size := sub64 (pageAlignUp (u64 (ph.vaddr + ph.memsz))) va
      let a := vmmAllocUser m s va size (segmentProt ph.flags) memCommit
      if ntSuccess a.1 = false then (a.1, a.2.2)
      else if ph.filesz ≠ 0 then
        let b := vmmWriteAspace m a.2.2 ph.vaddr ph.filesz
        if ntSuccess b.1 = false then b else loadSegments phs b.2
      else loadSegments phs a.2.2

/-- `elf_load`, as far as the VADs go. -/
def elfLoad (s : HwState σ) (img : Nat → UInt8) (len : Nat) : Status × HwState σ :=
  match ehdrPolicy img len with
  | some st => (st, s)
  | none =>
    match (phdrs img).findSome? (phdrPolicy len) with
    | some st => (st, s)
    | none => loadSegments m (phdrs img) s

end HwState

/-! ## System calls -/

/-- `size` and `prot` of a `section_object_t`. -/
structure Section where
  size : Nat
  prot : Prot
  deriving DecidableEq, Repr

/-- The objects, the sections and the address spaces. -/
structure MemSys (σ : Type) where
  world : World
  sec : Nat → Section
  mem : Nat → HwState σ

namespace MemSys

variable (s : MemSys σ)

def setWorld (world : World) : MemSys σ := { s with world }

def setMem (p : Nat) (x : HwState σ) : MemSys σ :=
  { s with mem := Function.update s.mem p x }

variable (cur : Option Nat)

/-- A process argument of a memory call, with the reference that a handle gives dropped at once:
the status, or the process. -/
def processFor (h : Handle) :
    Outcome (Except Status (Option Nat) × MemSys σ) :=
  let (st, p, w) := s.world.processArg cur h processVmOperation
  if ntSuccess st = false then .ok (.error st, s.setWorld w)
  else if h = handleCurrent then .ok (.ok p, s.setWorld w)
  else do
    let w ← w.obDereferenceOpt p
    return (.ok p, s.setWorld w)

/-- The status, the address `*base` after the call, and the state. -/
def ntAllocateVirtualMemory (proc : Handle) (base size : Nat)
    (prot : Prot) : Outcome (Status × Nat × MemSys σ) := do
  match ← s.processFor cur proc with
  | (.error st, s) => return (st, base, s)
  | (.ok none, s) => return (.invalidParameter, base, s)
  | (.ok (some p), s) =>
    if size = 0 then return (.invalidParameter, base, s)
    else
      let a := (s.mem p).vmmAllocUser m base size (if prot ≠ 0 then prot else pageReadWrite)
        memCommit
      return (a.1, a.2.1, s.setMem p a.2.2)

/-- `NtProtectVirtualMemory`. -/
def ntProtectVirtualMemory (proc : Handle) (base size : Nat)
    (prot : Prot) : Outcome (Status × MemSys σ) := do
  let (st, p, w) := s.world.processArg cur proc processVmOperation
  if ntSuccess st = false then return (st, s.setWorld w)
  else
    let held := if proc = handleCurrent then none else p
    match p with
    | none => return (.invalidParameter, s.setWorld w)
    | some p =>
      if size = 0 then do
        let w ← w.obDereferenceOpt held
        return (.invalidParameter, s.setWorld w)
      else do
        let (st, _, x) ← (s.mem p).vmmProtectUser m base size prot
        let w ← w.obDereferenceOpt held
        return (st, (s.setMem p x).setWorld w)

/-- `NtFreeVirtualMemory`. -/
def ntFreeVirtualMemory (proc : Handle) (base size : Nat) :
    Outcome (Status × MemSys σ) := do
  match ← s.processFor cur proc with
  | (.error st, s) => return (st, s)
  | (.ok none, s) => return (.invalidHandle, s)
  | (.ok (some p), s) =>
    let a := (s.mem p).vmmFreeUser m base size
    return (a.1, s.setMem p a.2)

/-- `NtUnmapViewOfSection`. -/
def ntUnmapViewOfSection (proc : Handle) (base : Nat) :
    Outcome (Status × MemSys σ) :=
  match cur with
  | none => .ok (.invalidHandle, s)
  | some _ => s.ntFreeVirtualMemory m cur proc base 0

def sectionMax : Nat := 16 * 1024 * 1024

/-- `heap`, `data`: whether there is room for the object and for its contents. -/
def ntCreateSection (access : Access) (size : Nat) (prot : Prot)
    (heap data : Bool) : Outcome (Status × Option Handle × MemSys σ) :=
  if size = 0 then .ok (.invalidParameter, none, s)
  else if size > sectionMax then .ok (.invalidParameter, none, s)
  else do
    match ← s.world.obCreate .section_ none none heap with
    | (none, w) => return (.noMemory, none, s.setWorld w)
    | (some o, w) =>
      let sec := Function.update s.sec o
        ⟨pageAlignUp size, if prot ≠ 0 then prot else pageReadWrite⟩
      if data = false then do
        let w ← w.obDereference o
        return (.noMemory, none, { s with world := w, sec })
      else
        match cur with
        | none => do
          let w ← w.obDereference o
          return (.invalidHandle, none, { s with world := w, sec })
        | some p => do
          let (st, h, w) := w.htInsert p o (if access ≠ 0 then access else sectionAllAccess)
          let w ← w.obDereference o
          return (st, h, { s with world := w, sec })

/-- The two lookups of `NtMapViewOfSection`; the second asks for no right. -/
def sectionLookup (w : World) (cur : Nat) (h : Handle) : Status × Option Nat × World :=
  match w.htLookupEx cur h sectionMapRead (some .section_) with
  | (_, none, w) =>
    let r := w.htLookupEx cur h 0 (some .section_)
    (r.1, r.2.1.map (·.1), r.2.2)
  | (st, some x, w) => (st, some x.1, w)

/-- The process argument of `NtMapViewOfSection`, which has the section `so` in hand. -/
def mapTarget (cur : Nat) (proc : Handle) (so : Nat) :
    Outcome (Except Status Nat × MemSys σ) :=
  if proc = handleCurrent then .ok (.ok cur, s)
  else
    match s.world.htLookupEx cur proc processVmOperation (some .process) with
    | (st, none, w) => do
      let w ← w.obDereference so
      return (.error st, s.setWorld w)
    | (_, some (p, _), w) => do
      let w ← w.obDereference p
      return (.ok p, s.setWorld w)

/-- What `NtMapViewOfSection` allocates. -/
def mapSize (x : Section) (size : Nat) : Nat :=
  let mapSize := if size ≠ 0 then pageAlignUp size else x.size
  if mapSize > x.size then x.size else mapSize

/-- The rest of `NtMapViewOfSection`, into the process `p`. -/
def mapInto (p so base size : Nat) (prot : Prot) :
    Outcome (Status × Nat × MemSys σ) := do
  let n := mapSize (s.sec so) size
  let prot := if prot ≠ 0 then prot else (s.sec so).prot
  let a := (s.mem p).vmmAllocUser m base n prot memCommit
  if ntSuccess a.1 = false then do
    let w ← s.world.obDereference so
    return (a.1, base, (s.setMem p a.2.2).setWorld w)
  else do
    let b := a.2.2.vmmWriteAspace m a.2.1 n
    let w ← s.world.obDereference so
    return (b.1, a.2.1, (s.setMem p b.2).setWorld w)

/-- `NtMapViewOfSection`. -/
def ntMapViewOfSection (sec proc : Handle) (base size : Nat)
    (prot : Prot) : Outcome (Status × Nat × MemSys σ) :=
  match cur with
  | none => .ok (.invalidParameter, base, s)
  | some c =>
    match sectionLookup s.world c sec with
    | (st, none, w) => .ok (st, base, s.setWorld w)
    | (_, some so, w) => do
      match ← (s.setWorld w).mapTarget c proc so with
      | (.error st, s) => return (st, base, s)
      | (.ok p, s) => s.mapInto m p so base size prot

end MemSys

/-! ## Runs -/

/-- What makes and frees user memory. `setWorld`: anything that happens to objects and handles
between the calls. -/
inductive NewMemOp
  | elfLoad (p : Nat) (img : Nat → UInt8) (len : Nat)
  | allocate (cur : Option Nat) (proc : Handle) (base size : Nat) (prot : Prot)
  | createSection (cur : Option Nat) (access : Access) (size : Nat) (prot : Prot)
      (heap data : Bool)
  | mapView (cur : Option Nat) (sec proc : Handle) (base size : Nat) (prot : Prot)
  | unmapView (cur : Option Nat) (proc : Handle) (base : Nat)
  | free (cur : Option Nat) (proc : Handle) (base size : Nat)
  | setWorld (w : World)

/-- The calls of a run. -/
inductive MemOp
  | newMem (op : NewMemOp)
  | protect (cur : Option Nat) (proc : Handle) (base size : Nat) (prot : Prot)

namespace MemSys

def newMemStep (s : MemSys σ) : NewMemOp → Option (MemSys σ)
  | .elfLoad p img len => some (s.setMem p ((s.mem p).elfLoad m img len).2)
  | .allocate cur proc base size prot =>
    (s.ntAllocateVirtualMemory m cur proc base size prot).get?.map fun r => r.2.2
  | .createSection cur access size prot heap data =>
    (s.ntCreateSection cur access size prot heap data).get?.map fun r => r.2.2
  | .mapView cur sec proc base size prot =>
    (s.ntMapViewOfSection m cur sec proc base size prot).get?.map fun r => r.2.2
  | .unmapView cur proc base => (s.ntUnmapViewOfSection m cur proc base).get?.map fun r => r.2
  | .free cur proc base size => (s.ntFreeVirtualMemory m cur proc base size).get?.map fun r => r.2
  | .setWorld w => some (s.setWorld w)

def memStep (s : MemSys σ) : MemOp → Option (MemSys σ)
  | .newMem op => s.newMemStep m op
  | .protect cur proc base size prot =>
    (s.ntProtectVirtualMemory m cur proc base size prot).get?.map fun r => r.2

/-- Every address space as `vmm_aspace_init` leaves it, and no section made yet. -/
def init (w : World) (mmu : Nat → σ) : MemSys σ where
  world := w
  sec _ := ⟨0, 0⟩
  mem p := ⟨Aspace.init Unit, mmu p⟩

end MemSys

/-! ## What the calls should keep -/

/-- The page `q` has a byte of the VAD. -/
def Touches (v : Vad) (q : Nat) : Prop :=
  v.start < v.stop ∧ v.start < (q + 1) * pageSize ∧ q * pageSize < v.stop

/-- The VADs are made of whole pages, which they do not share; every one can be freed, and the commit
charge is the number of their pages. -/
structure PagesExact (s : HwState σ) : Prop where
  aligned : ∀ v ∈ s.as.slots, v.start % pageSize = 0 ∧ v.stop % pageSize = 0
  unshared : s.as.slots.Pairwise fun v u => ∀ q, ¬ (Touches v.toVad q ∧ Touches u.toVad q)
  released : ∀ v ∈ s.as.slots, (s.vmmFreeUser m v.start (v.stop - v.start)).1 = .success
  committed : s.as.committedPages = (s.as.slots.map fun v => (v.stop - v.start) / pageSize).sum

/-- Writable and executable. -/
def WriteExec (prot : Prot) : Prop :=
  (pteFlagsFromProt prot).write = true ∧ (pteFlagsFromProt prot).noExecute = false
  deriving Decidable

/-- The base that the call asks for is that of a page, and the size of an allocation can be rounded
up. -/
def NewMemOp.Aligned : NewMemOp → Prop
  | .allocate _ _ base size _ => base % pageSize = 0 ∧ size ≤ 2 ^ 64 - pageSize
  | .mapView _ _ _ base _ _ => base % pageSize = 0
  | _ => True

def MemOp.Aligned : MemOp → Prop
  | .newMem op => op.Aligned
  | .protect .. => True

/-- The protection that the call asks for is not both. -/
def NewMemOp.NotWriteExec : NewMemOp → Prop
  | .allocate _ _ _ _ prot => ¬ WriteExec prot
  | .createSection _ _ _ prot _ _ => ¬ WriteExec prot
  | .mapView _ _ _ _ _ prot => ¬ WriteExec prot
  | _ => True

end

end Aegis
