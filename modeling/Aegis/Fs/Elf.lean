import Aegis.Ke.MemCall
import Aegis.Mm.VmmSpec

/-!
# `elf_load` over either build (`fs/elf.c`)

The loader calls `vmm_alloc_user` and `vmm_write_aspace` and nothing else of the address space, so it
is written once over these two (`Loader`). `hostLoader` and `hwLoader` are the builds;
`HwState.elfLoad` is the second of them.

The rest of the module says what the loader is for: where it reads the image, where the segments
come to lie and what they hold.
-/

namespace Aegis

/-- What `elf_load` calls, on a state `τ`. -/
structure Loader (τ : Type) where
  /-- `vmm_alloc_user` of a base and a size, with `MEM_COMMIT`. -/
  alloc : τ → Nat → Nat → Prot → Status × τ
  /-- `vmm_write_aspace` of bytes at an address. -/
  write : τ → Nat → List UInt8 → Outcome (Status × τ)

def hostLoader (oom : Nat → Bool) : Loader Host where
  alloc s base size prot :=
    let r := s.vmmAllocUser base size prot memCommit
    (r.1, r.2.2)
  write s va src := s.vmmWriteAspace oom va src

def hwLoader {σ : Type} (m : Mmu σ) : Loader (HwState σ) where
  alloc s base size prot :=
    let r := HwState.vmmAllocUser m s base size prot memCommit
    (r.1, r.2.2)
  write s va src := .ok (s.vmmWriteAspace m va src.length)

/-- `image[off .. off + n)`. -/
def imageBytes (img : Nat → UInt8) (off n : Nat) : List UInt8 :=
  (List.range n).map fun j => img (u64 (off + j))

/-- The page that a segment starts in. -/
def Phdr.base (ph : Phdr) : Nat := pageAlignDown ph.vaddr

/-- Its pages, in bytes. -/
def Phdr.size (ph : Phdr) : Nat := sub64 (pageAlignUp (u64 (ph.vaddr + ph.memsz))) ph.base

namespace Loader

variable {τ : Type} (L : Loader τ) (img : Nat → UInt8)

/-- The pages of a segment. -/
def allocSegment (s : τ) (ph : Phdr) : Status × τ :=
  L.alloc s ph.base ph.size (segmentProt ph.flags)

/-- Its bytes from the file. -/
def writeSegment (s : τ) (ph : Phdr) : Outcome (Status × τ) :=
  L.write s ph.vaddr (imageBytes img ph.offset ph.filesz)

/-- The loop over the program headers. -/
def loadSegments : List Phdr → τ → Outcome (Status × τ)
  | [], s => .ok (.success, s)
  | ph :: phs, s =>
    if ph.type ≠ ptLoad then loadSegments phs s
    else
      let a := L.allocSegment s ph
      if ntSuccess a.1 = false then .ok a
      else if ph.filesz ≠ 0 then do
        let b ← L.writeSegment img a.2 ph
        if ntSuccess b.1 = false then .ok b else loadSegments phs b.2
      else loadSegments phs a.2

/-- `elf_load`: the checks of the header, then the segments in the order of the table. A failure
leaves what has been mapped so far. -/
def elfLoad (s : τ) (len : Nat) : Outcome (Status × τ) :=
  match ehdrPolicy img len with
  | some st => .ok (st, s)
  | none =>
    match (phdrs img).findSome? (phdrPolicy len) with
    | some st => .ok (st, s)
    | none => L.loadSegments img (phdrs img) s

/-! ## Reads -/

/-- The ranges `(off, n)` of the image that the loading loop hands to `vmm_write_aspace`. -/
def segmentReads : List Phdr → τ → List (Nat × Nat)
  | [], _ => []
  | ph :: phs, s =>
    if ph.type ≠ ptLoad then segmentReads phs s
    else
      let a := L.allocSegment s ph
      if ntSuccess a.1 = false then []
      else if ph.filesz ≠ 0 then
        (ph.offset, ph.filesz) ::
          match L.writeSegment img a.2 ph with
          | .ok b => if ntSuccess b.1 = false then [] else segmentReads phs b.2
          | _ => []
      else segmentReads phs a.2

def headerTable : Nat × Nat := (readLe img 32 8, readLe img 56 2 * sizeofPhdr)

/-- The ranges of the image that `elf_load` reads behind the ELF header. -/
def elfReads (s : τ) (len : Nat) : List (Nat × Nat) :=
  match ehdrPolicy img len with
  | some _ => []
  | none =>
    headerTable img ::
      match (phdrs img).findSome? (phdrPolicy len) with
      | some _ => []
      | none => L.segmentReads img (phdrs img) s

/-- `elf_load` comes to copy the bytes of the segment: it has loaded the segments `pre`, and there is
room for the segment. -/
def Copies (s : τ) (pre : List Phdr) (ph : Phdr) : Prop :=
  ph.type = ptLoad ∧ ph.filesz ≠ 0 ∧ ∃ s₁ s₂, L.loadSegments img pre s = .ok (.success, s₁) ∧
    L.allocSegment s₁ ph = (.success, s₂)

/-- The sums that `elf_load` compares with the length of the image do not wrap: that of the header
table, and those of the segments that it comes to copy. -/
structure SumsFit (s : τ) (len : Nat) : Prop where
  table : ehdrPolicy img len = none → readLe img 32 8 + readLe img 56 2 * sizeofPhdr < 2 ^ 64
  segments : ehdrPolicy img len = none → (phdrs img).findSome? (phdrPolicy len) = none →
    ∀ pre ph post, phdrs img = pre ++ ph :: post → L.Copies img s pre ph →
      ph.offset + ph.filesz < 2 ^ 64

end Loader

/-! ## Places -/

/-- An address space before `elf_load`. -/
structure Aspace.Empty {α : Type} (as : Aspace α) : Prop where
  slots : as.slots = []
  committed : as.committedPages = 0
  brk : userHeapBase ≤ as.brk
  aligned : as.brk % pageSize = 0

/-- Every segment is where its header says, with its protection, and there is nothing else. -/
structure MapsSegments {α : Type} (phs : List Phdr) (l : List (Slot α)) : Prop where
  covered : ∀ ph ∈ phs, ph.type = ptLoad → ph.memsz ≠ 0 →
    ∃ v ∈ l, v.start ≤ ph.vaddr ∧ ph.vaddr + ph.memsz ≤ v.stop ∧ v.prot = segmentProt ph.flags
  only : ∀ v ∈ l, ∀ a, v.start ≤ a → a < v.stop → ∃ ph ∈ phs, ph.type = ptLoad ∧
    ph.vaddr / pageSize * pageSize ≤ a ∧
    a < (ph.vaddr + ph.memsz + (pageSize - 1)) / pageSize * pageSize

/-- A segment is not in the first page, and its end is a `u64`. -/
def Phdr.Placeable (ph : Phdr) : Prop := pageSize ≤ ph.vaddr ∧ ph.vaddr + ph.memsz < 2 ^ 64
  deriving Decidable

/-! ## Contents -/

/-- `vmm_read_aspace` reads the byte `b` at `a`, if `kalloc` does not fail. -/
def Host.ReadsByte (s : Host) (a : Nat) (b : UInt8) : Prop :=
  ∀ oom, ∃ st bytes s', s.vmmReadAspace oom a 1 = .ok (st, bytes, s') ∧
    (st = .success → bytes = [b]) ∧ ((∀ n, oom n = false) → st = .success)

/-- The file has the byte at `a`. -/
def Phdr.InFile (ph : Phdr) (a : Nat) : Prop := ph.vaddr ≤ a ∧ a < ph.vaddr + ph.filesz

/-! ## Images with given program headers -/

/-- The number in `n` bytes, little-endian. -/
def leBytes (x : Nat) : Nat → List UInt8
  | 0 => []
  | n + 1 => UInt8.ofNat x :: leBytes (x / 256) n

/-- An ELF header with `n` program headers right behind it. -/
def ehdrBytes (n : Nat) : List UInt8 :=
  [0x7F, 69, 76, 70, 2, 1, 1, 0, 0, 0, 0, 0, 0, 0, 0, 0] ++ leBytes 2 2 ++ leBytes 62 2 ++
    leBytes 1 4 ++ leBytes 0x400000 8 ++ leBytes sizeofEhdr 8 ++ leBytes 0 8 ++ leBytes 0 4 ++
    leBytes sizeofEhdr 2 ++ leBytes sizeofPhdr 2 ++ leBytes n 2 ++ leBytes 0 6

/-- A program header as it stands in the file. -/
def phdrBytes (ph : Phdr) : List UInt8 :=
  leBytes ph.type 4 ++ leBytes ph.flags.toNat 4 ++ leBytes ph.offset 8 ++ leBytes ph.vaddr 8 ++
    leBytes ph.vaddr 8 ++ leBytes ph.filesz 8 ++ leBytes ph.memsz 8 ++ leBytes pageSize 8

/-- The image with these program headers, and zeros behind them. -/
def imageOf (phs : List Phdr) : Nat → UInt8 :=
  fun i => (ehdrBytes phs.length ++ phs.flatMap phdrBytes).getD i 0

end Aegis
