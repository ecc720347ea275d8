import Aegis.Ke.FileCall

/-!
# Request packets (`io/irp.c`) and the block devices in `vfs_read` and `vfs_write`

A driver is its table of functions on the state `δ` of a device; the ramdisk is one. The bytes that
are moved are left out. The heap is the list of the live allocations with their sizes.
-/

namespace Aegis

variable {δ : Type}

/-- `irp_t`. -/
structure Irp where
  major : Nat
  ref : Nat
  buffer : Bool
  length : Nat
  offset : Nat
  information : Nat

/-- The live blocks and their sizes. -/
abbrev Heap := List (Nat × Nat)

def heapUsed (heap : Heap) : Nat := (heap.map (·.2)).sum

/-- `sizeof(irp_t)` is 80, which `kalloc` takes from the slabs of 128. `p` is where, if it can. -/
def ioAllocIrp (heap : Heap) (p : Option Nat) (major : Nat) : Option (Nat × Irp × Heap) :=
  p.map fun p => (p, ⟨major, 1, false, 0, 0, 0⟩, (p, 128) :: heap)

/-- `__sync_sub_and_fetch`: the new value. -/
def atomicDec32 (v : Nat) : Nat := u32 (v + (2 ^ 32 - 1))

/-- `io_free_irp`. -/
def ioFreeIrp (heap : Heap) (p : Nat) (irp : Irp) : Heap :=
  if atomicDec32 irp.ref = 1 then heap.eraseP (·.1 = p) else heap

/-- The status a driver function returns, and what it completes the packet with. -/
abbrev DrvDispatch (δ : Type) := δ → Irp → Nat × Nat × δ

/-- `device_object_t`. -/
structure DeviceObject (δ : Type) where
  driver : Option (Nat → Option (DrvDispatch δ))

/-- `io_call_driver`. -/
def ioCallDriver (dev : DeviceObject δ) (ext : δ) (irp : Irp) : Nat × Irp × δ :=
  match dev.driver with
  | none => (Status.invalidParameter.code, irp, ext)
  | some major =>
    if irp.major ≥ 6 then (Status.invalidParameter.code, irp, ext)
    else match major irp.major with
      | none => (0xC0000002, irp, ext)
      | some fn =>
        let (st, information, ext) := fn ext irp
        (st, { irp with information }, ext)

/-- The device state is `x->size`, if there is a backing store. -/
def ramdiskRw (write : Bool) : DrvDispatch (Option Nat)
  | none, _ => (Status.noSuchFile.code, 0, none)
  | some size, irp =>
    if irp.offset ≥ size then
      ((if write then Status.invalidParameter else .endOfFile).code, 0, some size)
    else
      let past := decide (u64 (irp.offset + irp.length) > size)
      let n := if past then size - irp.offset else irp.length
      if past && write then (0xC000007F, 0, some size)
      else if n ≠ 0 ∧ irp.buffer = false then (Status.invalidParameter.code, 0, some size)
      else (Status.success.code, n, some size)

def ramdiskDevice : DeviceObject (Option Nat) where
  driver := some fun
    | 0 | 1 => some fun ext _ => (Status.success.code, 0, ext)
    | 2 => some (ramdiskRw false)
    | 3 => some (ramdiskRw true)
    | _ => none

/-- A File object on a device. -/
structure BlockFile (δ : Type) where
  access : Access
  device : Option (DeviceObject δ)

/-- What its transfers change. -/
structure BlockState (δ : Type) where
  offset : Nat
  heap : Heap
  ext : δ

/-- A call of `vfs_read` or `vfs_write`. `seek` is a new value of `f->offset` before it, `irp` where
`kalloc` puts the packet. -/
structure Transfer where
  write : Bool
  buf : Bool
  n : Nat
  seek : Option Nat
  irp : Option Nat

def Transfer.rights (op : Transfer) : List Access :=
  if op.write then [fileWriteData, fileAppendData, genericWrite] else [fileReadData, genericRead]

/-- The result of a call: the status, `*got`, and the state. -/
def BlockFile.transfer (f : BlockFile δ) (s : BlockState δ) (op : Transfer) :
    Nat × Nat × BlockState δ :=
  if op.buf = false then (Status.invalidParameter.code, 0, s)
  else if op.rights.all fun r => f.access &&& r == 0 then (Status.accessDenied.code, 0, s)
  else match f.device with
    | none => (Status.noSuchFile.code, 0, s)
    | some dev =>
      match ioAllocIrp s.heap op.irp (if op.write then 3 else 2) with
      | none => (Status.noMemory.code, 0, s)
      | some (p, irp, heap) =>
        let (st, irp, ext) := ioCallDriver dev s.ext
          { irp with buffer := op.buf, length := op.n, offset := s.offset }
        (st, irp.information,
          ⟨u64 (s.offset + irp.information), ioFreeIrp heap p irp, ext⟩)

def BlockFile.step (f : BlockFile δ) (s : BlockState δ) (op : Transfer) : Option (BlockState δ) :=
  some (f.transfer { s with offset := op.seek.getD s.offset } op).2.2

/-- The call gets as far as a request packet. -/
def BlockFile.Requests (f : BlockFile δ) (op : Transfer) : Prop :=
  op.buf = true ∧ (∃ r ∈ op.rights, f.access &&& r ≠ 0) ∧ f.device ≠ none ∧ op.irp ≠ none

end Aegis
