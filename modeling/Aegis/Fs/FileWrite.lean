import Aegis.Fs.FileData

/-!
# `vfs_write` under several threads

`vfs_write` drops the lock of the vnode while it allocates a larger buffer, so the call is cut
there: `enter` is what it does up to the allocation, `relock` what it does behind it. The length of
the new buffer is the one computed in `enter`; the offset and the end of the write are computed
again in `relock`.
-/

namespace Aegis

/-- `kalloc(n)` on a heap that may be out of pages. -/
def kalloc (n : Nat) (heap : Bool) : Bool := n ≠ 0 && n ≤ 8 * 1024 * 1024 && heap

/-- `v->data = nd`, with the contents of the file copied. -/
def FileData.moveTo (d : FileData) (ncap : Nat) (junk : Nat → UInt8) : FileData :=
  { d with cap := ncap, data := fun i => if i < d.size then d.data i else junk i }

/-- A call that has its new buffer and not yet the lock. -/
structure PendingWrite where
  file : Nat
  bytes : List UInt8
  ncap : Nat
  junk : Nat → UInt8

/-- A file with the calls in progress, by thread. -/
structure WriteSys extends FileState where
  /-- The length of the buffer behind `v->data`. -/
  len : Nat
  pend : Nat → Option PendingWrite

namespace WriteSys

def init (access : Nat → Access) : WriteSys := ⟨.init access, 0, fun _ => none⟩

/-- The end of `vfs_write`, from the copy on. -/
def store (s : WriteSys) (f : Nat) (bytes : List UInt8) : WriteSys :=
  { s with toFileState := { s.setOffset f (u64 (s.off f + bytes.length)) with
      data := s.data.store (s.off f) bytes } }

/-- `vfs_write` up to `kalloc`: a status if the call has returned. -/
def enter (s : WriteSys) (t f : Nat) (bytes : List UInt8) (heap : Bool) (junk : Nat → UInt8) :
    Option Status × WriteSys :=
  if (s.file f).Denied then (some .accessDenied, s)
  else
    let need := u64 (s.off f + bytes.length)
    if need > s.data.cap then
      let ncap := s.data.grownCap need
      if kalloc ncap heap then
        (none, { s with pend := Function.update s.pend t (some ⟨f, bytes, ncap, junk⟩) })
      else (some .noMemory, s)
    else (some .success, s.store f bytes)

/-- `vfs_write` from the second `spin_lock` on. A buffer that is no longer needed is freed again. -/
def relock (s : WriteSys) (t : Nat) (p : PendingWrite) : WriteSys :=
  let s := { s with pend := Function.update s.pend t none }
  if u64 (s.off p.file + p.bytes.length) > s.data.cap then
    { s with data := s.data.moveTo p.ncap p.junk, len := p.ncap }.store p.file p.bytes
  else s.store p.file p.bytes

/-- A call during which no other thread runs. -/
def alone (s : WriteSys) (t f : Nat) (bytes : List UInt8) (heap : Bool) (junk : Nat → UInt8) :
    Status × WriteSys :=
  match s.enter t f bytes heap junk with
  | (some st, s') => (st, s')
  | (none, s') => (.success, (s'.pend t).elim s' (s'.relock t))

end WriteSys

/-- The pieces of the calls, by thread. -/
inductive WriteOp
  /-- `f->offset = off` of `NtWriteFile`. -/
  | seek (f off : Nat)
  | enter (t f : Nat) (bytes : List UInt8) (heap : Bool) (junk : Nat → UInt8)
  | relock (t : Nat)

variable (s : WriteSys)

/-- One piece; a thread is in one call at a time. -/
def writeStep : WriteOp → Option WriteSys
  | .seek f off => some { s with toFileState := s.setOffset f (u64 off) }
  | .enter t f bytes heap junk =>
    match s.pend t with
    | none => some (s.enter t f bytes heap junk).2
    | some _ => none
  | .relock t => (s.pend t).map (s.relock t)

/-! ## Staying in the buffer -/

/-- `s'` has the bytes of the file of `s`, but for the `n` from `off` on, which are in the buffer. -/
structure WriteSys.Stores (s s' : WriteSys) (off n : Nat) : Prop where
  upper : off + n ≤ s'.data.cap
  cap : s'.data.cap = s'.len
  size : s'.data.size ≤ s'.data.cap
  rest : ∀ i < s.data.size, i < off ∨ off + n ≤ i → s'.data.data i = s.data.data i

/-- A step of `vfs_write` stores its bytes in the buffer, or leaves the file as it is. -/
def WriteInside : WriteOp → Prop
  | .seek .. => True
  | .enter t f bytes heap junk =>
    let r := s.enter t f bytes heap junk
    if r.1 = some .success then s.Stores r.2 (s.off f) bytes.length
    else r.2.data = s.data ∧ r.2.len = s.len
  | .relock t => ∀ p, s.pend t = some p →
    s.Stores (s.relock t p) (s.off p.file) p.bytes.length

/-- A write that fits in the buffer by its 64-bit end does not wrap; one that comes back with a new
buffer ends in it, or in the buffer that the file has by then. -/
def WriteOk : WriteOp → Prop
  | .seek .. => True
  | .enter _ f bytes _ _ => ¬ (s.file f).Denied →
    u64 (s.off f + bytes.length) ≤ s.data.cap → s.off f + bytes.length < 2 ^ 64
  | .relock t => ∀ p, s.pend t = some p →
    s.off p.file + p.bytes.length ≤ max s.data.cap p.ncap

instance (s : WriteSys) : (a : WriteOp) → Decidable (WriteOk s a)
  | .seek .. => inferInstanceAs (Decidable True)
  | .enter .. => inferInstanceAs (Decidable (_ → _))
  | .relock t =>
    match h : s.pend t with
    | none => .isTrue fun _ hp => by rw [h] at hp; cases hp
    | some p => decidable_of_iff (s.off p.file + p.bytes.length ≤ max s.data.cap p.ncap)
      ⟨fun hle q hq => by rw [h] at hq; cases hq; exact hle, fun hall => hall p h⟩

/-! ## Appending -/

/-- The bytes of the file. -/
def FileData.contents (d : FileData) : List UInt8 := d.load 0 d.size

/-- The block of a call that enters and is not refused. -/
def WriteSys.block : WriteOp → List (List UInt8)
  | .enter t f bytes heap junk =>
    if (s.enter t f bytes heap junk).1 ∈ [none, some .success] then [bytes] else []
  | _ => []

/-- The blocks of the calls of a run, in the order in which they enter. -/
def WriteSys.blocks : WriteSys → List WriteOp → List (List UInt8)
  | _, [] => []
  | s, a :: ops => s.block a ++ (writeStep s a).elim [] fun s' => s'.blocks ops

/-- Appending calls lose nothing and stay in the buffer: when all have returned, their blocks stand
behind what the file had, each of them once. -/
structure WriteSys.AppendsAll (ops : List WriteOp) : Prop where
  bounds : Run.Always writeStep (fun s => s.data.size ≤ s.data.cap ∧ s.data.cap = s.len) s ops
  inside : Run.Legal writeStep WriteInside s ops
  contents : ∀ s', Run.run writeStep s ops = some s' → (∀ t, s'.pend t = none) →
    ∃ l : List (List UInt8), l.Perm (s.blocks ops) ∧
      s'.data.contents = s.data.contents ++ l.flatten

end Aegis
