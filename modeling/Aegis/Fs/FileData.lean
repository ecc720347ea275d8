import Aegis.Ke.FileCall
import Aegis.Lib.Run

/-!
# The contents of a regular file (`vfs_read`, `vfs_write`)

`FileData` is what a vnode of kind `VNODE_FILE` has: its size and its buffer. The bytes of a fresh
buffer are whatever `kalloc` finds there (`junk`). `FileState` is one such vnode with the File objects
that are open on it; `FileSys` records the successful writes beside it, for the statement.
-/

namespace Aegis

/-- `v->size`, `v->cap` and the bytes behind `v->data`. -/
structure FileData where
  size : Nat
  cap : Nat
  data : Nat → UInt8

namespace FileData

/-- A file that has just been created. -/
def empty : FileData := ⟨0, 0, fun _ => 0⟩

/-- The length of the buffer that `vfs_write` allocates for `need` bytes. -/
def grownCap (d : FileData) (need : Nat) : Nat :=
  pageAlignUp (max need (if d.cap ≠ 0 then u64 (d.cap * 2) else 256))

/-- The buffer of `vfs_write` before it copies: the old one if the bytes fit, else a new one with
the contents of the file. -/
def grow (d : FileData) (need : Nat) (heap : Bool) (junk : Nat → UInt8) : Option FileData :=
  if need > d.cap then
    if heap then
      some { d with
        cap := d.grownCap need
        data := fun i => if i < d.size then d.data i else junk i }
    else none
  else some d

/-- `memcpy(v->data + off, buf, n)` and the new size; the address `v->data + off` does not wrap. -/
def store (d : FileData) (off : Nat) (bytes : List UInt8) : FileData :=
  { d with
    size := if u64 (off + bytes.length) > d.size then u64 (off + bytes.length) else d.size
    data := fun i => if off ≤ i then (bytes[i - off]?).getD (d.data i) else d.data i }

/-- `memcpy(buf, v->data + off, n)`. -/
def load (d : FileData) (off n : Nat) : List UInt8 := (List.range n).map fun k => d.data (off + k)

end FileData

/-- What a transfer reads of a File object. -/
structure OpenFile where
  offset : Nat
  access : Access

/-- No right of `f` allows a write. -/
def OpenFile.Denied (f : OpenFile) : Prop :=
  f.access &&& fileWriteData = 0 ∧ f.access &&& fileAppendData = 0 ∧ f.access &&& genericWrite = 0
  deriving Decidable

/-- Where a write goes: behind the file if `f` appends. -/
def FileData.writeOff (d : FileData) (f : OpenFile) : Nat :=
  if f.access &&& fileAppendData ≠ 0 then d.size else f.offset

/-- `vfs_read` on a regular file: the status, the bytes, and the offset. -/
def FileData.vfsRead (d : FileData) (f : OpenFile) (n : Nat) : Status × List UInt8 × Nat :=
  if f.access &&& fileReadData = 0 ∧ f.access &&& genericRead = 0 then
    (.accessDenied, [], f.offset)
  else if f.offset ≥ d.size then (.endOfFile, [], f.offset)
  else
    let nread := min n (d.size - f.offset)
    (.success, d.load f.offset nread, u64 (f.offset + nread))

/-- `vfs_write` on a regular file: the status, the contents, and the offset. -/
def FileData.vfsWrite (d : FileData) (f : OpenFile) (bytes : List UInt8) (heap : Bool)
    (junk : Nat → UInt8) : Status × FileData × Nat :=
  if f.Denied then (.accessDenied, d, f.offset)
  else
    let off := d.writeOff f
    match d.grow (u64 (off + bytes.length)) heap junk with
    | none => (.noMemory, d, f.offset)
    | some d => (.success, d.store off bytes, u64 (off + bytes.length))

/-! ## Runs -/

/-- A regular file with the File objects that are open on it. -/
structure FileState where
  data : FileData
  file : Nat → OpenFile

namespace FileState

/-- A new file, and File objects with any access. -/
def init (access : Nat → Access) : FileState := ⟨.empty, fun f => ⟨0, access f⟩⟩

/-- `f->offset = off`. -/
def setOffset (s : FileState) (f off : Nat) : FileState :=
  { s with file := Function.update s.file f { s.file f with offset := off } }

/-- Where a write through `f` goes. -/
def off (s : FileState) (f : Nat) : Nat := s.data.writeOff (s.file f)

/-- `vfs_write` through `f`. -/
def write (s : FileState) (f : Nat) (bytes : List UInt8) (heap : Bool) (junk : Nat → UInt8) :
    Status × FileState :=
  let r := s.data.vfsWrite (s.file f) bytes heap junk
  (r.1, { s.setOffset f r.2.2 with data := r.2.1 })

end FileState

/-- A file with its successful writes. -/
structure FileSys extends FileState where
  written : List (Nat × List UInt8)

namespace FileSys

def init (access : Nat → Access) : FileSys := ⟨.init access, []⟩

/-- `vfs_read` through `f`. -/
def read (s : FileSys) (f n : Nat) : Status × List UInt8 × FileSys :=
  let r := s.data.vfsRead (s.file f) n
  (r.1, r.2.1, { s with toFileState := s.setOffset f r.2.2 })

/-- `vfs_write` through `f`, with its record. -/
def write (s : FileSys) (f : Nat) (bytes : List UInt8) (heap : Bool) (junk : Nat → UInt8) :
    Status × FileSys :=
  let r := s.toFileState.write f bytes heap junk
  (r.1, ⟨r.2, if r.1 = .success then s.written ++ [((s.file f).offset, bytes)] else s.written⟩)

end FileSys

/-- The calls on the file, with what `kalloc` does. -/
inductive FileOp
  | read (f n : Nat)
  | write (f : Nat) (bytes : List UInt8) (heap : Bool) (junk : Nat → UInt8)
  /-- `f->offset = off` of `NtReadFile` and `NtWriteFile`. -/
  | seek (f off : Nat)

/-- One call. -/
def fileStep (s : FileSys) : FileOp → Option FileSys
  | .read f n => some (s.read f n).2.2
  | .write f bytes heap junk => some (s.write f bytes heap junk).2
  | .seek f off => some { s with toFileState := s.setOffset f off }

/-- No File object appends, and the ends of the transfers are below 2⁶³. -/
def FileOk (s : FileSys) : FileOp → Prop
  | .read f n => (s.file f).offset + n < 2 ^ 63
  | .write f bytes _ _ =>
    (s.file f).access &&& fileAppendData = 0 ∧ (s.file f).offset + bytes.length < 2 ^ 63
  | .seek _ off => off < 2 ^ 63

instance (s : FileSys) (a : FileOp) : Decidable (FileOk s a) := by
  cases a <;> dsimp only [FileOk] <;> infer_instance

/-! ## What the file is -/

/-- The largest end of a write. -/
def endOf (l : List (Nat × List UInt8)) : Nat := l.foldl (fun m x => max m (x.1 + x.2.length)) 0

/-- The byte that the last write covering `i` put there. -/
def lastWritten (l : List (Nat × List UInt8)) (i : Nat) : Option UInt8 :=
  l.foldl (fun o x => if x.1 ≤ i then (x.2[i - x.1]?).or o else o) none

/-- What `vfs_read` of `n` bytes through `f` does. -/
structure FileSys.ReadsBack (s : FileSys) (f n : Nat) : Prop where
  denied : (s.file f).access &&& fileReadData = 0 → (s.file f).access &&& genericRead = 0 →
    s.read f n = (.accessDenied, [], s)
  eof : ¬ ((s.file f).access &&& fileReadData = 0 ∧ (s.file f).access &&& genericRead = 0) →
    endOf s.written ≤ (s.file f).offset → s.read f n = (.endOfFile, [], s)
  ok : ¬ ((s.file f).access &&& fileReadData = 0 ∧ (s.file f).access &&& genericRead = 0) →
    (s.file f).offset < endOf s.written → ∃ bytes,
      bytes.length = min n (endOf s.written - (s.file f).offset) ∧
      s.read f n = (.success, bytes,
        { s with toFileState := s.setOffset f ((s.file f).offset + bytes.length) }) ∧
      ∀ k (hk : k < bytes.length), ∀ b,
        lastWritten s.written ((s.file f).offset + k) = some b → bytes[k] = b

/-- What `vfs_write` through `f` does: on success it is recorded and moves the offset of `f`, and a
failed one does nothing. -/
structure FileSys.Writes (s : FileSys) (f : Nat) (bytes : List UInt8) (heap : Bool)
    (junk : Nat → UInt8) : Prop where
  fails : (s.write f bytes heap junk).1 ≠ .success → (s.write f bytes heap junk).2 = s
  succeeds : (s.write f bytes heap junk).1 = .success →
    (s.write f bytes heap junk).2.file =
      (s.setOffset f ((s.file f).offset + bytes.length)).file ∧
    (s.write f bytes heap junk).2.written = s.written ++ [((s.file f).offset, bytes)]

end Aegis
