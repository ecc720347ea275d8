import Aegis.Ob.Handle

/-!
# The file system calls (`ke/syscall.c`)

`NtCreateFile`, `NtReadFile`, `NtWriteFile` and `NtQueryDirectoryFile`, with the parts of `vfs_read`,
`vfs_write` and `vfs_readdir` that access the file object. What these do with the vnode, and what
`pipe_read` and `pipe_write` do with the ring, is a parameter (`Backend`).

A cast is no check: `file o` is the memory of the object `o` read at the offsets of a
`file_object_t`, whatever the object is. `touched` lists the accesses the calls make, latest first.
-/

namespace Aegis

def fileAppendData : Access := 0x0004#32

/-- `file_object_t`. -/
structure FileObject where
  vnode : Nat
  offset : Nat
  access : Access

/-- Its fields. -/
inductive FileField
  | vnode
  | offset
  | access
  deriving DecidableEq, Repr

/-- An access to the body of an object, as the body of a file or of a pipe. -/
inductive Touch
  | file (o : Nat) (field : FileField)
  | pipe (o : Nat)
  deriving DecidableEq, Repr

/-- The objects, and the state `σ` of the vnodes, devices and pipe rings. -/
structure IoState (σ : Type) where
  world : World
  file : Nat → FileObject
  store : σ
  touched : List Touch

/-- What happens behind a file object and in a pipe. A branch of the file functions that uses
`f->offset` returns the value it leaves there; reading and writing a pipe can wait for ever. -/
structure Backend (σ : Type) where
  read : σ → FileObject → Nat → Status × Option Nat × σ
  write : σ → FileObject → Nat → Status × Option Nat × σ
  readdir : σ → FileObject → Nat → Bool → Status × Option Nat × σ
  pipeRead : σ → Nat → Nat → Outcome (Status × σ)
  pipeWrite : σ → Nat → Nat → Outcome (Status × σ)

namespace IoState

variable {σ : Type}

variable (s : IoState σ)

def touch (t : Touch) : IoState σ := { s with touched := t :: s.touched }

def setOffset (o off : Nat) : IoState σ :=
  { s.touch (.file o .offset) with
    file := Function.update s.file o { s.file o with offset := off } }

/-- The vnode part of a file function, through `f->vnode`. -/
def throughVnode (o : Nat) (io : σ → FileObject → Status × Option Nat × σ) :
    Status × IoState σ :=
  let s := s.touch (.file o .vnode)
  match io s.store (s.file o) with
  | (st, none, d) => (st, { s with store := d })
  | (st, some off, d) => (st, { s.setOffset o off with store := d })

/-- A file function that checks `f->access` for one of `rights` first. `buf` says that the buffer
is not null. -/
def checked (o : Nat) (buf : Bool) (rights : List Access)
    (io : σ → FileObject → Status × Option Nat × σ) : Status × IoState σ :=
  if buf = false then (.invalidParameter, s)
  else
    let s := s.touch (.file o .access)
    if rights.all fun r => (s.file o).access &&& r == 0 then (.accessDenied, s)
    else s.throughVnode o io

def vfsRead (b : Backend σ) (s : IoState σ) (o : Nat) (buf : Bool) (n : Nat) :
    Status × IoState σ :=
  s.checked o buf [fileReadData, genericRead] fun d f => b.read d f n

def vfsWrite (b : Backend σ) (s : IoState σ) (o : Nat) (buf : Bool) (n : Nat) :
    Status × IoState σ :=
  s.checked o buf [fileWriteData, fileAppendData, genericWrite] fun d f => b.write d f n

/-- `vfs_readdir` makes no access check. -/
def vfsReaddir (b : Backend σ) (s : IoState σ) (o : Nat) (buf : Bool) (n : Nat) (restart : Bool) :
    Status × IoState σ :=
  if buf = false then (.invalidParameter, s)
  else s.throughVnode o fun d f => b.readdir d f n restart

/-- `ht_lookup` in the table of the caller. -/
def lookup (cur : Option Nat) (h : Handle) (required : Access)
    (expect : Option ObjKind) : Status × Option Nat × IoState σ :=
  match cur with
  | none => (.invalidParameter, none, s)
  | some p =>
    let r := s.world.htLookupEx p h required expect
    (r.1, r.2.1.map (·.1), { s with world := r.2.2 })

/-- The calls drop their reference. -/
def finish (o : Nat) (r : Status × IoState σ) : Outcome (Status × IoState σ) := do
  let w ← r.2.world.obDereference o
  return (r.1, { r.2 with world := w })

/-- `(u64)-1`: from the file's own offset. -/
def currentOffset : Nat := 2 ^ 64 - 1

def throughPipe (o : Nat) (io : σ → Outcome (Status × σ)) :
    Outcome (Status × IoState σ) := do
  let s := s.touch (.pipe o)
  let (st, d) ← io s.store
  return (st, { s with store := d })

/-- The body of `NtReadFile` and of `NtWriteFile` on the object that the handle names. -/
def transferOn (o off : Nat) (pipeIo : σ → Outcome (Status × σ))
    (fileIo : IoState σ → Status × IoState σ) : Outcome (Status × IoState σ) :=
  if (s.world.obj o).kind = .pipe then do
    let r ← s.throughPipe o pipeIo
    finish o r
  else
    let s := if off ≠ currentOffset then s.setOffset o off else s
    finish o (fileIo s)

/-- `NtReadFile` and `NtWriteFile` differ in the right, the pipe function and the file function. -/
def ntTransfer (right : Access) (pipeIo : Nat → σ → Outcome (Status × σ))
    (fileIo : Nat → IoState σ → Status × IoState σ) (s : IoState σ) (cur : Option Nat)
    (h : Handle) (off : Nat) : Outcome (Status × IoState σ) :=
  match s.lookup cur h right none with
  | (st, none, s) => .ok (st, s)
  | (_, some o, s) => s.transferOn o off (pipeIo o) (fileIo o)

/-- `NtReadFile`. -/
def ntReadFile (b : Backend σ) (s : IoState σ) (cur : Option Nat) (h : Handle) (buf : Bool)
    (n off : Nat) : Outcome (Status × IoState σ) :=
  s.ntTransfer fileReadData (fun o d => b.pipeRead d o n) (fun o s => vfsRead b s o buf n) cur h off

/-- `NtWriteFile`. -/
def ntWriteFile (b : Backend σ) (s : IoState σ) (cur : Option Nat) (h : Handle) (buf : Bool)
    (n off : Nat) : Outcome (Status × IoState σ) :=
  s.ntTransfer fileWriteData (fun o d => b.pipeWrite d o n) (fun o s => vfsWrite b s o buf n) cur h
    off

/-- `NtCreateFile` once `vfs_open` has pinned a vnode of the name. -/
def ntCreateFile (cur : Option Nat) (vnode : Nat) (name : Name) (access : Access)
    (heap : Bool) : Outcome (Status × Option Handle × IoState σ) := do
  match ← s.world.obCreate .file (some name) none heap with
  | (none, w) => return (.noMemory, none, { s with world := w })
  | (some o, w) =>
    let (st, out, w) := match cur with
      | none => (Status.invalidParameter, none, w)
      | some p => w.htInsert p o access
    let w ← w.obDereference o
    return (st, out, { s with world := w, file := Function.update s.file o ⟨vnode, 0, access⟩ })

/-- The two lookups of `NtQueryDirectoryFile`; the second asks for no right, but for a file. -/
def queryLookup (cur : Option Nat) (h : Handle) :
    Status × Option Nat × IoState σ :=
  match s.lookup cur h (fileReadData ||| directoryQuery) none with
  | (_, none, s) => s.lookup cur h 0 (some .file)
  | r => r

/-- `NtQueryDirectoryFile`. -/
def ntQueryDirectoryFile (b : Backend σ) (s : IoState σ) (cur : Option Nat) (h : Handle)
    (buf : Bool) (n : Nat) (restart : Bool) : Outcome (Status × IoState σ) :=
  match s.queryLookup cur h with
  | (st, none, s) => .ok (st, s)
  | (_, some o, s) => finish o (vfsReaddir b s o buf n restart)

end IoState

/-! ## What the calls may access -/

/-- The access is to an object of the kind it takes it for. -/
def Typed (w : World) : Touch → Prop
  | .file o _ => (w.obj o).kind = .file
  | .pipe o => (w.obj o).kind = .pipe

/-- The handle names `o` in the table of the current process, with the right. -/
def Names (w : World) (cur : Option Nat) (h : Handle) (right : Access) (o : Nat) : Prop :=
  ∃ p i, cur = some p ∧ (w.handles p).resolve h = some (i, o) ∧
    ((w.handles p).slots i).access &&& right = right

/-- The outcome `r` of a call with the handle `h`: every access was to an object of its kind, and
an object that is neither a file nor a pipe was refused and left alone. -/
structure NoConfusion {σ : Type} (s : IoState σ) (cur : Option Nat) (h : Handle)
    (r : Outcome (Status × IoState σ)) : Prop where
  typed : ∀ st s', r = .ok (st, s') → ∃ l, s'.touched = l ++ s.touched ∧ ∀ t ∈ l, Typed s.world t
  refused : ∀ o, Names s.world cur h 0 o → (s.world.obj o).kind ≠ .file →
    (s.world.obj o).kind ≠ .pipe → ∃ st s', r = .ok (st, s') ∧ ntSuccess st = false ∧
      s'.touched = s.touched ∧ s'.file = s.file

end Aegis
