import Aegis.Fs.FileData
import Aegis.Fs.Path
import Aegis.Lib.Count

/-!
# The file system (`fs/vfs.c`), one call at a time

Vnodes and File objects are numbered in the order of their creation; vnode 0 is the root. A vnode
that `vn_release` has freed keeps its number, and `frees` counts how often it was freed. An intrusive
list of children is the list of their numbers.

The answers of devices are arguments of the calls that ask them.
-/

namespace Aegis

/-- `VNODE_FILE` and the others. -/
inductive VnodeKind
  | file
  | dir
  | char
  | block
  deriving DecidableEq, Repr

/-- `vnode_t`, and how often it has been freed. -/
structure Vnode where
  kind : VnodeKind
  name : Name
  parent : Option Nat
  children : List Nat
  ref : Nat
  content : FileData
  frees : Nat

/-- `file_object_t`. -/
structure FileObj where
  vnode : Option Nat
  toOpenFile : OpenFile

/-- The vnodes and the File objects. -/
structure Vfs where
  nvnode : Nat
  vnode : Nat → Vnode
  nfile : Nat
  file : Nat → FileObj

def fileOpen : BitVec 32 := 1
def fileCreate : BitVec 32 := 2
def fileDirectoryFile : BitVec 32 := 0x00000001
def fileNonDirectoryFile : BitVec 32 := 0x00000040

namespace Vfs

variable (s : Vfs)

def modVnode (v : Nat) (f : Vnode → Vnode) : Vfs :=
  { s with vnode := Function.update s.vnode v (f (s.vnode v)) }

def setFile (f : Nat) (x : FileObj) : Vfs :=
  { s with file := Function.update s.file f x }

/-! ## Vnodes -/

def newVnode (name : Name) (kind : VnodeKind) : Vnode :=
  ⟨kind, name.take (nameMax - 1), none, [], 1, .empty, 0⟩

/-- `vn_alloc`. -/
def vnAlloc (name : Name) (kind : VnodeKind) : Vfs :=
  { s with nvnode := s.nvnode + 1, vnode := Function.update s.vnode s.nvnode (newVnode name kind) }

/-- `vn_attach`. -/
def vnAttach (parent child : Nat) : Vfs :=
  (s.modVnode child fun x => { x with parent := some parent }).modVnode parent fun x =>
    { x with children := x.children ++ [child] }

/-- `vn_child`. -/
def vnChild (dir : Nat) (name : Name) : Option Nat :=
  (s.vnode dir).children.find? fun c => (s.vnode c).name = name

/-- `kfree` of a vnode. -/
def freeVnode (v : Nat) : Vfs := s.modVnode v fun x => { x with frees := x.frees + 1 }

/-- `v->ref++`. -/
def pin (v : Nat) : Vfs := s.modVnode v fun x => { x with ref := x.ref + 1 }

/-- `vn_release`: the last reference to a vnode without a name frees it. -/
def vnRelease (v : Nat) : Outcome Vfs :=
  let old := (s.vnode v).ref
  let s := s.modVnode v fun x => { x with ref := x.ref - 1 }
  if old = 0 then .panic "vnode ref underflow"
  else if old ≠ 1 then .ok s
  else .ok ((s.modVnode v fun x => { x with content := .empty }).freeVnode v)

/-! ## Walking -/

/-- What `walk` hands back. -/
structure Walked where
  parent : Nat
  leaf : Option Nat
  name : Name
  deriving DecidableEq

/-- The loop of `walk`, at most `k` rounds; every round takes a byte off the path. -/
def walkLoop (s : Vfs) (lastMustExist : Bool) : Nat → Nat → Name → Outcome (Status × Option Walked)
  | 0, _, _ => .diverge
  | k + 1, cur, p =>
    let c := nextComponent p
    let next := s.vnChild cur c.1
    if c.2.2 = [] ∧ c.2.1 = false then
      if next = none ∧ lastMustExist then .ok (.noSuchFile, none)
      else .ok (.success, some ⟨cur, next, c.1⟩)
    else
      match next with
      | none => .ok (.objectPathNotFound, none)
      | some n =>
        if (s.vnode n).kind ≠ .dir then .ok (.objectPathNotFound, none)
        else if skipSlashes c.2.2 = [] then .ok (.success, some ⟨cur, some n, []⟩)
        else walkLoop s lastMustExist k n (skipSlashes c.2.2)

/-- `walk`, from the root. -/
def walk (abs : Name) (lastMustExist : Bool) : Outcome (Status × Option Walked) :=
  match abs with
  | [] => .ok (.objectNameInvalid, none)
  | c :: p =>
    if c ≠ slash then .ok (.objectNameInvalid, none)
    else if p = [] then .ok (.success, some ⟨0, some 0, []⟩)
    else s.walkLoop lastMustExist p.length 0 p

/-! ## Calls -/

/-- `vfs_mkdir`. -/
def vfsMkdir (cwd path : Name) (heap : Bool) : Outcome (Status × Vfs) :=
  match pathNorm cwd path with
  | none => .ok (.nameTooLong, s)
  | some abs => do
    let r ← s.walk abs false
    match r.2 with
    | none => return (r.1, s)
    | some w =>
      if w.leaf ≠ none then return (.objectNameCollision, s)
      else if w.name = [] then return (.invalidParameter, s)
      else if heap = false then return (.noMemory, s)
      else
        let d := s.nvnode
        let s := s.vnAlloc w.name .dir
        if s.vnChild w.parent w.name ≠ none then return (.objectNameCollision, s.freeVnode d)
        else return (.success, s.vnAttach w.parent d)

/-- `fo_from_pinned`: a new File object, or the pin goes. -/
def foFromPinned (v : Nat) (access : Access) (fileHeap : Bool) :
    Outcome (Status × Option Nat × Vfs) :=
  if fileHeap = false then do
    let s ← s.vnRelease v
    return (.noMemory, none, s)
  else
    .ok (.success, some s.nfile,
      { s.setFile s.nfile ⟨some v, 0, access⟩ with nfile := s.nfile + 1 })

/-- The path of `vfs_open` on which it creates the vnode, or finds it made meanwhile. -/
def openNew (w : Walked) (access : Access) (opts : BitVec 32) (heap fileHeap : Bool) :
    Outcome (Status × Option Nat × Vfs) :=
  if w.name = [] then .ok (.invalidParameter, none, s)
  else if heap = false then .ok (.noMemory, none, s)
  else
    let nv := s.nvnode
    let s := s.vnAlloc w.name (if opts &&& fileDirectoryFile ≠ 0 then .dir else .file)
    match s.vnChild w.parent w.name with
    | some race => ((s.pin race).freeVnode nv).foFromPinned race access fileHeap
    | none => ((s.vnAttach w.parent nv).pin nv).foFromPinned nv access fileHeap

/-- The path of `vfs_open` for a vnode that exists: it is still there, and is pinned. -/
def openOld (v : Nat) (access : Access) (fileHeap : Bool) :
    Outcome (Status × Option Nat × Vfs) :=
  if v ≠ 0 ∧ ((s.vnode v).parent.bind fun d => s.vnChild d (s.vnode v).name) ≠ some v then
    .ok (.noSuchFile, none, s)
  else (s.pin v).foFromPinned v access fileHeap

/-- `vfs_open` behind its `walk`. -/
def openWalked (w : Walked) (access : Access) (disp opts : BitVec 32)
    (heap fileHeap : Bool) : Outcome (Status × Option Nat × Vfs) :=
  match w.leaf with
  | none =>
    if disp = fileOpen then .ok (.noSuchFile, none, s)
    else s.openNew w access opts heap fileHeap
  | some v =>
    if (s.vnode v).kind = .dir ∧ opts &&& fileNonDirectoryFile ≠ 0 then
      .ok (.fileIsADirectory, none, s)
    else if (s.vnode v).kind ≠ .dir ∧ opts &&& fileDirectoryFile ≠ 0 then
      .ok (.notADirectory, none, s)
    else if disp = fileCreate then .ok (.objectNameCollision, none, s)
    else s.openOld v access fileHeap

/-- A disposition other than `FILE_OPEN` goes on after a `walk` that has failed, with vnodes that
nobody has set. -/
def vfsOpen (cwd path : Name) (access : Access) (disp opts : BitVec 32)
    (heap fileHeap : Bool) : Outcome (Status × Option Nat × Vfs) :=
  match pathNorm cwd path with
  | none => .ok (.nameTooLong, none, s)
  | some abs => do
    let r ← s.walk abs (disp = fileOpen)
    match r.2 with
    | none => if disp = fileOpen then return (r.1, none, s) else .fault
    | some w => s.openWalked w access disp opts heap fileHeap

/-- `list_remove(&v->sibling)` and `v->parent = NULL`. -/
def detach (parent v : Nat) : Vfs :=
  (s.modVnode parent fun x => { x with children := x.children.filter (· ≠ v) }).modVnode v
    fun x => { x with parent := none }

/-- `vfs_unlink` behind its `walk`. -/
def unlinkWalked (w : Walked) (v : Nat) : Outcome (Status × Vfs) :=
  if v = 0 then .ok (.accessDenied, s)
  else if (s.vnode v).kind = .char ∨ (s.vnode v).kind = .block then .ok (.accessDenied, s)
  else if s.vnChild w.parent w.name ≠ some v then .ok (.noSuchFile, s)
  else if (s.vnode v).kind = .dir ∧ (s.vnode v).children ≠ [] then .ok (.cannotDelete, s)
  else do
    let s ← (s.detach w.parent v).vnRelease v
    return (.success, s)

/-- `vfs_unlink`. -/
def vfsUnlink (cwd path : Name) : Outcome (Status × Vfs) :=
  match pathNorm cwd path with
  | none => .ok (.nameTooLong, s)
  | some abs =>
    if abs = [slash] then .ok (.accessDenied, s)
    else do
      let r ← s.walk abs true
      match r.2.bind fun w => w.leaf.map fun v => (w, v) with
      | none => return (.noSuchFile, s)
      | some (w, v) => s.unlinkWalked w v

/-- `vfs_file_delete`. -/
def vfsFileDelete (f : Nat) : Outcome Vfs :=
  match (s.file f).vnode with
  | none => .ok s
  | some v => (s.setFile f { s.file f with vnode := none }).vnRelease v

def setOffset (f off : Nat) : Vfs :=
  s.setFile f { s.file f with toOpenFile := { (s.file f).toOpenFile with offset := off } }

/-- `vfs_read`. A device transfers `io.2` bytes and answers `io.1`. -/
def vfsRead (f n : Nat) (io : Status × Nat) : Outcome (Status × List UInt8 × Vfs) :=
  match (s.file f).vnode with
  | none => .fault
  | some v =>
    let x := (s.file f).toOpenFile
    if x.access &&& fileReadData = 0 ∧ x.access &&& genericRead = 0 then .ok (.accessDenied, [], s)
    else
      match (s.vnode v).kind with
      | .char => .ok (if io.2 ≠ 0 then .success else .endOfFile, [], s)
      | .block => .ok (io.1, [], s.setOffset f (u64 (x.offset + io.2)))
      | .dir => .ok (.invalidParameter, [], s)
      | .file =>
        let r := (s.vnode v).content.vfsRead x n
        .ok (r.1, r.2.1, s.setOffset f r.2.2)

/-- `vfs_write`. -/
def vfsWrite (f : Nat) (bytes : List UInt8) (heap : Bool) (junk : Nat → UInt8)
    (io : Status × Nat) : Outcome (Status × Vfs) :=
  match (s.file f).vnode with
  | none => .fault
  | some v =>
    let x := (s.file f).toOpenFile
    if x.Denied then .ok (.accessDenied, s)
    else
      match (s.vnode v).kind with
      | .char => .ok (.success, s)
      | .block => .ok (io.1, s.setOffset f (u64 (x.offset + io.2)))
      | .dir => .ok (.fileIsADirectory, s)
      | .file =>
        let r := (s.vnode v).content.vfsWrite x bytes heap junk
        .ok (r.1, (s.modVnode v fun y => { y with content := r.2.1 }).setOffset f r.2.2)

def newline : UInt8 := 10

/-- The loop of `vfs_readdir` over the names of the entries. -/
def readdirLoop (cap : Nat) : List Name → Nat → Name → Nat → Name × Nat
  | [], _, buf, off => (buf, off)
  | c :: cs, idx, buf, off =>
    if idx < off then readdirLoop cap cs (idx + 1) buf off
    else if buf.length + (c.length + 2) ≥ cap then (buf, off)
    else
      readdirLoop cap cs (idx + 1) ((if buf ≠ [] then buf ++ [newline] else buf) ++ c) (off + 1)

/-- `vfs_readdir`. -/
def vfsReaddir (f cap : Nat) (restart : Bool) : Outcome (Status × Name × Vfs) :=
  match (s.file f).vnode with
  | none => .fault
  | some v =>
    if (s.vnode v).kind ≠ .dir then .ok (.notADirectory, [], s)
    else
      let off := if restart then 0 else (s.file f).toOpenFile.offset
      let r := readdirLoop cap ((s.vnode v).children.map fun c => (s.vnode c).name) 0 [] off
      .ok (if r.1 ≠ [] then .success else .endOfFile, r.1, s.setOffset f r.2)

def init : Vfs :=
  ⟨1, fun _ => newVnode [] .dir, 0, fun _ => ⟨none, 0, 0⟩⟩

end Vfs

/-! ## Steps -/

/-- The calls of a run. -/
inductive VfsOp
  | mkdir (cwd path : Name) (heap : Bool)
  | open (cwd path : Name) (access : Access) (disp opts : BitVec 32) (heap fileHeap : Bool)
  | unlink (cwd path : Name)
  | read (f n : Nat) (io : Status × Nat)
  | write (f : Nat) (bytes : List UInt8) (heap : Bool) (junk : Nat → UInt8) (io : Status × Nat)
  /-- `f->offset = off` of `NtReadFile` and `NtWriteFile`. -/
  | seek (f off : Nat)
  /-- The File object is deleted. -/
  | delete (f : Nat)
  /-- The device nodes of `vfs_seed_initrd`. -/
  | seed (dir : Nat) (name : Name) (kind : VnodeKind)

/-- One call; none where the kernel stops. -/
def vfsStep (s : Vfs) : VfsOp → Option Vfs
  | .mkdir cwd path heap => (s.vfsMkdir cwd path heap).get?.map (·.2)
  | .open cwd path access disp opts heap fileHeap =>
    (s.vfsOpen cwd path access disp opts heap fileHeap).get?.map (·.2.2)
  | .unlink cwd path => (s.vfsUnlink cwd path).get?.map (·.2)
  | .read f n io => (s.vfsRead f n io).get?.map (·.2.2)
  | .write f bytes heap junk io => (s.vfsWrite f bytes heap junk io).get?.map (·.2)
  | .seek f off => some (s.setOffset f off)
  | .delete f => (s.vfsFileDelete f).get?
  | .seed dir name kind => some ((s.vnAlloc name kind).vnAttach dir s.nvnode)

namespace Vfs

/-- The vnode has a name: it is the root, or in a directory. -/
def Attached (s : Vfs) (v : Nat) : Prop := v = 0 ∨ (s.vnode v).parent ≠ none
  deriving Decidable

/-- The vnode that a path leads to. -/
def resolve (s : Vfs) (cwd path : Name) : Option Nat := do
  let abs ← pathNorm cwd path
  let r ← (s.walk abs true).get?
  let w ← r.2
  w.leaf

end Vfs

/-- The callers: a disposition other than `FILE_OPEN` is for a path whose parent resolves, reads and
writes are through live File objects, each of which is deleted once. Devices are put into a directory
that has no entry of the name. -/
def VfsOk (s : Vfs) : VfsOp → Prop
  | .open cwd path _ disp _ _ _ => disp ≠ fileOpen →
    ∀ abs ∈ pathNorm cwd path, ∀ r ∈ (s.walk abs false).get?, r.2.isSome = true
  | .read f _ _ | .write f _ _ _ _ | .seek f _ | .delete f =>
    f < s.nfile ∧ (s.file f).vnode.isSome = true
  | .seed dir name kind =>
    s.Attached dir ∧ dir < s.nvnode ∧ (s.vnode dir).kind = .dir ∧ s.vnChild dir name = none ∧
      name ≠ [] ∧ name.length < nameMax ∧ kind ≠ .dir
  | _ => True

instance (s : Vfs) (a : VfsOp) : Decidable (VfsOk s a) := by
  cases a <;> dsimp only [VfsOk] <;> infer_instance

/-! ## What the file system is -/

namespace Vfs

/-- The vnodes below the root. -/
inductive InTree (s : Vfs) : Nat → Prop
  | root : InTree s 0
  | child {d c : Nat} : InTree s d → c ∈ (s.vnode d).children → InTree s c

/-- The children lists and parent pointers describe a tree of directories. -/
structure Tree (s : Vfs) : Prop where
  rooted : ∀ v < s.nvnode, s.Attached v ↔ s.InTree v
  root : (s.vnode 0).parent = none
  parent : ∀ d < s.nvnode, ∀ c < s.nvnode, (s.vnode c).parent = some d ↔ c ∈ (s.vnode d).children
  once : ∀ d < s.nvnode, (s.vnode d).children.Nodup
  unique : ∀ d < s.nvnode, ∀ c ∈ (s.vnode d).children, ∀ c' ∈ (s.vnode d).children,
    (s.vnode c).name = (s.vnode c').name → c = c'
  names : ∀ d < s.nvnode, ∀ c ∈ (s.vnode d).children,
    (s.vnode c).name ≠ [] ∧ (s.vnode c).name.length < nameMax
  dirs : ∀ d < s.nvnode, (s.vnode d).children ≠ [] → (s.vnode d).kind = .dir

/-- What refers to a vnode: its name, and the File objects that are open on it. -/
def holds (s : Vfs) (v : Nat) : Nat :=
  (if s.Attached v then 1 else 0) + Count.count (Finset.range s.nfile) (fun f => (s.file f).vnode) v

/-- The references are counted, and a vnode is freed when there are none, once. -/
def Counted (s : Vfs) : Prop :=
  ∀ v < s.nvnode, (s.vnode v).ref = s.holds v ∧
    (s.vnode v).frees = if s.holds v = 0 then 1 else 0

/-- The contents of `v` after a step: only a write through a File object on it changes them. -/
def contentBy (s : Vfs) (v : Nat) : VfsOp → FileData
  | .write f bytes heap junk _ =>
    if (s.file f).vnode = some v ∧ (s.vnode v).kind = .file then
      ((s.vnode v).content.vfsWrite (s.file f).toOpenFile bytes heap junk).2.1
    else (s.vnode v).content
  | _ => (s.vnode v).content

/-- The File object `f` goes on with the vnode `v`, which no path leads to any more. -/
structure KeepsOpen (s : Vfs) (f v : Nat) : Prop where
  vnode : (s.file f).vnode = some v
  live : (s.vnode v).frees = 0
  unresolved : ∀ cwd path, s.resolve cwd path ≠ some v
  reads : (s.vnode v).kind = .file → ∀ n io, ∃ s', s.vfsRead f n io =
    .ok (((s.vnode v).content.vfsRead (s.file f).toOpenFile n).1,
      ((s.vnode v).content.vfsRead (s.file f).toOpenFile n).2.1, s')
  content : ∀ a s', VfsOk s a → vfsStep s a = some s' → a ≠ .delete f →
    (s'.vnode v).content = s.contentBy v a

end Vfs

end Aegis
