import Aegis.Fs.Vfs

/-!
# The file system under several threads (`fs/vfs.c`)

A call is cut into the pieces between which another thread may run: every access to a vnode outside
`g_vfs_lock` is a piece of its own, and what is done under the lock is one. `VfsPhase` says where a call
is and which vnodes its local variables point to.

`faults` records, for the statement, the accesses to vnodes that have been freed. A walk that fails
leaves `parent` and `v` of `vfs_open` unset; a call that goes on with them is `wild`.
-/

namespace Aegis

/-- A call, with the arguments that it uses after the walk. -/
inductive VfsCall
  | mkdir
  | open (access : Access) (disp opts : BitVec 32)
  | stat
  | unlink
  deriving DecidableEq

/-- What a call in progress does next. -/
inductive VfsPhase
  | idle
  /-- `dir->children.next` in `cur`, for the first component of `p`. -/
  | look (c : VfsCall) (cur : Nat) (p : Name)
  /-- `strcmp(e->name, comp)`, at byte `k`. -/
  | cmp (c : VfsCall) (cur : Nat) (p : Name) (e k : Nat)
  /-- `e->sibling.next`. -/
  | next (c : VfsCall) (cur : Nat) (p : Name) (e : Nat)
  /-- `next->kind` in `walk`. -/
  | kind (c : VfsCall) (cur : Nat) (p : Name) (n : Nat)
  /-- `v->kind` behind the walk, which `vfs_open` and `vfs_unlink` read twice. -/
  | kind1 (c : VfsCall) (w : Vfs.Walked) (v : Nat)
  | kind2 (c : VfsCall) (w : Vfs.Walked) (v : Nat)
  /-- `vn_alloc`. -/
  | alloc (c : VfsCall) (w : Vfs.Walked)
  /-- `spin_lock`, to attach the new vnode `nv`. -/
  | lockNew (c : VfsCall) (w : Vfs.Walked) (nv : Nat)
  /-- `spin_lock`, to pin `v`. -/
  | lockOld (access : Access) (v : Nat)
  /-- `spin_lock`, to remove `v`. -/
  | remove (w : Vfs.Walked) (v : Nat)
  /-- `kfree(nv)`, before going on with the vnode that was there. -/
  | kfree (nv : Nat) (race : Option (Nat × Access))
  /-- `fo_from_pinned`. -/
  | pinned (v : Nat) (access : Access)
  /-- `vn_release`: the count. -/
  | release (v : Nat)
  /-- `vn_release`: the last reference has gone. -/
  | free (v : Nat)
  | wild
  deriving DecidableEq

/-- What follows `kfree(nv)`. -/
def VfsPhase.behindRace : Option (Nat × Access) → VfsPhase
  | some (v, access) => .pinned v access
  | none => .idle

/-- What a call does to a vnode it must not use. -/
inductive VfsFault
  /-- A field of a freed vnode is read or written. -/
  | touched (v : Nat)
  /-- A child is attached to a directory that is freed or has no name. -/
  | attachedTo (d : Nat)
  /-- A freed vnode is pinned. -/
  | pinnedFreed (v : Nat)
  /-- Vnodes are used that nobody has set. -/
  | unset
  deriving DecidableEq

/-- Threads inside the calls of one file system. -/
structure Race where
  nthread : Nat
  fs : Vfs
  phase : Nat → VfsPhase
  faults : List VfsFault

/-! ## Between two accesses -/

/-- The path ends behind its first component. -/
def LastComponent (p : Name) : Prop := (nextComponent p).2.2 = [] ∧ (nextComponent p).2.1 = false
  deriving Decidable

namespace VfsCall

def lastMustExist : VfsCall → Bool
  | .mkdir => false
  | .open _ disp _ => disp = fileOpen
  | .stat | .unlink => true

/-- `walk` has returned: what the call does up to its next access. -/
def walked : VfsCall → Option Vfs.Walked → VfsPhase
  | .open _ disp _, none => if disp = fileOpen then .idle else .wild
  | _, none => .idle
  | .mkdir, some w =>
    if w.leaf ≠ none then .idle else if w.name = [] then .idle else .alloc .mkdir w
  | .open access disp opts, some w =>
    match w.leaf with
    | some v => .kind1 (.open access disp opts) w v
    | none =>
      if disp = fileOpen then .idle
      else if w.name = [] then .idle
      else .alloc (.open access disp opts) w
  | .stat, some _ => .idle
  | .unlink, some w =>
    match w.leaf with
    | none => .idle
    | some v => if v = 0 then .idle else .kind1 .unlink w v

/-- `vn_child` of `walk` has returned. -/
def looked (c : VfsCall) (cur : Nat) (p : Name) (next : Option Nat) : VfsPhase :=
  if LastComponent p then
    if next = none ∧ c.lastMustExist then c.walked none
    else c.walked (some ⟨cur, next, (nextComponent p).1⟩)
  else
    match next with
    | none => c.walked none
    | some n => .kind c cur p n

/-- The start of a call: `path_norm`, and `walk` up to its first access. -/
def begin (c : VfsCall) (cwd path : Name) : VfsPhase :=
  match pathNorm cwd path with
  | none => .idle
  | some abs =>
    if c = .unlink ∧ abs = [slash] then .idle
    else
      match abs with
      | [] => c.walked none
      | a :: p =>
        if a ≠ slash then c.walked none
        else if p = [] then c.walked (some ⟨0, some 0, []⟩)
        else .look c 0 p

/-- The kind of the vnode that the call makes. -/
def newKind : VfsCall → VnodeKind
  | .open _ _ opts => if opts &&& fileDirectoryFile ≠ 0 then .dir else .file
  | _ => .dir

end VfsCall

/-! ## Siblings -/

namespace Vfs

/-- `e->sibling.next`; `none` is the head of the list. A vnode in no list is linked to itself. -/
def nextSibling (s : Vfs) (e : Nat) : Option Nat :=
  match (s.vnode e).parent with
  | none => some e
  | some d => ((s.vnode d).children.dropWhile (· ≠ e)).tail.head?

def prevSibling (s : Vfs) (e : Nat) : Option Nat :=
  match (s.vnode e).parent with
  | none => some e
  | some d => ((s.vnode d).children.reverse.dropWhile (· ≠ e)).tail.head?

/-- The vnodes that `vn_child` reads. -/
def childReads (s : Vfs) (d : Nat) (name : Name) : List Nat :=
  d :: (s.vnode d).children.takeWhile (fun c => (s.vnode c).name ≠ name) ++ (s.vnChild d name).toList

end Vfs

/-! ## Accesses -/

namespace Race

variable (s : Race)

def Freed (v : Nat) : Prop := (s.fs.vnode v).frees ≠ 0
  deriving Decidable

def fault (l : List VfsFault) : Race := { s with faults := s.faults ++ l }

/-- Fields of these vnodes are read or written. -/
def touch (vs : List Nat) : Race := s.fault ((vs.filter fun v => s.Freed v).map .touched)

def goes (t : Nat) (p : VfsPhase) : Race := { s with phase := Function.update s.phase t p }

def setFs (fs : Vfs) : Race := { s with fs }

def pin (v : Nat) : Race :=
  ((s.touch [v]).fault (if s.Freed v then [.pinnedFreed v] else [])).setFs (s.fs.pin v)

/-- `vn_attach`, which writes the last child of the list too. -/
def attach (d nv : Nat) : Race :=
  ((s.touch (d :: nv :: (s.fs.vnode d).children.getLast?.toList)).fault
    (if s.Freed d ∨ ¬ s.fs.Attached d then [.attachedTo d] else [])).setFs (s.fs.vnAttach d nv)

/-- The part of a call behind its walk. -/
def goesOn (t : Nat) : VfsPhase → Race
  | .wild => (s.fault [.unset]).goes t .wild
  | p => s.goes t p

/-! ## Under the lock -/

/-- `vfs_mkdir` and `vfs_open` with the new vnode `nv`. -/
def attachNew (t : Nat) (c : VfsCall) (w : Vfs.Walked) (nv : Nat) : Race :=
  let s := s.touch (s.fs.childReads w.parent w.name)
  match s.fs.vnChild w.parent w.name, c with
  | some race, .open access _ _ => (s.pin race).goes t (.kfree nv (some (race, access)))
  | some _, _ => s.goes t (.kfree nv none)
  | none, .open access _ _ => ((s.attach w.parent nv).pin nv).goes t (.pinned nv access)
  | none, _ => (s.attach w.parent nv).goes t .idle

/-- `vfs_open` of a vnode that exists. -/
def pinOld (t : Nat) (access : Access) (v : Nat) : Race :=
  if v = 0 then (s.pin v).goes t (.pinned v access)
  else
    let s := s.touch [v]
    match (s.fs.vnode v).parent with
    | none => s.goes t .idle
    | some d =>
      let s := s.touch (s.fs.childReads d (s.fs.vnode v).name)
      if s.fs.vnChild d (s.fs.vnode v).name ≠ some v then s.goes t .idle
      else (s.pin v).goes t (.pinned v access)

/-- `vfs_unlink`; `list_remove` writes both neighbours. -/
def removeName (t : Nat) (w : Vfs.Walked) (v : Nat) : Race :=
  let s := s.touch (s.fs.childReads w.parent w.name)
  if s.fs.vnChild w.parent w.name ≠ some v then s.goes t .idle
  else
    let s := s.touch [v]
    if (s.fs.vnode v).kind = .dir ∧ (s.fs.vnode v).children ≠ [] then s.goes t .idle
    else
      let s := s.touch (w.parent :: (s.fs.nextSibling v).toList ++ (s.fs.prevSibling v).toList)
      (s.setFs (s.fs.detach w.parent v)).goes t (.release v)

/-! ## A piece of a call -/

/-- `kind1` and `kind2`. -/
def checkKind (t : Nat) (c : VfsCall) (w : Vfs.Walked) (v : Nat) (second : Bool) : Race :=
  let s := s.touch [v]
  match c, second with
  | .open _ _ opts, false =>
    if (s.fs.vnode v).kind = .dir ∧ opts &&& fileNonDirectoryFile ≠ 0 then s.goes t .idle
    else s.goes t (.kind2 c w v)
  | .open access disp opts, true =>
    if (s.fs.vnode v).kind ≠ .dir ∧ opts &&& fileDirectoryFile ≠ 0 then s.goes t .idle
    else if disp = fileCreate then s.goes t .idle
    else s.goes t (.lockOld access v)
  | _, false => if (s.fs.vnode v).kind = .char then s.goes t .idle else s.goes t (.kind2 c w v)
  | _, true => if (s.fs.vnode v).kind = .block then s.goes t .idle else s.goes t (.remove w v)

/-- `vn_release` up to the test of the count. -/
def drop (t v : Nat) : Outcome Race :=
  let old := (s.fs.vnode v).ref
  let s := (s.touch [v]).setFs (s.fs.modVnode v fun x => { x with ref := x.ref - 1 })
  if old = 0 then .panic "vnode ref underflow"
  else if old ≠ 1 then .ok (s.goes t .idle)
  else .ok (s.goes t (.free v))

/-- A turn of the walk. -/
def walkOn (t : Nat) : VfsPhase → Race
  | .look c cur p =>
    match (s.fs.vnode cur).children.head? with
    | some e => (s.touch [cur]).goes t (.cmp c cur p e 0)
    | none => (s.touch [cur]).goesOn t (c.looked cur p none)
  | .cmp c cur p e k =>
    let comp := (nextComponent p).1
    if (s.fs.vnode e).name[k]? ≠ comp[k]? then (s.touch [e]).goes t (.next c cur p e)
    else if comp[k]? = none then (s.touch [e]).goesOn t (c.looked cur p (some e))
    else (s.touch [e]).goes t (.cmp c cur p e (k + 1))
  | .next c cur p e =>
    match s.fs.nextSibling e with
    | some e' => (s.touch [e]).goes t (.cmp c cur p e' 0)
    | none => (s.touch [e]).goesOn t (c.looked cur p none)
  | .kind c cur p n =>
    let rest := skipSlashes (nextComponent p).2.2
    if (s.fs.vnode n).kind ≠ .dir then (s.touch [n]).goesOn t (c.walked none)
    else if rest = [] then (s.touch [n]).goesOn t (c.walked (some ⟨cur, some n, []⟩))
    else (s.touch [n]).goes t (.look c n rest)
  | _ => s

/-- The next piece of the call of `t`. `heap`: an allocation that it asks for is granted. -/
def turn (t : Nat) (heap : Bool) : Outcome Race :=
  match s.phase t with
  | .idle | .wild => .ok s
  | .look c cur p => .ok (s.walkOn t (.look c cur p))
  | .cmp c cur p e k => .ok (s.walkOn t (.cmp c cur p e k))
  | .next c cur p e => .ok (s.walkOn t (.next c cur p e))
  | .kind c cur p n => .ok (s.walkOn t (.kind c cur p n))
  | .kind1 c w v => .ok (s.checkKind t c w v false)
  | .kind2 c w v => .ok (s.checkKind t c w v true)
  | .alloc c w =>
    if heap then
      .ok ((s.setFs (s.fs.vnAlloc w.name c.newKind)).goes t (.lockNew c w s.fs.nvnode))
    else .ok (s.goes t .idle)
  | .lockNew c w nv => .ok (s.attachNew t c w nv)
  | .lockOld access v => .ok (s.pinOld t access v)
  | .remove w v => .ok (s.removeName t w v)
  | .kfree nv race =>
    .ok ((s.setFs (s.fs.freeVnode nv)).goes t (.behindRace race))
  | .pinned v access =>
    if heap then
      .ok (((s.touch [v]).setFs { s.fs.setFile s.fs.nfile ⟨some v, 0, access⟩ with
        nfile := s.fs.nfile + 1 }).goes t .idle)
    else .ok ((s.touch [v]).goes t (.release v))
  | .release v => s.drop t v
  | .free v =>
    .ok (((s.touch [v]).setFs
      ((s.fs.modVnode v fun x => { x with content := .empty }).freeVnode v)).goes t .idle)

def init (n : Nat) (fs : Vfs) : Race := ⟨n, fs, fun _ => .idle, []⟩

end Race

/-! ## Steps -/

/-- A thread calls, or goes on. -/
inductive RaceOp
  | start (t : Nat) (c : VfsCall) (cwd path : Name)
  | turn (t : Nat) (heap : Bool)

/-- One step of an interleaving. -/
def raceStep (s : Race) : RaceOp → Option Race
  | .start t c cwd path => some (s.goesOn t (c.begin cwd path))
  | .turn t heap => (s.turn t heap).get?

/-- A thread makes one call at a time. -/
def RaceCalls (s : Race) : RaceOp → Prop
  | .start t _ _ _ => t < s.nthread ∧ s.phase t = .idle
  | .turn t _ => t < s.nthread

instance (s : Race) (a : RaceOp) : Decidable (RaceCalls s a) := by
  cases a <;> dsimp only [RaceCalls] <;> infer_instance

/-- The vnodes that the local variables of a call point to without a reference. -/
def VfsPhase.pointers : VfsPhase → List Nat
  | .look _ cur _ => [cur]
  | .cmp _ cur _ e _ | .next _ cur _ e => [cur, e]
  | .kind _ cur _ n => [cur, n]
  | .kind1 _ w v | .kind2 _ w v | .remove w v => [w.parent, v]
  | .alloc _ w | .lockNew _ w _ => [w.parent]
  | .lockOld _ v => [v]
  | _ => []

/-- The vnode that the call is about to take the name from. -/
def VfsPhase.removal : VfsPhase → Option (Vfs.Walked × Nat)
  | .remove w v => some (w, v)
  | _ => none

/-- A name is taken away only if no other call points to the vnode. -/
def Race.RemovesUnheld (s : Race) (t : Nat) : Prop :=
  ∀ x ∈ (s.phase t).removal, s.fs.vnChild x.1.parent x.1.name = some x.2 →
    ¬ ((s.fs.vnode x.2).kind = .dir ∧ (s.fs.vnode x.2).children ≠ []) →
    ∀ t' < s.nthread, t' ≠ t → x.2 ∉ (s.phase t').pointers

instance (s : Race) (t : Nat) : Decidable (s.RemovesUnheld t) :=
  inferInstanceAs (Decidable (∀ x ∈ (s.phase t).removal, _))

/-- `vfs_open` looks at the status of its walk only for `FILE_OPEN`. -/
def VfsCall.Heedless : VfsCall → Prop
  | .open _ disp _ => disp ≠ fileOpen
  | _ => False

instance (c : VfsCall) : Decidable c.Heedless := by
  cases c <;> dsimp only [VfsCall.Heedless] <;> infer_instance

/-- The walk of a call that does not look at its status comes to its end: a directory on the path
is missing, or is none. -/
def Race.LosesPath (s : Race) : VfsPhase → Prop
  | .look c cur p => c.Heedless ∧ ¬ LastComponent p ∧ (s.fs.vnode cur).children = []
  | .next c _ p e => c.Heedless ∧ ¬ LastComponent p ∧ s.fs.nextSibling e = none
  | .kind c _ _ n => c.Heedless ∧ (s.fs.vnode n).kind ≠ .dir
  | _ => False

instance (s : Race) (p : VfsPhase) : Decidable (s.LosesPath p) := by
  cases p <;> dsimp only [Race.LosesPath] <;> infer_instance

/-- No name is taken from a vnode that another call points to, and no walk for `vfs_open` fails that
goes on anyway. -/
def Unheld (s : Race) : RaceOp → Prop
  | .start .. => True
  | .turn t _ => s.RemovesUnheld t ∧ ¬ s.LosesPath (s.phase t)

instance (s : Race) (a : RaceOp) : Decidable (Unheld s a) := by
  cases a <;> dsimp only [Unheld] <;> infer_instance

end Aegis
