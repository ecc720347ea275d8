import Aegis.Config
import Mathlib.Logic.Function.Basic

/-!
# Objects and the namespace (`ob.h`, `ob/object.c`)

The object manager's memory is a `World`: the objects ever created, indexed by number in the order
of their creation, the handle table of each process, and the links of the directory buckets.
Memory is never reused: an object that was deleted keeps its number and its fields, and `deletes`
counts how often `ob_dereference` has deleted it. A reference is a pointer that somebody holds, so
the two counts of an object are natural numbers.

`dir_link` and the bucket heads are the two kinds of `Link`; the bucket walks run on fuel, since a
list that was linked twice need not lead back to its head. The dispatcher, the owner and the
directory an object was named in are read by none of the functions here.
-/

namespace Aegis

open Function

/-! ## Types -/

/-- `object_kind_t`. -/
inductive ObjKind
  | directory
  | process
  | thread
  | section_
  | file
  | device
  | event
  | mutex
  | timer
  | pipe
  | token
  deriving DecidableEq, Repr

abbrev Access := BitVec 32
abbrev Handle := BitVec 64

/-- The rights of `config.h`. -/
def genericRead : Access := 0x80000000#32
def genericWrite : Access := 0x40000000#32
def genericExecute : Access := 0x20000000#32
def genericAll : Access := 0x10000000#32
def synchronize : Access := 0x00100000#32
def processTerminate : Access := 0x0001#32
def processCreateThread : Access := 0x0002#32
def processVmOperation : Access := 0x0008#32
def processVmWrite : Access := 0x0020#32
def processDupHandle : Access := 0x0040#32
def processQueryInformation : Access := 0x0400#32
def processAllAccess : Access := 0x1FFFFF#32
def tokenQuery : Access := 0x0008#32
def tokenDuplicate : Access := 0x0002#32
def tokenAdjust : Access := 0x0020#32
def tokenAllAccess : Access := 0xF01FF#32
def threadSuspendResume : Access := 0x0002#32
def threadQueryInformation : Access := 0x0040#32
def threadAllAccess : Access := 0x1FFFFF#32
def fileReadData : Access := 0x0001#32
def fileWriteData : Access := 0x0002#32
def fileExecute : Access := 0x0020#32
def fileAllAccess : Access := 0x1FFFFF#32
def directoryQuery : Access := 0x0001#32
def directoryTraverse : Access := 0x0002#32
def directoryCreateObject : Access := 0x0004#32
def eventModifyState : Access := 0x0002#32
def mutexModifyState : Access := 0x0001#32
def timerModifyState : Access := 0x0002#32
def sectionMapWrite : Access := 0x0002#32
def sectionMapRead : Access := 0x0004#32
def sectionMapExecute : Access := 0x0008#32
def sectionAllAccess : Access := 0x1FFFF#32

/-- `object_type_t`. -/
structure ObjectType where
  name : String
  genericRead : Access
  genericWrite : Access
  genericExecute : Access
  genericAll : Access

/-- The types `ob_init` and `pipe_init_type` set up. -/
def objectType : ObjKind → ObjectType
  | .directory => ⟨"Directory", directoryQuery, directoryCreateObject, directoryTraverse, 0x1F#32⟩
  | .process => ⟨"Process", processQueryInformation, processVmWrite, processCreateThread,
      processAllAccess⟩
  | .thread => ⟨"Thread", threadQueryInformation, threadSuspendResume, 0, threadAllAccess⟩
  | .section_ => ⟨"Section", sectionMapRead, sectionMapWrite, sectionMapExecute, sectionAllAccess⟩
  | .file => ⟨"File", fileReadData, fileWriteData, fileExecute, fileAllAccess⟩
  | .device => ⟨"Device", fileReadData, fileWriteData, 0, fileAllAccess⟩
  | .event => ⟨"Event", synchronize, eventModifyState, 0, synchronize ||| eventModifyState⟩
  | .mutex => ⟨"Mutant", synchronize, mutexModifyState, 0, synchronize ||| mutexModifyState⟩
  | .timer => ⟨"Timer", synchronize, timerModifyState, 0, synchronize ||| timerModifyState⟩
  | .pipe => ⟨"Pipe", fileReadData, fileWriteData, 0, fileAllAccess⟩
  | .token => ⟨"Token", tokenQuery, tokenDuplicate, 0, tokenAllAccess⟩

/-- One line of `ob_map_generic`. -/
def mapGenericBit (bit mask a : Access) : Access :=
  if a &&& bit ≠ 0 then (a ||| mask) &&& ~~~bit else a

/-- `ob_map_generic`. -/
def obMapGeneric (type : ObjectType) (access : Access) : Access :=
  let a := mapGenericBit genericRead type.genericRead access
  let a := mapGenericBit genericWrite type.genericWrite a
  let a := mapGenericBit genericExecute type.genericExecute a
  mapGenericBit genericAll type.genericAll a

/-- The bytes of a C string, without the terminator. -/
abbrev Name := List UInt8

def nameMax : Nat := 64

/-- `object_t`, and how often it has been deleted. -/
structure Obj where
  kind : ObjKind
  name : Name
  pointerCount : Nat
  handleCount : Nat
  /-- `flags & OBJ_PERMANENT`. -/
  permanent : Bool
  /-- `token` of a `process_t`. -/
  token : Option Nat
  /-- `readers`, `writers` and `writer_closed` of a `pipe_object_t`. -/
  readers : Nat
  writers : Nat
  writerClosed : Bool
  /-- How often `ob_dereference` has deleted the object. -/
  deletes : Nat
  deriving Repr

/-- `handle_entry_t`. -/
structure HandleEntry where
  object : Option Nat
  access : Access
  inherit : Bool
  protectClose : Bool
  generation : BitVec 32
  /-- How often `generation` has been bumped; the code has no such field. -/
  bumps : Nat
  deriving Repr

/-- `handle_table_t`. -/
structure HandleTable where
  slots : Nat → HandleEntry
  used : Nat

def HandleTable.init : HandleTable := ⟨fun _ => ⟨none, 0, false, false, 0, 0⟩, 0⟩

/-- A `list_t` of the namespace: a bucket of a directory, or the `dir_link` of an object. -/
inductive Link
  | bucket (dir : Nat) (hash : Nat)
  | entry (o : Nat)
  deriving DecidableEq, Repr

/-- The objects, the handle tables and the lists of names. -/
structure World where
  nobj : Nat
  obj : Nat → Obj
  /-- `handles` of a `process_t`. -/
  handles : Nat → HandleTable
  next : Link → Link
  prev : Link → Link
  /-- `g_root`. -/
  root : Nat
  /-- `g_bno`. -/
  bno : Nat

namespace World

variable (w : World)

def setObj (o : Nat) (x : Obj) : World :=
  { w with obj := update w.obj o x }

def setTable (p : Nat) (t : HandleTable) : World :=
  { w with handles := update w.handles p t }

def setNext (e x : Link) : World := { w with next := update w.next e x }

def setPrev (e x : Link) : World := { w with prev := update w.prev e x }

/-! ## References -/

/-- `ob_reference`. -/
def obReference (o : Nat) : World :=
  w.setObj o { w.obj o with pointerCount := (w.obj o).pointerCount + 1 }

def decPointerCount (o : Nat) : World :=
  w.setObj o { w.obj o with pointerCount := (w.obj o).pointerCount - 1 }

def markDeleted (o : Nat) : World :=
  w.setObj o { w.obj o with deletes := (w.obj o).deletes + 1 }

def clearToken (o : Nat) : World := w.setObj o { w.obj o with token := none }

/-- `ob_dereference` for a type whose `delete_fn` is `del`. -/
def dropReference (del : World → Nat → Outcome World) (w : World) (o : Nat) : Outcome World :=
  let x := w.obj o
  if x.pointerCount = 0 then
    let name := (objectType x.kind).name
    .panic s!"ob ref underflow {name}"
  else if x.pointerCount = 1 ∧ x.handleCount = 0 ∧ x.permanent = false then do
    let w ← del (w.decPointerCount o) o
    return w.markDeleted o
  else .ok (w.decPointerCount o)

/-- `process_delete`. The type of a token has `nop_delete`. -/
def processDelete (o : Nat) : Outcome World :=
  match (w.obj o).token with
  | none => .ok w
  | some t => do
    let w ← w.dropReference (fun w _ => .ok w) t
    return w.clearToken o

/-- `type->delete_fn`. That of a file releases its vnode, which is no object. -/
def deleteFn (o : Nat) : Outcome World :=
  match (w.obj o).kind with
  | .process => w.processDelete o
  | _ => .ok w

/-- `ob_dereference`. -/
def obDereference (o : Nat) : Outcome World := w.dropReference deleteFn o

/-! ## Names -/

/-- The hash of the bucket a name belongs to. -/
def hashName (s : Name) : Nat :=
  s.foldl (fun h c => u32 ((h ^^^ c.toNat) * 16777619)) 2166136261 % 37

/-- `strlcpy` into a buffer of `NAME_MAX` bytes. -/
def truncate (s : Name) : Name := s.take (nameMax - 1)

/-- The bucket walk from `e`: the first object with the name. A bucket head that is not the
walk's own is no object, and the links of a freed object are `kfree`'s poison. -/
def bucketFind (w : World) (head : Link) (name : Name) : Nat → Link → Outcome (Option Nat)
  | 0, _ => .diverge
  | k + 1, e =>
    if e = head then .ok none
    else
      match e with
      | .bucket _ _ => .fault
      | .entry x =>
        if (w.obj x).deletes ≠ 0 then .fault
        else if (w.obj x).name = name then .ok (some x)
        else bucketFind w head name k (w.next e)

/-- The walk through the bucket of a name. -/
def findInBucket (dir : Nat) (name : Name) : Outcome (Option Nat) :=
  let b := Link.bucket dir (hashName name)
  w.bucketFind b name (w.nobj + 1) (w.next b)

/-- `list_insert_tail`, its four writes in order. -/
def listInsertTail (h e : Link) : World :=
  let w := w.setNext e h
  let w := w.setPrev e (w.prev h)
  let w := w.setNext (w.prev h) e
  w.setPrev h e

/-- `ob_insert_name`. -/
def obInsertName (dir o : Nat) (name : Name) : Outcome (Status × World) :=
  if name = [] ∨ name.length ≥ nameMax then .ok (.invalidParameter, w)
  else do
    match ← w.findInBucket dir name with
    | some _ => return (.objectNameCollision, w)
    | none =>
      let w := w.setObj o { w.obj o with name := truncate name }
      return (.success, w.listInsertTail (.bucket dir (hashName name)) (.entry o))

/-- The object that `ob_create` makes. -/
def newObject (kind : ObjKind) (name : Option Name) : World :=
  let o := w.nobj
  let x : Obj := ⟨kind, truncate (name.getD []), 1, 0, false, none, 0, 0, false, 0⟩
  { (((w.setObj o x).setTable o .init).setNext (.entry o) (.entry o)).setPrev (.entry o)
      (.entry o) with nobj := o + 1 }

/-- `heap`: whether `kalloc_zero` finds room. -/
def obCreate (kind : ObjKind) (name : Option Name) (dir : Option Nat)
    (heap : Bool) : Outcome (Option Nat × World) :=
  if heap = false then .ok (none, w)
  else
    let o := w.nobj
    let w' := w.newObject kind name
    match dir, name with
    | some d, some n =>
      if n = [] then .ok (some o, w')
      else do
        let (st, w'') ← w'.obInsertName d o n
        return if ntSuccess st then (some o, w'') else (none, w)
    | _, _ => .ok (some o, w')

/-- What `ob_create_event`, `ob_create_mutex` and `ob_create_timer` do to the namespace. -/
def obCreateNamed (kind : ObjKind) (w : World) (name : Option Name) (heap : Bool) :
    Outcome (Status × Option Nat × World) := do
  let (o, w) ← w.obCreate kind name (name.map fun _ => w.bno) heap
  return (if o = none then .noMemory else .success, o, w)

def obCreateEvent := obCreateNamed .event
def obCreateMutex := obCreateNamed .mutex
def obCreateTimer := obCreateNamed .timer

/-! ## Lookup -/

/-- `dir_lookup`. -/
def dirLookup (dir : Nat) (name : Name) : Outcome (Option Nat × World) := do
  match ← w.findInBucket dir name with
  | some x => return (some x, w.obReference x)
  | none => return (none, w)

def backslash : UInt8 := 92

/-- The inner loop of `ob_lookup`: the next component, of at most `k` bytes, and what follows. -/
def takeComponent : Nat → Name → Name × Name
  | 0, p => ([], p)
  | _ + 1, [] => ([], [])
  | k + 1, c :: p =>
    if c = backslash then ([], c :: p)
    else
      let r := takeComponent k p
      (c :: r.1, r.2)

def skipSeparator : Name → Name
  | [] => []
  | c :: p => if c = backslash then p else c :: p

/-- The component loop of `ob_lookup` from `cur`, on which it holds a reference. Every round
consumes a byte of the path. -/
def lookupLoop : Nat → World → Nat → Name → Outcome (Status × Nat × World)
  | 0, _, _, _ => .diverge
  | k + 1, w, cur, p =>
    if p = [] then .ok (.success, cur, w)
    else
      let comp := (takeComponent (nameMax - 1) p).1
      let p := skipSeparator (takeComponent (nameMax - 1) p).2
      if (w.obj cur).kind ≠ .directory then do
        let w ← w.obDereference cur
        return (.objectPathNotFound, cur, w)
      else do
        let (next, w) ← w.dirLookup cur comp
        let w ← w.obDereference cur
        match next with
        | none => return (.objectNameNotFound, cur, w)
        | some n => lookupLoop k w n p

/-- `ob_lookup`; `expect` is `none` for 0. -/
def obLookup (path : Name) (expect : Option ObjKind) :
    Outcome (Status × Option Nat × World) :=
  match path with
  | [] => .ok (.objectNameInvalid, none, w)
  | c :: p =>
    if c ≠ backslash then .ok (.objectNameInvalid, none, w)
    else if p = [] then
      if expect ≠ none ∧ expect ≠ some .directory then .ok (.objectTypeMismatch, none, w)
      else .ok (.success, some w.root, w.obReference w.root)
    else do
      let (st, cur, w) ← lookupLoop (p.length + 1) (w.obReference w.root) w.root p
      if ntSuccess st = false then return (st, none, w)
      else if expect ≠ none ∧ expect ≠ some (w.obj cur).kind then do
        let w ← w.obDereference cur
        return (.objectTypeMismatch, none, w)
      else return (.success, some cur, w)

/-! ## Initialisation -/

/-- `dir_init_buckets`. -/
def dirInitBuckets (d : Nat) : World :=
  { w with
    next := fun e => match e with
      | .bucket d' h => if d' = d then .bucket d' h else w.next e
      | .entry _ => w.next e
    prev := fun e => match e with
      | .bucket d' h => if d' = d then .bucket d' h else w.prev e
      | .entry _ => w.prev e }

/-- `make_dir`. -/
def makeDir (name : Name) (parent : Nat) : Outcome (Nat × World) := do
  match ← w.obCreate .directory (some name) (some parent) true with
  | (none, _) => .panic "ob: dir"
  | (some d, w) =>
    let w := w.dirInitBuckets d
    return (d, w.setObj d { w.obj d with permanent := true })

/-- The memory before `ob_init`; its object 0 becomes the root directory. -/
def blank : World where
  nobj := 0
  obj _ := ⟨.directory, [], 0, 0, false, none, 0, 0, false, 0⟩
  handles _ := .init
  next e := e
  prev e := e
  root := 0
  bno := 0

/-- `ob_init`: the root and the four directories in it. -/
def obInit : Outcome World := do
  let w := blank.newObject .directory (some [backslash])
  let w := (w.setObj 0 { w.obj 0 with permanent := true }).dirInitBuckets 0
  let (_, w) ← w.makeDir "ObjectTypes".toUTF8.toList 0
  let (bno, w) ← w.makeDir "BaseNamedObjects".toUTF8.toList 0
  let (_, w) ← w.makeDir "Devices".toUTF8.toList 0
  let (_, w) ← w.makeDir "??".toUTF8.toList 0
  return { w with root := 0, bno := bno }

end World

end Aegis
