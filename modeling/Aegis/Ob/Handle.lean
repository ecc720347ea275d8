import Aegis.Ob.Object

/-!
# Handle tables (`ob/handle.c`)

The functions take the process whose table they work on. Their tests for null pointers are made
where a pointer can be null, in the system calls: `ke_current_process()` is `cur`.

`pspCreateProcess` is the part of process creation that concerns objects, and `ntDuplicateObject`
and `ntCreateDirectoryObject` are the system calls over these functions.
-/

namespace Aegis

def handleTableSlots : Nat := 1024

/-- `HANDLE_VALUE`. -/
def handleValue (i : Nat) (g : BitVec 32) : Handle :=
  (BitVec.ofNat 64 i <<< 2) ||| (g.setWidth 64 <<< 16)

def handleIndex (h : Handle) : Nat := ((h >>> 2) &&& 0x3FFF#64).toNat

def handleGen (h : Handle) : BitVec 32 := (h >>> 16).setWidth 32

def handleCurrent : Handle := BitVec.allOnes 64

def duplicateCloseSource : BitVec 32 := 0x1#32
def duplicateSameAccess : BitVec 32 := 0x2#32
def duplicateInherit : BitVec 32 := 0x4#32

/-- `generation++; if (generation == 0) generation = 1`. -/
def nextGeneration (g : BitVec 32) : BitVec 32 := if g + 1 = 0 then 1 else g + 1

/-- The next generation. -/
def HandleEntry.bump (e : HandleEntry) : HandleEntry :=
  { e with generation := nextGeneration e.generation, bumps := e.bumps + 1 }

namespace HandleTable

def set (t : HandleTable) (i : Nat) (e : HandleEntry) (used : Nat) : HandleTable :=
  ⟨Function.update t.slots i e, used⟩

/-- The slots in the order the loops visit them; slot 0 is never used. -/
def indices : List Nat := List.range' 1 (handleTableSlots - 1)

/-- The first slot that is free. -/
def firstFree (t : HandleTable) : Option Nat :=
  indices.find? fun i => (t.slots i).object.isNone

def firstUsed (t : HandleTable) : Option Nat :=
  indices.find? fun i => (t.slots i).object.isSome

/-- The slot that a handle names, if it is a handle of the table. -/
def resolve (t : HandleTable) (h : Handle) : Option (Nat × Nat) :=
  let i := handleIndex h
  if i = 0 ∨ i ≥ handleTableSlots ∨ h &&& 3 ≠ 0 then none
  else
    match (t.slots i).object with
    | none => none
    | some o => if (t.slots i).generation ≠ handleGen h then none else some (i, o)

end HandleTable

namespace World

/-! ## Pipes: `open_fn` and `close_fn` -/

/-- `pipe_open`. -/
def pipeOpen (x : Obj) (acc : Access) : Obj :=
  let x := if acc &&& fileWriteData ≠ 0 then
    { x with writers := x.writers + 1, writerClosed := false } else x
  if acc &&& fileReadData ≠ 0 then { x with readers := x.readers + 1 } else x

/-- `pipe_close`. -/
def pipeClose (x : Obj) (acc : Access) : Obj :=
  let x := if acc &&& fileWriteData ≠ 0 then
    let writers := x.writers - 1
    { x with writers, writerClosed := x.writerClosed || writers == 0 } else x
  if acc &&& fileReadData ≠ 0 then { x with readers := x.readers - 1 } else x

variable (w : World)

/-- `type->open_fn`. -/
def openFn (o : Nat) (acc : Access) : World :=
  match (w.obj o).kind with
  | .pipe => w.setObj o (pipeOpen (w.obj o) acc)
  | _ => w

/-- `type->close_fn`. -/
def closeFn (o : Nat) (acc : Access) : World :=
  match (w.obj o).kind with
  | .pipe => w.setObj o (pipeClose (w.obj o) acc)
  | _ => w

/-! ## The table operations -/

def incHandleCount (o : Nat) : World :=
  w.setObj o { w.obj o with handleCount := (w.obj o).handleCount + 1 }

def decHandleCount (o : Nat) : World :=
  w.setObj o { w.obj o with handleCount := (w.obj o).handleCount - 1 }

def filled (e : HandleEntry) (o : Nat) (access : Access) (inherit protectClose : Bool) :
    HandleEntry :=
  { e.bump with object := some o, access, inherit, protectClose }

/-- `ht_insert_ex`. -/
def htInsertEx (p o : Nat) (access : Access) (inherit protectClose : Bool) :
    Status × Option Handle × World :=
  let access := obMapGeneric (objectType (w.obj o).kind) access
  let t := w.handles p
  match t.firstFree with
  | none => (.insufficientResources, none, w)
  | some i =>
    let e := filled (t.slots i) o access inherit protectClose
    let w := (w.obReference o).incHandleCount o
    let w := w.setTable p (t.set i e (t.used + 1))
    (.success, some (handleValue i e.generation), w.openFn o access)

def htInsert (p o : Nat) (access : Access) : Status × Option Handle × World :=
  w.htInsertEx p o access false false

/-- `ht_lookup_ex`: the object and the granted access, with a reference taken. -/
def htLookupEx (p : Nat) (h : Handle) (required : Access)
    (expect : Option ObjKind) : Status × Option (Nat × Access) × World :=
  let t := w.handles p
  match t.resolve h with
  | none => (.invalidHandle, none, w)
  | some (i, o) =>
    let access := (t.slots i).access
    if required ≠ 0 ∧ access &&& required ≠ required then (.accessDenied, none, w)
    else if expect ≠ none ∧ expect ≠ some (w.obj o).kind then (.objectTypeMismatch, none, w)
    else (.success, some (o, access), w.obReference o)

/-- The end of a handle: `close_fn`, the handle count and the table's reference. -/
def releaseHandle (o : Nat) (acc : Access) : Outcome World :=
  ((w.closeFn o acc).decHandleCount o).obDereference o

def emptied (e : HandleEntry) : HandleEntry := { e.bump with object := none, access := 0 }

/-- `ht_close`. -/
def htClose (p : Nat) (h : Handle) : Outcome (Status × World) :=
  let t := w.handles p
  match t.resolve h with
  | none => .ok (.invalidHandle, w)
  | some (i, o) =>
    let e := t.slots i
    if e.protectClose then .ok (.accessDenied, w)
    else do
      let w := w.setTable p (t.set i (emptied e) (Word.sub 32 t.used 1))
      let w ← w.releaseHandle o e.access
      return (.success, w)

/-- The loop of `ht_destroy`, at most `k` rounds. -/
def destroyLoop (p : Nat) : Nat → World → Outcome World
  | 0, _ => .diverge
  | k + 1, w =>
    let t := w.handles p
    match t.firstUsed with
    | none => .ok w
    | some i =>
      match (t.slots i).object with
      | none => .ok w
      | some o => do
        let w ← (w.setTable p (t.set i (emptied (t.slots i)) (t.used - 1))).releaseHandle o
          (t.slots i).access
        destroyLoop p k w

/-- `ht_destroy`: a round for every slot in use, and the last one that finds none. -/
def htDestroy (p : Nat) : Outcome World := destroyLoop p handleTableSlots w

/-- `ht_duplicate`. -/
def htDuplicate (src : Nat) (h : Handle) (dst : Nat) (access : Access) :
    Outcome (Status × Option Handle × World) :=
  match w.htLookupEx src h 0 none with
  | (_, some (o, granted), w) => do
    let access := if access = 0 then granted else access
    let (st, out, w) := w.htInsert dst o access
    let w ← w.obDereference o
    return (st, out, w)
  | (st, none, w) => .ok (st, none, w)

/-- `ht_set_inherit`. -/
def htSetInherit (p : Nat) (h : Handle) (inherit : Bool) : Status × World :=
  let t := w.handles p
  match t.resolve h with
  | none => (.invalidHandle, w)
  | some (i, _) => (.success, w.setTable p (t.set i { t.slots i with inherit } t.used))

/-- The first loop of `ht_inherit_table`: the inheritable slots, in order. -/
def inheritable (t : HandleTable) : List (Nat × Access) :=
  HandleTable.indices.filterMap fun i =>
    if (t.slots i).inherit then (t.slots i).object.map fun o => (o, (t.slots i).access) else none

/-- The second loop of `ht_inherit_table`. -/
def inheritLoop (dst : Nat) : List (Nat × Access) → Status → World → Outcome (Status × World)
  | [], st, w => .ok (st, w)
  | (o, acc) :: l, st, w => do
    let (s, _, w) := w.htInsertEx dst o acc true false
    let w ← w.obDereference o
    inheritLoop dst l (if ntSuccess s = false ∧ ntSuccess st then s else st) w

/-- `ht_inherit_table`. -/
def htInheritTable (src dst : Nat) : Outcome (Status × World) :=
  let l := inheritable (w.handles src)
  inheritLoop dst l .success (l.foldl (fun w x => w.obReference x.1) w)

/-! ## System calls -/

/-- A process argument: `HANDLE_CURRENT`, or a handle with the right. -/
def processArg (cur : Option Nat) (h : Handle) (right : Access) :
    Status × Option Nat × World :=
  if h = handleCurrent then (.success, cur, w)
  else
    match cur with
    | none => (.invalidParameter, none, w)
    | some c =>
      let r := w.htLookupEx c h right (some .process)
      (r.1, r.2.1.map (·.1), r.2.2)

def obDereferenceOpt : Option Nat → Outcome World
  | none => .ok w
  | some o => w.obDereference o

/-- `DUPLICATE_INHERIT`, on the handle a duplication returned. -/
def inheritResult (d : Nat) (flags : BitVec 32) : Option Handle → World
  | some h => if flags &&& duplicateInherit ≠ 0 then (w.htSetInherit d h true).2 else w
  | none => w

/-- The flags of `NtDuplicateObject`, between two processes. -/
def duplicateWith (s : Nat) (src : Handle) (d : Nat) (access : Access)
    (flags : BitVec 32) : Outcome (Status × Option Handle × World) := do
  let access := if flags &&& duplicateSameAccess ≠ 0 then 0 else access
  let (st, out, w) ← w.htDuplicate s src d access
  let w := w.inheritResult d flags out
  if ntSuccess st ∧ flags &&& duplicateCloseSource ≠ 0 then do
    let (_, w) ← w.htClose s src
    return (st, out, w)
  else return (st, out, w)

/-- `if (!sp || !dp) return STATUS_INVALID_HANDLE`, and the duplication. -/
def duplicateBetween (sp dp : Option Nat) (src : Handle) (access : Access)
    (flags : BitVec 32) : Outcome (Status × Option Handle × World) :=
  match sp, dp with
  | some s, some d => w.duplicateWith s src d access flags
  | _, _ => .ok (.invalidHandle, none, w)

/-- `NtDuplicateObject`. -/
def ntDuplicateObject (cur : Option Nat) (srcProc src dstProc : Handle)
    (access : Access) (flags : BitVec 32) : Outcome (Status × Option Handle × World) :=
  let (st, sp, w) := w.processArg cur srcProc processDupHandle
  if ntSuccess st = false then .ok (st, none, w)
  else
    let so := if srcProc = handleCurrent then none else sp
    let (st, dp, w) := w.processArg cur dstProc processDupHandle
    if ntSuccess st = false then do
      let w ← w.obDereferenceOpt so
      return (st, none, w)
    else do
      let dobj := if dstProc = handleCurrent then none else dp
      let (st, out, w) ← w.duplicateBetween sp dp src access flags
      let w ← w.obDereferenceOpt so
      let w ← w.obDereferenceOpt dobj
      return (st, out, w)

/-- `NtCreateDirectoryObject`. -/
def ntCreateDirectoryObject (cur : Option Nat) (name : Option Name) (heap : Bool) :
    Outcome (Status × Option Handle × World) := do
  match ← w.obCreate .directory name (name.map fun _ => w.bno) heap with
  | (none, w) => return (.noMemory, none, w)
  | (some o, w) =>
    let w := w.dirInitBuckets o
    let (st, out, w) := match cur with
      | none => (Status.invalidParameter, none, w)
      | some p => w.htInsert p o (directoryQuery ||| directoryTraverse ||| directoryCreateObject)
    let w ← w.obDereference o
    return (st, out, w)

/-- The objects of `psp_create_process`: the process, its token, and the reference of the process
list if it has room (`listed`). -/
def pspCreateProcess (name : Name) (heap tokenHeap listed : Bool) :
    Outcome (Option Nat × World) := do
  match ← w.obCreate .process (some name) none heap with
  | (none, w) => return (none, w)
  | (some p, w) =>
    match ← w.obCreate .token none none tokenHeap with
    | (none, w) => do
      let w ← w.obDereference p
      return (none, w)
    | (some t, w) =>
      let w := w.setObj p { w.obj p with token := some t }
      return (some p, if listed then w.obReference p else w)

end World

end Aegis
