import Aegis.Ob.HandleSpec

/-!
# Tokens (`ke/syscall.c`, `psp_create_process`, `sched_init`)

`TokenSys` is a world of objects with the fields of its tokens. `creator` records which process a
process was created by, for the statement; the code keeps no such record. `tokenStep` are the calls
that make tokens, hand them out and change them, and `NtClose`.
-/

namespace Aegis

open Function

/-- The objects with their tokens, and who made a process. -/
structure TokenSys where
  world : World
  /-- `pid` of a `process_t`, and of a `token_object_t`. -/
  pid : Nat → Nat
  /-- `integrity` of a `token_object_t`. -/
  integrity : Nat → Nat
  /-- `g_next_pid`. -/
  nextPid : Nat
  creator : Nat → Option Nat

/-- The call of a process without handles: `ht_lookup` and `ht_insert` refuse the table `NULL`. -/
def World.htInsertCur (w : World) (cur : Option Nat) (o : Nat) (access : Access) :
    Status × Option Handle × World :=
  match cur with
  | none => (.invalidParameter, none, w)
  | some c => w.htInsert c o access

/-- `ht_lookup` in the table of the caller. -/
def World.htLookupCur (w : World) (cur : Option Nat) (h : Handle) (required : Access)
    (expect : Option ObjKind) : Status × Option (Nat × Access) × World :=
  match cur with
  | none => (.invalidParameter, none, w)
  | some c => w.htLookupEx c h required expect

/-- The end of `NtOpenProcessToken`, with the process it was asked about. -/
def World.openToken (w : World) (cur p : Option Nat) (access : Access) :
    Status × Option Handle × World :=
  match p with
  | none => (.invalidHandle, none, w)
  | some p =>
    match (w.obj p).token with
    | none => (.noToken, none, w)
    | some t => w.htInsertCur cur t access

/-- `NtOpenProcessToken`. -/
def World.ntOpenProcessToken (w : World) (cur : Option Nat) (proc : Handle) (access : Access) :
    Outcome (Status × Option Handle × World) :=
  if access = 0 then .ok (.invalidParameter, none, w)
  else
    let a := w.processArg cur proc processQueryInformation
    if ntSuccess a.1 = false then .ok (a.1, none, a.2.2)
    else do
      let held := if proc = handleCurrent then none else a.2.1
      let r := a.2.2.openToken cur a.2.1 access
      let w ← r.2.2.obDereferenceOpt held
      return (r.1, r.2.1, w)

namespace TokenSys

variable (s : TokenSys)

def withWorld (w : World) : TokenSys := { s with world := w }

def setToken (t pid integrity : Nat) : TokenSys :=
  { s with
    pid := update s.pid t pid
    integrity := update s.integrity t integrity }

/-- `NtDuplicateToken`. -/
def ntDuplicateToken (cur : Option Nat) (src : Handle) (access : Access)
    (heap : Bool) : Outcome (Status × Option Handle × TokenSys) :=
  if access = 0 then .ok (.invalidParameter, none, s)
  else
    let l := s.world.htLookupCur cur src tokenDuplicate (some .token)
    match l.2.1 with
    | none => .ok (l.1, none, s.withWorld l.2.2)
    | some (o, _) => do
      let c ← l.2.2.obCreate .token none none heap
      match c.1 with
      | none => do
        let w ← c.2.obDereference o
        return (.noMemory, none, s.withWorld w)
      | some copy => do
        let r := c.2.htInsertCur cur copy access
        let w ← r.2.2.obDereference copy
        let w ← w.obDereference o
        return (r.1, r.2.1, (s.setToken copy (s.pid o) (s.integrity o)).withWorld w)

/-- `NtSetInformationToken`. -/
def ntSetInformationToken (cur : Option Nat) (h : Handle) (integrity : Nat) :
    Outcome (Status × TokenSys) :=
  if integrity > 1 then .ok (.invalidParameter, s)
  else
    let l := s.world.htLookupCur cur h tokenAdjust (some .token)
    match l.2.1 with
    | none => .ok (l.1, s.withWorld l.2.2)
    | some (o, _) => do
      let w ← l.2.2.obDereference o
      if integrity > s.integrity o then return (.accessDenied, s.withWorld w)
      else return (.success, (s.setToken o (s.pid o) integrity).withWorld w)

/-- The integrity of a new process. -/
def childIntegrity (parent : Option Nat) : Nat :=
  match parent.bind fun q => (s.world.obj q).token with
  | none => 1
  | some t => if s.integrity t > 1 then 1 else s.integrity t

/-- The process `p` that `psp_create_process` has made, with its token. -/
def adopt (parent : Option Nat) (p : Nat) (w : World) : TokenSys :=
  let s' := match (w.obj p).token with
    | none => s
    | some t => s.setToken t s.nextPid (s.childIntegrity parent)
  { s' with
    world := w
    pid := update s'.pid p s.nextPid
    creator := update s.creator p parent }

/-- `psp_create_process`. -/
def pspCreateProcess (parent : Option Nat) (name : Name)
    (heap tokenHeap listed : Bool) : Outcome TokenSys := do
  let r ← s.world.pspCreateProcess name heap tokenHeap listed
  let s' := match r.1 with
    | none => s.withWorld r.2
    | some p => s.adopt parent p r.2
  return { s' with nextPid := if heap then s.nextPid + 1 else s.nextPid }

/-- `NtClose`. -/
def ntClose (cur : Option Nat) (h : Handle) : Outcome TokenSys :=
  match cur with
  | none => .ok s
  | some c => do
    let r ← s.world.htClose c h
    return s.withWorld r.2

end TokenSys

/-- The process and token of `sched_init`. -/
def schedInit : Outcome TokenSys := do
  let w ← World.obInit
  let p := w.nobj
  let w := w.newObject .process (some "System".toUTF8.toList)
  let c ← w.obCreate .token none none true
  match c.1 with
  | none => .panic "sched: system token"
  | some t =>
    let w := c.2.setObj p { c.2.obj p with permanent := true, token := some t }
    return ⟨w, fun _ => 0, update (fun _ => 0) t 1, 1, fun _ => none⟩

/-- The calls of a run. -/
inductive TokenOp
  | createProcess (parent : Option Nat) (name : Name) (heap tokenHeap listed : Bool)
  | ntOpenProcessToken (cur : Option Nat) (proc : Handle) (access : Access)
  | ntDuplicateToken (cur : Option Nat) (src : Handle) (access : Access) (heap : Bool)
  | ntSetInformationToken (cur : Option Nat) (h : Handle) (integrity : Nat)
  | ntClose (cur : Option Nat) (h : Handle)

def tokenStep (s : TokenSys) : TokenOp → Option TokenSys
  | .createProcess parent name heap tokenHeap listed =>
    (s.pspCreateProcess parent name heap tokenHeap listed).get?
  | .ntOpenProcessToken cur proc access =>
    (s.world.ntOpenProcessToken cur proc access).get?.map fun r => s.withWorld r.2.2
  | .ntDuplicateToken cur src access heap =>
    (s.ntDuplicateToken cur src access heap).get?.map fun r => r.2.2
  | .ntSetInformationToken cur h integrity =>
    (s.ntSetInformationToken cur h integrity).get?.map fun r => r.2
  | .ntClose cur h => (s.ntClose cur h).get?

namespace TokenSys

/-- `p` is a process that has not been deleted. -/
def Proc (s : TokenSys) (p : Nat) : Prop :=
  p < s.world.nobj ∧ (s.world.obj p).kind = .process ∧ (s.world.obj p).deletes = 0
  deriving Decidable

/-- The token of the process `p` has integrity `i`. -/
def Integrity (s : TokenSys) (p i : Nat) : Prop :=
  s.Proc p ∧ ∃ t, (s.world.obj p).token = some t ∧ s.integrity t = i

/-- `q` is `p`, or was created by it or its descendants as one of the objects from `n` on. -/
inductive Descends (s : TokenSys) (n p : Nat) : Nat → Prop
  | self : Descends s n p p
  | child {q r : Nat} : Descends s n p q → s.creator r = some q → n ≤ r → Descends s n p r

end TokenSys

/-- A process is created by a process. -/
def TokenOk (s : TokenSys) : TokenOp → Prop
  | .createProcess (some q) _ _ _ _ => s.Proc q
  | _ => True

instance (s : TokenSys) (a : TokenOp) : Decidable (TokenOk s a) := by
  unfold TokenOk
  split <;> infer_instance

end Aegis
