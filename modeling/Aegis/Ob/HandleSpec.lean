import Aegis.Ob.Handle
import Aegis.Lib.Run
import Aegis.Lib.Count

/-!
# What the handle tables are for

The operations of the object manager that concern handles and references, as steps over a world
(`htStep`). A step hands its caller references (`HtState.own` counts the ones outstanding), and a
plain `ob_dereference` gives one back.

`Accounting` relates the counts of an object to who holds it: the slots of all tables, the token
fields of the processes, and the callers.
-/

namespace Aegis

/-- The calls of a run. -/
inductive HtOp
  | create (kind : ObjKind) (permanent heap : Bool)
  | createProcess (name : Name) (heap tokenHeap listed : Bool)
  | insert (p o : Nat) (access : Access) (inherit protectClose : Bool)
  | lookup (p : Nat) (h : Handle) (required : Access) (expect : Option ObjKind)
  | close (p : Nat) (h : Handle)
  | duplicate (src : Nat) (h : Handle) (dst : Nat) (access : Access)
  | ntDuplicate (cur : Option Nat) (srcProc src dstProc : Handle) (access : Access)
      (flags : BitVec 32)
  | inherit (src dst : Nat)
  | setInherit (p : Nat) (h : Handle) (inherit : Bool)
  | destroy (p : Nat)
  | reference (o : Nat)
  | dereference (o : Nat)
  deriving Repr

namespace World

/-- `ob_create` without a name, and `flags |= OBJ_PERMANENT` where its caller sets it. -/
def createObject (w : World) (kind : ObjKind) (permanent heap : Bool) :
    Outcome (Option Nat × World) := do
  match ← w.obCreate kind none none heap with
  | (none, w) => return (none, w)
  | (some o, w) => return (some o, w.setObj o { w.obj o with permanent })

/-- A step: the world after it, and the references its caller holds now. -/
def htStep (w : World) : HtOp → Outcome (World × List Nat)
  | .create kind permanent heap => do
    let (o, w) ← w.createObject kind permanent heap
    return (w, o.toList)
  | .createProcess name heap tokenHeap listed => do
    let (p, w) ← w.pspCreateProcess name heap tokenHeap listed
    return (w, if listed then p.toList ++ p.toList else p.toList)
  | .insert p o access inherit protectClose =>
    .ok ((w.htInsertEx p o access inherit protectClose).2.2, [])
  | .lookup p h required expect =>
    let r := w.htLookupEx p h required expect
    .ok (r.2.2, (r.2.1.map (·.1)).toList)
  | .close p h => do
    let (_, w) ← w.htClose p h
    return (w, [])
  | .duplicate src h dst access => do
    let (_, _, w) ← w.htDuplicate src h dst access
    return (w, [])
  | .ntDuplicate cur srcProc src dstProc access flags => do
    let (_, _, w) ← w.ntDuplicateObject cur srcProc src dstProc access flags
    return (w, [])
  | .inherit src dst => do
    let (_, w) ← w.htInheritTable src dst
    return (w, [])
  | .setInherit p h inherit => .ok ((w.htSetInherit p h inherit).2, [])
  | .destroy p => do
    let w ← w.htDestroy p
    return (w, [])
  | .reference o => .ok (w.obReference o, [o])
  | .dereference o => do
    let w ← w.obDereference o
    return (w, [])

def htNext (w : World) (op : HtOp) : Option World := (w.htStep op).get?.map (·.1)

/-- The slots that name `o`, over all tables. -/
def slotRefs (w : World) (o : Nat) : Nat :=
  ∑ p ∈ Finset.range w.nobj,
    Count.count (Finset.Ico 1 handleTableSlots) (fun i => ((w.handles p).slots i).object) o

/-- The processes whose token is `o`. -/
def tokenRefs (w : World) (o : Nat) : Nat :=
  Count.count (Finset.range w.nobj) (fun p => (w.obj p).token) o

end World

/-- A world and the references its callers hold. -/
structure HtState where
  world : World
  own : Nat → Nat

/-- One call, with its caller's references. -/
def ownStep (s : HtState) (op : HtOp) : Option HtState :=
  (s.world.htStep op).get?.map fun r =>
    { world := r.1
      own := fun o => match op with
        | .dereference o' => if o = o' then s.own o - 1 else s.own o
        | _ => s.own o + r.2.count o }

/-- The object exists and has not been deleted. -/
def World.Live (w : World) (o : Nat) : Prop := o < w.nobj ∧ (w.obj o).deletes = 0
  deriving Decidable

/-- What the callers keep to: the tables exist, what they insert or reference has not been
deleted, and they drop only references they hold. -/
def HtOk (s : HtState) : HtOp → Prop
  | .create _ _ _ => True
  | .createProcess _ _ _ _ => True
  | .insert p o _ _ _ => p < s.world.nobj ∧ s.world.Live o
  | .lookup p _ _ _ => p < s.world.nobj
  | .close p _ => p < s.world.nobj
  | .duplicate src _ dst _ => src < s.world.nobj ∧ dst < s.world.nobj
  | .ntDuplicate cur _ _ _ _ _ => ∀ p ∈ cur, p < s.world.nobj
  | .inherit src dst => src < s.world.nobj ∧ dst < s.world.nobj
  | .setInherit p _ _ => p < s.world.nobj
  | .destroy p => p < s.world.nobj
  | .reference o => s.world.Live o
  | .dereference o => 0 < s.own o

instance (s : HtState) (op : HtOp) : Decidable (HtOk s op) := by
  cases op <;> dsimp only [HtOk] <;> infer_instance

/-- The references to `o` that are no handle: the callers' and the processes' tokens. -/
def HtState.owned (s : HtState) (o : Nat) : Nat := s.own o + s.world.tokenRefs o

/-- The counts are those of the handles and of the references owned. -/
structure Accounting (s : HtState) : Prop where
  handleCount : ∀ o < s.world.nobj, (s.world.obj o).handleCount = s.world.slotRefs o
  pointerCount : ∀ o < s.world.nobj,
    (s.world.obj o).pointerCount = (s.world.obj o).handleCount + s.owned o
  /-- Deleted once, from the moment that nobody holds it. -/
  deletes : ∀ o < s.world.nobj, (s.world.obj o).permanent = false →
    (s.world.obj o).deletes = if s.world.slotRefs o + s.owned o = 0 then 1 else 0
  permanent : ∀ o < s.world.nobj, (s.world.obj o).permanent = true →
    (s.world.obj o).deletes = 0

/-! ## The life of a handle -/

/-- The operations of `handle.c` and the ones on references. -/
def HtOp.IsTable : HtOp → Prop
  | .ntDuplicate _ _ _ _ _ _ => False
  | _ => True

/-- The step ends the life of the handle `h` of the table of `p`: it closes the slot, with this
value or another one of the same index and generation, or it destroys the table. -/
def Ends (p : Nat) (h : Handle) (w : World) : HtOp → Prop
  | .close p' h' => p' = p ∧ handleIndex h' = handleIndex h ∧ handleGen h' = handleGen h ∧
      h' &&& 3 = 0 ∧ ((w.handles p).slots (handleIndex h)).protectClose = false
  | .destroy p' => p' = p
  | _ => False

/-- Some step of the run ends the life of the handle. -/
def Ended (p : Nat) (h : Handle) : World → List HtOp → Prop
  | _, [] => False
  | w, op :: ops => Ends p h w op ∨ ∃ w', w.htNext op = some w' ∧ Ended p h w' ops

/-- `h` names the object `o` in the table of `p`: every function accepts it. -/
structure Accepted (w : World) (p : Nat) (h : Handle) (o : Nat) : Prop where
  /-- A lookup that asks for nothing finds the object. -/
  lookup : ∃ granted, w.htLookupEx p h 0 none = (.success, some (o, granted), w.obReference o)
  /-- A lookup that asks for rights or a kind can be refused for them, and finds no other. -/
  asked : ∀ required expect, (w.htLookupEx p h required expect).1 ≠ .invalidHandle ∧
    ∀ x ∈ (w.htLookupEx p h required expect).2.1, x.1 = o
  /-- A close is refused for a protected handle, and releases the object otherwise. -/
  close : w.htClose p h =
    if ((w.handles p).slots (handleIndex h)).protectClose then .ok (.accessDenied, w)
    else do
      let t := w.handles p
      let e := t.slots (handleIndex h)
      let w := w.setTable p (t.set (handleIndex h) (World.emptied e) (Word.sub 32 t.used 1))
      let w ← w.releaseHandle o e.access
      return (.success, w)
  setInherit : ∀ inherit, (w.htSetInherit p h inherit).1 = .success

/-- `h` names nothing in the table of `p`: every function refuses it and changes nothing. -/
structure Rejected (w : World) (p : Nat) (h : Handle) : Prop where
  lookup : ∀ required expect, w.htLookupEx p h required expect = (.invalidHandle, none, w)
  close : w.htClose p h = .ok (.invalidHandle, w)
  setInherit : ∀ inherit, w.htSetInherit p h inherit = (.invalidHandle, w)

/-- No other handle of the table of `p`, present or to come with the next step, has the value. -/
structure Distinct (w : World) (p : Nat) (h : Handle) : Prop where
  slots : ∀ i ∈ Finset.Ico 1 handleTableSlots, i ≠ handleIndex h →
    handleValue i ((w.handles p).slots i).generation ≠ h
  insert : ∀ o access inherit protectClose,
    (w.htInsertEx p o access inherit protectClose).2.1 ≠ some h
  duplicate : ∀ src h' access st out w', w.htDuplicate src h' p access = .ok (st, out, w') →
    out ≠ some h

end Aegis
