import Aegis.Ob.HandleSpec

/-!
# What the namespace is for

The operations on names, handles and references, as steps over a world, and the objects that are
linked in a directory (`Linked`). `ob_dereference` does not unlink what it deletes, so the
namespace names only live objects as long as no step drops the last reference of a linked object
(`NsOk`).
-/

namespace Aegis

/-- The calls of a run. -/
inductive NsOp
  | createProcess (name : Name) (heap tokenHeap listed : Bool)
  | createEvent (name : Option Name) (heap : Bool)
  | createMutex (name : Option Name) (heap : Bool)
  | createTimer (name : Option Name) (heap : Bool)
  | createDirectory (cur : Option Nat) (name : Option Name) (heap : Bool)
  | insertName (dir o : Nat) (name : Name)
  | insert (p o : Nat) (access : Access) (inherit protectClose : Bool)
  | close (p : Nat) (h : Handle)
  | reference (o : Nat)
  | dereference (o : Nat)
  | lookup (path : Name) (expect : Option ObjKind)

namespace World

def nsStep (w : World) : NsOp → Outcome World
  | .createProcess name heap tokenHeap listed => do
    return (← w.pspCreateProcess name heap tokenHeap listed).2
  | .createEvent name heap => do return (← w.obCreateEvent name heap).2.2
  | .createMutex name heap => do return (← w.obCreateMutex name heap).2.2
  | .createTimer name heap => do return (← w.obCreateTimer name heap).2.2
  | .createDirectory cur name heap => do
    return (← w.ntCreateDirectoryObject cur name heap).2.2
  | .insertName dir o name => do return (← w.obInsertName dir o name).2
  | .insert p o access inherit protectClose =>
    .ok (w.htInsertEx p o access inherit protectClose).2.2
  | .close p h => do return (← w.htClose p h).2
  | .reference o => .ok (w.obReference o)
  | .dereference o => w.obDereference o
  | .lookup path expect => do return (← w.obLookup path expect).2.2

def nsNext (w : World) (op : NsOp) : Option World := (w.nsStep op).get?

/-- The list nodes that the walks of the buckets come to. -/
inductive Reached (w : World) : Link → Prop
  | bucket (dir hash : Nat) : Reached w (.bucket dir hash)
  | next {e : Link} : Reached w e → Reached w (w.next e)

/-- The object is linked in a directory bucket. -/
def Linked (w : World) (o : Nat) : Prop := w.Reached (.entry o)

/-- The next `ob_dereference` deletes the object. -/
def LastReference (w : World) (o : Nat) : Prop :=
  (w.obj o).pointerCount = 1 ∧ (w.obj o).handleCount = 0 ∧ (w.obj o).permanent = false

/-- `ob_dereference` of `o` deletes `x`: it is `o`, or the token of the process `o`. -/
def Deletes (w : World) (o x : Nat) : Prop :=
  w.LastReference o ∧
    (x = o ∨ (w.obj o).kind = .process ∧ (w.obj o).token = some x ∧ w.LastReference x)

end World

/-- The step drops no last reference of an object that is linked, and names no deleted object. A
directory created with a name needs the handle that keeps it: `NtCreateDirectoryObject` drops its
own reference whether or not the handle could be inserted. -/
def NsOk (w : World) : NsOp → Prop
  | .createDirectory cur name heap =>
    ∀ n, name = some n → n ≠ [] → n.length < nameMax → heap = true →
      ∃ p, cur = some p ∧ (w.handles p).firstFree ≠ none
  | .insertName _ o _ => w.Live o
  | .close p h => ∀ i o, (w.handles p).resolve h = some (i, o) →
      ((w.handles p).slots i).protectClose = false →
        ∀ x, (w.decHandleCount o).Deletes o x → ¬ w.Linked x
  | .dereference o => ∀ x, w.Deletes o x → ¬ w.Linked x
  | _ => True

end Aegis
