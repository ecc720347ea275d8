import Aegis.Ob.HandleSpec
import Aegis.Lib.Mask

/-!
# Rights

What a step copies handles from and to, and what it means that no copy has a right its source
lacks (`Copied`). `ht_duplicate` inserts the rights its caller asks for without a look at the ones
it found, so this holds of the duplications that ask for no more (`DupOk`).
-/

namespace Aegis

def genericBits : Access := 0xF0000000#32

namespace World

abbrev slot (w : World) (p i : Nat) : HandleEntry := (w.handles p).slots i

/-- The process that an argument of `NtDuplicateObject` names. -/
def argProcess (w : World) (cur : Option Nat) (h : Handle) : Option Nat :=
  (w.processArg cur h processDupHandle).2.1

end World

/-- The copying operations. -/
def HtOp.IsCopy : HtOp → Prop
  | .duplicate _ _ _ _ => True
  | .ntDuplicate _ _ _ _ _ _ => True
  | .inherit _ _ => True
  | _ => False

/-- The step copies the slot `j` of the table of `s`. -/
def CopiesFrom (w : World) (s j : Nat) : HtOp → Prop
  | .duplicate src h _ _ => s = src ∧ ∃ o, (w.handles s).resolve h = some (j, o)
  | .ntDuplicate cur srcProc src _ _ _ =>
    w.argProcess cur srcProc = some s ∧ ∃ o, (w.handles s).resolve src = some (j, o)
  | .inherit src _ => s = src ∧ (w.slot s j).inherit = true
  | _ => False

/-- The step inserts into the table of `d`. -/
def InsertsInto (w : World) (d : Nat) : HtOp → Prop
  | .insert p _ _ _ _ => d = p
  | .duplicate _ _ dst _ => d = dst
  | .ntDuplicate cur _ _ dstProc _ _ => w.argProcess cur dstProc = some d
  | .inherit _ dst => d = dst
  | _ => False

/-- Every handle the step creates has at most the rights of the one it was copied from. -/
def Copied (w : World) (op : HtOp) (w' : World) : Prop :=
  ∀ p i o, (w.slot p i).object = none → (w'.slot p i).object = some o →
    InsertsInto w p op ∧ ∃ s j, CopiesFrom w s j op ∧ (w.slot s j).object = some o ∧
      Mask.Le (w'.slot p i).access (w.slot s j).access

/-- The rights asked for are granted: each specific one, and for each generic one those that the
type maps it to. -/
structure Within (type : ObjectType) (access granted : Access) : Prop where
  specific : Mask.Le (access &&& ~~~genericBits) granted
  read : access &&& genericRead ≠ 0 → Mask.Le type.genericRead granted
  write : access &&& genericWrite ≠ 0 → Mask.Le type.genericWrite granted
  execute : access &&& genericExecute ≠ 0 → Mask.Le type.genericExecute granted
  all : access &&& genericAll ≠ 0 → Mask.Le type.genericAll granted

/-- The duplication of the handle `h` of `s` asks for the rights of `h`, or for rights it has. -/
def AskedWithin (w : World) (s : Nat) (h : Handle) (access : Access) : Prop :=
  access = 0 ∨ ∀ i o, (w.handles s).resolve h = some (i, o) →
    Within (objectType (w.obj o).kind) access (w.slot s i).access

/-- A duplication asks for rights that its source has. -/
def DupOk (w : World) : HtOp → Prop
  | .duplicate src h _ access => AskedWithin w src h access
  | .ntDuplicate cur srcProc src _ access flags =>
    flags &&& duplicateSameAccess ≠ 0 ∨
      ∀ s, w.argProcess cur srcProc = some s → AskedWithin w s src access
  | _ => True

/-! ## Confinement -/

/-- The handles to `o` that the processes of `S` hold grant only rights of `r`. -/
def HoldWithin (S : Set Nat) (o : Nat) (r : Access) (w : World) : Prop :=
  ∀ p ∈ S, ∀ i, (w.slot p i).object = some o → Mask.Le (w.slot p i).access r

/-- The step brings `o` into `S` at most by a copy from within `S`. -/
def Inside (S : Set Nat) (o : Nat) (w : World) (op : HtOp) : Prop :=
  ∀ d ∈ S, InsertsInto w d op → match op with
    | .insert _ o' _ _ _ => o' ≠ o
    | _ => ∀ s j, CopiesFrom w s j op → (w.slot s j).object = some o → s ∈ S

end Aegis
