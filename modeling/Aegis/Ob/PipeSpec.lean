import Aegis.Ob.HandleSpec
import Aegis.Ob.Pipe

/-!
# The ends of a pipe

`NtCreatePipe`, and `pipe_read` as one call that nothing interrupts. `pipeStep` are the handle-table
operations together with the creation of pipes; `PipeEnds` says what the counts of a pipe are for.
-/

namespace Aegis

/-! ## Reading -/

/-- How a read ends. -/
inductive ReadResult
  | returned (st : Status) (bytes : List UInt8) (p : Pipe)
  /-- The call waits on `can_read`. -/
  | blocked (bytes : List UInt8) (p : Pipe)

/-- The loop of `pipe_read`, at most `k` rounds; a round that does not end it moves a byte. -/
def Pipe.readLoop (n : Nat) : Nat → Pipe → List UInt8 → Outcome ReadResult
  | 0, _, _ => .diverge
  | k + 1, p, moved =>
    if moved.length < n then
      match p.readRound n moved.length with
      | .stop => .ok (.returned (PipeSys.readStatus moved) moved p)
      | .wait => .ok (.blocked moved p)
      | .took bytes p => readLoop n k p (moved ++ bytes)
    else .ok (.returned (PipeSys.readStatus moved) moved p)

/-- `pipe_read`. -/
def Pipe.pipeRead (p : Pipe) (n : Nat) : Outcome ReadResult := p.readLoop n (n + 1) []

/-- The call ends with `STATUS_END_OF_FILE`, without blocking. -/
def Pipe.ReadsEof (p : Pipe) (n : Nat) : Prop :=
  ∃ p', p.pipeRead n = .ok (.returned .endOfFile [] p')

/-! ## Creating -/

namespace World

/-- The handles of `NtCreatePipe`; its reference to the pipe goes. -/
def pipeHandles (w : World) (p o : Nat) :
    Outcome (Status × Option Handle × Option Handle × World) :=
  let r := w.htInsert p o fileReadData
  if ntSuccess r.1 = false then do
    let w ← r.2.2.obDereference o
    return (r.1, r.2.1, none, w)
  else do
    let r' := r.2.2.htInsert p o fileWriteData
    let w ← r'.2.2.obDereference o
    return (r'.1, r.2.1, r'.2.1, w)

/-- `NtCreatePipe`. -/
def ntCreatePipe (w : World) (cur : Option Nat) (heap : Bool) :
    Outcome (Status × Option Handle × Option Handle × World) := do
  match ← w.obCreate .pipe none none heap with
  | (none, w) => return (.noMemory, none, none, w)
  | (some o, w) =>
    match cur with
    | none => do
      let w ← w.obDereference o
      return (.invalidHandle, none, none, w)
    | some p => w.pipeHandles p o

/-- The slots that name `o` with one of the rights `bits`, over all tables. -/
def slotsWith (w : World) (o : Nat) (bits : Access) : Nat :=
  ∑ p ∈ Finset.range w.nobj, ∑ i ∈ Finset.Ico 1 handleTableSlots,
    if ((w.handles p).slots i).object = some o ∧ ((w.handles p).slots i).access &&& bits ≠ 0
    then 1 else 0

end World

/-! ## Runs -/

/-- The calls of a run. -/
inductive PipeHtOp
  | ht (op : HtOp)
  | createPipe (cur : Option Nat) (heap : Bool)

/-- `pipes`: the ones that a successful `NtCreatePipe` has made. -/
structure PipeState where
  ht : HtState
  pipes : List Nat

def pipeStep (s : PipeState) : PipeHtOp → Option PipeState
  | .ht op => (ownStep s.ht op).map fun t => { s with ht := t }
  | .createPipe cur heap =>
    (s.ht.world.ntCreatePipe cur heap).get?.map fun r =>
      { ht := { s.ht with world := r.2.2.2 }
        pipes := if r.1 = .success then s.ht.world.nobj :: s.pipes else s.pipes }

def PipeHtOk (s : PipeState) : PipeHtOp → Prop
  | .ht op => HtOk s.ht op
  | .createPipe cur _ => ∀ p ∈ cur, p < s.ht.world.nobj

instance (s : PipeState) (op : PipeHtOp) : Decidable (PipeHtOk s op) := by
  cases op <;> dsimp only [PipeHtOk] <;> infer_instance

/-- The counts of a pipe are those of its handles. -/
structure PipeEnds (w : World) (o : Nat) : Prop where
  writers : (w.obj o).writers = w.slotsWith o fileWriteData
  readers : (w.obj o).readers = w.slotsWith o fileReadData
  closed : (w.obj o).writerClosed = true ↔ (w.obj o).writers = 0

/-- Some slot of some table can write to `o`. -/
def World.Writable (w : World) (o : Nat) : Prop :=
  ∃ p < w.nobj, ∃ i ∈ Finset.Ico 1 handleTableSlots,
    ((w.handles p).slots i).object = some o ∧
      ((w.handles p).slots i).access &&& fileWriteData ≠ 0

end Aegis
