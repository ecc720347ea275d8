import Aegis.Ke.Sched
import Aegis.Lib.Run
import Aegis.Ob.Object
import Aegis.Ob.Pipe

/-!
# Readiness of a pipe, and the threads that wait for it (`ob/pipe.c`, `ke_wait_object`)

`PipeObject` is a pipe with its counts of ends. `readyStep` are the calls that change it: the two
callbacks of the handle table and the completed rounds of `pipe_read` and `pipe_write`.

`PipeThreads` adds the threads in `pipe_read` and `pipe_write` and the wait lists of the two
dispatchers. A thread gives up the lock of the pipe before it calls `ke_wait_object`, so that others
run between the two.
-/

namespace Aegis

/-- `pipe_object_t`. -/
structure PipeObject extends Pipe where
  readers : Nat
  writers : Nat

namespace PipeObject

/-- `NtCreatePipe`, before it inserts its handles. -/
def init : PipeObject := ⟨.init, 0, 0⟩

/-- `pipe_open`. -/
def pipeOpen (p : PipeObject) (acc : Access) : PipeObject :=
  let p := if acc &&& fileWriteData ≠ 0 then
    { p with writers := u32 (p.writers + 1), writerClosed := false } else p
  if acc &&& fileReadData ≠ 0 then { p with readers := u32 (p.readers + 1) } else p

/-- `pipe_close`, up to its `disp_signal`. -/
def closeEnds (p : PipeObject) (acc : Access) : PipeObject :=
  let p := if acc &&& fileWriteData ≠ 0 then
    let writers := p.writers - 1
    { p with writers, writerClosed := p.writerClosed || writers == 0 } else p
  if acc &&& fileReadData ≠ 0 then { p with readers := p.readers - 1 } else p

/-- `pipe_close`. -/
def pipeClose (p : PipeObject) (acc : Access) : PipeObject :=
  let p := p.closeEnds acc
  if p.writerClosed then { p with canRead := i32 (p.canRead + 1) } else p

end PipeObject

/-! ## Readiness -/

/-- Steps of a run. -/
inductive ReadyOp
  | pipeOpen (acc : Access)
  | pipeClose (acc : Access)
  /-- A turn of the loop of `pipe_read`, for `n` bytes of which it has `done`. -/
  | read (n done : Nat)
  /-- A turn of the loop of `pipe_write`. -/
  | write (data : List UInt8) (done : Nat)

def readyStep (p : PipeObject) : ReadyOp → Option PipeObject
  | .pipeOpen acc => some (p.pipeOpen acc)
  | .pipeClose acc => some (p.pipeClose acc)
  | .read n done =>
    if done < n then
      match p.readRound n done with
      | .took _ q => some { p with toPipe := q }
      | _ => some p
    else some p
  | .write data done =>
    if done < data.length then
      match p.writeRound data done with
      | .put _ q => some { p with toPipe := q }
      | .wait => some p
    else some p

/-- The dispatchers say what they are for. -/
structure Pipe.Ready (p : Pipe) : Prop where
  canRead : 0 < p.canRead ↔ 0 < p.ring.used ∨ p.writerClosed = true
  canWrite : 0 < p.canWrite ↔ p.ring.used < pipeCap

/-- A wait on a handle of the pipe blocks: its dispatcher is `can_read`. -/
def Pipe.WaitBlocks (p : Pipe) : Prop := ¬ 0 < p.canRead

/-- `pipe_read` finds nothing to read, waits, and is not held up. -/
def Pipe.Spins (p : Pipe) : Prop :=
  p.ring.used = 0 ∧ p.writerClosed = false ∧ 0 < p.canRead

/-- A writer does not come to a pipe that is empty and at its end; a turn of `pipe_read` at the end
of the stream leaves something in the ring; and `signal_state` does not overflow. -/
def KeepsReady (p : PipeObject) : ReadyOp → Prop
  | .pipeOpen acc => acc &&& fileWriteData ≠ 0 → p.writerClosed = true → 0 < p.ring.used
  | .pipeClose acc => (p.closeEnds acc).writerClosed = true → p.canRead < 2 ^ 31 - 1
  | .read n done => done < n → p.writerClosed = true → 0 < p.ring.used → n - done < p.ring.used
  | .write _ _ => True

/-! ## Threads -/

/-- Where a thread is in its call. -/
inductive PipeThread
  | outside
  /-- At the head of the loop. -/
  | turn (request : Request) (done : Nat)
  /-- About to call `ke_wait_object`. -/
  | waits (request : Request) (done : Nat)
  /-- On the wait list. -/
  | blocked (request : Request) (done : Nat)

/-- What a thread does when it is woken. -/
def PipeThread.resume : PipeThread → PipeThread
  | .blocked request done => .turn request done
  | t => t

/-- A pipe and its callers. -/
structure PipeThreads where
  pipe : PipeObject
  thread : Nat → PipeThread
  /-- `can_read.wait_list`. -/
  readWaits : List Nat
  /-- `can_write.wait_list`. -/
  writeWaits : List Nat

namespace PipeThreads

def init : PipeThreads := ⟨.init, fun _ => .outside, [], []⟩

variable (s : PipeThreads)

def set (t : Nat) (x : PipeThread) : PipeThreads :=
  { s with thread := Function.update s.thread t x }

def setPipe (p : PipeObject) : PipeThreads := { s with pipe := p }

/-- `disp_wake_one` of `can_read`. -/
def wakeReader : PipeThreads :=
  match s.readWaits with
  | [] => s
  | t :: rest => { s.set t (s.thread t).resume with readWaits := rest }

/-- `disp_wake_one` of `can_write`. -/
def wakeWriter : PipeThreads :=
  match s.writeWaits with
  | [] => s
  | t :: rest => { s.set t (s.thread t).resume with writeWaits := rest }

/-- `disp_wake_all` of `can_read`. -/
def wakeReaders : PipeThreads :=
  { s with
    thread := fun t => if t ∈ s.readWaits then (s.thread t).resume else s.thread t
    readWaits := [] }

/-- A turn of `pipe_read`. -/
def readTurn (t n done : Nat) : PipeThreads :=
  if done < n then
    match s.pipe.readRound n done with
    | .stop => s.set t .outside
    | .wait => s.set t (.waits (.read n) done)
    | .took bytes q =>
      ((s.setPipe { s.pipe with toPipe := q }).set t
        (.turn (.read n) (done + bytes.length))).wakeWriter
  else s.set t .outside

/-- A turn of `pipe_write`. -/
def writeTurn (t : Nat) (data : List UInt8) (done : Nat) : PipeThreads :=
  if done < data.length then
    match s.pipe.writeRound data done with
    | .wait => s.set t (.waits (.write data) done)
    | .put bytes q =>
      ((s.setPipe { s.pipe with toPipe := q }).set t
        (.turn (.write data) (done + bytes.length))).wakeReader
  else s.set t .outside

/-- `ke_wait_object` without a timeout, on a notification event. -/
def waitRead (t n done : Nat) : PipeThreads :=
  if s.pipe.canRead > 0 then s.set t (.turn (.read n) done)
  else { s.set t (.blocked (.read n) done) with readWaits := s.readWaits ++ [t] }

def waitWrite (t : Nat) (data : List UInt8) (done : Nat) : PipeThreads :=
  if s.pipe.canWrite > 0 then s.set t (.turn (.write data) done)
  else { s.set t (.blocked (.write data) done) with writeWaits := s.writeWaits ++ [t] }

/-- Thread `t` runs up to the next place where another may run. -/
def go (t : Nat) : PipeThreads :=
  match s.thread t with
  | .outside | .blocked _ _ => s
  | .turn (.read n) done => s.readTurn t n done
  | .turn (.write data) done => s.writeTurn t data done
  | .waits (.read n) done => s.waitRead t n done
  | .waits (.write data) done => s.waitWrite t data done

def close (acc : Access) : PipeThreads :=
  let s' := s.setPipe (s.pipe.pipeClose acc)
  if s'.pipe.writerClosed then s'.wakeReaders else s'

end PipeThreads

/-- Steps of a run. -/
inductive PipeThreadOp
  | call (t : Nat) (request : Request)
  | go (t : Nat)
  | pipeOpen (acc : Access)
  | pipeClose (acc : Access)

variable (s : PipeThreads)

def pipeThreadStep : PipeThreadOp → Option PipeThreads
  | .call t request =>
    match s.thread t with
    | .outside => some (s.set t (.turn request 0))
    | _ => none
  | .go t => some (s.go t)
  | .pipeOpen acc => some (s.setPipe (s.pipe.pipeOpen acc))
  | .pipeClose acc => some (s.close acc)

/-- Every thread is outside `pipe_read` and `pipe_write`, or blocked. -/
def PipeThreads.Settled : Prop :=
  ∀ t, s.thread t = .outside ∨ ∃ request done, s.thread t = .blocked request done

/-- Nobody sleeps on data, or on room. -/
structure PipeThreads.NoSleeper : Prop where
  data : 0 < s.pipe.ring.used → ∀ t n done, s.thread t ≠ .blocked (.read n) done
  room : s.pipe.ring.used < pipeCap → ∀ t data done, s.thread t ≠ .blocked (.write data) done

/-- A thread that is about to wait is not held up, or is the only one on the list. -/
def PipeThread.Alone : PipeThread → Prop
  | .waits (.read _) _ => 0 < s.pipe.canRead ∨ s.readWaits = []
  | .waits (.write _) _ => 0 < s.pipe.canWrite ∨ s.writeWaits = []
  | _ => True

/-- A thread blocks on a dispatcher only if no other waits on it, and the count of end-of-file
signals does not overflow. -/
def WaitsAlone : PipeThreadOp → Prop
  | .go t => (s.thread t).Alone s
  | .pipeClose _ => s.pipe.canRead < 2 ^ 31 - 1
  | _ => True

instance (s : PipeThreads) (x : PipeThread) : Decidable (x.Alone s) := by
  unfold PipeThread.Alone
  split <;> infer_instance

instance (s : PipeThreads) (a : PipeThreadOp) : Decidable (WaitsAlone s a) := by
  cases a <;> dsimp only [WaitsAlone] <;> infer_instance

end Aegis
