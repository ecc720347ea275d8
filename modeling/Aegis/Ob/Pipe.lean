import Aegis.Config
import Aegis.Lib.RingBuffer

/-!
# Pipes (`ob/pipe.c`)

`readRound` and `writeRound` are the lock-delimited rounds of `pipe_read` and `pipe_write`. A round
that finds nothing to do waits on a dispatcher and is tried again. `disp_wake_one` moves threads
between lists that are not part of the pipe.

`PipeSys` is a pipe with the calls that work on it, in any number and in any interleaving of their
rounds. `delivered` and `accepted` record what went out and in, round by round, with the call it
was for; the code keeps no such record.
-/

namespace Aegis

open RingBuffer

def pipeCap : Nat := 4096

/-- The part of a `pipe_object_t` that reads and writes use. -/
structure Pipe where
  ring : Buffer UInt8
  /-- `can_read.signal_state`. -/
  canRead : Int
  /-- `can_write.signal_state`. -/
  canWrite : Int
  writerClosed : Bool

def Pipe.init : Pipe := ⟨⟨fun _ => 0, 0, 0, 0⟩, 0, 1, false⟩

/-- A round of `pipe_read`. -/
inductive ReadRound
  | stop
  | wait
  | took (bytes : List UInt8) (p : Pipe)

def Pipe.readRound (p : Pipe) (n done : Nat) : ReadRound :=
  if p.ring.used = 0 then
    if done ≠ 0 then .stop
    else if p.writerClosed then .stop
    else .wait
  else
    let take := u32 (min (n - done) p.ring.used)
    let (bytes, ring) := popMany pipeCap take p.ring
    .took bytes
      { p with ring, canRead := if ring.used = 0 then 0 else p.canRead, canWrite := 1 }

/-- A round of `pipe_write`. -/
inductive WriteRound
  | wait
  | put (bytes : List UInt8) (p : Pipe)

def Pipe.writeRound (p : Pipe) (data : List UInt8) (done : Nat) : WriteRound :=
  if p.ring.used = pipeCap then .wait
  else
    let room := pipeCap - p.ring.used
    let take := u32 (min (data.length - done) room)
    let bytes := (data.drop done).take take
    let ring := pushMany pipeCap bytes p.ring
    .put bytes { p with ring, canRead := 1, canWrite := if ring.used < pipeCap then 1 else 0 }

/-! ## Calls -/

/-- What a call asks for. -/
inductive Request
  | read (n : Nat)
  | write (data : List UInt8)

/-- A call of `pipe_read` or `pipe_write`: the bytes it has moved, and its status once it has
returned. -/
structure Call where
  request : Request
  moved : List UInt8
  result : Option Status

/-- A pipe, its calls, and what has gone through it. -/
structure PipeSys where
  pipe : Pipe
  calls : List Call
  delivered : List (Nat × List UInt8)
  accepted : List (Nat × List UInt8)

def PipeSys.init : PipeSys := ⟨.init, [], [], []⟩

/-- Steps of a run. -/
inductive PipeOp
  | begin (request : Request)
  /-- A round of a call. -/
  | round (i : Nat)
  /-- `pipe_open` or `pipe_close` sets `writer_closed`. -/
  | closed (b : Bool)

namespace PipeSys

def setCall (s : PipeSys) (i : Nat) (c : Call) : PipeSys := { s with calls := s.calls.set i c }

def readStatus (moved : List UInt8) : Status :=
  if moved.length ≠ 0 then .success else .endOfFile

/-- A turn of the loop of `pipe_read`, or its end. -/
def readTurn (s : PipeSys) (i : Nat) (c : Call) (n : Nat) : PipeSys :=
  let finish := s.setCall i { c with result := some (readStatus c.moved) }
  if c.moved.length < n then
    match s.pipe.readRound n c.moved.length with
    | .stop => finish
    | .wait => s
    | .took bytes pipe =>
      { s.setCall i { c with moved := c.moved ++ bytes } with
        pipe, delivered := s.delivered ++ [(i, bytes)] }
  else finish

/-- A turn of the loop of `pipe_write`, or its end. -/
def writeTurn (s : PipeSys) (i : Nat) (c : Call) (data : List UInt8) : PipeSys :=
  if c.moved.length < data.length then
    match s.pipe.writeRound data c.moved.length with
    | .wait => s
    | .put bytes pipe =>
      { s.setCall i { c with moved := c.moved ++ bytes } with
        pipe, accepted := s.accepted ++ [(i, bytes)] }
  else s.setCall i { c with result := some .success }

/-- A call that has returned takes no more rounds. -/
def step (s : PipeSys) : PipeOp → PipeSys
  | .begin request => { s with calls := s.calls ++ [⟨request, [], none⟩] }
  | .round i =>
    match s.calls[i]? with
    | none => s
    | some c =>
      if c.result ≠ none then s
      else
        match c.request with
        | .read n => s.readTurn i c n
        | .write data => s.writeTurn i c data
  | .closed b => { s with pipe := { s.pipe with writerClosed := b } }

def run (ops : List PipeOp) : PipeSys := ops.foldl step init

end PipeSys

/-! ## The stream -/

/-- All bytes of a record, in order. -/
def stream (l : List (Nat × List UInt8)) : List UInt8 := l.flatMap (·.2)

/-- The bytes of one call. -/
def streamOf (i : Nat) (l : List (Nat × List UInt8)) : List UInt8 :=
  stream (l.filter fun x => x.1 = i)

/-- What a call has moved is its part of the record; a write moves the bytes of its buffer, in
order, and returns when it has moved them all. -/
def Call.Recorded (s : PipeSys) (i : Nat) (c : Call) : Prop :=
  match c.request with
  | .read n => streamOf i s.delivered = c.moved ∧ c.moved.length ≤ n
  | .write data => streamOf i s.accepted = c.moved ∧ c.moved <+: data ∧
      (c.result ≠ none → c.moved = data)

/-- The bytes come out as they went in. -/
structure Streamed (s : PipeSys) : Prop where
  used_le : s.pipe.ring.used ≤ pipeCap
  w_eq : s.pipe.ring.w = (s.pipe.ring.r + s.pipe.ring.used) % pipeCap
  /-- What was delivered and what is in the ring is what was accepted. -/
  stream : stream s.delivered ++ contents pipeCap s.pipe.ring = stream s.accepted
  calls : ∀ i (c : Call), s.calls[i]? = some c → c.Recorded s i

end Aegis
