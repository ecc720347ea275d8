import Aegis.Config
import Aegis.Lib.PrioQueue
import Aegis.Lib.SwapList

/-!
# Threads and the ready queues (`ke.h`, `ob.h`, the first part of `ke/sched.c`)

`Kernel` is what the scheduler and the waits work on: threads, dispatcher objects, processes and
timers, each numbered in the order of their creation, and the variables of the CPU. An intrusive
list is the list of the numbers on it: `list_remove` takes a link off whichever list it is on. (The
link of a wait block that has never been used is zero. The code writes through `NULL` when it
removes such a link, to nothing that is modelled here.)

The functions are atomic. A thread that is switched out has in `cont` what it will do when it runs
again; `Kernel.resume` does it.
-/

namespace Aegis

/-! ## Constants -/

def priorityLevels : Nat := 32
def priorityIdle : Nat := 0
def priorityNormal : Nat := 8
def priorityRealtime : Nat := 24
def quantumTicks : Nat := 3
def waitObjectsMax : Nat := 16
def maxProcesses : Nat := 64

/-- `status_t` as a number: `ke_wait_multiple` also returns an index in it. -/
abbrev StatusCode := Nat

def statusSuccess : StatusCode := 0
def statusAbandoned : StatusCode := 0x80
def statusTimeout : StatusCode := 0x102
def statusInvalidParameter : StatusCode := 0xC000000D
def statusMutantNotOwned : StatusCode := 0xC0000046

def i32 (n : Int) : Int := n.bmod (2 ^ 32)

/-! ## Objects -/

/-- `thread_state_t`. -/
inductive ThreadState
  | unused
  | ready
  | running
  | waiting
  | terminated
  deriving DecidableEq, Repr

/-- `disp_type_t`. -/
inductive DispType
  | notificationEvent
  | synchronizationEvent
  | mutant
  | timer
  | thread
  | process
  deriving DecidableEq, Repr

/-- `wait_block_t` without its links; its `thread` is the one that it is part of. -/
structure WaitBlock where
  object : Option Nat
  wakeStatus : StatusCode
  deriving DecidableEq, Repr

/-- The blocks of a thread: `wait`, and the entries of `wait_multi`. -/
inductive BlockId
  | single
  | multi (i : Nat)
  deriving DecidableEq, Repr

/-- `dispatcher_t`, with the fields of the `mutex_object_t` around it. `recursion` does not wrap:
it is that of the source as long as there are fewer than 2³² nested acquisitions. -/
structure Disp where
  type : DispType
  signalState : Int
  waitList : List (Nat × BlockId)
  owner : Option Nat
  recursion : Nat
  abandoned : Bool
  deriving DecidableEq, Repr

/-- Where a thread goes on. -/
inductive Cont
  /-- In its own code. -/
  | code
  /-- At `thread_trampoline`. -/
  | start
  /-- Behind a `sched_reschedule` of a yield or a tick. -/
  | switched
  /-- Behind the `sched_reschedule` of `ke_wait_object`. -/
  | waitObject
  /-- Behind the one of `ke_wait_multiple`. -/
  | waitMultiple (objs : List Nat) (waitAll : Bool)
  deriving DecidableEq, Repr

/-- `thread_t`. -/
structure Thread where
  disp : Nat
  process : Nat
  state : ThreadState
  priority : Nat
  savedPriority : Nat
  quantumLeft : Nat
  waitBoost : Bool
  wait : WaitBlock
  waitMulti : Nat → WaitBlock
  waitMultiCount : Nat
  waitAll : Bool
  waitTimeoutTick : Nat
  waitTimed : Bool
  ownedMutexes : List Nat
  exitStatus : StatusCode
  killPending : Bool
  cont : Cont

/-- `closes`: the dispatchers that closing the handles of the process signals (the `can_read` of a
pipe that loses its last writer). -/
structure Process where
  disp : Nat
  threads : List Nat
  threadCount : Nat
  exitStatus : StatusCode
  terminating : Bool
  closes : List Nat

/-- `timer_object_t`. -/
structure Timer where
  armed : Bool
  dueTick : Nat
  period : Nat

/-! ## The state -/

/-- The number of a process is its `pid`, and that of a timer is the number of its dispatcher. -/
structure Kernel where
  nthread : Nat
  thread : Nat → Thread
  ndisp : Nat
  disp : Nat → Disp
  nprocess : Nat
  process : Nat → Process
  /-- `g_procs[0 .. g_nprocs)`. -/
  procs : List Nat
  timer : Nat → Timer
  /-- `g_timers`. -/
  timers : List Nat
  timerUp : Bool
  /-- `g_ready` and `g_ready_mask`. -/
  ready : PrioQueue Nat
  /-- `g_idle`. -/
  idle : Nat
  current : Option Nat
  needResched : Bool
  ticks : Nat

namespace Kernel

variable (s : Kernel)

def modThread (t : Nat) (f : Thread → Thread) : Kernel :=
  { s with thread := Function.update s.thread t (f (s.thread t)) }

def modDisp (d : Nat) (f : Disp → Disp) : Kernel :=
  { s with disp := Function.update s.disp d (f (s.disp d)) }

def modProcess (p : Nat) (f : Process → Process) : Kernel :=
  { s with process := Function.update s.process p (f (s.process p)) }

/-! ## Ready queues -/

/-- `ready_insert`. -/
def readyInsert (t : Nat) : Kernel :=
  { s with ready := s.ready.insert (s.thread t).priority t }

def setState (t : Nat) (st : ThreadState) : Kernel :=
  s.modThread t fun th => { th with state := st }

def setPriority (t prio : Nat) : Kernel :=
  s.modThread t fun th => { th with priority := prio }

/-- `sched_ready`'s last part: `t` is ahead of the thread that runs. -/
def preempt (t : Nat) : Kernel :=
  match s.current with
  | none => s
  | some c =>
    if (s.thread t).priority > (s.thread c).priority then { s with needResched := true } else s

/-- `sched_ready`. -/
def schedReady (t : Nat) : Kernel :=
  if (s.thread t).state = .terminated ∨ (s.thread t).state = .ready ∨
    (s.thread t).state = .running then s
  else (((s.setState t .ready).readyInsert t).preempt t)

/-- The end of `sched_boost`, after the priority of `t` has changed from `old`. -/
def boostPreempt (t old : Nat) : Kernel :=
  match s.current with
  | none => s
  | some c =>
    if t ≠ c ∧ (s.thread t).priority > (s.thread c).priority ∨
      c = t ∧ (s.thread t).priority < old then { s with needResched := true }
    else s

/-- A ready thread changes its queue with its priority. -/
def changePriority (t prio : Nat) : Kernel :=
  if (s.thread t).state = .ready then
    let s' := { s with ready := (s.ready.unlink t).settle (s.thread t).priority }
    (s'.setPriority t prio).readyInsert t
  else s.setPriority t prio

/-- `sched_boost`. -/
def schedBoost (t newPrio : Nat) : Kernel :=
  if t = s.idle then s
  else
    let newPrio := if newPrio ≥ priorityLevels then priorityLevels - 1 else newPrio
    let old := (s.thread t).priority
    if old = newPrio then s else (s.changePriority t newPrio).boostPreempt t old

/-- The thread that runs goes back to its queue; the idle thread has none. -/
def putBack : Kernel :=
  match s.current with
  | none => s
  | some c =>
    if (s.thread c).state = .running then
      let s' := s.setState c .ready
      if c ≠ s.idle then s'.readyInsert c else s'
    else s

/-- `next` runs. -/
def switchTo (next : Nat) : Kernel :=
  { s.modThread next fun th =>
      { th with
        state := .running
        quantumLeft := if th.priority ≥ priorityRealtime then 0xFFFF else quantumTicks } with
    current := some next }

/-- `sched_reschedule`. -/
def schedReschedule : Kernel :=
  let r := s.ready.popHighest
  let s := { s with needResched := false, ready := r.2 }
  let next := r.1.getD s.idle
  if s.current = some next then s else s.putBack.switchTo next

/-- The thread that runs will go on behind the `sched_reschedule` that it calls. A thread that has
not yet gone on where it was before still has that to do. -/
def suspend (k : Cont) : Kernel :=
  match s.current with
  | none => s
  | some c => s.modThread c fun th => { th with cont := if th.cont = .code then k else th.cont }

/-- `sched_yield`. -/
def schedYield : Kernel := (s.suspend .switched).schedReschedule

end Kernel

end Aegis
