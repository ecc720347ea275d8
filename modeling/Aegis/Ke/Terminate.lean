import Aegis.Ke.Wait
import Aegis.Ob.Token

/-!
# Processes that end (`NtTerminateProcess` of `ke/syscall.c`, `ke/sched.c`)

`ProcSys` puts the processes of the kernel and the objects of the object manager together. In the
source a `process_t` is both; here `obj` is the process object of a process, whose handle table its
threads use, and `proc` the process that a process object is.

The address space of a process is left out: nothing here reads it.
-/

namespace Aegis

/-- The objects and the kernel, with the objects of threads and processes. -/
structure ProcSys where
  world : World
  ke : Kernel
  obj : Nat → Nat
  proc : Nat → Nat

namespace ProcSys

variable (s : ProcSys)

def keCurrentProcess : Option Nat :=
  s.ke.current.map fun t => (s.ke.thread t).process

/-- `t` is the last thread of its process. -/
def Last (t : Nat) : Prop :=
  u32 ((s.ke.process (s.ke.thread t).process).threadCount + (2 ^ 32 - 1)) = 0
  deriving Decidable

/-- What the end of the process `p` is for the objects: its handles are closed, and the table of
processes drops its reference. -/
def processEnd (p : Nat) : Outcome World := do
  let w ← s.world.htDestroy (s.obj p)
  if p ≠ 0 ∧ p ≠ 1 ∧ p ∈ s.ke.procs then w.obDereference (s.obj p) else return w

/-- What the end of the thread `t` is for them. -/
def threadEnd (t : Nat) : Outcome World :=
  if s.Last t then s.processEnd (s.ke.thread t).process else .ok s.world

/-- `sched_exit_thread`. -/
def schedExitThread (st : StatusCode) : Outcome ProcSys :=
  match s.ke.current with
  | none => .fault
  | some t => do
    let ke ← s.ke.schedExitThread st
    let world ← s.threadEnd t
    return { s with world, ke }

/-- `NtTerminateProcess`, with the process it was asked about. -/
def terminate (p : Option Nat) (stcode : StatusCode) :
    Outcome (Option StatusCode × ProcSys) :=
  match p with
  | none => .ok (some Status.invalidHandle.code, s)
  | some p =>
    if p = 1 then .panic "init died"
    else do
      let ke := s.ke.modProcess p fun x => { x with terminating := true, exitStatus := stcode }
      let s ← { s with ke }.schedExitThread stcode
      return (none, s)

/-- `none`: the call does not return. -/
def ntTerminateProcess (h : Handle) (stcode : StatusCode) :
    Outcome (Option StatusCode × ProcSys) :=
  if h = handleCurrent then s.terminate s.keCurrentProcess stcode
  else
    let r := s.world.htLookupCur (s.keCurrentProcess.map s.obj) h processTerminate (some .process)
    match r.2.1 with
    | none => .ok (some r.1.code, { s with world := r.2.2 })
    | some (o, _) => do
      let world ← r.2.2.obDereference o
      { s with world }.terminate (some (s.proc o)) stcode

/-- The process that a handle names, if the handle grants `PROCESS_TERMINATE`. -/
def target (h : Handle) : Option Nat :=
  if h = handleCurrent then s.keCurrentProcess
  else
    (s.world.htLookupCur (s.keCurrentProcess.map s.obj) h processTerminate (some .process)).2.1.map
      fun x => s.proc x.1

end ProcSys

end Aegis
