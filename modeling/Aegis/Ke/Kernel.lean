import Aegis.Ke.Wait
import Aegis.Lib.Run

/-!
# Ticks, timers and the steps of the kernel (`ke/timer.c`, the rest of `ke/sched.c`)

`keStep` has a step for every call that changes a thread, a dispatcher or a ready queue. `KeOk`
says who calls what: a thread that has been switched in first goes on where it was (`resume`), and
the idle thread does nothing but yield.
-/

namespace Aegis

open Function

namespace Kernel

/-! ## Timers -/

variable (s : Kernel)

def modTimer (d : Nat) (f : Timer → Timer) : Kernel :=
  { s with timer := update s.timer d (f (s.timer d)) }

def unlinkTimer (d : Nat) : Kernel :=
  { s with timers := s.timers.filter (· ≠ d) }

def disarm (d : Nat) : Kernel :=
  if (s.timer d).armed then
    (s.unlinkTimer d).modTimer d fun x => { x with armed := false }
  else s

/-- `ke_set_timer`. -/
def keSetTimer (d dueTicks period : Nat) : Kernel :=
  let s := if s.timerUp then s else { s with timers := [], timerUp := true }
  let s := s.disarm d
  let s := s.modTimer d fun _ =>
    ⟨true, u64 (s.ticks + if dueTicks ≠ 0 then dueTicks else 1), period⟩
  let s := s.modDisp d fun x => { x with signalState := 0 }
  { s with timers := s.timers ++ [d] }

/-- `ke_cancel_timer`. -/
def keCancelTimer (d : Nat) : Kernel :=
  (s.disarm d).modDisp d fun x => { x with signalState := 0 }

/-- A round of `timer_tick` for the timer `d`, which is due. -/
def timerFire (now d : Nat) : Kernel :=
  let s := (s.unlinkTimer d).modTimer d fun x => { x with armed := false }
  let s := s.dispSignal d 1
  if (s.timer d).period ≠ 0 then
    let s := s.modTimer d fun x => { x with dueTick := u64 (now + x.period), armed := true }
    { s with timers := s.timers ++ [d] }
  else s

/-- The loop of `timer_tick`. A timer that is due again right after it has been rearmed is due in
every round, so the loop does not end if it has not after a round for each timer. -/
def timerLoop (now : Nat) : Nat → Kernel → Outcome Kernel
  | k, s =>
    match s.timers.find? fun d => (s.timer d).armed ∧ now ≥ (s.timer d).dueTick with
    | none => .ok s
    | some d =>
      match k with
      | 0 => .diverge
      | k + 1 => timerLoop now k (s.timerFire now d)

/-- `timer_tick`. -/
def timerTick (now : Nat) : Outcome Kernel :=
  if s.timerUp = false then .ok s else timerLoop now s.timers.length s

/-! ## The clock -/

/-- The timeout of a thread that waits for several objects. -/
def expireMulti (t : Nat) : Kernel :=
  let s := (List.range (s.thread t).waitMultiCount).foldl (fun s k =>
    match ((s.thread t).waitMulti k).object with
    | none => s
    | some _ => s.unlinkBlock (t, .multi k)) s
  let s := s.modThread t fun th =>
    { th with
      wait := { th.wait with wakeStatus := statusTimeout }
      waitTimed := false
      waitMultiCount := 0 }
  { s.schedReady t with needResched := true }

/-- The timeout of a thread that waits for one object. -/
def expireSingle (t : Nat) : Kernel :=
  let s :=
    match (s.thread t).wait.object with
    | none => s
    | some _ =>
      (s.unlinkBlock (t, .single)).modThread t fun th =>
        { th with wait := { th.wait with wakeStatus := statusTimeout }, waitTimed := false }
  { s.schedReady t with needResched := true }

/-- A wait times out. -/
def expire (t : Nat) : Kernel :=
  if (s.thread t).state ≠ .waiting ∨ (s.thread t).waitTimed = false then s
  else if s.ticks < (s.thread t).waitTimeoutTick then s
  else if (s.thread t).waitMultiCount ≠ 0 then s.expireMulti t
  else s.expireSingle t

/-- The scan of `ke_on_tick` for timeouts. -/
def timeoutScan : Kernel :=
  s.procs.foldl (fun s p =>
    if (s.process p).threadCount = 0 then s else (s.process p).threads.foldl expire s) s

/-- The quantum of the thread that runs. -/
def useQuantum (t : Nat) : Kernel :=
  if (s.thread t).quantumLeft ≠ 0 ∧ (s.thread t).priority < priorityRealtime then
    let s := s.modThread t fun th => { th with quantumLeft := th.quantumLeft - 1 }
    if (s.thread t).quantumLeft = 0 then { s with needResched := true } else s
  else s

/-- `ke_on_tick`, with the switch that it asks for. -/
def keOnTick : Outcome Kernel := do
  let s := { s with ticks := u64 (s.ticks + 1) }
  let s ← s.timerTick s.ticks
  let s := s.timeoutScan
  match s.current with
  | none => return s
  | some t =>
    let s := s.useQuantum t
    return if s.needResched then s.schedYield else s

/-- The next tick ends the wait of `t`. -/
def Expires (t : Nat) : Prop :=
  (s.thread t).state = .waiting ∧ (s.thread t).waitTimed = true ∧
    (s.thread t).waitTimeoutTick ≤ u64 (s.ticks + 1)
  deriving Decidable

/-- The next tick finds nothing to do: no timer and no timeout is due, the quantum does not end, and
nobody has asked for a switch. -/
@[mk_iff] structure QuietTick : Prop where
  timers : ∀ d ∈ s.timers, (s.timer d).armed = true → u64 (s.ticks + 1) < (s.timer d).dueTick
  timeouts : ∀ p ∈ s.procs, ∀ t ∈ (s.process p).threads, ¬ s.Expires t
  quantum : ∀ t ∈ s.current,
    (s.thread t).quantumLeft ≠ 1 ∨ priorityRealtime ≤ (s.thread t).priority
  resched : s.needResched = false

instance (s : Kernel) : Decidable s.QuietTick := decidable_of_iff _ (quietTick_iff s).symm

/-! ## New objects -/

def newDisp (type : DispType) (state : Int) : Kernel :=
  { s with
    ndisp := s.ndisp + 1
    disp := update s.disp s.ndisp ⟨type, state, [], none, 0, false⟩ }

def obCreateEvent (autoReset initial : Bool) : Kernel :=
  s.newDisp (if autoReset then .synchronizationEvent else .notificationEvent)
    (if initial then 1 else 0)

def obCreateTimer (autoReset : Bool) : Kernel :=
  { s.newDisp (if autoReset then .synchronizationEvent else .notificationEvent) 0 with
    timer := update s.timer s.ndisp ⟨false, 0, 0⟩ }

def obCreateMutex (initialOwner : Bool) : Kernel :=
  let m := s.ndisp
  let owner := if initialOwner then s.current else none
  let s := (s.newDisp .mutant (if initialOwner then 0 else 1)).modDisp m fun x =>
    { x with owner, recursion := if initialOwner then 1 else 0 }
  match owner with
  | none => s
  | some t => s.keMutexOwn m t

/-- `psp_create_process`, when it succeeds. -/
def pspCreateProcess : Kernel :=
  let p := s.nprocess
  { s.newDisp .process 0 with
    nprocess := s.nprocess + 1
    process := update s.process p ⟨s.ndisp, [], 0, 0, false, []⟩
    procs := if s.procs.length < maxProcesses then s.procs ++ [p] else s.procs }

/-- The thread that `psp_create_thread` makes of `ob_create`'s zeroes. -/
def newThread (disp p prio : Nat) : Thread :=
  { disp, process := p, state := .unused, priority := prio, savedPriority := prio
    quantumLeft := quantumTicks, waitBoost := false, wait := ⟨none, 0⟩
    waitMulti := fun _ => ⟨none, 0⟩, waitMultiCount := 0, waitAll := false, waitTimeoutTick := 0
    waitTimed := false, ownedMutexes := [], exitStatus := 0, killPending := false, cont := .start }

/-- `psp_create_thread` lists a new thread in its process. -/
def addThread (p prio : Nat) : Kernel :=
  modProcess { s.newDisp .thread 0 with
      nthread := s.nthread + 1
      thread := update s.thread s.nthread (newThread s.ndisp p prio) } p fun x =>
    { x with threads := x.threads ++ [s.nthread], threadCount := u32 (x.threadCount + 1) }

/-- `psp_create_thread`, when it succeeds. -/
def pspCreateThread (p prio : Nat) (suspended : Bool) : Kernel :=
  let prio := if prio ≥ priorityLevels then priorityNormal else prio
  let t := s.nthread
  let s := s.addThread p prio
  if suspended then s else s.schedReady t

def blank : Kernel :=
  { nthread := 0, thread := fun _ => newThread 0 0 0, ndisp := 0
    disp := fun _ => ⟨.notificationEvent, 0, [], none, 0, false⟩, nprocess := 0
    process := fun _ => ⟨0, [], 0, 0, false, []⟩, procs := [], timer := fun _ => ⟨false, 0, 0⟩
    timers := [], timerUp := true, ready := .empty, idle := 0, current := none
    needResched := false, ticks := 0 }

/-- `sched_init`: the system process and the idle thread. -/
def schedInit : Kernel := (blank.pspCreateProcess).pspCreateThread 0 priorityIdle false

end Kernel

/-! ## Steps -/

/-- The calls, and the tick. -/
inductive KeOp
  | createProcess
  | createThread (p prio : Nat) (suspended : Bool)
  | createEvent (autoReset initial : Bool)
  | createTimer (autoReset : Bool)
  | createMutex (initialOwner : Bool)
  /-- The handles of `p` change. -/
  | setCloses (p : Nat) (closes : List Nat)
  | ready (t : Nat)
  | boost (t prio : Nat)
  | kill (t : Nat) (st : StatusCode)
  | exit (st : StatusCode)
  /-- `sched_yield`, and `sched_start`. -/
  | yield
  | wait (d timeout : Nat)
  | waitMultiple (objs : List Nat) (waitAll : Bool) (timeout : Nat)
  | release (m : Nat)
  /-- `ke_set_event`, and the end of file of a pipe. -/
  | signal (d : Nat)
  /-- `ke_reset_event`, and the stores to `signal_state` of a pipe. -/
  | setSignal (d : Nat) (state : Int)
  /-- `disp_wake_one` of a pipe. -/
  | wakeOne (d : Nat)
  | setTimer (d due period : Nat)
  | cancelTimer (d : Nat)
  | tick
  | resume

def KeOp.isResume : KeOp → Bool
  | .resume => true
  | _ => false

/-- One call; none where the kernel stops. -/
def keStep (s : Kernel) : KeOp → Option Kernel
  | .createProcess => some s.pspCreateProcess
  | .createThread p prio suspended => some (s.pspCreateThread p prio suspended)
  | .createEvent autoReset initial => some (s.obCreateEvent autoReset initial)
  | .createTimer autoReset => some (s.obCreateTimer autoReset)
  | .createMutex initialOwner => some (s.obCreateMutex initialOwner)
  | .setCloses p closes => some (s.modProcess p fun x => { x with closes })
  | .ready t => some (s.schedReady t)
  | .boost t prio => some (s.schedBoost t prio)
  | .kill t st => (s.schedKillThread t st).get?
  | .exit st => (s.schedExitThread st).get?
  | .yield => some s.schedYield
  | .wait d timeout => (s.keWaitObject d timeout).get?.map Prod.snd
  | .waitMultiple objs waitAll timeout =>
    (s.keWaitMultiple objs waitAll timeout).get?.map Prod.snd
  | .release m => some (s.keReleaseMutex m).2
  | .signal d => some (s.dispSignal d 1)
  | .setSignal d state => some (s.modDisp d fun x => { x with signalState := state })
  | .wakeOne d => some (s.dispWakeOne d statusSuccess)
  | .setTimer d due period => some (s.keSetTimer d due period)
  | .cancelTimer d => some (s.keCancelTimer d)
  | .tick => s.keOnTick.get?
  | .resume => s.resume.get?.map Prod.snd

namespace Kernel

/-- The thread that runs is not inside a call. -/
def InCode (s : Kernel) : Prop := ∀ t ∈ s.current, (s.thread t).cont = .code
  deriving Decidable

/-- Code other than that of the idle thread runs. -/
def Calls (s : Kernel) : Prop := ∀ t ∈ s.current, (s.thread t).cont = .code ∧ t ≠ s.idle
  deriving Decidable

/-- `d` is a dispatcher other than a mutex. -/
def Signals (s : Kernel) (d : Nat) : Prop := d < s.ndisp ∧ (s.disp d).type ≠ .mutant
  deriving Decidable

end Kernel

/-- The steps that the callers take. -/
def KeOk (s : Kernel) : KeOp → Prop
  | .createProcess | .createEvent .. | .createTimer _ | .tick => True
  | .createThread p _ _ => p < s.nprocess
  | .createMutex initialOwner => initialOwner = true → s.current ≠ none
  | .setCloses p closes => p < s.nprocess ∧ ∀ d ∈ closes, s.Signals d
  | .ready t => t < s.nthread
  | .boost t _ => t < s.nthread
  | .kill t _ => t < s.nthread ∧ s.Calls
  | .exit _ => s.current ≠ none ∧ s.Calls
  | .yield => s.InCode
  | .wait d _ => d < s.ndisp ∧ s.Calls
  | .waitMultiple objs _ _ => (∀ d ∈ objs, d < s.ndisp) ∧ s.Calls
  | .release m => (m < s.ndisp ∧ (s.disp m).type = .mutant) ∧ s.Calls
  | .signal d | .setSignal d _ | .wakeOne d | .setTimer d _ _ | .cancelTimer d => s.Signals d
  | .resume => s.current ≠ none

instance (s : Kernel) (op : KeOp) : Decidable (KeOk s op) := by
  cases op <;> dsimp only [KeOk] <;> infer_instance

end Aegis
