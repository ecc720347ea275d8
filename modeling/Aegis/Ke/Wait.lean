import Aegis.Ke.Sched

/-!
# Dispatchers, mutexes and waits (`ob/object.c`, `ke/wait.c`, the middle of `ke/sched.c`)

A call that waits either returns a status at once, or leaves the thread waiting with the rest of
the call in its `cont`.
-/

namespace Aegis

/-- A block of a thread changes. -/
def Thread.modBlock (th : Thread) (b : BlockId) (f : WaitBlock → WaitBlock) : Thread :=
  match b with
  | .single => { th with wait := f th.wait }
  | .multi i => { th with waitMulti := Function.update th.waitMulti i (f (th.waitMulti i)) }

/-- `ke_wait_multiple` clears the objects of its `n` blocks, and of the wait. -/
def Thread.endWait (th : Thread) (n : Nat) : Thread :=
  { th with
    waitMulti := fun i => if i < n then { th.waitMulti i with object := none } else th.waitMulti i
    waitMultiCount := 0
    wait := { th.wait with object := none } }

/-- `(u64)-1`: a wait without a timeout. -/
def infinite : Nat := 2 ^ 64 - 1

namespace Kernel

/-! ## Links -/

variable (s : Kernel)

/-- `list_remove` of a block. -/
def unlinkBlock (b : Nat × BlockId) : Kernel :=
  { s with disp := fun d => { s.disp d with waitList := (s.disp d).waitList.filter (· ≠ b) } }

/-- `list_insert_tail(&d->wait_list, &wb->obj_link)`. -/
def linkBlock (d : Nat) (b : Nat × BlockId) : Kernel :=
  s.modDisp d fun x => { x with waitList := x.waitList ++ [b] }

/-- `ke_mutex_disown`. -/
def keMutexDisown (m : Nat) : Kernel :=
  { s with thread := fun t =>
      { s.thread t with ownedMutexes := (s.thread t).ownedMutexes.filter (· ≠ m) } }

/-- `ke_mutex_own`. -/
def keMutexOwn (m t : Nat) : Kernel :=
  (s.keMutexDisown m).modThread t fun th => { th with ownedMutexes := th.ownedMutexes ++ [m] }

/-! ## Waking -/

/-- The statuses that the owner of a block finds when it runs again. -/
def setWake (t : Nat) (b : BlockId) (st : StatusCode) : Kernel :=
  s.modThread t fun th =>
    let th := th.modBlock b fun x => { x with wakeStatus := st }
    { th with wait := { th.wait with wakeStatus := st } }

/-- The thread `t` becomes the owner of `m`. -/
def giveMutex (m t : Nat) (abandoned : Bool) : Kernel :=
  (s.modDisp m fun x => { x with owner := some t, recursion := 1, abandoned, signalState := 0 })
    |>.keMutexOwn m t

/-- `disp_wake_one`. -/
def dispWakeOne (d : Nat) (st : StatusCode) : Kernel :=
  match (s.disp d).waitList with
  | [] => s
  | (t, b) :: _ =>
    let s := (s.unlinkBlock (t, b)).setWake t b st
    let s := if (s.disp d).type = .mutant then s.giveMutex d t (st = statusAbandoned) else s
    if (s.thread t).state = .waiting then s.schedReady t else s

/-- `disp_wake_all`; each round takes one block off. -/
def wakeAllLoop (d : Nat) (st : StatusCode) : Nat → Kernel → Kernel
  | 0, s => s
  | k + 1, s => wakeAllLoop d st k (s.dispWakeOne d st)

/-- `disp_wake_all`. -/
def dispWakeAll (d : Nat) (st : StatusCode) : Kernel :=
  wakeAllLoop d st (s.disp d).waitList.length s

/-- The loop of `disp_signal`; each round takes one block off. -/
def signalLoop (d : Nat) : Nat → Kernel → Kernel
  | 0, s => s
  | k + 1, s =>
    if (s.disp d).signalState > 0 ∧ (s.disp d).waitList ≠ [] then
      let s := s.dispWakeOne d statusSuccess
      signalLoop d k <|
        if (s.disp d).type = .synchronizationEvent ∨ (s.disp d).type = .mutant then
          s.modDisp d fun x => { x with signalState := i32 (x.signalState - 1) }
        else s
    else s

/-- `disp_signal`. -/
def dispSignal (d : Nat) (increment : Int) : Kernel :=
  let s := s.modDisp d fun x => { x with signalState := i32 (x.signalState + increment) }
  if (s.disp d).type = .notificationEvent then s.dispWakeAll d statusSuccess
  else signalLoop d (s.disp d).waitList.length s

/-! ## Mutexes -/

/-- One round of `ke_mutex_abandon_owned`. -/
def abandon (m : Nat) : Kernel :=
  let s := s.keMutexDisown m
  let s := s.modDisp m fun x => { x with owner := none, recursion := 0, abandoned := true }
  if (s.disp m).waitList ≠ [] then
    (s.modDisp m fun x => { x with signalState := 0 }).dispWakeOne m statusAbandoned
  else s.modDisp m fun x => { x with signalState := 1 }

/-- `ke_mutex_abandon_owned`, for `k` rounds. -/
def abandonLoop (t : Nat) : Nat → Kernel → Outcome Kernel
  | 0, s => if (s.thread t).ownedMutexes = [] then .ok s else .diverge
  | k + 1, s =>
    match (s.thread t).ownedMutexes with
    | [] => .ok s
    | m :: _ => abandonLoop t k (s.abandon m)

/-- The list only grows in a round if `t` itself waits for the mutex: then the loop gives `t` the
mutex that it has taken from it, for ever. -/
def keMutexAbandonOwned (t : Nat) : Outcome Kernel :=
  abandonLoop t (s.thread t).ownedMutexes.length s

/-- `mutex_donate`. -/
def mutexDonate (m waiter : Nat) : Kernel :=
  match (s.disp m).owner with
  | none => s
  | some owner =>
    if owner = waiter then s
    else if (s.thread waiter).priority ≤ (s.thread owner).priority then s
    else
      (s.modThread owner fun th =>
        { th with
          savedPriority := if th.waitBoost then th.savedPriority else th.priority
          waitBoost := true }).schedBoost owner (s.thread waiter).priority

/-- The boost ends with the last mutex. -/
def unboost (t : Nat) : Kernel :=
  if (s.thread t).ownedMutexes = [] ∧ (s.thread t).waitBoost then
    (s.modThread t fun th => { th with waitBoost := false }).schedBoost t
      (s.thread t).savedPriority
  else s

/-- The owner `t` gives up its last acquisition of `m`. -/
def releaseLast (m t : Nat) : Kernel :=
  let s := (s.modDisp m fun x => { x with recursion := 0, owner := none }).keMutexDisown m
  let s :=
    if (s.disp m).waitList = [] then s.modDisp m fun x => { x with signalState := 1 }
    else s.dispWakeOne m statusSuccess
  s.unboost t

/-- `ke_release_mutex`. -/
def keReleaseMutex (m : Nat) : StatusCode × Kernel :=
  match s.current with
  | none => (statusMutantNotOwned, s)
  | some t =>
    if (s.disp m).owner ≠ some t ∨ (s.disp m).recursion = 0 then (statusMutantNotOwned, s)
    else if (s.disp m).recursion - 1 > 0 then
      (statusSuccess, s.modDisp m fun x => { x with recursion := x.recursion - 1 })
    else (statusSuccess, s.releaseLast m t)

/-! ## Threads that end -/

/-- The blocks `0 .. n)` of `wait_multi` are taken off. -/
def unlinkMulti (t : Nat) : Nat → Kernel → Kernel
  | 0, s => s
  | i + 1, s =>
    let s := unlinkMulti t i s
    match ((s.thread t).waitMulti i).object with
    | none => s
    | some _ =>
      (s.unlinkBlock (t, .multi i)).modThread t fun th =>
        th.modBlock (.multi i) fun x => { x with object := none }

/-- `thread_unlink_waits`. -/
def threadUnlinkWaits (t : Nat) : Kernel :=
  if (s.thread t).waitMultiCount ≠ 0 then
    (unlinkMulti t (s.thread t).waitMultiCount s).modThread t fun th =>
      { th with waitMultiCount := 0 }
  else
    match (s.thread t).wait.object with
    | none => s
    | some _ =>
      (s.unlinkBlock (t, .single)).modThread t fun th =>
        { th with wait := { th.wait with object := none } }

/-- The last thread of the process `p` has ended: its handles are closed, and the table of processes
drops it. -/
def processEnd (p : Nat) : Kernel :=
  let s := s.dispSignal (s.process p).disp 1
  let s := (s.process p).closes.foldl (fun s d => s.dispSignal d 1) s
  if p ≠ 0 ∧ p ≠ 1 then
    match SwapList.findAt (fun q => q = p) s.procs with
    | none => s
    | some (_, i) => { s with procs := SwapList.swapRemove s.procs i }
  else s

/-- The process `p` loses a thread. -/
def processLeave (p : Nat) (st : StatusCode) : Outcome Kernel :=
  let s := s.modProcess p fun x => { x with threadCount := u32 (x.threadCount + (2 ^ 32 - 1)) }
  if (s.process p).threadCount = 0 then
    let s := s.modProcess p fun x => { x with exitStatus := st, terminating := true }
    if p = 1 then .panic "init died" else .ok (s.processEnd p)
  else .ok s

/-- `sched_exit_thread`, with what the kernel does until another thread runs. -/
def schedExitThread (st : StatusCode) : Outcome Kernel :=
  match s.current with
  | none => .fault
  | some t => do
    let s ← (s.threadUnlinkWaits t).keMutexAbandonOwned t
    let s := s.modThread t fun th => { th with exitStatus := st, state := .terminated }
    let s := s.dispSignal (s.thread t).disp 1
    let s ← s.processLeave (s.thread t).process st
    return { s with current := none }.schedReschedule

/-- `sched_kill_thread`. -/
def schedKillThread (t : Nat) (st : StatusCode) : Outcome Kernel :=
  if t = s.idle then .ok s
  else if (s.thread t).state = .terminated then .ok s
  else if s.current = some t then s.schedExitThread st
  else
    let s := s.modThread t fun th => { th with killPending := true, exitStatus := st }
    if (s.thread t).state = .waiting then .ok ((s.threadUnlinkWaits t).schedReady t) else .ok s

/-! ## Waits -/

/-- `disp_satisfied`. -/
def dispSatisfied (d t : Nat) : Bool :=
  if (s.disp d).type = .mutant ∧ (s.disp d).owner = some t then true
  else (s.disp d).signalState > 0

/-- The part of `ke_wait_object` up to the timeout: the status, if the object is there to take. -/
def tryWait (t d : Nat) : Option StatusCode × Kernel :=
  if (s.disp d).type = .mutant then
    if (s.disp d).owner = some t then
      (some statusSuccess, s.modDisp d fun x => { x with recursion := x.recursion + 1 })
    else if (s.disp d).signalState > 0 then
      (some (if (s.disp d).abandoned then statusAbandoned else statusSuccess),
        (s.modDisp d fun x =>
          { x with
            signalState := x.signalState - 1
            owner := some t
            recursion := 1
            abandoned := false }).keMutexOwn d t)
    else (none, s.mutexDonate d t)
  else if (s.disp d).signalState > 0 then
    (some statusSuccess,
      if (s.disp d).type = .synchronizationEvent ∨ (s.disp d).type = .timer then
        s.modDisp d fun x => { x with signalState := 0 }
      else s)
  else (none, s)

/-- The thread waits from now on, until `timeout` ticks have passed. -/
def startWait (t timeout : Nat) : Kernel :=
  s.modThread t fun th =>
    { th with
      state := .waiting
      waitTimed := timeout ≠ infinite
      waitTimeoutTick := u64 (s.ticks + if timeout = infinite then 0 else timeout) }

/-- `t` queues itself on `d`. -/
def enqueue (t d timeout : Nat) : Kernel :=
  ((s.modThread t fun th => { th with wait := ⟨some d, statusTimeout⟩ }).linkBlock d (t, .single))
    |>.startWait t timeout

/-- `none`: the call has not returned. -/
def keWaitObject (d timeout : Nat) : Outcome (Option StatusCode × Kernel) :=
  match s.current with
  | none => .ok (some statusInvalidParameter, s)
  | some t =>
    if (s.thread t).killPending then do
      let s ← s.schedExitThread (s.thread t).exitStatus
      return (none, s)
    else
      let r := s.tryWait t d
      match r.1 with
      | some st => .ok (some st, r.2)
      | none =>
        if timeout = 0 then .ok (some statusTimeout, r.2)
        else .ok (none, ((r.2.enqueue t d timeout).suspend .waitObject).schedReschedule)

/-- `ke_wait_object(objs[i], 0)` in turn, until one does not time out: its index or its status. -/
def tryAny (t : Nat) : Nat → List Nat → Kernel → Option StatusCode × Kernel
  | _, [], s => (none, s)
  | i, d :: ds, s =>
    let r := s.tryWait t d
    match r.1 with
    | none => tryAny t (i + 1) ds r.2
    | some st => (some (if st = statusSuccess then i else st), r.2)

/-- `ke_wait_object(objs[i], 0)` for each object. -/
def takeAll (t : Nat) (objs : List Nat) (s : Kernel) : Kernel :=
  objs.foldl (fun s d => (s.tryWait t d).2) s

/-- The blocks `multi 0 .. multi (n - 1)` of `t`. -/
def unlinkBlocks (t n : Nat) (s : Kernel) : Kernel :=
  (List.range n).foldl (fun s j => s.unlinkBlock (t, .multi j)) s

/-- The enqueue loop of `ke_wait_multiple` from index `i`: the index of an object that turns out to
be signaled, if there is one. -/
def enqueueMulti (t : Nat) (waitAll : Bool) : Nat → List Nat → Kernel → Option Nat × Kernel
  | _, [], s => (none, s)
  | i, d :: ds, s =>
    let s := s.modThread t fun th => th.modBlock (.multi i) fun _ => ⟨some d, statusTimeout⟩
    if waitAll = false ∧ (s.disp d).signalState > 0 then (some i, s)
    else
      let s := if (s.disp d).type = .mutant then s.mutexDonate d t else s
      enqueueMulti t waitAll (i + 1) ds (s.linkBlock d (t, .multi i))

/-- The slow path of `ke_wait_multiple`. -/
def waitSlow (t : Nat) (objs : List Nat) (waitAll : Bool) (timeout : Nat) :
    Option StatusCode × Kernel :=
  let s := s.modThread t fun th =>
    { th with waitMultiCount := objs.length, waitAll, wait := ⟨objs.head?, statusTimeout⟩ }
  let r := enqueueMulti t waitAll 0 objs s
  match r.1 with
  | some i =>
    let s := (unlinkBlocks t i r.2).modThread t fun th =>
      { th with waitMultiCount := 0, wait := { th.wait with object := none } }
    (some i, (s.tryWait t (objs.getD i 0)).2)
  | none =>
    (none, ((r.2.startWait t timeout).suspend (.waitMultiple objs waitAll)).schedReschedule)

/-- `ke_wait_multiple`, up to its `sched_reschedule`. -/
def keWaitMultiple (objs : List Nat) (waitAll : Bool) (timeout : Nat) :
    Outcome (Option StatusCode × Kernel) :=
  if objs.length = 0 ∨ objs.length > waitObjectsMax then .ok (some statusInvalidParameter, s)
  else
    match s.current with
    | none => .ok (some statusInvalidParameter, s)
    | some t =>
      if (s.thread t).killPending then do
        let s ← s.schedExitThread (s.thread t).exitStatus
        return (none, s)
      else if waitAll then
        if objs.all fun d => s.dispSatisfied d t then .ok (some statusSuccess, takeAll t objs s)
        else if timeout = 0 then .ok (some statusTimeout, s)
        else .ok (s.waitSlow t objs waitAll timeout)
      else
        let r := tryAny t 0 objs s
        match r.1 with
        | some st => .ok (some st, r.2)
        | none =>
          if timeout = 0 then .ok (some statusTimeout, r.2)
          else .ok (r.2.waitSlow t objs waitAll timeout)

/-- The index that `ke_wait_multiple` reports: the last block that a signal has woken, of those up
to `n`. -/
def whichWoken (th : Thread) : Nat → Nat
  | 0 => 0
  | i + 1 => if (th.waitMulti i).wakeStatus ≠ statusTimeout then i else whichWoken th i

/-- The rest of `ke_wait_multiple` behind its `sched_reschedule`. -/
def finishMultiple (t : Nat) (objs : List Nat) (waitAll : Bool) :
    StatusCode × Kernel :=
  let which := whichWoken (s.thread t) objs.length
  let s := (unlinkBlocks t objs.length s).modThread t (·.endWait objs.length)
  if (s.thread t).wait.wakeStatus = statusTimeout then (statusTimeout, s)
  else if waitAll then (statusSuccess, takeAll t objs s)
  else (which, s)

/-- The thread that runs goes on where it was switched out: the status that a wait of it returns. -/
def resume : Outcome (Option StatusCode × Kernel) :=
  match s.current with
  | none => .ok (none, s)
  | some t =>
    if (s.thread t).killPending then do
      let s ← s.schedExitThread (s.thread t).exitStatus
      return (none, s)
    else
      let s' := s.modThread t fun th => { th with cont := .code }
      match (s.thread t).cont with
      | .code | .start | .switched => .ok (none, s')
      | .waitObject => .ok (some (s.thread t).wait.wakeStatus, s')
      | .waitMultiple objs waitAll =>
        let r := s'.finishMultiple t objs waitAll
        .ok (some r.1, r.2)

end Kernel

end Aegis
