import Aegis.Ke.Kernel
import Aegis.Lib.RankLock

/-!
# Spinlocks, and those of the clock (`ke/spin.c`, `isr_dispatch` for vector 32)

`spin_lock` decides nothing for its caller: it returns or it stops the CPU. The code of the tick is
therefore that of `keOnTick` together with the critical sections that it goes through, in their order
(`tickSections`); `keOnTickLocked` stops where one of them does.

`spinStep` has the single stores of `spin_lock` and `spin_unlock`, since an interrupt may come between
any two of them: neither masks interrupts. No panic is in progress.
-/

namespace Aegis

open RankLock

/-! ## Locks -/

def lockDepthMax : Nat := 8

def lockRankSerial : Nat := 1
def lockRankPmm : Nat := 2
def lockRankHeap : Nat := 3
def lockRankVmm : Nat := 4
def lockRankOb : Nat := 6
def lockRankHandle : Nat := 7
def lockRankProc : Nat := 8
def lockRankDisp : Nat := 9
def lockRankSched : Nat := 10
def lockRankVfs : Nat := 11

/-- The spinlocks of the kernel, those of objects with a number. -/
inductive Lock
  | kprintf
  | pmm
  | heap
  | kas
  | as (p : Nat)
  | dir (n : Nat)
  | pipe (n : Nat)
  | handle (p : Nat)
  | timerq
  | proc (p : Nat)
  | disp (d : Nat)
  | sched
  | vfs
  | vnode (n : Nat)
  | devq (n : Nat)
  | ramdisk (n : Nat)
  deriving DecidableEq, Repr

/-- The rank that `spin_init` gives it. -/
def Lock.rank : Lock → Nat
  | .kprintf => lockRankSerial
  | .pmm => lockRankPmm
  | .heap => lockRankHeap
  | .kas | .as _ => lockRankVmm
  | .dir _ | .pipe _ => lockRankOb
  | .handle _ => lockRankHandle
  | .timerq | .proc _ => lockRankProc
  | .disp _ => lockRankDisp
  | .sched => lockRankSched
  | .vfs | .vnode _ | .devq _ | .ramdisk _ => lockRankVfs

def Lock.name : Lock → String
  | .kprintf => "kprintf"
  | .pmm => "pmm"
  | .heap => "heap"
  | .kas => "kas"
  | .as _ => "as"
  | .dir _ => "dir"
  | .pipe _ => "pipe"
  | .handle _ => "handle"
  | .timerq => "timerq"
  | .proc _ => "proc"
  | .disp _ => "disp"
  | .sched => "sched"
  | .vfs => "vfs"
  | .vnode _ => "vnode"
  | .devq _ => "devq"
  | .ramdisk _ => "ramdisk"

/-! ## `spin_lock` and `spin_unlock` -/

/-- Where `spin_lock` stops. -/
def spinStop (c : Cpu Lock) (l : Lock) : Stop → Outcome (Cpu Lock)
  | .rank =>
    let rank := l.rank
    let name := l.name
    let held := c.heldRank
    let depth := c.stack.length
    .panic s!"lock rank {rank} ({name}) while holding {held} depth {depth}"
  | .depth =>
    let name := l.name
    .panic s!"lock nest overflow acquiring {name}"
  | .spin => .diverge

def spinLock (c : Cpu Lock) (l : Lock) : Outcome (Cpu Lock) :=
  match c.lock Lock.rank lockDepthMax l with
  | .ok c => .ok c
  | .error e => spinStop c l e

def spinUnlock (c : Cpu Lock) (l : Lock) : Cpu Lock := c.unlock Lock.rank l

/-- Where a thread is: outside of both, or behind a store of one of them. -/
inductive SpinPc
  | out
  /-- `spin_lock` has made its checks. -/
  | checked (l : Lock)
  /-- `locked` is set. -/
  | marked (l : Lock)
  /-- The rank is on the stack. -/
  | pushed (l : Lock)
  /-- `spin_unlock` has cleared `locked`. -/
  | cleared (l : Lock)
  /-- The rank is off the stack. -/
  | popped
  deriving DecidableEq, Repr

/-- A processor inside of the calls. -/
structure SpinState where
  cpu : Cpu Lock
  pc : SpinPc

/-- Its steps. -/
inductive SpinOp
  | lock (l : Lock)
  | unlock (l : Lock)
  /-- The next store. -/
  | next
  deriving DecidableEq, Repr

def spinStep (x : SpinState) : SpinOp → Option SpinState
  | .lock l =>
    if x.pc = .out then
      match x.cpu.check Lock.rank lockDepthMax l with
      | .ok _ => some ⟨x.cpu, .checked l⟩
      | .error _ => none
    else none
  | .unlock l => if x.pc = .out then some ⟨x.cpu.clear l, .cleared l⟩ else none
  | .next =>
    match x.pc with
    | .out => none
    | .checked l => if x.cpu.taken l then none else some ⟨x.cpu.mark l, .marked l⟩
    | .marked l => some ⟨x.cpu.push l.rank, .pushed l⟩
    | .pushed l => some ⟨x.cpu.setRank l.rank, .out⟩
    | .cleared l =>
      if x.cpu.stack = [] then some ⟨x.cpu, .out⟩ else some ⟨x.cpu.pop l.rank, .popped⟩
    | .popped => some ⟨x.cpu.settle, .out⟩

/-! ## The sections of the tick -/

namespace Kernel

/-- A lock with none inside. -/
def single (l : Lock) : Section Lock := ⟨l, []⟩

/-- Those of a loop whose rounds are `f`. -/
def foldSections {α : Type} (f : Kernel → α → Kernel) (g : Kernel → α → List (Section Lock)) :
    List α → Kernel → List (Section Lock)
  | [], _ => []
  | a :: as, s => g s a ++ foldSections f g as (f s a)

variable (s : Kernel)

/-- `sched_ready` looks at the state of the thread before it takes the lock. -/
def schedReadyLocks (t : Nat) : List Lock :=
  if (s.thread t).state = .terminated then [] else [.sched]

/-- Those of `disp_wake_one`, whose caller has taken the lock of `d`. -/
def wakeOneLocks (d : Nat) (st : StatusCode) : List Lock :=
  match (s.disp d).waitList with
  | [] => []
  | (t, b) :: _ =>
    let s := (s.unlinkBlock (t, b)).setWake t b st
    let s := if (s.disp d).type = .mutant then s.giveMutex d t (st = statusAbandoned) else s
    if (s.thread t).state = .waiting then s.schedReadyLocks t else []

def wakeAllLocks (d : Nat) (st : StatusCode) : Nat → Kernel → List Lock
  | 0, _ => []
  | k + 1, s => s.wakeOneLocks d st ++ wakeAllLocks d st k (s.dispWakeOne d st)

def signalLoopLocks (d : Nat) : Nat → Kernel → List Lock
  | 0, _ => []
  | k + 1, s =>
    if (s.disp d).signalState > 0 ∧ (s.disp d).waitList ≠ [] then
      let s' := s.dispWakeOne d statusSuccess
      s.wakeOneLocks d statusSuccess ++ (signalLoopLocks d k <|
        if (s'.disp d).type = .synchronizationEvent ∨ (s'.disp d).type = .mutant then
          s'.modDisp d fun x => { x with signalState := i32 (x.signalState - 1) }
        else s')
    else []

/-- The locks of `disp_signal`. -/
def signalSection (d : Nat) (increment : Int) : Section Lock :=
  let s := s.modDisp d fun x => { x with signalState := i32 (x.signalState + increment) }
  ⟨.disp d,
    if (s.disp d).type = .notificationEvent then
      wakeAllLocks d statusSuccess (s.disp d).waitList.length s
    else signalLoopLocks d (s.disp d).waitList.length s⟩

/-- A round of `timer_tick` behind the search. -/
def timerFireSections (d : Nat) : List (Section Lock) :=
  let s := (s.unlinkTimer d).modTimer d fun x => { x with armed := false }
  s.signalSection d 1 ::
    if ((s.dispSignal d 1).timer d).period ≠ 0 then [single .timerq] else []

/-- Behind the first search of `timer_tick`; each further round starts with one. -/
def timerLoopSections (now : Nat) : Nat → Kernel → List (Section Lock)
  | k, s =>
    match s.timers.find? fun d => (s.timer d).armed ∧ now ≥ (s.timer d).dueTick with
    | none => []
    | some d =>
      match k with
      | 0 => []
      | k + 1 => s.timerFireSections d ++
          single .timerq :: timerLoopSections now k (s.timerFire now d)

/-- The locks of `timer_tick`. -/
def timerTickSections (now : Nat) : List (Section Lock) :=
  if s.timerUp = false then []
  else single .timerq :: timerLoopSections now s.timers.length s

def expireMultiSections (t : Nat) : List (Section Lock) :=
  (List.range (s.thread t).waitMultiCount).filterMap (fun k =>
    ((s.thread t).waitMulti k).object.map fun d => single (.disp d)) ++ [single .sched]

def expireSingleSections (t : Nat) : List (Section Lock) :=
  ((s.thread t).wait.object.map fun d => single (.disp d)).toList ++ [single .sched]

def expireSections (t : Nat) : List (Section Lock) :=
  if (s.thread t).state ≠ .waiting ∨ (s.thread t).waitTimed = false then []
  else if s.ticks < (s.thread t).waitTimeoutTick then []
  else if (s.thread t).waitMultiCount ≠ 0 then s.expireMultiSections t
  else s.expireSingleSections t

def timeoutSections : List (Section Lock) :=
  foldSections (fun s p =>
      if (s.process p).threadCount = 0 then s else (s.process p).threads.foldl expire s)
    (fun s p =>
      if (s.process p).threadCount = 0 then []
      else foldSections expire expireSections (s.process p).threads s)
    s.procs s

/-- The locks of `ke_on_tick`. -/
def tickSections : List (Section Lock) :=
  let s := { s with ticks := u64 (s.ticks + 1) }
  s.timerTickSections s.ticks ++
    match s.timerTick s.ticks with
    | .ok s =>
      s.timeoutSections ++
        match s.timeoutScan.current with
        | none => []
        | some t => if (s.timeoutScan.useQuantum t).needResched then [single .sched] else []
    | _ => []

/-- The sections in their order. -/
def spinSections (c : Cpu Lock) : List (Section Lock) → Outcome (Cpu Lock)
  | [] => .ok c
  | x :: xs => do
    let c ← spinLock c x.outer
    let c ← x.inner.foldlM (fun c l => do
      let c ← spinLock c l
      return spinUnlock c l) c
    spinSections (spinUnlock c x.outer) xs

/-- `ke_on_tick` on a CPU that may have locks. -/
def keOnTickLocked (c : Cpu Lock) : Outcome (Kernel × Cpu Lock) := do
  let c ← spinSections c s.tickSections
  let s ← s.keOnTick
  return (s, c)

end Kernel

end Aegis
