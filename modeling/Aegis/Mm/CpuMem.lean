import Aegis.Config
import Aegis.Lib.Run

/-!
# Memory that the CPU uses (`sched_exit_thread`, `sched_reschedule`, `vmm_aspace_destroy`)

Frames are numbers. Of the page tables the model has which frames they are in: those of the kernel
half, which all address spaces share, and those of the user half below each root. `kstack` are the
frames that `vmm_map_kstack` has mapped for a thread; a thread in an interrupt or exception runs on
the stack of IST4 instead. `sched_exit_thread` is taken apart where it gives memory back, and
`vmm_map_kstack` that runs out of frames gives back what it took, which is no step.
-/

namespace Aegis

open Function

/-- How far the thread that runs is in `sched_exit_thread`. -/
inductive ExitPhase
  | code
  /-- Behind `vmm_unmap_kstack`. -/
  | unmapped
  /-- About to call `sched_reschedule` for the last time. -/
  | left
  deriving DecidableEq

/-- Who has which frames, and on which stack the processor is. -/
structure CpuMem where
  /-- The free set of the PMM. -/
  free : Nat → Bool
  /-- The tables below `g_kernel_cr3`, itself included. -/
  kernelTables : List Nat
  /-- The stack of IST4. -/
  ist : List Nat
  /-- `aspace.cr3_phys` of a process. -/
  root : Nat → Option Nat
  /-- The tables of the user half below a root. -/
  tables : Nat → List Nat
  kstack : Nat → List Nat
  process : Nat → Nat
  threadCount : Nat → Nat
  nprocess : Nat
  nthread : Nat
  terminated : Nat → Bool
  /-- The thread is in an interrupt or exception. -/
  onIst : Nat → Bool
  cr3 : Nat
  current : Option Nat
  phase : ExitPhase

namespace CpuMem

/-- Behind `sched_init`. -/
def boot (free : Nat → Bool) (kernelTables ist : List Nat) (cr3 : Nat) : CpuMem :=
  { free, kernelTables, ist, root := fun _ => none, tables := fun _ => [], kstack := fun _ => []
    process := fun _ => 0, threadCount := fun _ => 0, nprocess := 0, nthread := 0
    terminated := fun _ => false, onIst := fun _ => false, cr3, current := none, phase := .code }

variable (s : CpuMem)

/-- `pmm_free` of the frames of a list. -/
def pmmFree (l : List Nat) : CpuMem :=
  { s with free := fun f => s.free f || l.contains f }

/-- `pmm_alloc` has given the frames of a list. -/
def pmmAlloc (l : List Nat) : CpuMem :=
  { s with free := fun f => s.free f && !l.contains f }

/-- The PMM gives out distinct free frames. -/
def Gives (l : List Nat) : Prop := l.Nodup ∧ ∀ f ∈ l, s.free f = true
  deriving Decidable

/-- `aspace_init`. -/
def aspaceInit (r : Nat) : CpuMem :=
  { s.pmmAlloc [r] with
    root := update s.root s.nprocess (some r)
    tables := update s.tables r []
    nprocess := s.nprocess + 1 }

/-- `walk_fill_one` in the user half. -/
def addTable (r f : Nat) : CpuMem :=
  { s.pmmAlloc [f] with tables := update s.tables r (f :: s.tables r) }

/-- `psp_create_thread`, with the frames of the stack and the tables that `vmm_map` adds. -/
def createThread (p : Nat) (frames tables : List Nat) : CpuMem :=
  { s.pmmAlloc (frames ++ tables) with
    kernelTables := tables ++ s.kernelTables
    kstack := update s.kstack s.nthread frames
    process := update s.process s.nthread p
    threadCount := update s.threadCount p (u32 (s.threadCount p + 1))
    nthread := s.nthread + 1 }

/-- The CPU side of `sched_reschedule`: `CR3` if the process has one, and `context_switch`. -/
def switchTo (n : Nat) : CpuMem :=
  { s with
    cr3 := (s.root (s.process n)).getD s.cr3
    current := some n
    phase := .code }

/-- `vmm_unmap_kstack`. -/
def unmapKstack (t : Nat) : CpuMem :=
  { s.pmmFree (s.kstack t) with kstack := update s.kstack t [], phase := .unmapped }

/-- `vmm_aspace_destroy`: `free_user_tables`. -/
def aspaceDestroy (p : Nat) : CpuMem :=
  match s.root p with
  | none => s
  | some r =>
    { s.pmmFree (r :: s.tables r) with root := update s.root p none }

/-- The process side of `sched_exit_thread`. -/
def leaveProcess (t : Nat) : CpuMem :=
  let p := s.process t
  let count := Word.sub 32 (s.threadCount p) 1
  let s := { s with
    terminated := update s.terminated t true
    threadCount := update s.threadCount p count
    phase := .left }
  if count = 0 then s.aspaceDestroy p else s

end CpuMem

/-- Steps of the processor. -/
inductive CpuOp
  | createProcess (r : Nat)
  | addTable (p f : Nat)
  | createThread (p : Nat) (frames tables : List Nat)
  | switchTo (n : Nat)
  /-- An interrupt or exception in the thread that runs, and the return from it. -/
  | trap
  | iret
  | unmapKstack
  | leaveProcess

def cpuStep (s : CpuMem) : CpuOp → Option CpuMem
  | .createProcess r => if s.Gives [r] then some (s.aspaceInit r) else none
  | .addTable p f =>
    match s.root p with
    | none => none
    | some r => if s.Gives [f] then some (s.addTable r f) else none
  | .createThread p frames tables =>
    if frames.length = 4 ∧ s.Gives (frames ++ tables) then some (s.createThread p frames tables)
    else none
  | .switchTo n =>
    if n < s.nthread ∧ s.terminated n = false ∧ s.phase ≠ .unmapped then some (s.switchTo n)
    else none
  | .trap =>
    match s.current with
    | none => none
    | some t => some { s with onIst := update s.onIst t true }
  | .iret =>
    match s.current with
    | none => none
    | some t =>
      if s.phase = .code then some { s with onIst := update s.onIst t false } else none
  | .unmapKstack =>
    match s.current with
    | none => none
    | some t => if s.phase = .code then some (s.unmapKstack t) else none
  | .leaveProcess =>
    match s.current with
    | none => none
    | some t => if s.phase = .unmapped then some (s.leaveProcess t) else none

namespace CpuMem

/-- The tables that the CPU can reach from `CR3`. -/
def reachable (s : CpuMem) : List Nat := s.cr3 :: (s.tables s.cr3 ++ s.kernelTables)

/-- The frames of the stack that the CPU is on. -/
def stackOf (s : CpuMem) (t : Nat) : List Nat := if s.onIst t then s.ist else s.kstack t

/-- What the CPU uses is not free. -/
structure InUse (s : CpuMem) : Prop where
  tables : ∀ f ∈ s.reachable, s.free f = false
  mapped : ∀ t ∈ s.current, s.stackOf t ≠ []
  stack : ∀ t ∈ s.current, ∀ f ∈ s.stackOf t, s.free f = false

end CpuMem

/-- A thread exits from an interrupt or exception, and not as the last of its process. -/
def ExitsOnIst (s : CpuMem) : CpuOp → Prop
  | .unmapKstack => ∀ t ∈ s.current, s.onIst t = true
  | .leaveProcess => ∀ t ∈ s.current, s.threadCount (s.process t) ≠ 1
  | _ => True

instance (s : CpuMem) (a : CpuOp) : Decidable (ExitsOnIst s a) := by
  cases a <;> dsimp only [ExitsOnIst] <;> infer_instance

end Aegis
