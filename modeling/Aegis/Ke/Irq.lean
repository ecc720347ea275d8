import Aegis.Ke.Kernel

/-!
# The timer interrupt (`isr_dispatch`, `pic_eoi`, `context_switch`)

`Irq` is the kernel with the interrupt flag of the CPU and the in-service bit of the PIC for IRQ0.
As long as the bit is set the PIC delivers no IRQ0. `isr_dispatch` runs with interrupts off and
calls `ke_on_tick`, which may switch threads, before `pic_eoi(0)`: `inIsr` are the threads that are
between the two. `context_switch` saves and loads the interrupt flag with `rflags`, which
`psp_create_thread` sets to `0x202`.
-/

namespace Aegis

/-- The kernel, the CPU's interrupt flag and the PIC. -/
structure Irq where
  ke : Kernel
  /-- `rflags.IF`. -/
  intr : Bool
  /-- The bit of IRQ0 in the in-service register. -/
  inService : Bool
  /-- How many timer interrupts were taken, and how often `pic_eoi(0)` was issued. -/
  taken : Nat
  acked : Nat
  /-- The thread is in `isr_dispatch` for a timer interrupt. -/
  inIsr : Nat → Bool
  /-- `IF` in `ctx.rflags`. -/
  savedIf : Nat → Bool

namespace Irq

/-- After `sched_init`, with interrupts off. -/
def init : Irq := ⟨.schedInit, false, false, 0, 0, fun _ => false, fun _ => true⟩

/-- `context_switch`, if `ke` is the kernel after a call that has switched threads. -/
def switched (s : Irq) (ke : Kernel) : Irq :=
  if ke.current = s.ke.current then { s with ke }
  else
    let savedIf := match s.ke.current with
      | none => s.savedIf
      | some c => Function.update s.savedIf c s.intr
    { s with
      ke, savedIf
      intr := match ke.current with
        | none => s.intr
        | some n => savedIf n }

/-- The CPU takes the timer interrupt in thread `c`. -/
def take (s : Irq) (c : Nat) : Irq :=
  { s with
    intr := false, inService := true, taken := s.taken + 1
    inIsr := Function.update s.inIsr c true }

/-- `pic_eoi(0)`, and the `iretq` to what was interrupted. -/
def eoi (s : Irq) (c : Nat) : Irq :=
  { s with
    intr := true, inService := false, acked := s.acked + 1
    inIsr := Function.update s.inIsr c false }

/-- The thread that runs is in `isr_dispatch`. -/
def InIsr (s : Irq) : Prop := ∃ c ∈ s.ke.current, s.inIsr c = true

instance (s : Irq) : Decidable s.InIsr :=
  match h : s.ke.current with
  | none => isFalse fun ⟨_, hc, _⟩ => by rw [h] at hc; cases hc
  | some c => decidable_of_iff (s.inIsr c = true)
      ⟨fun hi => ⟨c, h, hi⟩, fun ⟨c', hc, hi⟩ => by rw [h] at hc; cases hc; exact hi⟩

end Irq

/-- Steps of the processor. -/
inductive IrqOp
  /-- The timer interrupt, up to the end of `ke_on_tick`. -/
  | tick
  /-- The rest of `isr_dispatch`. -/
  | finish
  /-- A call of the thread that runs, or the rest of one. -/
  | call (op : KeOp)
  /-- `sti`, `cli`, and the system call entry and exit. -/
  | setIf (b : Bool)

def KeOp.isTick : KeOp → Bool
  | .tick => true
  | _ => false

/-- An operation that cannot happen in the state has no successor: the interrupt needs `IF` and a
PIC that is ready for it, `isr_dispatch` goes on once `ke_on_tick` has returned to it, and a thread
in it makes no calls. -/
def irqStep (s : Irq) : IrqOp → Option Irq
  | .tick =>
    match s.ke.current with
    | none => none
    | some c =>
      if s.intr = true ∧ s.inService = false then
        s.ke.keOnTick.get?.map (s.take c).switched
      else none
  | .finish =>
    match s.ke.current with
    | none => none
    | some c =>
      if s.inIsr c = true ∧ (s.ke.thread c).cont = .code then some (s.eoi c) else none
  | .call op =>
    if KeOk s.ke op ∧ op.isTick = false ∧ (s.InIsr → op.isResume = true) then
      (keStep s.ke op).map s.switched
    else none
  | .setIf b => if s.InIsr ∨ s.ke.current = none then none else some { s with intr := b }

/-- A thread outside `isr_dispatch` with interrupts on finds every timer interrupt acknowledged. -/
def Irq.Acknowledged (s : Irq) : Prop :=
  s.ke.current ≠ none → ¬ s.InIsr → s.intr = true → s.inService = false ∧ s.acked = s.taken

/-- The tick finds nothing to do, and no thread in `isr_dispatch` is to be killed. -/
def TickStays (s : Irq) : IrqOp → Prop
  | .tick => s.ke.QuietTick
  | .call _ => s.InIsr → ∀ c ∈ s.ke.current, (s.ke.thread c).killPending = false
  | _ => True

instance (s : Irq) (a : IrqOp) : Decidable (TickStays s a) := by
  cases a <;> dsimp only [TickStays] <;> infer_instance

end Aegis
