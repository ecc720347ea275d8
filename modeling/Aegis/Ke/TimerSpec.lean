import Aegis.Ke.Kernel

/-!
# What a timer is for

A run is a list of `ke_set_timer`, of `ke_cancel_timer` and of ticks of the clock. The arming of a
timer that is in force is its last `ke_set_timer`, unless it has been cancelled since; it says in
which ticks the timer is signaled (`Arming.Fires`), whatever the other timers do.
-/

namespace Aegis

/-- The calls, and the tick. -/
inductive TimerOp
  | set (d due period : Nat)
  | cancel (d : Nat)
  | tick
  deriving DecidableEq, Repr

namespace Kernel

def nextTick (s : Kernel) : Kernel := { s with ticks := u64 (s.ticks + 1) }

def clock (s : Kernel) : Outcome Kernel := s.nextTick.timerTick s.nextTick.ticks

end Kernel

def timerStep (s : Kernel) : TimerOp → Option Kernel
  | .set d due period => some (s.keSetTimer d due period)
  | .cancel d => some (s.keCancelTimer d)
  | .tick => s.clock.get?

/-- No due time of a timer overflows. -/
def NoOverflow (s : Kernel) : TimerOp → Prop
  | .set _ due _ => s.ticks + max due 1 < 2 ^ 64
  | .cancel _ => True
  | .tick => s.ticks + 1 < 2 ^ 64 ∧ ∀ d ∈ s.timers, (s.timer d).dueTick ≤ s.ticks + 1 →
      s.ticks + 1 + (s.timer d).period < 2 ^ 64

instance (s : Kernel) (op : TimerOp) : Decidable (NoOverflow s op) := by
  cases op <;> dsimp only [NoOverflow] <;> infer_instance

/-- `ke_set_timer` at the tick `tick`. -/
structure Arming where
  tick : Nat
  due : Nat
  period : Nat
  deriving DecidableEq, Repr

namespace Arming

def first (a : Arming) : Nat := a.tick + max a.due 1

/-- The timer is signaled in the tick `n`. -/
def Fires (a : Arming) (n : Nat) : Prop :=
  n = a.first ∨ a.period ≠ 0 ∧ a.first < n ∧ a.period ∣ n - a.first

end Arming

/-- The arming of `d` that is in force after `ops`, if the clock was at `now` and `a` was in force
before. -/
def armingFrom (d : Nat) : Nat → Option Arming → List TimerOp → Option Arming
  | _, a, [] => a
  | now, a, .set d' due period :: ops =>
    armingFrom d now (if d' = d then some ⟨now, due, period⟩ else a) ops
  | now, a, .cancel d' :: ops => armingFrom d now (if d' = d then none else a) ops
  | now, a, .tick :: ops => armingFrom d (now + 1) a ops

/-- The arming of `d` that is in force after a run from the tick `now`, with no timer armed. -/
def arming (now : Nat) (ops : List TimerOp) (d : Nat) : Option Arming := armingFrom d now none ops

def Kernel.NoneArmed (s : Kernel) : Prop := s.timers = [] ∧ ∀ d, (s.timer d).armed = false

end Aegis
