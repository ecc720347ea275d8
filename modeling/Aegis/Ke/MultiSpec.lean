import Aegis.Ke.Proof.Mutex

/-!
# What a wait for several objects takes (`ke_wait_multiple`)

`WaitSys` is the kernel with a history variable: how often each thread had each mutex when it last
called `ke_wait_multiple`. `AllExact` and `AnyExact` say what a call may return, at once or when its
thread runs again. `AllOk` is a condition on the steps that others take meanwhile, and `AnyOk` one on
the state in which it runs again.

The signal of an object goes to a call in one of two ways: `disp_wake_one` takes the call's block off
the object and leaves a status in it (`BlockWoken`), or `ke_wait_object` finds the object satisfied.
-/

namespace Aegis

namespace Kernel

variable (s : Kernel)

/-- How often `t` has acquired the mutex `m`. -/
def held (t m : Nat) : Nat :=
  if (s.disp m).owner = some t then (s.disp m).recursion else 0

/-- `disp_wake_one` has taken the block `i` of `t`. -/
def BlockWoken (t i : Nat) : Prop := ((s.thread t).waitMulti i).wakeStatus ≠ statusTimeout
  deriving Decidable

/-- The thread that goes on in a wait for several objects, and the objects. -/
def goesOn (waitAll : Bool) : Option (Nat × List Nat) :=
  match s.current with
  | none => none
  | some t =>
    match (s.thread t).cont with
    | .waitMultiple objs all =>
      if all = waitAll ∧ (s.thread t).killPending = false then some (t, objs) else none
    | .code | .start | .switched | .waitObject => none

/-- The objects of the `WAIT_ALL` that `t` is in, if they are a set and it will return from it. -/
def waitsAll (t : Nat) : List Nat :=
  match (s.thread t).cont with
  | .waitMultiple objs true =>
    if (s.thread t).killPending = false ∧ objs.Nodup then objs else []
  | _ => []

/-- The step may change whether `d` is satisfied. -/
abbrev Touches (op : KeOp) (d : Nat) : Prop := d ∈ s.signaled op ∨ d ∈ s.waited op

end Kernel

/-- The kernel, and what its waits began with. -/
structure WaitSys where
  ke : Kernel
  /-- The acquisitions of a mutex by a thread, at the start of its last call. -/
  base : Nat → Nat → Nat

namespace WaitSys

def init : WaitSys := ⟨Kernel.schedInit, fun _ _ => 0⟩

/-- A call of `ke_wait_multiple` by the thread that runs. -/
def enter (w : WaitSys) : Nat → Nat → Nat :=
  match w.ke.current with
  | none => w.base
  | some t => Function.update w.base t (w.ke.held t)

end WaitSys

variable (w : WaitSys)

def waitStep (op : KeOp) : Option WaitSys :=
  (keStep w.ke op).map fun s =>
    ⟨s, match op with
      | .waitMultiple .. => w.enter
      | _ => w.base⟩

/-- The steps that the callers take. -/
def WaitOk (op : KeOp) : Prop := KeOk w.ke op ∧ ReadyOk w.ke op
  deriving Decidable

/-! ## All objects -/

/-- A `WAIT_ALL` of a set of objects that returns `STATUS_SUCCESS`: each of them was satisfied for
the caller, and each mutex has been acquired once more. -/
def AllExact : KeOp → Prop
  | .waitMultiple objs true timeout =>
    ∀ t ∈ w.ke.current, objs.Nodup → ∀ s',
      w.ke.keWaitMultiple objs true timeout = .ok (some statusSuccess, s') →
      ∀ d ∈ objs, w.ke.dispSatisfied d t = true ∧
        ((w.ke.disp d).type = .mutant → s'.held t d = w.ke.held t d + 1)
  | .resume =>
    ∀ c ∈ w.ke.goesOn true, c.2.Nodup → ∀ s', w.ke.resume = .ok (some statusSuccess, s') →
      ∀ b ∈ c.2.zipIdx, (w.ke.BlockWoken c.1 b.2 ∨ w.ke.dispSatisfied b.1 c.1 = true) ∧
        ((w.ke.disp b.1).type = .mutant → s'.held c.1 b.1 = w.base c.1 b.1 + 1)
  | _ => True

/-- The step leaves the object `d` of the `WAIT_ALL` of `t` alone once `t` has been woken, and signals it
only when it is the last one missing, and no mutex. -/
def Kernel.Spares (s : Kernel) (op : KeOp) (t d : Nat) : Prop :=
  (s.Touches op d → (s.thread t).wait.wakeStatus = statusTimeout) ∧
    (d ∈ s.signaled op → (s.disp d).type ≠ .mutant ∧
      ∀ e ∈ s.waitsAll t, e ≠ d → s.dispSatisfied e t = true ∧ ¬ s.Touches op e)
  deriving Decidable

/-- The step spares the objects of every `WAIT_ALL`, but for that of the thread that goes on. -/
def AllOk (op : KeOp) : Prop :=
  ∀ t < w.ke.nthread, (op.isResume = true → w.ke.current ≠ some t) →
    ∀ d ∈ w.ke.waitsAll t, w.ke.Spares op t d

instance (w : WaitSys) (op : KeOp) : Decidable (AllOk w op) :=
  inferInstanceAs (Decidable (∀ t < w.ke.nthread, _))

/-! ## Any object -/

/-- A call of `t` that goes on in `s` and returns in `s'` has used up the object of its block
`b`. -/
def Consumes (base : Nat → Nat) (s s' : Kernel) (t : Nat) (b : Nat × Nat) : Prop :=
  (s.disp b.1).type = .synchronizationEvent ∧ s.BlockWoken t b.2 ∨
    (s.disp b.1).type = .mutant ∧ base b.1 < s'.held t b.1

/-- A `WAIT_ANY` of distinct objects that returns an index has got the object there and used up no
other, and one that returns `STATUS_TIMEOUT` has used up none. -/
def AnyExact : KeOp → Prop
  | .waitMultiple objs false timeout =>
    ∀ t ∈ w.ke.current, objs.Nodup → ∀ st s',
      w.ke.keWaitMultiple objs false timeout = .ok (some st, s') →
      (∀ b ∈ objs.zipIdx, b.2 < waitObjectsMax → st = b.2 →
        w.ke.dispSatisfied b.1 t = true ∧
        ((w.ke.disp b.1).type = .mutant → s'.held t b.1 = w.ke.held t b.1 + 1) ∧
        ((w.ke.disp b.1).type = .synchronizationEvent → (s'.disp b.1).signalState = 0) ∧
        ∀ d ∈ objs, d ≠ b.1 → s'.disp d = w.ke.disp d) ∧
      (st = statusTimeout → ∀ d ∈ objs, s'.disp d = w.ke.disp d)
  | .resume =>
    ∀ c ∈ w.ke.goesOn false, c.2.Nodup → ∀ st s', w.ke.resume = .ok (some st, s') →
      (∀ b ∈ c.2.zipIdx, st = b.2 → w.ke.BlockWoken c.1 b.2 ∧
        ((w.ke.disp b.1).type = .mutant → s'.held c.1 b.1 = w.base c.1 b.1 + 1) ∧
        ∀ b' ∈ c.2.zipIdx, b' ≠ b → ¬ Consumes (w.base c.1) w.ke s' c.1 b') ∧
      (st = statusTimeout → ∀ b ∈ c.2.zipIdx, ¬ Consumes (w.base c.1) w.ke s' c.1 b)
  | _ => True

/-- Of two objects that have woken the thread by the time it goes on, the one that comes first in
the list is neither an auto-reset event nor a mutex. -/
def AnyOk : KeOp → Prop
  | .resume =>
    ∀ c ∈ w.ke.goesOn false, c.2.Nodup → ∀ b ∈ c.2.zipIdx, ∀ b' ∈ c.2.zipIdx, b.2 < b'.2 →
      w.ke.BlockWoken c.1 b.2 → w.ke.BlockWoken c.1 b'.2 →
      (w.ke.disp b.1).type ≠ .synchronizationEvent ∧ (w.ke.disp b.1).type ≠ .mutant
  | _ => True

instance (w : WaitSys) (op : KeOp) : Decidable (AnyOk w op) := by
  apply KeOp.casesOn (motive := fun op => Decidable (AnyOk w op)) op <;> intros <;>
    dsimp only [AnyOk] <;> infer_instance

end Aegis
