import Aegis.Ke.Trap

/-!
# Kernel stacks of threads (`psp_create_thread`, `vmm_map_kstack`, hardware build)

A live thread is its `tid`. Whether there is memory is a parameter of each creation.
-/

namespace Aegis

/-- `MAX_THREADS`, the number of stack slots. -/
def maxThreads : Nat := 256

/-- The bottom of a slot, which is the guard page. -/
def kstackBase (tid : Nat) : Nat := kernelStackBase + (tid - 1) * kstackStride

/-- `mem`: `vmm_map_guarded_stack` gets its frames and page tables. -/
def vmmMapKstack (tid : Nat) (mem : Bool) : Status × Option Nat :=
  if tid = 0 ∨ tid > maxThreads then (.invalidParameter, none)
  else if mem then (.success, some (kstackBase tid + pageSize)) else (.noMemory, none)

/-- `g_next_tid` and the live threads. -/
structure KstackSys where
  nextTid : Nat
  live : List Nat

/-- `object`: there is memory for the thread object. -/
inductive KstackOp
  | create (object mem : Bool)
  | exit (tid : Nat)
  deriving DecidableEq

namespace KstackSys

variable (s : KstackSys)

/-- `psp_create_thread`; the number is used up when the stack cannot be mapped. -/
def pspCreateThread (object mem : Bool) : Status × KstackSys :=
  if object = false then (.noMemory, s)
  else
    let s' := { s with nextTid := u64 (s.nextTid + 1) }
    match (vmmMapKstack (u32 s.nextTid) mem).2 with
    | none => (.noMemory, s')
    | some _ => (.success, { s' with live := s.nextTid :: s.live })

/-- The idle thread, which never exits. -/
def idleTid : Nat := 1

/-- A live thread other than the idle one may exit. -/
def step : KstackOp → Option KstackSys
  | .create object mem => some (s.pspCreateThread object mem).2
  | .exit tid =>
    if tid ∈ s.live ∧ tid ≠ idleTid then some { s with live := s.live.erase tid } else none

/-- Behind `sched_init`, which has made the idle thread. -/
def boot : KstackSys := ⟨2, [idleTid]⟩

/-- A creation succeeds if there are fewer threads than `MAX_THREADS`, and memory. -/
def Creates : KstackOp → Prop
  | .create object mem => s.live.length < maxThreads → object = true → mem = true →
    (s.pspCreateThread object mem).1 = .success
  | .exit _ => True

/-- No address is in the slots of two live threads. -/
def Separate : Prop :=
  s.live.Pairwise fun t u => ∀ a,
    ¬ ((kstackBase (u32 t) ≤ a ∧ a < kstackBase (u32 t) + kstackStride) ∧
      kstackBase (u32 u) ≤ a ∧ a < kstackBase (u32 u) + kstackStride)

/-- A thread that gets an object is one of the first `MAX_THREADS` ever. -/
abbrev Early (op : KstackOp) : Prop :=
  (∃ mem, op = .create true mem) → s.nextTid ≤ maxThreads

end KstackSys

end Aegis
