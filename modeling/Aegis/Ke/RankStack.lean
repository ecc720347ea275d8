import Aegis.Ke.Spin

/-!
# The array of ranks (`ke/spin.c`)

`spin_lock` and `spin_unlock` on the fields of the `pcb_t`: the array `rank_stack` with what earlier
locks have left behind its end, and the loops that search it and close the gap.
-/

namespace Aegis

open RankLock Function

/-- The locks, and the stack of ranks of the PCB. -/
structure RankPcb (Λ : Type) where
  locked : Λ → Bool
  rankStack : Nat → Nat
  heldDepth : Nat
  heldRank : Nat

/-- A call of a lock. -/
inductive SpinCall (Λ : Type)
  | lock (l : Λ)
  | unlock (l : Λ)

namespace RankPcb

variable {Λ : Type} [DecidableEq Λ] (rank : Λ → Nat)

def init (stack : Nat → Nat) : RankPcb Λ := ⟨fun _ => false, stack, 0, 0⟩

variable (s : RankPcb Λ)

/-- `spin_lock`, with its checks of the rank. -/
def spinLock (l : Λ) : Except Stop (RankPcb Λ) :=
  if s.heldDepth ≠ 0 ∧ rank l ≤ s.heldRank then .error .rank
  else if s.heldDepth ≠ 0 ∧ lockDepthMax ≤ s.heldDepth then .error .depth
  else if s.locked l then .error .spin
  else .ok ⟨update s.locked l true, update s.rankStack s.heldDepth (rank l),
    s.heldDepth + 1, rank l⟩

/-- `rank_stack[j - 1] = rank_stack[j]`, `n` times from `j` on. -/
def closeGap : Nat → Nat → (Nat → Nat) → Nat → Nat
  | 0, _, stack => stack
  | n + 1, j, stack => closeGap n (j + 1) (update stack (j - 1) (stack j))

/-- The search from the top, with `i` slots left: the array and `held_depth`. -/
def search (r depth : Nat) (stack : Nat → Nat) : Nat → (Nat → Nat) × Nat
  | 0 => (stack, depth)
  | i + 1 =>
    if stack i = r then (closeGap (depth - (i + 1)) (i + 1) stack, depth - 1)
    else search r depth stack i

/-- `spin_unlock`. -/
def spinUnlock (l : Λ) : RankPcb Λ :=
  let locked := update s.locked l false
  if s.heldDepth = 0 then { s with locked }
  else
    let (stack, depth) :=
      if s.rankStack (s.heldDepth - 1) = rank l then (s.rankStack, s.heldDepth - 1)
      else search (rank l) s.heldDepth s.rankStack s.heldDepth
    ⟨locked, stack, depth, if depth ≠ 0 then stack (depth - 1) else 0⟩

def step : SpinCall Λ → Option (RankPcb Λ)
  | .lock l => (s.spinLock rank l).toOption
  | .unlock l => some (s.spinUnlock rank l)

/-- Only held locks are released. -/
def ReleasesHeld : SpinCall Λ → Prop
  | .lock _ => True
  | .unlock l => s.locked l = true

instance (s : RankPcb Λ) (a : SpinCall Λ) : Decidable (s.ReleasesHeld a) := by
  cases a <;> dsimp only [ReleasesHeld] <;> infer_instance

/-- The locks `held`, the lowest rank first, and the fields agree. -/
structure Exact (held : List Λ) : Prop where
  locked : ∀ l, s.locked l = true ↔ l ∈ held
  ranks : (List.range s.heldDepth).map s.rankStack = held.map rank
  increasing : (held.map rank).Pairwise (· < ·)
  top : s.heldRank = (held.map rank).foldr max 0
  depth : s.heldDepth ≤ lockDepthMax

end RankPcb

end Aegis
