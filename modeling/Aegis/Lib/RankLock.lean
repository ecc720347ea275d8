import Mathlib.Tactic

/-!
# Spinlocks with ranks

Locks have ranks, and a CPU takes them in the order of their ranks. It keeps the ranks of those it has
taken on a stack, the top one also in `heldRank`, and compares the next lock with that one only.
`lock` and `unlock` are made of the single stores, in the order in which they are made, so `heldRank`
may be behind the stack.

A `Section` is a lock that is taken and released with others, one after the other, in between. It can
be gone through if the CPU admits it, and leaves `heldRank` in step with the stack.
-/

namespace RankLock

open Function

/-- Why a lock is not taken: its rank is too low, there are too many, or it is not free. -/
inductive Stop
  | rank
  | depth
  | spin
  deriving DecidableEq, Repr

/-- The locks, and the ranks of those that the CPU has taken. -/
structure Cpu (Λ : Type) where
  taken : Λ → Bool
  /-- The last one first. -/
  stack : List Nat
  heldRank : Nat

/-- A lock, and those that are taken and released while it is held. -/
structure Section (Λ : Type) where
  outer : Λ
  inner : List Λ

variable {Λ : Type} [DecidableEq Λ]

namespace Cpu

/-- No lock is taken. -/
def idle : Cpu Λ := ⟨fun _ => false, [], 0⟩

/-- The single stores. -/
def mark (c : Cpu Λ) (l : Λ) : Cpu Λ := { c with taken := update c.taken l true }

def push (c : Cpu Λ) (r : Nat) : Cpu Λ := { c with stack := r :: c.stack }

def setRank (c : Cpu Λ) (r : Nat) : Cpu Λ := { c with heldRank := r }

def clear (c : Cpu Λ) (l : Λ) : Cpu Λ := { c with taken := update c.taken l false }

/-- The last lock of rank `r` leaves the stack. -/
def pop (c : Cpu Λ) (r : Nat) : Cpu Λ := { c with stack := c.stack.erase r }

/-- `heldRank` is the top of the stack. -/
def settle (c : Cpu Λ) : Cpu Λ := c.setRank (c.stack.headD 0)

variable (rank : Λ → Nat) (maxDepth : Nat)

/-- The CPU behind the stores of `lock`. -/
def take (c : Cpu Λ) (l : Λ) : Cpu Λ := ((c.mark l).push (rank l)).setRank (rank l)

/-- The checks before a lock is taken. -/
def check (c : Cpu Λ) (l : Λ) : Except Stop Unit :=
  if c.stack ≠ [] ∧ rank l ≤ c.heldRank then .error .rank
  else if c.stack ≠ [] ∧ maxDepth ≤ c.stack.length then .error .depth
  else .ok ()

/-- It spins on a lock that is taken. -/
def lock (c : Cpu Λ) (l : Λ) : Except Stop (Cpu Λ) := do
  c.check rank maxDepth l
  if c.taken l then .error .spin else .ok (c.take rank l)

/-- The rank that it takes off the stack need not be the top. -/
def unlock (c : Cpu Λ) (l : Λ) : Cpu Λ :=
  if c.stack = [] then c.clear l else ((c.clear l).pop (rank l)).settle

/-! ## What goes through -/

/-- `l` can be taken. -/
def Admits (c : Cpu Λ) (l : Λ) : Prop :=
  (c.stack ≠ [] → c.heldRank < rank l ∧ c.stack.length < maxDepth) ∧ c.taken l = false
  deriving Decidable

/-- The section can be gone through. -/
def AdmitsSection (c : Cpu Λ) (x : Section Λ) : Prop :=
  c.Admits rank maxDepth x.outer ∧
    ∀ l ∈ x.inner, rank x.outer < rank l ∧ c.stack.length + 1 < maxDepth ∧ c.taken l = false
  deriving Decidable

variable {rank maxDepth} {c c' : Cpu Λ} {l : Λ}

omit [DecidableEq Λ] in
theorem check_eq_ok : c.check rank maxDepth l = .ok () ↔
    (c.stack ≠ [] → c.heldRank < rank l ∧ c.stack.length < maxDepth) := by
  unfold check
  split
  · next h => simp [h.1, h.2]
  · next h =>
    split
    · next h' => simp [h'.1, h'.2]
    · next h' =>
      refine ⟨fun _ hs => ⟨?_, ?_⟩, fun _ => rfl⟩
      · exact not_le.1 fun hr => h ⟨hs, hr⟩
      · exact not_le.1 fun hr => h' ⟨hs, hr⟩

theorem lock_eq_ok : c.lock rank maxDepth l = .ok c' ↔
    c.Admits rank maxDepth l ∧ c' = c.take rank l := by
  unfold lock Admits
  rw [← check_eq_ok]
  cases c.check rank maxDepth l with
  | error e => simp [bind, Except.bind]
  | ok u => cases h : c.taken l <;> simp [bind, Except.bind, eq_comm]

/-- A lock is released with the stack as it was when it was taken. -/
theorem unlock_take (hl : c.taken l = false) : (c.take rank l).unlock rank l = c.settle := by
  have ht : update (update c.taken l true) l false = c.taken := by
    rw [update_idem, ← hl, update_eq_self]
  simp [unlock, take, mark, push, setRank, clear, pop, settle, ht]

/-- What is admitted inside a section. -/
theorem AdmitsSection.inner {x : Section Λ} (h : c.AdmitsSection rank maxDepth x)
    (hl : l ∈ x.inner) : (c.take rank x.outer).Admits rank maxDepth l := by
  obtain ⟨hr, hd, ht⟩ := h.2 l hl
  have hne : l ≠ x.outer := fun he => by simp [he] at hr
  exact ⟨fun _ => ⟨hr, hd⟩, (update_of_ne hne ..).trans ht⟩

end Cpu

end RankLock
