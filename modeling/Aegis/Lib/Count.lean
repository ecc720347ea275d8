import Mathlib.Algebra.BigOperators.Group.Finset.Basic
import Mathlib.Tactic

/-!
# Counting over a table

A finite table is a function on a finite set of positions. `sum_change`: a sum over a table changes
by the difference at the one position that a write changes; `count_set` is the case of counting
the positions that hold a value.
-/

namespace Count

open Finset

variable {α β : Type}
variable {a : α} {b : β} {s : Finset α} {f g : α → Option β}

theorem sum_change [DecidableEq α] {f g : α → Nat} (ha : a ∈ s) (h : ∀ x ∈ s, x ≠ a → f x = g x) :
    ∑ x ∈ s, f x + g a = ∑ x ∈ s, g x + f a := by
  rw [← add_sum_erase s f ha, ← add_sum_erase s g ha]
  have : ∑ x ∈ s.erase a, f x = ∑ x ∈ s.erase a, g x :=
    sum_congr rfl fun x hx => h x (mem_of_mem_erase hx) (ne_of_mem_erase hx)
  omega

variable [DecidableEq β]

/-- How many points `f` sends to `b`. -/
def count (s : Finset α) (f : α → Option β) (b : β) : Nat := ∑ x ∈ s, if f x = some b then 1 else 0

theorem count_congr (h : ∀ x ∈ s, f x = g x) (b : β) : count s f b = count s g b :=
  sum_congr rfl fun x hx => by rw [h x hx]

theorem count_pos (ha : a ∈ s) (h : f a = some b) : 0 < count s f b :=
  sum_pos' (fun _ _ => Nat.zero_le _) ⟨a, ha, by simp [h]⟩

theorem count_eq_zero : count s f b = 0 ↔ ∀ x ∈ s, f x ≠ some b := by
  unfold count
  rw [sum_eq_zero_iff]
  refine forall₂_congr fun x _ => ?_
  split <;> simp_all

theorem count_range_succ (n : Nat) (f : Nat → Option β) (b : β) :
    count (range (n + 1)) f b =
      count (range n) f b + if f n = some b then 1 else 0 :=
  sum_range_succ _ n

/-- A write at `a`. -/
theorem count_set [DecidableEq α] (ha : a ∈ s) (h : ∀ x ∈ s, x ≠ a → f x = g x) (b : β) :
    count s f b + (if g a = some b then 1 else 0) = count s g b + (if f a = some b then 1 else 0) :=
  sum_change (f := fun x => if f x = some b then 1 else 0)
    (g := fun x => if g x = some b then 1 else 0) ha fun x hx hne => by simp only [h x hx hne]

end Count
