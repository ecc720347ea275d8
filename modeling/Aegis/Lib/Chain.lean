import Mathlib.Data.List.Nodup
import Mathlib.Logic.Function.Basic
import Mathlib.Tactic

/-!
# Intrusive singly linked lists

`Linked nil next h l`: following `next` from the head `h` visits exactly the nodes of `l`, in
order, and then `nil`. A node's successor lives in the node, so the list a head denotes changes
when a node's `next` does: the lemmas say what a push at the head (`linked_push`), unlinking a
node behind its predecessor (`linked_unlink`) and a write to a foreign node (`linked_congr`) do.
-/

namespace Chain

open Function

variable {α : Type} {nil : α} {next next' : α → α}
variable {h : α} {l : List α}

/-- Following `next` from `h` visits `l`, then `nil`. -/
def Linked (nil : α) (next : α → α) : α → List α → Prop
  | h, [] => h = nil
  | h, x :: l => h = x ∧ x ≠ nil ∧ Linked nil next (next x) l

theorem linked_congr (hl : Linked nil next h l) (he : ∀ x ∈ l, next' x = next x) :
    Linked nil next' h l := by
  induction l generalizing h with
  | nil => exact hl
  | cons x l ih =>
    obtain ⟨rfl, hn, hl⟩ := hl
    refine ⟨rfl, hn, ?_⟩
    rw [he h (by simp)]
    exact ih hl fun y hy => he y (by simp [hy])

theorem linked_nil_iff (hl : Linked nil next h l) : h = nil ↔ l = [] := by
  cases l with
  | nil => exact ⟨fun _ => rfl, fun _ => hl⟩
  | cons x l =>
    obtain ⟨rfl, hn, -⟩ := hl
    simp [hn]

section
variable [DecidableEq α]

/-- A node pushed at the head. -/
theorem linked_push {h x : α} {l : List α} (hl : Linked nil next h l) (hx : x ∉ l)
    (hn : x ≠ nil) : Linked nil (update next x h) x (x :: l) := by
  refine ⟨rfl, hn, ?_⟩
  rw [update_self]
  exact linked_congr hl fun y hy => update_of_ne (fun e => hx (by rwa [← e])) _ _

/-- Unlinking `x` behind its predecessor `q`. -/
theorem linked_unlink {h q x : α} {l1 l2 : List α} (hl : Linked nil next h (l1 ++ q :: x :: l2))
    (hnd : (l1 ++ q :: x :: l2).Nodup) : Linked nil (update next q (next x)) h (l1 ++ q :: l2) := by
  induction l1 generalizing h with
  | nil =>
    obtain ⟨rfl, hq, rfl, -, hl⟩ := hl
    refine ⟨rfl, hq, ?_⟩
    rw [update_self]
    refine linked_congr hl fun y hy => update_of_ne ?_ _ _
    rintro rfl
    simp [hy] at hnd
  | cons y l1 ih =>
    obtain ⟨rfl, hy, hl⟩ := hl
    have hne : h ≠ q := by rintro rfl; simp at hnd
    refine ⟨rfl, hy, ?_⟩
    rw [update_of_ne hne]
    exact ih hl (List.nodup_cons.1 hnd).2

end

end Chain
