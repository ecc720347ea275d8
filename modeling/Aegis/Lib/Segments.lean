import Aegis.Lib.Apart

/-!
# Labelled segments

Disjoint non-empty intervals `[lo a, hi a)` with a label each. If no interval ends where one with the
same label starts, then they are the longest stretches of points with one label
(`Merged.exists_iff`), so the labels of the points determine the intervals (`Merged.exists_of_mem`).
-/

namespace Segments

open Apart

variable {α α' β : Type} (lo hi : α → Nat) (label : α → β)

/-- The point is in an interval with the label. -/
def At (l : List α) (n : Nat) (x : β) : Prop := ∃ a ∈ l, (lo a ≤ n ∧ n < hi a) ∧ label a = x

/-- Ranges that are apart, with no two of one label that could be joined. -/
structure Merged (l : List α) : Prop where
  apart : AllOff lo hi l
  nonempty : ∀ a ∈ l, lo a < hi a
  noPair : ∀ a ∈ l, ∀ b ∈ l, hi a = lo b → label a ≠ label b

variable {lo hi label} {l : List α} {p q n : Nat} {x : β}

section
variable (h : Merged lo hi label l)
include h

/-- Two points in a row with one label are in one interval. -/
theorem Merged.eq_of_succ {a b : α} (ha : a ∈ l) (hb : b ∈ l) (han : lo a ≤ n ∧ n < hi a)
    (hbn : lo b ≤ n + 1 ∧ n + 1 < hi b) (hx : label a = label b) : a = b := by
  by_cases hlt : n + 1 < hi a
  · exact h.apart.eq_of_mem ha hb ⟨Nat.le_succ_of_le han.1, hlt⟩ hbn
  · by_cases hle : lo b ≤ n
    · exact h.apart.eq_of_mem ha hb han ⟨hle, Nat.lt_of_succ_lt hbn.2⟩
    · exact absurd hx (h.noPair a ha b hb (by omega))

/-- An interval does not go on behind its end. -/
theorem Merged.not_at_hi {a : α} (ha : a ∈ l) : ¬ At lo hi label l (hi a) (label a) := by
  rintro ⟨b, hb, hbn, hx⟩
  have hlt := h.nonempty a ha
  have heq := h.eq_of_succ (n := hi a - 1) ha hb ⟨by omega, by omega⟩
    (by rw [Nat.sub_add_cancel (by omega)]; exact hbn) hx.symm
  subst heq
  exact absurd hbn.2 (Nat.lt_irrefl _)

/-- Nor did it start before. -/
theorem Merged.not_at_pred {a : α} (ha : a ∈ l) (hn : n + 1 = lo a) :
    ¬ At lo hi label l n (label a) := by
  rintro ⟨b, hb, hbn, hx⟩
  have hlt := h.nonempty a ha
  have heq := h.eq_of_succ hb ha hbn ⟨by omega, by omega⟩ hx
  subst heq
  omega

/-- The intervals are the longest stretches of one label. -/
theorem Merged.exists_iff :
    (∃ a ∈ l, lo a = p ∧ hi a = q ∧ label a = x) ↔
      p < q ∧ (∀ n, p ≤ n → n < q → At lo hi label l n x) ∧
        (∀ n, n + 1 = p → ¬ At lo hi label l n x) ∧ ¬ At lo hi label l q x := by
  constructor
  · rintro ⟨a, ha, rfl, rfl, rfl⟩
    exact ⟨h.nonempty a ha, fun n h1 h2 => ⟨a, ha, ⟨h1, h2⟩, rfl⟩, fun n hn => h.not_at_pred ha hn,
      h.not_at_hi ha⟩
  · rintro ⟨hlt, hall, hbefore, hafter⟩
    obtain ⟨a, ha, han, hx⟩ := hall p (Nat.le_refl p) hlt
    refine ⟨a, ha, ?_, ?_, hx⟩
    · -- the point before `p` would have the label
      by_contra hne
      exact hbefore (p - 1) (by omega) ⟨a, ha, ⟨by omega, by omega⟩, hx⟩
    · rcases Nat.lt_trichotomy (hi a) q with hs | hs | hs
      · exact absurd (hx ▸ hall (hi a) (Nat.le_of_lt han.2) hs) (h.not_at_hi ha)
      · exact hs
      · exact absurd ⟨a, ha, ⟨by omega, hs⟩, hx⟩ hafter

/-- Two lists with the same labels have the same intervals. -/
theorem Merged.exists_of_mem {lo' hi' : α' → Nat} {label' : α' → β} {l' : List α'}
    (h' : Merged lo' hi' label' l') (hat : ∀ n x, At lo hi label l n x ↔ At lo' hi' label' l' n x)
    {a : α} (ha : a ∈ l) : ∃ b ∈ l', lo' b = lo a ∧ hi' b = hi a ∧ label' b = label a := by
  have hmax := h.exists_iff.1 ⟨a, ha, rfl, rfl, rfl⟩
  simp only [hat] at hmax
  exact h'.exists_iff.2 hmax

/-- No interval is there twice. -/
theorem Merged.nodup : l.Nodup := by
  refine h.apart.imp_of_mem fun {a b} ha hb hoff => ?_
  rintro rfl
  have hlt := h.nonempty a ha
  simp only [Off] at hoff
  omega

end

end Segments
