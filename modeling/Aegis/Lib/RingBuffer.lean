import Mathlib.Tactic

/-!
# Ring buffers

A queue in `cap` cells of a buffer: the read index, the write index and how many cells are in use.
`contents` is the queue; `pop` and `push` are the two moves, and `popMany` and `pushMany` the loops
of them.
-/

namespace RingBuffer

open Function

variable {α : Type}

/-- The cells, the two indices, and how many cells are used. -/
structure Buffer (α : Type) where
  cell : Nat → α
  r : Nat
  w : Nat
  used : Nat

variable (cap : Nat)

/-- The cell at `r`. -/
def pop (q : Buffer α) : α × Buffer α :=
  (q.cell q.r, { q with r := (q.r + 1) % cap, used := q.used - 1 })

/-- Into the cell at `w`. -/
def push (q : Buffer α) (a : α) : Buffer α :=
  { q with cell := update q.cell q.w a, w := (q.w + 1) % cap, used := q.used + 1 }

def popMany : Nat → Buffer α → List α × Buffer α
  | 0, q => ([], q)
  | k + 1, q =>
    let r := popMany k (pop cap q).2
    ((pop cap q).1 :: r.1, r.2)

def pushMany : List α → Buffer α → Buffer α
  | [], q => q
  | a :: l, q => pushMany l (push cap q a)

/-- The queue, from the read index on. -/
def contents (q : Buffer α) : List α := (List.range q.used).map fun k => q.cell ((q.r + k) % cap)

/-- The indices fit together. -/
structure Ok (q : Buffer α) : Prop where
  used_le : q.used ≤ cap
  r_lt : q.r < cap
  w_eq : q.w = (q.r + q.used) % cap

variable {cap} {q : Buffer α}

section
variable (h : Ok cap q)
include h

theorem pop_ok (hu : 0 < q.used) : Ok cap (pop cap q).2 := by
  obtain ⟨hle, hr, hw⟩ := h
  refine ⟨by simp only [pop]; omega, Nat.mod_lt _ (by omega), ?_⟩
  simp only [pop, hw, Nat.mod_add_mod]
  congr 1
  omega

theorem push_ok (hu : q.used < cap) (a : α) : Ok cap (push cap q a) := by
  obtain ⟨hle, hr, hw⟩ := h
  refine ⟨by simp only [push]; omega, hr, ?_⟩
  simp only [push, hw, Nat.mod_add_mod]
  rfl

theorem contents_pop (hu : 0 < q.used) :
    contents cap q = (pop cap q).1 :: contents cap (pop cap q).2 := by
  obtain ⟨n, hn⟩ : ∃ n, q.used = n + 1 := ⟨q.used - 1, by omega⟩
  simp only [contents, pop, hn, List.range_succ_eq_map, List.map_cons, List.map_map, Nat.add_zero,
    Nat.mod_eq_of_lt h.r_lt, Nat.add_sub_cancel, List.cons.injEq, true_and]
  refine List.map_congr_left fun k _ => ?_
  simp only [comp_apply, Nat.mod_add_mod]
  rw [show q.r + k.succ = q.r + 1 + k by omega]

/-- The cell that `push` writes is none of those in use. -/
theorem cell_free {k : Nat} (hk : k < q.used) (hu : q.used < cap) : (q.r + k) % cap ≠ q.w := by
  rw [h.w_eq]
  intro he
  have hmod : q.r + k ≡ q.r + q.used [MOD cap] := he
  have hk' := hmod.add_left_cancel'
  rw [Nat.ModEq, Nat.mod_eq_of_lt (by omega), Nat.mod_eq_of_lt hu] at hk'
  omega

theorem contents_push (hu : q.used < cap) (a : α) :
    contents cap (push cap q a) = contents cap q ++ [a] := by
  simp only [contents, push, List.range_succ, List.map_append, List.map_cons, List.map_nil,
    ← h.w_eq, update_self]
  congr 1
  refine List.map_congr_left fun k hk => ?_
  exact update_of_ne (cell_free h (List.mem_range.1 hk) hu) _ _

/-- Popping takes the front of the queue. -/
theorem popMany_spec {k : Nat} (hk : k ≤ q.used) :
    Ok cap (popMany cap k q).2 ∧ (popMany cap k q).2.used = q.used - k ∧
      (popMany cap k q).1.length = k ∧
      contents cap q = (popMany cap k q).1 ++ contents cap (popMany cap k q).2 := by
  induction k generalizing q with
  | zero => exact ⟨h, rfl, rfl, rfl⟩
  | succ k ih =>
    have hu : 0 < q.used := by omega
    obtain ⟨h1, h2, h3, h4⟩ := ih (pop_ok h hu) (by simp only [pop]; omega)
    refine ⟨h1, ?_, by simp [popMany, h3], ?_⟩
    · show (popMany cap k (pop cap q).2).2.used = _
      rw [h2]
      simp only [pop]
      omega
    · rw [contents_pop h hu, h4]
      rfl

/-- Pushing appends to the queue. -/
theorem pushMany_spec {l : List α} (hl : q.used + l.length ≤ cap) :
    Ok cap (pushMany cap l q) ∧ (pushMany cap l q).used = q.used + l.length ∧
      contents cap (pushMany cap l q) = contents cap q ++ l := by
  induction l generalizing q with
  | nil => exact ⟨h, rfl, by simp [pushMany]⟩
  | cons a l ih =>
    simp only [List.length_cons] at hl
    have hu : q.used < cap := by omega
    obtain ⟨h1, h2, h3⟩ := ih (push_ok h hu a) (by simp only [push]; omega)
    refine ⟨h1, ?_, ?_⟩
    · rw [pushMany, h2, List.length_cons]
      simp only [push]
      omega
    · rw [pushMany, h3, contents_push h hu]
      simp

end

end RingBuffer
