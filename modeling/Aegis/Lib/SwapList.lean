import Mathlib.Tactic

/-!
# Lists as arrays with swap removal

An array that removes an entry by moving its last one into the place keeps its entries only up to
order. The lemmas give the contents of the list after each update up to a permutation, around the
entry `x` at index `i`: the entries are `x` and `l.eraseIdx i`.
-/

namespace SwapList

variable {α : Type}
variable {x : α} {i : Nat} {β : Type} {l : List α} {p : α → Bool}

/-- `a[i] = a[--n]`. -/
def swapRemove (l : List α) (i : Nat) : List α :=
  match l.getLast? with
  | none => []
  | some x => (l.set i x).dropLast

/-- The first entry with the property, and its index. -/
def findAt (p : α → Bool) (l : List α) : Option (α × Nat) := l.zipIdx.find? fun x => p x.1

theorem findAt_some (h : findAt p l = some (x, i)) : p x = true ∧ l[i]? = some x := by
  have hp := List.find?_some (show l.zipIdx.find? (fun x => p x.1) = some (x, i) from h)
  exact ⟨hp, List.mem_zipIdx_iff_getElem?.1 (List.mem_of_find?_eq_some h)⟩

theorem findAt_none (h : findAt p l = none) : ∀ x ∈ l, p x = false := by
  intro x hx
  obtain ⟨i, hi, rfl⟩ := List.mem_iff_getElem.1 hx
  have := List.find?_eq_none.1 h (l[i], i) (List.mem_zipIdx_iff_getElem?.2 (by simp))
  simpa using this

theorem findAt_map (f : α → β) (p : β → Bool) (l : List α) :
    findAt p (l.map f) = (findAt (fun x => p (f x)) l).map (Prod.map f id) := by
  unfold findAt
  rw [List.zipIdx_map, List.find?_map]
  rfl

theorem swapRemove_map (f : α → β) (l : List α) (i : Nat) :
    swapRemove (l.map f) i = (swapRemove l i).map f := by
  unfold swapRemove
  rw [List.getLast?_map]
  cases l.getLast? with
  | none => rfl
  | some x => simp only [Option.map_some, List.map_dropLast, List.map_set]

theorem perm_eraseIdx (h : l[i]? = some x) : l.Perm (x :: l.eraseIdx i) := by
  obtain ⟨hi, rfl⟩ := List.getElem?_eq_some_iff.1 h
  exact (List.getElem_cons_eraseIdx_perm hi).symm

theorem set_perm (hi : i < l.length) (y : α) : (l.set i y).Perm (y :: l.eraseIdx i) := by
  have h : (l.set i y)[i]? = some y := by simp [hi]
  have := perm_eraseIdx h
  rwa [List.eraseIdx_set_eq] at this

theorem swapRemove_perm (hi : i < l.length) : (swapRemove l i).Perm (l.eraseIdx i) := by
  rcases List.eq_nil_or_concat l with rfl | ⟨l', x, rfl⟩
  · simp at hi
  · have hr : swapRemove (l' ++ [x]) i = ((l' ++ [x]).set i x).dropLast := by
      simp [swapRemove]
    rw [List.concat_eq_append] at hi ⊢
    rw [hr]
    rcases Nat.lt_or_ge i l'.length with h | h
    · rw [List.set_append_left _ _ h, List.dropLast_concat, List.eraseIdx_append_of_lt_length h]
      exact (set_perm h x).trans (List.perm_append_singleton x _).symm
    · have : i = l'.length := by
        simp only [List.length_append, List.length_cons, List.length_nil] at hi
        omega
      subst this
      simp [List.eraseIdx_append_of_length_le]

/-- An entry is written, and another one removed. -/
theorem set_swapRemove_perm {y : α} {j : Nat} (hij : i ≠ j) (hi : l[i]? = some x)
    (hj : l[j]? = some y) :
    ∃ rest, l.Perm (x :: y :: rest) ∧ ∀ w, (swapRemove (l.set i w) j).Perm (w :: rest) := by
  obtain ⟨hjl, hjy⟩ := List.getElem?_eq_some_iff.1 hj
  obtain ⟨hil, -⟩ := List.getElem?_eq_some_iff.1 hi
  have hremove : ∀ w, (swapRemove (l.set i w) j).Perm ((l.set i w).eraseIdx j) := fun w =>
    swapRemove_perm (by simpa using hjl)
  -- where the entry `i` is once `j` is gone
  obtain ⟨k, hk, hset⟩ : ∃ k, (l.eraseIdx j)[k]? = some x ∧
      ∀ w, (l.set i w).eraseIdx j = (l.eraseIdx j).set k w := by
    rcases Nat.lt_or_gt_of_ne hij with h | h
    · exact ⟨i, by rw [List.getElem?_eraseIdx_of_lt h, hi],
        fun w => List.eraseIdx_set_gt h⟩
    · refine ⟨i - 1, ?_, fun w => List.eraseIdx_set_lt h⟩
      rw [List.getElem?_eraseIdx_of_ge (by omega), Nat.sub_add_cancel (by omega), hi]
  refine ⟨(l.eraseIdx j).eraseIdx k, ?_, fun w => ?_⟩
  · exact (perm_eraseIdx hj).trans (((perm_eraseIdx hk).cons y).trans (.swap x y _))
  · refine (hremove w).trans ?_
    rw [hset]
    exact set_perm (List.getElem?_eq_some_iff.1 hk).1 w

end SwapList
