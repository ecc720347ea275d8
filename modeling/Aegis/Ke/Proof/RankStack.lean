import Aegis.Ke.RankStack

/-!
# The array has the ranks of the locks that are held

A lock comes to the end of the array, with a rank above all others. The gap that a lock leaves when it
is released, in whatever order, is closed (`search_spec`), so what stays is the list without it.
-/

namespace Aegis

open Function

namespace RankPcb

variable {Λ : Type} [DecidableEq Λ] {rank : Λ → Nat} {s s' : RankPcb Λ} {held : List Λ} {l : Λ}
variable {stack : Nat → Nat} {n k j depth : Nat}

/-! ## The loops -/

theorem closeGap_apply (hj : 0 < j) (i : Nat) : closeGap n j stack i =
    if j ≤ i + 1 ∧ i + 1 < j + n then stack (i + 1) else stack i := by
  induction n generalizing j stack with
  | zero => rw [closeGap, if_neg (by omega)]
  | succ n ih =>
    rw [closeGap, ih (Nat.succ_pos j)]
    by_cases hi : i + 1 = j
    · subst hi
      rw [if_neg (by omega), if_pos (by omega)]
      exact update_self ..
    · by_cases hin : j + 1 ≤ i + 1 ∧ i + 1 < j + 1 + n
      · rw [if_pos hin, if_pos (by omega), update_of_ne (by omega)]
      · rw [if_neg hin, if_neg (by omega), update_of_ne (by omega)]

/-- The search closes the gap at the last slot `k` that has the rank. -/
theorem search_eq (hk : k < n) (hlast : ∀ i, k < i → i < n → stack i ≠ stack k) :
    search (stack k) depth stack n = (closeGap (depth - (k + 1)) (k + 1) stack, depth - 1) := by
  induction n with
  | zero => omega
  | succ n ih =>
    unfold search
    by_cases hkn : k = n
    · rw [hkn, if_pos rfl]
    · rw [if_neg (hlast n (by omega) (by omega))]
      exact ih (by omega) fun i h1 h2 => hlast i h1 (by omega)

theorem search_spec (hk : k < depth) (hlast : ∀ i, k < i → i < depth → stack i ≠ stack k) :
    let r := search (stack k) depth stack depth
    r.2 = depth - 1 ∧
      (List.range (depth - 1)).map r.1 = ((List.range depth).map stack).eraseIdx k := by
  simp only [search_eq hk hlast, true_and]
  refine List.ext_getElem (by simp [List.length_eraseIdx, hk]) fun i h1 h2 => ?_
  rw [List.length_map, List.length_range] at h1
  rw [List.getElem_map, List.getElem_range, closeGap_apply (Nat.succ_pos k), List.getElem_eraseIdx]
  by_cases hi : i < k
  · rw [if_neg (by omega), dif_pos hi, List.getElem_map, List.getElem_range]
  · rw [if_pos (by omega), dif_neg hi, List.getElem_map, List.getElem_range]

/-! ## Calls -/

theorem foldr_max_append (l : List Nat) {r : Nat} (h : ∀ x ∈ l, x < r) :
    (l ++ [r]).foldr max 0 = r := by
  induction l with
  | nil => exact Nat.max_zero r
  | cons x l ih =>
    obtain ⟨hx, hl⟩ := List.forall_mem_cons.1 h
    rw [List.cons_append, List.foldr_cons, ih hl, max_eq_right hx.le]

theorem le_foldr_max {l : List Nat} {r : Nat} (hr : 0 < l.length) :
    r ≤ l.foldr max 0 ↔ ∃ x ∈ l, r ≤ x := by
  induction l with
  | nil => cases hr
  | cons x l ih =>
    rw [List.foldr_cons, le_max_iff, List.exists_mem_cons_iff]
    cases l with
    | nil => simp +contextual
    | cons y l => rw [ih (Nat.succ_pos _)]

omit [DecidableEq Λ] in
theorem Exact.length (h : s.Exact rank held) : s.heldDepth = held.length := by
  simpa using congrArg List.length h.ranks

theorem Exact.refused_iff (h : s.Exact rank held) (l : Λ) :
    (∃ e, s.spinLock rank l = .error e) ↔
      (∃ l' ∈ held, rank l ≤ rank l') ∨ lockDepthMax ≤ held.length := by
  have hlen := h.length
  have hrank : s.heldDepth ≠ 0 ∧ rank l ≤ s.heldRank ↔ ∃ l' ∈ held, rank l ≤ rank l' := by
    rw [h.top]
    cases held with
    | nil => simp [hlen]
    | cons a held =>
      rw [le_foldr_max (by simp)]
      simp [hlen]
  have hdepth : s.heldDepth ≠ 0 ∧ lockDepthMax ≤ s.heldDepth ↔ lockDepthMax ≤ held.length := by
    unfold lockDepthMax
    omega
  unfold spinLock
  simp only [hrank, hdepth]
  split_ifs with h1 h2 h3
  · simp [h1]
  · simp [h2]
  · exact absurd ⟨l, (h.locked l).1 h3, le_rfl⟩ h1
  · simp [h1, h2]

theorem Exact.lock (h : s.Exact rank held) (hs : s.spinLock rank l = .ok s') :
    s'.Exact rank (held ++ [l]) := by
  have hfree : ¬ ((∃ l' ∈ held, rank l ≤ rank l') ∨ lockDepthMax ≤ held.length) := fun hr => by
    obtain ⟨e, he⟩ := (h.refused_iff l).2 hr
    rw [hs] at he
    cases he
  simp only [not_or, not_exists, not_and, not_le] at hfree
  obtain ⟨hlow, hroom⟩ := hfree
  have hlow' : ∀ r ∈ held.map rank, r < rank l := List.forall_mem_map.2 hlow
  have hlen := h.length
  unfold spinLock at hs
  split_ifs at hs
  cases hs
  refine ⟨fun l' => ?_, ?_, ?_, ?_, by simpa [hlen] using hroom⟩
  · by_cases he : l' = l
    · simp [he]
    · simp [he, h.locked]
  · rw [List.range_succ, List.map_append, List.map_append, ← h.ranks]
    congr 1
    · refine List.map_congr_left fun i hi => update_of_ne ?_ ..
      exact (List.mem_range.1 hi).ne
    · simp
  · rw [List.map_append, List.pairwise_append]
    exact ⟨h.increasing, List.pairwise_singleton .., by simpa using hlow⟩
  · rw [List.map_append]
    exact (foldr_max_append _ hlow').symm

theorem Exact.unlock (h : s.Exact rank held) (hl : l ∈ held) :
    (s.spinUnlock rank l).Exact rank (held.erase l) := by
  obtain ⟨k, hk, hkl⟩ := List.mem_iff_getElem.1 hl
  have hlen := h.length
  have hget : ∀ i, (hi : i < held.length) → s.rankStack i = rank held[i] := fun i hi => by
    have := congrArg (·[i]?) h.ranks
    simpa [hi, hlen] using this
  have hinc : ∀ i j, (hj : j < held.length) → (hi : i < j) → rank held[i] < rank held[j] :=
    fun i j hj hi =>
      List.pairwise_iff_getElem.1 (List.pairwise_map.1 h.increasing) i j (hi.trans hj) hj hi
  have hrk : s.rankStack k = rank l := by rw [hget k hk, hkl]
  have hlast : ∀ i, k < i → i < s.heldDepth → s.rankStack i ≠ s.rankStack k := fun i h1 h2 => by
    rw [hget i (by omega), hget k hk]
    exact (hinc k i (by omega) h1).ne'
  -- the test of the top slot is the first round of the search
  have htop : (if s.rankStack (s.heldDepth - 1) = rank l then (s.rankStack, s.heldDepth - 1)
      else search (rank l) s.heldDepth s.rankStack s.heldDepth) =
      search (rank l) s.heldDepth s.rankStack s.heldDepth := by
    obtain ⟨d, hd⟩ : ∃ d, s.heldDepth = d + 1 := ⟨s.heldDepth - 1, by omega⟩
    rw [hd]
    split_ifs with ht
    · rw [search, if_pos (show s.rankStack d = rank l from ht), Nat.sub_self]
      rfl
    · rfl
  obtain ⟨hdepth, hranks⟩ := search_spec (by omega : k < s.heldDepth) hlast
  have hnodup : held.Nodup :=
    (List.pairwise_map.1 h.increasing).imp fun hlt he => hlt.ne (congrArg rank he)
  have herase : held.erase l = held.eraseIdx k := by
    rw [← hkl, hnodup.erase_getElem]
  have hmap : ((List.range s.heldDepth).map s.rankStack).eraseIdx k = (held.erase l).map rank := by
    rw [h.ranks, herase, List.eraseIdx_map]
  rw [hmap, hrk] at hranks
  rw [hrk] at hdepth
  unfold spinUnlock
  rw [if_neg (by omega), htop]
  generalize search (rank l) s.heldDepth s.rankStack s.heldDepth = r at hranks hdepth
  obtain ⟨stack, depth⟩ := r
  simp only at hranks hdepth ⊢
  subst hdepth
  have hsub : ((held.erase l).map rank).Pairwise (· < ·) :=
    h.increasing.sublist ((List.erase_sublist ..).map rank)
  refine ⟨fun l' => ?_, hranks, hsub, ?_, (Nat.sub_le _ 1).trans h.depth⟩
  · rw [hnodup.mem_erase_iff]
    by_cases he : l' = l
    · simp [he]
    · simp [he, h.locked]
  · rw [← hranks] at hsub ⊢
    split_ifs with hd
    · obtain ⟨d, hd'⟩ : ∃ d, s.heldDepth - 1 = d + 1 := ⟨s.heldDepth - 2, by omega⟩
      rw [hd', List.range_succ, List.map_append] at hsub ⊢
      refine (foldr_max_append _ fun x hx => ?_).symm
      exact (List.pairwise_append.1 hsub).2.2 x hx _ (by simp)
    · rw [not_not.1 hd]
      rfl

/-- Whatever locks are taken and released, in any order, the array has the ranks of those that are
held, in increasing order, and a lock is refused exactly if one of its rank or a higher one is held
or too many are. -/
theorem rank_stack_exact {stack : Nat → Nat} {ops : List (SpinCall Λ)}
    (hl : Run.Legal (step rank) ReleasesHeld (init stack) ops)
    (hr : Run.run (step rank) (init stack) ops = some s) :
    ∃ held, s.Exact rank held ∧ ∀ l, (∃ e, s.spinLock rank l = .error e) ↔
      (∃ l' ∈ held, rank l ≤ rank l') ∨ lockDepthMax ≤ held.length := by
  have hinit : ∃ held, (init stack : RankPcb Λ).Exact rank held :=
    ⟨[], fun _ => by simp [init], rfl, .nil, rfl, Nat.zero_le _⟩
  have hstep : ∀ s a s', (∃ held, RankPcb.Exact rank s held) → s.ReleasesHeld a →
      s.step rank a = some s' → ∃ held, s'.Exact rank held := by
    rintro s (l | l) s' ⟨held, h⟩ hok hs
    · cases he : s.spinLock rank l with
      | error e => simp [step, he, Except.toOption] at hs
      | ok s1 =>
        obtain rfl : s1 = s' := by simpa [step, he, Except.toOption] using hs
        exact ⟨_, h.lock he⟩
    · cases hs
      exact ⟨_, h.unlock ((h.locked l).1 hok)⟩
  obtain ⟨held, h⟩ := Run.run_keeps hstep hinit hl hr
  exact ⟨held, h, h.refused_iff⟩

/-- The middle one of three locks is released first. -/
theorem rank_stack_exact_middle :
    let ops : List (SpinCall Nat) := [.lock 6, .lock 9, .lock 10, .unlock 9]
    ∃ s, Run.run (step id) (init fun _ => 0) ops = some s ∧ s.heldDepth = 2 ∧ s.heldRank = 10 ∧
      ∃ held, s.Exact id held := by
  intro ops
  obtain ⟨s, hs, h1, h2⟩ : ∃ s, Run.run (step id) (init fun _ => 0) ops = some s ∧
      s.heldDepth = 2 ∧ s.heldRank = 10 := by decide +kernel
  have hl : Run.Legal (step id) ReleasesHeld (init fun _ => 0) ops := by decide +kernel
  obtain ⟨held, h, -⟩ := rank_stack_exact hl hs
  exact ⟨s, hs, h1, h2, held, h⟩

end RankPcb

end Aegis
