import Aegis.Mm.Proof.PageTable

/-!
# Unmapping in one piece and in batches

`vmm_unmap` and `vmm_free_user` collect the frames of a range in a list from the heap, or in batches
of `UNMAP_BATCH` if there is none. Either way the leaves are cleared page by page in the same order
and the frames freed in the order of their pages: `clearPages` is that order, without a list.
-/

namespace Aegis

theorem u64_add_left (a b : Nat) : u64 (u64 a + b) = u64 (a + b) := Nat.mod_add_mod a (2 ^ 64) b

namespace PageTables

variable {base cap k n va : Nat} {d : PageTables}

/-- The leaves of `k` pages from `va` are cleared: the tables, and the frames that were in them. -/
def clearPages : Nat → Nat → PageTables → PageTables × List Nat
  | 0, _, d => (d, [])
  | k + 1, va, d =>
    match d.walk va with
    | none => clearPages k (u64 (va + pageSize)) d
    | some (t, i) =>
      let r := clearPages k (u64 (va + pageSize)) (d.setEntry t i {})
      (r.1, (if (d.entry t i).frame ≠ 0 then [(d.entry t i).frame] else []) ++ r.2)

/-- The leaves are cleared, and then the frames freed. -/
def dropPages (k va : Nat) (d : PageTables) : PageTables :=
  (clearPages k va d).1.pmmFreeAll (clearPages k va d).2

theorem clearPages_none (h : d.walk va = none) :
    clearPages (k + 1) va d = clearPages k (u64 (va + pageSize)) d := by
  rw [clearPages, h]

theorem clearPages_some {t i : Nat} (h : d.walk va = some (t, i)) :
    clearPages (k + 1) va d = ((clearPages k (u64 (va + pageSize)) (d.setEntry t i {})).1,
      (if (d.entry t i).frame ≠ 0 then [(d.entry t i).frame] else []) ++
        (clearPages k (u64 (va + pageSize)) (d.setEntry t i {})).2) := by
  rw [clearPages, h]

/-! ## One batch -/

theorem collectClear_eq (k : Nat) : ∀ (va : Nat) (d : PageTables) (out : List Nat),
    out.length + k ≤ cap →
    collectClear cap k va d out = ((clearPages k va d).1, out ++ (clearPages k va d).2) := by
  induction k with
  | zero =>
    intro va d out _
    simp [collectClear, clearPages]
  | succ k ih =>
    intro va d out hcap
    unfold collectClear
    cases hw : d.walk va with
    | none =>
      rw [clearPages_none hw]
      exact ih _ _ _ (by omega)
    | some x =>
      obtain ⟨t, i⟩ := x
      rw [clearPages_some hw]
      simp only
      by_cases hf : (d.entry t i).frame = 0
      · rw [if_neg (by simp [hf]), ih _ _ _ (by omega)]
        simp [hf]
      · rw [if_pos ⟨hf, by omega⟩, ih _ _ _ (by simp; omega)]
        simp [hf]

theorem clearPages_add (a b : Nat) : ∀ (va : Nat) (d : PageTables), clearPages (a + b) (u64 va) d =
      ((clearPages b (u64 (va + a * pageSize)) (clearPages a (u64 va) d).1).1,
        (clearPages a (u64 va) d).2 ++
          (clearPages b (u64 (va + a * pageSize)) (clearPages a (u64 va) d).1).2) := by
  induction a with
  | zero =>
    intro va d
    simp [clearPages]
  | succ a ih =>
    intro va d
    have hnext : va + pageSize + a * pageSize = va + (a + 1) * pageSize := by ring
    rw [show a + 1 + b = a + b + 1 by omega]
    cases hw : d.walk (u64 va) with
    | none =>
      rw [clearPages_none hw, clearPages_none hw, u64_add_left, ih (va + pageSize) d, hnext]
    | some x =>
      obtain ⟨t, i⟩ := x
      rw [clearPages_some hw, clearPages_some hw, u64_add_left,
        ih (va + pageSize) (d.setEntry t i {}), hnext, List.append_assoc]

theorem clearPages_pmmFree (f k : Nat) : ∀ (va : Nat) (d : PageTables),
    clearPages k va (d.pmmFree f) = ((clearPages k va d).1.pmmFree f, (clearPages k va d).2) := by
  induction k with
  | zero => exact fun _ _ => rfl
  | succ k ih =>
    intro va d
    have hwalk := pmmFree_walk (d := d) f va
    cases hw : d.walk va with
    | none => rw [clearPages_none hw, clearPages_none (hwalk.trans hw), ih]
    | some x =>
      obtain ⟨t, i⟩ := x
      rw [clearPages_some hw, clearPages_some (hwalk.trans hw), pmmFree_entry,
        show (d.pmmFree f).setEntry t i {} = (d.setEntry t i {}).pmmFree f from rfl, ih]

theorem clearPages_pmmFreeAll (k va : Nat) (fr : List Nat) : ∀ d : PageTables,
    clearPages k va (d.pmmFreeAll fr) =
      ((clearPages k va d).1.pmmFreeAll fr, (clearPages k va d).2) := by
  induction fr with
  | nil => exact fun _ => rfl
  | cons f fr ih =>
    intro d
    show clearPages k va ((d.pmmFree f).pmmFreeAll fr) = _
    rw [ih, clearPages_pmmFree]
    rfl

theorem dropPages_add (a b va : Nat) (d : PageTables) :
    dropPages (a + b) (u64 va) d = dropPages b (u64 (va + a * pageSize)) (dropPages a (u64 va) d) := by
  unfold dropPages
  rw [clearPages_add, clearPages_pmmFreeAll, pmmFreeAll_append]

theorem clearPages_root (k : Nat) : ∀ (va : Nat) (d : PageTables),
    (clearPages k va d).1.root = d.root := by
  induction k with
  | zero => exact fun _ _ => rfl
  | succ k ih =>
    intro va d
    cases hw : d.walk va with
    | none => rw [clearPages_none hw, ih]
    | some x =>
      rw [clearPages_some hw]
      exact ih _ _

theorem dropPages_root (k va : Nat) (d : PageTables) : (dropPages k va d).root = d.root :=
  (pmmFreeAll_entry _ _).2.trans (clearPages_root k va d)

/-! ## `vmm_unmap` -/

theorem unmapLoop_noRoot {done : Nat} (h : d.root = 0) :
    unmapLoop cap va n (k + 1) d done = .ok d := by
  unfold unmapLoop
  rw [if_pos h]
  split <;> rfl

/-- Whatever fits in the list, the loop ends and has dropped all the pages that were left. -/
theorem unmapLoop_eq (hcap : cap ≠ 0) (k : Nat) : ∀ (d : PageTables) (done : Nat),
    d.root ≠ 0 → n - done < k →
    unmapLoop cap va n k d done = .ok (dropPages (n - done) (u64 (va + done * pageSize)) d) := by
  induction k with
  | zero => intro d done _ hk; omega
  | succ k ih =>
    intro d done hroot hk
    unfold unmapLoop
    by_cases hdone : done < n
    · rw [if_pos hdone, if_neg hroot]
      obtain ⟨chunk, hc⟩ : ∃ c, min (n - done) cap = c := ⟨_, rfl⟩
      simp only [hc]
      have hdrop : (collectClear cap chunk (u64 (va + done * pageSize)) d []).1.pmmFreeAll
          (collectClear cap chunk (u64 (va + done * pageSize)) d []).2 =
          dropPages chunk (u64 (va + done * pageSize)) d := by
        rw [collectClear_eq chunk _ _ _ (by simp; omega)]
        rfl
      rw [hdrop, if_neg (by omega), ih _ _ (by rw [dropPages_root]; exact hroot) (by omega)]
      have hsplit := dropPages_add chunk (n - (done + chunk)) (va + done * pageSize) d
      rw [show chunk + (n - (done + chunk)) = n - done by omega,
        show va + done * pageSize + chunk * pageSize = va + (done + chunk) * pageSize by ring] at hsplit
      rw [hsplit]
    · rw [if_neg hdone, show n - done = 0 by omega]
      rfl

/-- The number of entries of the list is not 0, whatever `n_pages * sizeof(phys_t)` wraps to. -/
theorem kalloc_cap {heap : PageTables → Bool} (h : (d.kalloc heap (u64 (n * 8))).1 = true) :
    u32 n ≠ 0 := by
  obtain ⟨hpos, hmax⟩ := of_decide_eq_true (Bool.and_eq_true_iff.1 h).1
  have h8 : u64 (n * 8) = n * 8 % 2 ^ 64 := rfl
  have h32 : u32 n = n % 2 ^ 32 := rfl
  unfold kallocMax at hmax
  omega

theorem vmmUnmap_eq (heap : PageTables → Bool) (d : PageTables) (va n : Nat) :
    d.vmmUnmap heap va n =
      if n = 0 then .ok d
      else
        let d1 := if n > unmapBatch then { d with allocs := d.allocs + 1 } else d
        .ok (if d.root = 0 then d1 else dropPages n (u64 va) d1) := by
  unfold vmmUnmap
  by_cases hn : n = 0
  · rw [if_pos hn, if_pos hn]
  rw [if_neg hn, if_neg hn]
  have hloop : ∀ (cap : Nat) (d1 : PageTables), cap ≠ 0 → d1.root = d.root →
      unmapLoop cap va n (n + 1) d1 0 =
        .ok (if d.root = 0 then d1 else dropPages n (u64 va) d1) := by
    intro cap d1 hcap hroot
    by_cases h0 : d.root = 0
    · rw [if_pos h0, unmapLoop_noRoot (hroot.trans h0)]
    · rw [if_neg h0, unmapLoop_eq hcap (n + 1) d1 0 (hroot ▸ h0) (by omega)]
      simp
  by_cases hb : n > unmapBatch
  · rw [if_pos hb, if_pos hb]
    refine hloop _ _ ?_ rfl
    split
    · next h => exact kalloc_cap h
    · decide
  · rw [if_neg hb, if_neg hb]
    exact hloop _ _ (by decide) rfl

/-! ## `vmm_free_user` -/

theorem collectLoop_done {heap : Bool} {collected : Nat} {fr : List Nat} (h : n ≤ collected) :
    collectLoop heap base n (k + 1) d collected fr = .ok (d.pmmFreeAll fr) := by
  rw [collectLoop, if_neg (by omega)]

theorem collectLoop_bulk (d : PageTables) (hn : n ≠ 0) :
    collectLoop true base n (k + 2) d 0 [] = .ok (dropPages n (u64 base) d) := by
  rw [collectLoop, if_pos (by omega)]
  simp only [if_true, List.length_nil, Nat.sub_zero, Nat.min_self, Nat.zero_mul, Nat.add_zero,
    Nat.zero_add, List.nil_append, Bool.true_eq_false, false_and, if_false]
  rw [if_neg hn, collectLoop_done (Nat.le_refl n), collectClear_eq n _ _ _ (by simp)]
  rfl

theorem collectLoop_batch (k : Nat) : ∀ (d : PageTables) (collected : Nat),
    collected ≤ n → n - collected < k →
    collectLoop false base n k d collected [] =
      .ok (dropPages (n - collected) (u64 (base + collected * pageSize)) d) := by
  induction k with
  | zero => intro d collected _ hk; omega
  | succ k ih =>
    intro d collected hle hk
    by_cases hlt : collected < n
    · rw [collectLoop, if_pos hlt]
      obtain ⟨chunk, hc⟩ : ∃ c, min (n - collected) unmapBatch = c := ⟨_, rfl⟩
      have hb : unmapBatch = 16 := rfl
      simp only [Bool.false_eq_true, if_false, List.length_nil, Nat.sub_zero, hc, List.nil_append,
        true_and]
      rw [if_neg (show ¬ chunk = 0 by omega), collectClear_eq chunk _ _ _ (by simp; omega)]
      have hsplit := dropPages_add chunk (n - (collected + chunk)) (base + collected * pageSize) d
      rw [show chunk + (n - (collected + chunk)) = n - collected by omega,
        show base + collected * pageSize + chunk * pageSize = base + (collected + chunk) * pageSize by
          ring] at hsplit
      rw [hsplit]
      split
      · exact ih _ _ (by omega) (by omega)
      · obtain ⟨k, rfl⟩ : ∃ j, k = j + 1 := ⟨k - 1, by omega⟩
        rw [collectLoop_done (by omega), show n - (collected + chunk) = 0 by omega]
        rfl
    · rw [collectLoop_done (by omega), show n - collected = 0 by omega]
      rfl

/-- What `vmm_free_user` does to the page tables, whether or not it has the list. -/
theorem clearRange_eq (heap : PageTables → Bool) (d : PageTables) (base n : Nat) :
    d.clearRange heap base n = .ok (dropPages n (u64 base)
      (if n > unmapBatch then { d with allocs := d.allocs + 1 } else d)) := by
  have hbatch : ∀ d1 : PageTables,
      collectLoop false base n (n + 1) d1 0 [] = .ok (dropPages n (u64 base) d1) := by
    intro d1
    rw [collectLoop_batch (n + 1) d1 0 (by omega) (by omega)]
    simp
  unfold clearRange
  by_cases hb : n > unmapBatch
  · rw [if_pos hb, if_pos hb]
    obtain ⟨m, rfl⟩ : ∃ m, n = m + 1 := ⟨n - 1, by omega⟩
    simp only
    cases (d.kalloc heap ((m + 1) * 8)).1 with
    | true => exact collectLoop_bulk _ (by omega)
    | false => exact hbatch _
  · rw [if_neg hb, if_neg hb]
    exact hbatch d

end PageTables

open PageTables

/-- **Unmapping with a list from the heap and in batches is the same**: the loops end, and the page
tables, the VADs, the commit charge and the frames that are freed, in this order, do not depend on
what `kalloc` returns. -/
theorem unmap_bulk_eq_batch (heap heap' : PageTables → Bool) :
    (∀ (d : PageTables) (va n : Nat), ∃ d', d.vmmUnmap heap va n = .ok d' ∧
      d.vmmUnmap heap' va n = .ok d') ∧
    (∀ (d : PageTables) (base n : Nat), ∃ d', d.clearRange heap base n = .ok d' ∧
      d.clearRange heap' base n = .ok d') ∧
    ∀ (pmm : PageTables → Option Nat) (src : Nat → UInt8) (s : HwState PageTables) (base size : Nat),
      s.vmmFreeUser (mmu pmm heap src) base size = s.vmmFreeUser (mmu pmm heap' src) base size := by
  have hclear : ∀ (d : PageTables) (base n : Nat),
      d.clearRange heap base n = d.clearRange heap' base n := by
    intro d base n
    rw [clearRange_eq, clearRange_eq]
  refine ⟨fun d va n => ?_, fun d base n => ⟨_, clearRange_eq heap d base n,
    (hclear d base n).symm.trans (clearRange_eq heap d base n)⟩, fun pmm src s base size => ?_⟩
  · have h := vmmUnmap_eq heap d va n
    have h' := vmmUnmap_eq heap' d va n
    rw [h, h']
    split
    · exact ⟨_, rfl, rfl⟩
    · exact ⟨_, rfl, rfl⟩
  · unfold HwState.vmmFreeUser
    simp only [mmu, hclear]

end Aegis
