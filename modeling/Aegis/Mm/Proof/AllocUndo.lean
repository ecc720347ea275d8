import Aegis.Mm.Proof.RangeCalls
import Aegis.Mm.Proof.Unmap

/-!
# A failed allocation

`vmm_alloc_user` enters the VAD, the commit charge and `brk` before it makes the page tables, and
goes back through `vmm_free_user` when they run out of memory. That undoes the VAD, the charge and
the leaves if the range starts at a page, and never `brk` (`vmmAllocUser_noTrace_iff`).
-/

namespace Aegis

open SwapList

namespace PageTables

/-- The page of the address has a frame that the CPU can use. -/
def Mapped (d : PageTables) (a : Nat) : Prop := ∃ e, d.leafAt a = some e ∧ e.present = true

/-! ## Pages -/

theorem tableIndex_page {a b shift : Nat} (hs : 12 ≤ shift) (h : a / 4096 = b / 4096) :
    tableIndex a shift = tableIndex b shift := by
  obtain ⟨k, rfl⟩ := Nat.exists_eq_add_of_le hs
  unfold tableIndex
  rw [Nat.shiftRight_add, Nat.shiftRight_add, Nat.shiftRight_eq_div_pow a, Nat.shiftRight_eq_div_pow b,
    show 2 ^ 12 = 4096 from rfl, h]

theorem leafAt_page {d : PageTables} {a b : Nat} (h : a / 4096 = b / 4096) :
    d.leafAt a = d.leafAt b := by
  have h4 := tableIndex_page (show 12 ≤ 39 by decide) h
  have h3 := tableIndex_page (show 12 ≤ 30 by decide) h
  have h2 := tableIndex_page (show 12 ≤ 21 by decide) h
  have h1 := tableIndex_page (show 12 ≤ 12 by decide) h
  unfold leafAt walk
  rw [h4, h3, h2, h1]

/-! ## Cleared leaves -/

theorem clearPages_entry (k : Nat) : ∀ (va : Nat) (d : PageTables) (t i : Nat),
    (clearPages k va d).1.entry t i = d.entry t i ∨ (clearPages k va d).1.entry t i = {} := by
  induction k with
  | zero => exact fun _ _ _ _ => .inl rfl
  | succ k ih =>
    intro va d t i
    cases hw : d.walk va with
    | none =>
      rw [clearPages_none hw]
      exact ih _ d t i
    | some x =>
      rw [clearPages_some hw]
      rcases ih (u64 (va + pageSize)) (d.setEntry x.1 x.2 {}) t i with h | h
      · rw [setEntry_entry] at h
        split at h
        · exact .inr h
        · exact .inl h
      · exact .inr h

theorem clearPages_kept (k va : Nat) (d : PageTables) : Kept (clearPages k va d).1 d where
  root := (clearPages_root k va d).symm
  entry t i hp := by
    rcases clearPages_entry k va d t i with h | h
    · exact h.symm
    · rw [h] at hp
      cases hp

theorem clearPages_leaf (k : Nat) : ∀ (va : Nat) (d : PageTables) (j t i : Nat), j < k →
    (clearPages k (u64 va) d).1.walk (u64 (va + j * pageSize)) = some (t, i) →
    (clearPages k (u64 va) d).1.entry t i = {} := by
  induction k with
  | zero => intro va d j t i hj; omega
  | succ k ih =>
    intro va d j t i hj hwalk
    cases j with
    | zero =>
      rw [Nat.zero_mul, show va + 0 = va from rfl] at hwalk
      have hw := (clearPages_kept (k + 1) (u64 va) d).walk hwalk
      rw [clearPages_some hw]
      rcases clearPages_entry k (u64 (u64 va + pageSize)) (d.setEntry t i {}) t i with h | h
      · rw [setEntry_self] at h
        exact h
      · exact h
    | succ j =>
      rw [show va + (j + 1) * pageSize = va + pageSize + j * pageSize by ring] at hwalk
      cases hw : d.walk (u64 va) with
      | none =>
        rw [clearPages_none hw, u64_add_left] at hwalk ⊢
        exact ih (va + pageSize) d j t i (by omega) hwalk
      | some x =>
        rw [clearPages_some hw, u64_add_left] at hwalk ⊢
        exact ih (va + pageSize) (d.setEntry x.1 x.2 {}) j t i (by omega) hwalk

theorem dropPages_entry (k va : Nat) (d : PageTables) :
    (dropPages k va d).entry = (clearPages k va d).1.entry := (pmmFreeAll_entry _ _).1

theorem dropPages_walk (k va : Nat) (d : PageTables) (a : Nat) :
    (dropPages k va d).walk a = (clearPages k va d).1.walk a := by
  unfold walk
  rw [dropPages_entry, dropPages_root, clearPages_root]

theorem dropPages_unmapped {k va a : Nat} (d : PageTables) (hva : va % 4096 = 0)
    (h1 : va ≤ a) (h2 : a < va + k * 4096) (ha : va + k * 4096 ≤ 2 ^ 64) :
    ¬ (dropPages k (u64 va) d).Mapped a := by
  rintro ⟨e, he, hp⟩
  obtain ⟨j, hj⟩ : ∃ j, j = (a - va) / 4096 := ⟨_, rfl⟩
  have hu : u64 (va + j * pageSize) = va + j * 4096 := u64_of_lt (by unfold pageSize; omega)
  rw [leafAt_page (b := u64 (va + j * pageSize)) (by rw [hu]; omega)] at he
  obtain ⟨x, hx, rfl⟩ := Option.map_eq_some_iff.1 he
  rw [dropPages_walk] at hx
  rw [dropPages_entry, clearPages_leaf k va d j x.1 x.2 (by omega) hx] at hp
  cases hp

/-! ## The loop that makes the leaves -/

theorem commitLeaf_walk (d : PageTables) (page a : Nat) :
    (d.commitLeaf page).2.walk a = d.walk a := by
  unfold commitLeaf
  cases d.walk page with
  | none => rfl
  | some x =>
    simp only
    split
    · next h =>
      have h1 : Kept d (d.setEntry x.1 x.2 { commit := true }) := setEntry_kept h.1 _
      have h2 : Kept (d.setEntry x.1 x.2 { commit := true }) d := by
        refine ⟨rfl, fun t i hp => ?_⟩
        rw [setEntry_entry] at hp ⊢
        split
        · next he =>
          rw [if_pos he] at hp
          cases hp
        · rfl
      cases hw : d.walk a with
      | none =>
        refine Option.eq_none_iff_forall_ne_some.2 fun y hy => ?_
        rw [h2.walk hy] at hw
        cases hw
      | some y => exact h1.walk hw
    · rfl

end PageTables

open PageTables

variable {pmm : PageTables → Option Nat} {heap : PageTables → Bool} {src : Nat → UInt8}
variable {base size type va : Nat} {prot : Prot} {σ : Type}

theorem commitLoop_next {k page : Nat} {d : PageTables} (h : (d.walk page).isSome) :
    commitLoop (mmu pmm heap src) (k + 1) page d =
      commitLoop (mmu pmm heap src) k (page + pageSize) (d.commitLeaf page).2 := by
  have hleaf : (mmu pmm heap src).ensureLeaf d page = (.success, d) := if_pos h
  have hfound : (mmu pmm heap src).commitLeaf d page = (true, (d.commitLeaf page).2) := by
    obtain ⟨x, hx⟩ := Option.isSome_iff_exists.1 h
    show d.commitLeaf page = _
    unfold commitLeaf
    rw [hx]
  simp only [commitLoop, hleaf, hfound, if_true]
  rfl

theorem commitLoop_done (k : Nat) : ∀ (page : Nat) (d : PageTables),
    (∀ j < k, (d.walk (page + j * pageSize)).isSome) →
    (commitLoop (mmu pmm heap src) k page d).1 = true := by
  induction k with
  | zero => exact fun _ _ _ => rfl
  | succ k ih =>
    intro page d h
    have h0 := h 0 (by omega)
    rw [Nat.zero_mul, Nat.add_zero] at h0
    rw [commitLoop_next h0]
    refine ih _ _ fun j hj => ?_
    rw [commitLeaf_walk, show page + pageSize + j * pageSize = page + (j + 1) * pageSize by ring]
    exact h (j + 1) (by omega)

theorem commitLoop_stuck (k : Nat) : ∀ (page : Nat) (d : PageTables),
    (∃ j < k, d.walk (page + j * pageSize) = none) →
    (commitLoop (mmu (fun _ => none) heap src) k page d).1 = false := by
  induction k with
  | zero => rintro page d ⟨j, hj, -⟩; omega
  | succ k ih =>
    rintro page d ⟨j, hj, hnone⟩
    cases hw : d.walk page with
    | none =>
      have hleaf : ((mmu (fun _ => none) heap src).ensureLeaf d page).1 = .noMemory := by
        show (d.vmmEnsureLeaf (fun _ => none) page).1 = _
        unfold vmmEnsureLeaf
        rw [hw]
        rfl
      rw [commitLoop]
      simp only
      rw [hleaf, if_pos (by decide)]
    | some x =>
      rw [commitLoop_next (by rw [hw]; rfl)]
      cases j with
      | zero =>
        rw [Nat.zero_mul, Nat.add_zero, hw] at hnone
        cases hnone
      | succ j =>
        refine ih _ _ ⟨j, by omega, ?_⟩
        rw [commitLeaf_walk, show page + pageSize + j * pageSize = page + (j + 1) * pageSize by ring]
        exact hnone

/-! ## Undoing the VAD -/

section
variable {σ : Type} {m : Mmu σ} {as : Aspace Unit} {base size va type : Nat} {prot : Prot} {d : σ}

theorem swapRemove_last {α : Type} (l : List α) (x : α) : swapRemove (l ++ [x]) l.length = l := by
  unfold swapRemove
  simp

theorem addVad_unique (ht : allocTarget as base size = .ok va) (hz : 0 < size) (hs : size < 2 ^ 64)
    {i lo : Nat} {v : Slot Unit} (hi : (as.addVad base va size prot type ()).slots[i]? = some v)
    (h1 : v.start ≤ lo) (h2 : lo ≤ va) (h3 : va < v.stop) :
    i = as.slots.length ∧ v = ⟨⟨va, va + size, prot, type, 1⟩, ()⟩ := by
  obtain ⟨-, hout, -, -, hoff⟩ := allocTarget_ok ht
  have hu := (inside_user hs hout).2.1
  rw [hu] at hoff
  change (as.slots ++ [_])[i]? = some v at hi
  rcases Nat.lt_trichotomy i as.slots.length with hlt | heq | hgt
  · rw [List.getElem?_append_left hlt] at hi
    exact absurd ⟨h3, by omega⟩ (hoff v (List.mem_of_getElem? hi))
  · subst heq
    rw [List.getElem?_append_right (Nat.le_refl _), Nat.sub_self] at hi
    refine ⟨rfl, ?_⟩
    rw [← Option.some.inj hi, hu]
  · rw [List.getElem?_eq_none (by simp; omega)] at hi
    cases hi

theorem addVad_contains (ht : allocTarget as base size = .ok va) (hz : 0 < size)
    (hs : size < 2 ^ 64) :
    freeTarget (as.addVad base va size prot type ()).slots va size =
      .ok (⟨⟨va, va + size, prot, type, 1⟩, ()⟩, as.slots.length, va + size) := by
  obtain ⟨-, hout, -⟩ := allocTarget_ok ht
  have hu := (inside_user hs hout).2.1
  unfold freeTarget
  rw [if_neg (by omega), hu]
  have hin : InOneVad (as.addVad base va size prot type ()).slots va (va + size) :=
    ⟨_, List.mem_append_right _ (List.mem_singleton_self _), Nat.le_refl va, hu.ge⟩
  obtain ⟨⟨v, i⟩, hx⟩ := vadContainsRange_isSome hin (by omega)
  obtain ⟨hi, hlt, h1, h2⟩ := vadContainsRange_some hx
  obtain ⟨rfl, rfl⟩ := addVad_unique ht hz hs hi h1 (Nat.le_refl va) (by omega)
  rw [hx]

theorem pageAlignUp_of_aligned (hs : size < 2 ^ 64) (hsm : size % 4096 = 0) :
    pageAlignUp size = size := by
  rw [pageAlignUp_of_le (by omega)]
  omega

theorem vmmFreeUser_undo (ht : allocTarget as base size = .ok va) (hz : 0 < size)
    (hs : size < 2 ^ 64) (hsm : size % 4096 = 0) (hva : va % 4096 = 0) :
    HwState.vmmFreeUser m ⟨as.addVad base va size prot type (), d⟩ va size =
      (.success, ⟨{ as with brk := (as.addVad base va size prot type ()).brk },
        m.clearRange d va (size / 4096)⟩) := by
  obtain ⟨-, hout, hslots, hcap, -⟩ := allocTarget_ok ht
  obtain ⟨hle, hu, htop⟩ := inside_user hs hout
  have hin := htop (by omega)
  have hcan := userCanonicalTop_eq
  have hmax : userCommitMax / pageSize = 8192 := by decide
  have hpages : size / pageSize = size / 4096 := rfl
  have hdown : pageAlignDown va = va := by
    rw [pageAlignDown_of_lt (by omega)]
    omega
  have hfree : freeSize size = size := by
    unfold freeSize
    rw [if_pos (by omega), pageAlignUp_of_aligned hs hsm]
  have hbetween : ∀ x, x < 2 ^ 64 → pagesBetween x x = 0 := by
    intro x hx
    rw [pagesBetween_eq (Nat.le_refl x) hx (by omega), Nat.sub_self]
  have hf : Freed (as.addVad base va size prot type ()) (pageAlignDown va) (freeSize size)
      ⟨⟨va, va + size, prot, type, 1⟩, ()⟩ as.slots.length (va + size) 0 (size / 4096) 0 := by
    rw [hdown, hfree]
    refine ⟨hout, addVad_contains ht hz hs, ?_, ?_, ?_, by omega, ?_⟩
    · rw [if_neg (by omega), hbetween va (by omega)]
    · rw [if_neg (by omega), hpages, u32_of_lt (by omega)]
    · rw [if_neg (by omega), hbetween (va + size) (by omega)]
    · rw [if_neg (by simp)]
      simp only [Aspace.addVad, List.length_append, List.length_singleton]
      omega
  rw [HwState.vmmFreeUser_of_freed hf, hdown]
  have hcarve : carve (as.addVad base va size prot type ()).slots as.slots.length
      ⟨⟨va, va + size, prot, type, 1⟩, ()⟩ va (va + size) 0 0 () () = as.slots := by
    unfold carve
    simp only [Aspace.addVad, ne_eq, not_true_eq_false, false_and, if_false, swapRemove_last]
  have hcommit : uncommit (as.addVad base va size prot type ()).committedPages (size / 4096) =
      as.committedPages := by
    unfold uncommit Aspace.addVad
    rw [if_pos (by simp only [hpages]; omega)]
    simp only [hpages]
    omega
  simp only [hcarve, hcommit]

theorem vmmFreeUser_missed (ht : allocTarget as base size = .ok va) (hz : 0 < size)
    (hs : size < 2 ^ 64) (hsm : size % 4096 = 0) (hva : va % 4096 ≠ 0) :
    (HwState.vmmFreeUser m ⟨as.addVad base va size prot type (), d⟩ va size).2 =
      ⟨as.addVad base va size prot type (), d⟩ := by
  obtain ⟨-, hout, -⟩ := allocTarget_ok ht
  obtain ⟨hle, -, htop⟩ := inside_user hs hout
  have hin := htop (by omega)
  have hcan := userCanonicalTop_eq
  have hdown := @pageAlignDown_of_lt va (by omega)
  have hfree : freeSize size = size := by
    unfold freeSize
    rw [if_pos (by omega), pageAlignUp_of_aligned hs hsm]
  rcases HwState.vmmFreeUser_cases m ⟨as.addVad base va size prot type (), d⟩ va size with
    ⟨st, -, he⟩ | ⟨v, i, stop, nl, nm, nr, hf, -⟩
  · rw [he]
  · have htarget := hf.target
    rw [hfree] at htarget
    obtain ⟨hi, h1, h2⟩ := freeTarget_ok htarget
    rw [if_neg (by omega), hdown, u64_of_lt (by omega)] at h2
    obtain ⟨-, rfl⟩ := addVad_unique ht hz hs hi h1 (by omega) (by omega)
    simp only at h1
    omega

end

/-! ## What a failed call leaves -/

/-- The range that the call asks for starts here. -/
def requested (as : Aspace Unit) (base : Nat) : Nat := if base = 0 then as.brk else base

/-- The VADs, the commit charge and `brk` are as before, and no page of the range has been mapped. -/
structure NoTrace (s s' : HwState PageTables) (base size : Nat) : Prop where
  vads : s'.as.slots.Perm s.as.slots
  committed : s'.as.committedPages = s.as.committedPages
  brk : s'.as.brk = s.as.brk
  mapped : ∀ a, requested s.as base ≤ a → a < requested s.as base + size →
    s'.mmu.Mapped a → s.mmu.Mapped a

/-- Whatever fails, the call leaves no trace if it does. -/
def FailsClean (s : HwState PageTables) (base size : Nat) (prot : Prot) (type : Nat) : Prop :=
  ∀ pmm heap src, (s.vmmAllocUser (mmu pmm heap src) base size prot type).1 ≠ .success →
    NoTrace s (s.vmmAllocUser (mmu pmm heap src) base size prot type).2.2 base size

/-- The call is refused before it enters anything. -/
def Refused (as : Aspace Unit) (base size : Nat) : Prop :=
  size = 0 ∨ userCommitMax / pageSize < pageAlignUp size / pageSize ∨
    ∀ va, allocTarget as base (pageAlignUp size) ≠ .ok va

/-- The page tables of the range are there. -/
def TablesThere (s : HwState PageTables) (base size : Nat) : Prop :=
  ∀ j < pageAlignUp size / pageSize, (s.mmu.walk (requested s.as base + j * pageSize)).isSome

theorem NoTrace.refl (s : HwState PageTables) (base size : Nat) : NoTrace s s base size :=
  ⟨List.Perm.refl _, rfl, rfl, fun _ _ _ h => h⟩

theorem vmmAllocUser_stuck_eq {m : Mmu σ} {s : HwState σ} (hz : size ≠ 0)
    (hpages : ¬ userCommitMax / pageSize < pageAlignUp size / pageSize)
    (ht : allocTarget s.as base (pageAlignUp size) = .ok va)
    (hloop : (commitLoop m (pageAlignUp size / pageSize) va s.mmu).1 = false) :
    s.vmmAllocUser m base size prot type = (.noMemory, base,
      (HwState.vmmFreeUser m ⟨s.as.addVad base va (pageAlignUp size) prot type (),
        (commitLoop m (pageAlignUp size / pageSize) va s.mmu).2⟩ va (pageAlignUp size)).2) := by
  unfold HwState.vmmAllocUser
  simp only [allocPlan_eq_ok.2 ⟨hz, not_lt.1 hpages, ht⟩, hloop, Bool.false_eq_true, if_false]

theorem vmmFreeUser_brk (m : Mmu σ) (s : HwState σ) (base size : Nat) :
    (s.vmmFreeUser m base size).2.as.brk = s.as.brk := by
  rcases s.vmmFreeUser_cases m base size with ⟨st, -, he⟩ | ⟨v, i, stop, nl, nm, nr, -, he⟩
  · rw [he]
  · rw [he]

theorem vmmFreeUser_noTrace {s : HwState PageTables}
    (ht : allocTarget s.as base (pageAlignUp size) = .ok va) (hs : size < 2 ^ 64) (hb0 : base ≠ 0)
    (hb : base % 4096 = 0)
    (hloop : (commitLoop (mmu pmm heap src) (pageAlignUp size / pageSize) va s.mmu).1 = false) :
    NoTrace s (HwState.vmmFreeUser (mmu pmm heap src)
      ⟨s.as.addVad base va (pageAlignUp size) prot type (),
        (commitLoop (mmu pmm heap src) (pageAlignUp size / pageSize) va s.mmu).2⟩ va
      (pageAlignUp size)).2 base size := by
  obtain ⟨hva, hout, -⟩ := allocTarget_ok ht
  rw [if_neg hb0] at hva
  obtain ⟨hle, hu, htop⟩ := inside_user (pageAlignUp_lt size) hout
  have hcan := userCanonicalTop_eq
  have heq := pageAlignUp_eq size
  have hpos : 0 < pageAlignUp size := by
    refine Nat.pos_of_ne_zero fun h => ?_
    rw [h] at hloop
    cases hloop
  have hin := htop (by omega)
  rw [vmmFreeUser_undo ht hpos (pageAlignUp_lt size) (pageAlignUp_mod size) (by omega)]
  refine ⟨List.Perm.refl _, rfl, by simp [Aspace.addVad, hb0], fun a h1 h2 hm => ?_⟩
  have hreq : requested s.as base = va := by
    rw [requested, if_neg hb0, hva]
  rw [hreq] at h1 h2
  have hclear : ∀ d : PageTables, (mmu pmm heap src).clearRange d va (pageAlignUp size / 4096) = _ :=
    fun d => congrArg (fun r => (Outcome.get? r).getD d) (clearRange_eq heap d va _)
  rw [hclear] at hm
  exact absurd hm (dropPages_unmapped _ (by omega) h1 (by omega) (by omega))

/-- **A failed allocation leaves no trace exactly if it asks for the address of a page**, or is
refused at once, or needs no page tables. -/
theorem vmmAllocUser_noTrace_iff (s : HwState PageTables) (base size : Nat) (prot : Prot)
    (type : Nat) (hs : size < 2 ^ 64) :
    FailsClean s base size prot type ↔
      base ≠ 0 ∧ base % 4096 = 0 ∨ Refused s.as base size ∨ TablesThere s base size := by
  constructor
  · intro hclean
    by_contra hcond
    simp only [not_or, Refused, TablesThere, not_forall, not_not, not_and] at hcond
    obtain ⟨hb, ⟨hz, hpages, va, ht⟩, j, hj, hnone⟩ := hcond
    obtain ⟨hva, hout, -⟩ := allocTarget_ok ht
    obtain ⟨-, hu, -⟩ := inside_user (pageAlignUp_lt size) hout
    have hmod := pageAlignUp_mod size
    have hpos : 0 < pageAlignUp size := by
      unfold pageSize at hj
      omega
    have hloop := @commitLoop_stuck (fun _ => true) (fun _ => 0) _ va s.mmu
      ⟨j, hj, by rw [hva]; exact Option.not_isSome_iff_eq_none.1 hnone⟩
    have hrun := @vmmAllocUser_stuck_eq base size type va prot _ _ s hz hpages ht hloop
    have htrace := hclean (fun _ => none) (fun _ => true) (fun _ => 0) (by rw [hrun]; nofun)
    rw [hrun] at htrace
    by_cases hb0 : base = 0
    · -- `brk` has moved behind the range
      have hbrk := htrace.brk
      rw [if_pos hb0] at hva
      rw [vmmFreeUser_brk, Aspace.addVad, if_pos hb0, ← hva, hu] at hbrk
      change va + pageAlignUp size = va at hbrk
      omega
    · -- the VAD is still there
      rw [if_neg hb0] at hva
      have hvads := htrace.vads.length_eq
      rw [vmmFreeUser_missed ht hpos (pageAlignUp_lt size) hmod (hva ▸ hb hb0)] at hvads
      simp [Aspace.addVad] at hvads
  · intro hcond pmm heap src hfail
    rcases s.vmmAllocUser_cases (mmu pmm heap src) base size prot type with
      ⟨st, -, he⟩ | ⟨va, hz, hpages, ht, hcase⟩
    · rw [he]
      exact .refl s base size
    · rcases hcase with ⟨-, he⟩ | ⟨hloop, he⟩
      · rw [he] at hfail
        exact absurd rfl hfail
      · rw [he]
        obtain ⟨hva, hout, -⟩ := allocTarget_ok ht
        have hreq : requested s.as base = va := hva.symm
        rcases hcond with ⟨hb0, hb⟩ | hrefused | htables
        · exact vmmFreeUser_noTrace ht hs hb0 hb hloop
        · rcases hrefused with h | h | h
          · exact absurd h hz
          · exact absurd hpages (not_le.2 h)
          · exact absurd ht (h va)
        · unfold TablesThere at htables
          rw [hreq] at htables
          rw [commitLoop_done _ va s.mmu htables] at hloop
          cases hloop

/-- Page tables without memory. -/
def noMemoryMmu : Mmu PageTables := mmu (fun _ => none) (fun _ => true) fun _ => 0

theorem vmmAllocUser_noTrace_page :
    (newAspace.vmmAllocUser noMemoryMmu 0x10000 0x3000 pageReadWrite memCommit).1 = .noMemory ∧
    NoTrace newAspace
      (newAspace.vmmAllocUser noMemoryMmu 0x10000 0x3000 pageReadWrite memCommit).2.2 0x10000
      0x3000 := by
  refine ⟨rfl, ?_⟩
  exact (vmmAllocUser_noTrace_iff newAspace 0x10000 0x3000 pageReadWrite memCommit (by decide)).2
    (.inl ⟨by decide, by decide⟩) _ _ _ (by decide)

/-- `brk` stays behind the range when the kernel chose it, and the VAD when it starts in a page. -/
theorem vmmAllocUser_leaves_trace : ¬ FailsClean newAspace 0 0x1000 pageReadWrite memCommit ∧
    (newAspace.vmmAllocUser noMemoryMmu 0 0x1000 pageReadWrite memCommit).1 = .noMemory ∧
    newAspace.as.brk = 0x1000000 ∧
    (newAspace.vmmAllocUser noMemoryMmu 0 0x1000 pageReadWrite memCommit).2.2.as.brk = 0x1001000 ∧
    (newAspace.vmmAllocUser noMemoryMmu 0x10800 0x1000 pageReadWrite memCommit).1 = .noMemory ∧
    (newAspace.vmmAllocUser noMemoryMmu 0x10800 0x1000 pageReadWrite memCommit).2.2.as.slots.map
      (fun v => (v.start, v.stop)) = [(0x10800, 0x11800)] ∧
    (newAspace.vmmAllocUser noMemoryMmu 0x10800 0x1000 pageReadWrite memCommit).2.2.as.committedPages
      = 1 :=
  ⟨fun h => absurd (h (fun _ => none) (fun _ => true) (fun _ => 0) (by decide)).brk (by decide),
    rfl, rfl, rfl, rfl, rfl, rfl⟩

end Aegis
