import Aegis.Mm.Proof.HostInv
import Aegis.Mm.RangeSpec

/-!
# The VADs and pages of the host build

What `vmm_alloc_user`, `vmm_free_user` and `vmm_protect_user` do to the user's pages, when any of
their calls of `kalloc` may fail.
-/

namespace Aegis

open SwapList Apart Outcome

section
variable {oom : Nat → Bool} {s : Host} {v u : Slot Shadow} {i base size stop nLeft nMid nRight : Nat}

/-! ## Arrays -/

variable (oom) in
theorem Host.kallocIf_val (s : Host) (p : Prop) [Decidable p] (n : Nat) :
    s.kallocIf oom p n =
      (decide (p → oom s.next = false), { s with next := if p then s.next + 1 else s.next }) := by
  unfold Host.kallocIf Host.kallocArray
  by_cases hp : p
  · cases ho : oom s.next <;> simp [hp]
  · simp [hp]

theorem entries_eq {arr : List (Option Nat)} {lo n : Nat} (h : lo + n ≤ arr.length) :
    entries arr lo n = .ok ((arr.drop lo).take n) := if_pos h

/-- The three parts of the table of `v`. -/
structure Cut (v : Slot Shadow) (nLeft nMid nRight : Nat) : Prop where
  shaped : v.Shaped
  pages : v.pages = nLeft + nMid + nRight

theorem Slot.table_eq (v : Slot Shadow) (nLeft nMid : Nat) :
    v.table = v.table.take nLeft ++ ((v.table.drop nLeft).take nMid ++
      v.table.drop (nLeft + nMid)) := by
  rw [← List.drop_drop, List.take_append_drop, List.take_append_drop]

theorem tableOf_none (n : Nat) : tableOf none n = List.replicate n none := rfl

theorem Cut.of_none (h : Cut v nLeft nMid nRight) (hn : v.shadow.pages = none) :
    tableOf none nLeft = v.table.take nLeft ∧ tableOf none nMid = (v.table.drop nLeft).take nMid ∧
      tableOf none nRight = v.table.drop (nLeft + nMid) := by
  have ht : v.table = List.replicate (nLeft + nMid + nRight) none := by
    rw [Slot.table, hn, tableOf_none, h.pages]
  rw [ht]
  simp only [tableOf_none, List.take_replicate, List.drop_replicate]
  refine ⟨?_, ?_, ?_⟩ <;> congr 1 <;> omega

theorem Slot.table_of_some {arr : List (Option Nat)} (h : v.shadow.pages = some arr) :
    v.table = arr := by rw [Slot.table, h]; rfl

theorem Cut.entries {arr : List (Option Nat)} (h : Cut v nLeft nMid nRight)
    (hp : v.shadow.pages = some arr) : Aegis.entries arr 0 nLeft = .ok (v.table.take nLeft) ∧
      Aegis.entries arr nLeft nMid = .ok ((v.table.drop nLeft).take nMid) ∧
      Aegis.entries arr (nLeft + nMid) nRight = .ok (v.table.drop (nLeft + nMid)) := by
  have hlen := h.shaped.length
  rw [Slot.table_of_some hp, h.pages] at hlen
  rw [Slot.table_of_some hp, entries_eq (by omega), entries_eq (by omega), entries_eq (by omega),
    List.take_of_length_le (l := arr.drop (nLeft + nMid)) (by rw [List.length_drop]; omega)]
  exact ⟨rfl, rfl, rfl⟩

variable (oom) in
theorem freeArrays_spec (s : Host) (h : Cut v nLeft nMid nRight) :
    ∃ r k, s.freeArrays oom v nLeft nMid nRight = .ok (r, { s with next := k }) ∧ s.next ≤ k ∧
      (r.isSome ↔ s.ArraysFit oom v nLeft nRight) ∧
      ∀ left right gone, r = some (left, right, gone) →
        (nLeft ≠ 0 → tableOf left nLeft = v.table.take nLeft) ∧
        (nRight ≠ 0 → tableOf right nRight = v.table.drop (nLeft + nMid)) ∧
        gone.reduceOption = ((v.table.drop nLeft).take nMid).reduceOption := by
  unfold Host.freeArrays Host.ArraysFit
  cases hp : v.shadow.pages with
  | none =>
    obtain ⟨hl, hm, hr⟩ := h.of_none hp
    refine ⟨_, s.next, rfl, le_rfl, by simp, fun left right gone he => ?_⟩
    cases he
    refine ⟨fun _ => hl, fun _ => hr, ?_⟩
    rw [← hm, tableOf_none, reduceOption_replicate]
    rfl
  | some arr =>
    obtain ⟨hleft, hmid, hright⟩ := h.entries hp
    simp only [Host.kallocIf_val, decide_eq_false_iff_not]
    by_cases hl : nLeft ≠ 0 → oom s.next = false
    · rw [if_neg (not_not.2 hl)]
      by_cases hr : nRight ≠ 0 → oom (if nLeft ≠ 0 then s.next + 1 else s.next) = false
      · rw [if_neg (not_not.2 hr), hleft, hmid, hright]
        refine ⟨_, _, rfl, by split_ifs <;> omega, iff_of_true rfl fun _ => ⟨hl, hr⟩,
          fun left right gone he => ?_⟩
        cases he
        exact ⟨fun hn => by rw [if_pos hn]; rfl, fun hn => by rw [if_pos hn]; rfl, rfl⟩
      · rw [if_pos hr]
        exact ⟨none, _, rfl, by split_ifs <;> omega, iff_of_false (by simp) fun hf => hr (hf rfl).2,
          fun _ _ _ he => by cases he⟩
    · rw [if_pos hl]
      exact ⟨none, _, rfl, by split_ifs <;> omega, iff_of_false (by simp) fun hf => hl (hf rfl).1,
        fun _ _ _ he => by cases he⟩

variable (oom) in
theorem protectArrays_spec (s : Host) (h : Cut v nLeft nMid nRight) :
    ∃ r k, s.protectArrays oom v nLeft nMid nRight = .ok (r, { s with next := k }) ∧ s.next ≤ k ∧
      (r = none → ∃ n, s.next ≤ n ∧ oom n = true) ∧
      ∀ left mid right, r = some (left, mid, right) → tableOf left nLeft = v.table.take nLeft ∧
        tableOf mid nMid = (v.table.drop nLeft).take nMid ∧
        tableOf right nRight = v.table.drop (nLeft + nMid) := by
  have hfail {p : Prop} {n : Nat} (hn : s.next ≤ n) (hp : ¬ (p → oom n = false)) :
      ∃ n, s.next ≤ n ∧ oom n = true :=
    ⟨n, hn, by simpa using (Classical.not_imp.1 hp).2⟩
  unfold Host.protectArrays
  cases hp : v.shadow.pages with
  | none =>
    refine ⟨_, s.next, rfl, le_rfl, (fun he => by cases he), fun left mid right he => ?_⟩
    cases he
    exact h.of_none hp
  | some arr =>
    obtain ⟨hleft, hmid, hright⟩ := h.entries hp
    have hle : s.next ≤ if nLeft ≠ 0 then s.next + 1 else s.next := by split_ifs <;> omega
    have htrue : ∀ s : Host, s.kallocIf oom true nMid =
        (decide (True → oom s.next = false), { s with next := s.next + 1 }) :=
      fun s => by simpa using s.kallocIf_val oom True nMid
    simp only [Host.kallocIf_val, htrue, decide_eq_false_iff_not]
    generalize (if nLeft ≠ 0 then s.next + 1 else s.next) = k at hle ⊢
    by_cases h1 : nLeft ≠ 0 → oom s.next = false
    · rw [if_neg (not_not.2 h1)]
      by_cases h2 : True → oom k = false
      · rw [if_neg (not_not.2 h2)]
        by_cases h3 : nRight ≠ 0 → oom (k + 1) = false
        · rw [if_neg (not_not.2 h3), hleft, hmid, hright]
          refine ⟨_, _, rfl, by split_ifs <;> omega, (fun he => by cases he),
            fun left mid right he => ?_⟩
          cases he
          exact ⟨rfl, rfl, rfl⟩
        · rw [if_pos h3]
          exact ⟨none, _, rfl, by split_ifs <;> omega, fun _ => hfail (by omega) h3,
            fun _ _ _ he => by cases he⟩
      · rw [if_pos h2]
        exact ⟨none, _, rfl, by omega, fun _ => hfail hle h2, fun _ _ _ he => by cases he⟩
    · rw [if_pos h1]
      exact ⟨none, _, rfl, hle, fun _ => hfail le_rfl h1, fun _ _ _ he => by cases he⟩

/-! ## Neighbours -/

theorem joined_eq (h : v.Shaped) : joined v.shadow.pages v.pages = .ok v.table := by
  cases hp : v.shadow.pages with
  | none => rw [Slot.table, hp]; rfl
  | some arr =>
    have hlen := h.length
    rw [Slot.table_of_some hp] at hlen ⊢
    rw [joined, entries_eq (by omega), ← hlen, List.drop_zero, List.take_length]

variable (oom) in
theorem vadCoalesce_round (k : Nat) {j : Nat} (h : HostInv s)
    (hm : mergePair s.as.slots = some ((v, i), (u, j))) :
    (oom s.next = true ∧ Host.vadCoalesce oom (k + 1) s = .ok { s with next := s.next + 1 }) ∨
    ∃ s1 x, Host.vadCoalesce oom (k + 1) s = Host.vadCoalesce oom k s1 ∧ Kept s s1 ∧
      s.next ≤ s1.next ∧ s1.as.slots = joinVads s.as.slots { v with shadow := x } i u.stop j := by
  obtain ⟨hi, hj, -⟩ := mergePair_some hm
  have hv := List.mem_of_getElem? hi
  have hu := List.mem_of_getElem? hj
  have hnk := h.vads.pagesBetween hv le_rfl (h.vads.ok v hv).le le_rfl
  have hne := h.vads.pagesBetween hu le_rfl (h.vads.ok u hu).le le_rfl
  have hpages : ∀ x : Shadow,
      ({ v with stop := u.stop, shadow := x } : Slot Shadow).pages = v.pages + u.pages :=
    fun x => by
      have h1 := (h.vads.ok v hv).pages_mul
      have h2 := (h.vads.ok u hu).pages_mul
      have h3 := (joinVads_joined hm x).meet
      show (u.stop - v.start) / 4096 = _
      omega
  rw [Host.vadCoalesce, hm]
  simp only
  by_cases hsome : v.shadow.pages.isSome ∨ u.shadow.pages.isSome
  · rw [if_pos hsome, hnk, hne]
    have hkept : Kept s { s with next := s.next + 1 } := h.kept_next (Nat.le_succ _)
    unfold Host.kallocArray
    cases ho : oom s.next
    · simp only [Bool.false_eq_true, if_false]
      rw [show (v.stop - v.start) / 4096 = v.pages from rfl,
        show (u.stop - u.start) / 4096 = u.pages from rfl, joined_eq (h.shaped v hv),
        joined_eq (h.shaped u hu)]
      have hjoin := hkept.inv.join (joinVads_joined hm ⟨some (v.table ++ u.table), v.pages + u.pages⟩)
        rfl (fun _ => (hpages _).symm)
      exact .inr ⟨_, _, rfl, hkept.trans hjoin, Nat.le_succ _, rfl⟩
    · exact .inl ⟨rfl, rfl⟩
  · rw [if_neg hsome]
    simp only [not_or, Bool.not_eq_true, Option.isSome_eq_false_iff, Option.isNone_iff_eq_none]
      at hsome
    have hjoin := h.join (joinVads_joined hm v.shadow) (by
      rw [Slot.table, hsome.1, tableOf_none, hpages, Slot.table, Slot.table, hsome.1, hsome.2,
        tableOf_none, tableOf_none, List.replicate_append_replicate]) (fun hn => absurd hsome.1 hn)
    exact .inr ⟨_, v.shadow, rfl, hjoin, le_rfl, rfl⟩

variable (oom) in
/-- `vad_coalesce` changes nothing that the user sees. -/
theorem vadCoalesce_spec (k : Nat) (h : HostInv s) :
    ∃ s', Host.vadCoalesce oom k s = .ok s' ∧ Kept s s' := by
  induction k generalizing s with
  | zero => exact ⟨s, rfl, h, rfl, fun _ _ hw => hw⟩
  | succ k ih =>
    cases hm : mergePair s.as.slots with
    | none => exact ⟨s, by rw [Host.vadCoalesce, hm], h, rfl, fun _ _ hw => hw⟩
    | some x =>
      obtain ⟨⟨v, i⟩, ⟨u, j⟩⟩ := x
      rcases vadCoalesce_round oom k h hm with ⟨-, he⟩ | ⟨s1, x, he, hkept, -, -⟩
      · exact ⟨_, he, h.kept_next (Nat.le_succ _)⟩
      · obtain ⟨s', hs', hk'⟩ := ih hkept.inv
        exact ⟨s', he.trans hs', hkept.trans hk'⟩

/-! ## Parts of a VAD -/

theorem HostInv.replace (h : HostInv s) (hi : s.as.slots[i]? = some v) {as' : Aspace Shadow}
    {parts : List (Slot Shadow)} (gone : List (Option Nat)) {n : Nat} (hv : VadInv as')
    (hne : NoneEmpty as'.slots) (hperm : as'.slots.Perm (parts ++ s.as.slots.eraseIdx i))
    (hsh : ∀ x ∈ parts, x.Shaped) (hids : (allIds parts ++ gone.reduceOption).Perm v.ids)
    (hn : s.next ≤ n) :
    HostInv (Host.kfree { s with as := as', next := n } gone) ∧
      ∀ u ∈ as'.slots, ∀ x ∈ u.ids, some x ∉ gone := by
  have hold : (allIds s.as.slots).Perm (gone.reduceOption ++ allIds as'.slots) := by
    refine (allIds_perm (perm_eraseIdx hi)).trans ?_
    rw [allIds_cons]
    refine (hids.symm.append_right _).trans ?_
    refine ((List.perm_append_comm.append_right _).trans ?_)
    rw [List.append_assoc, ← allIds_append]
    exact (allIds_perm hperm.symm).append_left _
  have hnd := hold.nodup_iff.1 h.ids
  have hoff : ∀ x ∈ allIds as'.slots, some x ∉ gone := fun x hx hg =>
    List.disjoint_of_nodup_append hnd (List.reduceOption_mem_iff.2 hg) hx
  refine ⟨⟨hv, hne, fun x hx => ?_, (List.nodup_append.1 hnd).2.1, fun x hx => ?_⟩,
    fun u hu x hx => hoff x (mem_allIds hu hx)⟩
  · rcases List.mem_append.1 (hperm.mem_iff.1 hx) with hx | hx
    · exact hsh x hx
    · exact h.shaped x (List.mem_of_mem_eraseIdx hx)
  · have hl := h.live x (hold.mem_iff.2 (List.mem_append_right _ hx))
    refine ⟨hl.1.trans_le hn, ?_⟩
    show (if some x ∈ gone then none else s.heap x).isSome = true
    rw [if_neg (hoff x hx)]
    exact hl.2

theorem restsView (hpart : Part v.toVad base stop) (hok : v.Ok) {left right : Shadow} (q : Nat)
    (hl : v.start < base → tableOf left.pages ((base - v.start) / 4096) =
      v.table.take ((base - v.start) / 4096))
    (hr : stop < v.stop → tableOf right.pages ((v.stop - stop) / 4096) =
      v.table.drop ((stop - v.start) / 4096)) (heap : Nat → Option Page) :
    RestsView (Slot.view heap) v base stop left right (q * 4096) := by
  have h1 := hok.start
  have h2 := hok.stop
  have h3 := hpart.base_aligned
  have h4 := hpart.stop_aligned
  have h5 := hpart.start_le
  have h6 := hpart.le
  refine ⟨fun hp1 hp2 => ?_, fun hp1 hp2 => ?_⟩
  · unfold Slot.view Slot.content
    congr 2
    show (tableOf left.pages ((base - v.start) / 4096)).getD ((q * 4096 - v.start) / 4096) none = _
    rw [hl (by omega), List.getD_eq_getElem?_getD, List.getElem?_take_of_lt (by omega),
      ← List.getD_eq_getElem?_getD]
  · unfold Slot.view Slot.content
    congr 2
    show (tableOf right.pages ((v.stop - stop) / 4096)).getD ((q * 4096 - stop) / 4096) none = _
    rw [hr (by omega), List.getD_eq_getElem?_getD, List.getElem?_drop,
      ← List.getD_eq_getElem?_getD]
    congr 1
    omega

theorem Part.cut (hpart : Part v.toVad base stop) (hok : v.Ok) (hsh : v.Shaped) :
    Cut v ((base - v.start) / 4096) ((stop - base) / 4096) ((v.stop - stop) / 4096) :=
  ⟨hsh, hpart.pages hok⟩

theorem shaped_of_table {w : Slot Shadow} {n : Nat} (hn : w.shadow.npages = n) (hp : w.pages = n)
    (ht : (tableOf w.shadow.pages n).length = n) : w.Shaped :=
  ⟨by rw [Slot.table, hp, ht], fun _ => by rw [hn, hp]⟩

theorem shaped_rests (hsh : v.Shaped) (hcut : v.pages = nLeft + nMid + nRight)
    (hnl : nLeft = (base - v.start) / 4096) (hnr : nRight = (v.stop - stop) / 4096)
    {left right : Option (List (Option Nat))}
    (hl : nLeft ≠ 0 → tableOf left nLeft = v.table.take nLeft)
    (hr : nRight ≠ 0 → tableOf right nRight = v.table.drop (nLeft + nMid)) :
    (∀ x ∈ rests v base stop nLeft nRight ⟨left, nLeft⟩ ⟨right, nRight⟩, x.Shaped) ∧
      allIds (rests v base stop nLeft nRight ⟨left, nLeft⟩ ⟨right, nRight⟩) =
        (v.table.take nLeft).reduceOption ++ (v.table.drop (nLeft + nMid)).reduceOption := by
  have hlen := hsh.length
  constructor
  · intro x hx
    rcases mem_rests hx with ⟨hn, rfl⟩ | ⟨hn, rfl⟩
    · refine shaped_of_table (n := nLeft) rfl hnl.symm ?_
      rw [hl hn, List.length_take]
      omega
    · refine shaped_of_table (n := nRight) rfl hnr.symm ?_
      rw [hr hn, List.length_drop]
      omega
  · unfold rests
    rw [allIds_append]
    congr 1
    · by_cases hn : nLeft = 0
      · simp [hn]
      · rw [if_pos hn, allIds_cons, allIds_nil, List.append_nil]
        show (tableOf left ((base - v.start) / 4096)).reduceOption = _
        rw [← hnl, hl hn]
    · by_cases hn : nRight = 0
      · have : v.table.drop (nLeft + nMid) = [] := List.drop_eq_nil_of_le (by omega)
        simp [hn, this]
      · rw [if_pos hn, allIds_cons, allIds_nil, List.append_nil]
        show (tableOf right ((v.stop - stop) / 4096)).reduceOption = _
        rw [← hnr, hr hn]

theorem covers_of_mem (h : HostInv s) (hv : v ∈ s.as.slots) {lo hi : Nat} (hlo : v.start ≤ lo)
    (hhi : hi ≤ v.stop) : s.user.Covers lo hi := by
  intro q hq
  rw [Host.user, dataAt_of_mem h.vads.apart hv ⟨hlo.trans hq.1, hq.2.trans_le hhi⟩]
  rfl

/-! ## `vmm_free_user` -/

/-- The range is found, and `kalloc` gives the arrays that are needed. -/
structure FreeFits (oom : Nat → Bool) (s : Host) (base size : Nat) (v : Slot Shadow)
    (i stop nLeft nMid nRight : Nat) : Prop where
  freed : Freed s.as (pageAlignDown base) (freeSize size) v i stop nLeft nMid nRight
  arrays : s.ArraysFit oom v nLeft nRight

variable (oom) in
/-- The call fails and has at most called `kalloc`, or the pages of its range are gone. -/
theorem vmmFreeUser_reply (h : HostInv s) (base size : Nat) :
    ∃ st s', s.vmmFreeUser oom base size = .ok (st, s') ∧ HostInv s' ∧
      ((st ≠ .success ∧ s'.as = s.as ∧ s'.user = s.user ∧
        ¬ ∃ v i stop nl nm nr, FreeFits oom s base size v i stop nl nm nr) ∨
      (st = .success ∧ ∃ v i stop nl nm nr, FreeFits oom s base size v i stop nl nm nr ∧
        s.user.Covers (pageAlignDown base) stop ∧
        s'.user = s.user.onRange (pageAlignDown base) stop fun _ => none)) := by
  unfold Host.vmmFreeUser
  simp only
  cases hp : freePlan s.as (pageAlignDown base) (freeSize size) with
  | error st =>
    refine ⟨st, s, rfl, h, .inl ⟨freePlan_error hp, rfl, rfl, ?_⟩⟩
    rintro ⟨v, i, stop, nl, nm, nr, hff⟩
    rw [freePlan_eq_ok.2 hff.freed] at hp
    cases hp
  | ok p =>
    obtain ⟨v, i, stop, nLeft, nMid, nRight⟩ := p
    have hf := freePlan_eq_ok.1 hp
    simp only
    obtain ⟨hi, hpart, hl', hm', hr'⟩ := h.vads.freeParts (pageAlignDown_mod base)
      (freeSize_mod size) (freeSize_lt size) hf.inside hf.target
    rw [← hf.left] at hl'
    rw [← hf.mid] at hm'
    rw [← hf.right] at hr'
    have hv := List.mem_of_getElem? hi
    have hok := h.vads.ok v hv
    have hcut : Cut v nLeft nMid nRight := by
      rw [hl', hm', hr']
      exact hpart.cut hok (h.shaped v hv)
    obtain ⟨r, k, hfree, hk, hfit, hspec⟩ := freeArrays_spec oom s hcut
    rw [hfree, ok_bind]
    cases r with
    | none =>
      refine ⟨_, _, rfl, h.next hk, .inl ⟨by decide, rfl, rfl, ?_⟩⟩
      rintro ⟨v', i', stop', nl, nm, nr, hff⟩
      cases hp.symm.trans (freePlan_eq_ok.2 hff.freed)
      cases hfit.2 hff.arrays
    | some x =>
      obtain ⟨left, right, gone⟩ := x
      obtain ⟨hleft, hright, hgone⟩ := hspec left right gone rfl
      have hvad := hf.inv h.vads (pageAlignDown_mod base) (freeSize_mod size) (freeSize_lt size)
        (⟨left, nLeft⟩ : Shadow) ⟨right, nRight⟩
      have hne := h.noneEmpty.carve hi (pageAlignDown base) stop (⟨left, nLeft⟩ : Shadow)
        ⟨right, nRight⟩
      rw [← hl', ← hr'] at hne
      obtain ⟨hshape, hids⟩ := shaped_rests hcut.shaped hcut.pages hl' hr' hleft hright
      obtain ⟨hinv, hoff⟩ := h.replace hi gone hvad hne (carve_perm hi ..) hshape (by
        rw [hids, hgone, Slot.ids]
        nth_rewrite 4 [v.table_eq nLeft nMid]
        rw [List.reduceOption_append, List.reduceOption_append, List.append_assoc]
        exact List.perm_append_comm.append_left _) hk
      refine ⟨_, _, rfl, hinv, .inr ⟨rfl, v, i, stop, nLeft, nMid, nRight, ⟨hf, hfit.1 rfl⟩,
        covers_of_mem h hv hpart.start_le hpart.le_stop, ?_⟩⟩
      funext q
      refine (dataAt_congr (g := Slot.view s.heap) fun u hu _ =>
        Slot.view_heap fun x hx => if_neg (hoff u hu x (Slot.mem_ids hx))).trans ?_
      show dataAt _ (carve s.as.slots i v (pageAlignDown base) stop nLeft nRight _ _) _ = _
      rw [dataAt_carve h.vads.apart hi hok hpart hl' hr' hvad.apart (by omega) (restsView hpart hok q
        (fun hlt => ?_) (fun hlt => ?_) s.heap)]
      · rfl
      · have h1 := hok.start
        have h2 := hpart.base_aligned
        rw [← hl']
        exact hleft (by omega)
      · have h1 := hok.start
        have h2 := hok.stop
        have h3 := hpart.stop_aligned
        have h4 := hpart.base_aligned
        have h5 := hpart.start_le
        have h6 := hpart.le
        rw [← hr', hright (by omega)]
        congr 1
        omega

variable (oom) in
theorem vmmFreeUser_spec (h : HostInv s) (base : Nat) {size : Nat} (hs : size ≤ 2 ^ 64 - 4096) :
    ∃ st s', s.vmmFreeUser oom base size = .ok (st, s') ∧ HostInv s' ∧
      if st = .success then
        ∃ v ∈ s.as.slots, ∃ stop, FreeRange v.toVad (pageAlignDown base) size stop ∧
          s.user.Covers (pageAlignDown base) stop ∧
          s'.user = s.user.onRange (pageAlignDown base) stop fun _ => none
      else s'.user = s.user := by
  obtain ⟨st, s', hr, hinv, hcase⟩ := vmmFreeUser_reply oom h base size
  refine ⟨st, s', hr, hinv, ?_⟩
  rcases hcase with ⟨hst, -, huser, -⟩ | ⟨hst, v, i, stop, nl, nm, nr, hff, hcov, huser⟩
  · rw [if_neg hst]
    exact huser
  · rw [if_pos hst]
    have hf := hff.freed
    obtain ⟨hi, hle, hcase⟩ := freeTarget_ok hf.target
    obtain ⟨-, hpart, -⟩ := h.vads.freeParts (pageAlignDown_mod base) (freeSize_mod size)
      (freeSize_lt size) hf.inside hf.target
    refine ⟨v, List.mem_of_getElem? hi, stop, ⟨hle, hpart.le_stop, fun hz => ?_, fun hz => ?_⟩, hcov,
      huser⟩
    · rw [if_pos (by simp [freeSize, hz])] at hcase
      exact hcase
    · have hup := pageAlignUp_of_le hs
      have hne : freeSize size ≠ 0 := by
        rw [freeSize, if_pos hz]
        omega
      rw [if_neg hne] at hcase
      rw [hcase.1, (inside_user (freeSize_lt size) hf.inside).2.1, freeSize, if_pos hz]

/-! ## `vmm_alloc_user` -/

theorem vmmAllocUser_spec (h : HostInv s) (hb : base % 4096 = 0) (hs : size ≤ 2 ^ 64 - 4096)
    (prot : Prot) (type : Nat) :
    HostInv (s.vmmAllocUser base size prot type).2.2 ∧
      if (s.vmmAllocUser base size prot type).1 = .success then
        ∃ va, va = (s.vmmAllocUser base size prot type).2.1 ∧ (base ≠ 0 → va = base) ∧
        (∀ q, InRange va (va + pageAlignUp size) q → s.user q = none) ∧
        (s.vmmAllocUser base size prot type).2.2.user =
          s.user.onRange va (va + pageAlignUp size) fun _ => some (prot, zeroPage)
      else (s.vmmAllocUser base size prot type).2.2.user = s.user := by
  unfold Host.vmmAllocUser
  cases hp : allocPlan s.as base size with
  | error st =>
    refine ⟨h, ?_⟩
    rw [if_neg (allocPlan_error hp)]
  | ok va =>
    obtain ⟨hz, hl, ht⟩ := allocPlan_eq_ok.1 hp
    obtain ⟨hva, hout, -, -, hover⟩ := allocTarget_ok ht
    have hu := (inside_user (pageAlignUp_lt size) hout).2.1
    have hsmall : pageAlignUp size / pageSize < 2 ^ 32 := by
      have : userCommitMax / pageSize = 8192 := by decide
      omega
    simp only [u32_of_lt hsmall, if_true]
    generalize hw : (⟨⟨va, u64 (va + pageAlignUp size), prot, type, 1⟩,
      ⟨none, pageAlignUp size / pageSize⟩⟩ : Slot Shadow) = w
    have hadd := h.vads.addVad ht hb (pageAlignUp_mod size) (pageAlignUp_lt size) prot type
      (⟨none, pageAlignUp size / pageSize⟩ : Shadow)
    have hne := h.noneEmpty.addVad ht hz hs prot type
      (⟨none, pageAlignUp size / pageSize⟩ : Shadow)
    have hslots : (s.as.addVad base va (pageAlignUp size) prot type
        ⟨none, pageAlignUp size / pageSize⟩).slots = s.as.slots ++ [w] := by rw [← hw]; rfl
    have hnone : w.shadow.pages = none := by rw [← hw]
    have hids : allIds (s.as.slots ++ [w]) = allIds s.as.slots := by
      rw [allIds_append, allIds_cons, Slot.ids_of_none hnone]
      simp
    have hperm : (s.as.slots ++ [w]).Perm (w :: s.as.slots) := List.perm_append_singleton _ _
    have hapart : AllApart (w :: s.as.slots) := by
      have := hadd.apart
      rw [hslots] at this
      exact this.perm hperm
    have hwstart : w.start = va := by rw [← hw]
    have hwstop : w.stop = va + pageAlignUp size := by rw [← hw]; exact hu
    refine ⟨⟨hadd, hne, fun x hx => ?_, ?_, fun x hx => ?_⟩, va, rfl, fun hne => ?_,
      fun q hq => ?_, ?_⟩
    · rw [hslots] at hx
      rcases List.mem_append.1 hx with hx | hx
      · exact h.shaped x hx
      · rw [List.mem_singleton.1 hx]
        exact ⟨by rw [Slot.table, hnone, tableOf_none, List.length_replicate],
          fun hn => absurd hnone hn⟩
    · rw [hslots, hids]
      exact h.ids
    · rw [hslots, hids] at hx
      exact h.live x hx
    · rw [hva, if_neg hne]
    · refine dataAt_eq_none.2 fun x hx hxp => ?_
      have := hover x hx
      rw [hu] at this
      obtain ⟨hq1, hq2⟩ := hq
      obtain ⟨hx1, hx2⟩ := hxp
      omega
    · funext q
      show dataAt _ (s.as.addVad base va (pageAlignUp size) prot type _).slots _ = _
      rw [hslots, dataAt_perm (hapart.perm hperm.symm) hperm, dataAt_cons hapart, UserMap.onRange]
      have hiff : w.Has (q * 4096) ↔ InRange va (va + pageAlignUp size) q := by
        unfold Vad.Has InRange
        rw [hwstart, hwstop]
      have hview : Slot.view s.heap w (q * 4096) = (prot, zeroPage) := by
        rw [Slot.view, Slot.content, Slot.table, hnone, tableOf_none, ← hw]
        congr 1
        rw [List.getD_eq_getElem?_getD, List.getElem?_replicate]
        split <;> rfl
      by_cases hq : InRange va (va + pageAlignUp size) q
      · rw [if_pos (hiff.2 hq), if_pos hq, hview]
      · rw [if_neg (fun hw => hq (hiff.1 hw)), if_neg hq]
        rfl

/-! ## `vmm_protect_user` -/

/-- The pages of a range have another protection. -/
def UserMap.protect (M : UserMap) (lo hi : Nat) (prot : Prot) : UserMap :=
  M.onRange lo hi fun x => x.map fun x => (prot, x.2)

/-- What a part of `vmm_protect_user` on `[base, base + size)` does, when it sets `prot` or fails. -/
structure ProtectStep (s : Host) (base size : Nat) (prot : Prot) (st : Status) (s' : Host) :
    Prop where
  inv : HostInv s'
  within : ∀ lo hi, lo % 4096 = 0 → hi % 4096 = 0 → lo < hi → (hi ≤ base ∨ base + size ≤ lo) →
    InOneVad s.as.slots lo hi → InOneVad s'.as.slots lo hi
  user : s'.user = if st = .success then s.user.protect base (base + size) prot else s.user

theorem Kept.protectStep {s1 s' : Host} {prot : Prot} {st : Status} (hk : Kept s1 s')
    (h : ProtectStep s base size prot st s1) : ProtectStep s base size prot st s' :=
  ⟨hk.inv, fun lo hi h1 h2 h3 h4 h5 => hk.within lo hi (h.within lo hi h1 h2 h3 h4 h5),
    hk.user.trans h.user⟩

theorem HostInv.protectSplit (h : HostInv s) (hp : Protected s.as base size v i nLeft nRight)
    {n : Nat} (hn : s.next ≤ n) (prot : Prot) (left mid right : Shadow)
    (hleft : nLeft ≠ 0 → left.npages = nLeft ∧ tableOf left.pages nLeft = v.table.take nLeft)
    (hmid : (mid.pages ≠ none → mid.npages = size / 4096) ∧
      tableOf mid.pages (size / 4096) = (v.table.drop nLeft).take (size / 4096))
    (hright : nRight ≠ 0 → right.npages = nRight ∧
      tableOf right.pages nRight = v.table.drop (nLeft + size / 4096)) :
    ProtectStep s base size prot .success (Host.setSlots { s with next := n }
      (protectSplit s.as.slots i v base (base + size) prot nLeft nRight left mid right)) := by
  obtain ⟨hi, hpart, -, hnl, hnr⟩ := hp.part h.vads
  have hv := List.mem_of_getElem? hi
  have hok := h.vads.ok v hv
  have hvad := hp.inv h.vads prot left mid right
  have hs := hp.pages
  have hpos := hp.pos
  have hne := h.noneEmpty.protectSplit hi (show base < base + size by omega) prot left mid right
  rw [← hnl, ← hnr] at hne
  have hcut : Cut v nLeft (size / 4096) nRight := by
    have := hpart.cut hok (h.shaped v hv)
    rw [hnl, hnr]
    rwa [Nat.add_sub_cancel_left] at this
  have hlen := hcut.shaped.length
  have hpages := hcut.pages
  have hmids : ({ v with start := base, stop := base + size, prot, shadow := mid } : Slot Shadow).pages
      = size / 4096 := by
    show (base + size - base) / 4096 = _
    rw [Nat.add_sub_cancel_left]
  have hmtable : ({ v with start := base, stop := base + size, prot, shadow := mid } :
      Slot Shadow).table = (v.table.drop nLeft).take (size / 4096) := by
    rw [Slot.table, hmids]
    exact hmid.2
  -- the parts outside are those of `vmm_free_user`
  have hrests : (∀ x ∈ rests v base (base + size) nLeft nRight left right, x.Shaped) ∧
      allIds (rests v base (base + size) nLeft nRight left right) =
        (v.table.take nLeft).reduceOption ++ (v.table.drop (nLeft + size / 4096)).reduceOption := by
    have := shaped_rests hcut.shaped hcut.pages hnl hnr (fun hn => (hleft hn).2)
      (fun hn => (hright hn).2)
    have heq : rests v base (base + size) nLeft nRight left right =
        rests v base (base + size) nLeft nRight ⟨left.pages, nLeft⟩ ⟨right.pages, nRight⟩ := by
      unfold rests
      congr 1
      · by_cases hn : nLeft = 0
        · simp [hn]
        · rw [if_pos hn, if_pos hn, ← (hleft hn).1]
      · by_cases hn : nRight = 0
        · simp [hn]
        · rw [if_pos hn, if_pos hn, ← (hright hn).1]
    rw [heq]
    exact this
  have hinv := (h.replace hi [] (n := n) hvad hne (protectSplit_perm hi ..)
    (fun x hx => by
      rcases List.mem_cons.1 hx with rfl | hx
      · refine ⟨?_, fun hn => ?_⟩
        · rw [hmtable, hmids, List.length_take, List.length_drop]
          omega
        · rw [hmids]
          exact hmid.1 hn
      · exact hrests.1 x hx) (by
      rw [allIds_cons, hrests.2, Slot.ids, hmtable, List.reduceOption_nil, List.append_nil, Slot.ids]
      nth_rewrite 4 [v.table_eq nLeft (size / 4096)]
      rw [List.reduceOption_append, List.reduceOption_append, ← List.append_assoc,
        ← List.append_assoc]
      exact List.perm_append_comm.append_right _) hn).1
  refine ⟨hinv, fun lo hi' hlo hhi hlt' hoff hw => ?_, ?_⟩
  · rw [hnl, hnr]
    exact hw.protectSplit hi hok hpart hlo hhi hlt' hoff prot left mid right
  · rw [if_pos rfl]
    funext q
    show dataAt (Slot.view s.heap)
      (Aegis.protectSplit s.as.slots i v base (base + size) prot nLeft nRight _ _ _) _ = _
    have h1 := hok.start
    have h2 := hok.stop
    rw [dataAt_protectSplit h.vads.apart hi hok hpart hnl hnr hvad.apart (by omega)
      (restsView hpart hok q (fun hlt => ?_) (fun hlt => ?_) s.heap)]
    · show _ = if InRange base (base + size) q then _ else _
      by_cases hq : InRange base (base + size) q
      · have hhas : v.Has (q * 4096) := ⟨hpart.start_le.trans hq.1, hq.2.trans_le hpart.le_stop⟩
        rw [if_pos hq]
        rw [if_pos (show base ≤ q * 4096 ∧ q * 4096 < base + size from hq)]
        show _ = (dataAt _ _ _).map _
        rw [dataAt_getElem h.vads.apart hi hhas, Option.map_some]
        congr 1
        unfold Slot.view Slot.content
        rw [hmtable]
        have h3 := hpart.base_aligned
        have h4 := hpart.start_le
        obtain ⟨hq1, hq2⟩ := hq
        show (prot, pageOf s.heap (((v.table.drop nLeft).take (size / 4096)).getD
          ((q * 4096 - base) / 4096) none)) = _
        rw [List.getD_eq_getElem?_getD, List.getElem?_take_of_lt (by omega), List.getElem?_drop,
          ← List.getD_eq_getElem?_getD, hnl]
        congr 4
        omega
      · rw [if_neg hq]
        rw [if_neg (show ¬ (base ≤ q * 4096 ∧ q * 4096 < base + size) from hq)]
        rfl
    · have h3 := hpart.base_aligned
      rw [← hnl]
      exact (hleft (by omega)).2
    · have h3 := hpart.stop_aligned
      have h4 := hpart.start_le
      rw [← hnr, (hright (by omega)).2, hnl]
      congr 1
      omega

end

end Aegis
