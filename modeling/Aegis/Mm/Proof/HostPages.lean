import Aegis.Mm.Proof.HostRange

/-!
# Reading and writing pages in the host build

A page is made when it is first touched, and then reads as zeroes, which is what the user has seen
before (`vmmPopulatePage_spec`). The loops of `vmm_write_aspace` and `vmm_read_aspace` then go from
page to page.
-/

namespace Aegis

open SwapList Apart Function Outcome

section
variable {oom : Nat → Bool} {s : Host} {v u : Slot Shadow} {i k n x page : Nat}
variable {q va : Nat} {buf : Page} {prot : Prot} {M : UserMap} {arr : List (Option Nat)}

/-! ## Shadows -/

theorem setShadow_perm {l : List (Slot Shadow)} (hi : l[i]? = some v) (sh : Shadow) :
    (l.set i { v with shadow := sh }).Perm ([{ v with shadow := sh }] ++ l.eraseIdx i) :=
  set_perm (List.getElem?_eq_some_iff.1 hi).1 _

theorem dataAt_setShadow {β : Type} {f : Slot Shadow → Nat → β} (h : AllApart s.as.slots)
    (hi : s.as.slots[i]? = some v) (sh : Shadow) (p : Nat) :
    dataAt f (s.as.slots.set i { v with shadow := sh }) p =
      if v.Has p then some (f { v with shadow := sh } p) else dataAt f s.as.slots p := by
  have hperm := setShadow_perm hi sh
  have hapart : AllApart ([{ v with shadow := sh }] ++ s.as.slots.eraseIdx i) :=
    (h.perm (perm_eraseIdx hi)).refine (List.pairwise_singleton ..)
      (fun x hx => by rw [List.mem_singleton.1 hx]; exact ⟨le_rfl, le_rfl⟩)
  rw [dataAt_replace h hi (hapart.perm hperm.symm) hperm
    (fun x hx => by rw [List.mem_singleton.1 hx]; exact ⟨le_rfl, le_rfl⟩)]
  by_cases hp : v.Has p
  · rw [if_pos hp, if_pos hp]
    exact dataAt_of_mem (List.pairwise_singleton ..) List.mem_cons_self hp
  · rw [if_neg hp, if_neg hp]

theorem VadInv.setShadow (h : VadInv s.as) (hi : s.as.slots[i]? = some v) (sh : Shadow) :
    VadInv { s.as with slots := s.as.slots.set i { v with shadow := sh } } := by
  have hv := List.mem_of_getElem? hi
  refine h.replace hi (fun x hx => ?_)
    (fun x hx => ?_) (List.pairwise_singleton ..) (setShadow_perm hi sh)
    (by rw [List.length_set]; exact h.count) ?_ le_rfl
  · rw [List.mem_singleton.1 hx]
    exact ⟨(h.ok v hv).start, (h.ok v hv).stop, (h.ok v hv).le, (h.ok v hv).top⟩
  · rw [List.mem_singleton.1 hx]
    exact ⟨le_rfl, le_rfl⟩
  · rw [totalPages_cons, totalPages_nil, Nat.add_zero]

theorem NoneEmpty.setShadow {l : List (Slot Shadow)} (h : NoneEmpty l) (hi : l[i]? = some v)
    (sh : Shadow) : NoneEmpty (l.set i { v with shadow := sh }) := by
  intro x hx
  rcases List.mem_or_eq_of_mem_set hx with hx | rfl
  · exact h x hx
  · exact h v (List.mem_of_getElem? hi)

theorem HostInv.retable (h : HostInv s) (hi : s.as.slots[i]? = some v) (hn : s.next ≤ n)
    (sh : Shadow) (ht : ({ v with shadow := sh } : Slot Shadow).table = v.table)
    (hnp : sh.pages ≠ none → sh.npages = v.pages) :
    HostInv (Host.setSlots { s with next := n } (s.as.slots.set i { v with shadow := sh })) ∧
      (Host.setSlots { s with next := n } (s.as.slots.set i { v with shadow := sh })).user =
        s.user := by
  have hv := List.mem_of_getElem? hi
  refine ⟨(h.replace hi [] (h.vads.setShadow hi sh) (h.noneEmpty.setShadow hi sh)
    (setShadow_perm hi sh) (fun x hx => ?_) ?_ hn).1, ?_⟩
  · rw [List.mem_singleton.1 hx]
    exact ⟨ht ▸ (h.shaped v hv).length, hnp⟩
  · rw [allIds_cons, allIds_nil, List.append_nil, Slot.ids, ht]
    simp [Slot.ids]
  · funext q
    refine (dataAt_setShadow h.vads.apart hi sh (q * 4096)).trans ?_
    by_cases hp : v.Has (q * 4096)
    · rw [if_pos hp]
      show some (v.prot, pageOf s.heap (({ v with shadow := sh } : Slot Shadow).table.getD _ none)) = _
      rw [ht, Host.user, dataAt_getElem h.vads.apart hi hp]
      rfl
    · rw [if_neg hp]
      rfl

theorem HostInv.addPage (h : HostInv s) (hi : s.as.slots[i]? = some v)
    (ha : v.shadow.pages = some arr) (hk : arr[k]? = some none) {s' : Host}
    (hs' : s' = Host.setSlots { s with
        next := s.next + 1, heap := update s.heap s.next (some zeroPage) }
      (s.as.slots.set i { v with
        shadow := { v.shadow with pages := some (arr.set k (some s.next)) } })) :
    HostInv s' ∧ s'.user = s.user := by
  have hlt := (List.getElem?_eq_some_iff.1 hi).1
  have hkl := (List.getElem?_eq_some_iff.1 hk).1
  have hv := List.mem_of_getElem? hi
  have htab : v.table = arr := Slot.table_of_some ha
  have hsh := h.shaped v hv
  have hnp : v.shadow.npages = v.pages := hsh.npages (by rw [ha]; simp)
  generalize hw : ({ v with
      shadow := { v.shadow with pages := some (arr.set k (some s.next)) } } : Slot Shadow) = w at hs'
  have hwtab : w.table = arr.set k (some s.next) := by rw [← hw]; rfl
  have hfresh : s.next ∉ allIds s.as.slots := fun hx => (lt_irrefl _ (h.live _ hx).1)
  -- the new page comes to those of the VAD
  have hwids : w.ids.Perm (s.next :: v.ids) := by
    rw [Slot.ids, hwtab, Slot.ids, htab, List.set_eq_take_append_cons_drop, if_pos hkl,
      List.reduceOption_append, List.reduceOption_cons_of_some]
    refine List.perm_middle.trans (List.Perm.cons _ ?_)
    rw [← List.reduceOption_append]
    conv_rhs => rw [← List.take_append_drop k arr, List.reduceOption_append,
      List.drop_eq_getElem_cons hkl, (List.getElem?_eq_some_iff.1 hk).2,
      List.reduceOption_cons_of_none, ← List.reduceOption_append]
  have hids : (allIds s'.as.slots).Perm (s.next :: allIds s.as.slots) := by
    rw [hs']
    refine (allIds_perm (set_perm hlt w)).trans ?_
    rw [allIds_cons]
    refine (hwids.append_right _).trans (List.Perm.cons _ ?_)
    exact (allIds_perm (perm_eraseIdx hi)).symm
  have hheap : ∀ y ∈ allIds s.as.slots, s'.heap y = s.heap y := fun y hy => by
    rw [hs']
    exact update_of_ne (fun he : y = s.next => hfresh (he ▸ hy)) _ _
  refine ⟨⟨?_, ?_, fun x hx => ?_, ?_, fun x hx => ?_⟩, ?_⟩
  · rw [hs', ← hw]
    exact h.vads.setShadow hi _
  · rw [hs', ← hw]
    exact h.noneEmpty.setShadow hi _
  · rw [hs'] at hx
    rcases List.mem_or_eq_of_mem_set hx with hx | rfl
    · exact h.shaped x hx
    · have hpages : x.pages = v.pages := by rw [← hw]
      refine ⟨?_, fun _ => ?_⟩
      · rw [hwtab, List.length_set, hpages, ← htab]
        exact hsh.length
      · rw [hpages, ← hnp, ← hw]
  · exact hids.nodup_iff.2 (List.nodup_cons.2 ⟨hfresh, h.ids⟩)
  · have hnext : s'.next = s.next + 1 := by rw [hs']; rfl
    rw [hnext]
    rcases List.mem_cons.1 (hids.mem_iff.1 hx) with rfl | hx
    · refine ⟨Nat.lt_succ_self _, ?_⟩
      rw [hs']
      show (update s.heap s.next (some zeroPage) s.next).isSome = true
      rw [update_self]
      rfl
    · rw [hheap x hx]
      exact ⟨(h.live x hx).1.trans (Nat.lt_succ_self _), (h.live x hx).2⟩
  · have hview : ∀ u ∈ s.as.slots, ∀ p, Slot.view s'.heap u p = Slot.view s.heap u p :=
      fun u hu p => Slot.view_heap fun y hy => hheap y (mem_allIds hu (Slot.mem_ids hy))
    funext q
    have hslots : s'.as.slots = s.as.slots.set i { v with
        shadow := { v.shadow with pages := some (arr.set k (some s.next)) } } := by rw [hs', ← hw]; rfl
    rw [Host.user, hslots, dataAt_setShadow h.vads.apart hi]
    by_cases hp : v.Has (q * 4096)
    · rw [if_pos hp, hw, Host.user, dataAt_getElem h.vads.apart hi hp, ← hview v hv]
      unfold Slot.view Slot.content
      rw [hwtab, htab, ← hw]
      congr 2
      simp only [List.getD_eq_getElem?_getD, List.getElem?_set]
      split
      · next he =>
        rw [← he, hk]
        show ((s'.heap s.next).getD zeroPage) = zeroPage
        rw [hs']
        show ((update s.heap s.next (some zeroPage) s.next).getD zeroPage) = _
        rw [update_self]
        rfl
      · rfl
    · rw [if_neg hp, Host.user]
      exact dataAt_congr fun u hu _ => hview u hu _

/-! ## One page -/

/-- The page at `page` has been made: `x`, in the VAD `v`. -/
structure Backed (s : Host) (page : Nat) (v : Slot Shadow) (x : Nat) : Prop where
  mem : v ∈ s.as.slots
  has : v.Has page
  array : v.shadow.pages ≠ none
  entry : v.table[(page - v.start) / 4096]? = some (some x)

variable (oom) in
theorem Host.withArray_spec (h : HostInv s) (hi : s.as.slots[i]? = some v) :
    ∃ r s', s.withArray oom i v v.pages = (r, s') ∧ HostInv s' ∧ s'.user = s.user ∧
      ∀ w arr, r = some (w, arr) → s'.as.slots[i]? = some w ∧ w.toVad = v.toVad ∧
        w.shadow.pages = some arr := by
  unfold withArray
  cases hp : v.shadow.pages with
  | some arr =>
    refine ⟨_, s, rfl, h, rfl, fun w arr' he => ?_⟩
    cases he
    exact ⟨hi, rfl, hp⟩
  | none =>
    have htab : v.table = List.replicate v.pages none := by rw [Slot.table, hp]; rfl
    have hlt := (List.getElem?_eq_some_iff.1 hi).1
    unfold kallocArray
    cases ho : oom s.next
    · obtain ⟨hinv, huser⟩ := h.retable hi (Nat.le_succ s.next)
        ⟨some (List.replicate v.pages none), v.pages⟩ htab.symm (fun _ => rfl)
      refine ⟨_, _, rfl, hinv, huser, fun w arr' he => ?_⟩
      cases he
      exact ⟨List.getElem?_set_self hlt, rfl, rfl⟩
    · obtain ⟨hinv, huser⟩ := h.retable hi (Nat.le_succ s.next) ⟨none, v.pages⟩ htab.symm
        (fun hn => absurd rfl hn)
      exact ⟨_, _, rfl, hinv, huser, (fun _ _ he => by cases he)⟩

variable (oom) in
theorem Host.withPage_spec (h : HostInv s) (hi : s.as.slots[i]? = some v)
    (ha : v.shadow.pages = some arr) (hhas : v.Has page) :
    ∃ st s', s.withPage oom i v arr ((page - v.start) / 4096) = .ok (st, s') ∧ HostInv s' ∧
      s'.user = s.user ∧ (st = .success → ∃ w x, Backed s' page w x) := by
  have hv := List.mem_of_getElem? hi
  have hlt := (List.getElem?_eq_some_iff.1 hi).1
  have hok := h.vads.ok v hv
  have hsh := h.shaped v hv
  have htab : v.table = arr := Slot.table_of_some ha
  have hnp : v.shadow.npages = v.pages := hsh.npages (by rw [ha]; simp)
  have hlen := hsh.length
  rw [htab] at hlen
  have hidx : (page - v.start) / 4096 < v.pages := by
    have h1 := hok.pages_mul
    obtain ⟨h2, h3⟩ := hhas
    omega
  unfold withPage
  rw [if_neg (by rw [hnp]; omega)]
  cases hk : arr[(page - v.start) / 4096]? with
  | none =>
    have := List.getElem?_eq_none_iff.1 hk
    omega
  | some o =>
    cases o with
    | some x =>
      exact ⟨.success, s, rfl, h, rfl, fun _ =>
        ⟨v, x, hv, hhas, by rw [ha]; simp, by rw [htab, hk]⟩⟩
    | none =>
      unfold kallocPage
      cases ho : oom s.next
      · obtain ⟨hinv, huser⟩ := h.addPage hi ha hk rfl
        refine ⟨.success, _, rfl, hinv, huser, fun _ => ⟨{ v with shadow := { v.shadow with
          pages := some (arr.set ((page - v.start) / 4096) (some s.next)) } }, s.next, ?_, hhas, ?_,
          ?_⟩⟩
        · exact List.mem_of_getElem? (List.getElem?_set_self hlt)
        · simp
        · exact List.getElem?_set_self (by omega)
      · exact ⟨.noMemory, _, rfl, h.next (Nat.le_succ _), rfl, (fun he => by cases he)⟩

variable (oom) in
theorem vmmPopulatePage_spec (h : HostInv s) (page : Nat) (write : Bool) :
    ∃ st s', s.vmmPopulatePage oom page write = .ok (st, s') ∧ HostInv s' ∧ s'.user = s.user ∧
      (st = .success → ∃ v x, Backed s' page v x) := by
  unfold Host.vmmPopulatePage
  cases hl : vadLookup s.as.slots page with
  | none => exact ⟨.accessViolation, s, rfl, h, rfl, (fun he => by cases he)⟩
  | some r =>
    obtain ⟨v, i⟩ := r
    obtain ⟨hi, hhas⟩ := vadLookup_some hl
    have hv := List.mem_of_getElem? hi
    have hok := h.vads.ok v hv
    simp only
    by_cases h1 : v.prot &&& pageNoAccess ≠ 0
    · rw [if_pos h1]
      exact ⟨.accessViolation, s, rfl, h, rfl, (fun he => by cases he)⟩
    rw [if_neg h1]
    by_cases h2 : write ∧ v.prot &&& (pageReadWrite ||| pageExecuteReadWrite) = 0
    · rw [if_pos h2]
      exact ⟨.accessViolation, s, rfl, h, rfl, (fun he => by cases he)⟩
    rw [if_neg h2, h.vads.pagesBetween hv le_rfl hok.le le_rfl]
    by_cases h3 : (v.stop - v.start) / 4096 = 0
    · rw [if_pos h3]
      exact ⟨.accessViolation, s, rfl, h, rfl, (fun he => by cases he)⟩
    rw [if_neg h3]
    obtain ⟨r, s1, hr, hinv, huser, hsome⟩ := Host.withArray_spec oom h hi
    rw [show (v.stop - v.start) / 4096 = v.pages from rfl, hr]
    cases r with
    | none => exact ⟨.noMemory, s1, rfl, hinv, huser, (fun he => by cases he)⟩
    | some x =>
      obtain ⟨w, arr⟩ := x
      obtain ⟨hi1, hw, ha⟩ := hsome w arr rfl
      have hhas1 : w.Has page := by rw [hw]; exact hhas
      have hw1 := List.mem_of_getElem? hi1
      simp only
      rw [hinv.vads.pagesBetween hw1 le_rfl hhas1.1 hhas1.2.le]
      obtain ⟨st, s2, hs2, hinv2, huser2, hback⟩ :=
        Host.withPage_spec oom hinv hi1 ha hhas1
      exact ⟨st, s2, hs2, hinv2, huser2.trans huser, hback⟩

theorem Backed.pagePointer (hb : Backed s page v x) (h : HostInv s) :
    s.pagePointer page = .ok (some x) := by
  obtain ⟨arr, ha⟩ := Option.ne_none_iff_exists'.1 hb.array
  obtain ⟨i, hl⟩ := vadLookup_of_mem h.vads.apart hb.mem hb.has
  have hok := h.vads.ok v hb.mem
  have hentry := hb.entry
  rw [Slot.table_of_some ha] at hentry
  have hidx : (page - v.start) / 4096 < v.pages := by
    have h1 := hok.pages_mul
    obtain ⟨h2, h3⟩ := hb.has
    omega
  unfold Host.pagePointer
  rw [hl]
  simp only [ha]
  rw [h.vads.pagesBetween hb.mem le_rfl hb.has.1 hb.has.2.le,
    if_neg (by rw [(h.shaped v hb.mem).npages hb.array]; omega), hentry]

theorem Backed.heap (hb : Backed s page v x) (h : HostInv s) : ∃ buf, s.heap x = some buf :=
  Option.isSome_iff_exists.1 (h.live x (mem_allIds hb.mem (Slot.mem_ids hb.entry))).2

theorem Backed.user (hb : Backed s (q * 4096) v x) (h : HostInv s) (hx : s.heap x = some buf) :
    s.user q = some (v.prot, buf) := by
  rw [Host.user, dataAt_of_mem h.vads.apart hb.mem hb.has, Slot.view, Slot.content,
    List.getD_eq_getElem?_getD, hb.entry]
  show some (v.prot, (s.heap x).getD zeroPage) = _
  rw [hx]
  rfl

theorem Backed.poke (hb : Backed s (q * 4096) v x) (h : HostInv s) (buf : Page) :
    HostInv { s with heap := update s.heap x (some buf) } ∧
      Host.user { s with heap := update s.heap x (some buf) } =
        update s.user q (some (v.prot, buf)) := by
  have hinv : HostInv { s with heap := update s.heap x (some buf) } :=
    ⟨h.vads, h.noneEmpty, h.shaped, h.ids, fun y hy => ⟨(h.live y hy).1, by
      show (update s.heap x (some buf) y).isSome = true
      by_cases he : y = x
      · rw [he, update_self]
        rfl
      · rw [update_of_ne he]
        exact (h.live y hy).2⟩⟩
  refine ⟨hinv, ?_⟩
  funext q'
  by_cases hq : q' = q
  · subst hq
    have hb' : Backed { s with heap := update s.heap x (some buf) } (q' * 4096) v x :=
      ⟨hb.mem, hb.has, hb.array, hb.entry⟩
    rw [update_self, hb'.user hinv (update_self ..)]
  · rw [update_of_ne hq]
    refine dataAt_congr fun u hu hup => Slot.view_heap fun y hy => update_of_ne ?_ _ _
    -- another entry points to another page
    rintro rfl
    obtain ⟨rfl, hidx⟩ := h.same_entry hu hb.mem hy hb.entry
    have h1 := (h.vads.ok u hu).start
    obtain ⟨h2, -⟩ := hup
    obtain ⟨h3, -⟩ := hb.has
    omega

/-! ## Many pages -/

theorem UserMap.write_nil (M : UserMap) (va : Nat) : M.write va [] = M := by
  funext q
  rw [UserMap.write]
  have : ∀ o, ¬ (o < 4096 ∧ va ≤ q * 4096 + o ∧ q * 4096 + o < va + ([] : List UInt8).length) :=
    fun o => by simp only [List.length_nil]; omega
  simp only [this, if_false]
  exact Option.map_id'

theorem UserMap.write_append (M : UserMap) (va : Nat) (l l' : List UInt8) :
    (M.write va l).write (va + l.length) l' = M.write va (l ++ l') := by
  funext q
  simp only [UserMap.write, Option.map_map, List.length_append]
  congr 1
  funext x
  simp only [comp_apply, Prod.mk.injEq, true_and]
  funext o
  by_cases h1 : o < 4096 ∧ va ≤ q * 4096 + o ∧ q * 4096 + o < va + l.length
  · rw [if_neg (by omega), if_pos h1, if_pos (by omega), List.getD_append _ _ _ _ (by omega)]
  · rw [if_neg h1]
    by_cases h2 : o < 4096 ∧ va + l.length ≤ q * 4096 + o ∧
        q * 4096 + o < va + l.length + l'.length
    · rw [if_pos h2, if_pos (by omega), List.getD_append_right _ _ _ _ (by omega)]
      congr 1
      omega
    · rw [if_neg h2, if_neg (by omega)]

theorem UserMap.write_page {l : List UInt8} (hM : M (va / 4096) = some (prot, buf))
    (hl : va % 4096 + l.length ≤ 4096) :
    M.write va l = update M (va / 4096) (some (prot, fun o =>
      if va % 4096 ≤ o ∧ o < va % 4096 + l.length then l.getD (o - va % 4096) 0 else buf o)) := by
  funext q
  by_cases hq : q = va / 4096
  · subst hq
    rw [update_self, UserMap.write, hM, Option.map_some]
    congr 2
    funext o
    simp only
    by_cases ho : va % 4096 ≤ o ∧ o < va % 4096 + l.length
    · rw [if_pos ho, if_pos (by omega)]
      congr 1
      omega
    · rw [if_neg ho, if_neg (by omega)]
  · rw [update_of_ne hq, UserMap.write]
    have : ∀ o, ¬ (o < 4096 ∧ va ≤ q * 4096 + o ∧ q * 4096 + o < va + l.length) := fun o => by omega
    simp only [this, if_false]
    exact Option.map_id'

theorem HostInv.page_lt (h : HostInv s) (hq : (s.user q).isSome) : q < 2 ^ 35 := by
  obtain ⟨b, hb⟩ := Option.isSome_iff_exists.1 hq
  obtain ⟨v, hv, hhas, -⟩ := (dataAt_eq_some h.vads.apart).1 hb
  have h1 := (h.vads.ok v hv).top
  have h2 := userCanonicalTop_eq
  have h3 := hhas.2
  omega

theorem UserMap.byte_isSome {a : Nat} (hq : a / 4096 = q) (h : (M q).isSome) :
    (M.byte a).isSome := by
  rw [UserMap.byte, hq, Option.isSome_map]
  exact h

theorem UserMap.isSome_byte_write (M : UserMap) (va a : Nat) (l : List UInt8) :
    ((M.write va l).byte a).isSome = (M.byte a).isSome := by
  simp only [UserMap.byte, UserMap.write, Option.isSome_map]

variable (oom) in
/-- A round of both loops: the call ends, or the page of `va` is there. -/
theorem Host.round_spec (h : HostInv s) (hva : va < 2 ^ 64) :
    ∃ st s1, s.vmmPopulatePage oom (pageAlignDown va) false = .ok (st, s1) ∧ HostInv s1 ∧
      s1.user = s.user ∧ (ntSuccess st = false ∧ st ≠ .success ∨ ntSuccess st = true ∧ ∃ v x buf,
        Backed s1 (va / 4096 * 4096) v x ∧ s1.pagePointer (pageAlignDown va) = .ok (some x) ∧
        s1.heap x = some buf ∧ s.user (va / 4096) = some (v.prot, buf) ∧ va + 4096 < 2 ^ 64) := by
  rw [pageAlignDown_of_lt hva]
  obtain ⟨st, s1, hpop, hinv, huser, hback⟩ := vmmPopulatePage_spec oom h (va / 4096 * 4096) false
  refine ⟨st, s1, hpop, hinv, huser, ?_⟩
  cases hst : ntSuccess st
  · exact .inl ⟨rfl, (ntSuccess_eq_false st).1 hst⟩
  · obtain ⟨v, x, hb⟩ := hback ((ntSuccess_iff st).1 hst)
    obtain ⟨buf, hbuf⟩ := hb.heap hinv
    have hM := hb.user hinv hbuf
    have hq := hinv.page_lt (q := va / 4096) (by rw [hM]; rfl)
    exact .inr ⟨rfl, v, x, buf, hb, hb.pagePointer hinv, hbuf, huser ▸ hM, by omega⟩

variable (oom) in
theorem Host.writeLoop_spec (h : HostInv s) (hva : va < 2 ^ 64) (src : List UInt8)
    (hk : src.length ≤ k) :
    ∃ st s' j, s.writeLoop oom k va src = .ok (st, s') ∧ HostInv s' ∧ j ≤ src.length ∧
      (st = .success → j = src.length) ∧ (∀ i < j, (s.user.byte (va + i)).isSome) ∧
      s'.user = s.user.write va (src.take j) := by
  induction k generalizing s va src with
  | zero =>
    rw [List.length_eq_zero_iff.1 (Nat.le_zero.1 hk)]
    exact ⟨.success, s, 0, by rw [writeLoop], h, le_rfl, fun _ => rfl, (fun _ hi => by omega),
      (UserMap.write_nil _ _).symm⟩
  | succ k ih =>
    cases src with
    | nil =>
      exact ⟨.success, s, 0, by rw [writeLoop], h, le_rfl, fun _ => rfl, (fun _ hi => by omega),
        (UserMap.write_nil _ _).symm⟩
    | cons b bs =>
      obtain ⟨st, s1, hpop, hinv, huser, hcase⟩ := Host.round_spec oom h hva
      rw [writeLoop, hpop, ok_bind]
      rcases hcase with ⟨hst, hne⟩ | ⟨hst, v, x, buf, hb, hptr, hbuf, hM, hfar⟩
      · exact ⟨st, s1, 0, if_pos hst, hinv, Nat.zero_le _, (fun he => absurd he hne),
          (fun _ hi => by omega), by rw [huser, List.take_zero, UserMap.write_nil]⟩
      simp only [hst, Bool.true_eq_false, if_false, hptr, ok_bind, hbuf]
      generalize hchunk : min (bs.length + 1) (pageSize - va % pageSize) = chunk
      rw [show pageSize = 4096 from rfl] at hchunk
      have hcl : chunk ≤ (b :: bs).length := by rw [List.length_cons]; omega
      have hcpos : 0 < chunk := by omega
      have hcoff : va % 4096 + chunk ≤ 4096 := by omega
      rw [u64_of_lt (by omega)]
      have htake : ((b :: bs).take chunk).length = chunk := by
        rw [List.length_take]
        omega
      -- the bytes that this round writes
      have hround : (fun o => if va % 4096 ≤ o ∧ o < va % 4096 + chunk then
          (b :: bs).getD (o - va % 4096) 0 else buf o) = fun o =>
          if va % 4096 ≤ o ∧ o < va % 4096 + ((b :: bs).take chunk).length then
            ((b :: bs).take chunk).getD (o - va % 4096) 0 else buf o := by
        funext o
        rw [htake]
        split
        · rw [List.getD_eq_getElem?_getD, List.getD_eq_getElem?_getD,
            List.getElem?_take_of_lt (by omega)]
        · rfl
      obtain ⟨hinv2, huser2⟩ := hb.poke hinv
        (fun o => if va % 4096 ≤ o ∧ o < va % 4096 + chunk then
          (b :: bs).getD (o - va % 4096) 0 else buf o)
      have hone := huser2
      rw [hround, huser, ← UserMap.write_page hM (by rw [htake]; exact hcoff)] at hone
      obtain ⟨st', s', j, hr, hinv', hj, hall, hbytes, huser'⟩ := ih hinv2
        (show va + chunk < 2 ^ 64 by omega) ((b :: bs).drop chunk)
        (by rw [List.length_drop]; omega)
      refine ⟨st', s', chunk + j, hr, hinv', ?_, fun he => ?_, fun i hi => ?_, ?_⟩
      · rw [List.length_drop] at hj
        omega
      · have := hall he
        rw [List.length_drop] at this
        omega
      · by_cases hic : i < chunk
        · exact UserMap.byte_isSome (q := va / 4096) (by omega) (by rw [hM]; rfl)
        · have := hbytes (i - chunk) (by omega)
          rw [hround, hone, UserMap.isSome_byte_write] at this
          rwa [show va + chunk + (i - chunk) = va + i by omega] at this
      · rw [huser', hround, hone, List.take_add]
        have := UserMap.write_append s.user va ((b :: bs).take chunk)
          (((b :: bs).drop chunk).take j)
        rw [htake] at this
        exact this

theorem UserMap.byte_page {j : Nat} (hM : M (va / 4096) = some (prot, buf))
    (hj : va % 4096 + j < 4096) : M.byte (va + j) = some (buf (va % 4096 + j)) := by
  rw [UserMap.byte, show (va + j) / 4096 = va / 4096 by omega, hM, Option.map_some,
    show (va + j) % 4096 = va % 4096 + j by omega]

variable (oom) in
theorem Host.readLoop_spec (h : HostInv s) (hva : va < 2 ^ 64) (hk : n ≤ k) :
    ∃ st bytes s', s.readLoop oom k va n = .ok (st, bytes, s') ∧ HostInv s' ∧ s'.user = s.user ∧
      bytes.length ≤ n ∧ (st = .success → bytes.length = n) ∧
      ∀ j < bytes.length, s.user.byte (va + j) = bytes[j]? := by
  induction k generalizing s va n with
  | zero =>
    rw [Nat.le_zero.1 hk]
    exact ⟨.success, [], s, by rw [readLoop], h, rfl, le_rfl, fun _ => rfl,
      (fun j hj => absurd hj (Nat.not_lt_zero j))⟩
  | succ k ih =>
    cases n with
    | zero =>
      exact ⟨.success, [], s, by rw [readLoop], h, rfl, le_rfl, fun _ => rfl,
        (fun j hj => absurd hj (Nat.not_lt_zero j))⟩
    | succ n =>
      obtain ⟨st, s1, hpop, hinv, huser, hcase⟩ := Host.round_spec oom h hva
      rw [readLoop, hpop, ok_bind]
      rcases hcase with ⟨hst, hne⟩ | ⟨hst, v, x, buf, -, hptr, hbuf, hM, hfar⟩
      · exact ⟨st, [], s1, if_pos hst, hinv, huser, Nat.zero_le _, (fun he => absurd he hne),
          (fun j hj => absurd hj (Nat.not_lt_zero j))⟩
      simp only [hst, Bool.true_eq_false, if_false, hptr, ok_bind, hbuf]
      generalize hchunk : min (n + 1) (pageSize - va % pageSize) = chunk
      rw [show pageSize = 4096 from rfl] at hchunk
      have hcpos : 0 < chunk := by omega
      have hcoff : va % 4096 + chunk ≤ 4096 := by omega
      rw [u64_of_lt (by omega)]
      obtain ⟨st', rest, s', hr, hinv', huser', hlen, hall, hbytes⟩ := ih hinv
        (show va + chunk < 2 ^ 64 by omega) (n := n + 1 - chunk) (by omega)
      rw [hr, ok_bind]
      have hlen' : ((List.range chunk).map (fun i => buf (va % pageSize + i)) ++ rest).length =
          chunk + rest.length := by
        rw [List.length_append, List.length_map, List.length_range]
      refine ⟨st', _, s', rfl, hinv', huser'.trans huser, ?_, fun he => ?_, fun j hj => ?_⟩
      · rw [hlen']
        omega
      · rw [hlen', hall he]
        omega
      · rw [hlen'] at hj
        by_cases hjc : j < chunk
        · rw [UserMap.byte_page hM (by omega), List.getElem?_append_left (by simpa using hjc),
            List.getElem?_map, List.getElem?_range hjc]
          rfl
        · rw [List.getElem?_append_right (by simpa using Nat.le_of_not_lt hjc), List.length_map,
            List.length_range, ← hbytes (j - chunk) (by omega), huser,
            show va + chunk + (j - chunk) = va + j by omega]

end

end Aegis
