import Mathlib.Data.List.ReduceOption
import Aegis.Mm.Proof.VadLookup
import Aegis.Mm.VmmSpec

/-!
# The shadow pages of the host build

A VAD without an array of pointers is read as one whose pointers are all null (`Slot.table`); with
that, cutting a VAD cuts its table and joining two appends their tables, and no page belongs to two
entries (`HostInv`).
-/

namespace Aegis

variable {x : Nat} {v : Slot Shadow} {l : List (Slot Shadow)}

open SwapList Apart

/-! ## Tables -/

/-- The pointers of an array for `n` pages, if it is there. -/
def tableOf (pages : Option (List (Option Nat))) (n : Nat) : List (Option Nat) :=
  pages.getD (List.replicate n none)

/-- The entries of a VAD, one a page. -/
def Slot.table (v : Slot Shadow) : List (Option Nat) := tableOf v.shadow.pages v.pages

/-- The pages of a VAD. -/
def Slot.ids (v : Slot Shadow) : List Nat := v.table.reduceOption

/-- A VAD has an entry for each of its pages. -/
structure Slot.Shaped (v : Slot Shadow) : Prop where
  length : v.table.length = v.pages
  npages : v.shadow.pages ≠ none → v.shadow.npages = v.pages

/-- The pages of all VADs. -/
def allIds (l : List (Slot Shadow)) : List Nat := l.flatMap Slot.ids

theorem allIds_perm {l' : List (Slot Shadow)} (h : l.Perm l') : (allIds l).Perm (allIds l') :=
  h.flatMap_right _

@[simp] theorem allIds_cons (v : Slot Shadow) (l : List (Slot Shadow)) :
    allIds (v :: l) = v.ids ++ allIds l := rfl

@[simp] theorem allIds_nil : allIds [] = [] := rfl

@[simp] theorem allIds_append (l l' : List (Slot Shadow)) :
    allIds (l ++ l') = allIds l ++ allIds l' := List.flatMap_append

theorem mem_allIds (hv : v ∈ l) (hx : x ∈ v.ids) : x ∈ allIds l := List.mem_flatMap.2 ⟨v, hv, hx⟩

theorem Slot.mem_ids {k : Nat} (h : v.table[k]? = some (some x)) : x ∈ v.ids :=
  List.reduceOption_mem_iff.2 (List.mem_of_getElem? h)

theorem reduceOption_replicate (n : Nat) :
    (List.replicate n (none : Option Nat)).reduceOption = [] := by
  induction n with
  | zero => rfl
  | succ n ih => rw [List.replicate_succ, List.reduceOption_cons_of_none, ih]

@[simp] theorem Slot.ids_of_none (h : v.shadow.pages = none) : v.ids = [] := by
  rw [Slot.ids, Slot.table, h]
  exact reduceOption_replicate _

/-- What every call of the host build keeps: the VADs are in order, each has an entry for each of
its pages, and every entry has a live page of its own. -/
structure HostInv (s : Host) : Prop where
  vads : VadInv s.as
  noneEmpty : NoneEmpty s.as.slots
  shaped : ∀ v ∈ s.as.slots, v.Shaped
  ids : (allIds s.as.slots).Nodup
  live : ∀ x ∈ allIds s.as.slots, x < s.next ∧ (s.heap x).isSome

theorem Host.init_inv : HostInv Host.init :=
  ⟨Aspace.init_inv Shadow, (fun _ hv => by cases hv), (fun _ hv => by cases hv), List.nodup_nil,
    (fun _ hx => by cases hx)⟩

/-! ## The user's view -/

/-- What the user sees behind an entry. -/
def pageOf (heap : Nat → Option Page) : Option Nat → Page
  | none => zeroPage
  | some x => (heap x).getD zeroPage

/-- The bytes of the page at `p` in `v`. -/
def Slot.content (heap : Nat → Option Page) (v : Slot Shadow) (p : Nat) : Page :=
  pageOf heap (v.table.getD ((p - v.start) / 4096) none)

/-- What the user sees at `p`. -/
def Slot.view (heap : Nat → Option Page) (v : Slot Shadow) (p : Nat) : Prot × Page :=
  (v.prot, v.content heap p)

theorem Slot.view_heap {heap heap' : Nat → Option Page} {p : Nat}
    (h : ∀ x, v.table[(p - v.start) / 4096]? = some (some x) → heap' x = heap x) :
    Slot.view heap' v p = Slot.view heap v p := by
  unfold Slot.view Slot.content
  rw [List.getD_eq_getElem?_getD]
  cases hx : v.table[(p - v.start) / 4096]? with
  | none => rfl
  | some o =>
    cases o with
    | none => rfl
    | some x =>
      show (v.prot, (heap' x).getD zeroPage) = _
      rw [h x hx]
      rfl

/-- What the user sees at each page. -/
def Host.user (s : Host) : UserMap := fun q => dataAt (Slot.view s.heap) s.as.slots (q * 4096)

/-- Two states show the user the same, and joined VADs are all that differs in the array. -/
structure Kept (s s' : Host) : Prop where
  inv : HostInv s'
  user : s'.user = s.user
  within : ∀ lo hi, InOneVad s.as.slots lo hi → InOneVad s'.as.slots lo hi

theorem Kept.trans {s s1 s2 : Host} (h : Kept s s1) (h' : Kept s1 s2) : Kept s s2 :=
  ⟨h'.inv, h'.user.trans h.user, fun lo hi hw => h'.within lo hi (h.within lo hi hw)⟩

section
variable {s : Host} {l l' : List (Slot Shadow)} {v u m : Slot Shadow} {i n : Nat}

theorem HostInv.next (h : HostInv s) (hn : s.next ≤ n) : HostInv { s with next := n } :=
  ⟨h.vads, h.noneEmpty, h.shaped, h.ids, fun x hx =>
    ⟨(h.live x hx).1.trans_le hn, (h.live x hx).2⟩⟩

theorem HostInv.kept_next (h : HostInv s) (hn : s.next ≤ n) : Kept s { s with next := n } :=
  ⟨h.next hn, rfl, fun _ _ hw => hw⟩

theorem HostInv.same_entry (h : HostInv s) (hv : v ∈ s.as.slots) (hu : u ∈ s.as.slots)
    {j k x : Nat} (hj : v.table[j]? = some (some x)) (hk : u.table[k]? = some (some x)) :
    v = u ∧ j = k := by
  obtain ⟨hnd, hdis⟩ := List.nodup_flatMap.1 h.ids
  have hvu : v = u := by
    by_contra hne
    have : Std.Symm (Function.onFun List.Disjoint Slot.ids) := ⟨fun _ _ hd => hd.symm⟩
    exact hdis.forall hv hu hne (Slot.mem_ids hj) (Slot.mem_ids hk)
  subst hvu
  refine ⟨rfl, ?_⟩
  have hnd := hnd v hv
  by_contra hne
  obtain ⟨hjl, hje⟩ := List.getElem?_eq_some_iff.1 hj
  obtain ⟨hkl, hke⟩ := List.getElem?_eq_some_iff.1 hk
  -- split the table before the later of the two entries
  wlog hlt : j < k generalizing j k
  · exact this hk hj (Ne.symm hne) hkl hke hjl hje (by omega)
  rw [Slot.ids, ← List.take_append_drop k v.table, List.reduceOption_append] at hnd
  refine (List.disjoint_of_nodup_append hnd) (a := x) ?_ ?_
  · exact List.reduceOption_mem_iff.2 (List.mem_of_getElem? (i := j)
      (by rw [List.getElem?_take_of_lt hlt, hj]))
  · exact List.reduceOption_mem_iff.2 (List.mem_of_getElem? (i := 0) (by rw [List.getElem?_drop]; exact hk))

/-! ## Joining -/

theorem HostInv.join (h : HostInv s) (hj : Joined v u m s.as.slots l')
    (htable : m.table = v.table ++ u.table) (hm : m.shadow.pages ≠ none → m.shadow.npages = m.pages) :
    Kept s (s.setSlots l') := by
  obtain ⟨rest, hl, hl'⟩ := hj.perm
  have hv : v ∈ s.as.slots := hl.mem_iff.2 (by simp)
  have hu : u ∈ s.as.slots := hl.mem_iff.2 (by simp)
  have hvad : VadInv (s.setSlots l').as := hj.inv h.vads
  have hok := h.vads.ok v hv
  have hok' := h.vads.ok u hu
  have hmok := hvad.ok m (hl'.mem_iff.2 (by simp))
  have h1 := hok.pages_mul
  have h2 := hok'.pages_mul
  have h3 := hmok.pages_mul
  have h4 := hj.meet
  have h5 := hj.start
  have h6 := hj.stop
  have hpages : m.pages = v.pages + u.pages := by omega
  have hids : (allIds l').Perm (allIds s.as.slots) := by
    refine (allIds_perm hl').trans (List.Perm.trans ?_ (allIds_perm hl).symm)
    rw [allIds_cons, allIds_cons, allIds_cons, Slot.ids, htable, List.reduceOption_append,
      List.append_assoc]
    rfl
  have hshape : ∀ x ∈ l', x.Shaped := fun x hx => by
    rcases List.mem_cons.1 (hl'.mem_iff.1 hx) with rfl | hx
    · refine ⟨?_, hm⟩
      rw [htable, List.length_append, (h.shaped v hv).length, (h.shaped u hu).length, hpages]
    · exact h.shaped x (hl.mem_iff.2 (by simp [hx]))
  refine ⟨⟨hvad, hj.noneEmpty h.noneEmpty, hshape, hids.nodup_iff.2 h.ids,
    fun x hx => h.live x (hids.mem_iff.1 hx)⟩, ?_, fun lo hi hw => hj.within h.vads.ok hw⟩
  funext q
  have hprot : m.prot = u.prot := hj.prot_eq.trans hj.prot
  have hlen := (h.shaped v hv).length
  refine hj.dataAt h.vads.apart hvad.apart hok.le hok'.le (fun hp => ?_) (fun hp => ?_)
  · obtain ⟨hp1, hp2⟩ := hp
    have hidx : (q * 4096 - m.start) / 4096 = (q * 4096 - v.start) / 4096 := by rw [h5]
    have hlt : (q * 4096 - v.start) / 4096 < v.table.length := by
      have := hok.start
      omega
    rw [Slot.view, Slot.view, hj.prot_eq, Slot.content, Slot.content, htable, hidx,
      List.getD_append _ _ _ _ hlt]
  · obtain ⟨hp1, hp2⟩ := hp
    have hidx : (q * 4096 - m.start) / 4096 =
        v.table.length + (q * 4096 - u.start) / 4096 := by
      have := hok.start
      have := hok'.start
      omega
    rw [Slot.view, Slot.view, hprot, Slot.content, Slot.content, htable, hidx,
      List.getD_append_right _ _ _ _ (Nat.le_add_right _ _), Nat.add_sub_cancel_left]

end

end Aegis
