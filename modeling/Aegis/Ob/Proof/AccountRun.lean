import Aegis.Ob.Proof.Account
import Aegis.Ob.Proof.Cases

/-!
# The handle-table operations keep the accounts

One lemma for each operation: it returns, and the references from outside change by what it hands
to its caller. `ht_accounting`: the counts agree with the holders after every run.
-/

namespace Aegis

open Outcome Finset

variable {op : HtOp} {s : HtState}

namespace World

section
variable {w w' : World} {own : Nat → Nat} {p o i : Nat}
variable {cur : Option Nat}

section
variable (h : Accounts w own) (hp : p < w.nobj)
include h hp

theorem Accounts.slot_live (hi : i ∈ Finset.Ico 1 handleTableSlots)
    (ho : ((w.handles p).slots i).object = some o) : w.Live o := by
  have h1 : 0 < Count.count (Finset.Ico 1 handleTableSlots)
      (fun j => ((w.handles p).slots j).object) o := Count.count_pos hi ho
  have h2 : 0 < w.slotRefs o := sum_pos' (fun _ _ => Nat.zero_le _)
    ⟨p, mem_range.2 hp, h1⟩
  exact h.live (by simp only [refs]; omega)

theorem htInsertEx_accounts (ho : w.Live o) (access : Access) (inherit protectClose : Bool) :
    Accounts (w.htInsertEx p o access inherit protectClose).2.2 own ∧
      (w.htInsertEx p o access inherit protectClose).2.2.nobj = w.nobj := by
  rcases htInsertEx_cases w p o access inherit protectClose with ⟨-, he⟩ | ⟨i, -, hi, hn, he⟩
  · rw [he]
    exact ⟨h, rfl⟩
  · rw [he]
    refine ⟨?_, (openFn_kept _ _).nobj⟩
    have h1 := obReference_accounts h ho
    exact (fill_accounts h1 hp hi hn rfl _).openFn ho.1 _

theorem htLookupEx_accounts (hd : Handle) (required : Access) (expect : Option ObjKind) :
    ((w.htLookupEx p hd required expect).2.1 = none ∧ (w.htLookupEx p hd required expect).2.2 = w) ∨
      ∃ o acc, (w.htLookupEx p hd required expect).2.1 = some (o, acc) ∧ w.Live o ∧
        (w.htLookupEx p hd required expect).2.2 = w.obReference o ∧
        Accounts (w.obReference o) (gain own o) := by
  rcases htLookupEx_cases w p hd required expect with ⟨st, -, he⟩ | ⟨i, o, hr, -, -, he⟩
  · rw [he]
    exact .inl ⟨rfl, rfl⟩
  · obtain ⟨hi, -, -, ho, -⟩ := resolve_eq_some.1 hr
    have hlive := h.slot_live hp hi ho
    rw [he]
    exact .inr ⟨o, _, rfl, hlive, rfl, obReference_accounts h hlive⟩

theorem release_accounts (hi : i ∈ Finset.Ico 1 handleTableSlots)
    (ho : ((w.handles p).slots i).object = some o) (acc : Access) (used : Nat) :
    ∃ w', (w.setTable p ((w.handles p).set i (emptied ((w.handles p).slots i)) used)).releaseHandle
      o acc = .ok w' ∧ Accounts w' own ∧ w'.nobj = w.nobj ∧
      w'.handles p = (w.handles p).set i (emptied ((w.handles p).slots i)) used := by
  have hlive := h.slot_live hp hi ho
  have hk := closeFn_kept (w := w) o acc
  -- `close_fn` and the table write do not see each other
  have hcomm : (w.setTable p ((w.handles p).set i (emptied ((w.handles p).slots i)) used)).closeFn
      o acc = (w.closeFn o acc).setTable p
        (((w.closeFn o acc).handles p).set i (emptied ((w.handles p).slots i)) used) := by
    rw [hk.handles]
    unfold closeFn
    rw [obj_setTable]
    split <;> rfl
  have h1 := h.closeFn hlive.1 acc
  have h2 := empty_accounts h1 (by rwa [hk.nobj]) hi (by rwa [hk.handles])
    (e := emptied ((w.handles p).slots i)) rfl used
  obtain ⟨w', hw', h3⟩ := obDereference_accounts h2
  have hk' := (decHandleCount_kept o).trans (obDereference_kept hw')
  refine ⟨w', ?_, h3, ?_, ?_⟩
  · rw [releaseHandle, hcomm]
    exact hw'
  · rw [hk'.nobj, nobj_setTable, hk.nobj]
  · rw [hk'.handles, handles_setTable_self, hk.handles]

theorem htClose_accounts (hd : Handle) :
    ∃ st w', w.htClose p hd = .ok (st, w') ∧ Accounts w' own ∧ w'.nobj = w.nobj := by
  rcases htClose_cases w p hd with ⟨-, he⟩ | ⟨i, o, hr, ⟨-, he⟩ | ⟨-, he⟩⟩
  · exact ⟨_, w, he, h, rfl⟩
  · exact ⟨_, w, he, h, rfl⟩
  · obtain ⟨hi, -, -, ho, -⟩ := resolve_eq_some.1 hr
    obtain ⟨w', hw', h', hn, -⟩ := release_accounts h hp hi ho ((w.handles p).slots i).access
      (Word.sub 32 (w.handles p).used 1)
    exact ⟨.success, w', by rw [he, hw']; rfl, h', hn⟩

end

def usedSlots (t : HandleTable) : Finset Nat :=
  (Finset.Ico 1 handleTableSlots).filter fun i => (t.slots i).object ≠ none

theorem mem_usedSlots {t : HandleTable} :
    i ∈ usedSlots t ↔ i ∈ Finset.Ico 1 handleTableSlots ∧ (t.slots i).object ≠ none :=
  mem_filter

theorem usedSlots_emptied (t : HandleTable) (i used : Nat) :
    usedSlots (t.set i (emptied (t.slots i)) used) = (usedSlots t).erase i := by
  ext j
  rw [mem_usedSlots, mem_erase, mem_usedSlots]
  by_cases hj : j = i
  · subst hj; simp [emptied, HandleTable.set]
  · simp [HandleTable.set, hj]

/-- The loop of `ht_destroy` ends: every round empties a slot. -/
theorem destroyLoop_accounts (p : Nat) : ∀ (k : Nat) (w : World),
    (usedSlots (w.handles p)).card < k → Accounts w own → p < w.nobj →
    ∃ w', destroyLoop p k w = .ok w' ∧ Accounts w' own ∧ w'.nobj = w.nobj
  | 0, _, hk, _, _ => absurd hk (Nat.not_lt_zero _)
  | k + 1, w, hk, h, hp => by
    simp only [destroyLoop]
    split
    · exact ⟨w, rfl, h, rfl⟩
    · rename_i i hf
      obtain ⟨hi, o, ho⟩ := firstUsed_spec hf
      obtain ⟨w1, hw1, h1, hn1, ht1⟩ := release_accounts h hp hi ho ((w.handles p).slots i).access
        ((w.handles p).used - 1)
      have hmem : i ∈ usedSlots (w.handles p) := mem_usedSlots.2 ⟨hi, by simp [ho]⟩
      have hcard : (usedSlots (w1.handles p)).card < k := by
        rw [ht1, usedSlots_emptied, card_erase_of_mem hmem]
        have := card_pos.2 ⟨i, hmem⟩
        omega
      obtain ⟨w', hw', h', hn'⟩ := destroyLoop_accounts p k w1 hcard h1 (by omega)
      refine ⟨w', ?_, h', by omega⟩
      rw [ho]
      simp only [hw1, ok_bind, hw']

theorem htDestroy_accounts (h : Accounts w own) (hp : p < w.nobj) :
    ∃ w', w.htDestroy p = .ok w' ∧ Accounts w' own ∧ w'.nobj = w.nobj := by
  refine destroyLoop_accounts p _ w ?_ h hp
  calc (usedSlots (w.handles p)).card ≤ (Finset.Ico 1 handleTableSlots).card :=
        card_filter_le _ _
    _ < handleTableSlots := by simp [handleTableSlots]

/-! ## Duplication and inheritance -/

theorem live_obReference (w : World) (x y : Nat) : (w.obReference x).Live y ↔ w.Live y := by
  by_cases h : y = x
  · subst h; simp [Live, obReference]
  · simp [Live, obReference, h]

theorem insertDrop_accounts (h : Accounts w (gain own o)) (hp : p < w.nobj) (access : Access)
    (inherit protectClose : Bool) :
    ∃ w', (w.htInsertEx p o access inherit protectClose).2.2.obDereference o = .ok w' ∧
      Accounts w' own ∧ w'.nobj = w.nobj := by
  obtain ⟨h1, hn⟩ := htInsertEx_accounts h hp (h.live (o := o) (by simp [refs])) access inherit protectClose
  obtain ⟨w', hw', h'⟩ := obDereference_accounts h1
  exact ⟨w', hw', h', (obDereference_kept hw').nobj.trans hn⟩

theorem htDuplicate_accounts (h : Accounts w own) {dst : Nat} (hp : p < w.nobj) (hd : dst < w.nobj)
    (hdl : Handle) (access : Access) :
    ∃ st out w', w.htDuplicate p hdl dst access = .ok (st, out, w') ∧ Accounts w' own ∧
      w'.nobj = w.nobj := by
  rcases htDuplicate_cases w p hdl dst access with ⟨st, -, he⟩ | ⟨i, o, hr, he⟩
  · exact ⟨st, none, w, he, h, rfl⟩
  · obtain ⟨hi, -, -, ho, -⟩ := resolve_eq_some.1 hr
    have h1 := obReference_accounts h (h.slot_live hp hi ho)
    obtain ⟨w', hw', h', hn⟩ := insertDrop_accounts h1 hd
      (if access = 0 then ((w.handles p).slots i).access else access) false false
    exact ⟨_, _, w', he.trans (congrArg (· >>= _) hw'), h', hn⟩

/-- A reference more to every object of the list. -/
def gainAll (own : Nat → Nat) : List (Nat × Access) → Nat → Nat
  | [] => own
  | x :: l => gain (gainAll own l) x.1

theorem gain_comm (own : Nat → Nat) (x y : Nat) : gain (gain own x) y = gain (gain own y) x := by
  funext z
  by_cases hx : z = x <;> by_cases hy : z = y <;> simp_all [gain, Function.update_apply]

theorem gainAll_gain (own : Nat → Nat) (l : List (Nat × Access)) (x : Nat) :
    gainAll (gain own x) l = gain (gainAll own l) x := by
  induction l with
  | nil => rfl
  | cons y l ih => simp only [gainAll, ih, gain_comm]

theorem references_accounts (l : List (Nat × Access)) (h : Accounts w own)
    (hl : ∀ x ∈ l, w.Live x.1) :
    Accounts (l.foldl (fun w x => w.obReference x.1) w) (gainAll own l) ∧
      (l.foldl (fun w x => w.obReference x.1) w).nobj = w.nobj := by
  induction l generalizing w own with
  | nil => exact ⟨h, rfl⟩
  | cons x l ih =>
    have h1 := obReference_accounts h (hl x (by simp))
    have := ih h1 fun y hy => (live_obReference w x.1 y.1).2 (hl y (by simp [hy]))
    rw [gainAll_gain] at this
    exact this

theorem inheritLoop_accounts (l : List (Nat × Access)) (st : Status)
    (h : Accounts w (gainAll own l)) (hp : p < w.nobj) :
    ∃ st' w', inheritLoop p l st w = .ok (st', w') ∧ Accounts w' own ∧ w'.nobj = w.nobj := by
  induction l generalizing w st with
  | nil => exact ⟨st, w, rfl, h, rfl⟩
  | cons x l ih =>
    obtain ⟨w1, hw1, h1, hn1⟩ := insertDrop_accounts h hp x.2 true false
    obtain ⟨st', w', hw', h', hn'⟩ := ih (if ntSuccess (w.htInsertEx p x.1 x.2 true false).1 = false
      ∧ ntSuccess st then (w.htInsertEx p x.1 x.2 true false).1 else st) h1 (by omega)
    refine ⟨st', w', ?_, h', by omega⟩
    simp only [inheritLoop, hw1, ok_bind]
    exact hw'

theorem htInheritTable_accounts (h : Accounts w own) {src : Nat} (hs : src < w.nobj)
    (hp : p < w.nobj) :
    ∃ st w', w.htInheritTable src p = .ok (st, w') ∧ Accounts w' own ∧ w'.nobj = w.nobj := by
  obtain ⟨h1, hn1⟩ := references_accounts (inheritable (w.handles src)) h fun x hx => by
    obtain ⟨i, hi, -, ho, -⟩ := mem_inheritable hx
    exact h.slot_live hs hi ho
  obtain ⟨st, w', hw', h', hn'⟩ := inheritLoop_accounts (p := p) _ .success h1 (by omega)
  exact ⟨st, w', hw', h', by omega⟩

theorem htSetInherit_accounts (h : Accounts w own) (hp : p < w.nobj) (hd : Handle)
    (inherit : Bool) : Accounts (w.htSetInherit p hd inherit).2 own ∧
      (w.htSetInherit p hd inherit).2.nobj = w.nobj := by
  rcases htSetInherit_cases w p hd inherit with ⟨-, he⟩ | ⟨i, o, hr, he⟩
  · rw [he]
    exact ⟨h, rfl⟩
  · rw [he]
    obtain ⟨hi, -, -, ho, -⟩ := resolve_eq_some.1 hr
    refine ⟨?_, rfl⟩
    have hslot : ∀ y, (w.setTable p ((w.handles p).set i { (w.handles p).slots i with inherit }
        (w.handles p).used)).slotRefs y = w.slotRefs y := fun y => by
      have := slotRefs_set hp hi { (w.handles p).slots i with inherit } (w.handles p).used y
      simpa using this
    have hlive := h.slot_live hp hi ho
    refine h.update hlive.1 rfl (fun _ _ => rfl) rfl rfl (fun y _ => hslot y) (fun _ _ => rfl) ?_
    rw [refs, hslot]
    exact h.good o hlive.1

/-! ## Creation -/

theorem newObject_slotRefs (w : World) (kind : ObjKind) (name : Option Name) :
    (w.newObject kind name).slotRefs = w.slotRefs := by
  funext y
  show ∑ q ∈ range (w.nobj + 1), _ = _
  rw [sum_range_succ, slotRefs]
  have hlast : Count.count (Finset.Ico 1 handleTableSlots)
      (fun j => (((w.newObject kind name).handles w.nobj).slots j).object) y = 0 := by
    rw [Count.count_eq_zero]
    intro j _
    simp [newObject, setTable, setNext, setPrev, HandleTable.init]
  rw [hlast, Nat.add_zero]
  refine sum_congr rfl fun q hq => ?_
  have hne : q ≠ w.nobj := by
    have := mem_range.1 hq
    omega
  simp [newObject, World.setObj, setTable, setNext, setPrev, hne]

theorem newObject_accounts (h : Accounts w own) (kind : ObjKind) (name : Option Name) :
    Accounts (w.newObject kind name) (gain own w.nobj) := by
  have h0 := h.inside w.nobj (Nat.le_refl _)
  simp only [refs] at h0
  have hobj : ∀ y, y ≠ w.nobj → (w.newObject kind name).obj y = w.obj y := fun y hy => by
    simp [newObject, World.setObj, setTable, setNext, setPrev, hy]
  have hnew : (w.newObject kind name).obj w.nobj =
      ⟨kind, truncate (name.getD []), 1, 0, false, none, 0, 0, false, 0⟩ := by
    simp [newObject, World.setObj, setTable, setNext, setPrev]
  have hslot := newObject_slotRefs w kind name
  have htok : (w.newObject kind name).tokenRefs = w.tokenRefs := by
    funext y
    show Count.count (range (w.nobj + 1)) _ _ = _
    rw [Count.count_range_succ]
    simp only [hnew, reduceCtorEq, if_false, Nat.add_zero]
    refine Count.count_congr (fun q hq => ?_) y
    rw [hobj q (by have := mem_range.1 hq; omega)]
  refine ⟨fun y hy => ?_, fun y hy => ?_, fun q hq t hqt => ?_⟩
  · rw [refs, hslot, htok]
    by_cases hyn : y = w.nobj
    · subst hyn
      rw [hnew, gain_self]
      exact ⟨by simp only; omega, by simp only; omega, by rw [if_neg (by omega)]⟩
    · rw [hobj y hyn, gain_of_ne own hyn]
      have hlt : y < w.nobj + 1 := hy
      exact h.good y (by omega)
  · have hle : w.nobj + 1 ≤ y := hy
    rw [refs, hslot, htok, gain_of_ne own (by omega)]
    exact h.inside y (by omega)
  · by_cases hqn : q = w.nobj
    · rw [hqn, hnew] at hqt
      cases hqt
    · have hlt : q < w.nobj + 1 := hq
      rw [hobj q hqn] at hqt ⊢
      have htl : 0 < w.tokenRefs t := Count.count_pos (mem_range.2 (by omega)) hqt
      rw [hobj t (by rintro rfl; omega)]
      exact h.token q (by omega) t hqt

theorem createObject_accounts (h : Accounts w own) (kind : ObjKind) (permanent heap : Bool) :
    (w.createObject kind permanent heap = .ok (none, w)) ∨
      ∃ w', w.createObject kind permanent heap = .ok (some w.nobj, w') ∧
        Accounts w' (gain own w.nobj) := by
  cases heap with
  | false => exact .inl rfl
  | true =>
    have h1 := newObject_accounts h kind none
    have hlt : w.nobj < (w.newObject kind none).nobj := Nat.lt_succ_self _
    have hg := h1.good w.nobj hlt
    refine .inr ⟨_, rfl, h1.setObj hlt rfl rfl (fun _ _ => rfl) ⟨hg.handle, hg.pointer, ?_⟩⟩
    have hpos : (w.newObject kind none).refs (gain own w.nobj) w.nobj ≠ 0 := by simp [refs]
    have hd := hg.deletes
    rw [if_neg fun hc => hpos hc.1] at hd ⊢
    exact hd

theorem setToken_accounts {t : Nat} (h : Accounts w (gain own t)) (hp : p < w.nobj)
    (hkp : (w.obj p).kind = .process) (hkt : (w.obj t).kind = .token)
    (hnone : (w.obj p).token = none) :
    Accounts (w.setObj p { w.obj p with token := some t }) own := by
  have hslot : (w.setObj p { w.obj p with token := some t }).slotRefs = w.slotRefs :=
    slotRefs_congr rfl rfl
  have htok : ∀ y, (w.setObj p { w.obj p with token := some t }).tokenRefs y =
      w.tokenRefs y + if t = y then 1 else 0 := fun y => by
    have := Count.count_set (s := range w.nobj)
      (f := fun q => ((w.setObj p { w.obj p with token := some t }).obj q).token)
      (g := fun q => (w.obj q).token) (mem_range.2 hp) (fun q _ hq => by simp [hq]) y
    simp only [obj_setObj_self, hnone, Option.some.injEq] at this
    simpa [tokenRefs] using this
  have hrefs : ∀ y, (w.setObj p { w.obj p with token := some t }).refs own y =
      w.refs (gain own t) y := fun y => by
    simp only [refs, hslot, htok]
    by_cases hy : t = y
    · subst hy
      rw [if_pos rfl, gain_self]
      omega
    · rw [if_neg hy, gain_of_ne own (Ne.symm hy)]
      rfl
  have hkept : Kept w (w.setObj p { w.obj p with token := some t }) := setObj_kept rfl rfl rfl
  refine ⟨fun y hy => ?_, fun y hy => ?_, fun q hq t' hqt => ?_⟩
  · rw [hslot, hrefs]
    by_cases hyp : y = p
    · subst hyp
      have hg := h.good y hy
      rw [obj_setObj_self]
      exact ⟨hg.handle, hg.pointer, hg.deletes⟩
    · rw [obj_setObj_of_ne _ _ _ hyp]
      exact h.good y hy
  · rw [hrefs]
    exact h.inside y hy
  · rw [hkept.kind, hkept.kind]
    by_cases hqp : q = p
    · subst hqp
      rw [obj_setObj_self] at hqt
      cases hqt
      exact ⟨hkp, hkt⟩
    · rw [obj_setObj_of_ne _ _ _ hqp] at hqt
      exact h.token q hq t' hqt

theorem pspCreateProcess_accounts (h : Accounts w own) (name : Name)
    (heap tokenHeap listed : Bool) :
    ∃ r w', w.pspCreateProcess name heap tokenHeap listed = .ok (r, w') ∧
      ((r = none ∧ Accounts w' own) ∨ (r = some w.nobj ∧
        Accounts w' (if listed then gain (gain own w.nobj) w.nobj else gain own w.nobj))) := by
  cases heap with
  | false => exact ⟨none, w, rfl, .inl ⟨rfl, h⟩⟩
  | true =>
    have h1 := newObject_accounts h .process (some name)
    cases tokenHeap with
    | false =>
      -- the process goes again
      obtain ⟨w', hw', h'⟩ := obDereference_accounts h1
      refine ⟨none, w', ?_, .inl ⟨rfl, h'⟩⟩
      show ((w.newObject .process (some name)).obDereference w.nobj >>= fun w => _) = _
      rw [hw']
      rfl
    | true =>
      have h2 := newObject_accounts h1 .token none
      let w2 := (w.newObject .process (some name)).newObject .token none
      have hne : w.nobj ≠ w.nobj + 1 := by omega
      have hp : w2.obj w.nobj = ⟨.process, truncate name, 1, 0, false, none, 0, 0, false, 0⟩ := by
        simp [w2, newObject, World.setObj, setTable, setNext, setPrev]
      have ht : (w2.obj (w.nobj + 1)).kind = .token := by
        simp [w2, newObject, World.setObj, setTable, setNext, setPrev]
      have h3 := setToken_accounts (w := w2) (p := w.nobj) h2
        (show w.nobj < w.nobj + 1 + 1 by omega) (by rw [hp]) ht (by rw [hp])
      cases listed with
      | false => exact ⟨some w.nobj, _, rfl, .inr ⟨rfl, h3⟩⟩
      | true =>
        refine ⟨some w.nobj, _, rfl, .inr ⟨rfl, obReference_accounts h3 (h3.live ?_)⟩⟩
        simp [refs]

/-! ## `NtDuplicateObject` -/

/-- A reference more, if there is an object. -/
def gainOpt (own : Nat → Nat) : Option Nat → Nat → Nat
  | none => own
  | some o => gain own o

theorem processArg_accounts (h : Accounts w own) (hcur : ∀ c ∈ cur, c < w.nobj) (hd : Handle)
    (right : Access) :
    ((w.processArg cur hd right).1 ≠ .success ∧ (w.processArg cur hd right).2.2 = w) ∨
      ((w.processArg cur hd right).1 = .success ∧
        (w.processArg cur hd right).2.2.nobj = w.nobj ∧
        (∀ q ∈ (w.processArg cur hd right).2.1, q < w.nobj) ∧
        Accounts (w.processArg cur hd right).2.2
          (gainOpt own (if hd = handleCurrent then none else (w.processArg cur hd right).2.1))) := by
  unfold processArg
  by_cases hc : hd = handleCurrent
  · rw [if_pos hc, if_pos hc]
    exact .inr ⟨rfl, rfl, hcur, h⟩
  · rw [if_neg hc, if_neg hc]
    cases cur with
    | none => exact .inl ⟨by simp, rfl⟩
    | some c =>
      rcases htLookupEx_cases w c hd right (some .process) with
        ⟨st, hst, he⟩ | ⟨i, o, hr, -, -, he⟩
      · simp only [he]
        exact .inl ⟨hst, trivial⟩
      · obtain ⟨hi, -, -, ho, -⟩ := resolve_eq_some.1 hr
        have hlive := h.slot_live (hcur c rfl) hi ho
        simp only [he]
        refine .inr ⟨trivial, rfl, ?_, obReference_accounts h hlive⟩
        simpa using hlive.1

theorem gainOpt_comm (own : Nat → Nat) (x y : Option Nat) :
    gainOpt (gainOpt own x) y = gainOpt (gainOpt own y) x := by
  cases x <;> cases y <;> simp only [gainOpt, gain_comm]

theorem obDereferenceOpt_accounts {q : Option Nat} (h : Accounts w (gainOpt own q)) :
    ∃ w', w.obDereferenceOpt q = .ok w' ∧ Accounts w' own := by
  cases q with
  | none => exact ⟨w, rfl, h⟩
  | some o => exact obDereference_accounts h

theorem inheritResult_accounts (h : Accounts w own) (hp : p < w.nobj) (flags : BitVec 32)
    (out : Option Handle) :
    Accounts (w.inheritResult p flags out) own ∧ (w.inheritResult p flags out).nobj = w.nobj := by
  cases out with
  | none => exact ⟨h, rfl⟩
  | some hd =>
    simp only [inheritResult]
    split
    · exact htSetInherit_accounts h hp hd true
    · exact ⟨h, rfl⟩

theorem duplicateWith_accounts (h : Accounts w own) {s d : Nat} (hs : s < w.nobj)
    (hd : d < w.nobj) (src : Handle) (access : Access) (flags : BitVec 32) :
    ∃ st out w', w.duplicateWith s src d access flags = .ok (st, out, w') ∧ Accounts w' own ∧
      w'.nobj = w.nobj := by
  obtain ⟨st, out, w1, he, h1, hn1⟩ := htDuplicate_accounts h hs hd src
    (if flags &&& duplicateSameAccess ≠ 0 then 0 else access)
  obtain ⟨h2, hn2⟩ := inheritResult_accounts h1 (p := d) (by omega) flags out
  simp only [duplicateWith, he, ok_bind]
  split
  · obtain ⟨st', w', hw', h', hn'⟩ := htClose_accounts h2 (p := s) (by omega) src
    exact ⟨st, out, w', by rw [hw']; rfl, h', by omega⟩
  · exact ⟨st, out, _, rfl, h2, by omega⟩

theorem duplicateBetween_accounts (h : Accounts w own) {sp dp : Option Nat}
    (hs : ∀ q ∈ sp, q < w.nobj) (hd : ∀ q ∈ dp, q < w.nobj) (src : Handle) (access : Access)
    (flags : BitVec 32) :
    ∃ st out w', w.duplicateBetween sp dp src access flags = .ok (st, out, w') ∧
      Accounts w' own := by
  unfold duplicateBetween
  split
  · obtain ⟨st, out, w', he, h', -⟩ := duplicateWith_accounts h (hs _ rfl) (hd _ rfl) src access
      flags
    exact ⟨st, out, w', he, h'⟩
  · exact ⟨_, _, w, rfl, h⟩

theorem ntDuplicateObject_accounts (h : Accounts w own) (hcur : ∀ c ∈ cur, c < w.nobj)
    (srcProc src dstProc : Handle) (access : Access) (flags : BitVec 32) :
    ∃ st out w', w.ntDuplicateObject cur srcProc src dstProc access flags = .ok (st, out, w') ∧
      Accounts w' own := by
  simp only [ntDuplicateObject]
  rcases processArg_accounts h hcur srcProc processDupHandle with ⟨hst, hw⟩ | ⟨hst, hn1, hsp, h1⟩
  · rw [if_pos ((ntSuccess_eq_false _).2 hst), hw]
    exact ⟨_, none, w, rfl, h⟩
  · rw [if_neg (by simp [(ntSuccess_iff _).2 hst])]
    generalize w.processArg cur srcProc processDupHandle = r1 at hst hn1 hsp h1 ⊢
    obtain ⟨st1, sp, w1⟩ := r1
    simp only at hst hn1 hsp h1 ⊢
    rcases processArg_accounts h1 (fun c (hc : c ∈ cur) => by rw [hn1]; exact hcur c hc) dstProc
      processDupHandle with ⟨hst2, hw⟩ | ⟨hst2, hn2, hdp, h2⟩
    · rw [if_pos ((ntSuccess_eq_false _).2 hst2), hw]
      obtain ⟨w', hw', h'⟩ := obDereferenceOpt_accounts h1
      exact ⟨_, none, w', by rw [hw']; rfl, h'⟩
    · rw [if_neg (by simp [(ntSuccess_iff _).2 hst2])]
      generalize w1.processArg cur dstProc processDupHandle = r2 at hst2 hn2 hdp h2 ⊢
      obtain ⟨st2, dp, w2⟩ := r2
      simp only at hst2 hn2 hdp h2 ⊢
      rw [gainOpt_comm] at h2
      obtain ⟨st, out, w3, he, h3⟩ := duplicateBetween_accounts h2
        (fun q hq => by rw [hn2, hn1]; exact hsp q hq) (fun q hq => by rw [hn2]; exact hdp q hq)
        src access flags
      obtain ⟨w4, hw4, h4⟩ := obDereferenceOpt_accounts h3
      obtain ⟨w5, hw5, h5⟩ := obDereferenceOpt_accounts h4
      refine ⟨st, out, w5, ?_, h5⟩
      simp only [he, ok_bind, hw4, hw5]
      rfl

end

/-! ## Runs -/

theorem blank_accounts : Accounts blank fun _ => 0 :=
  ⟨fun o ho => absurd ho (Nat.not_lt_zero o), fun _ _ => rfl,
    fun p hp => absurd hp (Nat.not_lt_zero p)⟩

end World

open World

theorem ownStep_eq {w' : World} {l : List Nat} (he : s.world.htStep op = .ok (w', l))
    (hd : ∀ o, op ≠ .dereference o) : ownStep s op = some ⟨w', fun o => s.own o + l.count o⟩ := by
  cases op with
  | dereference o => exact absurd rfl (hd o)
  | _ => simp [ownStep, he, get?]

theorem gain_count (own : Nat → Nat) (o : Nat) (l : List Nat) :
    (fun y => own y + List.count y (o :: l)) = gain (fun y => own y + List.count y l) o := by
  funext y
  by_cases hy : y = o
  · subst hy
    simp only [List.count_cons_self, gain_self]
    omega
  · simp [gain_of_ne _ hy, Ne.symm hy]

theorem count_nil (own : Nat → Nat) : (fun y => own y + List.count y []) = own := by
  funext y
  simp

/-- A step that its caller may take returns, and keeps the accounts. -/
theorem ownStep_accounts (h : Accounts s.world s.own) (hok : HtOk s op) :
    ∃ s', ownStep s op = some s' ∧ Accounts s'.world s'.own := by
  obtain ⟨w, own⟩ := s
  simp only at h
  -- what the caller holds after a step that hands it nothing, and after one that hands it `o`
  have hnone : ∀ {w'}, Accounts w' own → Accounts w' fun y => own y + List.count y [] :=
    fun h' => by rwa [count_nil]
  have hone : ∀ {w' o}, Accounts w' (gain own o) → Accounts w' fun y => own y + List.count y [o] :=
    fun h' => by rwa [gain_count, count_nil]
  cases op with
  | create kind permanent heap =>
    rcases createObject_accounts h kind permanent heap with he | ⟨w', he, h'⟩
    · exact ⟨_, ownStep_eq (by simp only [htStep, he]; rfl) (by simp), hnone h⟩
    · exact ⟨_, ownStep_eq (by simp only [htStep, he]; rfl) (by simp), hone h'⟩
  | createProcess name heap tokenHeap listed =>
    obtain ⟨r, w', he, ⟨rfl, h'⟩ | ⟨rfl, h'⟩⟩ := pspCreateProcess_accounts h name heap tokenHeap
      listed
    · refine ⟨_, ownStep_eq (l := []) ?_ (by simp), hnone h'⟩
      simp only [htStep, he]
      cases listed <;> rfl
    · cases listed with
      | false => exact ⟨_, ownStep_eq (by simp only [htStep, he]; rfl) (by simp), hone h'⟩
      | true =>
        refine ⟨_, ownStep_eq (l := [w.nobj, w.nobj]) (by simp only [htStep, he]; rfl) (by simp), ?_⟩
        simpa only [gain_count, count_nil, if_true] using h'
  | insert p o access inherit protectClose =>
    exact ⟨_, ownStep_eq rfl (by simp),
      hnone (htInsertEx_accounts h hok.1 hok.2 access inherit protectClose).1⟩
  | lookup p hd required expect =>
    rcases htLookupEx_accounts h hok hd required expect with ⟨he, hw⟩ | ⟨o, acc, he, -, hw, h'⟩
    · exact ⟨_, ownStep_eq (by simp only [htStep, he, hw]; rfl) (by simp), hnone h⟩
    · exact ⟨_, ownStep_eq (by simp only [htStep, he, hw]; rfl) (by simp), hone h'⟩
  | close p hd =>
    obtain ⟨st, w', he, h', -⟩ := htClose_accounts h hok hd
    exact ⟨_, ownStep_eq (by simp only [htStep, he]; rfl) (by simp), hnone h'⟩
  | duplicate src hd dst access =>
    obtain ⟨st, out, w', he, h', -⟩ := htDuplicate_accounts h hok.1 hok.2 hd access
    exact ⟨_, ownStep_eq (by simp only [htStep, he]; rfl) (by simp), hnone h'⟩
  | ntDuplicate cur srcProc src dstProc access flags =>
    obtain ⟨st, out, w', he, h'⟩ := ntDuplicateObject_accounts h hok srcProc src dstProc access flags
    exact ⟨_, ownStep_eq (by simp only [htStep, he]; rfl) (by simp), hnone h'⟩
  | inherit src dst =>
    obtain ⟨st, w', he, h', -⟩ := htInheritTable_accounts h hok.1 hok.2
    exact ⟨_, ownStep_eq (by simp only [htStep, he]; rfl) (by simp), hnone h'⟩
  | setInherit p hd inherit =>
    exact ⟨_, ownStep_eq rfl (by simp), hnone (htSetInherit_accounts h hok hd inherit).1⟩
  | destroy p =>
    obtain ⟨w', he, h', -⟩ := htDestroy_accounts h hok
    exact ⟨_, ownStep_eq (by simp only [htStep, he]; rfl) (by simp), hnone h'⟩
  | reference o => exact ⟨_, ownStep_eq rfl (by simp), hone (obReference_accounts h hok)⟩
  | dereference o =>
    have hpos : 0 < own o := hok
    have hgain : own = gain (fun y => if y = o then own y - 1 else own y) o := by
      funext y
      by_cases hy : y = o
      · subst hy
        rw [gain_self, if_pos rfl]
        omega
      · rw [gain_of_ne _ hy, if_neg hy]
    rw [hgain] at h
    obtain ⟨w', he, h'⟩ := obDereference_accounts h
    refine ⟨⟨w', fun y => if y = o then own y - 1 else own y⟩, ?_, h'⟩
    simp only [ownStep, htStep, he]
    rfl

/-- **Reference accounting**: after every run from the empty world in which each plain
`ob_dereference` drops a reference its caller owns, the counts of an object are the numbers of
those who hold it, and it is deleted once, when nobody does. -/
theorem ht_accounting {ops : List HtOp}
    (hl : Run.Legal ownStep HtOk ⟨World.blank, fun _ => 0⟩ ops) :
    ∃ s, Run.run ownStep ⟨World.blank, fun _ => 0⟩ ops = some s ∧ Accounting s := by
  obtain ⟨s, hr, h⟩ := Run.run_inv (I := fun s => Accounts s.world s.own)
    (fun s op hI hok => ownStep_accounts hI hok) blank_accounts hl
  refine ⟨s, hr, fun o ho => (h.good o ho).handle, fun o ho => ?_, fun o ho hp => ?_,
    fun o ho hp => ?_⟩
  · rw [(h.good o ho).handle, (h.good o ho).pointer, refs, HtState.owned]
    omega
  · rw [(h.good o ho).deletes, refs, HtState.owned]
    simp only [hp, and_true, Nat.add_assoc]
  · rw [(h.good o ho).deletes, hp]
    simp

/-- A process opens an event, its creator lets go, and the handle is closed. -/
def openAndClose : List HtOp :=
  [.createProcess [] true true true, .create .event false true, .insert 0 2 0 false false,
    .dereference 2, .close 0 (handleValue 1 1)]

theorem ht_accounting_openAndClose :
    ∃ s, Run.run ownStep ⟨World.blank, fun _ => 0⟩ openAndClose = some s ∧ Accounting s :=
  ht_accounting (by decide +kernel)

end Aegis
