import Aegis.Ob.Proof.Frame

/-!
# Reference accounting

`Accounts w own`: the counts of every object agree with its holders, where `own` are the references
that are neither a slot nor a token. The functions are made of a few transfers of one reference:
it is taken from outside (`obReference_accounts`) or given up (`obDereference_accounts`, which may
delete the object and then gives up the token of a process), and it moves into a slot and out of
one (`fill_accounts`, `empty_accounts`).
-/

namespace Aegis.World

open Function Finset

/-- The counts of an object that `slots` handles and `refs` references in all name. -/
structure Good (x : Obj) (slots refs : Nat) : Prop where
  handle : x.handleCount = slots
  pointer : x.pointerCount = refs
  deletes : x.deletes = if refs = 0 ∧ x.permanent = false then 1 else 0

/-- Everybody who refers to `o`. -/
def refs (w : World) (own : Nat → Nat) (o : Nat) : Nat := w.slotRefs o + own o + w.tokenRefs o

/-- The counts of every object are those of its references. -/
structure Accounts (w : World) (own : Nat → Nat) : Prop where
  good : ∀ o < w.nobj, Good (w.obj o) (w.slotRefs o) (w.refs own o)
  inside : ∀ o, w.nobj ≤ o → w.refs own o = 0
  token : ∀ p < w.nobj, ∀ t, (w.obj p).token = some t →
    (w.obj p).kind = .process ∧ (w.obj t).kind = .token

/-- One more reference to `o`. -/
def gain (own : Nat → Nat) (o : Nat) : Nat → Nat := update own o (own o + 1)

@[simp] theorem gain_self (own : Nat → Nat) (o : Nat) : gain own o o = own o + 1 := by
  simp [gain]

@[simp] theorem gain_of_ne (own : Nat → Nat) {o y : Nat} (h : y ≠ o) :
    gain own o y = own y := by simp [gain, h]

section
variable {w w' : World} {own : Nat → Nat} {o : Nat}
variable {n slots t : Nat} {x : Obj} {own' : Nat → Nat} {e : HandleEntry}
  {del : World → Nat → Outcome World}

theorem slotRefs_congr (hn : w'.nobj = w.nobj) (hh : w'.handles = w.handles) :
    w'.slotRefs = w.slotRefs := by
  funext o
  simp only [slotRefs, hn, hh]

theorem tokenRefs_congr (hn : w'.nobj = w.nobj) (ht : ∀ p, (w'.obj p).token = (w.obj p).token) :
    w'.tokenRefs = w.tokenRefs := by
  funext o
  simp only [tokenRefs, hn, ht]

section
variable (h : Accounts w own)
include h

theorem Accounts.lt (ho : 0 < w.refs own o) : o < w.nobj := by
  by_contra hlt
  have := h.inside o (Nat.le_of_not_lt hlt)
  omega

/-- An object that somebody refers to has not been deleted. -/
theorem Accounts.live (ho : 0 < w.refs own o) : w.Live o := by
  have hlt := h.lt ho
  refine ⟨hlt, ?_⟩
  rw [(h.good o hlt).deletes, if_neg (by omega)]

theorem Accounts.update (ho : o < w.nobj) (hn : w'.nobj = w.nobj)
    (hobj : ∀ y, y ≠ o → w'.obj y = w.obj y) (hk : (w'.obj o).kind = (w.obj o).kind)
    (ht : (w'.obj o).token = (w.obj o).token) (hslot : ∀ y, y ≠ o → w'.slotRefs y = w.slotRefs y)
    (hext : ∀ y, y ≠ o → own' y = own y) (hx : Good (w'.obj o) (w'.slotRefs o) (w'.refs own' o)) :
    Accounts w' own' := by
  have htok : w'.tokenRefs = w.tokenRefs := tokenRefs_congr hn fun p => by
    by_cases hp : p = o
    · rw [hp, ht]
    · rw [hobj p hp]
  have hkind : ∀ y, (w'.obj y).kind = (w.obj y).kind := fun y => by
    by_cases hy : y = o
    · rw [hy, hk]
    · rw [hobj y hy]
  have hrefs : ∀ y, y ≠ o → w'.refs own' y = w.refs own y := fun y hy => by
    simp only [refs, hslot y hy, hext y hy, htok]
  refine ⟨fun y hy => ?_, fun y hy => ?_, fun p hp t hpt => ?_⟩
  · by_cases hyo : y = o
    · rw [hyo]
      exact hx
    · rw [hobj y hyo, hslot y hyo, hrefs y hyo]
      exact h.good y (by omega)
  · rw [hrefs y (by omega)]
    exact h.inside y (by omega)
  · rw [hkind, hkind]
    refine h.token p (by omega) t ?_
    by_cases hpo : p = o
    · rw [hpo] at hpt ⊢
      rw [← ht, hpt]
    · rw [← hobj p hpo, hpt]

theorem Accounts.setObj (ho : o < w.nobj) (hk : x.kind = (w.obj o).kind)
    (ht : x.token = (w.obj o).token) (hext : ∀ y, y ≠ o → own' y = own y)
    (hx : Good x (w.slotRefs o) (w.refs own' o)) : Accounts (w.setObj o x) own' := by
  have hslot : (w.setObj o x).slotRefs = w.slotRefs := slotRefs_congr rfl rfl
  have htok : (w.setObj o x).tokenRefs = w.tokenRefs := tokenRefs_congr rfl fun p => by
    by_cases hp : p = o
    · subst hp; simp [ht]
    · simp [hp]
  refine h.update ho rfl (fun y hy => obj_setObj_of_ne _ _ _ hy) (by simpa using hk)
    (by simpa using ht) (fun y _ => by rw [hslot]) hext ?_
  simpa only [obj_setObj_self, refs, hslot, htok] using hx

theorem obReference_accounts (ho : w.Live o) : Accounts (w.obReference o) (gain own o) := by
  have hg := h.good o ho.1
  refine h.setObj ho.1 rfl rfl (fun y hy => gain_of_ne own hy) ⟨hg.handle, ?_, ?_⟩
  · simp only [hg.pointer, refs, gain_self]
    omega
  · simp only [ho.2, refs, gain_self]
    rw [if_neg (by omega)]

end

theorem Good.congr {y : Obj} (h : Good x slots n) (hs : SameCounts x y) : Good y slots n where
  handle := hs.handleCount.trans h.handle
  pointer := hs.pointerCount.trans h.pointer
  deletes := by rw [hs.deletes, hs.permanent]; exact h.deletes

theorem Accounts.openFn (h : Accounts w own) (ho : o < w.nobj) (acc : Access) :
    Accounts (w.openFn o acc) own := by
  have hs := pipeOpen_same (w.obj o) acc
  unfold World.openFn
  split
  · exact h.setObj ho hs.kind hs.token (fun _ _ => rfl) ((h.good o ho).congr hs)
  · exact h

theorem Accounts.closeFn (h : Accounts w own) (ho : o < w.nobj) (acc : Access) :
    Accounts (w.closeFn o acc) own := by
  have hs := pipeClose_same (w.obj o) acc
  unfold World.closeFn
  split
  · exact h.setObj ho hs.kind hs.token (fun _ _ => rfl) ((h.good o ho).congr hs)
  · exact h

/-! ## Dropping a reference -/

theorem Good.last (h : Good x 0 1) (hp : x.permanent = false) :
    x.pointerCount = 1 ∧ x.handleCount = 0 ∧ x.permanent = false ∧
      Good { x with pointerCount := x.pointerCount - 1, deletes := x.deletes + 1 } 0 0 := by
  have hd := h.deletes
  rw [if_neg (by omega)] at hd
  refine ⟨h.pointer, h.handle, hp, h.handle, ?_, ?_⟩
  · rw [h.pointer]
  · rw [hd, if_pos ⟨rfl, hp⟩]

theorem Good.drop (h : Good x slots (n + 1)) (hn : ¬ (n = 0 ∧ x.permanent = false)) :
    x.pointerCount ≠ 0 ∧ ¬ (x.pointerCount = 1 ∧ x.handleCount = 0 ∧ x.permanent = false) ∧
      Good { x with pointerCount := x.pointerCount - 1 } slots n := by
  have hd := h.deletes
  have hp := h.pointer
  rw [if_neg (by omega)] at hd
  refine ⟨by omega, fun hl => hn ⟨by omega, hl.2.2⟩, h.handle, by simp only; omega, ?_⟩
  rw [hd, if_neg hn]

theorem dropReference_drop (hg : Good (w.obj o) slots (n + 1))
    (hn : ¬ (n = 0 ∧ (w.obj o).permanent = false)) :
    w.dropReference del o = .ok (w.decPointerCount o) := by
  obtain ⟨h0, h1, -⟩ := hg.drop hn
  simp only [dropReference, h0, h1, if_false]

theorem dropReference_last (hg : Good (w.obj o) 0 1) (hp : (w.obj o).permanent = false) :
    w.dropReference del o = (del (w.decPointerCount o) o >>= fun w => .ok (w.markDeleted o)) := by
  obtain ⟨h0, h1, h2, -⟩ := hg.last hp
  simp only [dropReference]
  rw [if_neg (by omega), if_pos ⟨h0, h1, h2⟩]
  rfl

theorem dropReference_leaf (hg : Good (w.obj o) slots (n + 1)) (hs : slots ≤ n) :
    ∃ x, w.dropReference (fun w _ => .ok w) o = .ok (w.setObj o x) ∧ Good x slots n ∧
      x.kind = (w.obj o).kind ∧ x.token = (w.obj o).token := by
  by_cases hn : n = 0 ∧ (w.obj o).permanent = false
  · obtain ⟨rfl, hp⟩ := hn
    obtain rfl : slots = 0 := by omega
    refine ⟨_, ?_, (hg.last hp).2.2.2, rfl, rfl⟩
    rw [dropReference_last hg hp]
    simp [decPointerCount, markDeleted, World.setObj]
  · exact ⟨_, dropReference_drop hg hn, (hg.drop hn).2.2, rfl, rfl⟩

theorem tokenRefs_clear (ho : o < w.nobj) (ht : (w.obj o).token = some t) (hx : x.token = none)
    (y : Nat) : (w.setObj o x).tokenRefs y + (if t = y then 1 else 0) = w.tokenRefs y := by
  have := Count.count_set (s := range w.nobj) (f := fun p => ((w.setObj o x).obj p).token)
    (g := fun p => (w.obj p).token) (mem_range.2 ho)
    (fun p _ hp => by simp [hp]) y
  simp only [obj_setObj_self, hx, ht, Option.some.injEq] at this
  simp only [tokenRefs, nobj_setObj]
  simpa using this

/-- The last reference to a process goes: the process is deleted and its token loses one. -/
theorem obDereference_process (h : Accounts w (gain own o)) (hlast : w.refs own o = 0)
    (hperm : (w.obj o).permanent = false) (ht : (w.obj o).token = some t) :
    ∃ w', w.obDereference o = .ok w' ∧ Accounts w' own := by
  have ho : o < w.nobj := h.lt (by simp [refs])
  obtain ⟨hkp, hkt⟩ := h.token o ho t ht
  have hto : t ≠ o := by
    rintro rfl
    rw [hkp] at hkt
    cases hkt
  have hslot : w.slotRefs o = 0 := by simp only [refs] at hlast; omega
  have hg : Good (w.obj o) 0 1 := by
    have := h.good o ho
    rwa [hslot, show w.refs (gain own o) o = 1 by simp only [refs, gain_self] at hlast ⊢; omega]
      at this
  have htok : 0 < w.tokenRefs t := Count.count_pos (mem_range.2 ho) ht
  have htlt : t < w.nobj := h.lt (by simp only [refs]; omega)
  -- the token, which the deletion drops
  have hgt : Good ((w.decPointerCount o).obj t) (w.slotRefs t)
      (w.slotRefs t + own t + (w.tokenRefs t - 1) + 1) := by
    have := h.good t htlt
    rw [refs, gain_of_ne own hto] at this
    rw [decPointerCount, obj_setObj_of_ne _ _ _ hto, show w.slotRefs t + own t +
      (w.tokenRefs t - 1) + 1 = w.slotRefs t + own t + w.tokenRefs t by omega]
    exact this
  obtain ⟨x, hdrop, hgx, hxk, hxt⟩ := dropReference_leaf hgt (by omega)
  rw [decPointerCount, obj_setObj_of_ne _ _ _ hto] at hxk hxt
  let x0 : Obj := { w.obj o with
    pointerCount := (w.obj o).pointerCount - 1, token := none, deletes := (w.obj o).deletes + 1 }
  have hrun : w.obDereference o = .ok ((w.setObj t x).setObj o x0) := by
    rw [obDereference, dropReference_last hg hperm, deleteFn,
      show ((w.decPointerCount o).obj o).kind = .process by simpa [decPointerCount] using hkp]
    simp only [processDelete]
    rw [show ((w.decPointerCount o).obj o).token = some t by simpa [decPointerCount] using ht]
    simp only [hdrop, Outcome.ok_bind, Outcome.pure_eq, Outcome.ok.injEq]
    simp only [clearToken, markDeleted, decPointerCount, World.setObj, update_idem,
      update_self, update_of_ne hto.symm, World.mk.injEq, true_and, and_true]
    rw [update_comm hto.symm, update_idem]
  -- the accounts of the three kinds of objects: the process, its token, the others
  have htok1 : (w.setObj t x).tokenRefs = w.tokenRefs := tokenRefs_congr rfl fun p => by
    by_cases hp : p = t
    · subst hp; simp [hxt]
    · simp [hp]
  have htoks : ∀ y, ((w.setObj t x).setObj o x0).tokenRefs y + (if t = y then 1 else 0) =
      w.tokenRefs y := fun y => by
    rw [tokenRefs_clear (w := w.setObj t x) (t := t) (x := x0) ho
      (by rw [obj_setObj_of_ne _ _ _ hto.symm]; exact ht) rfl, htok1]
  have hslots : ((w.setObj t x).setObj o x0).slotRefs = w.slotRefs := slotRefs_congr rfl rfl
  have hrefs : ∀ y, y ≠ t → y ≠ o →
      ((w.setObj t x).setObj o x0).refs own y = w.refs (gain own o) y := fun y hyt hyo => by
    have := htoks y
    rw [if_neg (Ne.symm hyt)] at this
    simp only [refs, hslots, gain_of_ne own hyo]
    omega
  have hkind : ∀ y, (((w.setObj t x).setObj o x0).obj y).kind = (w.obj y).kind := fun y => by
    by_cases hyo : y = o
    · subst hyo; simp [x0]
    · by_cases hyt : y = t
      · subst hyt; simp [hto, hxk]
      · simp [hyo, hyt]
  refine ⟨_, hrun, fun y hy => ?_, fun y hy => ?_, fun p hp t' hpt => ?_⟩
  · rw [hslots]
    by_cases hyo : y = o
    · subst hyo
      have := htoks y
      rw [if_neg hto] at this
      rw [obj_setObj_self, show ((w.setObj t x).setObj y x0).refs own y = 0 by
        simp only [refs, hslots] at hlast ⊢; omega, hslot]
      have hg0 := (hg.last hperm).2.2.2
      exact ⟨hg0.handle, hg0.pointer, hg0.deletes⟩
    · by_cases hyt : y = t
      · subst hyt
        have := htoks y
        rw [if_pos rfl] at this
        rw [obj_setObj_of_ne _ _ _ hto, obj_setObj_self, show ((w.setObj y x).setObj o x0).refs
          own y = w.slotRefs y + own y + (w.tokenRefs y - 1) by simp only [refs, hslots]; omega]
        exact hgx
      · rw [obj_setObj_of_ne _ _ _ hyo, obj_setObj_of_ne _ _ _ hyt, hrefs y hyt hyo]
        exact h.good y hy
  · have hy' : w.nobj ≤ y := hy
    rw [hrefs y (by omega) (by omega)]
    exact h.inside y hy'
  · rw [hkind, hkind]
    refine h.token p hp t' ?_
    by_cases hpo : p = o
    · subst hpo
      simp [x0] at hpt
    · by_cases hpt' : p = t
      · subst hpt'
        simpa [hto, hxt] using hpt
      · simpa [hpo, hpt'] using hpt

theorem obDereference_accounts (h : Accounts w (gain own o)) :
    ∃ w', w.obDereference o = .ok w' ∧ Accounts w' own := by
  have ho : o < w.nobj := h.lt (by simp [refs])
  have hg : Good (w.obj o) (w.slotRefs o) (w.refs own o + 1) := by
    have := h.good o ho
    rwa [show w.refs (gain own o) o = w.refs own o + 1 by simp only [refs, gain_self]; omega]
      at this
  have hext : ∀ y, y ≠ o → own y = gain own o y := fun y hy => (gain_of_ne own hy).symm
  by_cases hn : w.refs own o = 0 ∧ (w.obj o).permanent = false
  · obtain ⟨h0, hperm⟩ := hn
    cases ht : (w.obj o).token with
    | some t => exact obDereference_process h h0 hperm ht
    | none =>
      have hslot : w.slotRefs o = 0 := by simp only [refs] at h0; omega
      rw [hslot, h0] at hg
      have hdel : (w.decPointerCount o).deleteFn o = .ok (w.decPointerCount o) := by
        unfold deleteFn
        split
        · simp [processDelete, decPointerCount, ht]
        · rfl
      refine ⟨w.setObj o { w.obj o with
        pointerCount := (w.obj o).pointerCount - 1, deletes := (w.obj o).deletes + 1 }, ?_,
        h.setObj ho rfl rfl hext ?_⟩
      · rw [obDereference, dropReference_last hg hperm, hdel]
        simp [decPointerCount, markDeleted, World.setObj]
      · rw [hslot, h0]
        exact (hg.last hperm).2.2.2
  · exact ⟨_, dropReference_drop hg hn, h.setObj ho rfl rfl hext (hg.drop hn).2.2⟩

/-! ## Slots -/

variable {p i : Nat}

theorem slotRefs_set (hp : p < w.nobj) (hi : i ∈ Finset.Ico 1 handleTableSlots) (e : HandleEntry)
    (used : Nat) (y : Nat) :
    (w.setTable p ((w.handles p).set i e used)).slotRefs y +
        (if ((w.handles p).slots i).object = some y then 1 else 0) =
      w.slotRefs y + (if e.object = some y then 1 else 0) := by
  -- the table's own count, then the sum over the tables
  have ht := Count.count_set (f := fun j => (((w.handles p).set i e used).slots j).object)
    (g := fun j => ((w.handles p).slots j).object) hi
    (fun j _ hj => by simp [HandleTable.set, hj]) y
  have hs := Count.sum_change (s := range w.nobj)
    (f := fun q => Count.count (Finset.Ico 1 handleTableSlots)
      (fun j => (((w.setTable p ((w.handles p).set i e used)).handles q).slots j).object) y)
    (g := fun q => Count.count (Finset.Ico 1 handleTableSlots)
      (fun j => ((w.handles q).slots j).object) y)
    (mem_range.2 hp) (fun q _ hq => by simp [hq])
  simp only [handles_setTable_self] at hs
  simp only [HandleTable.set, update_self] at ht hs
  simp only [slotRefs, nobj_setTable, HandleTable.set]
  omega

theorem fill_accounts (h : Accounts w (gain own o)) (hp : p < w.nobj)
    (hi : i ∈ Finset.Ico 1 handleTableSlots) (hfree : ((w.handles p).slots i).object = none)
    (he : e.object = some o) (used : Nat) :
    Accounts ((w.incHandleCount o).setTable p ((w.handles p).set i e used)) own := by
  have ho : o < w.nobj := h.lt (by simp [refs])
  have hg := h.good o ho
  have hset := slotRefs_set (w := w.incHandleCount o) hp hi e used
  have hslot : (w.incHandleCount o).slotRefs = w.slotRefs := slotRefs_congr rfl rfl
  have htok : ((w.incHandleCount o).setTable p ((w.handles p).set i e used)).tokenRefs =
      w.tokenRefs := tokenRefs_congr rfl fun q => by
    by_cases hq : q = o
    · subst hq; simp [incHandleCount]
    · simp [incHandleCount, hq]
  simp only [incHandleCount, handles_setObj] at hset
  simp only [hfree, he, reduceCtorEq, if_false, Nat.add_zero, Option.some.injEq] at hset
  have ho' := hset o
  rw [if_pos rfl] at ho'
  rw [← incHandleCount, hslot] at ho'
  refine h.update ho rfl (fun y hy => by simp [incHandleCount, hy]) (by simp [incHandleCount])
    (by simp [incHandleCount]) (fun y hy => ?_) (fun y hy => (gain_of_ne own hy).symm) ⟨?_, ?_, ?_⟩
  · have := hset y
    rwa [if_neg (Ne.symm hy), Nat.add_zero, ← incHandleCount, hslot] at this
  · rw [ho', ← hg.handle]
    simp [incHandleCount]
  · have := hg.pointer
    simp only [refs, htok, ho', gain_self] at this ⊢
    simp only [incHandleCount, obj_setTable, obj_setObj_self, this]
    omega
  · have := hg.deletes
    simp only [refs, gain_self] at this
    rw [if_neg (by omega)] at this
    simp only [refs, htok, ho']
    rw [if_neg (by omega)]
    simpa [incHandleCount] using this

theorem empty_accounts (h : Accounts w own) (hp : p < w.nobj)
    (hi : i ∈ Finset.Ico 1 handleTableSlots) (hused : ((w.handles p).slots i).object = some o)
    (he : e.object = none) (used : Nat) :
    Accounts ((w.setTable p ((w.handles p).set i e used)).decHandleCount o) (gain own o) := by
  have hset := slotRefs_set hp hi e used
  simp only [hused, he, reduceCtorEq, if_false, Nat.add_zero, Option.some.injEq] at hset
  have ho' := hset o
  rw [if_pos rfl] at ho'
  have ho : o < w.nobj := h.lt (by simp only [refs]; omega)
  have hg := h.good o ho
  let w1 := (w.setTable p ((w.handles p).set i e used)).decHandleCount o
  have hslot : w1.slotRefs = (w.setTable p ((w.handles p).set i e used)).slotRefs :=
    slotRefs_congr rfl rfl
  have htok : w1.tokenRefs = w.tokenRefs := tokenRefs_congr rfl fun q => by
    by_cases hq : q = o
    · subst hq; simp [w1, decHandleCount]
    · simp [w1, decHandleCount, hq]
  change Accounts w1 _
  refine h.update ho rfl (fun y hy => by simp [w1, decHandleCount, hy])
    (by simp [w1, decHandleCount]) (by simp [w1, decHandleCount]) (fun y hy => ?_)
    (fun y hy => gain_of_ne own hy) ⟨?_, ?_, ?_⟩
  · have := hset y
    rwa [if_neg (Ne.symm hy), Nat.add_zero, ← hslot] at this
  · have := hg.handle
    rw [hslot]
    simp only [w1, decHandleCount, obj_setObj_self, obj_setTable]
    omega
  · have := hg.pointer
    simp only [refs, hslot, htok, gain_self] at this ⊢
    simp only [w1, decHandleCount, obj_setObj_self, obj_setTable]
    omega
  · have := hg.deletes
    rw [if_neg (by simp only [refs]; omega)] at this
    rw [if_neg (by simp only [refs, gain_self]; omega)]
    simpa [w1, decHandleCount] using this

end

end Aegis.World
