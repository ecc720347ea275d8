import Aegis.Ob.NamespaceSpec
import Aegis.Ob.Proof.Cases

/-!
# The namespace names live objects

`NsInv w`: what is linked is live, and a live object is held by somebody (so that the references
`ob_lookup` takes and drops on its way are never the last). Every step that drops no last
reference of a linked object keeps it, and `ob_lookup` finds only linked objects and the root.
-/

namespace Aegis

open Outcome

/-- Something keeps the object. -/
def Obj.Held (x : Obj) : Prop := x.permanent = true ∨ 0 < x.pointerCount ∨ 0 < x.handleCount

namespace World

/-- What is linked lives, and what lives is held. -/
structure NsInv (w : World) : Prop where
  linked : ∀ o, w.Linked o → w.Live o
  held : ∀ o, w.Live o → (w.obj o).Held
  permanent : ∀ o < w.nobj, (w.obj o).permanent = true → (w.obj o).deletes = 0
  root : w.root < w.nobj ∧ (w.obj w.root).permanent = true

section
variable {w w' : World} {o x : Nat}
variable {d k p : Nat} {heap : Bool} {e : Link} {st : Status} {kind : ObjKind} {dir r : Option Nat}
  {name : Option Name}

/-! ## Dropping a reference -/

theorem dropReference_cases {del : World → Nat → Outcome World}
    (h : w.dropReference del o = .ok w') :
    0 < (w.obj o).pointerCount ∧
      ((w.LastReference o ∧ ∃ w1, del (w.decPointerCount o) o = .ok w1 ∧ w' = w1.markDeleted o) ∨
        (¬ w.LastReference o ∧ w' = w.decPointerCount o)) := by
  simp only [dropReference] at h
  split at h
  · cases h
  · rename_i h0
    refine ⟨Nat.pos_of_ne_zero h0, ?_⟩
    split at h
    · rename_i hl
      obtain ⟨w1, h1, h2⟩ := bind_eq_ok.1 h
      cases h2
      exact .inl ⟨hl, w1, h1, rfl⟩
    · rename_i hl
      cases h
      exact .inr ⟨hl, rfl⟩

/-- What a dropped reference to `o` means for the object `x`: it is deleted, or it is held as it
was, `o` by what makes the reference not the last. -/
def Dropped (w : World) (o : Nat) (w' : World) (x : Nat) : Prop :=
  (w.Deletes o x ∧ 0 < (w'.obj x).deletes) ∨
    ((w'.obj x).deletes = (w.obj x).deletes ∧ ((w.obj x).Held ∨ x = o → (w'.obj x).Held))

theorem decPointerCount_held (h0 : 0 < (w.obj o).pointerCount) (hl : ¬ w.LastReference o) :
    ((w.decPointerCount o).obj o).Held := by
  simp only [decPointerCount, obj_setObj_self, Obj.Held]
  simp only [LastReference, not_and, Bool.not_eq_false] at hl
  by_cases h1 : (w.obj o).pointerCount = 1
  · by_cases h2 : (w.obj o).handleCount = 0
    · exact .inl (hl h1 h2)
    · exact .inr (.inr (Nat.pos_of_ne_zero h2))
  · exact .inr (.inl (by omega))

theorem decPointerCount_dropped (h0 : 0 < (w.obj o).pointerCount) (hl : ¬ w.LastReference o)
    (x : Nat) : Dropped w o (w.decPointerCount o) x := by
  by_cases hx : x = o
  · subst hx
    refine .inr ⟨?_, fun _ => decPointerCount_held h0 hl⟩
    simp [decPointerCount]
  · refine .inr ⟨by simp [decPointerCount, hx], fun hh => ?_⟩
    rw [show (w.decPointerCount o).obj x = w.obj x by simp [decPointerCount, hx]]
    exact hh.resolve_right hx

theorem deleteFn_obj (h : w.deleteFn o = .ok w') (hx : x ≠ o) :
    w'.obj x = w.obj x ∨ (w.obj o).kind = .process ∧ (w.obj o).token = some x ∧
      ((w.LastReference x ∧ 0 < (w'.obj x).deletes) ∨
        ((w'.obj x).deletes = (w.obj x).deletes ∧ (w'.obj x).Held)) := by
  unfold deleteFn at h
  split at h
  · rename_i hk
    unfold processDelete at h
    split at h
    · cases h
      exact .inl rfl
    · rename_i t ht
      obtain ⟨w1, h1, h2⟩ := bind_eq_ok.1 h
      cases h2
      have hclear : (w1.clearToken o).obj x = w1.obj x := by simp [clearToken, hx]
      rw [hclear]
      by_cases hxt : x = t
      · subst hxt
        refine .inr ⟨hk, ht, ?_⟩
        obtain ⟨h0, ⟨hl, w2, h3, rfl⟩ | ⟨hl, rfl⟩⟩ := dropReference_cases h1
        · exact .inl ⟨hl, by simp [markDeleted]⟩
        · exact .inr ⟨by simp [decPointerCount], decPointerCount_held h0 hl⟩
      · obtain ⟨-, ⟨-, w2, h3, rfl⟩ | ⟨-, rfl⟩⟩ := dropReference_cases h1
        · cases h3
          exact .inl (by simp [markDeleted, decPointerCount, hxt])
        · exact .inl (by simp [decPointerCount, hxt])
  · cases h
    exact .inl rfl

theorem obDereference_dropped (h : w.obDereference o = .ok w') (x : Nat) : Dropped w o w' x := by
  obtain ⟨h0, ⟨hl, w1, h1, rfl⟩ | ⟨hl, rfl⟩⟩ := dropReference_cases h
  · by_cases hx : x = o
    · subst hx
      exact .inl ⟨⟨hl, .inl rfl⟩, by simp [markDeleted]⟩
    · have hd : (w.decPointerCount o).obj x = w.obj x := by simp [decPointerCount, hx]
      have hm : (w1.markDeleted o).obj x = w1.obj x := by simp [markDeleted, hx]
      have hlast : (w.decPointerCount o).LastReference x ↔ w.LastReference x := by
        simp only [LastReference, hd]
      have hproc : ((w.decPointerCount o).obj o).kind = (w.obj o).kind ∧
          ((w.decPointerCount o).obj o).token = (w.obj o).token := by simp [decPointerCount]
      rw [Dropped, hm]
      rcases deleteFn_obj h1 hx with he | ⟨hk, ht, ⟨hlx, hdel⟩ | ⟨hdel, hh⟩⟩
      · rw [he, hd]
        exact .inr ⟨rfl, fun hh => hh.resolve_right hx⟩
      · rw [hproc.1] at hk
        rw [hproc.2] at ht
        exact .inl ⟨⟨hl, .inr ⟨hk, ht, hlast.1 hlx⟩⟩, hdel⟩
      · exact .inr ⟨hdel.trans (by rw [hd]), fun _ => hh⟩
  · exact decPointerCount_dropped h0 hl x

/-! ## Links -/

theorem Reached.of_next (h : ∀ e, w.Reached e → w.Reached (w'.next e)) (he : w'.Reached e) :
    w.Reached e := by
  induction he with
  | bucket d hash => exact .bucket d hash
  | next _ ih => exact h _ ih

theorem linked_congr (h : w'.next = w.next) : w'.Linked o ↔ w.Linked o :=
  ⟨Reached.of_next fun _ he => h ▸ he.next, Reached.of_next fun _ he => h.symm ▸ he.next⟩

/-- A tail insertion brings the walks to the new entry, and from there back to its bucket. -/
theorem listInsertTail_reached {hash : Nat}
    (he : (w.listInsertTail (.bucket d hash) (.entry o)).Reached e) :
    w.Reached e ∨ e = .entry o := by
  induction he with
  | bucket d' hash' => exact .inl (.bucket d' hash')
  | @next e _ ih =>
    simp only [listInsertTail, setNext, setPrev, Function.update_apply, reduceCtorEq, if_false]
    split
    · exact .inr rfl
    · split
      · exact .inl (.bucket d hash)
      · rename_i _ hne
        exact .inl (ih.resolve_right hne).next

/-! ## The invariant across the parts of the functions -/

/-- Counts rise, and links and lives are the same. -/
structure Raises (w w' : World) : Prop where
  nobj : w'.nobj = w.nobj
  next : w'.next = w.next
  root : w'.root = w.root
  permanent : ∀ o, (w'.obj o).permanent = (w.obj o).permanent
  deletes : ∀ o, (w'.obj o).deletes = (w.obj o).deletes
  held : ∀ o, (w.obj o).Held → (w'.obj o).Held

theorem Raises.refl (w : World) : Raises w w :=
  ⟨rfl, rfl, rfl, fun _ => rfl, fun _ => rfl, fun _ => id⟩

theorem Raises.trans {w1 w2 w3 : World} (h : Raises w1 w2) (h' : Raises w2 w3) : Raises w1 w3 :=
  ⟨h'.nobj.trans h.nobj, h'.next.trans h.next, h'.root.trans h.root,
    fun o => (h'.permanent o).trans (h.permanent o), fun o => (h'.deletes o).trans (h.deletes o),
    fun o hh => h'.held o (h.held o hh)⟩

theorem Raises.live (h : Raises w w') : w'.Live o ↔ w.Live o := by
  simp only [Live, h.nobj, h.deletes]

theorem Raises.nsInv (h : Raises w w') (hi : NsInv w) : NsInv w' where
  linked o hl := h.live.2 (hi.linked o ((linked_congr h.next).1 hl))
  held o hl := h.held o (hi.held o (h.live.1 hl))
  permanent o ho hp := by
    rw [h.nobj] at ho
    rw [h.permanent] at hp
    exact (h.deletes o).trans (hi.permanent o ho hp)
  root := by
    rw [h.nobj, h.root, h.permanent]
    exact hi.root

theorem setObj_raises {y : Obj} (hp : y.permanent = (w.obj o).permanent)
    (hd : y.deletes = (w.obj o).deletes) (h1 : (w.obj o).pointerCount ≤ y.pointerCount)
    (h2 : (w.obj o).handleCount ≤ y.handleCount) : Raises w (w.setObj o y) := by
  have hself : (w.obj o).Held → y.Held := by
    rintro (hh | hh | hh)
    · exact .inl (hp.trans hh)
    · exact .inr (.inl (by omega))
    · exact .inr (.inr (by omega))
  refine ⟨rfl, rfl, rfl, fun o' => ?_, fun o' => ?_, fun o' => ?_⟩ <;>
  · rw [obj_setObj]
    split
    · rename_i he
      subst he
      assumption
    · first | rfl | exact id

theorem setTable_raises (p : Nat) (t : HandleTable) : Raises w (w.setTable p t) :=
  ⟨rfl, rfl, rfl, fun _ => rfl, fun _ => rfl, fun _ => id⟩

theorem obReference_raises (o : Nat) : Raises w (w.obReference o) :=
  setObj_raises rfl rfl (Nat.le_succ _) (Nat.le_refl _)

theorem openFn_raises (o : Nat) (acc : Access) : Raises w (w.openFn o acc) := by
  have hs := pipeOpen_same (w.obj o) acc
  unfold openFn
  split
  · exact setObj_raises hs.permanent hs.deletes hs.pointerCount.ge hs.handleCount.ge
  · exact Raises.refl w

theorem htInsertEx_raises (p o : Nat) (access : Access) (inherit protectClose : Bool) :
    Raises w (w.htInsertEx p o access inherit protectClose).2.2 := by
  rcases htInsertEx_cases w p o access inherit protectClose with ⟨-, he⟩ | ⟨i, -, -, -, he⟩
  · rw [he]
    exact Raises.refl w
  · rw [he]
    have h1 : Raises w ((w.obReference o).incHandleCount o) := (obReference_raises o).trans
      (setObj_raises rfl rfl (Nat.le_refl _) (Nat.le_succ _))
    exact (h1.trans (setTable_raises p _)).trans (openFn_raises o _)

theorem obDereference_nsInv (hlink : ∀ x, w.Linked x → w.Live x)
    (hheld : ∀ x, x ≠ o → w.Live x → (w.obj x).Held)
    (hperm : ∀ x < w.nobj, (w.obj x).permanent = true → (w.obj x).deletes = 0)
    (hroot : w.root < w.nobj ∧ (w.obj w.root).permanent = true)
    (hd : ∀ x, w.Deletes o x → ¬ w.Linked x) (hr : w.obDereference o = .ok w') : NsInv w' := by
  have hk := obDereference_kept hr
  have hdrop := obDereference_dropped hr
  constructor
  · intro x hx
    rw [linked_congr hk.next] at hx
    obtain ⟨hn, h0⟩ := hlink x hx
    rcases hdrop x with ⟨hdel, -⟩ | ⟨he, -⟩
    · exact absurd hx (hd x hdel)
    · exact ⟨hk.nobj ▸ hn, he.trans h0⟩
  · rintro x ⟨hn, h0⟩
    rcases hdrop x with ⟨-, hpos⟩ | ⟨he, hh⟩
    · omega
    · refine hh ?_
      by_cases hx : x = o
      · exact .inr hx
      · exact .inl (hheld x hx ⟨hk.nobj ▸ hn, he ▸ h0⟩)
  · intro x hn hp
    rw [hk.permanent] at hp
    rcases hdrop x with ⟨⟨hl, hx⟩, -⟩ | ⟨he, -⟩
    · have hf : (w.obj x).permanent = false := by
        rcases hx with rfl | ⟨-, -, hx⟩
        · exact hl.2.2
        · exact hx.2.2
      rw [hf] at hp
      cases hp
    · exact he.trans (hperm x (hk.nobj ▸ hn) hp)
  · rw [hk.nobj, hk.root, hk.permanent]
    exact hroot

theorem NsInv.dereference (hi : NsInv w) (hd : ∀ x, w.Deletes o x → ¬ w.Linked x)
    (hr : w.obDereference o = .ok w') : NsInv w' :=
  obDereference_nsInv hi.linked (fun x _ => hi.held x) hi.permanent hi.root hd hr

/-! ## Closing a handle -/

theorem closeFn_same (o : Nat) (acc : Access) (x : Nat) :
    SameCounts (w.obj x) ((w.closeFn o acc).obj x) := by
  have hr : ∀ y : Obj, SameCounts y y := fun y => ⟨rfl, rfl, rfl, rfl, rfl, rfl, rfl⟩
  unfold closeFn
  split
  · rw [obj_setObj]
    split
    · rename_i he
      subst he
      exact pipeClose_same _ acc
    · exact hr _
  · exact hr _

theorem decHandleCount_same (h : ∀ x, SameCounts (w.obj x) (w'.obj x)) (o x : Nat) :
    SameCounts ((w.decHandleCount o).obj x) ((w'.decHandleCount o).obj x) := by
  simp only [decHandleCount, obj_setObj]
  have hs := h o
  split
  · exact ⟨hs.kind, hs.name, hs.pointerCount, by simp only [hs.handleCount], hs.permanent,
      hs.token, hs.deletes⟩
  · exact h x

theorem deletes_congr (h : ∀ x, SameCounts (w.obj x) (w'.obj x)) :
    w'.Deletes o x ↔ w.Deletes o x := by
  simp only [Deletes, LastReference, (h _).kind, (h _).token, (h _).pointerCount,
    (h _).handleCount, (h _).permanent]

theorem releaseHandle_nsInv {acc : Access} (hi : NsInv w)
    (hd : ∀ x, (w.decHandleCount o).Deletes o x → ¬ w.Linked x)
    (hr : w.releaseHandle o acc = .ok w') : NsInv w' := by
  have hs := closeFn_same (w := w) o acc
  have hk := closeFn_kept (w := w) o acc
  have hobj : ∀ x, ((w.closeFn o acc).decHandleCount o).Live x ↔ w.Live x := by
    intro x
    have := (decHandleCount_same hs o x).deletes
    simp only [Live, this]
    simp only [decHandleCount, nobj_setObj, hk.nobj, obj_setObj]
    split
    · rename_i he
      subst he
      rfl
    · rfl
  have hperm : ∀ x, (((w.closeFn o acc).decHandleCount o).obj x).permanent =
      (w.obj x).permanent := fun x => (hk.trans (decHandleCount_kept o)).permanent x
  refine obDereference_nsInv (o := o) (fun x hx => ?_) (fun x hx hl => ?_) (fun x hx hp => ?_) ?_
    (fun x hx => ?_) hr
  · rw [hobj]
    exact hi.linked x ((linked_congr (hk.trans (decHandleCount_kept o)).next).1 hx)
  · have he : ((w.closeFn o acc).decHandleCount o).obj x = (w.closeFn o acc).obj x := by
      simp [decHandleCount, hx]
    have := hi.held x ((hobj x).1 hl)
    simp only [Obj.Held, he, (hs x).permanent, (hs x).pointerCount, (hs x).handleCount]
    exact this
  · rw [(hk.trans (decHandleCount_kept o)).nobj] at hx
    rw [hperm] at hp
    exact ((hobj x).2 ⟨hx, hi.permanent x hx hp⟩).2
  · rw [(hk.trans (decHandleCount_kept o)).nobj, (hk.trans (decHandleCount_kept o)).root, hperm]
    exact hi.root
  · rw [linked_congr (hk.trans (decHandleCount_kept o)).next]
    exact hd x ((deletes_congr (decHandleCount_same hs o)).1 hx)

theorem htClose_nsInv {h : Handle} (hi : NsInv w) (hok : NsOk w (.close p h))
    (hr : w.htClose p h = .ok (st, w')) : NsInv w' := by
  rcases htClose_cases w p h with ⟨-, he⟩ | ⟨j, o, hj, ⟨-, he⟩ | ⟨hpc, he⟩⟩
  · rw [he] at hr
    cases hr
    exact hi
  · rw [he] at hr
    cases hr
    exact hi
  · rw [he] at hr
    obtain ⟨w1, h1, h2⟩ := bind_eq_ok.1 hr
    cases h2
    refine releaseHandle_nsInv ((setTable_raises p _).nsInv hi) (fun x hx hl => ?_) h1
    exact hok j o hj hpc x hx ((linked_congr (setTable_raises p _).next).1 hl)

/-! ## Creating and naming -/

theorem newObject_reached (hi : NsInv w) (kind : ObjKind) (name : Option Name)
    (he : (w.newObject kind name).Reached e) : w.Reached e := by
  refine Reached.of_next (fun e he => ?_) he
  have hne : e ≠ .entry w.nobj := by
    rintro rfl
    exact Nat.lt_irrefl _ (hi.linked w.nobj he).1
  rw [show (w.newObject kind name).next e = w.next e by
    simp [newObject, setTable, setObj, setNext, setPrev, hne]]
  exact he.next

theorem obj_newObject (kind : ObjKind) (name : Option Name) (x : Nat) :
    (w.newObject kind name).obj x = if x = w.nobj then
      ⟨kind, truncate (name.getD []), 1, 0, false, none, 0, 0, false, 0⟩ else w.obj x :=
  Function.update_apply w.obj _ _ x

theorem newObject_nsInv (hi : NsInv w) (kind : ObjKind) (name : Option Name) :
    NsInv (w.newObject kind name) ∧ ¬ (w.newObject kind name).Linked w.nobj := by
  have hlink : ∀ x, (w.newObject kind name).Linked x → w.Live x :=
    fun x hx => hi.linked x (newObject_reached hi kind name hx)
  have hobj : ∀ x < w.nobj, (w.newObject kind name).obj x = w.obj x := by
    intro x hx
    rw [obj_newObject, if_neg (Nat.ne_of_lt hx)]
  have hnew : ((w.newObject kind name).obj w.nobj).Held ∧
      ((w.newObject kind name).obj w.nobj).permanent = false := by
    rw [obj_newObject, if_pos rfl]
    exact ⟨.inr (.inl Nat.one_pos), rfl⟩
  have hsplit : ∀ x < (w.newObject kind name).nobj, x = w.nobj ∨ x < w.nobj := by
    intro x hx
    have : x < w.nobj + 1 := hx
    omega
  refine ⟨⟨fun x hx => ?_, fun x hx => ?_, fun x hx hp => ?_, ?_⟩, fun hx => ?_⟩
  · obtain ⟨h1, h2⟩ := hlink x hx
    exact ⟨Nat.lt_succ_of_lt h1, by rw [hobj x h1]; exact h2⟩
  · rcases hsplit x hx.1 with rfl | hlt
    · exact hnew.1
    · rw [hobj x hlt]
      exact hi.held x ⟨hlt, by rw [← hobj x hlt]; exact hx.2⟩
  · rcases hsplit x hx with rfl | hlt
    · rw [hnew.2] at hp
      cases hp
    · rw [hobj x hlt] at hp ⊢
      exact hi.permanent x hlt hp
  · refine ⟨Nat.lt_succ_of_lt hi.root.1, ?_⟩
    rw [show (w.newObject kind name).root = w.root from rfl, hobj _ hi.root.1]
    exact hi.root.2
  · exact Nat.lt_irrefl _ (hlink _ hx).1

/-- The object gets its name and its place in the bucket. -/
def linkName (w : World) (dir o : Nat) (name : Name) : World :=
  (w.setObj o { w.obj o with name := truncate name }).listInsertTail
    (.bucket dir (hashName name)) (.entry o)

theorem obInsertName_cases {dir : Nat} {name : Name}
    (hr : w.obInsertName dir o name = .ok (st, w')) :
    (st ≠ .success ∧ w' = w) ∨ (st = .success ∧ name ≠ [] ∧ name.length < nameMax ∧
      w' = w.linkName dir o name) := by
  unfold obInsertName at hr
  split at hr
  · cases hr
    exact .inl ⟨by simp, rfl⟩
  · rename_i hn
    obtain ⟨r, -, h2⟩ := bind_eq_ok.1 hr
    cases r with
    | some x =>
      cases h2
      exact .inl ⟨by simp, rfl⟩
    | none =>
      cases h2
      refine .inr ⟨rfl, fun he => hn (.inl he), ?_, rfl⟩
      by_contra hge
      exact hn (.inr (by omega))

theorem linkName_nsInv {dir : Nat} {name : Name} (hi : NsInv w) (ho : w.Live o) :
    NsInv (w.linkName dir o name) := by
  have h1 : Raises w (w.setObj o { w.obj o with name := truncate name }) :=
    setObj_raises rfl rfl (Nat.le_refl _) (Nat.le_refl _)
  have hi1 := h1.nsInv hi
  refine ⟨fun x hx => ?_, hi1.held, hi1.permanent, hi1.root⟩
  rcases listInsertTail_reached hx with hl | he
  · exact hi1.linked x hl
  · cases he
    exact h1.live.2 ho

theorem obCreate_cases (hr : w.obCreate kind name dir heap = .ok (r, w')) :
    (r = none ∧ w' = w) ∨ (r = some w.nobj ∧ w' = w.newObject kind name) ∨
      ∃ d n, r = some w.nobj ∧ heap = true ∧ name = some n ∧ n ≠ [] ∧ n.length < nameMax ∧
        w' = (w.newObject kind name).linkName d w.nobj n := by
  unfold obCreate at hr
  split at hr
  · cases hr
    exact .inl ⟨rfl, rfl⟩
  · rename_i hheap
    split at hr
    · rename_i d n
      split at hr
      · cases hr
        exact .inr (.inl ⟨rfl, rfl⟩)
      · obtain ⟨⟨st, w1⟩, h1, h2⟩ := bind_eq_ok.1 hr
        rcases obInsertName_cases h1 with ⟨hst, -⟩ | ⟨rfl, hn, hlen, rfl⟩
        · simp only [(ntSuccess_eq_false st).2 hst] at h2
          cases h2
          exact .inl ⟨rfl, rfl⟩
        · cases h2
          exact .inr (.inr ⟨d, n, rfl, by simpa using hheap, rfl, hn, hlen, rfl⟩)
    · cases hr
      exact .inr (.inl ⟨rfl, rfl⟩)

theorem newObject_live (kind : ObjKind) (name : Option Name) :
    (w.newObject kind name).Live w.nobj := by
  refine ⟨Nat.lt_succ_self _, ?_⟩
  rw [obj_newObject, if_pos rfl]

theorem obCreate_nsInv (hi : NsInv w) (hr : w.obCreate kind name dir heap = .ok (r, w')) :
    NsInv w' := by
  rcases obCreate_cases hr with ⟨-, rfl⟩ | ⟨-, rfl⟩ | ⟨d, n, -, -, -, -, -, rfl⟩
  · exact hi
  · exact (newObject_nsInv hi kind name).1
  · exact linkName_nsInv (newObject_nsInv hi kind name).1 (newObject_live kind name)

theorem obCreateNamed_nsInv (hi : NsInv w) (hr : obCreateNamed kind w name heap = .ok (st, r, w')) :
    NsInv w' := by
  obtain ⟨⟨r1, w1⟩, h1, h2⟩ := bind_eq_ok.1 hr
  cases h2
  exact obCreate_nsInv hi h1

theorem dirInitBuckets_reached (he : (w.dirInitBuckets d).Reached e) : w.Reached e := by
  refine Reached.of_next (fun e he => ?_) he
  cases e with
  | bucket d' hash =>
    simp only [dirInitBuckets]
    split
    · exact he
    · exact he.next
  | entry x => exact he.next

theorem dirInitBuckets_nsInv (hi : NsInv w) (d : Nat) : NsInv (w.dirInitBuckets d) :=
  ⟨fun x hx => hi.linked x (dirInitBuckets_reached hx), hi.held, hi.permanent, hi.root⟩

/-- The process that could not get its token is deleted; nobody has linked it. -/
theorem pspCreateProcess_nsInv {name : Name} {tokenHeap listed : Bool} (hi : NsInv w)
    (hr : w.pspCreateProcess name heap tokenHeap listed = .ok (r, w')) : NsInv w' := by
  obtain ⟨h1, hnl⟩ := newObject_nsInv hi .process (some name)
  cases heap with
  | false => cases hr; exact hi
  | true =>
    cases tokenHeap with
    | false =>
      obtain ⟨w1, hd, h2⟩ := bind_eq_ok.1
        (show ((w.newObject .process (some name)).obDereference w.nobj >>= _) = _ from hr)
      cases h2
      refine h1.dereference (fun x hx => ?_) hd
      rcases hx.2 with rfl | ⟨-, ht, -⟩
      · exact hnl
      · rw [obj_newObject, if_pos rfl] at ht
        cases ht
    | true =>
      have h2 := (newObject_nsInv h1 .token none).1
      have h3 := (setObj_raises (w := (w.newObject .process (some name)).newObject .token none)
        (o := w.nobj) (y := { ((w.newObject .process (some name)).newObject .token none).obj w.nobj
          with token := some (w.nobj + 1) }) rfl rfl (Nat.le_refl _) (Nat.le_refl _)).nsInv h2
      cases listed with
      | false => cases hr; exact h3
      | true => cases hr; exact (obReference_raises _).nsInv h3

theorem htInsertEx_handleCount (hf : (w.handles p).firstFree ≠ none) (access : Access)
    (inherit protectClose : Bool) :
    0 < ((w.htInsertEx p o access inherit protectClose).2.2.obj o).handleCount := by
  rcases htInsertEx_cases w p o access inherit protectClose with ⟨hn, -⟩ | ⟨i, -, -, -, he⟩
  · exact absurd hn hf
  · rw [he]
    have hs : ∀ (v : World) (acc : Access),
        ((v.openFn o acc).obj o).handleCount = (v.obj o).handleCount := by
      intro v acc
      unfold openFn
      split
      · rw [obj_setObj_self]
        exact (pipeOpen_same _ acc).handleCount
      · rfl
    rw [hs]
    simp [incHandleCount]

theorem newObject_firstFree (kind : ObjKind) (name : Option Name)
    (hf : (w.handles p).firstFree ≠ none) :
    ((w.newObject kind name).handles p).firstFree ≠ none := by
  by_cases hp : p = w.nobj
  · rw [show (w.newObject kind name).handles p = .init by
      simp [newObject, setTable, setObj, setNext, setPrev, hp]]
    decide +kernel
  · rw [show (w.newObject kind name).handles p = w.handles p by
      simp [newObject, setTable, setObj, setNext, setPrev, hp]]
    exact hf

/-- The reference that `NtCreateDirectoryObject` drops is the last one only of a directory
without a name. -/
theorem ntCreateDirectoryObject_nsInv {cur : Option Nat} {out : Option Handle} (hi : NsInv w)
    (hok : NsOk w (.createDirectory cur name heap))
    (hr : w.ntCreateDirectoryObject cur name heap = .ok (st, out, w')) : NsInv w' := by
  obtain ⟨⟨r, w1⟩, h1, h2⟩ := bind_eq_ok.1 hr
  have hi1 := obCreate_nsInv hi h1
  cases r with
  | none =>
    cases h2
    exact hi1
  | some o =>
    obtain ⟨w4, h4, h5⟩ := bind_eq_ok.1 h2
    cases h5
    have hi2 := dirInitBuckets_nsInv hi1 o
    -- the directory with its handle, or without one
    generalize hv : Prod.snd (_ : Option Handle × World) = v at h4
    have hraise : Raises (w1.dirInitBuckets o) v := by
      rw [← hv]
      cases cur with
      | none => exact Raises.refl _
      | some p => exact htInsertEx_raises p o _ _ _
    subst hv
    refine (hraise.nsInv hi2).dereference (fun x hx hl => ?_) h4
    rw [linked_congr hraise.next] at hl
    have hl1 : w1.Linked x := dirInitBuckets_reached hl
    rcases obCreate_cases h1 with ⟨hn, -⟩ | ⟨ho, rfl⟩ | ⟨d, n, ho, hheap, hname, hne, hlen, rfl⟩
    · cases hn
    · cases ho
      rcases hx.2 with rfl | ⟨hk, -⟩
      · exact (newObject_nsInv hi _ _).2 hl1
      · have hdir : (((w.newObject .directory name).dirInitBuckets w.nobj).obj w.nobj).kind =
            .directory := by simp [dirInitBuckets, obj_newObject]
        have hkind : (((w.newObject .directory name).dirInitBuckets w.nobj).obj w.nobj).kind =
            .process := by
          cases cur with
          | none => exact hk
          | some p => exact (htInsertEx_kind _ p w.nobj _ false false w.nobj).symm.trans hk
        rw [hdir] at hkind
        cases hkind
    · cases ho
      obtain ⟨p, rfl, hf⟩ := hok n hname hne hlen hheap
      have := htInsertEx_handleCount (w := ((w.newObject .directory name).linkName d w.nobj
        n).dirInitBuckets w.nobj) (p := p) (o := w.nobj) (newObject_firstFree _ _ hf)
        (directoryQuery ||| directoryTraverse ||| directoryCreateObject) false false
      exact Nat.ne_of_gt this hx.1.2.1

/-! ## Lookup -/

/-- Somebody else holds the object too. -/
def Spare (w : World) (o : Nat) : Prop :=
  (w.obj o).permanent = true ∨ 1 < (w.obj o).pointerCount ∨ 0 < (w.obj o).handleCount

theorem Spare.not_last (h : Spare w o) : ¬ w.LastReference o := by
  rintro ⟨h1, h2, h3⟩
  rcases h with h | h | h
  · rw [h3] at h
    cases h
  · omega
  · omega

theorem obReference_spare (h : (w.obj o).Held) : Spare (w.obReference o) o := by
  simp only [Spare, obReference, obj_setObj_self]
  rcases h with h | h | h
  · exact .inl h
  · exact .inr (.inl (by omega))
  · exact .inr (.inr h)

theorem Spare.dereference (h : Spare w o) (hi : NsInv w) (hr : w.obDereference o = .ok w') :
    NsInv w' ∧ w' = w.decPointerCount o := by
  refine ⟨hi.dereference (fun x hx => absurd hx.1 h.not_last) hr, ?_⟩
  obtain ⟨-, ⟨hl, -⟩ | ⟨-, he⟩⟩ := dropReference_cases hr
  · exact absurd hl h.not_last
  · exact he

theorem bucketFind_linked {head : Link} {name : Name} (he : w.Reached e)
    (hr : w.bucketFind head name k e = .ok (some x)) : w.Linked x := by
  induction k generalizing e with
  | zero => cases hr
  | succ k ih =>
    unfold bucketFind at hr
    split at hr
    · cases hr
    · split at hr
      · cases hr
      · split at hr
        · cases hr
        · split at hr
          · cases hr
            exact he
          · exact ih he.next hr

theorem dirLookup_cases {dir : Nat} {name : Name} (hr : w.dirLookup dir name = .ok (r, w')) :
    (r = none ∧ w' = w) ∨ ∃ n, r = some n ∧ w.Linked n ∧ w' = w.obReference n := by
  obtain ⟨r1, h1, h2⟩ := bind_eq_ok.1 hr
  cases r1 with
  | none =>
    cases h2
    exact .inl ⟨rfl, rfl⟩
  | some n =>
    cases h2
    exact .inr ⟨n, rfl, bucketFind_linked (Reached.bucket _ _).next h1, rfl⟩

/-- The references that the component loop takes and drops are never the last. -/
theorem lookupLoop_nsInv {cur c : Nat} {p : Name} (hi : NsInv w) (hl : w.Live cur)
    (hs : Spare w cur) (hr : lookupLoop k w cur p = .ok (st, c, w')) :
    NsInv w' ∧ (ntSuccess st = true → w'.Live c ∧ Spare w' c) := by
  induction k generalizing w cur p with
  | zero => cases hr
  | succ k ih =>
    simp only [lookupLoop] at hr
    split at hr
    · cases hr
      exact ⟨hi, fun _ => ⟨hl, hs⟩⟩
    · split at hr
      · obtain ⟨w1, h1, h2⟩ := bind_eq_ok.1 hr
        cases h2
        exact ⟨(hs.dereference hi h1).1, fun h => by cases h⟩
      · obtain ⟨⟨next, w1⟩, h1, h2⟩ := bind_eq_ok.1 hr
        obtain ⟨w2, h3, h4⟩ := bind_eq_ok.1 h2
        rcases dirLookup_cases h1 with ⟨rfl, rfl⟩ | ⟨n, rfl, hn, rfl⟩
        · cases h4
          exact ⟨(hs.dereference hi h3).1, fun h => by cases h⟩
        · have hln := hi.linked n hn
          have hr1 := obReference_raises (w := w) n
          have hsn := obReference_spare (hi.held n hln)
          have hsc : Spare (w.obReference n) cur := by
            by_cases hc : cur = n
            · exact hc ▸ hsn
            · simpa [Spare, obReference, hc] using hs
          obtain ⟨hi2, rfl⟩ := hsc.dereference (hr1.nsInv hi) h3
          refine ih hi2 ⟨hln.1, ?_⟩ ?_ h4
          · rw [decPointerCount, obj_setObj]
            split
            · rw [hr1.deletes]
              exact hl.2
            · rw [hr1.deletes]
              exact hln.2
          · by_cases hc : n = cur
            · subst hc
              simpa [Spare, obReference, decPointerCount] using hs
            · simpa [Spare, decPointerCount, hc] using hsn

theorem obLookup_nsInv {path : Name} {expect : Option ObjKind} (hi : NsInv w)
    (hr : w.obLookup path expect = .ok (st, r, w')) : NsInv w' ∧ ∀ o ∈ r, w'.Live o := by
  have hroot : w.Live w.root := ⟨hi.root.1, hi.permanent _ hi.root.1 hi.root.2⟩
  have hi1 := (obReference_raises w.root).nsInv hi
  have hroot1 := (obReference_raises (w := w) w.root).live.2 hroot
  unfold obLookup at hr
  split at hr
  · cases hr
    exact ⟨hi, fun _ h => by cases h⟩
  · split at hr
    · cases hr
      exact ⟨hi, fun _ h => by cases h⟩
    · split at hr
      · split at hr
        · cases hr
          exact ⟨hi, fun _ h => by cases h⟩
        · cases hr
          exact ⟨hi1, fun _ h => by cases h; exact hroot1⟩
      · obtain ⟨⟨st1, c, w1⟩, h1, h2⟩ := bind_eq_ok.1 hr
        obtain ⟨hi2, hc⟩ := lookupLoop_nsInv hi1 hroot1 (obReference_spare (.inl hi.root.2)) h1
        simp only at h2
        split at h2
        · cases h2
          exact ⟨hi2, fun _ h => by cases h⟩
        · rename_i hst
          obtain ⟨hlc, hsc⟩ := hc (by simpa using hst)
          split at h2
          · obtain ⟨w2, h3, h4⟩ := bind_eq_ok.1 h2
            cases h4
            exact ⟨(hsc.dereference hi2 h3).1, fun _ h => by cases h⟩
          · cases h2
            exact ⟨hi2, fun _ h => by cases h; exact hlc⟩

/-! ## Steps and runs -/

theorem nsNext_nsInv {op : NsOp} (hi : NsInv w) (hok : NsOk w op) (hr : w.nsNext op = some w') :
    NsInv w' := by
  rw [nsNext, get?_eq_some] at hr
  cases op with
  | createProcess name heap tokenHeap listed =>
    obtain ⟨⟨r, w1⟩, h1, h2⟩ := bind_eq_ok.1 hr
    cases h2
    exact pspCreateProcess_nsInv hi h1
  | createEvent name heap =>
    obtain ⟨⟨st, r, w1⟩, h1, h2⟩ := bind_eq_ok.1 hr
    cases h2
    exact obCreateNamed_nsInv hi h1
  | createMutex name heap =>
    obtain ⟨⟨st, r, w1⟩, h1, h2⟩ := bind_eq_ok.1 hr
    cases h2
    exact obCreateNamed_nsInv hi h1
  | createTimer name heap =>
    obtain ⟨⟨st, r, w1⟩, h1, h2⟩ := bind_eq_ok.1 hr
    cases h2
    exact obCreateNamed_nsInv hi h1
  | createDirectory cur name heap =>
    obtain ⟨⟨st, out, w1⟩, h1, h2⟩ := bind_eq_ok.1 hr
    cases h2
    exact ntCreateDirectoryObject_nsInv hi hok h1
  | insertName dir o name =>
    obtain ⟨⟨st, w1⟩, h1, h2⟩ := bind_eq_ok.1 hr
    cases h2
    rcases obInsertName_cases h1 with ⟨-, he⟩ | ⟨-, -, -, he⟩
    · rw [he]
      exact hi
    · rw [he]
      exact linkName_nsInv hi hok
  | insert p o access inherit protectClose =>
    cases hr
    exact (htInsertEx_raises p o access inherit protectClose).nsInv hi
  | close p h =>
    obtain ⟨⟨st, w1⟩, h1, h2⟩ := bind_eq_ok.1 hr
    cases h2
    exact htClose_nsInv hi hok h1
  | reference o =>
    cases hr
    exact (obReference_raises o).nsInv hi
  | dereference o => exact hi.dereference hok hr
  | lookup path expect =>
    obtain ⟨⟨st, r, w1⟩, h1, h2⟩ := bind_eq_ok.1 hr
    cases h2
    exact (obLookup_nsInv hi h1).1

/-! ## Initialisation -/

theorem setPermanent_nsInv (hi : NsInv w) (ho : w.Live o) :
    NsInv (w.setObj o { w.obj o with permanent := true }) := by
  have hd : ∀ x, ((w.setObj o { w.obj o with permanent := true }).obj x).deletes =
      (w.obj x).deletes := by
    intro x
    rw [obj_setObj]
    split
    · rename_i he
      subst he
      rfl
    · rfl
  refine ⟨fun x hx => ?_, fun x hx => ?_, fun x hx hp => ?_, hi.root.1, ?_⟩
  · obtain ⟨h1, h2⟩ := hi.linked x ((linked_congr (next_setObj w o _)).1 hx)
    exact ⟨h1, (hd x).trans h2⟩
  · rw [obj_setObj]
    split
    · exact .inl rfl
    · exact hi.held x ⟨hx.1, (hd x).symm.trans hx.2⟩
  · rw [hd]
    by_cases he : x = o
    · rw [he]
      exact ho.2
    · rw [obj_setObj_of_ne _ _ _ he] at hp
      exact hi.permanent x hx hp
  · rw [root_setObj, obj_setObj]
    split
    · rfl
    · exact hi.root.2

theorem makeDir_nsInv {name : Name} {parent : Nat} (hi : NsInv w)
    (hr : w.makeDir name parent = .ok (d, w')) : NsInv w' := by
  obtain ⟨⟨r, w1⟩, h1, h2⟩ := bind_eq_ok.1 hr
  have hi1 := obCreate_nsInv hi h1
  cases r with
  | none => cases h2
  | some d =>
    cases h2
    refine setPermanent_nsInv (dirInitBuckets_nsInv hi1 d) ?_
    rcases obCreate_cases h1 with ⟨hn, -⟩ | ⟨ho, rfl⟩ | ⟨d, n, ho, -, -, -, -, rfl⟩
    · cases hn
    · cases ho
      exact newObject_live _ _
    · cases ho
      refine ⟨Nat.lt_succ_self _, ?_⟩
      simp [dirInitBuckets, linkName, listInsertTail, setNext, setPrev, obj_newObject]

/-- The first directory of `ob_init`. -/
def rootOnly : World :=
  let w := blank.newObject .directory (some [backslash])
  (w.setObj 0 { w.obj 0 with permanent := true }).dirInitBuckets 0

theorem rootOnly_nsInv : NsInv rootOnly := by
  have hnext : ∀ e, rootOnly.next e = e := by
    intro e
    cases e with
    | bucket d hash => simp [rootOnly, dirInitBuckets, newObject, setNext, setPrev, setObj,
        setTable, blank]
    | entry x => simp [rootOnly, dirInitBuckets, newObject, setNext, setPrev, setObj, setTable,
        blank]
  have hbucket : ∀ e, rootOnly.Reached e → ∃ d hash, e = .bucket d hash := by
    intro e he
    induction he with
    | bucket d hash => exact ⟨d, hash, rfl⟩
    | next _ ih => rwa [hnext]
  have h0 : ∀ x < rootOnly.nobj, x = 0 := fun x hx => Nat.lt_one_iff.1 hx
  refine ⟨fun x hx => ?_, fun x hx => ?_, fun x hx _ => ?_, Nat.one_pos, rfl⟩
  · obtain ⟨d, hash, he⟩ := hbucket _ hx
    cases he
  · cases h0 x hx.1
    exact .inl rfl
  · cases h0 x hx
    rfl

theorem obInit_nsInv (hr : obInit = .ok w) : NsInv w := by
  have hroot : obInit.get?.map (fun w => decide (w.root < w.nobj ∧
      (w.obj w.root).permanent = true)) = some true := by decide +kernel
  rw [hr] at hroot
  obtain ⟨⟨d1, w1⟩, h1, hr⟩ := bind_eq_ok.1
    (show (rootOnly.makeDir "ObjectTypes".toUTF8.toList 0 >>= _) = _ from hr)
  obtain ⟨⟨d2, w2⟩, h2, hr⟩ := bind_eq_ok.1 hr
  obtain ⟨⟨d3, w3⟩, h3, hr⟩ := bind_eq_ok.1 hr
  obtain ⟨⟨d4, w4⟩, h4, hr⟩ := bind_eq_ok.1 hr
  cases hr
  have hi := makeDir_nsInv (makeDir_nsInv (makeDir_nsInv (makeDir_nsInv rootOnly_nsInv h1) h2)
    h3) h4
  refine ⟨fun x hx => hi.linked x ?_, hi.held, hi.permanent,
    of_decide_eq_true (Option.some.inj hroot)⟩
  have hnext : ({ w4 with root := 0, bno := d2 } : World).next = w4.next := rfl
  exact (linked_congr hnext).1 hx

end

end World

/-- **The namespace names live objects**, in every run in which no step drops the last reference
of a linked object: no linked object has been deleted, and no lookup returns a deleted one. -/
theorem namespace_live {w₀ w : World} {ops : List NsOp} (h0 : World.obInit = .ok w₀)
    (hl : Run.Legal World.nsNext NsOk w₀ ops) (hr : Run.run World.nsNext w₀ ops = some w) :
    (∀ o, w.Linked o → (w.obj o).deletes = 0) ∧
      ∀ path expect st o w', w.obLookup path expect = .ok (st, some o, w') →
        (w'.obj o).deletes = 0 := by
  have hi : w.NsInv :=
    Run.run_keeps (fun _ _ _ => World.nsNext_nsInv) (World.obInit_nsInv h0) hl hr
  exact ⟨fun o ho => (hi.linked o ho).2,
    fun _ _ _ o _ hr => ((World.obLookup_nsInv hi hr).2 o rfl).2⟩

/-- The name of an event, and its path. -/
def eventName : Name := "E".toUTF8.toList
def eventPath : Name := "\\BaseNamedObjects\\E".toUTF8.toList

/-- An event is created with a name, and looked up. -/
theorem namespace_live_event :
    ∃ w₀ w, World.obInit = .ok w₀ ∧
      Run.run World.nsNext w₀ [.createEvent (some eventName) true, .lookup eventPath none] =
        some w ∧ ∀ o, w.Linked o → (w.obj o).deletes = 0 := by
  have h1 : ((World.obInit.get?).bind fun w => Run.run World.nsNext w
      [.createEvent (some eventName) true, .lookup eventPath none]).isSome = true := by
    decide +kernel
  obtain ⟨w, h2⟩ := Option.isSome_iff_exists.1 h1
  obtain ⟨w₀, h0, hr⟩ := Option.bind_eq_some_iff.1 h2
  rw [get?_eq_some] at h0
  have hl : Run.Legal World.nsNext NsOk w₀ [.createEvent (some eventName) true,
      .lookup eventPath none] := ⟨trivial, fun _ _ => ⟨trivial, fun _ _ => trivial⟩⟩
  exact ⟨w₀, w, h0, hr, (namespace_live h0 hl hr).1⟩

/-- A process creates a named event, keeps it by a handle alone and closes the handle. -/
def closeNamed : List NsOp :=
  [.createProcess [] true true true, .createEvent (some eventName) true, .insert 5 7 0 false false,
    .dereference 7, .close 5 (handleValue 1 1)]

/-- The close deletes the event, which stays linked: the next lookup walks over it. -/
theorem closed_event_linked :
    ∃ w₀ w, World.obInit = .ok w₀ ∧ Run.run World.nsNext w₀ closeNamed = some w ∧
      w.Linked 7 ∧ (w.obj 7).deletes = 1 ∧ w.obLookup eventPath none = .fault := by
  obtain ⟨w₀, h0, w, hr, hn, hd, hl⟩ : ∃ w₀, World.obInit = .ok w₀ ∧
      ∃ w, Run.run World.nsNext w₀ closeNamed = some w ∧
        w.next (.bucket 2 (World.hashName eventName)) = .entry 7 ∧ (w.obj 7).deletes = 1 ∧
        w.obLookup eventPath none = .fault := by
    decide +kernel
  refine ⟨w₀, w, h0, hr, ?_, hd, hl⟩
  have : w.Reached (w.next (.bucket 2 (World.hashName eventName))) :=
    (World.Reached.bucket _ _).next
  rwa [hn] at this

end Aegis
