import Aegis.Ob.HandleSpec

/-!
# What the object functions leave alone

`Kept w w'`: the tables, the namespace and the fixed fields of the objects are the same. Taking
and dropping references and the pipe hooks keep them. The `simp` lemmas give the fields of a world
after the writes the functions are made of.
-/

namespace Aegis.World

variable (w : World)

section
variable (o : Nat) (x : Obj)

@[simp] theorem nobj_setObj : (w.setObj o x).nobj = w.nobj := rfl
@[simp] theorem handles_setObj : (w.setObj o x).handles = w.handles := rfl
@[simp] theorem next_setObj : (w.setObj o x).next = w.next := rfl
@[simp] theorem prev_setObj : (w.setObj o x).prev = w.prev := rfl
@[simp] theorem root_setObj : (w.setObj o x).root = w.root := rfl
@[simp] theorem bno_setObj : (w.setObj o x).bno = w.bno := rfl
@[simp] theorem obj_setObj_self : (w.setObj o x).obj o = x := by simp [setObj]
@[simp] theorem obj_setObj_of_ne {o' : Nat} (h : o' ≠ o) : (w.setObj o x).obj o' = w.obj o' := by
  simp [setObj, h]

theorem obj_setObj (o' : Nat) : (w.setObj o x).obj o' = if o' = o then x else w.obj o' :=
  Function.update_apply w.obj o x o'

end

section
variable (p : Nat) (t : HandleTable)

@[simp] theorem nobj_setTable : (w.setTable p t).nobj = w.nobj := rfl
@[simp] theorem obj_setTable : (w.setTable p t).obj = w.obj := rfl
@[simp] theorem next_setTable : (w.setTable p t).next = w.next := rfl
@[simp] theorem prev_setTable : (w.setTable p t).prev = w.prev := rfl
@[simp] theorem root_setTable : (w.setTable p t).root = w.root := rfl
@[simp] theorem bno_setTable : (w.setTable p t).bno = w.bno := rfl
@[simp] theorem handles_setTable_self : (w.setTable p t).handles p = t := by simp [setTable]
@[simp] theorem handles_setTable_of_ne {p' : Nat} (h : p' ≠ p) :
    (w.setTable p t).handles p' = w.handles p' := by simp [setTable, h]

end

variable {w} in
theorem slots_setTable {p i : Nat} (e : HandleEntry) (used q j : Nat) :
    ((w.setTable p ((w.handles p).set i e used)).handles q).slots j =
      if q = p ∧ j = i then e else (w.handles q).slots j := by
  by_cases hq : q = p
  · subst hq
    by_cases hj : j = i
    · subst hj; simp [HandleTable.set]
    · simp [HandleTable.set, hj]
  · simp [hq]

/-- The same tables, namespace and fixed fields. -/
structure Kept (w w' : World) : Prop where
  nobj : w'.nobj = w.nobj
  handles : w'.handles = w.handles
  next : w'.next = w.next
  prev : w'.prev = w.prev
  root : w'.root = w.root
  bno : w'.bno = w.bno
  kind : ∀ o, (w'.obj o).kind = (w.obj o).kind
  name : ∀ o, (w'.obj o).name = (w.obj o).name
  permanent : ∀ o, (w'.obj o).permanent = (w.obj o).permanent

variable {w}

theorem Kept.refl (w : World) : Kept w w :=
  ⟨rfl, rfl, rfl, rfl, rfl, rfl, fun _ => rfl, fun _ => rfl, fun _ => rfl⟩

theorem Kept.trans {w1 w2 w3 : World} (h : Kept w1 w2) (h' : Kept w2 w3) : Kept w1 w3 where
  nobj := h'.nobj.trans h.nobj
  handles := h'.handles.trans h.handles
  next := h'.next.trans h.next
  prev := h'.prev.trans h.prev
  root := h'.root.trans h.root
  bno := h'.bno.trans h.bno
  kind o := (h'.kind o).trans (h.kind o)
  name o := (h'.name o).trans (h.name o)
  permanent o := (h'.permanent o).trans (h.permanent o)

theorem setObj_kept {o : Nat} {x : Obj} (hk : x.kind = (w.obj o).kind)
    (hn : x.name = (w.obj o).name) (hp : x.permanent = (w.obj o).permanent) :
    Kept w (w.setObj o x) := by
  refine ⟨rfl, rfl, rfl, rfl, rfl, rfl, fun o' => ?_, fun o' => ?_, fun o' => ?_⟩ <;>
  · rw [obj_setObj]
    split
    · rename_i h
      subst h
      assumption
    · rfl

theorem obReference_kept (o : Nat) : Kept w (w.obReference o) := setObj_kept rfl rfl rfl

theorem incHandleCount_kept (o : Nat) : Kept w (w.incHandleCount o) := setObj_kept rfl rfl rfl

theorem decHandleCount_kept (o : Nat) : Kept w (w.decHandleCount o) := setObj_kept rfl rfl rfl

/-- Objects that differ only in their pipe ends. -/
structure SameCounts (x y : Obj) : Prop where
  kind : y.kind = x.kind
  name : y.name = x.name
  pointerCount : y.pointerCount = x.pointerCount
  handleCount : y.handleCount = x.handleCount
  permanent : y.permanent = x.permanent
  token : y.token = x.token
  deletes : y.deletes = x.deletes

theorem pipeOpen_same (x : Obj) (acc : Access) : SameCounts x (pipeOpen x acc) := by
  unfold pipeOpen
  split_ifs <;> exact ⟨rfl, rfl, rfl, rfl, rfl, rfl, rfl⟩

theorem pipeClose_same (x : Obj) (acc : Access) : SameCounts x (pipeClose x acc) := by
  unfold pipeClose
  split_ifs <;> exact ⟨rfl, rfl, rfl, rfl, rfl, rfl, rfl⟩

theorem openFn_kept (o : Nat) (acc : Access) : Kept w (w.openFn o acc) := by
  have h := pipeOpen_same (w.obj o) acc
  unfold openFn
  split
  · exact setObj_kept h.kind h.name h.permanent
  · exact Kept.refl w

theorem closeFn_kept (o : Nat) (acc : Access) : Kept w (w.closeFn o acc) := by
  have h := pipeClose_same (w.obj o) acc
  unfold closeFn
  split
  · exact setObj_kept h.kind h.name h.permanent
  · exact Kept.refl w

/-- Objects that differ only in their counts and the token. -/
structure SameEnds (x y : Obj) : Prop where
  kind : y.kind = x.kind
  name : y.name = x.name
  permanent : y.permanent = x.permanent
  readers : y.readers = x.readers
  writers : y.writers = x.writers
  writerClosed : y.writerClosed = x.writerClosed

section
variable {R : World → World → Prop} (htrans : ∀ w₁ w₂ w₃, R w₁ w₂ → R w₂ w₃ → R w₁ w₃)
  (hset : ∀ w o x, SameEnds (obj w o) x → R w (setObj w o x)) (hrefl : ∀ w, R w w)
include htrans hset

theorem dropReference_rel {del : World → Nat → Outcome World}
    (hdel : ∀ w o w', del w o = .ok w' → R w w') {w w' : World} {o : Nat}
    (h : w.dropReference del o = .ok w') : R w w' := by
  simp only [dropReference] at h
  have hdec : R w (w.decPointerCount o) := hset _ _ _ ⟨rfl, rfl, rfl, rfl, rfl, rfl⟩
  split at h
  · cases h
  · split at h
    · rw [Outcome.bind_eq_ok] at h
      obtain ⟨w1, h1, h2⟩ := h
      cases h2
      exact htrans _ _ _ (htrans _ _ _ hdec (hdel _ _ _ h1))
        (hset _ _ _ ⟨rfl, rfl, rfl, rfl, rfl, rfl⟩)
    · cases h
      exact hdec

include hrefl in
/-- What holds across every write to an object that keeps its ends holds across
`ob_dereference`. -/
theorem obDereference_rel {w w' : World} {o : Nat} (h : w.obDereference o = .ok w') : R w w' := by
  refine dropReference_rel htrans hset (fun w o w' h => ?_) h
  unfold deleteFn at h
  split at h
  · unfold processDelete at h
    split at h
    · cases h
      exact hrefl w
    · rw [Outcome.bind_eq_ok] at h
      obtain ⟨w1, h1, h2⟩ := h
      cases h2
      exact htrans _ _ _ (dropReference_rel htrans hset
        (fun _ _ _ h => by cases h; exact hrefl _) h1) (hset _ _ _ ⟨rfl, rfl, rfl, rfl, rfl, rfl⟩)
  · cases h
    exact hrefl w

end

theorem obDereference_kept {o : Nat} {w' : World} (h : w.obDereference o = .ok w') : Kept w w' :=
  obDereference_rel (R := Kept) (fun _ _ _ => Kept.trans)
    (fun _ _ _ h => setObj_kept h.kind h.name h.permanent) Kept.refl h

theorem releaseHandle_kept {o : Nat} {acc : Access} {w' : World}
    (h : w.releaseHandle o acc = .ok w') : Kept w w' :=
  ((closeFn_kept o acc).trans (decHandleCount_kept o)).trans (obDereference_kept h)

end Aegis.World
