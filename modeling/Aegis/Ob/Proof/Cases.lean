import Aegis.Ob.Proof.Frame

/-!
# What a handle-table operation can do

One lemma for each function of `ob/handle.c`, with every way it can end: its status and result,
the slot it works on, and the world it leaves.
-/

namespace Aegis.World

section
variable {w : World} {p o i : Nat} {h : Handle}
variable {t : HandleTable}

theorem mem_indices : i ∈ HandleTable.indices ↔ i ∈ Finset.Ico 1 handleTableSlots := by
  simp only [HandleTable.indices, handleTableSlots, List.mem_range'_1, Finset.mem_Ico]

theorem firstFree_spec (h : t.firstFree = some i) :
    i ∈ Finset.Ico 1 handleTableSlots ∧ (t.slots i).object = none :=
  ⟨mem_indices.1 (List.mem_of_find?_eq_some h), by simpa using List.find?_some h⟩

theorem firstUsed_spec (h : t.firstUsed = some i) :
    i ∈ Finset.Ico 1 handleTableSlots ∧ ∃ o, (t.slots i).object = some o :=
  ⟨mem_indices.1 (List.mem_of_find?_eq_some h), Option.isSome_iff_exists.1
    (by simpa using List.find?_some h)⟩

theorem firstUsed_none (h : t.firstUsed = none) :
    ∀ i ∈ Finset.Ico 1 handleTableSlots, (t.slots i).object = none := by
  intro i hi
  simpa using List.find?_eq_none.1 h i (mem_indices.2 hi)

theorem resolve_eq_some : t.resolve h = some (i, o) ↔
    i ∈ Finset.Ico 1 handleTableSlots ∧ handleIndex h = i ∧ h &&& 3 = 0 ∧
      (t.slots i).object = some o ∧ (t.slots i).generation = handleGen h := by
  simp only [HandleTable.resolve, Finset.mem_Ico]
  constructor
  · intro hr
    split at hr
    · cases hr
    · rename_i hg
      simp only [not_or, not_not] at hg
      split at hr
      · cases hr
      · rename_i o' ho
        split at hr
        · cases hr
        · rename_i hgen
          simp only [Option.some.injEq, Prod.mk.injEq] at hr
          obtain ⟨rfl, rfl⟩ := hr
          exact ⟨⟨by omega, by omega⟩, rfl, hg.2.2, ho, not_not.1 hgen⟩
  · rintro ⟨⟨h1, h2⟩, rfl, h3, ho, hg⟩
    rw [if_neg (by simp only [not_or, not_not]; exact ⟨by omega, by omega, h3⟩), ho]
    simp only [hg, ne_eq, not_true_eq_false, if_false]

variable (w p o h)

theorem htInsertEx_cases (access : Access) (inherit protectClose : Bool) :
    ((w.handles p).firstFree = none ∧
      w.htInsertEx p o access inherit protectClose = (.insufficientResources, none, w)) ∨
    ∃ i, (w.handles p).firstFree = some i ∧ i ∈ Finset.Ico 1 handleTableSlots ∧
      ((w.handles p).slots i).object = none ∧ w.htInsertEx p o access inherit protectClose =
        (.success, some (handleValue i (nextGeneration ((w.handles p).slots i).generation)),
          (((w.obReference o).incHandleCount o).setTable p ((w.handles p).set i
            (filled ((w.handles p).slots i) o (obMapGeneric (objectType (w.obj o).kind) access)
              inherit protectClose) ((w.handles p).used + 1))).openFn o
            (obMapGeneric (objectType (w.obj o).kind) access)) := by
  simp only [htInsertEx]
  split
  · rename_i hf
    exact .inl ⟨hf, rfl⟩
  · rename_i i hf
    obtain ⟨hi, hn⟩ := firstFree_spec hf
    exact .inr ⟨i, hf, hi, hn, rfl⟩

theorem htInsertEx_kind (access : Access) (inherit protectClose : Bool) (q : Nat) :
    ((w.htInsertEx p o access inherit protectClose).2.2.obj q).kind = (w.obj q).kind := by
  rcases htInsertEx_cases w p o access inherit protectClose with ⟨-, he⟩ | ⟨i, -, -, -, he⟩
  · rw [he]
  · rw [he, (openFn_kept _ _).kind, obj_setTable, (incHandleCount_kept _).kind,
      (obReference_kept _).kind]

theorem htLookupEx_cases (required : Access) (expect : Option ObjKind) :
    (∃ st, st ≠ .success ∧ w.htLookupEx p h required expect = (st, none, w)) ∨
    ∃ i o, (w.handles p).resolve h = some (i, o) ∧
      (required ≠ 0 → ((w.handles p).slots i).access &&& required = required) ∧
      (∀ k, expect = some k → (w.obj o).kind = k) ∧ w.htLookupEx p h required expect =
        (.success, some (o, ((w.handles p).slots i).access), w.obReference o) := by
  simp only [htLookupEx]
  split
  · exact .inl ⟨_, by simp, rfl⟩
  · rename_i i o hr
    split
    · exact .inl ⟨_, by simp, rfl⟩
    · rename_i hreq
      split
      · exact .inl ⟨_, by simp, rfl⟩
      · rename_i hexp
        refine .inr ⟨i, o, hr, fun h0 => ?_, fun k hk => ?_, rfl⟩
        · by_contra hne
          exact hreq ⟨h0, hne⟩
        · by_contra hne
          exact hexp ⟨by simp [hk], by simpa [hk] using fun e => hne e.symm⟩

theorem htClose_cases :
    ((w.handles p).resolve h = none ∧ w.htClose p h = .ok (.invalidHandle, w)) ∨
    ∃ i o, (w.handles p).resolve h = some (i, o) ∧
      ((((w.handles p).slots i).protectClose = true ∧ w.htClose p h = .ok (.accessDenied, w)) ∨
        (((w.handles p).slots i).protectClose = false ∧
          w.htClose p h = ((w.setTable p ((w.handles p).set i (emptied ((w.handles p).slots i))
            (Word.sub 32 (w.handles p).used 1))).releaseHandle o ((w.handles p).slots i).access >>=
              fun w => .ok (.success, w)))) := by
  simp only [htClose]
  split
  · rename_i hr
    exact .inl ⟨hr, rfl⟩
  · rename_i i o hr
    refine .inr ⟨i, o, hr, ?_⟩
    split
    · rename_i hp
      exact .inl ⟨hp, rfl⟩
    · rename_i hp
      exact .inr ⟨by simpa using hp, rfl⟩

theorem htSetInherit_cases (inherit : Bool) :
    ((w.handles p).resolve h = none ∧ w.htSetInherit p h inherit = (.invalidHandle, w)) ∨
    ∃ i o, (w.handles p).resolve h = some (i, o) ∧
      w.htSetInherit p h inherit = (.success, w.setTable p ((w.handles p).set i
        { (w.handles p).slots i with inherit } (w.handles p).used)) := by
  simp only [htSetInherit]
  split
  · rename_i hr
    exact .inl ⟨hr, rfl⟩
  · rename_i i o hr
    exact .inr ⟨i, o, hr, rfl⟩

theorem htDuplicate_cases (dst : Nat) (access : Access) :
    (∃ st, st ≠ .success ∧ w.htDuplicate p h dst access = .ok (st, none, w)) ∨
    ∃ i o, (w.handles p).resolve h = some (i, o) ∧
      w.htDuplicate p h dst access =
        (((w.obReference o).htInsert dst o
          (if access = 0 then ((w.handles p).slots i).access else access)).2.2.obDereference o >>=
            fun w' => .ok (((w.obReference o).htInsert dst o
              (if access = 0 then ((w.handles p).slots i).access else access)).1,
              ((w.obReference o).htInsert dst o
                (if access = 0 then ((w.handles p).slots i).access else access)).2.1, w')) := by
  unfold htDuplicate
  rcases htLookupEx_cases w p h 0 none with ⟨st, hst, he⟩ | ⟨i, o, hr, -, -, he⟩
  · rw [he]
    exact .inl ⟨st, hst, rfl⟩
  · rw [he]
    exact .inr ⟨i, o, hr, rfl⟩

theorem mem_inheritable {x : Nat × Access} (hx : x ∈ inheritable t) :
    ∃ i ∈ Finset.Ico 1 handleTableSlots, (t.slots i).inherit = true ∧
      (t.slots i).object = some x.1 ∧ (t.slots i).access = x.2 := by
  obtain ⟨i, hi, he⟩ := List.mem_filterMap.1 hx
  split at he
  · rename_i hin
    obtain ⟨o, ho, rfl⟩ := Option.map_eq_some_iff.1 he
    exact ⟨i, mem_indices.1 hi, hin, ho, rfl⟩
  · cases he

end

end Aegis.World
