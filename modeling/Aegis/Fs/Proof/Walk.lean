import Aegis.Fs.Vfs

/-!
# Where a walk ends

`Shape` is the structure of the tree: what the children lists and parent pointers say, with the
numbers of vnodes growing away from the root. In such a tree `walk` returns, and ends at a directory
that has a name, with an entry of it or with a name that it has no entry of.
-/

namespace Aegis

/-! ## Components -/

theorem cutComponent_length_le (k : Nat) (p : Name) : (cutComponent k p).1.length ≤ k := by
  induction k generalizing p with
  | zero => simp [cutComponent]
  | succ k ih =>
    cases p with
    | nil => simp [cutComponent]
    | cons c p =>
      simp only [cutComponent]
      split_ifs
      · simp
      · simpa using ih p

theorem cutComponent_append (k : Nat) (p : Name) :
    (cutComponent k p).1 ++ (cutComponent k p).2 = p := by
  induction k generalizing p with
  | zero => simp [cutComponent]
  | succ k ih =>
    cases p with
    | nil => simp [cutComponent]
    | cons c p =>
      simp only [cutComponent]
      split_ifs
      · simp
      · simpa using ih p

theorem nextComponent_name_lt (p : Name) : (nextComponent p).1.length < nameMax :=
  Nat.lt_of_le_of_lt (cutComponent_length_le (nameMax - 1) p) (by decide)

theorem nextComponent_rest_lt {p : Name} (hp : p ≠ []) :
    (nextComponent p).2.2.length < p.length := by
  cases p with
  | nil => exact absurd rfl hp
  | cons c p =>
    by_cases hc : c = slash
    · simp [nextComponent, nameMax, cutComponent, hc]
    · have happ := congrArg List.length (cutComponent_append 62 p)
      rw [List.length_append] at happ
      simp only [nextComponent, nameMax, cutComponent, if_neg hc]
      split_ifs
      · simp only [List.length_tail, List.length_cons]
        omega
      · simp only [List.length_cons]
        omega

theorem skipSlashes_length_le (p : Name) : (skipSlashes p).length ≤ p.length :=
  (List.dropWhile_sublist _).length_le

namespace Vfs

variable {s s' : Vfs}
variable {c d v : Nat} {name : Name}

/-! ## The shape of the tree -/

/-- The children lists and parent pointers are a tree. -/
structure Shape (s : Vfs) : Prop where
  pos : 0 < s.nvnode
  rootParent : (s.vnode 0).parent = none
  rootKind : (s.vnode 0).kind = .dir
  child : ∀ d, ∀ c ∈ (s.vnode d).children, c < s.nvnode ∧ (s.vnode c).parent = some d ∧ d < c
  parent : ∀ c d, (s.vnode c).parent = some d →
    c ∈ (s.vnode d).children ∧ s.Attached d ∧ (s.vnode d).kind = .dir
  once : ∀ d, (s.vnode d).children.Nodup
  unique : ∀ d, ∀ c ∈ (s.vnode d).children, ∀ c' ∈ (s.vnode d).children,
    (s.vnode c).name = (s.vnode c').name → c = c'
  names : ∀ d, ∀ c ∈ (s.vnode d).children,
    (s.vnode c).name ≠ [] ∧ (s.vnode c).name.length < nameMax
  files : ∀ f v, (s.file f).vnode = some v → f < s.nfile ∧ v < s.nvnode

theorem Shape.attached_lt (h : s.Shape) (hv : s.Attached v) : v < s.nvnode := by
  obtain rfl | hv := hv
  · exact h.pos
  · obtain ⟨d, hd⟩ := Option.ne_none_iff_exists'.1 hv
    exact (h.child d v (h.parent v d hd).1).1

theorem Shape.child_attached (h : s.Shape) (hc : c ∈ (s.vnode d).children) : s.Attached c := by
  right
  rw [(h.child d c hc).2.1]
  exact Option.some_ne_none d

theorem Shape.child_ne_zero (h : s.Shape) (hc : c ∈ (s.vnode d).children) : c ≠ 0 := by
  have := (h.child d c hc).2.2
  omega

/-- The numbers grow away from the root: a vnode with a name is below it. -/
theorem Shape.inTree (h : s.Shape) (hv : s.Attached v) : s.InTree v := by
  induction v using Nat.strong_induction_on with
  | _ v ih =>
    obtain rfl | hv := hv
    · exact .root
    · obtain ⟨d, hd⟩ := Option.ne_none_iff_exists'.1 hv
      obtain ⟨hc, hatt, -⟩ := h.parent v d hd
      exact .child (ih d (h.child d v hc).2.2 hatt) hc

theorem Shape.attached (h : s.Shape) (hv : s.InTree v) : s.Attached v := by
  cases hv with
  | root => exact .inl rfl
  | child _ hc => exact h.child_attached hc

theorem Shape.tree (h : s.Shape) : s.Tree where
  rooted v _ := ⟨h.inTree, h.attached⟩
  root := h.rootParent
  parent d _ c _ := ⟨fun hp => (h.parent c d hp).1, fun hc => (h.child d c hc).2.1⟩
  once d _ := h.once d
  unique d _ := h.unique d
  names d _ := h.names d
  dirs d _ hne := by
    obtain ⟨c, hc⟩ := List.exists_mem_of_ne_nil _ hne
    exact (h.parent c d (h.child d c hc).2.1).2.2

/-! ## Children -/

theorem vnChild_mem (h : s.vnChild d name = some c) :
    c ∈ (s.vnode d).children ∧ (s.vnode c).name = name :=
  ⟨List.mem_of_find?_eq_some h, by simpa using List.find?_some h⟩

theorem vnChild_none (h : s.vnChild d name = none) :
    ∀ c ∈ (s.vnode d).children, (s.vnode c).name ≠ name := by
  intro c hc
  simpa using List.find?_eq_none.1 h c hc

/-! ## Walks -/

/-- Where a successful walk ends. -/
structure Ends (s : Vfs) (w : Walked) : Prop where
  parent : s.Attached w.parent
  dir : (s.vnode w.parent).kind = .dir
  length : w.name.length < nameMax
  missing : w.leaf = none → s.vnChild w.parent w.name = none
  entry : ∀ v, w.leaf = some v → v = 0 ∨ v ∈ (s.vnode w.parent).children

theorem walkLoop_spec (h : s.Shape) (lastMustExist : Bool) {k cur : Nat} {p : Name} (hp : p ≠ [])
    (hk : p.length ≤ k) (hatt : s.Attached cur) (hdir : (s.vnode cur).kind = .dir) :
    ∃ r, s.walkLoop lastMustExist k cur p = .ok r ∧ ∀ w, r.2 = some w → s.Ends w := by
  induction k generalizing cur p with
  | zero =>
    cases p with
    | nil => exact absurd rfl hp
    | cons => cases hk
  | succ k ih =>
    have hlt := nextComponent_rest_lt hp
    have hskip := skipSlashes_length_le (nextComponent p).2.2
    simp only [walkLoop]
    by_cases hlast : (nextComponent p).2.2 = [] ∧ (nextComponent p).2.1 = false
    · rw [if_pos hlast]
      split_ifs
      · exact ⟨_, rfl, fun w hw => by cases hw⟩
      · refine ⟨_, rfl, fun w hw => ?_⟩
        cases hw
        exact ⟨hatt, hdir, nextComponent_name_lt p, id, fun v hv => .inr (vnChild_mem hv).1⟩
    · rw [if_neg hlast]
      cases hnext : s.vnChild cur (nextComponent p).1 with
      | none => exact ⟨_, rfl, fun w hw => by cases hw⟩
      | some n =>
        obtain ⟨hmem, -⟩ := vnChild_mem hnext
        simp only
        split_ifs with hkind hrest
        · exact ⟨_, rfl, fun w hw => by cases hw⟩
        · refine ⟨_, rfl, fun w hw => ?_⟩
          cases hw
          exact ⟨hatt, hdir, Nat.succ_pos 63, by nofun, fun v hv => by cases hv; exact .inr hmem⟩
        · exact ih hrest (by omega) (h.child_attached hmem) (not_not.1 hkind)

theorem walk_spec (h : s.Shape) (abs : Name) (lastMustExist : Bool) :
    ∃ r, s.walk abs lastMustExist = .ok r ∧ ∀ w, r.2 = some w → s.Ends w := by
  cases abs with
  | nil => exact ⟨_, rfl, fun w hw => by cases hw⟩
  | cons c p =>
    simp only [walk]
    split_ifs with hc hp
    · exact ⟨_, rfl, fun w hw => by cases hw⟩
    · refine ⟨_, rfl, fun w hw => ?_⟩
      cases hw
      exact ⟨.inl rfl, h.rootKind, by decide, by nofun, fun v hv => by cases hv; exact .inl rfl⟩
    · exact walkLoop_spec h lastMustExist hp le_rfl (.inl rfl) h.rootKind

theorem Shape.resolve_attached (h : s.Shape) {cwd path : Name} (hr : s.resolve cwd path = some v) :
    s.Attached v := by
  simp only [resolve, Option.bind_eq_bind, Option.bind_eq_some_iff] at hr
  obtain ⟨abs, -, r, hw, w, hrw, hv⟩ := hr
  obtain ⟨r', hr', hends⟩ := walk_spec h abs true
  rw [hr'] at hw
  cases hw
  obtain rfl | hmem := (hends w hrw).entry v hv
  · exact .inl rfl
  · exact h.child_attached hmem

end Vfs

end Aegis
