import Aegis.Fs.Proof.Walk

/-!
# The file system keeps its tree and its counts

`VfsInv` is the shape of the tree together with exact counts. A call that drops a reference passes
through a state in which one vnode has a reference too many (`OneOver`); `vn_release` takes it away,
and frees the vnode if it was the last.
-/

namespace Aegis

open Function Finset

namespace Vfs

variable {s s' : Vfs} {v : Nat}
variable {f u : Nat}

/-- The tree has its shape and its counts. -/
structure VfsInv (s : Vfs) : Prop where
  shape : s.Shape
  counted : s.Counted

/-- `v` has a reference that nothing stands for. -/
structure OneOver (s : Vfs) (v : Nat) : Prop where
  shape : s.Shape
  ref : (s.vnode v).ref = s.holds v + 1
  frees : (s.vnode v).frees = 0
  others : ∀ u < s.nvnode, u ≠ v → (s.vnode u).ref = s.holds u ∧
    (s.vnode u).frees = if s.holds u = 0 then 1 else 0

/-! ## Writes that the tree does not see -/

/-- The same vnodes with the same places, names and kinds, and the same File objects on them. -/
structure SameShape (s s' : Vfs) : Prop where
  nvnode : s'.nvnode = s.nvnode
  nfile : s'.nfile = s.nfile
  kind : ∀ u, (s'.vnode u).kind = (s.vnode u).kind
  name : ∀ u, (s'.vnode u).name = (s.vnode u).name
  parent : ∀ u, (s'.vnode u).parent = (s.vnode u).parent
  children : ∀ u, (s'.vnode u).children = (s.vnode u).children
  file : ∀ f, (s'.file f).vnode = (s.file f).vnode

theorem SameShape.refl (s : Vfs) : SameShape s s :=
  ⟨rfl, rfl, fun _ => rfl, fun _ => rfl, fun _ => rfl, fun _ => rfl, fun _ => rfl⟩

theorem SameShape.trans {s'' : Vfs} (h : SameShape s s') (h' : SameShape s' s'') :
    SameShape s s'' where
  nvnode := h'.nvnode.trans h.nvnode
  nfile := h'.nfile.trans h.nfile
  kind u := (h'.kind u).trans (h.kind u)
  name u := (h'.name u).trans (h.name u)
  parent u := (h'.parent u).trans (h.parent u)
  children u := (h'.children u).trans (h.children u)
  file f := (h'.file f).trans (h.file f)

theorem modVnode_self (s : Vfs) (v : Nat) (f : Vnode → Vnode) :
    (s.modVnode v f).vnode v = f (s.vnode v) := update_self ..

theorem modVnode_of_ne (s : Vfs) (h : u ≠ v) (f : Vnode → Vnode) :
    (s.modVnode v f).vnode u = s.vnode u := update_of_ne h ..

theorem modVnode_sameShape (s : Vfs) (v : Nat) {f : Vnode → Vnode}
    (hf : ∀ x, (f x).kind = x.kind ∧ (f x).name = x.name ∧ (f x).parent = x.parent ∧
      (f x).children = x.children) : SameShape s (s.modVnode v f) := by
  have h : ∀ u, ((s.modVnode v f).vnode u).kind = (s.vnode u).kind ∧
      ((s.modVnode v f).vnode u).name = (s.vnode u).name ∧
      ((s.modVnode v f).vnode u).parent = (s.vnode u).parent ∧
      ((s.modVnode v f).vnode u).children = (s.vnode u).children := by
    intro u
    by_cases hu : u = v
    · subst hu
      rw [modVnode_self]
      exact hf _
    · rw [modVnode_of_ne s hu]
      exact ⟨rfl, rfl, rfl, rfl⟩
  exact ⟨rfl, rfl, fun u => (h u).1, fun u => (h u).2.1, fun u => (h u).2.2.1,
    fun u => (h u).2.2.2, fun _ => rfl⟩

theorem unref_sameShape (s : Vfs) (v : Nat) :
    SameShape s (s.modVnode v fun x => { x with ref := x.ref - 1 }) :=
  modVnode_sameShape s v fun _ => ⟨rfl, rfl, rfl, rfl⟩

@[simp] theorem setOffset_vnode (s : Vfs) (f off : Nat) : (s.setOffset f off).vnode = s.vnode := rfl

theorem setOffset_sameShape (s : Vfs) (f off : Nat) : SameShape s (s.setOffset f off) := by
  refine ⟨rfl, rfl, fun _ => rfl, fun _ => rfl, fun _ => rfl, fun _ => rfl, fun g => ?_⟩
  by_cases hg : g = f
  · subst hg
    simp [setOffset, setFile]
  · simp [setOffset, setFile, hg]

theorem SameShape.attached (h : SameShape s s') (u : Nat) : s'.Attached u ↔ s.Attached u := by
  unfold Attached
  rw [h.parent]

theorem SameShape.shape (h : SameShape s s') (hs : s.Shape) : s'.Shape where
  pos := h.nvnode ▸ hs.pos
  rootParent := (h.parent 0).trans hs.rootParent
  rootKind := (h.kind 0).trans hs.rootKind
  child d c hc := by
    rw [h.children] at hc
    rw [h.nvnode, h.parent]
    exact hs.child d c hc
  parent c d hd := by
    rw [h.parent] at hd
    rw [h.children, h.attached, h.kind]
    exact hs.parent c d hd
  once d := (h.children d) ▸ hs.once d
  unique d c hc c' hc' hn := by
    rw [h.children] at hc hc'
    rw [h.name, h.name] at hn
    exact hs.unique d c hc c' hc' hn
  names d c hc := by
    rw [h.children] at hc
    rw [h.name]
    exact hs.names d c hc
  files f u hu := by
    rw [h.file] at hu
    rw [h.nfile, h.nvnode]
    exact hs.files f u hu

theorem SameShape.holds (h : SameShape s s') (u : Nat) : s'.holds u = s.holds u := by
  unfold Vfs.holds
  rw [h.nfile, funext h.file]
  simp only [h.attached u]

theorem VfsInv.same (h : s.VfsInv) (hs : SameShape s s')
    (hc : ∀ u, (s'.vnode u).ref = (s.vnode u).ref ∧ (s'.vnode u).frees = (s.vnode u).frees) :
    s'.VfsInv := by
  refine ⟨hs.shape h.shape, fun u hu => ?_⟩
  rw [(hc u).1, (hc u).2, hs.holds]
  exact h.counted u (hs.nvnode ▸ hu)

/-! ## Counts -/

theorem VfsInv.ref_pos (h : s.VfsInv) (hv : s.Attached v) : 0 < (s.vnode v).ref := by
  rw [(h.counted v (h.shape.attached_lt hv)).1, Vfs.holds, if_pos hv]
  omega

theorem VfsInv.frees_attached (h : s.VfsInv) (hv : s.Attached v) : (s.vnode v).frees = 0 := by
  have hpos : s.holds v ≠ 0 := by
    rw [Vfs.holds, if_pos hv]
    omega
  rw [(h.counted v (h.shape.attached_lt hv)).2, if_neg hpos]

theorem holds_of_open (hf : f < s.nfile) (hv : (s.file f).vnode = some v) : 0 < s.holds v := by
  have := Count.count_pos (f := fun f => (s.file f).vnode) (mem_range.2 hf) hv
  unfold Vfs.holds
  omega

theorem VfsInv.frees_open (h : s.VfsInv) (hv : (s.file f).vnode = some v) :
    (s.vnode v).frees = 0 := by
  obtain ⟨hf, hlt⟩ := h.shape.files f v hv
  have := holds_of_open hf hv
  rw [(h.counted v hlt).2, if_neg (by omega)]

theorem vnRelease_last (h : (s.vnode v).ref = 1) :
    s.vnRelease v = .ok (((s.modVnode v fun x => { x with ref := x.ref - 1 }).modVnode v
      fun x => { x with content := .empty }).modVnode v fun x =>
        { x with frees := x.frees + 1 }) := by
  simp [vnRelease, h, freeVnode]

theorem vnRelease_more (h0 : (s.vnode v).ref ≠ 0) (h1 : (s.vnode v).ref ≠ 1) :
    s.vnRelease v = .ok (s.modVnode v fun x => { x with ref := x.ref - 1 }) := by
  simp [vnRelease, h0, h1]

/-- What `vn_release` leaves alone. -/
structure Released (s : Vfs) (v : Nat) (s' : Vfs) : Prop where
  same : SameShape s s'
  others : ∀ u, u ≠ v → s'.vnode u = s.vnode u
  content : 0 < s.holds v → (s'.vnode v).content = (s.vnode v).content
  file : s'.file = s.file

/-- `vn_release` takes away the reference too many, and frees the vnode if there is no other. -/
theorem OneOver.release (h : s.OneOver v) :
    ∃ s', s.vnRelease v = .ok s' ∧ s'.VfsInv ∧ Released s v s' := by
  have href := h.ref
  have hsame := unref_sameShape s v
  by_cases h1 : (s.vnode v).ref = 1
  · -- nothing else refers to it
    have h0 : s.holds v = 0 := by omega
    have hsame' := (hsame.trans (modVnode_sameShape _ v (f := fun x => { x with content := .empty })
      (fun _ => ⟨rfl, rfl, rfl, rfl⟩))).trans
        (modVnode_sameShape _ v (f := fun x => { x with frees := x.frees + 1 })
          (fun _ => ⟨rfl, rfl, rfl, rfl⟩))
    refine ⟨_, vnRelease_last h1, ⟨hsame'.shape h.shape, fun u hu => ?_⟩,
      ⟨hsame', fun u hu => ?_, fun hpos => by omega, rfl⟩⟩
    · rw [hsame'.holds]
      by_cases he : u = v
      · subst he
        simp [modVnode_self, h1, h0, h.frees]
      · simp only [modVnode_of_ne _ he]
        exact h.others u hu he
    · simp only [modVnode_of_ne _ hu]
  · have hpos : s.holds v ≠ 0 := by omega
    refine ⟨_, vnRelease_more (by omega) h1, ⟨hsame.shape h.shape, fun u hu => ?_⟩,
      ⟨hsame, fun u hu => modVnode_of_ne _ hu _, fun _ => by rw [modVnode_self], rfl⟩⟩
    rw [hsame.holds]
    by_cases he : u = v
    · subst he
      simp only [modVnode_self, if_neg hpos]
      exact ⟨by omega, h.frees⟩
    · rw [modVnode_of_ne _ he]
      exact h.others u hu he

/-! ## New vnodes -/

theorem Shape.unborn (h : s.Shape) : (s.vnode s.nvnode).parent = none ∧
    (s.vnode s.nvnode).children = [] := by
  constructor
  · cases hp : (s.vnode s.nvnode).parent with
    | none => rfl
    | some d =>
      have := (h.child d _ (h.parent _ d hp).1).1
      omega
  · by_contra hne
    obtain ⟨c, hc⟩ := List.exists_mem_of_ne_nil _ hne
    have := h.attached_lt (h.parent c _ (h.child _ c hc).2.1).2.1
    omega

theorem Shape.holds_unborn (h : s.Shape) (hu : s.nvnode ≤ u) : s.holds u = 0 := by
  have hatt : ¬ s.Attached u := fun ha => hu.not_gt (h.attached_lt ha)
  have hcount : Count.count (range s.nfile) (fun f => (s.file f).vnode) u = 0 := by
    rw [Count.count_eq_zero]
    intro f _ hf
    exact hu.not_gt (h.files f u hf).2
  rw [Vfs.holds, if_neg hatt, hcount]

section
variable {name : Name} {kind : VnodeKind}

theorem vnAlloc_new : (s.vnAlloc name kind).vnode s.nvnode = newVnode name kind :=
  update_self ..

theorem vnAlloc_old {u : Nat} (hu : u ≠ s.nvnode) :
    (s.vnAlloc name kind).vnode u = s.vnode u := update_of_ne hu ..

theorem vnAlloc_parent (h : s.Shape) (u : Nat) :
    ((s.vnAlloc name kind).vnode u).parent = (s.vnode u).parent := by
  by_cases hu : u = s.nvnode
  · rw [hu, vnAlloc_new, h.unborn.1]
    rfl
  · rw [vnAlloc_old hu]

theorem vnAlloc_children (h : s.Shape) (u : Nat) :
    ((s.vnAlloc name kind).vnode u).children = (s.vnode u).children := by
  by_cases hu : u = s.nvnode
  · rw [hu, vnAlloc_new, h.unborn.2]
    rfl
  · rw [vnAlloc_old hu]

theorem vnAlloc_attached (h : s.Shape) (u : Nat) :
    (s.vnAlloc name kind).Attached u ↔ s.Attached u := by
  unfold Attached
  rw [vnAlloc_parent h]

theorem vnAlloc_holds (h : s.Shape) (u : Nat) : (s.vnAlloc name kind).holds u = s.holds u := by
  unfold Vfs.holds
  simp only [vnAlloc_attached h]
  rfl

theorem vnAlloc_shape (h : s.Shape) : (s.vnAlloc name kind).Shape where
  pos := Nat.succ_pos _
  rootParent := (vnAlloc_parent h 0).trans h.rootParent
  rootKind := by
    rw [vnAlloc_old h.pos.ne]
    exact h.rootKind
  child d c hc := by
    rw [vnAlloc_children h] at hc
    rw [vnAlloc_parent h]
    obtain ⟨hlt, hp, hd⟩ := h.child d c hc
    exact ⟨Nat.lt_succ_of_lt hlt, hp, hd⟩
  parent c d hd := by
    rw [vnAlloc_parent h] at hd
    obtain ⟨hc, hatt, hdir⟩ := h.parent c d hd
    rw [vnAlloc_children h, vnAlloc_attached h, vnAlloc_old (h.attached_lt hatt).ne]
    exact ⟨hc, hatt, hdir⟩
  once d := by
    rw [vnAlloc_children h]
    exact h.once d
  unique d c hc c' hc' hn := by
    rw [vnAlloc_children h] at hc hc'
    rw [vnAlloc_old (h.child d c hc).1.ne, vnAlloc_old (h.child d c' hc').1.ne] at hn
    exact h.unique d c hc c' hc' hn
  names d c hc := by
    rw [vnAlloc_children h] at hc
    rw [vnAlloc_old (h.child d c hc).1.ne]
    exact h.names d c hc
  files f u hu := ⟨(h.files f u hu).1, Nat.lt_succ_of_lt (h.files f u hu).2⟩

theorem vnAlloc_vnChild (h : s.Shape) (name' : Name) {d : Nat} (hd : d < s.nvnode) :
    (s.vnAlloc name' kind).vnChild d name = s.vnChild d name := by
  unfold vnChild
  rw [vnAlloc_old hd.ne]
  apply List.find?_congr
  intro c hc
  simp only [vnAlloc_old (h.child d c hc).1.ne]

end

/-! ## New entries -/

section
variable {d nv : Nat}

/-- The vnode `nv` has no place in the tree and no entries, and may come into the directory `d`. -/
structure Enters (s : Vfs) (d nv : Nat) : Prop where
  parent : s.Attached d
  dir : (s.vnode d).kind = .dir
  lt : d < nv
  born : nv < s.nvnode
  loose : ¬ s.Attached nv
  empty : (s.vnode nv).children = []
  name : (s.vnode nv).name ≠ [] ∧ (s.vnode nv).name.length < nameMax
  missing : s.vnChild d (s.vnode nv).name = none

section
variable (hd : d ≠ nv) (u : Nat)
include hd

theorem vnAttach_vnode :
    (s.vnAttach d nv).vnode u =
      if u = nv then { s.vnode u with parent := some d }
      else if u = d then { s.vnode u with children := (s.vnode u).children ++ [nv] }
      else s.vnode u := by
  unfold vnAttach
  split_ifs with h1 h2
  · rw [h1, modVnode_of_ne _ hd.symm, modVnode_self]
  · rw [h2, modVnode_self, modVnode_of_ne _ hd]
  · rw [modVnode_of_ne _ h2, modVnode_of_ne _ h1]

theorem vnAttach_parent :
    ((s.vnAttach d nv).vnode u).parent = if u = nv then some d else (s.vnode u).parent := by
  rw [vnAttach_vnode hd]
  split_ifs <;> rfl

theorem vnAttach_children : ((s.vnAttach d nv).vnode u).children =
    if u = d then (s.vnode u).children ++ [nv] else (s.vnode u).children := by
  rw [vnAttach_vnode hd]
  split_ifs with h1 h2
  · exact absurd (h2.symm.trans h1) hd
  · rfl
  · rfl
  · rfl

theorem vnAttach_same :
    ((s.vnAttach d nv).vnode u).kind = (s.vnode u).kind ∧
      ((s.vnAttach d nv).vnode u).name = (s.vnode u).name ∧
      ((s.vnAttach d nv).vnode u).ref = (s.vnode u).ref ∧
      ((s.vnAttach d nv).vnode u).frees = (s.vnode u).frees ∧
      ((s.vnAttach d nv).vnode u).content = (s.vnode u).content := by
  rw [vnAttach_vnode hd]
  split_ifs <;> exact ⟨rfl, rfl, rfl, rfl, rfl⟩

end

theorem Enters.ne (h : s.Enters d nv) : d ≠ nv := h.lt.ne

theorem Enters.attached (h : s.Enters d nv) (u : Nat) :
    (s.vnAttach d nv).Attached u ↔ u = nv ∨ s.Attached u := by
  unfold Attached
  rw [vnAttach_parent h.ne]
  split_ifs with hu
  · simp [hu]
  · simp [hu]

theorem Enters.holds (h : s.Enters d nv) (u : Nat) :
    (s.vnAttach d nv).holds u = s.holds u + if u = nv then 1 else 0 := by
  have hatt := h.attached u
  have hfile : Count.count (range (s.vnAttach d nv).nfile)
      (fun f => ((s.vnAttach d nv).file f).vnode) u =
      Count.count (range s.nfile) (fun f => (s.file f).vnode) u := rfl
  unfold Vfs.holds
  rw [hfile]
  by_cases hu : u = nv
  · rw [if_pos (hatt.2 (.inl hu)), if_pos hu, if_neg (hu ▸ h.loose)]
    omega
  · simp only [hatt, hu, false_or, if_false, Nat.add_zero]

theorem Enters.shape (h : s.Shape) (he : s.Enters d nv) : (s.vnAttach d nv).Shape := by
  have hne := he.ne
  -- the entries of a directory: the old ones, and the new one
  have hmem : ∀ d' c, c ∈ ((s.vnAttach d nv).vnode d').children ↔
      (d' = d ∧ c = nv) ∨ c ∈ (s.vnode d').children := by
    intro d' c
    rw [vnAttach_children hne]
    split_ifs with h1
    · simp [h1, or_comm]
    · simp [h1]
  have hold : ∀ d' c, c ∈ (s.vnode d').children → c ≠ nv := by
    rintro d' c hc rfl
    exact he.loose (h.child_attached hc)
  have hfresh := vnChild_none he.missing
  exact {
    pos := h.pos
    rootParent := by
      rw [vnAttach_parent hne, if_neg (fun h0 => he.loose (.inl h0.symm))]
      exact h.rootParent
    rootKind := (vnAttach_same hne 0).1.trans h.rootKind
    child := fun d' c hc => by
      rw [vnAttach_parent hne]
      obtain ⟨rfl, rfl⟩ | hc := (hmem d' c).1 hc
      · exact ⟨he.born, if_pos rfl, he.lt⟩
      · rw [if_neg (hold d' c hc)]
        exact h.child d' c hc
    parent := fun c d' hp => by
      rw [vnAttach_parent hne] at hp
      rw [hmem, he.attached, (vnAttach_same hne d').1]
      split_ifs at hp with hc
      · cases hp
        exact ⟨.inl ⟨rfl, hc⟩, .inr he.parent, he.dir⟩
      · obtain ⟨h1, h2, h3⟩ := h.parent c d' hp
        exact ⟨.inr h1, .inr h2, h3⟩
    once := fun d' => by
      rw [vnAttach_children hne]
      split_ifs
      · refine List.nodup_append'.2 ⟨h.once d', List.nodup_singleton _, ?_⟩
        intro c hc hc'
        exact hold d' c hc (List.mem_singleton.1 hc')
      · exact h.once d'
    unique := fun d' c hc c' hc' hn => by
      rw [(vnAttach_same hne c).2.1, (vnAttach_same hne c').2.1] at hn
      rw [hmem] at hc hc'
      obtain ⟨rfl, rfl⟩ | hc := hc
      · obtain ⟨-, rfl⟩ | hc' := hc'
        · rfl
        · exact absurd hn.symm (hfresh c' hc')
      · obtain ⟨rfl, rfl⟩ | hc' := hc'
        · exact absurd hn (hfresh c hc)
        · exact h.unique d' c hc c' hc' hn
    names := fun d' c hc => by
      rw [(vnAttach_same hne c).2.1]
      obtain ⟨-, rfl⟩ | hc := (hmem d' c).1 hc
      · exact he.name
      · exact h.names d' c hc
    files := h.files }

end

/-- A new vnode in the directory `d`. -/
def newEntry (s : Vfs) (d : Nat) (name : Name) (kind : VnodeKind) : Vfs :=
  (s.vnAlloc name kind).vnAttach d s.nvnode

section
variable {d : Nat} {name : Name} {kind : VnodeKind}

theorem vnAlloc_enters (h : s.Shape) (hatt : s.Attached d) (hdir : (s.vnode d).kind = .dir)
    (hnone : s.vnChild d name = none) (hne : name ≠ []) (hlen : name.length < nameMax) :
    (s.vnAlloc name kind).Enters d s.nvnode := by
  have hlt := h.attached_lt hatt
  have hname : ((s.vnAlloc name kind).vnode s.nvnode).name = name := by
    rw [vnAlloc_new]
    exact List.take_of_length_le (Nat.le_sub_one_of_lt hlen)
  exact {
    parent := (vnAlloc_attached h d).2 hatt
    dir := by
      rw [vnAlloc_old hlt.ne]
      exact hdir
    lt := hlt
    born := Nat.lt_succ_self _
    loose := fun ha => lt_irrefl _ (h.attached_lt ((vnAlloc_attached h _).1 ha))
    empty := by
      rw [vnAlloc_children h]
      exact h.unborn.2
    name := by
      rw [hname]
      exact ⟨hne, hlen⟩
    missing := by
      rw [hname, vnAlloc_vnChild h _ hlt]
      exact hnone }

theorem newEntry_inv (h : s.VfsInv) (hatt : s.Attached d) (hdir : (s.vnode d).kind = .dir)
    (hnone : s.vnChild d name = none) (hne : name ≠ []) (hlen : name.length < nameMax) :
    (s.newEntry d name kind).VfsInv ∧ (s.newEntry d name kind).Attached s.nvnode := by
  have hen : (s.vnAlloc name kind).Enters d s.nvnode :=
    vnAlloc_enters h.shape hatt hdir hnone hne hlen
  refine ⟨⟨hen.shape (vnAlloc_shape h.shape), fun u hu => ?_⟩, (hen.attached _).2 (.inl rfl)⟩
  obtain ⟨-, -, href, hfrees, -⟩ := vnAttach_same (s := s.vnAlloc name kind) hen.ne u
  unfold newEntry
  rw [href, hfrees, hen.holds, vnAlloc_holds h.shape]
  by_cases he : u = s.nvnode
  · rw [if_pos he, he, vnAlloc_new, h.shape.holds_unborn le_rfl]
    exact ⟨rfl, rfl⟩
  · rw [if_neg he, vnAlloc_old he]
    exact h.counted u (Nat.lt_of_le_of_ne (Nat.lt_succ_iff.1 hu) he)

end

/-! ## Opening -/

/-- A new File object on `v`, which has been pinned for it. -/
def addFile (s : Vfs) (v : Nat) (access : Access) : Vfs :=
  { s.setFile s.nfile ⟨some v, 0, access⟩ with nfile := s.nfile + 1 }

def newFile (s : Vfs) (v : Nat) (access : Access) : Vfs := (s.pin v).addFile v access

section
variable {access : Access} {fileHeap : Bool}

theorem pin_sameShape (s : Vfs) (v : Nat) : SameShape s (s.pin v) :=
  modVnode_sameShape s v fun _ => ⟨rfl, rfl, rfl, rfl⟩

@[simp] theorem addFile_vnode : (s.addFile v access).vnode = s.vnode := rfl

theorem addFile_file (u : Nat) : (s.addFile v access).file u =
    if u = s.nfile then ⟨some v, 0, access⟩ else s.file u := by
  unfold addFile setFile
  exact update_apply ..

theorem addFile_holds (u : Nat) :
    (s.addFile v access).holds u = s.holds u + if v = u then 1 else 0 := by
  have hcount : Count.count (range s.nfile) (fun f => ((s.addFile v access).file f).vnode) u =
      Count.count (range s.nfile) (fun f => (s.file f).vnode) u := by
    apply Count.count_congr
    intro f hf
    rw [addFile_file, if_neg (mem_range.1 hf).ne]
  have hatt : (s.addFile v access).Attached u ↔ s.Attached u := Iff.rfl
  have hnew : ((s.addFile v access).file s.nfile).vnode = some v := by
    rw [addFile_file, if_pos rfl]
  unfold Vfs.holds
  rw [show (s.addFile v access).nfile = s.nfile + 1 from rfl, Count.count_range_succ, hcount, hnew]
  simp only [hatt, Option.some.injEq]
  omega

theorem addFile_shape (h : s.Shape) (hv : v < s.nvnode) : (s.addFile v access).Shape := by
  refine ⟨h.pos, h.rootParent, h.rootKind, h.child, h.parent, h.once, h.unique, h.names,
    fun f u hu => ?_⟩
  rw [addFile_file] at hu
  split_ifs at hu with hf
  · cases hu
    exact ⟨hf ▸ Nat.lt_succ_self _, hv⟩
  · exact ⟨Nat.lt_succ_of_lt (h.files f u hu).1, (h.files f u hu).2⟩

theorem newFile_inv (h : s.VfsInv) (hv : s.Attached v) : (s.newFile v access).VfsInv := by
  have hpin := pin_sameShape s v
  refine ⟨addFile_shape (hpin.shape h.shape) (h.shape.attached_lt hv), fun u hu => ?_⟩
  have hc := h.counted u hu
  unfold newFile
  rw [addFile_holds, hpin.holds]
  by_cases he : u = v
  · subst he
    have hpos := h.ref_pos hv
    rw [if_pos rfl, if_neg (by omega), addFile_vnode, pin, modVnode_self]
    exact ⟨congrArg (· + 1) hc.1, h.frees_attached hv⟩
  · rw [if_neg (Ne.symm he), addFile_vnode, pin, modVnode_of_ne s he]
    exact hc

theorem pin_release (h : 0 < (s.vnode v).ref) : (s.pin v).vnRelease v = .ok s := by
  have href : ((s.pin v).vnode v).ref = (s.vnode v).ref + 1 := by
    rw [pin, modVnode_self]
  rw [vnRelease_more (by omega) (by omega)]
  unfold pin modVnode
  simp

end

/-! ## Names that go -/

theorem detach_vnode {d : Nat} (hne : v ≠ d) (u : Nat) :
    (s.detach d v).vnode u =
      if u = v then { s.vnode u with parent := none }
      else if u = d then { s.vnode u with children := (s.vnode u).children.filter (· ≠ v) }
      else s.vnode u := by
  unfold detach
  split_ifs with h1 h2
  · rw [h1, modVnode_self, modVnode_of_ne _ hne]
  · rw [modVnode_of_ne _ h1, h2, modVnode_self]
  · rw [modVnode_of_ne _ h1, modVnode_of_ne _ h2]

section
variable {d : Nat}

section
variable (hne : v ≠ d) (u : Nat)
include hne

theorem detach_parent :
    ((s.detach d v).vnode u).parent = if u = v then none else (s.vnode u).parent := by
  rw [detach_vnode hne]
  split_ifs <;> rfl

theorem detach_kind : ((s.detach d v).vnode u).kind = (s.vnode u).kind := by
  rw [detach_vnode hne]
  split_ifs <;> rfl

theorem detach_name : ((s.detach d v).vnode u).name = (s.vnode u).name := by
  rw [detach_vnode hne]
  split_ifs <;> rfl

theorem detach_content : ((s.detach d v).vnode u).content = (s.vnode u).content := by
  rw [detach_vnode hne]
  split_ifs <;> rfl

theorem detach_counts :
    ((s.detach d v).vnode u).ref = (s.vnode u).ref ∧
      ((s.detach d v).vnode u).frees = (s.vnode u).frees := by
  rw [detach_vnode hne]
  split_ifs <;> exact ⟨rfl, rfl⟩

end

section
variable (h : s.Shape) (hv : v ∈ (s.vnode d).children)
include h hv

theorem detach_children (u : Nat) :
    ((s.detach d v).vnode u).children = (s.vnode u).children.filter (· ≠ v) := by
  have hlt := (h.child d v hv).2.2
  have hother : u ≠ d → (s.vnode u).children.filter (· ≠ v) = (s.vnode u).children := by
    intro hu
    apply List.filter_eq_self.2
    intro c hc
    have hne : c ≠ v := by
      rintro rfl
      have := (h.child u c hc).2.1.symm.trans (h.child d c hv).2.1
      exact hu (Option.some.inj this)
    simpa using hne
  rw [detach_vnode hlt.ne']
  split_ifs with h1 h2
  · exact (hother (by omega)).symm
  · rfl
  · exact (hother h2).symm

theorem detach_attached (u : Nat) : (s.detach d v).Attached u ↔ u ≠ v ∧ s.Attached u := by
  have hlt := (h.child d v hv).2.2
  unfold Attached
  rw [detach_parent hlt.ne']
  split_ifs with hu
  · simp [hu, h.child_ne_zero hv]
  · simp [hu]

theorem detach_shape (hempty : (s.vnode v).children = []) : (s.detach d v).Shape := by
  have hne := (h.child d v hv).2.2.ne'
  have hmem : ∀ d' c, c ∈ ((s.detach d v).vnode d').children ↔
      c ∈ (s.vnode d').children ∧ c ≠ v := by
    intro d' c
    rw [detach_children h hv]
    simp [List.mem_filter]
  exact {
    pos := h.pos
    rootParent := by
      rw [detach_parent hne, if_neg (h.child_ne_zero hv).symm]
      exact h.rootParent
    rootKind := (detach_kind hne 0).trans h.rootKind
    child := fun d' c hc => by
      obtain ⟨hc, hcv⟩ := (hmem d' c).1 hc
      rw [detach_parent hne, if_neg hcv]
      exact h.child d' c hc
    parent := fun c d' hp => by
      rw [detach_parent hne] at hp
      split_ifs at hp with hcv
      obtain ⟨hc, hatt, hdir⟩ := h.parent c d' hp
      -- the vnode that goes has no entries
      have hd' : d' ≠ v := by
        rintro rfl
        rw [hempty] at hc
        cases hc
      exact ⟨(hmem d' c).2 ⟨hc, hcv⟩, (detach_attached h hv d').2 ⟨hd', hatt⟩,
        (detach_kind hne d').trans hdir⟩
    once := fun d' => by
      rw [detach_children h hv]
      exact (h.once d').filter _
    unique := fun d' c hc c' hc' hn => by
      rw [detach_name hne, detach_name hne] at hn
      exact h.unique d' c ((hmem d' c).1 hc).1 c' ((hmem d' c').1 hc').1 hn
    names := fun d' c hc => by
      rw [detach_name hne]
      exact h.names d' c ((hmem d' c).1 hc).1
    files := h.files }

theorem detach_holds (u : Nat) : s.holds u = (s.detach d v).holds u + if u = v then 1 else 0 := by
  have hatt := detach_attached h hv u
  have hfile : Count.count (range (s.detach d v).nfile)
      (fun f => ((s.detach d v).file f).vnode) u =
      Count.count (range s.nfile) (fun f => (s.file f).vnode) u := rfl
  unfold Vfs.holds
  rw [hfile]
  by_cases hu : u = v
  · have hgone : ¬ (s.detach d v).Attached u := fun ha => (hatt.1 ha).1 hu
    rw [if_neg hgone, if_pos hu, if_pos (hu ▸ h.child_attached hv)]
    omega
  · simp only [hatt, ne_eq, hu, not_false_eq_true, true_and, if_false, Nat.add_zero]

end

theorem detach_oneOver (h : s.VfsInv) (hv : v ∈ (s.vnode d).children)
    (hempty : (s.vnode v).children = []) : (s.detach d v).OneOver v := by
  have hne := (h.shape.child d v hv).2.2.ne'
  have hatt := h.shape.child_attached hv
  refine ⟨detach_shape h.shape hv hempty, ?_, ?_, fun u hu hne' => ?_⟩
  · have hself := detach_holds h.shape hv v
    rw [if_pos rfl] at hself
    rw [(detach_counts hne v).1, (h.counted v (h.shape.attached_lt hatt)).1, hself]
  · rw [(detach_counts hne v).2, h.frees_attached hatt]
  · have hother := detach_holds h.shape hv u
    rw [if_neg hne', Nat.add_zero] at hother
    rw [(detach_counts hne u).1, (detach_counts hne u).2, ← hother]
    exact h.counted u hu

end

/-! ## File objects that go -/

/-- The File object `f` lets go of its vnode. -/
def dropFile (s : Vfs) (f : Nat) : Vfs := s.setFile f { s.file f with vnode := none }

theorem dropFile_file (f g : Nat) : ((s.dropFile f).file g).vnode =
    if g = f then none else (s.file g).vnode := by
  simp only [dropFile, setFile, update_apply]
  split_ifs <;> rfl

theorem dropFile_holds (h : s.Shape) (hf : (s.file f).vnode = some v) (u : Nat) :
    s.holds u = (s.dropFile f).holds u + if v = u then 1 else 0 := by
  have hlt := mem_range.2 (h.files f v hf).1
  have hc := Count.count_set (f := fun g => (s.file g).vnode)
    (g := fun g => ((s.dropFile f).file g).vnode) hlt
    (fun g _ hg => by simp only [dropFile_file, if_neg hg]) u
  simp only [dropFile_file, if_true, hf, Option.some.injEq, reduceCtorEq, if_false] at hc
  have hatt : (s.dropFile f).Attached u ↔ s.Attached u := Iff.rfl
  unfold Vfs.holds
  simp only [dropFile_file, hatt]
  rw [show (s.dropFile f).nfile = s.nfile from rfl]
  omega

theorem dropFile_oneOver (h : s.VfsInv) (hf : (s.file f).vnode = some v) :
    (s.dropFile f).OneOver v := by
  have hsh := h.shape
  have hlt := (hsh.files f v hf).2
  refine ⟨⟨hsh.pos, hsh.rootParent, hsh.rootKind, hsh.child, hsh.parent, hsh.once, hsh.unique,
    hsh.names, fun g u hu => ?_⟩, ?_, h.frees_open hf, fun u hu hne => ?_⟩
  · rw [dropFile_file] at hu
    split_ifs at hu
    exact hsh.files g u hu
  · have hself := dropFile_holds hsh hf v
    rw [if_pos rfl] at hself
    exact (h.counted v hlt).1.trans hself
  · have hother := dropFile_holds hsh hf u
    rw [if_neg hne.symm, Nat.add_zero] at hother
    rw [← hother]
    exact h.counted u hu

end Vfs

end Aegis
