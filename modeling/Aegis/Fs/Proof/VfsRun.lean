import Aegis.Fs.Proof.Vfs

/-!
# Runs of the file system

Every call returns, keeps `VfsInv`, and goes `Onward`: no vnode that has lost its name gets one again,
a File object stays on its vnode until it is deleted, and the contents of a vnode that something
still refers to change by writes alone. The last two are what a File object that outlives the name of
its vnode lives on.
-/

namespace Aegis

open Outcome

namespace Vfs

variable {s s' s'' : Vfs} {v : Nat}
variable {f : Nat} {cwd path : Name} {a : VfsOp} {access : Access} {w : Walked}

/-- What a call does to the vnodes and File objects that there are. -/
structure Onward (s : Vfs) (a : VfsOp) (s' : Vfs) : Prop where
  nvnode : s.nvnode ≤ s'.nvnode
  file : ∀ f < s.nfile, a ≠ .delete f → (s'.file f).vnode = (s.file f).vnode
  parent : ∀ u < s.nvnode, (s.vnode u).parent = none → (s'.vnode u).parent = none
  content : ∀ u < s.nvnode, 0 < s'.holds u → (s'.vnode u).content = s.contentBy u a

/-! ## Calls that take nothing away -/

/-- Old vnodes keep their place and contents, and old File objects their vnode. -/
structure Adds (s s' : Vfs) : Prop where
  nvnode : s.nvnode ≤ s'.nvnode
  nfile : s.nfile ≤ s'.nfile
  file : ∀ f < s.nfile, (s'.file f).vnode = (s.file f).vnode
  parent : ∀ u < s.nvnode, (s'.vnode u).parent = (s.vnode u).parent
  content : ∀ u < s.nvnode, (s'.vnode u).content = (s.vnode u).content

theorem Adds.refl (s : Vfs) : Adds s s :=
  ⟨le_rfl, le_rfl, fun _ _ => rfl, fun _ _ => rfl, fun _ _ => rfl⟩

theorem Adds.trans (h : Adds s s') (h' : Adds s' s'') : Adds s s'' where
  nvnode := h.nvnode.trans h'.nvnode
  nfile := h.nfile.trans h'.nfile
  file f hf := (h'.file f (hf.trans_le h.nfile)).trans (h.file f hf)
  parent u hu := (h'.parent u (hu.trans_le h.nvnode)).trans (h.parent u hu)
  content u hu := (h'.content u (hu.trans_le h.nvnode)).trans (h.content u hu)

theorem Adds.onward (h : Adds s s') (ha : ∀ u, s.contentBy u a = (s.vnode u).content) :
    Onward s a s' where
  nvnode := h.nvnode
  file f hf _ := h.file f hf
  parent u hu hp := (h.parent u hu).trans hp
  content u hu _ := (h.content u hu).trans (ha u).symm

theorem SameShape.adds (h : SameShape s s')
    (hc : ∀ u, (s'.vnode u).content = (s.vnode u).content) : Adds s s' :=
  ⟨h.nvnode.ge, h.nfile.ge, fun f _ => h.file f, fun u _ => h.parent u, fun u _ => hc u⟩

theorem newEntry_adds {d : Nat} {name : Name} {kind : VnodeKind} (hd : d < s.nvnode) :
    Adds s (s.newEntry d name kind) where
  nvnode := Nat.le_succ _
  nfile := le_rfl
  file _ _ := rfl
  parent u hu := by rw [newEntry, vnAttach_parent hd.ne, if_neg hu.ne, vnAlloc_old hu.ne]
  content u hu := by
    rw [newEntry, (vnAttach_same hd.ne u).2.2.2.2, vnAlloc_old hu.ne]

theorem newFile_adds : Adds s (s.newFile v access) where
  nvnode := le_rfl
  nfile := Nat.le_succ _
  file f hf := by
    rw [newFile, addFile_file, if_neg (show f ≠ (s.pin v).nfile from hf.ne)]
    rfl
  parent u _ := (pin_sameShape s v).parent u
  content u _ := by
    show ((s.pin v).vnode u).content = _
    by_cases hu : u = v
    · rw [pin, hu, modVnode_self]
    · rw [pin, modVnode_of_ne s hu]

/-! ## `vfs_mkdir` -/

theorem vfsMkdir_spec (h : s.VfsInv) (cwd path : Name) (heap : Bool) :
    ∃ r, s.vfsMkdir cwd path heap = .ok r ∧ r.2.VfsInv ∧ Adds s r.2 := by
  unfold vfsMkdir
  cases hn : pathNorm cwd path with
  | none => exact ⟨_, rfl, h, .refl s⟩
  | some abs =>
    obtain ⟨⟨st, w⟩, hr, hends⟩ := walk_spec h.shape abs false
    simp only [hr, ok_bind]
    cases w with
    | none => exact ⟨_, rfl, h, .refl s⟩
    | some w =>
      have hw := hends w rfl
      have hlt := h.shape.attached_lt hw.parent
      simp only
      split_ifs with hleaf hname hheap hrace
      · exact ⟨_, rfl, h, .refl s⟩
      · exact ⟨_, rfl, h, .refl s⟩
      · exact ⟨_, rfl, h, .refl s⟩
      · -- nothing came between the walk and the lock
        rw [vnAlloc_vnChild h.shape _ hlt, hw.missing (not_not.1 hleaf)] at hrace
        exact absurd rfl hrace
      · exact ⟨_, rfl, (newEntry_inv h hw.parent hw.dir (hw.missing (not_not.1 hleaf)) hname
          hw.length).1, newEntry_adds hlt⟩

/-! ## `vfs_open` -/

theorem foFromPinned_spec (h : s.VfsInv) (hv : s.Attached v) (access : Access) (fileHeap : Bool) :
    ∃ r, (s.pin v).foFromPinned v access fileHeap = .ok r ∧ r.2.2.VfsInv ∧ Adds s r.2.2 := by
  unfold foFromPinned
  split_ifs
  · rw [pin_release (h.ref_pos hv)]
    exact ⟨_, rfl, h, .refl s⟩
  · exact ⟨_, rfl, newFile_inv h hv, newFile_adds⟩

theorem openNew_spec (h : s.VfsInv) (hw : s.Ends w) (hleaf : w.leaf = none) (access : Access)
    (opts : BitVec 32) (heap fileHeap : Bool) :
    ∃ r, s.openNew w access opts heap fileHeap = .ok r ∧ r.2.2.VfsInv ∧ Adds s r.2.2 := by
  have hlt := h.shape.attached_lt hw.parent
  unfold openNew
  split_ifs with hname hheap
  · exact ⟨_, rfl, h, .refl s⟩
  · exact ⟨_, rfl, h, .refl s⟩
  all_goals
    simp only [vnAlloc_vnChild h.shape _ hlt, hw.missing hleaf]
    obtain ⟨hnew, hatt⟩ := newEntry_inv h hw.parent hw.dir (hw.missing hleaf) hname hw.length
    obtain ⟨r, hr, hinv, hadd⟩ := foFromPinned_spec hnew hatt access fileHeap
    exact ⟨r, hr, hinv, (newEntry_adds hlt).trans hadd⟩

theorem openOld_spec (h : s.VfsInv) (hv : s.Attached v) (access : Access) (fileHeap : Bool) :
    ∃ r, s.openOld v access fileHeap = .ok r ∧ r.2.2.VfsInv ∧ Adds s r.2.2 := by
  unfold openOld
  split_ifs
  · exact ⟨_, rfl, h, .refl s⟩
  · exact foFromPinned_spec h hv access fileHeap

theorem Ends.leaf_attached (h : s.Shape) (hw : s.Ends w) (hv : w.leaf = some v) : s.Attached v := by
  obtain rfl | hmem := hw.entry v hv
  · exact .inl rfl
  · exact h.child_attached hmem

theorem openWalked_spec (h : s.VfsInv) (hw : s.Ends w) (access : Access) (disp opts : BitVec 32)
    (heap fileHeap : Bool) :
    ∃ r, s.openWalked w access disp opts heap fileHeap = .ok r ∧ r.2.2.VfsInv ∧ Adds s r.2.2 := by
  unfold openWalked
  cases hleaf : w.leaf with
  | none =>
    simp only
    split_ifs
    · exact ⟨_, rfl, h, .refl s⟩
    · exact openNew_spec h hw hleaf access opts heap fileHeap
  | some v =>
    simp only
    split_ifs
    · exact ⟨_, rfl, h, .refl s⟩
    · exact ⟨_, rfl, h, .refl s⟩
    · exact ⟨_, rfl, h, .refl s⟩
    · exact openOld_spec h (hw.leaf_attached h.shape hleaf) access fileHeap

theorem vfsOpen_spec (h : s.VfsInv) {disp opts : BitVec 32} {heap fileHeap : Bool}
    (hok : VfsOk s (.open cwd path access disp opts heap fileHeap)) :
    ∃ r, s.vfsOpen cwd path access disp opts heap fileHeap = .ok r ∧ r.2.2.VfsInv ∧
      Adds s r.2.2 := by
  unfold vfsOpen
  cases hn : pathNorm cwd path with
  | none => exact ⟨_, rfl, h, .refl s⟩
  | some abs =>
    obtain ⟨⟨st, w⟩, hr, hends⟩ := walk_spec h.shape abs (disp = fileOpen)
    simp only [hr, ok_bind]
    cases w with
    | none =>
      by_cases hd : disp = fileOpen
      · rw [if_pos hd]
        exact ⟨_, rfl, h, .refl s⟩
      · -- the caller's path has a parent
        rw [decide_eq_false hd] at hr
        have := hok hd abs hn (st, none) (by rw [hr]; rfl)
        cases this
    | some w => exact openWalked_spec h (hends w rfl) access disp opts heap fileHeap

/-! ## `vfs_unlink` and `vfs_file_delete` -/

/-- The part of `Onward` that a call which changes no contents has to show. -/
theorem Released.content_kept (h : Released s v s') {u : Nat} (hu : 0 < s'.holds u)
    (ha : s.contentBy u a = (s.vnode u).content) : (s'.vnode u).content = s.contentBy u a := by
  rw [ha]
  by_cases he : u = v
  · subst he
    rw [h.same.holds] at hu
    exact h.content hu
  · rw [h.others u he]

/-- The vnode has lost its name. -/
def Gone (s : Vfs) (v : Nat) : Prop := v ≠ 0 ∧ v < s.nvnode ∧ (s.vnode v).parent = none

theorem unlinkWalked_spec (h : s.VfsInv) (w : Walked) (v : Nat) (cwd path : Name) :
    ∃ r, s.unlinkWalked w v = .ok r ∧ r.2.VfsInv ∧ Onward s (.unlink cwd path) r.2 ∧
      (r.1 = .success → r.2.Gone v) := by
  have hstay : Onward s (.unlink cwd path) s := (Adds.refl s).onward fun _ => rfl
  unfold unlinkWalked
  split_ifs with hroot hdev hchild hfull
  · exact ⟨_, rfl, h, hstay, by nofun⟩
  · exact ⟨_, rfl, h, hstay, by nofun⟩
  · exact ⟨_, rfl, h, hstay, by nofun⟩
  · exact ⟨_, rfl, h, hstay, by nofun⟩
  · obtain ⟨hmem, -⟩ := vnChild_mem (not_not.1 hchild)
    have hne := (h.shape.child _ v hmem).2.2.ne'
    have hempty : (s.vnode v).children = [] := by
      by_contra hcs
      exact hfull ⟨h.shape.tree.dirs v (h.shape.child _ v hmem).1 hcs, hcs⟩
    obtain ⟨s', hs', hinv, hrel⟩ := (detach_oneOver h hmem hempty).release
    rw [hs']
    refine ⟨_, rfl, hinv, ⟨hrel.same.nvnode.ge, fun f _ _ => hrel.same.file f, ?_, ?_⟩, fun _ => ?_⟩
    · intro u _ hp
      rw [hrel.same.parent, detach_parent hne]
      split_ifs
      · rfl
      · exact hp
    · intro u _ hpos
      rw [hrel.content_kept (a := .unlink cwd path) hpos rfl]
      exact detach_content hne u
    · refine ⟨hroot, hrel.same.nvnode ▸ (h.shape.child _ v hmem).1, ?_⟩
      rw [hrel.same.parent, detach_parent hne, if_pos rfl]

theorem vfsUnlink_spec (h : s.VfsInv) (cwd path : Name) :
    ∃ r, s.vfsUnlink cwd path = .ok r ∧ r.2.VfsInv ∧ Onward s (.unlink cwd path) r.2 ∧
      (r.1 = .success → ∀ v, s.resolve cwd path = some v → r.2.Gone v) := by
  have hstay : Onward s (.unlink cwd path) s := (Adds.refl s).onward fun _ => rfl
  unfold vfsUnlink
  cases hn : pathNorm cwd path with
  | none => exact ⟨_, rfl, h, hstay, fun hs => by cases hs⟩
  | some abs =>
    simp only
    split_ifs with hroot
    · exact ⟨_, rfl, h, hstay, fun hs => by cases hs⟩
    · obtain ⟨⟨st, w⟩, hr, -⟩ := walk_spec h.shape abs true
      have hres : s.resolve cwd path = w.bind Walked.leaf := by
        simp [resolve, hn, hr, get?]
      simp only [hr, ok_bind]
      cases w with
      | none => exact ⟨_, rfl, h, hstay, fun hs => by cases hs⟩
      | some w =>
        cases hleaf : w.leaf with
        | none => exact ⟨(.noSuchFile, s), by simp [hleaf], h, hstay, fun hs => by cases hs⟩
        | some u =>
          obtain ⟨r, hr', hinv, hon, hgone⟩ := unlinkWalked_spec h w u cwd path
          refine ⟨r, by simpa [hleaf] using hr', hinv, hon, fun hsucc v hv => ?_⟩
          rw [hres, Option.bind_some, hleaf] at hv
          cases hv
          exact hgone hsucc

theorem vfsFileDelete_spec (h : s.VfsInv) (hf : (s.file f).vnode.isSome = true) :
    ∃ s', s.vfsFileDelete f = .ok s' ∧ s'.VfsInv ∧ Onward s (.delete f) s' := by
  obtain ⟨v, hv⟩ := Option.isSome_iff_exists.1 hf
  obtain ⟨s', hs', hinv, hrel⟩ := (dropFile_oneOver h hv).release
  refine ⟨s', ?_, hinv, ⟨hrel.same.nvnode.ge, fun g _ hg => ?_, fun u _ hp => ?_, fun u _ hpos => ?_⟩⟩
  · unfold vfsFileDelete
    rw [hv]
    exact hs'
  · have hne : g ≠ f := by
      rintro rfl
      exact hg rfl
    rw [hrel.same.file, dropFile_file, if_neg hne]
  · rw [hrel.same.parent]
    exact hp
  · exact hrel.content_kept (a := .delete f) hpos rfl

/-! ## Reads and writes -/

theorem setOffset_inv (h : s.VfsInv) (f off : Nat) : (s.setOffset f off).VfsInv :=
  h.same (setOffset_sameShape s f off) fun _ => ⟨rfl, rfl⟩

theorem setOffset_adds (s : Vfs) (f off : Nat) : Adds s (s.setOffset f off) :=
  (setOffset_sameShape s f off).adds fun _ => rfl

theorem vfsRead_spec (h : s.VfsInv) (hf : (s.file f).vnode.isSome = true) (n : Nat)
    (io : Status × Nat) : ∃ r, s.vfsRead f n io = .ok r ∧ r.2.2.VfsInv ∧ Adds s r.2.2 := by
  obtain ⟨v, hv⟩ := Option.isSome_iff_exists.1 hf
  unfold vfsRead
  rw [hv]
  simp only
  by_cases hacc : (s.file f).toOpenFile.access &&& fileReadData = 0 ∧
      (s.file f).toOpenFile.access &&& genericRead = 0
  · rw [if_pos hacc]
    exact ⟨_, rfl, h, .refl s⟩
  · rw [if_neg hacc]
    cases (s.vnode v).kind with
    | char => exact ⟨_, rfl, h, .refl s⟩
    | dir => exact ⟨_, rfl, h, .refl s⟩
    | block => exact ⟨_, rfl, setOffset_inv h f _, setOffset_adds s f _⟩
    | file => exact ⟨_, rfl, setOffset_inv h f _, setOffset_adds s f _⟩

theorem setContent_sameShape (s : Vfs) (v : Nat) (x : FileData) :
    SameShape s (s.modVnode v fun y => { y with content := x }) :=
  modVnode_sameShape s v fun _ => ⟨rfl, rfl, rfl, rfl⟩

theorem store_onward (h : s.VfsInv) (hv : (s.file f).vnode = some v)
    (hk : (s.vnode v).kind = .file) (bytes : List UInt8) (heap : Bool) (junk : Nat → UInt8)
    (io : Status × Nat) (off : Nat) {x : FileData}
    (hx : x = ((s.vnode v).content.vfsWrite (s.file f).toOpenFile bytes heap junk).2.1) :
    ((s.modVnode v fun y => { y with content := x }).setOffset f off).VfsInv ∧
      Onward s (.write f bytes heap junk io)
        ((s.modVnode v fun y => { y with content := x }).setOffset f off) := by
  have hsame := (setContent_sameShape s v x).trans (setOffset_sameShape _ f off)
  constructor
  · apply h.same hsame
    intro u
    by_cases hu : u = v
    · simp [hu, modVnode_self]
    · simp [modVnode_of_ne s hu]
  · refine ⟨hsame.nvnode.ge, fun g _ _ => hsame.file g, fun u _ hp => (hsame.parent u).trans hp,
      fun u _ _ => ?_⟩
    simp only [contentBy]
    by_cases hu : u = v
    · subst hu
      rw [if_pos ⟨hv, hk⟩, ← hx, setOffset_vnode, modVnode_self]
    · rw [if_neg (fun hw => hu (Option.some.inj (hw.1.symm.trans hv))), setOffset_vnode,
        modVnode_of_ne s hu]

theorem vfsWrite_spec (h : s.VfsInv) (hf : (s.file f).vnode.isSome = true) (bytes : List UInt8)
    (heap : Bool) (junk : Nat → UInt8) (io : Status × Nat) :
    ∃ r, s.vfsWrite f bytes heap junk io = .ok r ∧ r.2.VfsInv ∧
      Onward s (.write f bytes heap junk io) r.2 := by
  obtain ⟨v, hv⟩ := Option.isSome_iff_exists.1 hf
  -- a write that stores nothing
  have hstay : (∀ u, s.contentBy u (.write f bytes heap junk io) = (s.vnode u).content) →
      Onward s (.write f bytes heap junk io) s := (Adds.refl s).onward
  have hother : (s.vnode v).kind ≠ .file → ∀ u,
      s.contentBy u (.write f bytes heap junk io) = (s.vnode u).content := by
    intro hk u
    simp only [contentBy]
    rw [if_neg]
    rintro ⟨hu, hku⟩
    cases hv.symm.trans hu
    exact hk hku
  unfold vfsWrite
  rw [hv]
  simp only
  by_cases hacc : (s.file f).toOpenFile.Denied
  · rw [if_pos hacc]
    refine ⟨_, rfl, h, hstay fun u => ?_⟩
    simp only [contentBy]
    split_ifs
    · rw [FileData.vfsWrite, if_pos hacc]
    · rfl
  · rw [if_neg hacc]
    cases hk : (s.vnode v).kind with
    | char => exact ⟨_, rfl, h, hstay (hother (by rw [hk]; nofun))⟩
    | dir => exact ⟨_, rfl, h, hstay (hother (by rw [hk]; nofun))⟩
    | block =>
      exact ⟨_, rfl, setOffset_inv h f _,
        (setOffset_adds s f _).onward (hother (by rw [hk]; nofun))⟩
    | file => exact ⟨_, rfl, store_onward h hv hk bytes heap junk io _ rfl⟩

/-! ## Steps -/

theorem vfsStep_spec (h : s.VfsInv) (hok : VfsOk s a) :
    ∃ s', vfsStep s a = some s' ∧ s'.VfsInv ∧ Onward s a s' := by
  cases a with
  | mkdir cwd path heap =>
    obtain ⟨r, hr, hinv, hadd⟩ := vfsMkdir_spec h cwd path heap
    exact ⟨r.2, by rw [vfsStep, hr]; rfl, hinv, hadd.onward fun _ => rfl⟩
  | «open» cwd path access disp opts heap fileHeap =>
    obtain ⟨r, hr, hinv, hadd⟩ := vfsOpen_spec h hok
    exact ⟨r.2.2, by rw [vfsStep, hr]; rfl, hinv, hadd.onward fun _ => rfl⟩
  | unlink cwd path =>
    obtain ⟨r, hr, hinv, hon, -⟩ := vfsUnlink_spec h cwd path
    exact ⟨r.2, by rw [vfsStep, hr]; rfl, hinv, hon⟩
  | read f n io =>
    obtain ⟨r, hr, hinv, hadd⟩ := vfsRead_spec h hok.2 n io
    exact ⟨r.2.2, by rw [vfsStep, hr]; rfl, hinv, hadd.onward fun _ => rfl⟩
  | write f bytes heap junk io =>
    obtain ⟨r, hr, hinv, hon⟩ := vfsWrite_spec h hok.2 bytes heap junk io
    exact ⟨r.2, by rw [vfsStep, hr]; rfl, hinv, hon⟩
  | seek f off =>
    exact ⟨_, rfl, setOffset_inv h f off, (setOffset_adds s f off).onward fun _ => rfl⟩
  | delete f =>
    obtain ⟨s', hs', hinv, hon⟩ := vfsFileDelete_spec h hok.2
    exact ⟨s', by rw [vfsStep, hs']; rfl, hinv, hon⟩
  | seed dir name kind =>
    obtain ⟨hatt, hlt, hdir, hnone, hne, hlen, -⟩ := hok
    exact ⟨_, rfl, (newEntry_inv h hatt hdir hnone hne hlen).1,
      (newEntry_adds hlt).onward fun _ => rfl⟩

theorem init_inv : init.VfsInv := by
  have hv : ∀ u, init.vnode u = newVnode [] .dir := fun _ => rfl
  refine ⟨⟨Nat.one_pos, rfl, rfl, by nofun, by nofun, fun _ => List.nodup_nil, by nofun, by nofun,
    by nofun⟩, fun u hu => ?_⟩
  obtain rfl : u = 0 := Nat.lt_one_iff.1 hu
  exact ⟨rfl, rfl⟩

/-! ## File objects that outlive the name -/

/-- The File object `f` is open on a vnode that has lost its name. -/
structure Orphan (s : Vfs) (f v : Nat) : Prop where
  inv : s.VfsInv
  vnode : (s.file f).vnode = some v
  gone : s.Gone v

theorem Orphan.step (h : s.Orphan f v) (hok : VfsOk s a) (ha : a ≠ .delete f) :
    ∃ s', vfsStep s a = some s' ∧ s'.Orphan f v := by
  obtain ⟨s', hs', hinv, hon⟩ := vfsStep_spec h.inv hok
  obtain ⟨hf, hv⟩ := h.inv.shape.files f v h.vnode
  obtain ⟨hroot, -, hp⟩ := h.gone
  exact ⟨s', hs', hinv, (hon.file f hf ha).trans h.vnode,
    hroot, hv.trans_le hon.nvnode, hon.parent v hv hp⟩

theorem vfsRead_regular (hv : (s.file f).vnode = some v) (hk : (s.vnode v).kind = .file) (n : Nat)
    (io : Status × Nat) :
    ∃ s', s.vfsRead f n io = .ok (((s.vnode v).content.vfsRead (s.file f).toOpenFile n).1,
      ((s.vnode v).content.vfsRead (s.file f).toOpenFile n).2.1, s') := by
  unfold vfsRead
  rw [hv]
  simp only
  split_ifs with hacc
  · rw [FileData.vfsRead, if_pos hacc]
    exact ⟨s, rfl⟩
  all_goals
    rw [hk]
    exact ⟨_, rfl⟩

theorem Orphan.keepsOpen (h : s.Orphan f v) : s.KeepsOpen f v where
  vnode := h.vnode
  live := h.inv.frees_open h.vnode
  unresolved cwd path hr := by
    obtain hroot | hp := h.inv.shape.resolve_attached hr
    · exact h.gone.1 hroot
    · exact hp h.gone.2.2
  reads hk n io := vfsRead_regular h.vnode hk n io
  content a s' hok hs' ha := by
    obtain ⟨s1, hs1, hinv, hon⟩ := vfsStep_spec h.inv hok
    obtain ⟨s2, hs2, ho⟩ := h.step hok ha
    cases hs'.symm.trans hs1
    cases hs'.symm.trans hs2
    obtain ⟨hf, -⟩ := hinv.shape.files f v ho.vnode
    exact hon.content v (h.inv.shape.files f v h.vnode).2 (holds_of_open hf ho.vnode)

theorem vfsUnlink_orphan (h : s.VfsInv) {s1 : Vfs} (hr : s.resolve cwd path = some v)
    (hf : (s.file f).vnode = some v) (hu : s.vfsUnlink cwd path = .ok (.success, s1)) :
    s1.Orphan f v := by
  obtain ⟨r, hr', hinv, hon, hgone⟩ := vfsUnlink_spec h cwd path
  cases ok.inj (hr'.symm.trans hu)
  obtain ⟨hlt, -⟩ := h.shape.files f v hf
  exact ⟨hinv, (hon.file f hlt (by nofun)).trans hf, hgone rfl v hr⟩

theorem Orphan.run (h : s.Orphan f v) {ops : List VfsOp} (hl : Run.Legal vfsStep VfsOk s ops)
    (hf : .delete f ∉ ops) : ∃ s', Run.run vfsStep s ops = some s' ∧ s'.Orphan f v := by
  have hne : Run.Legal vfsStep (fun _ a => a ≠ .delete f) s ops :=
    Run.legal_of_forall fun a ha _ he => hf (he ▸ ha)
  exact Run.run_inv (I := fun s => s.Orphan f v)
    (fun _ _ ho hok => ho.step hok.1 hok.2) h (Run.legal_and hl hne)

/-! ## Runs -/

theorem run_vfsInv {ops : List VfsOp} (hl : Run.Legal vfsStep VfsOk .init ops) :
    ∃ s, Run.run vfsStep .init ops = some s ∧ s.VfsInv :=
  Run.run_inv (I := VfsInv) (fun s a hi hok => by
    obtain ⟨s', h1, h2, -⟩ := vfsStep_spec hi hok
    exact ⟨s', h1, h2⟩) init_inv hl

/-- After any run of calls the children lists and parent pointers are a tree with exact counts. A
File object on a vnode whose name is then unlinked goes on with the same contents, whatever is
called, until it is deleted; and no path leads to the vnode. -/
theorem vfs_tree_sound {ops : List VfsOp} (hl : Run.Legal vfsStep VfsOk .init ops) :
    ∃ s, Run.run vfsStep .init ops = some s ∧ s.Tree ∧ s.Counted ∧
      ∀ cwd path f v s₁, s.resolve cwd path = some v → (s.file f).vnode = some v →
        s.vfsUnlink cwd path = .ok (.success, s₁) →
        ∀ ops', Run.Legal vfsStep VfsOk s₁ ops' → .delete f ∉ ops' →
          ∃ s₂, Run.run vfsStep s₁ ops' = some s₂ ∧ s₂.KeepsOpen f v := by
  obtain ⟨s, hs, hinv⟩ := run_vfsInv hl
  refine ⟨s, hs, hinv.shape.tree, hinv.counted, ?_⟩
  intro cwd path f v s₁ hr hf hu ops' hl' hdel
  obtain ⟨s₂, hs2, ho⟩ := (vfsUnlink_orphan hinv hr hf hu).run hl' hdel
  exact ⟨s₂, hs2, ho.keepsOpen⟩

/-- `mkdir /d`, `create /d/f` and a write; then `/d/f` is unlinked, and written and read again. -/
theorem vfs_tree_sound_unlinked : let ops : List VfsOp := [.mkdir [slash] [slash, 100] true,
      .open [slash] [slash, 100, slash, 102] (fileReadData ||| fileWriteData) fileCreate 0 true true,
      .write 0 [1, 2] true (fun _ => 0) (.success, 0)]
    let ops' : List VfsOp := [.unlink [slash] [slash, 100], .seek 0 1,
      .write 0 [3] true (fun _ => 0) (.success, 0), .seek 0 0]
    ∃ s, Run.run vfsStep .init ops = some s ∧ s.Tree ∧ s.Counted ∧
      ∃ s₁, s.vfsUnlink [slash] [slash, 100, slash, 102] = .ok (.success, s₁) ∧
        ∃ s₂, Run.run vfsStep s₁ ops' = some s₂ ∧ s₂.KeepsOpen 0 2 ∧
          (s₂.vnode 2).content.load 0 (s₂.vnode 2).content.size = [1, 3] := by
  intro ops ops'
  have hl : Run.Legal vfsStep VfsOk .init ops := by decide +kernel
  obtain ⟨s, hs, htree, hcounted, hopen⟩ := vfs_tree_sound hl
  obtain ⟨s', hs', hres, hf, ⟨st, s₁⟩, hu, rfl, hl', s₂, hs2, hload⟩ : ∃ s,
      Run.run vfsStep .init ops = some s ∧ s.resolve [slash] [slash, 100, slash, 102] = some 2 ∧
      (s.file 0).vnode = some 2 ∧ ∃ r, s.vfsUnlink [slash] [slash, 100, slash, 102] = .ok r ∧
        r.1 = .success ∧ Run.Legal vfsStep VfsOk r.2 ops' ∧
        ∃ s₂, Run.run vfsStep r.2 ops' = some s₂ ∧
          (s₂.vnode 2).content.load 0 (s₂.vnode 2).content.size = [1, 3] := by decide +kernel
  cases hs.symm.trans hs'
  obtain ⟨s3, hs3, hkeeps⟩ := hopen _ _ 0 2 s₁ hres hf hu ops' hl' (by simp [ops'])
  cases hs2.symm.trans hs3
  exact ⟨s, hs, htree, hcounted, s₁, hu, s₂, hs2, hkeeps, hload⟩

end Vfs

end Aegis
