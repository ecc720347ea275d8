import Aegis.Fs.Race
import Aegis.Fs.Proof.VfsRun

/-!
# Calls that hold references

The references to a vnode are its name, the File objects on it, and what the calls in progress own
(`VfsPhase.owns`): a vnode that is not yet in the tree, a pin, a reference that is to be dropped. A
vnode is freed, or about to be, when there are none (`Tally`). What a call points to without owning
it has a name (`Good`), because no name goes while another call points to the vnode.

`RaceInv.move` is the rule for one piece of a call: what it has to leave alone for the others.
-/

namespace Aegis

open Function Finset

/-- The references to `u` that a call owns. -/
def VfsPhase.owns (u : Nat) : VfsPhase → Nat
  | .lockNew _ _ nv => if nv = u then 1 else 0
  | .kfree nv none => if nv = u then 1 else 0
  | .kfree nv (some x) => (if nv = u then 1 else 0) + if x.1 = u then 1 else 0
  | .pinned v _ | .release v => if v = u then 1 else 0
  | _ => 0

/-- The call is about to free `u`. -/
def VfsPhase.frees (u : Nat) : VfsPhase → Nat
  | .free v => if v = u then 1 else 0
  | _ => 0

/-- A vnode with `r` references, which `f` calls are about to free. -/
structure Tally (x : Vnode) (r f : Nat) : Prop where
  ref : r ≠ 0 → x.ref = r
  frees : x.frees + f = if r = 0 then 1 else 0

namespace Race

variable {s : Race} {t u v : Nat}
variable {p : VfsPhase}

/-- The references that the calls own. -/
def owned (s : Race) (u : Nat) : Nat := ∑ t ∈ range s.nthread, (s.phase t).owns u

/-- The calls that are about to free a vnode. -/
def freeing (s : Race) (u : Nat) : Nat := ∑ t ∈ range s.nthread, (s.phase t).frees u

/-- All the references to a vnode. -/
def refs (s : Race) (u : Nat) : Nat := s.fs.holds u + s.owned u

/-- A directory that has its name. -/
structure Dir (fs : Vfs) (d : Nat) : Prop where
  attached : fs.Attached d
  kind : (fs.vnode d).kind = .dir

/-- A vnode that only its maker knows. -/
structure Fresh (s : Race) (nv : Nat) : Prop where
  born : nv < s.fs.nvnode
  loose : ¬ s.fs.Attached nv
  empty : (s.fs.vnode nv).children = []
  refs : s.refs nv = 1

/-- The name that a walk has ended on. -/
structure Naming (w : Vfs.Walked) : Prop where
  ne : w.name ≠ []
  length : w.name.length < nameMax

/-- What a call in progress relies on. -/
def Good (s : Race) : VfsPhase → Prop
  | .idle => True
  | .look _ cur _ => Dir s.fs cur
  | .cmp _ cur _ e _ | .next _ cur _ e => Dir s.fs cur ∧ s.fs.Attached e
  | .kind _ cur _ n => Dir s.fs cur ∧ s.fs.Attached n
  | .kind1 _ w v | .kind2 _ w v | .remove w v => s.fs.Attached w.parent ∧ s.fs.Attached v
  | .alloc _ w => Dir s.fs w.parent ∧ Naming w
  | .lockNew _ w nv => Dir s.fs w.parent ∧ Naming w ∧ s.Fresh nv ∧ w.parent < nv ∧
      (s.fs.vnode nv).name = w.name
  | .lockOld _ v => s.fs.Attached v
  | .kfree nv race => s.Fresh nv ∧ ∀ x ∈ race, x.1 < s.fs.nvnode
  | .pinned v _ | .release v | .free v => v < s.fs.nvnode
  | .wild => False

/-- What every interleaving keeps: the tree has its shape, each count is that of the links,
File objects and calls together, each call is where its vnodes allow, and there is no fault. -/
structure RaceInv (s : Race) : Prop where
  shape : s.fs.Shape
  counted : ∀ u < s.fs.nvnode, Tally (s.fs.vnode u) (s.refs u) (s.freeing u)
  good : ∀ t < s.nthread, s.Good (s.phase t)
  faults : s.faults = []

/-! ## Sums over the calls -/

theorem sum_goes (g : VfsPhase → Nat) (ht : t < s.nthread) (p : VfsPhase) :
    ∑ i ∈ range s.nthread, g ((s.goes t p).phase i) + g (s.phase t) =
      ∑ i ∈ range s.nthread, g (s.phase i) + g p := by
  have := Count.sum_change (f := fun i => g ((s.goes t p).phase i)) (g := fun i => g (s.phase i))
    (mem_range.2 ht) fun i _ hi => by
      show g (update s.phase t p i) = _
      rw [update_of_ne hi]
  rw [this]
  show _ + g (update s.phase t p t) = _
  rw [update_self]

theorem owns_le_owned (ht : t < s.nthread) (u : Nat) : (s.phase t).owns u ≤ s.owned u :=
  single_le_sum (f := fun i => (s.phase i).owns u) (fun _ _ => Nat.zero_le _)
    (mem_range.2 ht)

theorem frees_le_freeing (ht : t < s.nthread) (u : Nat) : (s.phase t).frees u ≤ s.freeing u :=
  single_le_sum (f := fun i => (s.phase i).frees u) (fun _ _ => Nat.zero_le _)
    (mem_range.2 ht)

theorem owns_two {t' : Nat} (ht : t < s.nthread) (ht' : t' < s.nthread) (hne : t' ≠ t) (u : Nat) :
    (s.phase t).owns u + (s.phase t').owns u ≤ s.owned u := by
  have hsum := add_sum_erase (range s.nthread) (fun i => (s.phase i).owns u)
    (mem_range.2 ht)
  have hle := single_le_sum (f := fun i => (s.phase i).owns u)
    (s := (range s.nthread).erase t) (fun _ _ => Nat.zero_le _)
    (mem_erase.2 ⟨hne, mem_range.2 ht'⟩)
  unfold owned
  rw [← hsum]
  exact Nat.add_le_add_left hle _

/-! ## What the invariant gives -/

theorem ite_one_ne_zero {P : Prop} [Decidable P] (h : (if P then 1 else 0) ≠ 0) : P := by
  by_contra hp
  exact h (if_neg hp)

theorem Good.owns_lt (h : s.Good p) (hu : p.owns u ≠ 0) : u < s.fs.nvnode := by
  cases p with
  | lockNew c w nv =>
    obtain ⟨-, -, hf, -⟩ := h
    exact ite_one_ne_zero hu ▸ hf.born
  | kfree nv race =>
    obtain ⟨hf, hr⟩ := h
    cases race with
    | none => exact ite_one_ne_zero hu ▸ hf.born
    | some x =>
      by_cases hn : nv = u
      · exact hn ▸ hf.born
      · simp only [VfsPhase.owns, if_neg hn, Nat.zero_add] at hu
        exact ite_one_ne_zero hu ▸ hr x rfl
  | pinned v a => exact ite_one_ne_zero hu ▸ h
  | release v => exact ite_one_ne_zero hu ▸ h
  | _ => exact absurd rfl hu

theorem Good.frees_lt (h : s.Good p) (hu : p.frees u ≠ 0) : u < s.fs.nvnode := by
  cases p with
  | free v => exact ite_one_ne_zero hu ▸ h
  | _ => exact absurd rfl hu

theorem RaceInv.unborn (h : s.RaceInv) (hu : s.fs.nvnode ≤ u) : s.refs u = 0 ∧ s.freeing u = 0 := by
  have howned : s.owned u = 0 := by
    apply sum_eq_zero
    intro t ht
    by_contra hne
    exact hu.not_gt ((h.good t (mem_range.1 ht)).owns_lt hne)
  have hfreeing : s.freeing u = 0 := by
    apply sum_eq_zero
    intro t ht
    by_contra hne
    exact hu.not_gt ((h.good t (mem_range.1 ht)).frees_lt hne)
  exact ⟨by rw [refs, howned, h.shape.holds_unborn hu], hfreeing⟩

theorem RaceInv.live (h : s.RaceInv) (hu : s.refs u ≠ 0) : (s.fs.vnode u).frees = 0 := by
  by_cases hlt : u < s.fs.nvnode
  · have hf := (h.counted u hlt).frees
    rw [if_neg hu] at hf
    omega
  · exact absurd (h.unborn (Nat.not_lt.1 hlt)).1 hu

theorem RaceInv.live_attached (h : s.RaceInv) (hu : s.fs.Attached u) : (s.fs.vnode u).frees = 0 := by
  apply h.live
  rw [refs, Vfs.holds, if_pos hu]
  omega

theorem RaceInv.live_owned (h : s.RaceInv) (ht : t < s.nthread) (hu : (s.phase t).owns u ≠ 0) :
    (s.fs.vnode u).frees = 0 := by
  have hle := owns_le_owned ht u
  apply h.live
  unfold refs
  omega

theorem Good.pointers (h : s.Good p) : ∀ u ∈ p.pointers, s.fs.Attached u := by
  intro u hu
  cases p with
  | look c cur p => exact List.mem_singleton.1 hu ▸ h.attached
  | cmp c cur p e k | next c cur p e | kind c cur p e =>
    obtain rfl | hu := List.mem_cons.1 hu
    · exact h.1.attached
    · exact List.mem_singleton.1 hu ▸ h.2
  | kind1 c w v | kind2 c w v | remove w v =>
    obtain rfl | hu := List.mem_cons.1 hu
    · exact h.1
    · exact List.mem_singleton.1 hu ▸ h.2
  | alloc c w => exact List.mem_singleton.1 hu ▸ h.1.attached
  | lockNew c w nv => exact List.mem_singleton.1 hu ▸ h.1.attached
  | lockOld a v => exact List.mem_singleton.1 hu ▸ h
  | _ => cases hu

/-! ## One piece of a call -/

/-- The step of a call from `fs` in phase `p` to `fs'` in phase `p'`, as the other calls see it. -/
structure Move (s : Race) (t : Nat) (fs' : Vfs) (p' : VfsPhase) : Prop where
  shape : fs'.Shape
  nvnode : s.fs.nvnode ≤ fs'.nvnode
  same : ∀ u < s.fs.nvnode,
    (fs'.vnode u).kind = (s.fs.vnode u).kind ∧ (fs'.vnode u).name = (s.fs.vnode u).name
  attached : ∀ u, s.fs.Attached u → fs'.Attached u ∨
    ∀ t' < s.nthread, t' ≠ t → u ∉ (s.phase t').pointers
  loose : ∀ u < s.fs.nvnode, ¬ s.fs.Attached u → (s.phase t).owns u = 0 →
    (fs'.Attached u → False) ∧ (fs'.vnode u).children = (s.fs.vnode u).children ∧
    fs'.holds u = s.fs.holds u ∧ p'.owns u = 0
  tally : ∀ u < fs'.nvnode, ∀ r f, s.refs u = s.fs.holds u + (s.phase t).owns u + r →
    s.freeing u = (s.phase t).frees u + f →
    (u < s.fs.nvnode → Tally (s.fs.vnode u) (s.refs u) (s.freeing u)) →
    Tally (fs'.vnode u) (fs'.holds u + p'.owns u + r) (p'.frees u + f)

section
variable {fs' : Vfs} {p' : VfsPhase}

theorem Move.good (h : s.RaceInv) (hm : s.Move t fs' p') (ht : t < s.nthread) {t' : Nat}
    (ht' : t' < s.nthread) (hne : t' ≠ t)
    (hrefs : ∀ u < s.fs.nvnode, ¬ s.fs.Attached u → (s.phase t).owns u = 0 →
      ((s.setFs fs').goes t p').refs u = s.refs u) :
    ((s.setFs fs').goes t p').Good (s.phase t') := by
  have hg := h.good t' ht'
  have hatt : ∀ u ∈ (s.phase t').pointers, fs'.Attached u := by
    intro u hu
    obtain ha | hn := hm.attached u (hg.pointers u hu)
    · exact ha
    · exact absurd hu (hn t' ht' hne)
  have hkind : ∀ u, s.fs.Attached u → (s.fs.vnode u).kind = .dir → (fs'.vnode u).kind = .dir :=
    fun u ha hk => (hm.same u (h.shape.attached_lt ha)).1.trans hk
  have hfresh : ∀ nv, (s.phase t').owns nv ≠ 0 → s.Fresh nv → ((s.setFs fs').goes t p').Fresh nv := by
    intro nv ho hf
    have htwo := owns_two ht' ht hne.symm nv
    have hone := hf.refs
    unfold refs at hone
    have h0 : (s.phase t).owns nv = 0 := by omega
    obtain ⟨hl, hc, -, -⟩ := hm.loose nv hf.born hf.loose h0
    exact ⟨hf.born.trans_le hm.nvnode, hl, hc.trans hf.empty,
      (hrefs nv hf.born hf.loose h0).trans hf.refs⟩
  revert hg hatt hfresh
  cases s.phase t' with
  | idle => exact fun _ _ _ => trivial
  | look c cur p => exact fun hg hatt _ => ⟨hatt cur (.head _), hkind cur hg.1 hg.2⟩
  | cmp c cur p e k | next c cur p e | kind c cur p e =>
    exact fun hg hatt _ => ⟨⟨hatt cur (.head _), hkind cur hg.1.1 hg.1.2⟩, hatt e (.tail _ (.head _))⟩
  | kind1 c w v | kind2 c w v | remove w v =>
    exact fun _ hatt _ => ⟨hatt _ (.head _), hatt v (.tail _ (.head _))⟩
  | alloc c w => exact fun hg hatt _ => ⟨⟨hatt _ (.head _), hkind _ hg.1.1 hg.1.2⟩, hg.2⟩
  | lockNew c w nv =>
    rintro ⟨hd, hn, hf, hlt, hname⟩ hatt hfresh
    have ho : (VfsPhase.lockNew c w nv).owns nv ≠ 0 := by simp [VfsPhase.owns]
    exact ⟨⟨hatt _ (.head _), hkind _ hd.1 hd.2⟩, hn, hfresh nv ho hf, hlt,
      (hm.same nv hf.born).2.trans hname⟩
  | lockOld a v => exact fun _ hatt _ => hatt v (.head _)
  | kfree nv race =>
    rintro ⟨hf, hr⟩ - hfresh
    have ho : (VfsPhase.kfree nv race).owns nv ≠ 0 := by
      cases race <;> simp [VfsPhase.owns]
    exact ⟨hfresh nv ho hf, fun x hx => (hr x hx).trans_le hm.nvnode⟩
  | pinned v a | release v | free v => exact fun hg _ _ => Nat.lt_of_lt_of_le hg hm.nvnode
  | wild => exact fun hg _ _ => hg

theorem goes_owned (ht : t < s.nthread) (u : Nat) :
    ((s.setFs fs').goes t p').owned u + (s.phase t).owns u = s.owned u + p'.owns u :=
  sum_goes (s := s) (VfsPhase.owns u) ht p'

theorem goes_freeing (ht : t < s.nthread) (u : Nat) :
    ((s.setFs fs').goes t p').freeing u + (s.phase t).frees u = s.freeing u + p'.frees u :=
  sum_goes (s := s) (VfsPhase.frees u) ht p'

section
variable (h : s.RaceInv)
include h

/-- **The rule for one piece of a call.** -/
theorem RaceInv.move (ht : t < s.nthread) (hm : s.Move t fs' p')
    (hself : ((s.setFs fs').goes t p').Good p') : ((s.setFs fs').goes t p').RaceInv := by
  have hown : ∀ u, ((s.setFs fs').goes t p').owned u + (s.phase t).owns u = _ := goes_owned ht
  have hrefs : ∀ u, ((s.setFs fs').goes t p').refs u =
      fs'.holds u + ((s.setFs fs').goes t p').owned u := fun _ => rfl
  refine ⟨hm.shape, fun u hu => ?_, fun t' ht' => ?_, h.faults⟩
  · -- what the other calls own and free stays
    have hle := owns_le_owned ht u
    have hfle := frees_le_freeing ht u
    have hold : s.refs u = s.fs.holds u + s.owned u := rfl
    have hu' := hown u
    have hf' : ((s.setFs fs').goes t p').freeing u + _ = _ := goes_freeing ht u
    have htally := hm.tally u hu (s.owned u - (s.phase t).owns u)
      (s.freeing u - (s.phase t).frees u) (by omega) (by omega) (h.counted u)
    rw [hrefs, show ((s.setFs fs').goes t p').owned u =
        p'.owns u + (s.owned u - (s.phase t).owns u) by omega, ← Nat.add_assoc,
      show ((s.setFs fs').goes t p').freeing u =
        p'.frees u + (s.freeing u - (s.phase t).frees u) by omega]
    exact htally
  · by_cases he : t' = t
    · subst he
      show Good _ (update s.phase t' p' t')
      rw [update_self]
      exact hself
    · show Good _ (update s.phase t p' t')
      rw [update_of_ne he]
      apply hm.good h ht ht' he
      intro u hu hl h0
      obtain ⟨-, -, hh, ho⟩ := hm.loose u hu hl h0
      have hu' := hown u
      rw [hrefs, hh]
      unfold refs
      omega

/-! ## The pieces -/

theorem RaceInv.quiet (ht : t < s.nthread) (howns : ∀ u, p'.owns u = (s.phase t).owns u)
    (hfrees : ∀ u, p'.frees u = (s.phase t).frees u) (hself : (s.goes t p').Good p') :
    (s.goes t p').RaceInv := by
  have hm : s.Move t s.fs p' := {
    shape := h.shape
    nvnode := le_rfl
    same := fun _ _ => ⟨rfl, rfl⟩
    attached := fun _ ha => .inl ha
    loose := fun u _ hl h0 => ⟨hl, rfl, rfl, (howns u).trans h0⟩
    tally := fun u hu r f hr hf htally => by
      rw [howns, hfrees, ← hr, ← hf]
      exact htally hu }
  exact h.move ht hm hself

theorem Move.of_sameShape (hs : Vfs.SameShape s.fs fs')
    (hvn : ∀ u, u ≠ v → fs'.vnode u = s.fs.vnode u)
    (howns : ∀ u, u ≠ v → p'.owns u = (s.phase t).owns u)
    (hfrees : ∀ u, u ≠ v → p'.frees u = (s.phase t).frees u)
    (hv : s.fs.Attached v ∨ p'.owns v ≤ (s.phase t).owns v)
    (htally : v < s.fs.nvnode → Tally (s.fs.vnode v) (s.refs v) (s.freeing v) →
      ∀ r f, s.refs v = s.fs.holds v + (s.phase t).owns v + r →
      s.freeing v = (s.phase t).frees v + f →
      Tally (fs'.vnode v) (s.fs.holds v + p'.owns v + r) (p'.frees v + f)) : s.Move t fs' p' where
  shape := hs.shape h.shape
  nvnode := hs.nvnode.ge
  same u _ := ⟨hs.kind u, hs.name u⟩
  attached u ha := .inl ((hs.attached u).2 ha)
  loose u _ hl h0 := by
    refine ⟨fun ha => hl ((hs.attached u).1 ha), hs.children u, hs.holds u, ?_⟩
    by_cases hu : u = v
    · subst hu
      obtain ha | hle := hv
      · exact absurd ha hl
      · exact Nat.le_zero.1 (h0 ▸ hle)
    · exact (howns u hu).trans h0
  tally u hu r f hr hf hold := by
    rw [hs.nvnode] at hu
    rw [hs.holds]
    by_cases he : u = v
    · subst he
      exact htally hu (hold hu) r f hr hf
    · rw [hvn u he, howns u he, hfrees u he, ← hr, ← hf]
      exact hold hu

theorem pin_move (hv : s.fs.Attached v)
    (howns : ∀ u, p'.owns u = (s.phase t).owns u + if v = u then 1 else 0)
    (hfrees : ∀ u, p'.frees u = (s.phase t).frees u) : s.Move t (s.fs.pin v) p' := by
  apply Move.of_sameShape (v := v) h (Vfs.pin_sameShape s.fs v)
  · exact fun u hu => Vfs.modVnode_of_ne s.fs hu _
  · intro u hu
    rw [howns, if_neg hu.symm]
    rfl
  · exact fun u _ => hfrees u
  · exact .inl hv
  · intro _ htally r f hr hf
    have hpos : s.fs.holds v ≠ 0 := by
      rw [Vfs.holds, if_pos hv]
      omega
    have href := htally.ref (by omega)
    have hfr := htally.frees
    rw [if_neg (by omega)] at hfr
    rw [howns, if_pos rfl, hfrees, ← hf, Vfs.pin, Vfs.modVnode_self]
    exact ⟨fun _ => by simp only; omega, by rw [if_neg (by omega)]; exact hfr⟩

theorem alloc_move (name : Name) (kind : VnodeKind)
    (howns : ∀ u, p'.owns u = (s.phase t).owns u + if s.fs.nvnode = u then 1 else 0)
    (hfrees : ∀ u, p'.frees u = (s.phase t).frees u) : s.Move t (s.fs.vnAlloc name kind) p' where
  shape := Vfs.vnAlloc_shape h.shape
  nvnode := Nat.le_succ _
  same u hu := by
    rw [Vfs.vnAlloc_old hu.ne]
    exact ⟨rfl, rfl⟩
  attached u ha := .inl ((Vfs.vnAlloc_attached h.shape u).2 ha)
  loose u hu hl h0 := by
    refine ⟨fun ha => hl ((Vfs.vnAlloc_attached h.shape u).1 ha), Vfs.vnAlloc_children h.shape u,
      Vfs.vnAlloc_holds h.shape u, ?_⟩
    rw [howns, h0, if_neg hu.ne']
  tally u hu r f hr hf hold := by
    rw [Vfs.vnAlloc_holds h.shape, howns, hfrees]
    by_cases he : u = s.fs.nvnode
    · -- nobody had anything of it
      obtain ⟨h0, hf0⟩ := h.unborn he.ge
      subst he
      rw [Vfs.vnAlloc_new, if_pos rfl]
      exact ⟨fun _ => by simp only [Vfs.newVnode]; omega, by
        rw [if_neg (by omega)]
        simp only [Vfs.newVnode]
        omega⟩
    · rw [Vfs.vnAlloc_old he, if_neg (Ne.symm he), Nat.add_zero, ← hr, ← hf]
      exact hold (Nat.lt_of_le_of_ne (Nat.lt_succ_iff.1 hu) he)

theorem attach_move {d nv : Nat} (he : s.fs.Enters d nv)
    (howns : ∀ u, (s.phase t).owns u = p'.owns u + if nv = u then 1 else 0)
    (hfrees : ∀ u, p'.frees u = (s.phase t).frees u) : s.Move t (s.fs.vnAttach d nv) p' where
  shape := he.shape h.shape
  nvnode := le_rfl
  same u _ := ⟨(Vfs.vnAttach_same he.ne u).1, (Vfs.vnAttach_same he.ne u).2.1⟩
  attached u ha := .inl ((he.attached u).2 (.inr ha))
  loose u _ hl h0 := by
    have hu : u ≠ nv := by
      rintro rfl
      have := howns u
      rw [if_pos rfl] at this
      omega
    have hd : u ≠ d := by
      rintro rfl
      exact hl he.parent
    refine ⟨fun ha => ?_, ?_, ?_, ?_⟩
    · obtain hn | ha := (he.attached u).1 ha
      · exact hu hn
      · exact hl ha
    · rw [Vfs.vnAttach_children he.ne, if_neg hd]
    · rw [he.holds, if_neg hu]
      rfl
    · have := howns u
      omega
  tally u hu r f hr hf hold := by
    obtain ⟨-, -, href, hfr, -⟩ := Vfs.vnAttach_same (s := s.fs) he.ne u
    have hsum : (s.fs.vnAttach d nv).holds u + p'.owns u + r = s.refs u := by
      have := howns u
      rw [he.holds, hr, this]
      by_cases hu : u = nv
      · rw [if_pos hu, if_pos hu.symm]
        omega
      · rw [if_neg hu, if_neg (Ne.symm hu)]
        omega
    rw [hsum, hfrees, ← hf]
    have htally := hold hu
    exact ⟨fun h0 => href.trans (htally.ref h0), by rw [hfr]; exact htally.frees⟩

theorem detach_move {d : Nat} (hv : v ∈ (s.fs.vnode d).children)
    (hempty : (s.fs.vnode v).children = [])
    (hunheld : ∀ t' < s.nthread, t' ≠ t → v ∉ (s.phase t').pointers)
    (howns : ∀ u, p'.owns u = (s.phase t).owns u + if v = u then 1 else 0)
    (hfrees : ∀ u, p'.frees u = (s.phase t).frees u) : s.Move t (s.fs.detach d v) p' := by
  obtain ⟨-, hp, hlt⟩ := h.shape.child d v hv
  have hne : v ≠ d := hlt.ne'
  exact {
    shape := Vfs.detach_shape h.shape hv hempty
    nvnode := le_rfl
    same := fun u _ => ⟨Vfs.detach_kind hne u, Vfs.detach_name hne u⟩
    attached := fun u ha => by
      by_cases hu : u = v
      · exact .inr (hu ▸ hunheld)
      · exact .inl ((Vfs.detach_attached h.shape hv u).2 ⟨hu, ha⟩)
    loose := fun u _ hl h0 => by
      have hu : u ≠ v := by
        rintro rfl
        exact hl (h.shape.child_attached hv)
      have hd : u ≠ d := by
        rintro rfl
        exact hl (h.shape.parent v u hp).2.1
      have hholds := Vfs.detach_holds h.shape hv u
      rw [if_neg hu, Nat.add_zero] at hholds
      refine ⟨fun ha => hl ((Vfs.detach_attached h.shape hv u).1 ha).2, ?_, hholds.symm, ?_⟩
      · rw [Vfs.detach_vnode hne, if_neg hu, if_neg hd]
      · rw [howns, h0, if_neg hu.symm]
    tally := fun u hu r f hr hf hold => by
      obtain ⟨href, hfr⟩ := Vfs.detach_counts (s := s.fs) hne u
      have hsum : (s.fs.detach d v).holds u + p'.owns u + r = s.refs u := by
        rw [hr, howns, Vfs.detach_holds h.shape hv u]
        by_cases hu : u = v
        · rw [if_pos hu, if_pos hu.symm]
          omega
        · rw [if_neg hu, if_neg (Ne.symm hu)]
          omega
      have htally := hold hu
      rw [hsum, hfrees, ← hf]
      exact ⟨fun h0 => href.trans (htally.ref h0), by rw [hfr]; exact htally.frees⟩ }

theorem addFile_move (hv : v < s.fs.nvnode) (access : Access)
    (howns : ∀ u, (s.phase t).owns u = p'.owns u + if v = u then 1 else 0)
    (hfrees : ∀ u, p'.frees u = (s.phase t).frees u) : s.Move t (s.fs.addFile v access) p' where
  shape := Vfs.addFile_shape h.shape hv
  nvnode := le_rfl
  same _ _ := ⟨rfl, rfl⟩
  attached _ ha := .inl ha
  loose u _ hl h0 := by
    have ho := howns u
    refine ⟨hl, rfl, ?_, by omega⟩
    rw [Vfs.addFile_holds]
    omega
  tally u hu r f hr hf hold := by
    have hsum : (s.fs.addFile v access).holds u + p'.owns u + r = s.refs u := by
      rw [hr, howns, Vfs.addFile_holds]
      omega
    rw [hsum, hfrees, ← hf]
    exact hold hu

theorem drop_move (howns : ∀ u, (s.phase t).owns u = p'.owns u + if v = u then 1 else 0)
    (hfrees : ∀ u, p'.frees u =
      (s.phase t).frees u + if v = u ∧ (s.fs.vnode v).ref = 1 then 1 else 0) :
    s.Move t (s.fs.modVnode v fun x => { x with ref := x.ref - 1 }) p' := by
  apply Move.of_sameShape (v := v) h (Vfs.unref_sameShape s.fs v)
  · exact fun u hu => Vfs.modVnode_of_ne s.fs hu _
  · intro u hu
    rw [howns, if_neg hu.symm]
    rfl
  · intro u hu
    rw [hfrees, if_neg fun hv => hu hv.1.symm]
    rfl
  · rw [howns]
    exact .inr (Nat.le_add_right _ _)
  · intro _ htally r f hr hf
    have hself := howns v
    rw [if_pos rfl] at hself
    have hr' := htally.ref (by omega)
    have hfr := htally.frees
    rw [if_neg (by omega)] at hfr
    rw [hfrees, Vfs.modVnode_self]
    by_cases h1 : (s.fs.vnode v).ref = 1
    · rw [if_pos ⟨rfl, h1⟩]
      exact ⟨fun h0 => by omega, by rw [if_pos (by omega)]; simp only; omega⟩
    · rw [if_neg fun hv => h1 hv.2, Nat.add_zero, ← hf]
      exact ⟨fun _ => by simp only; omega, by rw [if_neg (by omega)]; exact hfr⟩

/-- A vnode that nothing refers to is freed, by the call that has taken it out or made it. -/
theorem free_move {g : Vnode → Vnode}
    (hg : ∀ x, (g x).kind = x.kind ∧ (g x).name = x.name ∧ (g x).parent = x.parent ∧
      (g x).children = x.children) (hgf : ∀ x, (g x).frees = x.frees + 1)
    (hv : s.refs v + (s.phase t).frees v = (s.phase t).owns v + (s.phase t).frees v ∧
      (s.phase t).owns v + (s.phase t).frees v = 1)
    (howns : ∀ u, p'.owns u = if v = u then 0 else (s.phase t).owns u)
    (hfrees : ∀ u, p'.frees u = if v = u then 0 else (s.phase t).frees u) :
    s.Move t (s.fs.modVnode v g) p' := by
  apply Move.of_sameShape (v := v) h (Vfs.modVnode_sameShape s.fs v hg)
  · exact fun u hu => Vfs.modVnode_of_ne s.fs hu _
  · exact fun u hu => (howns u).trans (if_neg hu.symm)
  · exact fun u hu => (hfrees u).trans (if_neg hu.symm)
  · rw [howns, if_pos rfl]
    exact .inr (Nat.zero_le _)
  · intro _ htally r f hr hf
    have hfr := htally.frees
    rw [howns, hfrees, if_pos rfl, if_pos rfl, Vfs.modVnode_self]
    refine ⟨fun h0 => by omega, ?_⟩
    rw [if_pos (by omega), hgf]
    split_ifs at hfr <;> omega

end

end

end Race

end Aegis
