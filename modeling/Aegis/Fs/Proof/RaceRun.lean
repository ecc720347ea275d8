import Aegis.Fs.Proof.Race

/-!
# No vnode is used after it has been freed

Every piece of a call touches vnodes that it points to or owns, or that are in the list of a directory
it points to; under the invariant none of them is freed. So the accesses leave no fault, and each
piece is one of the moves of `Aegis.Fs.Proof.Race`.
-/

namespace Aegis

namespace Race

variable {s s' : Race} {t u v : Nat}
variable {cur e e' nv : Nat} {access : Access} {c : VfsCall} {vs : List Nat} {p : VfsPhase}
  {w : Vfs.Walked}

/-! ## Accesses -/

theorem fault_nil (s : Race) : s.fault [] = s := by
  simp [fault]

theorem touch_live (h : ∀ v ∈ vs, (s.fs.vnode v).frees = 0) : s.touch vs = s := by
  have hnil : vs.filter (fun v => s.Freed v) = [] := by
    rw [List.filter_eq_nil_iff]
    intro v hv
    have hn : ¬ s.Freed v := fun hf => hf (h v hv)
    simpa using hn
  rw [touch, hnil, List.map_nil, fault_nil]

theorem touch_one (h : (s.fs.vnode v).frees = 0) : s.touch [v] = s :=
  touch_live fun _ hu => List.mem_singleton.1 hu ▸ h

theorem pin_live (h : (s.fs.vnode v).frees = 0) : s.pin v = s.setFs (s.fs.pin v) := by
  have hn : ¬ s.Freed v := fun hf => hf h
  rw [pin, touch_one h, if_neg hn, fault_nil]

theorem RaceInv.touch_attached (h : s.RaceInv) (hv : ∀ v ∈ vs, s.fs.Attached v) :
    s.touch vs = s := touch_live fun v hm => h.live_attached (hv v hm)

theorem RaceInv.touch_pointer (h : s.RaceInv) (hv : s.fs.Attached v) : s.touch [v] = s :=
  touch_one (h.live_attached hv)

theorem childReads_attached (h : s.fs.Shape) {d : Nat} (hd : s.fs.Attached d) (name : Name) :
    ∀ u ∈ s.fs.childReads d name, s.fs.Attached u := by
  intro u hu
  simp only [Vfs.childReads, List.cons_append, List.mem_cons, List.mem_append,
    Option.mem_toList] at hu
  obtain rfl | hu | hu := hu
  · exact hd
  · exact h.child_attached (List.takeWhile_subset _ hu)
  · exact h.child_attached (Vfs.vnChild_mem hu).1

theorem nextSibling_attached (h : s.fs.Shape) (he : s.fs.Attached e)
    (hn : s.fs.nextSibling e = some e') : s.fs.Attached e' := by
  unfold Vfs.nextSibling at hn
  cases hp : (s.fs.vnode e).parent with
  | none =>
    rw [hp] at hn
    exact Option.some.inj hn ▸ he
  | some d =>
    rw [hp] at hn
    have hmem := List.mem_of_mem_tail (List.mem_of_mem_head? hn)
    exact h.child_attached ((List.dropWhile_sublist _).subset hmem)

theorem prevSibling_attached (h : s.fs.Shape) (he : s.fs.Attached e)
    (hn : s.fs.prevSibling e = some e') : s.fs.Attached e' := by
  unfold Vfs.prevSibling at hn
  cases hp : (s.fs.vnode e).parent with
  | none =>
    rw [hp] at hn
    exact Option.some.inj hn ▸ he
  | some d =>
    rw [hp] at hn
    have hmem := List.mem_of_mem_tail (List.mem_of_mem_head? hn)
    exact h.child_attached (List.mem_reverse.1 ((List.dropWhile_sublist _).subset hmem))

/-! ## Phases that own nothing -/

/-- A phase without references. -/
structure Light (p : VfsPhase) : Prop where
  owns : ∀ u, p.owns u = 0
  frees : ∀ u, p.frees u = 0

/-- The phase owns nothing, and what it relies on holds. -/
structure Settled (s : Race) (p : VfsPhase) : Prop where
  light : Light p
  good : s.Good p

theorem Good.of_fs (hfs : s'.fs = s.fs) (h0 : ∀ u, p.owns u = 0) (h : s.Good p) : s'.Good p := by
  cases p with
  | lockNew c w nv => exact absurd (h0 nv) (by simp [VfsPhase.owns])
  | kfree nv race => exact absurd (h0 nv) (by cases race <;> simp [VfsPhase.owns])
  | idle => trivial
  | wild => exact h
  | _ =>
    simp only [Good, hfs] at h ⊢
    exact h

theorem Settled.goes (h : s.RaceInv) (ht : t < s.nthread) (hp : s.Settled p)
    (hq : Light (s.phase t)) : (s.goes t p).RaceInv := by
  apply h.quiet ht
  · exact fun u => (hp.light.owns u).trans (hq.owns u).symm
  · exact fun u => (hp.light.frees u).trans (hq.frees u).symm
  · have hfs : (s.goes t p).fs = s.fs := rfl
    exact hp.good.of_fs hfs hp.light.owns

theorem Settled.goesOn (h : s.RaceInv) (ht : t < s.nthread) (hp : s.Settled p)
    (hq : Light (s.phase t)) : (s.goesOn t p).RaceInv := by
  have he : s.goesOn t p = s.goes t p := by
    cases p <;> first | rfl | exact hp.good.elim
  rw [he]
  exact hp.goes h ht hq

/-! ## The walk -/

theorem settled_idle (s : Race) : s.Settled .idle := ⟨⟨fun _ => rfl, fun _ => rfl⟩, trivial⟩

theorem walked_none (s : Race) {c : VfsCall} (hc : ¬ c.Heedless) : s.Settled (c.walked none) := by
  cases c with
  | «open» access disp opts =>
    simp only [VfsCall.walked, if_pos (not_not.1 hc)]
    exact settled_idle s
  | _ => exact settled_idle s

theorem walked_some (c : VfsCall) (hd : Dir s.fs w.parent) (hlen : w.name.length < nameMax)
    (hleaf : ∀ v ∈ w.leaf, s.fs.Attached v) : s.Settled (c.walked (some w)) := by
  have halloc : ∀ c, w.name ≠ [] → s.Settled (.alloc c w) := fun c hn =>
    ⟨⟨fun _ => rfl, fun _ => rfl⟩, hd, hn, hlen⟩
  have hkind : ∀ c, ∀ v ∈ w.leaf, s.Settled (.kind1 c w v) := fun c v hv =>
    ⟨⟨fun _ => rfl, fun _ => rfl⟩, hd.attached, hleaf v hv⟩
  cases c with
  | mkdir =>
    simp only [VfsCall.walked]
    split_ifs with h1 h2
    · exact settled_idle s
    · exact settled_idle s
    · exact halloc _ h2
  | «open» access disp opts =>
    simp only [VfsCall.walked]
    cases hw : w.leaf with
    | some v => exact hkind _ v hw
    | none =>
      simp only
      split_ifs with h1 h2
      · exact settled_idle s
      · exact settled_idle s
      · exact halloc _ h2
  | stat => exact settled_idle s
  | unlink =>
    simp only [VfsCall.walked]
    cases hw : w.leaf with
    | none => exact settled_idle s
    | some v =>
      simp only
      split_ifs
      · exact settled_idle s
      · exact hkind _ v hw

theorem looked_settled {c : VfsCall} {p : Name} {next : Option Nat} (hd : Dir s.fs cur)
    (hn : ∀ v ∈ next, s.fs.Attached v) (hc : next = none → ¬ (c.Heedless ∧ ¬ LastComponent p)) :
    s.Settled (c.looked cur p next) := by
  unfold VfsCall.looked
  split_ifs with hp hlast
  · refine walked_none s fun hh => ?_
    cases c with
    | «open» access disp opts => exact hh (of_decide_eq_true hlast.2)
    | _ => exact hh
  · exact walked_some c hd (nextComponent_name_lt p) hn
  · cases next with
    | none => exact walked_none s fun hh => hc rfl ⟨hh, hp⟩
    | some n => exact ⟨⟨fun _ => rfl, fun _ => rfl⟩, hd, hn n rfl⟩

/-- A normal path starts with a separator, so `walk` does not fail before its first access. -/
theorem begin_settled (h : s.fs.Shape) (c : VfsCall) (cwd path : Name) :
    s.Settled (c.begin cwd path) := by
  have hroot : Dir s.fs 0 := ⟨.inl rfl, h.rootKind⟩
  unfold VfsCall.begin pathNorm
  cases ((joinCwd cwd path).splitOn slash).foldl pushPart (some []) with
  | none => exact settled_idle s
  | some parts =>
    simp only [Option.map_some, pathMax, List.take_succ_cons, ne_eq, not_true_eq_false, if_false]
    split_ifs
    · exact settled_idle s
    · exact walked_some c hroot (Nat.succ_pos 63) fun v hv => .inl (Option.some.inj hv).symm
    · exact ⟨⟨fun _ => rfl, fun _ => rfl⟩, hroot⟩

section
variable (h : s.RaceInv) (ht : t < s.nthread)
include h ht

theorem walkOn_inv (hp : s.phase t = p) (hl : Light p) (hne : ¬ s.LosesPath p) :
    (s.walkOn t p).RaceInv := by
  have hg := h.good t ht
  rw [hp] at hg
  have hq : Light (s.phase t) := hp ▸ hl
  cases p with
  | look c cur p =>
    simp only [walkOn, h.touch_pointer hg.attached]
    cases hh : (s.fs.vnode cur).children.head? with
    | none =>
      have hs : s.Settled (c.looked cur p none) :=
        looked_settled hg (by simp) fun _ hc => hne ⟨hc.1, hc.2, List.head?_eq_none_iff.1 hh⟩
      exact hs.goesOn h ht hq
    | some e =>
      have he := h.shape.child_attached (List.mem_of_mem_head? hh)
      have hs : s.Settled (.cmp c cur p e 0) := ⟨⟨fun _ => rfl, fun _ => rfl⟩, hg, he⟩
      exact hs.goes h ht hq
  | cmp c cur p e k =>
    obtain ⟨hd, he⟩ := hg
    simp only [walkOn, h.touch_pointer he]
    split_ifs with h1 h2
    · have hs : s.Settled (.next c cur p e) := ⟨⟨fun _ => rfl, fun _ => rfl⟩, hd, he⟩
      exact hs.goes h ht hq
    · have hs : s.Settled (c.looked cur p (some e)) :=
        looked_settled hd (fun v hv => Option.some.inj hv ▸ he) fun h => by cases h
      exact hs.goesOn h ht hq
    · have hs : s.Settled (.cmp c cur p e (k + 1)) := ⟨⟨fun _ => rfl, fun _ => rfl⟩, hd, he⟩
      exact hs.goes h ht hq
  | next c cur p e =>
    obtain ⟨hd, he⟩ := hg
    simp only [walkOn, h.touch_pointer he]
    cases hn : s.fs.nextSibling e with
    | none =>
      have hs : s.Settled (c.looked cur p none) :=
        looked_settled hd (by simp) fun _ hc => hne ⟨hc.1, hc.2, hn⟩
      exact hs.goesOn h ht hq
    | some e' =>
      have he' := nextSibling_attached h.shape he hn
      have hs : s.Settled (.cmp c cur p e' 0) := ⟨⟨fun _ => rfl, fun _ => rfl⟩, hd, he'⟩
      exact hs.goes h ht hq
  | kind c cur p n =>
    obtain ⟨hd, hn⟩ := hg
    simp only [walkOn, h.touch_pointer hn]
    split_ifs with h1 h2
    · exact (walked_none s fun hc => hne ⟨hc, h1⟩).goesOn h ht hq
    · have hs := walked_some (w := ⟨cur, some n, []⟩) c hd (Nat.succ_pos 63)
        fun v hv => Option.some.inj hv ▸ hn
      exact hs.goesOn h ht hq
    · have hs : s.Settled (.look c n (skipSlashes (nextComponent p).2.2)) :=
        ⟨⟨fun _ => rfl, fun _ => rfl⟩, hn, not_not.1 h1⟩
      exact hs.goes h ht hq
  | _ => exact h

/-! ## Behind the walk -/

theorem checkKind_inv (second : Bool)
    (hp : s.phase t = if second then .kind2 c w v else .kind1 c w v) :
    (s.checkKind t c w v second).RaceInv := by
  have hg : s.fs.Attached w.parent ∧ s.fs.Attached v := by
    have hg := h.good t ht
    rw [hp] at hg
    cases second <;> exact hg
  have hq : Light (s.phase t) := by
    rw [hp]
    cases second <;> exact ⟨fun _ => rfl, fun _ => rfl⟩
  have hidle := (settled_idle s).goes h ht hq
  have hkind2 : (s.goes t (.kind2 c w v)).RaceInv :=
    Settled.goes h ht ⟨⟨fun _ => rfl, fun _ => rfl⟩, hg⟩ hq
  have hremove : (s.goes t (.remove w v)).RaceInv :=
    Settled.goes h ht ⟨⟨fun _ => rfl, fun _ => rfl⟩, hg⟩ hq
  have hlock : ∀ access, (s.goes t (.lockOld access v)).RaceInv := fun access =>
    Settled.goes h ht ⟨⟨fun _ => rfl, fun _ => rfl⟩, hg.2⟩ hq
  simp only [checkKind, h.touch_pointer hg.2]
  split
  · split_ifs <;> assumption
  · split_ifs
    · exact hidle
    · exact hidle
    · exact hlock _
  · split_ifs <;> assumption
  · split_ifs <;> assumption

/-! ## Under the lock -/

theorem pin_goes (hv : s.fs.Attached v) (access : Access) (hq : Light (s.phase t)) :
    ((s.pin v).goes t (.pinned v access)).RaceInv := by
  rw [pin_live (h.live_attached hv)]
  have hm : s.Move t (s.fs.pin v) (.pinned v access) := pin_move h hv
    (fun u => by rw [hq.owns, Nat.zero_add]; rfl) fun u => (hq.frees u).symm
  exact h.move ht hm (h.shape.attached_lt hv)

theorem pinOld_inv (hp : s.phase t = .lockOld access v) : (s.pinOld t access v).RaceInv := by
  have hv : s.fs.Attached v := by
    have hg := h.good t ht
    rw [hp] at hg
    exact hg
  have hq : Light (s.phase t) := hp ▸ ⟨fun _ => rfl, fun _ => rfl⟩
  have hidle := (settled_idle s).goes h ht hq
  simp only [pinOld, h.touch_pointer hv]
  split_ifs with h0
  · exact pin_goes h ht hv access hq
  · cases hd : (s.fs.vnode v).parent with
    | none => exact hidle
    | some d =>
      simp only [h.touch_attached (childReads_attached h.shape (h.shape.parent v d hd).2.1 _)]
      split_ifs
      · exact hidle
      · exact pin_goes h ht hv access hq

end

theorem Good.enters (hg : s.Good (.lockNew c w nv)) (hn : s.fs.vnChild w.parent w.name = none) :
    s.fs.Enters w.parent nv := by
  obtain ⟨hd, hname, hfresh, hlt, hnv⟩ := hg
  exact {
    parent := hd.attached
    dir := hd.kind
    lt := hlt
    born := hfresh.born
    loose := hfresh.loose
    empty := hfresh.empty
    name := hnv ▸ ⟨hname.ne, hname.length⟩
    missing := hnv ▸ hn }

theorem attach_live (h : s.RaceInv) (ht : t < s.nthread) (hp : s.phase t = .lockNew c w nv)
    (hn : s.fs.vnChild w.parent w.name = none) :
    s.attach w.parent nv = s.setFs (s.fs.vnAttach w.parent nv) := by
  have hg := h.good t ht
  rw [hp] at hg
  have he := hg.enters hn
  have hnv : (s.fs.vnode nv).frees = 0 := h.live_owned ht (by rw [hp]; simp [VfsPhase.owns])
  have hd := h.live_attached he.parent
  have htouch : s.touch (w.parent :: nv :: (s.fs.vnode w.parent).children.getLast?.toList) = s := by
    apply touch_live
    intro u hu
    simp only [List.mem_cons, Option.mem_toList] at hu
    obtain rfl | rfl | hu := hu
    · exact hd
    · exact hnv
    · exact h.live_attached (h.shape.child_attached (List.mem_of_getLast? hu))
  have hok : ¬ (s.Freed w.parent ∨ ¬ s.fs.Attached w.parent) := by
    rintro (hf | ha)
    · exact hf hd
    · exact ha he.parent
  rw [attach, htouch, if_neg hok, fault_nil]

theorem attach_inv (h : s.RaceInv) (ht : t < s.nthread) (hp : s.phase t = .lockNew c w nv)
    (hn : s.fs.vnChild w.parent w.name = none) :
    ((s.setFs (s.fs.vnAttach w.parent nv)).goes t .idle).RaceInv := by
  have hg := h.good t ht
  rw [hp] at hg
  have hm : s.Move t (s.fs.vnAttach w.parent nv) .idle := attach_move h (hg.enters hn)
    (fun u => by rw [hp]; exact (Nat.zero_add _).symm) fun u => by rw [hp]; rfl
  exact h.move ht hm trivial

theorem goes_goes (s : Race) (t : Nat) (p q : VfsPhase) : (s.goes t p).goes t q = s.goes t q := by
  simp [goes]

theorem goes_pin (s : Race) (t v : Nat) (p : VfsPhase) :
    (s.goes t p).pin v = (s.pin v).goes t p := rfl

theorem Fresh.same (hf : s.Fresh nv) (ht : t < s.nthread) {fs' : Vfs}
    (hs : Vfs.SameShape s.fs fs') (howns : p.owns nv = (s.phase t).owns nv) :
    ((s.setFs fs').goes t p).Fresh nv := by
  have hown : ((s.setFs fs').goes t p).owned nv + _ = _ := goes_owned ht nv
  have hrefs : ((s.setFs fs').goes t p).refs nv = s.refs nv := by
    show fs'.holds nv + ((s.setFs fs').goes t p).owned nv = s.fs.holds nv + s.owned nv
    rw [hs.holds]
    omega
  exact ⟨hs.nvnode ▸ hf.born, fun ha => hf.loose ((hs.attached nv).1 ha),
    (hs.children nv).trans hf.empty, hrefs.trans hf.refs⟩

section
variable (h : s.RaceInv) (ht : t < s.nthread)
include h ht

theorem attachNew_inv (hp : s.phase t = .lockNew c w nv) : (s.attachNew t c w nv).RaceInv := by
  have hg := h.good t ht
  rw [hp] at hg
  obtain ⟨hd, -, hfresh, -, -⟩ := hg
  simp only [attachNew, h.touch_attached (childReads_attached h.shape hd.attached _)]
  split
  · -- `vfs_open` pins the vnode that was there
    rename_i race access disp opts hrace
    have hatt := h.shape.child_attached (Vfs.vnChild_mem hrace).1
    have hne : race ≠ nv := by
      rintro rfl
      exact hfresh.loose hatt
    rw [pin_live (h.live_attached hatt)]
    have hm : s.Move t (s.fs.pin race) (.kfree nv (some (race, access))) :=
      pin_move h hatt (fun u => by rw [hp]; rfl) fun u => by rw [hp]; rfl
    refine h.move ht hm ⟨hfresh.same ht (Vfs.pin_sameShape s.fs race) ?_, fun x hx => ?_⟩
    · rw [hp]
      simp [VfsPhase.owns, hne]
    · cases hx
      exact h.shape.attached_lt hatt
  · apply h.quiet ht
    · exact fun u => by rw [hp]; rfl
    · exact fun u => by rw [hp]; rfl
    · exact ⟨hfresh.same ht (.refl s.fs) (by rw [hp]; rfl), fun _ hx => by cases hx⟩
  · rename_i access disp opts hn
    rw [attach_live h ht hp hn]
    have hinv := attach_inv h ht hp hn
    have hatt : (s.fs.vnAttach w.parent nv).Attached nv := by
      have hg := h.good t ht
      rw [hp] at hg
      exact ((hg.enters hn).attached nv).2 (.inl rfl)
    have hphase : ((s.setFs (s.fs.vnAttach w.parent nv)).goes t .idle).phase t = .idle :=
      Function.update_self ..
    have hpin := pin_goes hinv ht hatt access (by rw [hphase]; exact (settled_idle s).light)
    rw [goes_pin, goes_goes] at hpin
    exact hpin
  · rename_i hn _
    rw [attach_live h ht hp hn]
    exact attach_inv h ht hp hn

theorem removeName_inv (hp : s.phase t = .remove w v) (hok : s.RemovesUnheld t) :
    (s.removeName t w v).RaceInv := by
  have hg := h.good t ht
  rw [hp] at hg
  obtain ⟨hd, hv⟩ := hg
  have hq : Light (s.phase t) := hp ▸ ⟨fun _ => rfl, fun _ => rfl⟩
  have hidle := (settled_idle s).goes h ht hq
  have htouch : s.touch (w.parent :: (s.fs.nextSibling v).toList ++
      (s.fs.prevSibling v).toList) = s := by
    apply h.touch_attached
    intro u hu
    simp only [List.cons_append, List.mem_cons, List.mem_append, Option.mem_toList] at hu
    obtain rfl | hu | hu := hu
    · exact hd
    · exact nextSibling_attached h.shape hv hu
    · exact prevSibling_attached h.shape hv hu
  simp only [removeName, h.touch_attached (childReads_attached h.shape hd _), h.touch_pointer hv,
    htouch]
  split_ifs with h1 h2
  · exact hidle
  · exact hidle
  · obtain ⟨hmem, -⟩ := Vfs.vnChild_mem (not_not.1 h1)
    have hempty : (s.fs.vnode v).children = [] := by
      by_contra hcs
      exact h2 ⟨h.shape.tree.dirs v (h.shape.attached_lt hv) hcs, hcs⟩
    have hunheld := hok (w, v) (by rw [hp]; rfl) (not_not.1 h1) h2
    have hm : s.Move t (s.fs.detach w.parent v) (.release v) := detach_move h hmem hempty hunheld
      (fun u => by rw [hq.owns, Nat.zero_add]; rfl) fun u => (hq.frees u).symm
    exact h.move ht hm (h.shape.attached_lt hv)

/-! ## References that the call owns -/

theorem alloc_inv (hp : s.phase t = .alloc c w) :
    ((s.setFs (s.fs.vnAlloc w.name c.newKind)).goes t (.lockNew c w s.fs.nvnode)).RaceInv := by
  have hg := h.good t ht
  rw [hp] at hg
  obtain ⟨hd, hname⟩ := hg
  have hlt := h.shape.attached_lt hd.attached
  have hm : s.Move t (s.fs.vnAlloc w.name c.newKind) (.lockNew c w s.fs.nvnode) :=
    alloc_move h _ _ (fun u => by rw [hp]; exact (Nat.zero_add _).symm) fun u => by rw [hp]; rfl
  -- before, there was nothing of the new vnode
  have hrefs : ((s.setFs (s.fs.vnAlloc w.name c.newKind)).goes t
      (.lockNew c w s.fs.nvnode)).refs s.fs.nvnode = 1 := by
    have hown : ((s.setFs (s.fs.vnAlloc w.name c.newKind)).goes t
      (.lockNew c w s.fs.nvnode)).owned s.fs.nvnode + _ = _ := goes_owned ht _
    have h0 := (h.unborn le_rfl).1
    rw [hp] at hown
    simp only [VfsPhase.owns, if_true, Nat.add_zero] at hown
    show (s.fs.vnAlloc w.name c.newKind).holds _ + _ = 1
    rw [Vfs.vnAlloc_holds h.shape, hown, ← Nat.add_assoc]
    exact congrArg (· + 1) h0
  have hnew : (s.fs.vnAlloc w.name c.newKind).vnode s.fs.nvnode = Vfs.newVnode w.name c.newKind :=
    Vfs.vnAlloc_new
  refine h.move ht hm ⟨⟨(Vfs.vnAlloc_attached h.shape _).2 hd.attached, ?_⟩, hname,
    ⟨Nat.lt_succ_self _, ?_, congrArg Vnode.children hnew, hrefs⟩, hlt, ?_⟩
  · exact (congrArg Vnode.kind (Vfs.vnAlloc_old hlt.ne)).trans hd.kind
  · exact fun ha => lt_irrefl _ (h.shape.attached_lt ((Vfs.vnAlloc_attached h.shape _).1 ha))
  · exact (congrArg Vnode.name hnew).trans
      (List.take_of_length_le (Nat.le_sub_one_of_lt hname.length))

theorem kfree_inv {race : Option (Nat × Access)} (hp : s.phase t = .kfree nv race) :
    ((s.setFs (s.fs.freeVnode nv)).goes t (.behindRace race)).RaceInv := by
  have hg := h.good t ht
  rw [hp] at hg
  obtain ⟨hf, hr⟩ := hg
  have hself : (s.phase t).owns nv = 1 := by
    have h1 := hf.refs
    have hle := owns_le_owned ht nv
    have hpos : 0 < (s.phase t).owns nv := by
      rw [hp]
      cases race <;> simp [VfsPhase.owns]
    unfold refs at h1
    omega
  have hfr : ∀ u, (s.phase t).frees u = 0 := fun u => by rw [hp]; rfl
  have hm : ∀ p' : VfsPhase, (∀ u, p'.owns u = if nv = u then 0 else (s.phase t).owns u) →
      (∀ u, p'.frees u = 0) → s.Move t (s.fs.freeVnode nv) p' := by
    intro p' howns hfrees
    refine free_move h (fun _ => ⟨rfl, rfl, rfl, rfl⟩) (fun _ => rfl) ?_ howns fun u => ?_
    · rw [hfr, hself, hf.refs]
      exact ⟨rfl, rfl⟩
    · rw [hfrees, hfr]
      split_ifs <;> rfl
  cases race with
  | none =>
    refine h.move ht (hm .idle (fun u => ?_) fun _ => rfl) trivial
    rw [hp]
    simp only [VfsPhase.owns]
    split_ifs <;> rfl
  | some x =>
    obtain ⟨v, access⟩ := x
    refine h.move ht (hm (.pinned v access) (fun u => ?_) fun _ => rfl) (hr _ rfl)
    rw [hp]
    rw [hp] at hself
    simp only [VfsPhase.owns, if_true] at hself ⊢
    by_cases hu : nv = u
    · subst hu
      rw [if_pos rfl]
      omega
    · rw [if_neg hu, if_neg hu, Nat.zero_add]

theorem pinned_inv (hp : s.phase t = .pinned v access) :
    (((s.touch [v]).setFs { s.fs.setFile s.fs.nfile ⟨some v, 0, access⟩ with
      nfile := s.fs.nfile + 1 }).goes t .idle).RaceInv ∧
      ((s.touch [v]).goes t (.release v)).RaceInv := by
  have hg := h.good t ht
  rw [hp] at hg
  rw [touch_one (h.live_owned ht (by rw [hp]; simp [VfsPhase.owns]))]
  constructor
  · have hm : s.Move t (s.fs.addFile v access) .idle := addFile_move h hg access
      (fun u => by rw [hp]; exact (Nat.zero_add _).symm) fun u => by rw [hp]; rfl
    exact h.move ht hm trivial
  · apply h.quiet ht
    · exact fun u => by rw [hp]; rfl
    · exact fun u => by rw [hp]; rfl
    · exact hg

theorem drop_inv (hp : s.phase t = .release v) : ∃ s', s.drop t v = .ok s' ∧ s'.RaceInv := by
  have hg := h.good t ht
  have hle := owns_le_owned ht v
  have hself : (s.phase t).owns v = 1 := by
    rw [hp]
    exact if_pos rfl
  have hpos : (s.fs.vnode v).ref ≠ 0 := by
    rw [hp] at hg
    have hr : s.refs v ≠ 0 := by
      unfold refs
      omega
    rw [(h.counted v hg).ref hr]
    exact hr
  rw [hp] at hg
  unfold drop
  rw [if_neg hpos, touch_one (h.live_owned ht (by omega))]
  by_cases h1 : (s.fs.vnode v).ref = 1
  · rw [if_neg (not_not.2 h1)]
    have hm : s.Move t _ (.free v) := drop_move h
      (fun u => by rw [hp]; exact (Nat.zero_add _).symm)
      fun u => by rw [hp]; simp [VfsPhase.frees, h1]
    exact ⟨_, rfl, h.move ht hm hg⟩
  · rw [if_pos h1]
    have hm : s.Move t _ .idle := drop_move h
      (fun u => by rw [hp]; exact (Nat.zero_add _).symm)
      fun u => by rw [hp]; simp [VfsPhase.frees, h1]
    exact ⟨_, rfl, h.move ht hm trivial⟩

theorem free_inv (hp : s.phase t = .free v) :
    (((s.touch [v]).setFs
      ((s.fs.modVnode v fun x => { x with content := .empty }).freeVnode v)).goes t .idle).RaceInv := by
  have hg := h.good t ht
  rw [hp] at hg
  have hself : (s.phase t).frees v = 1 := by
    rw [hp]
    exact if_pos rfl
  have hle := frees_le_freeing ht v
  have hfr := (h.counted v hg).frees
  -- the references are gone
  have h0 : s.refs v = 0 ∧ (s.fs.vnode v).frees = 0 := by
    split_ifs at hfr with hr
    · exact ⟨hr, by omega⟩
    · omega
  have hfs : (s.fs.modVnode v fun x => { x with content := .empty }).freeVnode v =
      s.fs.modVnode v fun x => { x with content := .empty, frees := x.frees + 1 } := by
    simp [Vfs.freeVnode, Vfs.modVnode]
  rw [touch_one h0.2, hfs]
  have hm : s.Move t (s.fs.modVnode v fun x => { x with content := .empty, frees := x.frees + 1 })
      .idle := by
    refine free_move h (fun _ => ⟨rfl, rfl, rfl, rfl⟩) (fun _ => rfl) ?_ (fun u => ?_) fun u => ?_
    · rw [h0.1, hself, hp]
      exact ⟨rfl, rfl⟩
    · rw [hp]
      simp [VfsPhase.owns]
    · rw [hp]
      simp [VfsPhase.frees]
  exact h.move ht hm trivial

/-! ## Runs -/

theorem turn_inv (heap : Bool) (hrem : s.RemovesUnheld t)
    (hne : ¬ s.LosesPath (s.phase t)) :
    ∃ s', s.turn t heap = .ok s' ∧ s'.RaceInv := by
  unfold turn
  cases hp : s.phase t with
  | idle => exact ⟨s, rfl, h⟩
  | wild => exact ⟨s, rfl, h⟩
  | look _ _ _ | cmp _ _ _ _ _ | next _ _ _ _ | kind _ _ _ _ =>
    exact ⟨_, rfl, walkOn_inv h ht hp ⟨fun _ => rfl, fun _ => rfl⟩ (hp ▸ hne)⟩
  | kind1 c w v => exact ⟨_, rfl, checkKind_inv h ht false hp⟩
  | kind2 c w v => exact ⟨_, rfl, checkKind_inv h ht true hp⟩
  | alloc c w =>
    cases heap with
    | true => exact ⟨_, rfl, alloc_inv h ht hp⟩
    | false =>
      have hq : Light (s.phase t) := hp ▸ ⟨fun _ => rfl, fun _ => rfl⟩
      exact ⟨_, rfl, (settled_idle s).goes h ht hq⟩
  | lockNew c w nv => exact ⟨_, rfl, attachNew_inv h ht hp⟩
  | lockOld access v => exact ⟨_, rfl, pinOld_inv h ht hp⟩
  | remove w v => exact ⟨_, rfl, removeName_inv h ht hp hrem⟩
  | kfree nv race => exact ⟨_, rfl, kfree_inv h ht hp⟩
  | pinned v access =>
    cases heap with
    | true => exact ⟨_, rfl, (pinned_inv h ht hp).1⟩
    | false => exact ⟨_, rfl, (pinned_inv h ht hp).2⟩
  | release v => exact drop_inv h ht hp
  | free v => exact ⟨_, rfl, free_inv h ht hp⟩

end

theorem raceStep_inv (h : s.RaceInv) {a : RaceOp} (hc : RaceCalls s a) (hu : Unheld s a) :
    ∃ s', raceStep s a = some s' ∧ s'.RaceInv := by
  cases a with
  | start t c cwd path =>
    obtain ⟨ht, hp⟩ := hc
    exact ⟨_, rfl, (begin_settled h.shape c cwd path).goesOn h ht (hp ▸ (settled_idle s).light)⟩
  | turn t heap =>
    obtain ⟨s', hs', hinv⟩ := turn_inv h hc heap hu.1 hu.2
    exact ⟨s', by rw [raceStep, hs']; rfl, hinv⟩

theorem init_raceInv {fs : Vfs} (h : fs.VfsInv) (n : Nat) : (init n fs).RaceInv where
  shape := h.shape
  counted u hu := by
    have hrefs : (init n fs).refs u = fs.holds u := by
      simp [refs, owned, init, VfsPhase.owns]
    have hfreeing : (init n fs).freeing u = 0 := by
      simp [freeing, init, VfsPhase.frees]
    rw [hrefs, hfreeing]
    exact ⟨fun _ => (h.counted u hu).1, (h.counted u hu).2⟩
  good _ _ := trivial
  faults := rfl

/-- Calls of any number of threads, in any order and on any tree, use no vnode that has been freed
and attach nothing to a directory that has lost its name, if names are only taken from vnodes that no
other call points to. -/
theorem vnodes_used_live {n : Nat} {seq : List VfsOp} {fs : Vfs} {ops : List RaceOp}
    (hseq : Run.Legal vfsStep VfsOk .init seq) (hfs : Run.run vfsStep .init seq = some fs)
    (hl : Run.Legal raceStep (fun s a => RaceCalls s a ∧ Unheld s a) (.init n fs) ops) :
    ∃ s, Run.run raceStep (.init n fs) ops = some s ∧ s.faults = [] := by
  have hinv : fs.VfsInv := Run.run_keeps (I := Vfs.VfsInv) (fun s a s' hi hok hs => by
    obtain ⟨s1, hs1, h1, -⟩ := Vfs.vfsStep_spec hi hok
    cases hs.symm.trans hs1
    exact h1) Vfs.init_inv hseq hfs
  obtain ⟨s, hs, h⟩ := Run.run_inv (I := RaceInv) (fun _ _ hi hok => raceStep_inv hi hok.1 hok.2)
    (init_raceInv hinv n) hl
  exact ⟨s, hs, h.faults⟩

/-- A thread has `/d` pinned when another unlinks it. -/
theorem vnodes_used_live_pinned : let seq : List VfsOp := [.mkdir [slash] [slash, 100] true]
    let ops : List RaceOp := .start 0 (.open fileReadData fileOpen 0) [slash] [slash, 100] ::
      List.replicate 6 (.turn 0 true) ++ .start 1 .unlink [slash] [slash, 100] ::
      List.replicate 7 (.turn 1 true) ++ [.turn 0 true]
    ∃ fs s, Run.run vfsStep .init seq = some fs ∧ Run.run raceStep (.init 2 fs) ops = some s ∧
      s.faults = [] ∧ s.phase 0 = .idle ∧ s.phase 1 = .idle ∧ (s.fs.file 0).vnode = some 1 ∧
      (s.fs.vnode 1).parent = none := by
  intro seq ops
  have hseq : Run.Legal vfsStep VfsOk .init seq := by decide +kernel
  obtain ⟨fs, hfs, hl, s, hs, hend⟩ : ∃ fs, Run.run vfsStep .init seq = some fs ∧
      Run.Legal raceStep (fun s a => RaceCalls s a ∧ Unheld s a) (.init 2 fs) ops ∧
      ∃ s, Run.run raceStep (.init 2 fs) ops = some s ∧ s.phase 0 = .idle ∧ s.phase 1 = .idle ∧
        (s.fs.file 0).vnode = some 1 ∧ (s.fs.vnode 1).parent = none := by decide +kernel
  obtain ⟨s1, hs1, hfaults⟩ := vnodes_used_live hseq hfs hl
  cases hs.symm.trans hs1
  exact ⟨fs, s, hfs, hs, hfaults, hend⟩

/-- A thread has walked to `/d` when another unlinks it: the first then reads the kind of a vnode
that has been freed. -/
theorem walked_vnode_freed :
    let ops : List RaceOp := .start 0 (.open fileReadData fileOpen 0) [slash] [slash, 100] ::
      List.replicate 3 (.turn 0 true) ++ .start 1 .unlink [slash] [slash, 100] ::
      List.replicate 8 (.turn 1 true) ++ [.turn 0 true]
    ∃ fs s, Run.run vfsStep .init [.mkdir [slash] [slash, 100] true] = some fs ∧
      Run.Legal raceStep RaceCalls (.init 2 fs) ops ∧
      Run.run raceStep (.init 2 fs) ops = some s ∧ s.faults = [.touched 1] := by
  intro ops
  obtain ⟨fs, hfs, hl, s, hs, hend⟩ : ∃ fs, Run.run vfsStep .init
      [.mkdir [slash] [slash, 100] true] = some fs ∧ Run.Legal raceStep RaceCalls (.init 2 fs) ops ∧
      ∃ s, Run.run raceStep (.init 2 fs) ops = some s ∧ s.faults = [.touched 1] := by decide +kernel
  exact ⟨fs, s, hfs, hl, hs, hend⟩

end Race

end Aegis
