import Aegis.Ob.Proof.Namespace
import Aegis.Ob.Token

/-!
# Integrity only goes down

`Lives w w'`: the objects of `w` are those of `w'` that are not new, and one that still lives has
the token it had. Every object function is related so. Over it, `Down` says that a step of
`TokenSys` raises no integrity, and `tokenStep_creates` what a new process starts with.
-/

namespace Aegis

open Function Outcome

namespace World

/-! ## Objects that live keep their token -/

/-- Processes that live keep their tokens. -/
structure Lives (w w' : World) : Prop where
  nobj : w.nobj ≤ w'.nobj
  kind : ∀ p < w.nobj, (w'.obj p).kind = (w.obj p).kind
  live : ∀ p < w.nobj, (w'.obj p).deletes = 0 →
    (w.obj p).deletes = 0 ∧ (w'.obj p).token = (w.obj p).token
  /-- A new process has a token. -/
  fresh : ∀ p, w.nobj ≤ p → p < w'.nobj → (w'.obj p).kind = .process →
    (w'.obj p).deletes = 0 → ∃ t < w'.nobj, (w'.obj p).token = some t

section
variable {w w₁ w₂ w' : World} {o : Nat}

theorem Lives.refl (w : World) : Lives w w :=
  ⟨le_rfl, fun _ _ => rfl, fun _ _ h => ⟨h, rfl⟩, fun _ h h' => by omega⟩

theorem Lives.trans (h : Lives w w₁) (h' : Lives w₁ w₂) : Lives w w₂ where
  nobj := h.nobj.trans h'.nobj
  kind p hp := (h'.kind p (hp.trans_le h.nobj)).trans (h.kind p hp)
  live p hp hd := by
    obtain ⟨hd1, ht1⟩ := h'.live p (hp.trans_le h.nobj) hd
    obtain ⟨hd0, ht0⟩ := h.live p hp hd1
    exact ⟨hd0, ht1.trans ht0⟩
  fresh p hp hp' hk hd := by
    by_cases hlt : p < w₁.nobj
    · obtain ⟨hd1, ht1⟩ := h'.live p hlt hd
      obtain ⟨t, ht, he⟩ := h.fresh p hp hlt ((h'.kind p hlt).symm.trans hk) hd1
      exact ⟨t, ht.trans_le h'.nobj, ht1.trans he⟩
    · exact h'.fresh p (by omega) hp' hk hd

theorem Lives.of_eq (hn : w'.nobj = w.nobj)
    (h : ∀ p, (w'.obj p).kind = (w.obj p).kind ∧ ((w'.obj p).deletes = 0 →
      (w.obj p).deletes = 0 ∧ (w'.obj p).token = (w.obj p).token)) : Lives w w' where
  nobj := hn.ge
  kind p _ := (h p).1
  live p _ := (h p).2
  fresh p hp hp' := by omega

theorem setObj_lives {x : Obj} (hk : x.kind = (w.obj o).kind) (hd : x.deletes = (w.obj o).deletes)
    (ht : x.token = (w.obj o).token) : Lives w (w.setObj o x) := by
  refine Lives.of_eq rfl fun p => ?_
  rw [obj_setObj]
  split_ifs with h
  · subst h
    exact ⟨hk, fun h0 => ⟨hd.symm.trans h0, ht⟩⟩
  · exact ⟨rfl, fun h0 => ⟨h0, rfl⟩⟩

theorem setTable_lives (p : Nat) (t : HandleTable) : Lives w (w.setTable p t) :=
  Lives.of_eq rfl fun _ => ⟨rfl, fun h => ⟨h, rfl⟩⟩

theorem obReference_lives (o : Nat) : Lives w (w.obReference o) := setObj_lives rfl rfl rfl

theorem incHandleCount_lives (o : Nat) : Lives w (w.incHandleCount o) :=
  setObj_lives rfl rfl rfl

theorem decHandleCount_lives (o : Nat) : Lives w (w.decHandleCount o) :=
  setObj_lives rfl rfl rfl

theorem openFn_lives (o : Nat) (acc : Access) : Lives w (w.openFn o acc) := by
  have h := pipeOpen_same (w.obj o) acc
  unfold openFn
  split
  · exact setObj_lives h.kind h.deletes h.token
  · exact Lives.refl w

theorem closeFn_lives (o : Nat) (acc : Access) : Lives w (w.closeFn o acc) := by
  have h := pipeClose_same (w.obj o) acc
  unfold closeFn
  split
  · exact setObj_lives h.kind h.deletes h.token
  · exact Lives.refl w

/-! ## Dropping a reference -/

theorem Lives.markDeleted (h : Lives w w₁) (hn : w₁.nobj = w.nobj) (hn' : w₂.nobj = w₁.nobj)
    (hk : (w₂.obj o).kind = (w₁.obj o).kind) (hne : ∀ p, p ≠ o → w₂.obj p = w₁.obj p) :
    Lives w (w₂.markDeleted o) where
  nobj := (hn'.trans hn).ge
  kind p hp := by
    rw [World.markDeleted, obj_setObj]
    split_ifs with hp'
    · subst hp'
      exact hk.trans (h.kind p hp)
    · rw [hne p hp']
      exact h.kind p hp
  live p hp hd := by
    by_cases hp' : p = o
    · subst hp'
      rw [World.markDeleted, obj_setObj_self] at hd
      exact absurd hd (Nat.succ_ne_zero _)
    · rw [World.markDeleted, obj_setObj_of_ne _ _ _ hp', hne p hp'] at hd ⊢
      exact h.live p hp hd
  fresh p hp hp' := by
    have : p < w₂.nobj := hp'
    omega

theorem dropToken_lives (h : w.dropReference (fun w _ => .ok w) o = .ok w') :
    Lives w w' ∧ w'.nobj = w.nobj := by
  have hdec : Lives w (w.decPointerCount o) := setObj_lives rfl rfl rfl
  obtain ⟨-, ⟨-, w₁, h1, rfl⟩ | ⟨-, rfl⟩⟩ := dropReference_cases h
  · cases h1
    exact ⟨hdec.markDeleted rfl rfl rfl fun _ _ => rfl, rfl⟩
  · exact ⟨hdec, rfl⟩

theorem obDereference_lives (h : w.obDereference o = .ok w') : Lives w w' := by
  have hdec : Lives w (w.decPointerCount o) := setObj_lives rfl rfl rfl
  obtain ⟨-, ⟨-, w₁, h1, rfl⟩ | ⟨-, rfl⟩⟩ := dropReference_cases h
  swap
  · exact hdec
  unfold deleteFn at h1
  split at h1
  swap
  · cases h1
    exact hdec.markDeleted rfl rfl rfl fun _ _ => rfl
  unfold processDelete at h1
  split at h1
  · cases h1
    exact hdec.markDeleted rfl rfl rfl fun _ _ => rfl
  · obtain ⟨w₂, h2, h3⟩ := bind_eq_ok.1 h1
    cases h3
    obtain ⟨hl, hn⟩ := dropToken_lives h2
    refine (hdec.trans hl).markDeleted hn rfl ?_ fun p hp => obj_setObj_of_ne _ _ _ hp
    rw [clearToken, obj_setObj_self]

theorem obDereferenceOpt_lives {r : Option Nat} (h : w.obDereferenceOpt r = .ok w') :
    Lives w w' := by
  cases r with
  | none => cases h; exact Lives.refl w
  | some o => exact obDereference_lives h

theorem releaseHandle_lives {acc : Access} (h : w.releaseHandle o acc = .ok w') : Lives w w' :=
  ((closeFn_lives o acc).trans (decHandleCount_lives o)).trans (obDereference_lives h)

/-! ## Tables -/

theorem htInsertCur_lives (cur : Option Nat) (o : Nat) (access : Access) :
    Lives w (w.htInsertCur cur o access).2.2 := by
  cases cur with
  | none => exact Lives.refl w
  | some c =>
    show Lives w (w.htInsertEx c o access false false).2.2
    obtain ⟨-, h⟩ | ⟨i, -, -, -, h⟩ := htInsertEx_cases w c o access false false
    · rw [h]
      exact Lives.refl w
    · rw [h]
      exact ((obReference_lives o).trans (incHandleCount_lives o)).trans
        ((setTable_lives c _).trans (openFn_lives o _))

theorem htLookupCur_cases (cur : Option Nat) (h : Handle) (required : Access) (k : ObjKind) :
    (∃ st, st ≠ .success ∧ w.htLookupCur cur h required (some k) = (st, none, w)) ∨
      ∃ o access, (w.obj o).kind = k ∧
        w.htLookupCur cur h required (some k) = (.success, some (o, access), w.obReference o) := by
  cases cur with
  | none => exact .inl ⟨_, by simp, rfl⟩
  | some c =>
    obtain hf | ⟨i, o, -, -, hk, he⟩ := htLookupEx_cases w c h required (some k)
    · exact .inl hf
    · exact .inr ⟨o, _, hk k rfl, he⟩

theorem htClose_lives {p : Nat} {h : Handle} {r : Status × World} (hr : w.htClose p h = .ok r) :
    Lives w r.2 := by
  obtain ⟨-, he⟩ | ⟨i, o, -, ⟨-, he⟩ | ⟨-, he⟩⟩ := htClose_cases w p h
  · rw [he] at hr
    cases hr
    exact Lives.refl w
  · rw [he] at hr
    cases hr
    exact Lives.refl w
  · rw [he] at hr
    obtain ⟨w₁, h1, h2⟩ := bind_eq_ok.1 hr
    cases h2
    exact (setTable_lives p _).trans (releaseHandle_lives h1)

theorem processArg_lives (cur : Option Nat) (h : Handle) (right : Access) :
    Lives w (w.processArg cur h right).2.2 := by
  unfold processArg
  split_ifs
  · exact Lives.refl w
  · cases cur with
    | none => exact Lives.refl w
    | some c =>
      obtain ⟨st, -, he⟩ | ⟨i, o, -, -, -, he⟩ := htLookupEx_cases w c h right (some .process)
      · simp only [he]
        exact Lives.refl w
      · simp only [he]
        exact obReference_lives o

theorem openToken_lives (cur p : Option Nat) (access : Access) :
    Lives w (w.openToken cur p access).2.2 := by
  unfold openToken
  split
  · exact Lives.refl w
  · split
    · exact Lives.refl w
    · exact htInsertCur_lives cur _ access

theorem ntOpenProcessToken_lives {cur : Option Nat} {proc : Handle} {access : Access}
    {r : Status × Option Handle × World} (hr : w.ntOpenProcessToken cur proc access = .ok r) :
    Lives w r.2.2 := by
  simp only [ntOpenProcessToken] at hr
  by_cases ha : access = 0
  · rw [if_pos ha] at hr
    cases hr
    exact Lives.refl w
  rw [if_neg ha] at hr
  by_cases hs : ntSuccess (w.processArg cur proc processQueryInformation).1 = false
  · rw [if_pos hs] at hr
    cases hr
    exact processArg_lives cur proc _
  · rw [if_neg hs] at hr
    obtain ⟨w₁, h1, h2⟩ := bind_eq_ok.1 hr
    cases h2
    exact ((processArg_lives cur proc processQueryInformation).trans
      (openToken_lives cur _ access)).trans (obDereferenceOpt_lives h1)

/-! ## New objects -/

theorem newObject_obj (kind : ObjKind) (name : Option Name) {p : Nat} (hp : p ≠ w.nobj) :
    (w.newObject kind name).obj p = w.obj p := obj_setObj_of_ne w _ _ hp

theorem newObject_obj_self (kind : ObjKind) (name : Option Name) :
    (w.newObject kind name).obj w.nobj =
      ⟨kind, truncate (name.getD []), 1, 0, false, none, 0, 0, false, 0⟩ :=
  obj_setObj_self w _ _

theorem newObject_lives {kind : ObjKind} (hk : kind ≠ .process) (name : Option Name) :
    Lives w (w.newObject kind name) where
  nobj := Nat.le_succ _
  kind p hp := by rw [newObject_obj kind name hp.ne]
  live p hp hd := by
    rw [newObject_obj kind name hp.ne] at hd ⊢
    exact ⟨hd, rfl⟩
  fresh p hp hp' hkind := by
    have hp' : p < w.nobj + 1 := hp'
    obtain rfl : p = w.nobj := by omega
    rw [newObject_obj_self] at hkind
    exact absurd hkind hk

theorem dropProcess_lives {name : Option Name}
    (h : (w.newObject .process name).obDereference w.nobj = .ok w') : Lives w w' := by
  have hx := newObject_obj_self (w := w) .process name
  have hlast : (w.newObject .process name).LastReference w.nobj := by
    simp only [LastReference, hx, and_self]
  obtain ⟨-, ⟨-, w₁, h1, rfl⟩ | ⟨hnot, -⟩⟩ := dropReference_cases h
  swap
  · exact absurd hlast hnot
  have hdec : ((w.newObject .process name).decPointerCount w.nobj).obj w.nobj =
      ⟨.process, truncate (name.getD []), 0, 0, false, none, 0, 0, false, 0⟩ := by
    simp only [decPointerCount, obj_setObj_self, hx]
  have hdel : w₁ = (w.newObject .process name).decPointerCount w.nobj := by
    simp only [deleteFn, processDelete, hdec] at h1
    cases h1
    rfl
  have hobj : ∀ p, p ≠ w.nobj → (w₁.markDeleted w.nobj).obj p = w.obj p := by
    intro p hp
    rw [World.markDeleted, obj_setObj_of_ne _ _ _ hp, hdel, decPointerCount,
      obj_setObj_of_ne _ _ _ hp, newObject_obj _ _ hp]
  have hn : (w₁.markDeleted w.nobj).nobj = w.nobj + 1 := by
    rw [hdel]
    rfl
  exact {
    nobj := by omega
    kind := fun p hp => by rw [hobj p hp.ne]
    live := fun p hp hd => by
      rw [hobj p hp.ne] at hd ⊢
      exact ⟨hd, rfl⟩
    fresh := fun p hp hp' _ hd => by
      obtain rfl : p = w.nobj := by omega
      rw [World.markDeleted, obj_setObj_self] at hd
      exact absurd hd (Nat.succ_ne_zero _) }

theorem newProcess_lives (name : Option Name) (hn : w'.nobj = w.nobj + 2) (hobj : ∀ p, p ≠ w.nobj →
      w'.obj p = ((w.newObject .process name).newObject .token none).obj p)
    (htok : (w'.obj w.nobj).token = some (w.nobj + 1)) : Lives w w' := by
  have hold : ∀ p < w.nobj, w'.obj p = w.obj p := by
    intro p hp
    have hp' : p ≠ (w.newObject .process name).nobj := by
      show p ≠ w.nobj + 1
      omega
    rw [hobj p hp.ne, newObject_obj _ _ hp', newObject_obj _ _ hp.ne]
  have hkind : (w'.obj (w.nobj + 1)).kind = .token := by
    rw [hobj _ (by omega)]
    exact congrArg Obj.kind (newObject_obj_self (w := w.newObject .process name) .token none)
  exact {
    nobj := by omega
    kind := fun p hp => by rw [hold p hp]
    live := fun p hp hd => by
      rw [hold p hp] at hd ⊢
      exact ⟨hd, rfl⟩
    fresh := fun p hp hp' hk _ => by
      by_cases he : p = w.nobj
      · subst he
        exact ⟨_, by omega, htok⟩
      · obtain rfl : p = w.nobj + 1 := by omega
        exact absurd (hkind.symm.trans hk) (by decide) }

theorem pspCreateProcess_lives {name : Name} {heap tokenHeap listed : Bool}
    {r : Option Nat × World} (hr : w.pspCreateProcess name heap tokenHeap listed = .ok r) :
    Lives w r.2 ∧ ∀ p, r.1 = some p →
      p = w.nobj ∧ r.2.nobj = w.nobj + 2 ∧ (r.2.obj p).token = some (w.nobj + 1) := by
  cases heap with
  | false =>
    cases hr
    exact ⟨Lives.refl w, fun p hp => by cases hp⟩
  | true =>
    cases tokenHeap with
    | false =>
      obtain ⟨w₁, h1, h2⟩ := bind_eq_ok.1
        (show ((w.newObject .process (some name)).obDereference w.nobj >>= _) = _ from hr)
      cases h2
      exact ⟨dropProcess_lives h1, fun p hp => by cases hp⟩
    | true =>
      obtain ⟨w₂, hw2⟩ : ∃ w₂, (w.newObject .process (some name)).newObject .token none = w₂ :=
        ⟨_, rfl⟩
      have hn : w₂.nobj = w.nobj + 2 := by rw [← hw2]; rfl
      have htok : ((w₂.setObj w.nobj { w₂.obj w.nobj with token := some (w.nobj + 1) }).obj
          w.nobj).token = some (w.nobj + 1) := by rw [obj_setObj_self]
      have hlives : Lives w (w₂.setObj w.nobj { w₂.obj w.nobj with token := some (w.nobj + 1) }) :=
        newProcess_lives (some name) hn
          (fun p hp => (obj_setObj_of_ne _ _ _ hp).trans (by rw [hw2])) htok
      have hr' : (some w.nobj, if listed = true then
          (w₂.setObj w.nobj { w₂.obj w.nobj with token := some (w.nobj + 1) }).obReference w.nobj
          else w₂.setObj w.nobj { w₂.obj w.nobj with token := some (w.nobj + 1) }) = r := by
        rw [← hw2]
        exact ok.inj hr
      subst hr'
      cases listed with
      | false =>
        refine ⟨hlives, ?_⟩
        rintro p ⟨⟩
        exact ⟨rfl, hn, htok⟩
      | true =>
        refine ⟨hlives.trans (obReference_lives w.nobj), ?_⟩
        rintro p ⟨⟩
        refine ⟨rfl, hn, ?_⟩
        simp only [if_true, obReference, obj_setObj_self]

end

end World

/-! ## What a step does -/

namespace TokenSys

variable {i n p q t : Nat} {heap : Bool} {w : World} {h : Handle} {cur : Option Nat}

/-- Every process has a token, of integrity 0 or 1. -/
structure TokInv (s : TokenSys) : Prop where
  token : ∀ p, s.Proc p → ∃ t < s.world.nobj, (s.world.obj p).token = some t
  le : ∀ t, s.integrity t ≤ 1
  creator : ∀ r q, s.creator r = some q → r < s.world.nobj ∧ q < s.world.nobj

/-- No integrity has been raised, and nothing has been created since. -/
structure Down (s s' : TokenSys) : Prop where
  lives : s.world.Lives s'.world
  integrity : ∀ t < s.world.nobj, s'.integrity t ≤ s.integrity t

variable {s s' s'' : TokenSys}

theorem Down.refl (s : TokenSys) : Down s s := ⟨World.Lives.refl _, fun _ _ => le_rfl⟩

theorem Down.trans (h : Down s s') (h' : Down s' s'') : Down s s'' where
  lives := h.lives.trans h'.lives
  integrity t ht := (h'.integrity t (ht.trans_le h.lives.nobj)).trans (h.integrity t ht)

theorem Down.proc (h : Down s s') (hp : s'.Proc p) (hlt : p < s.world.nobj) :
    s.Proc p ∧ (s'.world.obj p).token = (s.world.obj p).token := by
  obtain ⟨hd, ht⟩ := h.lives.live p hlt hp.2.2
  exact ⟨⟨hlt, (h.lives.kind p hlt).symm.trans hp.2.1, hd⟩, ht⟩

theorem Down.integrity_le (h : Down s s') (hi : s.TokInv) {i' : Nat} (hp : s.Integrity p i)
    (hp' : s'.Integrity p i') : i' ≤ i := by
  obtain ⟨hproc, t, ht, rfl⟩ := hp
  obtain ⟨hproc', t', ht', rfl⟩ := hp'
  obtain ⟨-, he⟩ := h.proc hproc' hproc.1
  obtain ⟨u, hu, hut⟩ := hi.token p hproc
  obtain rfl : t' = t := Option.some.inj (ht'.symm.trans (he.trans ht))
  obtain rfl : u = t' := Option.some.inj (hut.symm.trans ht)
  exact h.integrity u hu

/-- The processes that a step creates, with what they start with. -/
structure Step (s s' : TokenSys) : Prop where
  down : Down s s'
  le : ∀ t, s'.integrity t ≤ 1
  creator : ∀ r q, s'.creator r = some q → s.creator r = some q ∨
    (r = s.world.nobj ∧ r < s'.world.nobj ∧ s.Proc q ∧ ∀ i j, s.Integrity q i →
      s'.Integrity r j → j ≤ i)

theorem Step.inv (h : Step s s') (hi : s.TokInv) : s'.TokInv where
  token p hp := by
    by_cases hlt : p < s.world.nobj
    · obtain ⟨hp0, he⟩ := h.down.proc hp hlt
      obtain ⟨t, ht, htok⟩ := hi.token p hp0
      exact ⟨t, ht.trans_le h.down.lives.nobj, he.trans htok⟩
    · exact h.down.lives.fresh p (by omega) hp.1 hp.2.1 hp.2.2
  le := h.le
  creator r q hq := by
    have hn := h.down.lives.nobj
    obtain hq | ⟨-, hr, hq, -⟩ := h.creator r q hq
    · obtain ⟨h1, h2⟩ := hi.creator r q hq
      exact ⟨h1.trans_le hn, h2.trans_le hn⟩
    · exact ⟨hr, hq.1.trans_le hn⟩

theorem withWorld_step (hi : s.TokInv) (h : s.world.Lives w) : Step s (s.withWorld w) where
  down := ⟨h, fun _ _ => le_rfl⟩
  le := hi.le
  creator _ _ hq := .inl hq

theorem setToken_step (hi : s.TokInv) (h : s.world.Lives w) (pid : Nat)
    (ht : s.world.nobj ≤ t ∨ i ≤ s.integrity t) (hle : i ≤ 1) :
    Step s ((s.setToken t pid i).withWorld w) where
  down := by
    refine ⟨h, fun u hu => ?_⟩
    show update s.integrity t i u ≤ s.integrity u
    by_cases he : u = t
    · subst he
      rw [update_self]
      exact ht.resolve_left (by omega)
    · rw [update_of_ne he]
  le u := by
    show update s.integrity t i u ≤ 1
    by_cases he : u = t
    · subst he
      rwa [update_self]
    · rw [update_of_ne he]
      exact hi.le u
  creator _ _ hq := .inl hq

/-! ## The calls -/

theorem ntDuplicateToken_step (hi : s.TokInv) {src : Handle} {access : Access}
    {r : Status × Option Handle × TokenSys} (hr : s.ntDuplicateToken cur src access heap = .ok r) :
    Step s r.2.2 := by
  simp only [ntDuplicateToken] at hr
  by_cases ha : access = 0
  · rw [if_pos ha] at hr
    cases hr
    exact withWorld_step hi (World.Lives.refl _)
  rw [if_neg ha] at hr
  obtain ⟨st, -, hl⟩ | ⟨o, acc, -, hl⟩ :=
    World.htLookupCur_cases (w := s.world) cur src tokenDuplicate .token
  · simp only [hl] at hr
    cases hr
    exact withWorld_step hi (World.Lives.refl _)
  simp only [hl] at hr
  have href := World.obReference_lives (w := s.world) o
  cases heap with
  | false =>
    obtain ⟨w₁, h1, h2⟩ := bind_eq_ok.1
      (show ((s.world.obReference o).obDereference o >>= _) = _ from hr)
    cases h2
    exact withWorld_step hi (href.trans (World.obDereference_lives h1))
  | true =>
    obtain ⟨w₁, hw1⟩ : ∃ w₁, (s.world.obReference o).newObject .token none = w₁ := ⟨_, rfl⟩
    have hnew : s.world.Lives w₁ := by
      rw [← hw1]
      exact href.trans (World.newObject_lives (by decide) none)
    obtain ⟨w₂, h2, hr⟩ := bind_eq_ok.1
      (show ((w₁.htInsertCur cur s.world.nobj access).2.2.obDereference s.world.nobj >>= _) = _
        from by rw [← hw1]; exact hr)
    obtain ⟨w3, h3, hr⟩ := bind_eq_ok.1 hr
    cases hr
    exact setToken_step hi ((hnew.trans (World.htInsertCur_lives cur s.world.nobj access)).trans
      ((World.obDereference_lives h2).trans (World.obDereference_lives h3))) _ (.inl le_rfl)
      (hi.le o)

theorem ntSetInformationToken_step (hi : s.TokInv) {integrity : Nat} {r : Status × TokenSys}
    (hr : s.ntSetInformationToken cur h integrity = .ok r) : Step s r.2 := by
  simp only [ntSetInformationToken] at hr
  by_cases ha : integrity > 1
  · rw [if_pos ha] at hr
    cases hr
    exact withWorld_step hi (World.Lives.refl _)
  rw [if_neg ha] at hr
  obtain ⟨st, -, hl⟩ | ⟨o, acc, -, hl⟩ :=
    World.htLookupCur_cases (w := s.world) cur h tokenAdjust .token
  · simp only [hl] at hr
    cases hr
    exact withWorld_step hi (World.Lives.refl _)
  simp only [hl] at hr
  obtain ⟨w₁, h1, hr⟩ := bind_eq_ok.1 hr
  have hlives := (World.obReference_lives o).trans (World.obDereference_lives h1)
  split_ifs at hr with hup
  · cases hr
    exact withWorld_step hi hlives
  · cases hr
    exact setToken_step hi hlives _ (.inr (by omega)) (by omega)

theorem ntClose_step (hi : s.TokInv) (hr : s.ntClose cur h = .ok s') : Step s s' := by
  cases cur with
  | none =>
    cases hr
    exact withWorld_step hi (World.Lives.refl _)
  | some c =>
    obtain ⟨r, h1, h2⟩ := bind_eq_ok.1 hr
    cases h2
    exact withWorld_step hi (World.htClose_lives h1)

theorem childIntegrity_le (s : TokenSys) (parent : Option Nat) : s.childIntegrity parent ≤ 1 := by
  unfold childIntegrity
  split
  · exact le_rfl
  · split_ifs <;> omega

theorem childIntegrity_le_parent (hq : s.Integrity q i) : s.childIntegrity (some q) ≤ i := by
  obtain ⟨-, t, ht, rfl⟩ := hq
  simp only [childIntegrity, Option.bind_some, ht]
  split_ifs <;> omega

theorem adopt_integrity (parent : Option Nat) (ht : (w.obj p).token = some t) :
    (s.adopt parent p w).integrity = update s.integrity t (s.childIntegrity parent) := by
  simp only [adopt, ht]
  rfl

theorem pspCreateProcess_step (hi : s.TokInv) {parent : Option Nat} {name : Name}
    {tokenHeap listed : Bool} (hok : TokenOk s (.createProcess parent name heap tokenHeap listed))
    (hr : s.pspCreateProcess parent name heap tokenHeap listed = .ok s') : Step s s' := by
  obtain ⟨⟨r, w⟩, h1, h2⟩ := bind_eq_ok.1 hr
  obtain ⟨hlives, hnew⟩ := World.pspCreateProcess_lives h1
  cases r with
  | none =>
    cases h2
    exact ⟨⟨hlives, fun _ _ => le_rfl⟩, hi.le, fun _ _ hq => .inl hq⟩
  | some p =>
    obtain ⟨rfl, hn, htok⟩ := hnew p rfl
    obtain ⟨hdown, hle, -⟩ := setToken_step hi hlives (t := s.world.nobj + 1)
      (i := s.childIntegrity parent) s.nextPid (.inl (Nat.le_succ _)) (s.childIntegrity_le parent)
    obtain rfl := ok.inj h2
    have hint := adopt_integrity (s := s) parent htok
    refine ⟨⟨hlives, ?_⟩, ?_, fun r q hq => ?_⟩
    · exact hint ▸ hdown.integrity
    · exact hint ▸ hle
    have hq : update s.creator s.world.nobj parent r = some q := hq
    by_cases he : r = s.world.nobj
    · subst he
      rw [update_self] at hq
      subst hq
      have hlt : s.world.nobj < w.nobj := hn ▸ Nat.lt_add_of_pos_right Nat.two_pos
      refine .inr ⟨rfl, hlt, hok, fun i j hi hj => ?_⟩
      obtain ⟨-, t, ht, rfl⟩ := hj
      obtain rfl : t = s.world.nobj + 1 := Option.some.inj (ht.symm.trans htok)
      show (s.adopt (some q) s.world.nobj w).integrity (s.world.nobj + 1) ≤ i
      rw [hint, update_self]
      exact childIntegrity_le_parent hi
    · rw [update_of_ne he] at hq
      exact .inl hq

theorem tokenStep_step {a : TokenOp} (hi : s.TokInv) (hok : TokenOk s a)
    (h : tokenStep s a = some s') : Step s s' := by
  cases a with
  | createProcess parent name heap tokenHeap listed =>
    exact pspCreateProcess_step hi hok (get?_eq_some.1 h)
  | ntOpenProcessToken cur proc access =>
    obtain ⟨r, hr, rfl⟩ := Option.map_eq_some_iff.1 h
    exact withWorld_step hi (World.ntOpenProcessToken_lives (get?_eq_some.1 hr))
  | ntDuplicateToken cur src access heap =>
    obtain ⟨r, hr, rfl⟩ := Option.map_eq_some_iff.1 h
    exact ntDuplicateToken_step hi (get?_eq_some.1 hr)
  | ntSetInformationToken cur h' integrity =>
    obtain ⟨r, hr, rfl⟩ := Option.map_eq_some_iff.1 h
    exact ntSetInformationToken_step hi (get?_eq_some.1 hr)
  | ntClose cur h' => exact ntClose_step hi (get?_eq_some.1 h)

/-! ## Runs -/

theorem schedInit_token : schedInit.get?.map (fun s => decide (∀ p < s.world.nobj, s.Proc p →
    ∃ t < s.world.nobj, (s.world.obj p).token = some t)) = some true := by
  decide +kernel

theorem schedInit_inv (h : schedInit = .ok s) : s.TokInv := by
  have htok := schedInit_token
  rw [h] at htok
  have htok := of_decide_eq_true (Option.some.inj htok)
  obtain ⟨w, -, h1⟩ := bind_eq_ok.1 h
  obtain ⟨⟨c, w'⟩, -, h2⟩ := bind_eq_ok.1 h1
  cases c with
  | none => cases h2
  | some t =>
    cases h2
    refine ⟨fun p hp => htok p hp.1 hp, fun u => ?_, fun r q hq => by cases hq⟩
    show update (fun _ => 0) t 1 u ≤ 1
    by_cases he : u = t
    · rw [he, update_self]
    · rw [update_of_ne he]
      exact Nat.zero_le 1

theorem run_down {ops : List TokenOp} (hi : s.TokInv) (hl : Run.Legal tokenStep TokenOk s ops)
    (hr : Run.run tokenStep s ops = some s') : s'.TokInv ∧ Down s s' := by
  refine Run.run_keeps (I := fun x => x.TokInv ∧ Down s x) (fun x a x' hx hok hs => ?_)
    ⟨hi, Down.refl s⟩ hl hr
  have hstep := tokenStep_step hx.1 hok hs
  exact ⟨hstep.inv hx.1, hx.2.trans hstep.down⟩

/-- Whoever descends from `p` in the new state did so before, or has just been created. -/
theorem Step.descends (h : Step s s') (hi : s.TokInv) (hd : Descends s' n p q) :
    Descends s n p q ∨ ∃ q0, Descends s n p q0 ∧ s.Proc q0 ∧
      q = s.world.nobj ∧ ∀ i j, s.Integrity q0 i → s'.Integrity q j → j ≤ i := by
  induction hd with
  | self => exact .inl .self
  | child hd hc hn ih =>
    rename_i q r
    obtain hc' | ⟨hr, hr', hq, hle⟩ := h.creator r q hc
    · have hlt := (hi.creator r q hc').2
      obtain ih | ⟨q0, -, -, he, -⟩ := ih
      · exact .inl (.child ih hc' hn)
      · omega
    · obtain ih | ⟨q0, -, -, he, -⟩ := ih
      · exact .inr ⟨q, ih, hq, hr, hle⟩
      · have := hq.1
        omega

/-- The descendants of `p` since there were `n` objects have no integrity. -/
def AllLow (n p : Nat) (s : TokenSys) : Prop :=
  ∀ q, Descends s n p q → ∀ i, s.Integrity q i → i = 0

theorem Step.allLow (h : Step s s') (hi : s.TokInv) (hp : p < s.world.nobj) (hlow : AllLow n p s) :
    AllLow n p s' := by
  intro q hd i hq
  obtain hd0 | ⟨q0, hd0, hproc, rfl, hle⟩ := h.descends hi hd
  · by_cases hlt : q < s.world.nobj
    · obtain ⟨hp0, he⟩ := h.down.proc hq.1 hlt
      obtain ⟨t, ht, htok⟩ := hi.token q hp0
      have h0 := hlow q hd0 _ ⟨hp0, t, htok, rfl⟩
      have := h.down.integrity_le hi ⟨hp0, t, htok, rfl⟩ hq
      omega
    · exfalso
      cases hd0 with
      | self => exact hlt hp
      | child _ hc _ => exact hlt (hi.creator _ _ hc).1
  · obtain ⟨t, ht, htok⟩ := hi.token q0 hproc
    have h0 := hlow q0 hd0 _ ⟨hproc, t, htok, rfl⟩
    have := hle _ _ ⟨hproc, t, htok, rfl⟩ hq
    omega

theorem allLow_start (hi : s.TokInv) (hp : s.Integrity p 0) : AllLow s.world.nobj p s := by
  intro q hd i hq
  cases hd with
  | self =>
    obtain ⟨-, t, ht, h0⟩ := hp
    obtain ⟨-, t', ht', hi'⟩ := hq
    obtain rfl : t' = t := Option.some.inj (ht'.symm.trans ht)
    exact hi'.symm.trans h0
  | child _ hc hn =>
    have := (hi.creator _ _ hc).1
    omega

end TokenSys

/-- From the start on, the integrity of a process is 0 or 1 and never rises; a new process has no
more than its parent; and what descends from a process at 0 is at 0. -/
theorem integrity_only_drops {s₀ s s' : TokenSys} {ops ops' : List TokenOp}
    (h0 : schedInit = .ok s₀) (hl : Run.Legal tokenStep TokenOk s₀ (ops ++ ops'))
    (hr : Run.run tokenStep s₀ ops = some s) (hr' : Run.run tokenStep s ops' = some s') :
    (∀ p i, s.Integrity p i → i ≤ 1) ∧ (∀ p i i', s.Integrity p i → s'.Integrity p i' → i' ≤ i) ∧
    (∀ a s₁ q r i j, TokenOk s a → tokenStep s a = some s₁ → s.world.nobj ≤ r →
      s₁.creator r = some q → s.Integrity q i → s₁.Integrity r j → j ≤ i) ∧
    (∀ p, s.Integrity p 0 → ∀ q, s'.Descends s.world.nobj p q → ∀ i, s'.Integrity q i → i = 0) := by
  obtain ⟨hl1, hl2⟩ := Run.legal_append hl hr
  obtain ⟨hi, -⟩ := TokenSys.run_down (TokenSys.schedInit_inv h0) hl1 hr
  obtain ⟨-, hdown⟩ := TokenSys.run_down hi hl2 hr'
  refine ⟨fun p i hp => ?_, fun p i i' => hdown.integrity_le hi, ?_, fun p hp => ?_⟩
  · obtain ⟨-, t, -, rfl⟩ := hp
    exact hi.le t
  · intro a s₁ q r i j hok hs hn hc hq hr
    obtain hc' | ⟨-, -, -, hle⟩ := (TokenSys.tokenStep_step hi hok hs).creator r q hc
    · have := (hi.creator r q hc').1
      omega
    · exact hle i j hq hr
  · have hlow := Run.run_keeps
      (I := fun x => x.TokInv ∧ s.world.nobj ≤ x.world.nobj ∧ TokenSys.AllLow s.world.nobj p x)
      (fun x a x' hx hok hs => ?_) ⟨hi, le_rfl, TokenSys.allLow_start hi hp⟩ hl2 hr'
    · exact hlow.2.2
    · have hstep := TokenSys.tokenStep_step hx.1 hok hs
      exact ⟨hstep.inv hx.1, hx.2.1.trans hstep.down.lives.nobj,
        hstep.allLow hx.1 (hp.1.1.trans_le hx.2.1) hx.2.2⟩

/-- A process drops itself to 0 through a handle to its token, and then creates another. -/
theorem integrity_only_drops_child : ∃ s₀ s s', schedInit = .ok s₀ ∧
    Run.run tokenStep s₀ [.createProcess (some 5) [65] true true true,
      .ntOpenProcessToken (some 7) handleCurrent tokenAllAccess,
      .ntSetInformationToken (some 7) 0x10004#64 0] = some s ∧ s.Integrity 7 0 ∧
    Run.run tokenStep s [.createProcess (some 7) [66] true true true] = some s' ∧
    s'.Descends s.world.nobj 7 9 ∧ s'.Integrity 9 0 := by
  obtain ⟨s₀, h0, hl, s, hs, ⟨h7, ht7, hi7, hn⟩, s', hs', hc, h9, ht9⟩ : ∃ s₀, schedInit = .ok s₀ ∧
      Run.Legal tokenStep TokenOk s₀ ([.createProcess (some 5) [65] true true true,
        .ntOpenProcessToken (some 7) handleCurrent tokenAllAccess,
        .ntSetInformationToken (some 7) 0x10004#64 0] ++
        [.createProcess (some 7) [66] true true true]) ∧
      ∃ s, Run.run tokenStep s₀ [.createProcess (some 5) [65] true true true,
        .ntOpenProcessToken (some 7) handleCurrent tokenAllAccess,
        .ntSetInformationToken (some 7) 0x10004#64 0] = some s ∧
        (s.Proc 7 ∧ (s.world.obj 7).token = some 8 ∧ s.integrity 8 = 0 ∧ s.world.nobj = 9) ∧
        ∃ s', Run.run tokenStep s [.createProcess (some 7) [66] true true true] = some s' ∧
          s'.creator 9 = some 7 ∧ s'.Proc 9 ∧ (s'.world.obj 9).token = some 10 := by
    decide +kernel
  have hlow : s.Integrity 7 0 := ⟨h7, 8, ht7, hi7⟩
  have hd : s'.Descends s.world.nobj 7 9 := .child .self hc hn.le
  refine ⟨s₀, s, s', h0, hs, hlow, hs', hd, h9, 10, ht9, ?_⟩
  exact (integrity_only_drops h0 hl hs hs').2.2.2 7 hlow 9 hd _ ⟨h9, 10, ht9, rfl⟩

end Aegis
