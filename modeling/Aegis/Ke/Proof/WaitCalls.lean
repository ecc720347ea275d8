import Aegis.Ke.Proof.WaitRun

/-!
# Calls that wait

The parts of `ke_wait_object` and `ke_wait_multiple`, and what a thread does when it is switched in
again, keep the invariant of `WaitRun`. None of them gives up a mutex.
-/

namespace Aegis

open Function

namespace Kernel

variable {s s' : Kernel} {t : Nat} {x y : Option Nat}
variable {d : Nat} {waitAll : Bool} {s1 : Kernel} {objs : List Nat} {P : Nat → Prop}
  {f : Thread → Thread}

/-! ## Taking an object -/

theorem tryWait_inv (h : Inv none none s) (hd : d < s.ndisp) (ht : t < s.nthread)
    (hst : (s.thread t).state ≠ .terminated) : Inv none none (s.tryWait t d).2 := by
  unfold tryWait
  split
  · next hty =>
    have hok := h.mutex d hd hty (by simp)
    split
    · next ho =>
      rw [Inv, modDisp_waitView]
      refine h.setDisp rfl (fun b hb => h.holds d b hb) fun _ _ => ?_
      rcases hok with ⟨h1, -⟩ | ⟨u, h1, h2, h3, h4, h5, h6, h7⟩
      · rw [show (s.disp d).owner = none from h1] at ho
        cases ho
      · refine .inr ⟨u, ?_, h2, h3, ?_, ?_, h6, h7⟩
        · simpa [WaitView.setDisp, waitView] using h1
        · simp [WaitView.setDisp]
        · simpa [WaitView.setDisp, waitView] using h5
    · split
      · next hs =>
        -- only a free mutex is signaled
        obtain ⟨h2, hno⟩ : (s.disp d).signalState = 1 ∧ ∀ u, d ∉ (s.waitView.thread u).owned := by
          rcases hok with ⟨-, -, h3, h4⟩ | ⟨u, -, -, -, -, h5, -⟩
          · exact ⟨h3, h4⟩
          · rw [show (s.disp d).signalState = 0 from h5] at hs
            exact absurd hs (by decide)
        unfold keMutexOwn
        rw [Inv, modThread_waitView]
        have h₁ : WaitInv (some d) none ((s.modDisp d fun x =>
            { x with signalState := x.signalState - 1, owner := some t, recursion := 1,
                     abandoned := false }).keMutexDisown d).waitView := by
          rw [keMutexDisown_waitView, modDisp_waitView]
          refine WaitInv.disown ((h.enter hno).setDisp ?_ ?_ ?_) (.inr rfl)
          · rfl
          · exact fun b hb => h.holds d b hb
          · exact fun _ hne => absurd rfl hne
        refine h₁.own hd ?_ ?_ ?_ ?_ ht hst <;>
          simp [waitView, keMutexDisown, modDisp, hty, h2]
      · rw [Inv, mutexDonate_same]
        exact h
  · next hty =>
    split
    · simp only
      split
      · exact modDisp_inv h hty rfl rfl
      · exact h
    · exact h

theorem tryWait_kept (s : Kernel) (t d : Nat)
    (hfree : (s.disp d).type = .mutant → 0 < (s.disp d).signalState → (s.disp d).owner = none) :
    Kept P s (s.tryWait t d).2 := by
  unfold tryWait
  split
  · next hty =>
    split
    · have h1 : Kept P s (s.modDisp d fun x => { x with recursion := x.recursion + 1 }) :=
        .modDisp s d rfl (.inr fun u hu => ⟨hu, Nat.le_succ _⟩)
      exact h1
    · split
      · next hs =>
        have h1 : Kept P s (s.modDisp d fun x =>
            { x with signalState := x.signalState - 1, owner := some t, recursion := 1,
                     abandoned := false }) :=
          .modDisp s d rfl (.inr fun u hu => by rw [hfree hty hs] at hu; cases hu)
        exact h1.trans (.of_disp rfl rfl rfl rfl)
      · exact .of_view (mutexDonate_same s d t)
  · split
    · simp only
      split
      · exact modSignal_kept s d fun _ => 0
      · exact .refl s
    · exact .refl s

theorem Inv.free (h : Inv none y s) (hd : d < s.ndisp) (hty : (s.disp d).type = .mutant)
    (hs : 0 < (s.disp d).signalState) : (s.disp d).owner = none := by
  rcases h.mutex d hd hty (by simp) with ⟨h1, -⟩ | ⟨u, -, -, -, -, h5, -⟩
  · exact h1
  · rw [show (s.disp d).signalState = 0 from h5] at hs
    exact absurd hs (by decide)

/-! ## Waiting -/

theorem Inv.noBlocks (h : Inv x none s) (hw : (s.thread t).cont ≠ .waitObject)
    (hm : ∀ objs waitAll, (s.thread t).cont ≠ .waitMultiple objs waitAll) :
    s.waitView.NoBlocks t := by
  rintro d ⟨u, b⟩ hb hu
  simp only at hu
  subst hu
  have hh := h.holds d _ hb (by simp)
  cases b with
  | single => exact hw hh.2.1
  | multi i =>
    obtain ⟨-, -, -, -, objs, waitAll, hc, -⟩ := hh
    exact hm objs waitAll hc

theorem Inv.noBlocks_code (h : Inv x none s) (hc : (s.thread t).cont = .code) :
    s.waitView.NoBlocks t :=
  h.noBlocks (by simp [hc]) (by simp [hc])

theorem startWait_waitView (s : Kernel) (hc : s.current = some t) (hcode : (s.thread t).cont = .code)
    (timeout : Nat) (k : Cont) :
    ((s.startWait t timeout).suspend k).waitView =
      s.waitView.setThread t { (s.thread t).waits with state := .waiting, cont := k } := by
  have hs : (s.startWait t timeout).suspend k = (s.startWait t timeout).modThread t fun th =>
      { th with cont := if th.cont = .code then k else th.cont } := by
    simp [suspend, show (s.startWait t timeout).current = some t from hc]
  rw [hs, modThread_waitView, startWait, modThread_waitView]
  simp [WaitView.setThread, modThread, Thread.waits, hcode]

theorem startWait_inv (h : Inv x (some t) s) (hc : s.current = some t)
    (hcode : (s.thread t).cont = .code) (hlt : t < s.nthread) (timeout : Nat) {k : Cont}
    (hb : ∀ d b, (t, b) ∈ (s.disp d).waitList →
      { (s.thread t).waits with state := .waiting, cont := k : ThreadWaits }.Holds b)
    (hcount : (∀ objs waitAll, k ≠ .waitMultiple objs waitAll) → (s.thread t).waitMultiCount = 0)
    (hk : s.waitView.Names k) : Inv x none ((s.startWait t timeout).suspend k) := by
  rw [Inv, startWait_waitView s hc hcode]
  refine WaitInv.settle (t := t) (h.setThread (fun _ _ _ hne => absurd rfl hne)
    (fun hne => absurd rfl hne) rfl (fun _ => ⟨rfl, rfl⟩) (fun hs => by cases hs)
    (fun hle => absurd hlt (Nat.not_lt.2 hle)) hk) (fun d b hm => ?_) fun hk => ?_
  · simpa [WaitView.setThread] using hb d b hm
  · simp only [WaitView.setThread, update_self] at hk ⊢
    exact hcount hk

theorem modThread_exempt (h : Inv x (some t) s)
    (ho : (f (s.thread t)).ownedMutexes = (s.thread t).ownedMutexes)
    (hd : (f (s.thread t)).disp = (s.thread t).disp)
    (hp : (f (s.thread t)).process = (s.thread t).process)
    (hterm : (f (s.thread t)).state ≠ .terminated) (hlt : t < s.nthread)
    (hk : (f (s.thread t)).cont = (s.thread t).cont ∨ (f (s.thread t)).cont = .code) :
    Inv x (some t) (s.modThread t f) := by
  rw [Inv, modThread_waitView]
  refine h.setThread (fun _ _ _ hne => absurd rfl hne) (fun hne => absurd rfl hne) ho
    (fun _ => ⟨hd, hp⟩) (fun hs => absurd hs hterm) (fun hle => absurd hlt (Nat.not_lt.2 hle)) ?_
  rcases hk with hk | hk
  · rw [show (f (s.thread t)).waits.cont = _ from hk]
    exact h.names t
  · rw [show (f (s.thread t)).waits.cont = _ from hk]
    intro _ _ he
    cases he

theorem linkBlock_exempt (h : Inv x (some t) s) (d : Nat) (hd : d < s.ndisp) (b : BlockId) :
    Inv x (some t) (s.linkBlock d (t, b)) := by
  rw [Inv, linkBlock, modDisp_waitView]
  refine h.setDisp_same rfl (fun c hc => ?_) hd fun _ => ⟨rfl, rfl, rfl⟩
  rcases List.mem_append.1 hc with hc | hc
  · exact h.holds d c hc
  · rw [List.mem_singleton] at hc
    subst hc
    exact fun hne => absurd rfl hne

theorem mem_linkBlock {e : Nat} {b c : Nat × BlockId}
    (h : c ∈ ((s.linkBlock d b).disp e).waitList) : c ∈ (s.disp e).waitList ∨ c = b := by
  by_cases he : e = d
  · subst he
    simpa [linkBlock, modDisp] using h
  · left
    simpa [linkBlock, modDisp, he] using h

theorem linkBlock_kept (s : Kernel) (d : Nat) (b : Nat × BlockId) : Kept P s (s.linkBlock d b) :=
  .modDisp s d rfl (.inr fun _ ho => ⟨ho, le_rfl⟩)

theorem enqueue_inv (h : Inv none none s) (hd : d < s.ndisp) (hc : s.current = some t)
    (hcode : (s.thread t).cont = .code) (hlt : t < s.nthread)
    (hst : (s.thread t).state ≠ .terminated) (timeout : Nat) :
    Inv none none ((s.enqueue t d timeout).suspend .waitObject) := by
  have hno := h.noBlocks_code hcode
  have hcount : (s.thread t).waitMultiCount = 0 := h.count t (by simp) (by simp [waitView,
    Thread.waits, hcode])
  have h1 : Inv none (some t) (s.modThread t fun th => { th with wait := ⟨some d, statusTimeout⟩ }) :=
    modThread_exempt (h.exempt t) rfl rfl rfl hst hlt (.inl rfl)
  have h2 := linkBlock_exempt h1 d hd .single
  refine startWait_inv h2 hc ?_ hlt timeout (fun e b hb => ?_) (fun _ => ?_) (fun _ _ he => by cases he)
  · simpa [modThread, linkBlock, modDisp] using hcode
  · have hbs : b = .single := by
      rcases mem_linkBlock hb with hb | hb
      · exact absurd rfl (hno e _ hb)
      · cases hb
        rfl
    subst hbs
    simp [ThreadWaits.Holds, Thread.waits, modThread, linkBlock, modDisp, hcount]
  · simpa [modThread, linkBlock, modDisp] using hcount

theorem enqueue_core (h : ReadyCore s.schedView) (hrun : (s.thread t).state = .running)
    (hi : t ≠ s.idle) (d timeout : Nat) :
    ReadyCore ((s.enqueue t d timeout).suspend .waitObject).schedView := by
  have hlink : ((s.modThread t fun th => { th with wait := ⟨some d, statusTimeout⟩ }).linkBlock d
      (t, .single)).schedView = s.schedView :=
    (linkBlock_view _ _ _).trans (modThread_view _ _ rfl rfl rfl)
  refine startWait_core ?_ ((congrFun (congrArg SchedView.state hlink) t).trans hrun) hi timeout
    .waitObject
  rw [hlink]
  exact h

theorem tryWait_none (hr : (s.tryWait t d).1 = none) : (s.tryWait t d).2.waitView = s.waitView := by
  unfold tryWait at hr ⊢
  split at hr
  · next hty =>
    rw [if_pos hty]
    split at hr
    · cases hr
    · next ho =>
      rw [if_neg ho]
      split at hr
      · cases hr
      · next hs =>
        rw [if_neg hs]
        exact mutexDonate_same s d t
  · next hty =>
    rw [if_neg hty]
    split at hr
    · cases hr
    · next hs => rw [if_neg hs]

theorem tryAny_none (objs : List Nat) (i : Nat) (hr : (tryAny t i objs s).1 = none) :
    (tryAny t i objs s).2.waitView = s.waitView := by
  induction objs generalizing s i with
  | nil => rfl
  | cons d ds ih =>
    unfold tryAny at hr ⊢
    cases hn : (s.tryWait t d).1 with
    | none =>
      simp only [hn] at hr ⊢
      rw [ih (i + 1) hr, tryWait_none hn]
    | some st => simp [hn] at hr

theorem tryWait_none_signal (hr : (s.tryWait t d).1 = none) : ¬ (s.disp d).signalState > 0 := by
  unfold tryWait at hr
  split at hr
  · split at hr
    · cases hr
    · split at hr
      · cases hr
      · next hs => exact hs
  · split at hr
    · cases hr
    · next hs => exact hs

theorem tryAny_none_signal (objs : List Nat) (i : Nat) (hr : (tryAny t i objs s).1 = none) :
    ∀ d ∈ objs, ¬ (s.disp d).signalState > 0 := by
  induction objs generalizing s i with
  | nil => exact fun _ hd => by cases hd
  | cons d ds ih =>
    unfold tryAny at hr
    cases hn : (s.tryWait t d).1 with
    | some st => simp [hn] at hr
    | none =>
      simp only [hn] at hr
      have hrest := ih (i + 1) hr
      rw [show (s.tryWait t d).2.disp = s.disp from congrArg WaitView.disp (tryWait_none hn)] at hrest
      intro e he
      rcases List.mem_cons.1 he with rfl | he
      · exact tryWait_none_signal hn
      · exact hrest e he

/-! ## Waiting for several objects -/

theorem modMulti_waits (th : Thread) (i : Nat) (b : WaitBlock) :
    (th.modBlock (.multi i) fun _ => b).waits =
      { th.waits with multi := update th.waits.multi i b.object } := by
  simp only [Thread.waits, Thread.modBlock]
  congr 1
  funext j
  by_cases hj : j = i <;> simp [hj]

/-- The enqueue loop links the blocks from `i` on, and changes nothing else of the thread. -/
structure Enqueued (s s' : Kernel) (t n : Nat) : Prop where
  inv : Inv none (some t) s'
  kept : Kept (fun _ => False) s s'
  waits : ∃ multi, (s'.thread t).waits = { (s.thread t).waits with multi }
  blocks : ∀ d b, (t, b) ∈ (s'.disp d).waitList →
    ∃ j < n, b = .multi j ∧ ((s'.thread t).waitMulti j).object ≠ none

theorem enqueueMulti_enqueued (waitAll : Bool) (objs : List Nat) (i : Nat)
    (h : Inv none (some t) s) (hd : ∀ d ∈ objs, d < s.ndisp) (hlt : t < s.nthread)
    (hst : (s.thread t).state ≠ .terminated) (hb : ∀ d b, (t, b) ∈ (s.disp d).waitList →
      ∃ j < i, b = .multi j ∧ ((s.thread t).waitMulti j).object ≠ none) :
    Enqueued s (enqueueMulti t waitAll i objs s).2 t
      ((enqueueMulti t waitAll i objs s).1.getD (i + objs.length)) := by
  induction objs generalizing s i with
  | nil => exact ⟨h, .refl s, ⟨_, rfl⟩, by simpa [enqueueMulti] using hb⟩
  | cons d ds ih =>
    obtain ⟨s1, hs1⟩ : ∃ s1, (s.modThread t fun th =>
        th.modBlock (.multi i) fun _ => ⟨some d, statusTimeout⟩) = s1 := ⟨_, rfl⟩
    have hw1 : (s1.thread t).waits =
        { (s.thread t).waits with multi := update (s.thread t).waits.multi i (some d) } := by
      rw [← hs1]
      simp [modThread, modMulti_waits]
    have hmulti1 : ∀ j, ((s1.thread t).waitMulti j).object =
        update (s.thread t).waits.multi i (some d) j :=
      fun j => congrFun (congrArg ThreadWaits.multi hw1) j
    have hst1 : (s1.thread t).state = (s.thread t).state := congrArg ThreadWaits.state hw1
    have h1 : Inv none (some t) s1 := by
      rw [← hs1]
      refine modThread_exempt h rfl rfl rfl ?_ hlt (.inl rfl)
      simpa [Thread.modBlock] using hst
    have hk1 : Kept (fun _ => False) s s1 := by
      rw [← hs1]
      exact .of_disp rfl rfl rfl rfl
    have hdisp1 : s1.disp = s.disp := by
      rw [← hs1]
      rfl
    -- a block that was set before is still set
    have hkeep : ∀ j, ((s.thread t).waitMulti j).object ≠ none →
        ((s1.thread t).waitMulti j).object ≠ none := by
      intro j hj
      rw [hmulti1]
      by_cases hji : j = i
      · simp [hji]
      · rw [update_of_ne hji]
        exact hj
    unfold enqueueMulti
    simp only [hs1]
    split
    · refine ⟨h1, hk1, ⟨_, hw1⟩, fun e b hm => ?_⟩
      rw [hdisp1] at hm
      obtain ⟨j, hj, rfl, hne⟩ := hb e b hm
      exact ⟨j, hj, rfl, hkeep j hne⟩
    · obtain ⟨s2, hs2⟩ : ∃ s2, (if (s1.disp d).type = .mutant then s1.mutexDonate d t else s1) =
          s2 := ⟨_, rfl⟩
      have hv2 : s2.waitView = s1.waitView := by
        rw [← hs2]
        split
        · exact mutexDonate_same s1 d t
        · rfl
      have hw2 : (s2.thread t).waits = (s1.thread t).waits :=
        congrFun (congrArg WaitView.thread hv2) t
      have hd2 : d < s2.ndisp := by
        rw [show s2.ndisp = s1.ndisp from congrArg WaitView.ndisp hv2, hk1.ndisp]
        exact hd d List.mem_cons_self
      have h3 := linkBlock_exempt (by rw [Inv, hv2]; exact h1 : Inv none (some t) s2) d hd2 (.multi i)
      have hk3 : Kept (fun _ => False) s (s2.linkBlock d (t, .multi i)) :=
        (hk1.trans (.of_view hv2)).trans (linkBlock_kept _ _ _)
      rw [hs2]
      have hE := ih (i + 1) h3 (fun e he => by
          rw [hk3.ndisp]
          exact hd e (List.mem_cons_of_mem d he)) (hlt.trans_eq hk3.nthread.symm)
        (by
          rw [show ((s2.linkBlock d (t, .multi i)).thread t).state = (s2.thread t).state from rfl,
            show (s2.thread t).state = (s1.thread t).state from congrArg ThreadWaits.state hw2, hst1]
          exact hst)
        (fun e b hm => by
          have hobj : ∀ j, (((s2.linkBlock d (t, .multi i)).thread t).waitMulti j).object =
              ((s1.thread t).waitMulti j).object := fun j =>
            congrFun (congrArg ThreadWaits.multi hw2) j
          rcases mem_linkBlock hm with hm | hm
          · rw [show s2.disp = s.disp from (congrArg WaitView.disp hv2).trans hdisp1] at hm
            obtain ⟨j, hj, rfl, hne⟩ := hb e b hm
            exact ⟨j, by omega, rfl, by rw [hobj]; exact hkeep j hne⟩
          · cases hm
            exact ⟨i, by omega, rfl, by rw [hobj, hmulti1]; simp⟩)
      obtain ⟨multi, hmw⟩ := hE.waits
      refine ⟨hE.inv, hk3.trans hE.kept, ⟨multi, ?_⟩, fun e b hm => ?_⟩
      · rw [hmw, show ((s2.linkBlock d (t, .multi i)).thread t).waits = (s2.thread t).waits from rfl,
          hw2, hw1]
      · obtain ⟨j, hj, hrest⟩ := hE.blocks e b hm
        refine ⟨j, ?_, hrest⟩
        rw [List.length_cons]
        rwa [show i + (ds.length + 1) = i + 1 + ds.length by omega]

theorem unlinkBlocks_succ (t n : Nat) (s : Kernel) :
    unlinkBlocks t (n + 1) s = (unlinkBlocks t n s).unlinkBlock (t, .multi n) := by
  simp [unlinkBlocks, List.range_succ]

theorem unlinkBlocks_fewer (t n : Nat) (s : Kernel) : Fewer s (unlinkBlocks t n s) := by
  induction n with
  | zero => exact fun _ _ hb => hb
  | succ n ih =>
    rw [unlinkBlocks_succ]
    exact ih.trans (unlinkBlock_fewer _ _)

theorem unlinkBlocks_spec (t n : Nat) (h : Inv x y s) :
    Inv x y (unlinkBlocks t n s) ∧
      ∀ j < n, ∀ d, (t, BlockId.multi j) ∉ ((unlinkBlocks t n s).disp d).waitList := by
  induction n with
  | zero => exact ⟨h, fun _ hj => absurd hj (Nat.not_lt_zero _)⟩
  | succ n ih =>
    obtain ⟨h1, hno⟩ := ih
    rw [unlinkBlocks_succ]
    refine ⟨unlinkBlock_inv h1 _, fun j hj d hm => ?_⟩
    by_cases hjn : j = n
    · subst hjn
      exact notMem_unlinkBlock _ _ d hm
    · exact hno j (by omega) d (unlinkBlock_fewer _ _ d _ hm)

theorem unlinkBlocks_thread (t n : Nat) (s : Kernel) :
    (unlinkBlocks t n s).thread = s.thread ∧ Kept (fun _ => False) s (unlinkBlocks t n s) := by
  induction n with
  | zero => exact ⟨rfl, .refl s⟩
  | succ n ih =>
    rw [unlinkBlocks_succ]
    exact ⟨ih.1, ih.2.trans (.unlinkBlock _ _)⟩

theorem enqueueMulti_none (waitAll : Bool) (objs : List Nat) (i : Nat)
    (hs : waitAll = true ∨ ∀ d ∈ objs, ¬ (s.disp d).signalState > 0) :
    (enqueueMulti t waitAll i objs s).1 = none := by
  induction objs generalizing s i with
  | nil => rfl
  | cons d ds ih =>
    obtain ⟨s1, hs1⟩ : ∃ s1, (s.modThread t fun th =>
        th.modBlock (.multi i) fun _ => ⟨some d, statusTimeout⟩) = s1 := ⟨_, rfl⟩
    have hd1 : s1.disp = s.disp := by
      rw [← hs1]
      rfl
    have hstep : ¬ (waitAll = false ∧ (s1.disp d).signalState > 0) := by
      intro hc
      rw [hd1] at hc
      rcases hs with hs | hs
      · simp [hs] at hc
      · exact hs d List.mem_cons_self hc.2
    rw [enqueueMulti]
    simp only [hs1]
    rw [if_neg hstep]
    apply ih
    refine hs.imp_right fun hs e he => ?_
    have hdon : ∀ s1 : Kernel, (if (s1.disp d).type = .mutant then s1.mutexDonate d t else s1).disp =
        s1.disp := by
      intro s1
      split
      · exact congrArg WaitView.disp (mutexDonate_same s1 d t)
      · rfl
    have hsig : ∀ s1 : Kernel, ∀ b, ((s1.linkBlock d b).disp e).signalState =
        (s1.disp e).signalState := by
      intro s1 b
      by_cases hed : e = d <;> simp [linkBlock, modDisp, hed]
    rw [hsig, hdon, hd1]
    exact hs e (List.mem_cons_of_mem d he)

theorem settle_noBlocks (h : Inv x (some t) s) (hno : s.waitView.NoBlocks t)
    (ho : (f (s.thread t)).ownedMutexes = (s.thread t).ownedMutexes)
    (hd : (f (s.thread t)).disp = (s.thread t).disp)
    (hp : (f (s.thread t)).process = (s.thread t).process)
    (hterm : (f (s.thread t)).state ≠ .terminated) (hlt : t < s.nthread)
    (hk : (f (s.thread t)).cont = (s.thread t).cont ∨ (f (s.thread t)).cont = .code)
    (hcount : (f (s.thread t)).waitMultiCount = 0) : Inv x none (s.modThread t f) := by
  refine WaitInv.settle (modThread_exempt h ho hd hp hterm hlt hk)
    (fun d b hb => absurd rfl (hno d _ hb)) fun _ => ?_
  simpa [waitView, Thread.waits, modThread] using hcount

/-- What `ke_wait_multiple` has done when it calls `sched_reschedule`. -/
def queueMulti (s : Kernel) (t : Nat) (objs : List Nat) (waitAll : Bool) (timeout : Nat) : Kernel :=
  ((enqueueMulti t waitAll 0 objs (s.modThread t fun th =>
    { th with waitMultiCount := objs.length, waitAll, wait := ⟨objs.head?, statusTimeout⟩ })).2
      |>.startWait t timeout).suspend (.waitMultiple objs waitAll)

theorem waitSlow_eq (timeout : Nat)
    (hs : waitAll = true ∨ ∀ d ∈ objs, ¬ (s.disp d).signalState > 0) :
    s.waitSlow t objs waitAll timeout =
      (none, (s.queueMulti t objs waitAll timeout).schedReschedule) := by
  unfold waitSlow queueMulti
  simp only
  rw [enqueueMulti_none waitAll objs 0 (by exact hs)]

theorem queueMulti_spec (h : Inv none none s) (hcore : ReadyCore s.schedView)
    (hc : s.current = some t) (hrun : (s.thread t).state = .running) (hi : t ≠ s.idle)
    (hcode : (s.thread t).cont = .code) (hd : ∀ d ∈ objs, d < s.ndisp)
    (hs : waitAll = true ∨ ∀ d ∈ objs, ¬ (s.disp d).signalState > 0) (timeout : Nat) :
    Inv none none (s.queueMulti t objs waitAll timeout) ∧
      Kept (fun _ => False) s (s.queueMulti t objs waitAll timeout) ∧
      ReadyCore (s.queueMulti t objs waitAll timeout).schedView := by
  have hlt : t < s.nthread := hcore.lt_of_state (t := t) (by simp [schedView, hrun])
  have hno := h.noBlocks_code hcode
  unfold queueMulti
  obtain ⟨s0, hs0⟩ : ∃ s0, (s.modThread t fun th => { th with
      waitMultiCount := objs.length, waitAll, wait := ⟨objs.head?, statusTimeout⟩ }) = s0 := ⟨_, rfl⟩
  rw [hs0]
  have h0 : Inv none (some t) s0 := by
    rw [← hs0]
    exact modThread_exempt (h.exempt t) rfl rfl rfl (by simp [hrun]) hlt (.inl rfl)
  have hk0 : Kept (fun _ => False) s s0 := by
    rw [← hs0]
    exact .of_disp rfl rfl rfl rfl
  have hv0 : s0.schedView = s.schedView := by
    rw [← hs0]
    exact modThread_view _ _ rfl rfl rfl
  have hw0 : (s0.thread t).waits =
      { (s.thread t).waits with multiCount := objs.length, object := objs.head? } := by
    rw [← hs0]
    simp [modThread, Thread.waits]
  have hdisp0 : s0.disp = s.disp := by
    rw [← hs0]
    rfl
  have hst0 : (s0.thread t).state = .running := (congrArg ThreadWaits.state hw0).trans hrun
  have hE := enqueueMulti_enqueued waitAll objs 0 h0
    (fun d hm => (hd d hm).trans_eq hk0.ndisp.symm) (hlt.trans_eq hk0.nthread.symm)
    (by simp [hst0]) (fun d b hb => absurd rfl (hno d (t, b) (by rwa [hdisp0] at hb)))
  rw [enqueueMulti_none waitAll objs 0 (by rwa [hdisp0]), Option.getD_none, zero_add] at hE
  have hW := enqueueMulti_woken t waitAll objs 0 (s := s0) (by rw [hv0]; exact hcore)
  generalize enqueueMulti t waitAll 0 objs s0 = r at hE hW ⊢
  obtain ⟨multi, hw⟩ := hE.waits
  have hcode1 : (r.2.thread t).cont = .code :=
    (congrArg ThreadWaits.cont hw).trans ((congrArg ThreadWaits.cont hw0).trans hcode)
  have hcount1 : (r.2.thread t).waitMultiCount = objs.length :=
    (congrArg ThreadWaits.multiCount hw).trans (congrArg ThreadWaits.multiCount hw0)
  have hlt1 : t < r.2.nthread := (hlt.trans_eq hk0.nthread.symm).trans_eq hE.kept.nthread.symm
  refine ⟨startWait_inv hE.inv ((hW.current.trans (congrArg SchedView.current hv0)).trans hc) hcode1
    hlt1 timeout (fun d b hb => ?_) (fun hne => absurd rfl (hne objs waitAll))
    fun _ _ he d hm => ?_, (hk0.trans hE.kept).trans ?_, startWait_core hW.core
      ((congrArg ThreadWaits.state hw).trans hst0) (fun he => hi ?_) timeout _⟩
  · obtain ⟨j, hj, rfl, hobj⟩ := hE.blocks d b hb
    exact ⟨by simp, by simp, hj.trans_eq hcount1.symm, hobj, objs, waitAll, rfl, hj⟩
  · cases he
    exact (hd d hm).trans_eq (hE.kept.ndisp.trans hk0.ndisp).symm
  · unfold suspend
    split
    · exact .of_disp rfl rfl rfl rfl
    · exact .of_disp rfl rfl rfl rfl
  · exact (he.trans hW.idle).trans (congrArg SchedView.idle hv0)

/-! ## Going on -/

theorem Inv.blocks_of_running (h : Inv none none s) (hrun : (s.thread t).state = .running)
    (hcont : (s.thread t).cont = .waitMultiple objs waitAll) :
    ∀ d b, (t, b) ∈ (s.disp d).waitList → ∃ j < objs.length, b = .multi j := by
  intro d b hb
  have hh := h.holds d _ hb (by simp)
  cases b with
  | single =>
    have hw : (s.thread t).state = .waiting := hh.1
    rw [hrun] at hw
    cases hw
  | multi j =>
    obtain ⟨-, -, -, -, objs', waitAll', hcont', hj⟩ := hh
    rw [show (s.waitView.thread t).cont = _ from hcont] at hcont'
    cases hcont'
    exact ⟨j, hj, rfl⟩

theorem goOn_inv (h : Inv none none s) (hlt : t < s.nthread)
    (hrun : (s.thread t).state = .running)
    (hne : ∀ objs waitAll, (s.thread t).cont ≠ .waitMultiple objs waitAll) :
    Inv none none (s.modThread t fun th => { th with cont := .code }) := by
  refine settle_noBlocks (h.exempt t) (fun d b hb hu => ?_) rfl rfl rfl (by simp [hrun]) hlt
    (.inr rfl) (h.count t (by simp) hne)
  obtain ⟨u, b⟩ := b
  simp only at hu
  subst hu
  have hh := h.holds d _ hb (by simp)
  cases b with
  | single =>
    have hw : (s.thread u).state = .waiting := hh.1
    rw [hrun] at hw
    cases hw
  | multi j =>
    obtain ⟨-, -, -, -, objs, waitAll, hcont, -⟩ := hh
    exact hne objs waitAll hcont

/-- The thread is back from the `sched_reschedule` of `ke_wait_multiple`, and has taken its blocks
off. -/
def multiDone (s : Kernel) (t : Nat) (objs : List Nat) : Kernel :=
  (unlinkBlocks t objs.length (s.modThread t fun th => { th with cont := .code })).modThread t
    (·.endWait objs.length)

theorem multiDone_thread (s : Kernel) (t : Nat) (objs : List Nat) :
    (s.multiDone t objs).thread t = { s.thread t with cont := .code }.endWait objs.length := by
  simp [multiDone, modThread, (unlinkBlocks_thread t objs.length _).1]

theorem finishMultiple_eq (s : Kernel) (t : Nat) (objs : List Nat) (waitAll : Bool) :
    (s.modThread t fun th => { th with cont := .code }).finishMultiple t objs waitAll =
      if (s.thread t).wait.wakeStatus = statusTimeout then (statusTimeout, s.multiDone t objs)
      else if waitAll then (statusSuccess, takeAll t objs (s.multiDone t objs))
      else (whichWoken (s.thread t) objs.length, s.multiDone t objs) := by
  have hwhich : ∀ n, whichWoken ((s.modThread t fun th => { th with cont := .code }).thread t) n =
      whichWoken (s.thread t) n := by
    intro n
    induction n with
    | zero => rfl
    | succ n ih =>
      unfold whichWoken
      rw [ih]
      simp [modThread]
  have hdone : ((s.multiDone t objs).thread t).wait.wakeStatus = (s.thread t).wait.wakeStatus := by
    rw [multiDone_thread]
    rfl
  unfold finishMultiple
  simp only [hwhich]
  unfold multiDone at hdone ⊢
  simp only [hdone]

theorem multiDone_spec (h : Inv none none s) (hlt : t < s.nthread)
    (hrun : (s.thread t).state = .running)
    (hcont : (s.thread t).cont = .waitMultiple objs waitAll) :
    Inv none none (s.multiDone t objs) ∧ Kept (fun _ => False) s (s.multiDone t objs) := by
  obtain ⟨s1, hs1⟩ : ∃ s1, (s.modThread t fun th => { th with cont := .code }) = s1 := ⟨_, rfl⟩
  have h1 : Inv none (some t) s1 := by
    rw [← hs1]
    exact modThread_exempt (h.exempt t) rfl rfl rfl (by simp [hrun]) hlt (.inr rfl)
  have hrun1 : (s1.thread t).state = .running := by
    rw [← hs1]
    simpa [modThread] using hrun
  have hb : ∀ d b, (t, b) ∈ (s1.disp d).waitList → ∃ j < objs.length, b = .multi j := by
    rw [← hs1]
    exact h.blocks_of_running hrun hcont
  have hk1 : Kept (fun _ => False) s s1 := by
    rw [← hs1]
    exact .of_disp rfl rfl rfl rfl
  unfold multiDone
  rw [hs1]
  obtain ⟨h2, hgone⟩ := unlinkBlocks_spec t objs.length h1
  obtain ⟨hth, hk2⟩ := unlinkBlocks_thread t objs.length s1
  have hk := hk1.trans hk2
  refine ⟨settle_noBlocks h2 ?_ rfl rfl rfl (by rw [hth]; simp [Thread.endWait, hrun1])
    (hlt.trans_eq hk.nthread.symm) (.inl rfl) rfl, hk.trans (.of_disp rfl rfl rfl rfl)⟩
  rintro d ⟨u, b⟩ hm hu
  simp only at hu
  subst hu
  obtain ⟨j, hj, rfl⟩ := hb d b (unlinkBlocks_fewer _ objs.length s1 d _ hm)
  exact hgone j hj d hm

/-! ## Timeouts and switches -/

/-- A step that gives up no mutex. -/
structure Quiet (s s' : Kernel) : Prop where
  inv : Inv none none s'
  kept : Kept (fun _ => False) s s'

theorem Quiet.refl (h : Inv none none s) : Quiet s s := ⟨h, .refl s⟩

theorem Quiet.trans {s2 s3 : Kernel} (h1 : Quiet s1 s2) (h2 : Quiet s2 s3) : Quiet s1 s3 :=
  ⟨h2.inv, h1.kept.trans h2.kept⟩

theorem Quiet.of_view (h : Inv none none s) (he : s'.waitView = s.waitView) : Quiet s s' :=
  ⟨by rw [Inv, he]; exact h, .of_view he⟩

theorem schedReady_quiet (h : Inv none none s) (ht : t < s.nthread)
    (hno : ∀ d, (t, BlockId.single) ∉ (s.disp d).waitList) : Quiet s (s.schedReady t) :=
  ⟨schedReady_inv h ht hno, schedReady_kept s t⟩

theorem unlink_foldl_spec (t n : Nat) (h : Inv none none s) (hs : (List.range n).foldl (fun s k =>
      match ((s.thread t).waitMulti k).object with
      | none => s
      | some _ => s.unlinkBlock (t, .multi k)) s = s1) :
    Quiet s s1 ∧ s1.thread = s.thread ∧ Fewer s s1 ∧
      ∀ j < n, ((s.thread t).waitMulti j).object ≠ none →
        ∀ d, (t, BlockId.multi j) ∉ (s1.disp d).waitList := by
  induction n generalizing s1 with
  | zero =>
    subst hs
    exact ⟨.refl h, rfl, fun _ _ hb => hb, fun _ hj => absurd hj (Nat.not_lt_zero _)⟩
  | succ n ih =>
    obtain ⟨h1, hth, hf, hno⟩ := ih rfl
    rw [List.range_succ, List.foldl_concat] at hs
    rw [hth] at hs
    split at hs
    · next hnone =>
      subst hs
      refine ⟨h1, hth, hf, fun j hj hobj => ?_⟩
      by_cases hjn : j = n
      · subst hjn
        exact absurd hnone hobj
      · exact hno j (by omega) hobj
    · subst hs
      refine ⟨h1.trans ⟨unlinkBlock_inv h1.inv _, .unlinkBlock _ _⟩, hth,
        hf.trans (unlinkBlock_fewer _ _), fun j hj hobj d hm => ?_⟩
      by_cases hjn : j = n
      · subst hjn
        exact notMem_unlinkBlock _ _ d hm
      · exact hno j (by omega) hobj d (unlinkBlock_fewer _ _ d _ hm)

theorem expired_quiet (h1 : Quiet s s1) (hth : s1.thread = s.thread) (hlt : t < s.nthread)
    (hw : (s.thread t).state = .waiting) (hno : s1.waitView.NoBlocks t) :
    Quiet s { (s1.modThread t fun th =>
      { th with
        wait := { th.wait with wakeStatus := statusTimeout }
        waitTimed := false
        waitMultiCount := 0 }).schedReady t with needResched := true } := by
  have hlt1 : t < s1.nthread := hlt.trans_eq h1.kept.nthread.symm
  have h2 : Quiet s1 (s1.modThread t fun th =>
      { th with
        wait := { th.wait with wakeStatus := statusTimeout }
        waitTimed := false
        waitMultiCount := 0 }) :=
    ⟨settle_noBlocks (h1.inv.exempt t) hno rfl rfl rfl (by rw [hth]; simp [hw]) hlt1 (.inl rfl) rfl,
      .of_disp rfl rfl rfl rfl⟩
  have h3 := (h1.trans h2).trans (schedReady_quiet h2.inv hlt1 fun d hb => hno d _ hb rfl)
  exact h3.trans (.of_view h3.inv rfl)

theorem expireMulti_quiet (h : Inv none none s) (hlt : t < s.nthread)
    (hw : (s.thread t).state = .waiting) (hn : (s.thread t).waitMultiCount ≠ 0) :
    Quiet s (s.expireMulti t) := by
  obtain ⟨h1, hth, hf, hgone⟩ := unlink_foldl_spec t (s.thread t).waitMultiCount h rfl
  refine expired_quiet h1 hth hlt hw ?_
  rintro d ⟨u, b⟩ hb hu
  simp only at hu
  subst hu
  have hh := h.holds d _ (hf d _ hb) (by simp)
  cases b with
  | single => exact hn hh.2.2.1
  | multi j => exact hgone j hh.2.2.1 hh.2.2.2.1 d hb

theorem expireSingle_quiet (h : Inv none none s) (hlt : t < s.nthread) :
    Quiet s (s.expireSingle t) := by
  have hend : ∀ {s1 : Kernel}, Quiet s s1 → (∀ d, (t, BlockId.single) ∉ (s1.disp d).waitList) →
      Quiet s { s1.schedReady t with needResched := true } := fun h1 hno => by
    have h2 := h1.trans (schedReady_quiet h1.inv (hlt.trans_eq h1.kept.nthread.symm) hno)
    exact h2.trans (.of_view h2.inv rfl)
  unfold expireSingle
  simp only
  split
  · next hnone =>
    refine hend (.refl h) fun d hb => ?_
    exact (h.holds d _ hb (by simp)).2.2.2 hnone
  · have h1 : Quiet s (s.unlinkBlock (t, .single)) := ⟨unlinkBlock_inv h _, .unlinkBlock _ _⟩
    exact hend (h1.trans (.of_view h1.inv (modThread_same _ _ rfl))) fun d hb =>
      notMem_unlinkBlock s (t, .single) d hb

theorem expire_quiet (h : Inv none none s) (t : Nat) : Quiet s (s.expire t) := by
  unfold expire
  split
  · exact .refl h
  · next hno =>
    push Not at hno
    have hlt : t < s.nthread := by
      by_contra hle
      have hu : (s.thread t).state = .unused := h.fresh t (Nat.not_lt.1 hle)
      rw [hno.1] at hu
      cases hu
    split
    · exact .refl h
    · split
      · next hn => exact expireMulti_quiet h hlt hno.1 hn
      · exact expireSingle_quiet h hlt

theorem useQuantum_same (s : Kernel) (t : Nat) : (s.useQuantum t).waitView = s.waitView := by
  have hv : (s.modThread t fun th => { th with quantumLeft := th.quantumLeft - 1 }).waitView =
      s.waitView := modThread_same s t rfl
  unfold useQuantum
  split
  · simp only
    split
    · exact hv
    · exact hv
  · rfl

theorem suspend_quiet (h : Inv none none s) : Quiet s (s.suspend .switched) := by
  unfold suspend
  split
  · exact .refl h
  · next c _ =>
    by_cases hcode : (s.thread c).cont = .code
    · refine ⟨?_, .of_disp rfl rfl rfl rfl⟩
      have hno := h.noBlocks_code hcode
      rw [Inv, modThread_waitView]
      refine h.setThread (fun d b hb _ => absurd rfl (hno d _ hb)) (fun hy _ => ?_) rfl
        (fun _ => ⟨rfl, rfl⟩) (fun hs => ?_) (fun hle => h.fresh c hle) fun _ _ he => ?_
      · exact h.count c hy (by simp [waitView, Thread.waits, hcode])
      · by_contra hne
        obtain ⟨m, hm⟩ := List.exists_mem_of_ne_nil _ hne
        exact (h.owner_of_mem hm).2.2 hs
      · simp [Thread.waits, hcode] at he
    · exact .of_view h (modThread_same s c (by simp [hcode]))

end Kernel

end Aegis
