import Aegis.Ke.Proof.ReadyQueue

/-!
# The ready queues over whole runs

Every function of `Ke/Wait.lean` and `Ke/Kernel.lean` wakes threads, or ends in a switch. So every
step keeps `ReadyInv`, and the queues are exact in every state that the kernel reaches.
-/

namespace Aegis

open Function Outcome

namespace Kernel

variable {s s' : Kernel} {t : Nat}
variable {c : Nat} {s0 s1 s2 : Kernel} {st : StatusCode}

/-! ## Dispatchers -/

section
variable (s : Kernel)

@[simp] theorem modDisp_view (d : Nat) (f : Disp → Disp) :
    (s.modDisp d f).schedView = s.schedView := rfl

@[simp] theorem unlinkBlock_view (b : Nat × BlockId) :
    (s.unlinkBlock b).schedView = s.schedView := rfl

@[simp] theorem linkBlock_view (d : Nat) (b : Nat × BlockId) :
    (s.linkBlock d b).schedView = s.schedView := rfl

theorem keMutexOwn_view (m t : Nat) : (s.keMutexOwn m t).schedView = s.schedView :=
  modThread_view _ _ rfl rfl rfl

theorem modBlock_view (t : Nat) (b : BlockId) (f : WaitBlock → WaitBlock) :
    (s.modThread t fun th => th.modBlock b f).schedView = s.schedView := by
  cases b <;> exact modThread_view _ _ rfl rfl rfl

theorem setWake_view (t : Nat) (b : BlockId) (st : StatusCode) :
    (s.setWake t b st).schedView = s.schedView := by
  cases b <;> exact modThread_view _ _ rfl rfl rfl

theorem giveMutex_view (m t : Nat) (a : Bool) : (s.giveMutex m t a).schedView = s.schedView :=
  keMutexOwn_view _ _ _

end

theorem schedReady_waiting (h : ReadyCore s.schedView) (ht : (s.thread t).state = .waiting) :
    Woken s (s.schedReady t) :=
  schedReady_woken h (h.lt_of_state (t := t) (by simp [schedView, ht]))

theorem wokenRule : Rule fun s s' => ReadyCore s.schedView → Woken s s' :=
  ⟨fun _ h => .refl h, fun _ _ _ h1 h2 h => (h1 h).trans (h2 (h1 h).core)⟩

section
variable (h : ReadyCore s.schedView)
include h

theorem dispWakeOne_woken (d : Nat) (st : StatusCode) : Woken s (s.dispWakeOne d st) :=
  wokenRule.dispWakeOne
    (fun _ _ _ h => .of_view h ((setWake_view _ _ _ _).trans (unlinkBlock_view _ _)))
    (fun _ _ _ _ h => .of_view h (giveMutex_view _ _ _ _))
    (fun _ _ hw h => schedReady_waiting h hw) s h

theorem dispSignal_woken (d : Nat) (i : Int) : Woken s (s.dispSignal d i) :=
  wokenRule.dispSignal (fun _ _ h => .of_view h rfl) (fun _ h => dispWakeOne_woken h d _) s i h

/-! ## Mutexes -/

theorem abandon_woken (m : Nat) : Woken s (s.abandon m) := by
  unfold abandon
  simp only
  split
  · exact (dispWakeOne_woken (by exact h) _ _).after rfl
  · exact .of_view h rfl

theorem abandonLoop_woken {k : Nat} (hr : abandonLoop t k s = .ok s') : Woken s s' :=
  wokenRule.abandonLoop (fun _ m _ h => abandon_woken h m) hr h

theorem mutexDonate_woken (m w : Nat) : Woken s (s.mutexDonate m w) := by
  unfold mutexDonate
  split
  · exact .refl h
  · split
    · exact .refl h
    · split
      · exact .refl h
      · next o _ _ _ =>
        have h1 : Woken s (s.modThread o fun th =>
            { th with
              savedPriority := if th.waitBoost then th.savedPriority else th.priority
              waitBoost := true }) := .of_view h (modThread_view _ _ rfl rfl rfl)
        exact h1.trans (schedBoost_woken h1.core _ _)

theorem unboost_woken (t : Nat) : Woken s (s.unboost t) := by
  unfold unboost
  split
  · have h1 : Woken s (s.modThread t fun th => { th with waitBoost := false }) :=
      .of_view h (modThread_view _ _ rfl rfl rfl)
    exact h1.trans (schedBoost_woken h1.core _ _)
  · exact .refl h

theorem releaseLast_woken (m c : Nat) : Woken s (s.releaseLast m c) := by
  simp only [releaseLast]
  split
  · exact (unboost_woken (by exact h) _).after rfl
  · have h1 := dispWakeOne_woken (s := (s.modDisp m fun x =>
      { x with recursion := 0, owner := none }).keMutexDisown m) h m statusSuccess
    exact (h1.trans (unboost_woken h1.core _)).after rfl

theorem keReleaseMutex_woken (m : Nat) : Woken s (s.keReleaseMutex m).2 := by
  unfold keReleaseMutex
  split
  · exact .refl h
  · split
    · exact .refl h
    · split
      · exact .of_view h rfl
      · exact releaseLast_woken h m _

end

/-! ## Ending threads -/

theorem threadUnlinkWaits_view (s : Kernel) (t : Nat) :
    (s.threadUnlinkWaits t).schedView = s.schedView :=
  (Rule.of_view schedView).threadUnlinkWaits (fun _ _ => rfl)
    (fun s b => modBlock_view s t b _) (fun s => modThread_view s t rfl rfl rfl) s

theorem processLeave_woken (h : ReadyCore s.schedView) {p : Nat}
    (hr : s.processLeave p st = .ok s') : Woken s s' :=
  wokenRule.processLeave (fun _ _ _ h => .of_view h rfl) (fun d _ _ h => dispSignal_woken h d 1)
    (fun _ _ h => .of_view h rfl) hr h

theorem no_running (h : ReadyCore s.schedView) (hc : s.current = some c)
    (hst : (s.thread c).state ≠ .running) (u : Nat) : s.schedView.state u ≠ .running := by
  intro hu
  have : s.current = some u := h.running u hu
  rw [hc] at this
  cases this
  exact hst hu

theorem schedExitThread_cases (hc : s.current = some c) (hr : s.schedExitThread st = .ok s') :
    ∃ s1 s0 s2, (s.threadUnlinkWaits c).keMutexAbandonOwned c = .ok s1 ∧
      s0 = s1.modThread c (fun th => { th with exitStatus := st, state := .terminated }) ∧
      (s0.dispSignal (s0.thread c).disp 1).processLeave
        ((s0.dispSignal (s0.thread c).disp 1).thread c).process st = .ok s2 ∧
      s' = { s2 with current := none }.schedReschedule := by
  unfold schedExitThread at hr
  simp only [hc, bind_eq_ok] at hr
  obtain ⟨s1, hr1, s2, hr2, hr3⟩ := hr
  cases hr3
  exact ⟨s1, _, s2, hr1, rfl, hr2, rfl⟩

/-- The state of the kernel when a thread that has ended is left. -/
structure Left (s s₂ : Kernel) (c : Nat) : Prop where
  core : ReadyCore { s₂ with current := none }.schedView
  nthread : s₂.nthread = s.nthread
  idle : s₂.idle = s.idle
  state : (s₂.thread c).state = .terminated

theorem modEnded_view (s : Kernel) (c : Nat) (st : StatusCode) :
    (s.modThread c fun th => { th with exitStatus := st, state := .terminated }).schedView =
      { s.schedView with state := update s.schedView.state c .terminated } := by
  simp only [schedView, modThread]
  congr 1 <;> funext u <;> by_cases hu : u = c <;> simp [hu]

section
variable (h : ReadyCore s.schedView)
include h

theorem schedExitThread_woken (hrun : (s.thread c).state = .running) (hi : c ≠ s.idle)
    (hr1 : (s.threadUnlinkWaits c).keMutexAbandonOwned c = .ok s1)
    (hs0 : s0 = s1.modThread c (fun th => { th with exitStatus := st, state := .terminated }))
    (hr2 : (s0.dispSignal (s0.thread c).disp 1).processLeave
      ((s0.dispSignal (s0.thread c).disp 1).thread c).process st = .ok s2) :
    Woken s s1 ∧ Woken s0 s2 := by
  have h1 : Woken s s1 := (abandonLoop_woken (by rw [threadUnlinkWaits_view]; exact h) hr1).after
    (threadUnlinkWaits_view s c)
  have hrun1 : (s1.thread c).state = .running := by
    rcases h1.state c with he | ⟨hs, -⟩
    · exact he.trans hrun
    · rw [hrun] at hs
      simp at hs
  have hcore : ReadyCore s0.schedView := by
    rw [hs0, modEnded_view]
    exact h1.core.stop (c := c) (by simp [schedView, hrun1])
      (h1.core.lt_of_state (by simp [schedView, hrun1])) (fun he => hi (he.trans h1.idle)) (.inr rfl)
  have h2 := dispSignal_woken hcore (s0.thread c).disp 1
  exact ⟨h1, h2.trans (processLeave_woken h2.core hr2)⟩

theorem schedExitThread_left (hc : s.current = some c) (hrun : (s.thread c).state = .running)
    (hi : c ≠ s.idle) (hr1 : (s.threadUnlinkWaits c).keMutexAbandonOwned c = .ok s1)
    (hs0 : s0 = s1.modThread c (fun th => { th with exitStatus := st, state := .terminated }))
    (hr2 : (s0.dispSignal (s0.thread c).disp 1).processLeave
      ((s0.dispSignal (s0.thread c).disp 1).thread c).process st = .ok s2) : Left s s2 c := by
  obtain ⟨h1, h3⟩ := schedExitThread_woken h hrun hi hr1 hs0 hr2
  have hv : s0.schedView =
      { s1.schedView with state := update s1.schedView.state c .terminated } := by
    rw [hs0, modEnded_view]
  have hn : s0.nthread = s1.nthread := congrArg SchedView.nthread hv
  have hid : s0.idle = s1.idle := congrArg SchedView.idle hv
  have hcur : s2.current = some c := by
    rw [h3.current, show s0.current = s1.current from congrArg SchedView.current hv, h1.current, hc]
  have hterm : (s2.thread c).state = .terminated := by
    have hst0 : (s0.thread c).state = .terminated := by
      rw [hs0]
      simp [modThread]
    rcases h3.state c with he | ⟨hs, -⟩
    · exact he.trans hst0
    · rw [hst0] at hs
      simp at hs
  exact ⟨h3.core.leave (no_running h3.core hcur (by simp [hterm])),
    h3.nthread.trans (hn.trans h1.nthread), h3.idle.trans (hid.trans h1.idle), hterm⟩

theorem schedExitThread_switched (hc : s.current = some c) (hrun : (s.thread c).state = .running)
    (hi : c ≠ s.idle) (hr : s.schedExitThread st = .ok s') : Switched s s' := by
  obtain ⟨s1, s0, s2, hr1, hs0, hr2, rfl⟩ := schedExitThread_cases hc hr
  have hl := schedExitThread_left h hc hrun hi hr1 hs0 hr2
  have hsw := schedReschedule_switched (s := { s2 with current := none }) hl.core
    (fun _ hc => by cases hc)
  exact ⟨hsw.core, hsw.nthread.trans hl.nthread, hsw.idle.trans hl.idle, hsw.current⟩

/-! ## Waiting -/

theorem tryWait_woken (t d : Nat) : Woken s (s.tryWait t d).2 := by
  unfold tryWait
  split
  · split
    · exact .of_view h rfl
    · split
      · exact .of_view h (keMutexOwn_view _ _ _)
      · exact mutexDonate_woken h d t
  · split
    · simp only
      split
      · exact .of_view h rfl
      · exact .refl h
    · exact .refl h

theorem takeAll_woken (t : Nat) (objs : List Nat) : Woken s (takeAll t objs s) :=
  wokenRule.foldl objs (fun d _ _ h => tryWait_woken h t d) s h

end

theorem tryAny_woken (t : Nat) (objs : List Nat) (i : Nat) (h : ReadyCore s.schedView) :
    Woken s (tryAny t i objs s).2 :=
  wokenRule.tryAny (fun d _ _ h => tryWait_woken h t d) i s h

theorem unlinkBlocks_view (t n : Nat) (s : Kernel) : (unlinkBlocks t n s).schedView = s.schedView :=
  (Rule.of_view schedView).foldl _ (fun i _ s => unlinkBlock_view s (t, .multi i)) s

theorem enqueueMulti_woken (t : Nat) (waitAll : Bool) (objs : List Nat) (i : Nat)
    (h : ReadyCore s.schedView) : Woken s (enqueueMulti t waitAll i objs s).2 := by
  induction objs generalizing s i with
  | nil => exact .refl h
  | cons d ds ih =>
    have h1 : Woken s (s.modThread t fun th =>
        th.modBlock (.multi i) fun _ => ⟨some d, statusTimeout⟩) := .of_view h (modBlock_view _ _ _ _)
    unfold enqueueMulti
    simp only
    split
    · exact h1
    · refine Woken.trans ?_ (ih (i + 1) ?_)
      · split
        · exact (h1.trans (mutexDonate_woken h1.core d t)).then_view (linkBlock_view _ _ _)
        · exact h1.then_view (linkBlock_view _ _ _)
      · rw [linkBlock_view]
        split
        · exact (mutexDonate_woken h1.core d t).core
        · exact h1.core

theorem suspend_view (s : Kernel) (k : Cont) : (s.suspend k).schedView = s.schedView := by
  unfold suspend
  split
  · rfl
  · exact modThread_view _ _ rfl rfl rfl

theorem startWait_view (s : Kernel) (c timeout : Nat) (k : Cont) :
    ((s.startWait c timeout).suspend k).schedView =
      { s.schedView with state := update s.schedView.state c .waiting } := by
  rw [suspend_view]
  simp only [schedView, startWait, modThread]
  congr 1 <;> funext u <;> by_cases hu : u = c <;> simp [hu]

theorem startWait_core (h : ReadyCore s.schedView) (hrun : (s.thread c).state = .running)
    (hi : c ≠ s.idle) (timeout : Nat) (k : Cont) :
    ReadyCore ((s.startWait c timeout).suspend k).schedView := by
  rw [startWait_view]
  exact h.stop (by simp [schedView, hrun]) (h.lt_of_state (by simp [schedView, hrun])) hi (.inl rfl)

theorem startWait_switched (h : ReadyCore s.schedView) (hc : s.current = some c)
    (hrun : (s.thread c).state = .running) (hi : c ≠ s.idle) (timeout : Nat) (k : Cont) :
    Switched s ((s.startWait c timeout).suspend k).schedReschedule := by
  have hv := startWait_view s c timeout k
  have hsw := schedReschedule_switched (startWait_core h hrun hi timeout k) fun u hu => by
    have huc : u = c := by
      rw [show ((s.startWait c timeout).suspend k).current = s.current from
        congrArg SchedView.current hv, hc] at hu
      exact (Option.some.inj hu).symm
    have hst : (((s.startWait c timeout).suspend k).thread u).state = .waiting := by
      have := congrFun (congrArg SchedView.state hv) u
      rw [huc] at this ⊢
      exact this.trans (update_self ..)
    refine ⟨by simp [hst], fun he => absurd (huc.symm.trans he) ?_⟩
    rwa [show ((s.startWait c timeout).suspend k).idle = s.idle from congrArg SchedView.idle hv]
  exact ⟨hsw.core, hsw.nthread.trans (congrArg SchedView.nthread hv),
    hsw.idle.trans (congrArg SchedView.idle hv), hsw.current⟩

end Kernel

/-- The ready queues between calls. -/
structure ReadyInv (s : Kernel) : Prop where
  core : ReadyCore s.schedView
  runs : ∀ t ∈ s.current, (s.thread t).state = .running

namespace ReadyInv

open Kernel

variable {s s' : Kernel}
variable {t timeout : Nat} {st : StatusCode} {r : Option StatusCode × Kernel}

theorem woken (h : ReadyInv s) (hw : Woken s s') : ReadyInv s' := by
  refine ⟨hw.core, fun t ht => ?_⟩
  have hrun := h.runs t (hw.current ▸ ht)
  rcases hw.state t with he | ⟨hs, -⟩
  · exact he.trans hrun
  · rw [hrun] at hs
    simp at hs

theorem switched (hs : Switched s s') : ReadyInv s' := by
  obtain ⟨c, hc, hrun⟩ := hs.current
  refine ⟨hs.core, fun t ht => ?_⟩
  rw [hc] at ht
  cases ht
  exact hrun

section
variable (h : ReadyInv s)
include h

theorem schedYield : ReadyInv s.schedYield := by
  refine switched (s := s.suspend .switched) (schedReschedule_switched ?_ fun c hc => ?_)
  · rw [suspend_view]
    exact h.core
  · have hcur : c ∈ s.current := by
      rw [← show (s.suspend .switched).current = s.current from
        congrArg SchedView.current (suspend_view s _)]
      exact hc
    have hrun : ((s.suspend .switched).thread c).state = .running :=
      (congrFun (congrArg SchedView.state (suspend_view s _)) c).trans (h.runs c hcur)
    exact ⟨by simp [hrun], fun _ => hrun⟩

theorem exit {c : Nat} (hc : s.current = some c) (hi : c ≠ s.idle)
    (hr : s.schedExitThread st = .ok s') : ReadyInv s' :=
  switched (schedExitThread_switched h.core hc (h.runs c hc) hi hr)

theorem kill (ht : t < s.nthread) (hr : s.schedKillThread t st = .ok s') : ReadyInv s' := by
  unfold schedKillThread at hr
  split at hr
  · cases hr
    exact h
  · next hi =>
    split at hr
    · cases hr
      exact h
    · split at hr
      · next hc => exact h.exit hc hi hr
      · have hv : (s.modThread t fun th =>
            { th with killPending := true, exitStatus := st }).schedView =
              { s.schedView with killPending := update s.schedView.killPending t true } := by
          simp only [schedView, modThread]
          congr 1 <;> funext u <;> by_cases hu : u = t <;> simp [hu]
        have h1 : ReadyInv (s.modThread t fun th =>
            { th with killPending := true, exitStatus := st }) := by
          refine ⟨?_, fun u hu => ?_⟩
          · rw [hv]
            exact h.core.kill hi true
          · exact (congrFun (congrArg SchedView.state hv) u).trans (h.runs u hu)
        simp only at hr
        split at hr
        · cases hr
          refine h1.woken (Woken.after (schedReady_woken ?_ ?_) (threadUnlinkWaits_view _ t))
          · rw [threadUnlinkWaits_view]
            exact h1.core
          · rw [show (_ : Kernel).nthread = _ from
              congrArg SchedView.nthread (threadUnlinkWaits_view _ t)]
            exact ht
        · cases hr
          exact h1

theorem wait (hi : ∀ t ∈ s.current, t ≠ s.idle) {d : Nat} (hr : s.keWaitObject d timeout = .ok r) :
    ReadyInv r.2 := by
  unfold keWaitObject at hr
  split at hr
  · cases hr
    exact h
  · next t hc =>
    split at hr
    · simp only [bind_eq_ok] at hr
      obtain ⟨s1, hr1, hr2⟩ := hr
      cases hr2
      exact h.exit hc (hi t hc) hr1
    · have h1 := tryWait_woken h.core t d
      simp only at hr
      split at hr
      · cases hr
        exact h.woken h1
      · split at hr
        · cases hr
          exact h.woken h1
        · cases hr
          have h2 := (h.woken h1)
          have hc2 : (s.tryWait t d).2.current = some t := h1.current.trans hc
          have hv : (((s.tryWait t d).2.modThread t fun th =>
              { th with wait := ⟨some d, statusTimeout⟩ }).linkBlock d (t, .single)).schedView =
                (s.tryWait t d).2.schedView :=
            (linkBlock_view _ _ _).trans (modThread_view _ _ rfl rfl rfl)
          refine switched (startWait_switched (s := ((s.tryWait t d).2.modThread t fun th =>
            { th with wait := ⟨some d, statusTimeout⟩ }).linkBlock d (t, .single)) ?_ hc2 ?_ ?_
              timeout .waitObject)
          · rw [hv]
            exact h2.core
          · exact (congrFun (congrArg SchedView.state hv) t).trans (h2.runs t hc2)
          · exact fun he => hi t hc (he.trans h1.idle)

theorem waitSlow (hc : s.current = some t) (hi : t ≠ s.idle) (objs : List Nat) (waitAll : Bool)
    (timeout : Nat) : ReadyInv (s.waitSlow t objs waitAll timeout).2 := by
  unfold Kernel.waitSlow
  simp only
  have h1 : Woken s (s.modThread t fun th =>
      { th with waitMultiCount := objs.length, waitAll, wait := ⟨objs.head?, statusTimeout⟩ }) :=
    .of_view h.core (modThread_view _ _ rfl rfl rfl)
  have h2 := h1.trans (enqueueMulti_woken t waitAll objs 0 h1.core)
  generalize enqueueMulti t waitAll 0 objs (s.modThread t fun th =>
      { th with waitMultiCount := objs.length, waitAll, wait := ⟨objs.head?, statusTimeout⟩ }) = r
    at h2 ⊢
  split
  · next i _ =>
    have h3 : Woken s ((unlinkBlocks t i r.2).modThread t fun th =>
        { th with waitMultiCount := 0, wait := { th.wait with object := none } }) :=
      h2.then_view ((modThread_view _ _ rfl rfl rfl).trans (unlinkBlocks_view t i r.2))
    exact h.woken (h3.trans (tryWait_woken h3.core t _))
  · exact switched (startWait_switched h2.core (h2.current.trans hc)
      ((h.woken h2).runs t (h2.current.trans hc)) (fun he => hi (he.trans h2.idle)) timeout _)

theorem waitMultiple (hi : ∀ t ∈ s.current, t ≠ s.idle) {objs : List Nat} {waitAll : Bool}
    (hr : s.keWaitMultiple objs waitAll timeout = .ok r) : ReadyInv r.2 := by
  unfold keWaitMultiple at hr
  split at hr
  · cases hr
    exact h
  · split at hr
    · cases hr
      exact h
    · next t hc =>
      split at hr
      · simp only [bind_eq_ok] at hr
        obtain ⟨s1, hr1, hr2⟩ := hr
        cases hr2
        exact h.exit hc (hi t hc) hr1
      · split at hr
        · split at hr
          · cases hr
            exact h.woken (takeAll_woken h.core t objs)
          · split at hr
            · cases hr
              exact h
            · cases hr
              exact h.waitSlow hc (hi t hc) objs waitAll timeout
        · have h1 := tryAny_woken t objs 0 h.core
          simp only at hr
          split at hr
          · cases hr
            exact h.woken h1
          · split at hr
            · cases hr
              exact h.woken h1
            · cases hr
              exact (h.woken h1).waitSlow (h1.current.trans hc)
                (fun he => hi t hc (he.trans h1.idle)) objs waitAll timeout

theorem resume (hr : s.resume = .ok r) : ReadyInv r.2 := by
  unfold Kernel.resume at hr
  split at hr
  · cases hr
    exact h
  · next t hc =>
    split at hr
    · next hk =>
      simp only [bind_eq_ok] at hr
      obtain ⟨s1, hr1, hr2⟩ := hr
      cases hr2
      refine h.exit hc ?_ hr1
      rintro rfl
      rw [show (s.thread s.idle).killPending = false from h.core.alive] at hk
      cases hk
    · have h1 : Woken s (s.modThread t fun th => { th with cont := .code }) :=
        .of_view h.core (modThread_view _ _ rfl rfl rfl)
      simp only at hr
      split at hr
      · cases hr
        exact h.woken h1
      · cases hr
        exact h.woken h1
      · cases hr
        exact h.woken h1
      · cases hr
        exact h.woken h1
      · next objs waitAll _ =>
        cases hr
        refine h.woken ?_
        unfold finishMultiple
        simp only
        have h2 : Woken s ((unlinkBlocks t objs.length (s.modThread t fun th =>
            { th with cont := .code })).modThread t (·.endWait objs.length)) :=
          h1.then_view ((modThread_view _ _ rfl rfl rfl).trans (unlinkBlocks_view _ _ _))
        split
        · exact h2
        · split
          · exact h2.trans (takeAll_woken h2.core t objs)
          · exact h2

end

end ReadyInv

namespace Kernel

variable {s s' : Kernel} {t : Nat}

/-! ## Ticks -/

theorem disarm_view (s : Kernel) (d : Nat) : (s.disarm d).schedView = s.schedView := by
  unfold disarm
  split <;> rfl

theorem timerFire_woken (h : ReadyCore s.schedView) (now d : Nat) :
    Woken s (s.timerFire now d) := by
  have h1 : Woken s _ := (dispSignal_woken
    (s := (s.unlinkTimer d).modTimer d fun x => { x with armed := false }) h d 1).after rfl
  unfold timerFire
  simp only
  split
  · exact h1.then_view rfl
  · exact h1

theorem timerTick_woken (h : ReadyCore s.schedView) {now : Nat} (hr : s.timerTick now = .ok s') :
    Woken s s' :=
  wokenRule.timerTick (fun _ d _ _ h => timerFire_woken h now d) hr h

theorem unlink_foldl_view (t : Nat) (l : List Nat) (s : Kernel) :
    (l.foldl (fun s k =>
      match ((s.thread t).waitMulti k).object with
      | none => s
      | some _ => s.unlinkBlock (t, .multi k)) s).schedView = s.schedView := by
  refine (Rule.of_view schedView).foldl l (fun k _ s => ?_) s
  split
  · rfl
  · exact unlinkBlock_view _ _

theorem expire_woken (h : ReadyCore s.schedView) (t : Nat) : Woken s (s.expire t) := by
  unfold expire
  split
  · exact .refl h
  · next hno =>
    push Not at hno
    have hlt : t < s.nthread := h.lt_of_state (t := t) (by simp [schedView, hno.1])
    -- a waiting thread is made ready once its blocks have been taken off
    have hready : ∀ {s1 : Kernel}, s1.schedView = s.schedView →
        Woken s { s1.schedReady t with needResched := true } := fun {s1} he =>
      ((schedReady_woken (he ▸ h) (by
        rwa [show s1.nthread = s.nthread from congrArg SchedView.nthread he])).after he).then_view rfl
    split
    · exact .refl h
    · split
      · exact hready ((modThread_view _ _ rfl rfl rfl).trans (unlink_foldl_view _ _ _))
      · unfold expireSingle
        simp only
        split
        · exact hready rfl
        · exact hready ((modThread_view _ _ rfl rfl rfl).trans (unlinkBlock_view _ _))

theorem timeoutScan_woken (h : ReadyCore s.schedView) : Woken s s.timeoutScan :=
  wokenRule.timeoutScan (fun _ t h => expire_woken h t) s h

theorem useQuantum_view (s : Kernel) (t : Nat) : (s.useQuantum t).schedView = s.schedView := by
  have hv : (s.modThread t fun th => { th with quantumLeft := th.quantumLeft - 1 }).schedView =
      s.schedView := modThread_view _ _ rfl rfl rfl
  unfold useQuantum
  split
  · simp only
    split
    · exact hv
    · exact hv
  · rfl

/-! ## New objects -/

theorem obCreateMutex_view (s : Kernel) (b : Bool) :
    (s.obCreateMutex b).schedView = s.schedView := by
  unfold obCreateMutex
  simp only
  split
  · rfl
  · exact keMutexOwn_view _ _ _

theorem pspCreateThread_inv (h : ReadyInv s) (p prio : Nat) (suspended : Bool) :
    ReadyInv (s.pspCreateThread p prio suspended) := by
  unfold pspCreateThread
  simp only
  have hq : (if prio ≥ priorityLevels then priorityNormal else prio) < 32 := by
    unfold priorityLevels priorityNormal
    split <;> omega
  generalize (if prio ≥ priorityLevels then priorityNormal else prio) = q at hq
  obtain ⟨s1, hs1⟩ : ∃ s1, s.addThread p q = s1 := ⟨_, rfl⟩
  have hv : s1.schedView =
      { s.schedView with
        nthread := s.schedView.nthread + 1
        state := update s.schedView.state s.schedView.nthread .unused
        priority := update s.schedView.priority s.schedView.nthread q
        killPending := update s.schedView.killPending s.schedView.nthread false } := by
    rw [← hs1]
    simp only [schedView, addThread, modProcess, newDisp, newThread]
    congr 1 <;> funext u <;> by_cases hu : u = s.nthread <;> simp [hu]
  have h1 : ReadyInv s1 := by
    refine ⟨?_, fun u hu => ?_⟩
    · rw [hv]
      exact h.core.grow hq
    · have hcur : u ∈ s.current := by rwa [← show s1.current = s.current from
        congrArg SchedView.current hv]
      have hrun := h.runs u hcur
      have hne : u ≠ s.nthread := (h.core.lt_of_state (t := u) (by simp [schedView, hrun])).ne
      exact ((congrFun (congrArg SchedView.state hv) u).trans (update_of_ne hne ..)).trans
        hrun
  rw [hs1]
  split
  · exact h1
  · refine h1.woken (schedReady_woken h1.core ?_)
    rw [show s1.nthread = s.nthread + 1 from congrArg SchedView.nthread hv]
    exact Nat.lt_succ_self _

end Kernel

/-! ## Runs -/

open Kernel

theorem keStep_readyInv (s : Kernel) (op : KeOp) (s' : Kernel) (h : ReadyInv s) (hok : KeOk s op)
    (hr : keStep s op = some s') : ReadyInv s' := by
  -- a step that leaves the queues alone
  have hsame : s'.schedView = s.schedView → ReadyInv s' := fun he => h.woken (.of_view h.core he)
  cases op with
  | createProcess => exact hsame (by cases hr; rfl)
  | createThread p prio suspended =>
    cases hr
    exact pspCreateThread_inv h p prio suspended
  | createEvent autoReset initial => exact hsame (by cases hr; rfl)
  | createTimer autoReset => exact hsame (by cases hr; rfl)
  | createMutex initialOwner => exact hsame (by cases hr; exact obCreateMutex_view _ _)
  | setCloses p closes => exact hsame (by cases hr; rfl)
  | ready t =>
    cases hr
    exact h.woken (schedReady_woken h.core hok)
  | boost t prio =>
    cases hr
    exact h.woken (schedBoost_woken h.core t prio)
  | kill t st => exact h.kill hok.1 (get?_eq_some.1 hr)
  | exit st =>
    obtain ⟨c, hc⟩ := Option.ne_none_iff_exists'.1 hok.1
    exact h.exit hc (hok.2 c hc).2 (get?_eq_some.1 hr)
  | yield =>
    cases hr
    exact h.schedYield
  | wait d timeout =>
    obtain ⟨r, he, rfl⟩ := Option.map_eq_some_iff.1 hr
    exact h.wait (fun t ht => (hok.2 t ht).2) (get?_eq_some.1 he)
  | waitMultiple objs waitAll timeout =>
    obtain ⟨r, he, rfl⟩ := Option.map_eq_some_iff.1 hr
    exact h.waitMultiple (fun t ht => (hok.2 t ht).2) (get?_eq_some.1 he)
  | release m =>
    cases hr
    exact h.woken (keReleaseMutex_woken h.core m)
  | signal d =>
    cases hr
    exact h.woken (dispSignal_woken h.core d 1)
  | setSignal d state => exact hsame (by cases hr; rfl)
  | wakeOne d =>
    cases hr
    exact h.woken (dispWakeOne_woken h.core d _)
  | setTimer d due period =>
    refine hsame ?_
    cases hr
    show ((if s.timerUp then s else { s with timers := [], timerUp := true }).disarm d).schedView = _
    rw [disarm_view]
    split <;> rfl
  | cancelTimer d => exact hsame (by cases hr; exact disarm_view s d)
  | tick =>
    have hr := get?_eq_some.1 hr
    unfold keOnTick at hr
    simp only [bind_eq_ok] at hr
    obtain ⟨s1, hr1, hr2⟩ := hr
    have h1 : Woken s s1 :=
      (timerTick_woken (s := { s with ticks := u64 (s.ticks + 1) }) h.core hr1).after rfl
    have h2 := h.woken (h1.trans (timeoutScan_woken h1.core))
    split at hr2
    · cases hr2
      exact h2
    · next t _ =>
      have h3 := h2.woken (.of_view h2.core (useQuantum_view s1.timeoutScan t))
      cases hr2
      split
      · exact h3.schedYield
      · exact h3
  | resume =>
    obtain ⟨r, he, rfl⟩ := Option.map_eq_some_iff.1 hr
    exact h.resume (get?_eq_some.1 he)

theorem schedInit_view :
    schedInit.schedView =
      ⟨1, fun t => if t = 0 then .ready else .unused, fun _ => 0, fun _ => false,
        PrioQueue.empty.insert 0 0, 0, none⟩ := by
  simp only [schedInit, pspCreateThread, priorityLevels, priorityIdle, schedView]
  congr 1 <;> funext u <;> by_cases hu : u = 0 <;>
    simp [hu, blank, pspCreateProcess, newDisp, addThread, modProcess, schedReady, newThread, preempt,
      readyInsert, setState, modThread]

theorem schedInit_readyInv : ReadyInv schedInit := by
  have hmem : ∀ t p, t ∈ (PrioQueue.empty.insert 0 0 : PrioQueue Nat).queue p → t = 0 ∧ p = 0 := by
    intro t p hm
    by_cases hp : p = 0
    · subst hp
      exact ⟨by simpa [PrioQueue.empty] using hm, rfl⟩
    · simp [PrioQueue.empty, hp] at hm
  refine ⟨?_, fun t ht => by cases ht⟩
  rw [schedInit_view]
  refine ⟨PrioQueue.insert_exact PrioQueue.empty_exact (by decide) 0,
    fun _ => Nat.zero_lt_succ _, fun t p => ?_, fun t _ hr hi => ?_, fun t p hm => ?_,
    fun t ht => ?_, .inl rfl, fun t ht => ?_, rfl⟩
  · by_cases hm : t ∈ (PrioQueue.empty.insert 0 0 : PrioQueue Nat).queue p
    · obtain ⟨rfl, rfl⟩ := hmem t p hm
      simp [PrioQueue.empty]
    · simp only [List.count_eq_zero_of_not_mem hm, Nat.zero_le]
  · simp only at hr hi
    rw [if_neg hi] at hr
    cases hr
  · obtain ⟨rfl, rfl⟩ := hmem t p hm
    rfl
  · simp only at ht
    split at ht <;> cases ht
  · simp only at ht ⊢
    rw [if_neg (by omega)]

theorem ReadyInv.exact {s : Kernel} (h : ReadyInv s) : ReadyQueuesExact s := by
  refine ⟨h.core.exact.bit, fun t ht hr hi p => ?_, fun t _ hr p => h.core.notMem hr,
    fun p t hm => h.core.lt_of_state (by rw [h.core.ready t p hm]; simp), fun t _ =>
      ⟨h.core.running t, fun hc => h.runs t hc⟩⟩
  have hm := h.core.linked t ht hr hi
  have hle : (s.ready.queue p).count t ≤ if p = (s.thread t).priority then 1 else 0 :=
    h.core.once t p
  by_cases hp : p = (s.thread t).priority
  · subst hp
    rw [if_pos rfl] at hle ⊢
    exact le_antisymm hle (List.count_pos_iff.2 hm)
  · rw [if_neg hp] at hle ⊢
    exact Nat.le_zero.1 hle

theorem ReadyInv.boosted {s : Kernel} (h : ReadyInv s) {t : Nat} (ht : t < s.nthread)
    (hr : (s.thread t).state = .ready) (hi : t ≠ s.idle) (q p : Nat) :
    ((s.schedBoost t q).ready.queue p).count t = if p = min q (priorityLevels - 1) then 1 else 0 := by
  have hW := schedBoost_woken h.core t q
  have hr' : ((s.schedBoost t q).thread t).state = .ready := by
    rcases hW.state t with he | ⟨-, he⟩
    · exact he.trans hr
    · exact he
  rw [(h.woken hW).exact.linked t (ht.trans_eq hW.nthread.symm) hr' (fun he => hi (he.trans hW.idle)),
    schedBoost_priority s hi]

/-- **Ready queues.** In every state that the kernel reaches, the bitmap and the queues agree, the
ready threads other than the idle one are each on the queue of their priority and nowhere else, no
other thread is on a queue, and the thread that runs is the current one. To wake a thread again
changes nothing, and a ready thread that is boosted is on the queue of its new priority only. -/
theorem ready_queues_exact {ops : List KeOp} (hl : Run.Legal keStep KeOk schedInit ops) {s : Kernel}
    (hr : Run.run keStep schedInit ops = some s) :
    ReadyQueuesExact s ∧ ∀ t < s.nthread, (s.schedReady t).schedReady t = s.schedReady t ∧
      ((s.thread t).state = .ready → t ≠ s.idle → ∀ q p,
        ((s.schedBoost t q).ready.queue p).count t =
          if p = min q (priorityLevels - 1) then 1 else 0) := by
  have h := Run.run_keeps (I := ReadyInv) keStep_readyInv schedInit_readyInv hl hr
  exact ⟨h.exact, fun t ht => ⟨schedReady_twice s t, fun hr hi => h.boosted ht hr hi⟩⟩

/-- Two threads, a mutex of the first one that the second one waits for, and the end of the first
after the second has been killed. -/
def contended : List KeOp :=
  [.createThread 0 8 false, .createThread 0 8 false, .createMutex false, .yield, .resume,
    .wait 4 infinite, .wait 4 infinite, .yield, .resume, .wait 4 infinite, .resume, .release 4,
    .tick, .release 4, .kill 2 7, .exit 0]

theorem ready_queues_exact_contended : ∃ s, Run.run keStep schedInit contended = some s ∧
    ReadyQueuesExact s := by
  obtain ⟨s, hs⟩ := Option.isSome_iff_exists.1
    (show (Run.run keStep schedInit contended).isSome = true by decide +kernel)
  exact ⟨s, hs, (ready_queues_exact (by decide +kernel) hs).1⟩

end Aegis
