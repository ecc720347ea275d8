import Aegis.Ke.Proof.WaitCalls

/-!
# What the steps of the kernel are made of

A `Move` is a change that the functions of the kernel make to the state, with what holds where they
make it. The invariants hold between any two of them (`Move.spec`). `keStep_stepped` takes a step
apart: after some moves the thread that runs goes on, yields, begins to wait, or ends (`Stepped`).

What the moves of a step may do depends on what the step is about (`Scope`). Only a thread that ends
(`E`) abandons a mutex.
-/

namespace Aegis

/-- What a step is about: the dispatchers whose blocks it wakes, those that it waits for or sets, the
waits that it may begin, with their timeouts, the threads that it kills, and whether it is a tick or a
boost. -/
structure Scope where
  wakes : Nat → Prop
  sets : Nat → Prop
  enters : Cont → Nat → Prop
  kills : Nat → Prop
  ticks : Prop
  boosts : Prop

namespace Kernel

variable {s2 s3 : Kernel} {I : Kernel → Prop}

/-! ## Moves -/

/-- `c` runs, in its own code. -/
structure Caller (s : Kernel) (c : Nat) : Prop where
  current : s.current = some c
  running : (s.thread c).state = .running
  code : (s.thread c).cont = .code

/-- What a step does to the waits, part by part. -/
inductive Move (E : Prop) (x : Scope) : Kernel → Kernel → Prop
  | signal {s d} (f : Disp → Int) (hd : x.wakes d ∨ x.sets d) (h : s.Signals d) :
      Move E x s (s.modDisp d fun x => { x with signalState := f x })
  | wake {s d} (hd : x.wakes d) (h : s.Signals d) : Move E x s (s.dispWakeOne d statusSuccess)
  | abandon {s c m} (hE : E) (hd : x.wakes m) (hc : s.current = some c)
      (hm : m ∈ (s.thread c).ownedMutexes) (hno : s.waitView.NoBlocks c)
      (hout : (s.thread c).cont = .code ∨ (s.thread c).killPending = true) :
      Move E x s (s.abandon m)
  | take {s c d} (hw : x.sets d) (hd : d < s.ndisp) (hc : s.Caller c) :
      Move E x s (s.tryWait c d).2
  | boost {s t} (q : Nat) (hb : x.boosts) (ht : t < s.nthread) : Move E x s (s.schedBoost t q)
  | unlink {s t} (h : E ∧ s.current = some t ∧ (s.thread t).state = .running ∧
        ((s.thread t).cont = .code ∨ (s.thread t).killPending = true) ∨
      x.kills t ∧ (s.thread t).killPending = true ∧ (s.thread t).state = .waiting) :
      Move E x s (s.threadUnlinkWaits t)
  | kill {s t} (st : StatusCode) (hk : x.kills t) (hi : t ≠ s.idle) (hc : s.current ≠ some t) :
      Move E x s (s.modThread t fun th => { th with killPending := true, exitStatus := st })
  | ready {s t} (ht : t < s.nthread) (h : (s.thread t).state = .unused ∨
      x.kills t ∧ (s.thread t).killPending = true ∧ (s.thread t).state = .waiting ∧
        s.waitView.NoBlocks t) : Move E x s (s.schedReady t)
  | expire {s} (t : Nat) (ht : x.ticks) : Move E x s (s.expire t)
  | timers {s : Kernel} (f : Nat → Timer) (l : List Nat) (up : Bool) (h : ∀ d ∈ l, s.Signals d) :
      Move E x s { s with timer := f, timers := l, timerUp := up }
  | quantum {s c} (ht : x.ticks) (hc : s.current = some c) : Move E x s (s.useQuantum c)
  | goOn {s c} (hc : s.current = some c) (hrun : (s.thread c).state = .running)
      (hk : (s.thread c).killPending = false)
      (hne : ∀ objs waitAll, (s.thread c).cont ≠ .waitMultiple objs waitAll) :
      Move E x s (s.modThread c fun th => { th with cont := .code })
  | finish {s c objs waitAll} (hc : s.current = some c) (hrun : (s.thread c).state = .running)
      (hk : (s.thread c).killPending = false)
      (hcont : (s.thread c).cont = .waitMultiple objs waitAll) : Move E x s (s.multiDone c objs)
  | died {s p} (st : StatusCode) (h : (s.process p).threadCount = 0) :
      Move E x s (s.modProcess p fun x => { x with exitStatus := st, terminating := true })
  | dropped {s : Kernel} {p i : Nat} (h : (s.process p).threadCount = 0)
      (hi : s.procs[i]? = some p) :
      Move E x s { s with procs := SwapList.swapRemove s.procs i }

variable {E : Prop} {x : Scope} {D : Nat → Prop} {s s' : Kernel} {t c d m p : Nat}

abbrev Moves (E : Prop) (x : Scope) : Kernel → Kernel → Prop :=
  Relation.ReflTransGen (Move E x)

theorem movesRule : Rule (Moves E x) := ⟨fun _ => .refl, fun _ _ _ => .trans⟩

/-! ## The invariants between moves -/

/-- The ready queues and the waits are in order. -/
structure Good (s : Kernel) : Prop where
  core : ReadyCore s.schedView
  inv : Inv none none s

theorem Good.of_view (h : Good s) (hv : s'.schedView = s.schedView)
    (hw : s'.waitView = s.waitView) : Good s' :=
  ⟨hv ▸ h.core, by rw [Inv, hw]; exact h.inv⟩

/-- What moves keep. -/
structure Moved (D : Nat → Prop) (s s' : Kernel) : Prop where
  good : Good s'
  woken : Woken s s'
  kept : Kept D s s'

theorem Moved.refl (h : Good s) : Moved D s s := ⟨h, .refl h.core, .refl s⟩

theorem Moved.trans {s1 : Kernel} (h1 : Moved D s1 s2) (h2 : Moved D s2 s3) : Moved D s1 s3 :=
  ⟨h2.good, h1.woken.trans h2.woken, h1.kept.trans h2.kept⟩

theorem Moved.of_view (h : Good s) (hv : s'.schedView = s.schedView)
    (hw : s'.waitView = s.waitView) : Moved D s s' :=
  ⟨h.of_view hv hw, .of_view h.core hv, .of_view hw⟩

theorem Good.lt (h : Good s) (ht : (s.thread t).state ≠ .unused) : t < s.nthread :=
  h.core.lt_of_state ht

theorem Good.releaseLast (h : Good s) (hm : m < s.ndisp) (hty : (s.disp m).type = .mutant) (c : Nat) :
    Moved (· = m) s (s.releaseLast m c) :=
  have hw := releaseLast_woken h.core m c
  ⟨⟨hw.core, releaseLast_inv h.inv hm hty c⟩, hw, releaseLast_kept s m c⟩

theorem Move.spec (hm : Move E x s s') (h : Good s) : Moved (fun m => E ∧ x.wakes m) s s' := by
  cases hm with
  | signal f _ hd =>
    exact ⟨⟨h.core, modDisp_inv h.inv hd.2 rfl rfl⟩, .of_view h.core rfl, modSignal_kept s _ f⟩
  | @wake d _ hd =>
    have hw := dispWakeOne_woken h.core d statusSuccess
    exact ⟨⟨hw.core, dispWakeOne_inv h.inv hd.2 _⟩, hw, dispWakeOne_kept s _ (.inl hd.2)⟩
  | @abandon c m hE hd _ hmem _ _ =>
    obtain ⟨hm, hty, -⟩ := h.inv.owned c m hmem
    have hw := abandon_woken h.core m
    exact ⟨⟨hw.core, abandon_inv h.inv hm hty⟩, hw, abandon_kept s ⟨hE, hd⟩⟩
  | @take c d _ hd hc =>
    have hw := tryWait_woken h.core c d
    have hlt := h.lt (t := c) (by rw [hc.running]; simp)
    exact ⟨⟨hw.core, tryWait_inv h.inv hd hlt (by rw [hc.running]; simp)⟩, hw,
      tryWait_kept s _ _ (h.inv.free hd)⟩
  | @boost t q _ ht =>
    have hw := schedBoost_woken h.core t q
    have hv := schedBoost_same s t q
    exact ⟨⟨hw.core, by rw [Inv, hv]; exact h.inv⟩, hw, .of_view hv⟩
  | @unlink t _ =>
    have hv := threadUnlinkWaits_view s t
    exact ⟨⟨hv ▸ h.core, (threadUnlinkWaits_spec h.inv t).1⟩, .of_view h.core hv,
      threadUnlinkWaits_kept s t⟩
  | @kill t st _ hi _ =>
    have hv : (s.modThread t fun th => { th with killPending := true, exitStatus := st }).schedView =
        { s.schedView with killPending := Function.update s.schedView.killPending t true } := by
      simp only [schedView, modThread]
      congr 1 <;> funext u <;> by_cases hu : u = t <;> simp [hu]
    have hw : (s.modThread t fun th =>
        { th with killPending := true, exitStatus := st }).waitView = s.waitView :=
      modThread_same s t rfl
    have hcore := h.core.kill hi true
    rw [← hv] at hcore
    exact ⟨⟨hcore, by rw [Inv, hw]; exact h.inv⟩, ⟨hcore, rfl, rfl, rfl, fun u =>
      .inl (congrFun (congrArg SchedView.state hv) u)⟩, .of_view hw⟩
  | ready ht hno =>
    have hw := schedReady_woken h.core ht
    refine ⟨⟨hw.core, schedReady_inv h.inv ht fun d hb => ?_⟩, hw, schedReady_kept s _⟩
    rcases hno with hu | ⟨-, -, -, hno⟩
    · have hwait := (h.inv.holds d _ hb (by simp)).1
      rw [show (s.waitView.thread _).state = .unused from hu] at hwait
      cases hwait
    · exact hno d _ hb rfl
  | expire t _ =>
    have hw := expire_woken h.core t
    have hq := expire_quiet h.inv t
    exact ⟨⟨hw.core, hq.inv⟩, hw, hq.kept.mono fun _ => False.elim⟩
  | timers f l up hl =>
    exact ⟨⟨h.core, h.inv.setTimers hl⟩, .of_view h.core rfl, .of_disp rfl rfl rfl rfl⟩
  | quantum _ _ => exact .of_view h (useQuantum_view s _) (useQuantum_same s _)
  | @goOn c _ hrun _ hne =>
    have hv : (s.modThread c fun th => { th with cont := .code }).schedView = s.schedView :=
      modThread_view s c rfl rfl rfl
    exact ⟨⟨hv ▸ h.core, goOn_inv h.inv (h.lt (by rw [hrun]; simp)) hrun hne⟩, .of_view h.core hv,
      .of_disp rfl rfl rfl rfl⟩
  | @finish c objs _ _ hrun _ hcont =>
    have hv : (s.multiDone c objs).schedView = s.schedView := by
      refine (modThread_view _ c rfl rfl rfl).trans ((unlinkBlocks_view c _ _).trans ?_)
      exact modThread_view s c rfl rfl rfl
    obtain ⟨hi, hk⟩ := multiDone_spec h.inv (h.lt (by rw [hrun]; simp)) hrun hcont
    exact ⟨⟨hv ▸ h.core, hi⟩, .of_view h.core hv, hk.mono fun _ => False.elim⟩
  | died st _ => exact .of_view h rfl (modProcess_same s _ rfl rfl)
  | dropped _ _ => exact .of_view h rfl rfl

theorem Moves.spec (hm : Moves E x s s') (h : Good s) : Moved (fun m => E ∧ x.wakes m) s s' := by
  induction hm with
  | refl => exact .refl h
  | tail _ hm ih => exact ih.trans (hm.spec ih.good)

theorem Moves.keeps (hm : Moves E x s s') (h : Good s)
    (hI : ∀ s s', Good s → Move E x s s' → I s → I s') (hs : I s) : I s' := by
  induction hm with
  | refl => exact hs
  | tail h1 hm ih => exact hI _ _ (Moves.spec h1 h).good hm ih

/-! ## Steps -/

/-- The thread `c` begins to wait. The owner of a mutex has its priority by then. -/
inductive Begins (x : Scope) (c : Nat) (s : Kernel) : Kernel → Prop
  | single {d timeout : Nat} (hw : x.sets d) (hx : x.enters .waitObject timeout)
      (hd : d < s.ndisp) (hs : ¬ (s.disp d).signalState > 0)
      (hdon : (s.disp d).type = .mutant → ∀ o ∈ (s.disp d).owner, o ≠ s.idle →
        (s.thread c).priority ≤ (s.thread o).priority) :
      Begins x c s ((s.enqueue c d timeout).suspend .waitObject)
  | multi {objs : List Nat} {waitAll : Bool} {timeout : Nat}
      (hw : ∀ d ∈ objs, x.sets d ∧ d < s.ndisp) (hx : x.enters (.waitMultiple objs waitAll) timeout)
      (hlen : objs.length ≠ 0 ∧ objs.length ≤ waitObjectsMax)
      (hs : waitAll = true ∨ ∀ d ∈ objs, ¬ (s.disp d).signalState > 0) :
      Begins x c s (s.queueMulti c objs waitAll timeout)

/-- The thread `c` is about to end. -/
structure Ending (s : Kernel) (c : Nat) : Prop where
  current : s.current = some c
  running : (s.thread c).state = .running
  idle : c ≠ s.idle
  blocks : s.waitView.NoBlocks c
  owned : (s.thread c).ownedMutexes = []

def endThread (s : Kernel) (c : Nat) (st : StatusCode) : Kernel :=
  s.modThread c fun th => { th with exitStatus := st, state := .terminated }

def leaveProcess (s : Kernel) (p : Nat) : Kernel :=
  s.modProcess p fun x => { x with threadCount := u32 (x.threadCount + (2 ^ 32 - 1)) }

/-- A step: moves, and how it gives up the processor. -/
inductive Stepped (x : Scope) (s : Kernel) : Kernel → Prop
  | moves {s' : Kernel} (h : Moves False x s s') : Stepped x s s'
  | yields {s₁ : Kernel} (h : Moves False x s s₁)
      (hrun : ∀ c ∈ s₁.current, (s₁.thread c).state = .running) : Stepped x s s₁.schedYield
  | waits {s₁ s₂ : Kernel} {c : Nat} (h : Moves False x s s₁)
      (hv : s₁.waitView = s.waitView) (hc : s₁.Caller c) (hi : c ≠ s₁.idle)
      (hk : (s₁.thread c).killPending = false) (hb : Begins x c s₁ s₂) :
      Stepped x s s₂.schedReschedule
  | exits {c : Nat} {st : StatusCode} {s₁ s₂ s₃ : Kernel} (h₁ : Moves True x s s₁)
      (he : s₁.Ending c) (h₂ : Moves True x (s₁.endThread c st) s₂)
      (h₃ : Moves True x (s₂.leaveProcess (s₂.thread c).process) s₃) :
      Stepped x s { s₃ with current := none }.schedReschedule

variable {st : StatusCode}

theorem Begins.good (hb : Begins x c s s2) (h : Good s) (hc : s.Caller c) (hi : c ≠ s.idle) :
    Good s2 ∧ Kept (fun _ => False) s s2 := by
  have hlt := h.lt (t := c) (by rw [hc.running]; simp)
  cases hb with
  | @single d timeout _ _ hd _ _ =>
    refine ⟨⟨enqueue_core h.core hc.running hi d timeout, enqueue_inv h.inv hd hc.current hc.code hlt
      (by rw [hc.running]; simp) timeout⟩, (linkBlock_kept s d (c, .single)).trans ?_⟩
    unfold suspend
    split <;> exact .of_disp rfl rfl rfl rfl
  | multi hw _ _ hs =>
    obtain ⟨h1, hk, hcore⟩ := queueMulti_spec h.inv h.core hc.current hc.running hi hc.code
      (fun d hd => (hw d hd).2) hs _
    exact ⟨⟨hcore, h1⟩, hk⟩

theorem Ending.good (he : s.Ending c) (h : Good s) : Good (s.endThread c st) := by
  refine ⟨?_, ?_⟩
  · rw [endThread, modEnded_view]
    exact h.core.stop (c := c) (by simp [schedView, he.running])
      (h.lt (by rw [he.running]; simp)) he.idle (.inr rfl)
  · rw [Inv, endThread, modThread_waitView]
    exact h.inv.setThread (fun d b hb _ => absurd rfl (he.blocks d _ hb)) (fun hy => h.inv.count c hy)
      rfl (fun _ => ⟨rfl, rfl⟩) (fun _ => he.owned) (fun hle => absurd hle (Nat.not_le.2 (h.lt
        (by rw [he.running]; simp)))) (h.inv.names c)

theorem Good.leaveProcess (h : Good s) (p : Nat) : Good (s.leaveProcess p) :=
  h.of_view rfl (modProcess_same s p rfl rfl)

theorem Good.gone (h : Good s) (hc : s.current = some c)
    (hst : (s.thread c).state = .terminated) : Good { s with current := none } :=
  ⟨h.core.leave (no_running h.core hc (by rw [hst]; simp)), h.inv⟩

theorem Good.suspend (h : Good s) : Good (s.suspend .switched) :=
  ⟨by rw [suspend_view]; exact h.core, (suspend_quiet h.inv).inv⟩

theorem Good.ticks (h : Good s) (n : Nat) : Good { s with ticks := n } := ⟨h.core, h.inv⟩

theorem Moved.running (h : Moved D s s') (hrun : (s.thread c).state = .running) :
    (s'.thread c).state = .running := by
  rcases h.woken.state c with he | ⟨hs, -⟩
  · exact he.trans hrun
  · rw [hrun] at hs
    simp at hs

theorem Moved.terminated (h : Moved D s s') (hst : (s.thread c).state = .terminated) :
    (s'.thread c).state = .terminated := by
  rcases h.woken.state c with he | ⟨hs, -⟩
  · exact he.trans hst
  · rw [hst] at hs
    simp at hs

theorem Ending.gone (he : s.Ending c) (h : Good s) (h2 : Moves E x (s.endThread c st) s2)
    (h3 : Moves E x (s2.leaveProcess (s2.thread c).process) s3) :
    Good { s3 with current := none } := by
  have hm2 := h2.spec (he.good h)
  have hm3 := h3.spec (hm2.good.leaveProcess _)
  have hst : ((s.endThread c st).thread c).state = .terminated := by simp [endThread, modThread]
  exact hm3.good.gone (hm3.woken.current.trans (hm2.woken.current.trans he.current))
    (hm3.terminated (hm2.terminated hst))

/-- What holds after a step, if `I` holds between its moves. -/
theorem Stepped.keeps {J : Kernel → Prop} (hs : Stepped x s s') (h : Good s)
    (hmove : ∀ E s s', Good s → Move E x s s' → I s → I s')
    (hend : ∀ s c st, Good s → s.Ending c → I s → I (s.endThread c st))
    (hleave : ∀ s p, I s → I (s.leaveProcess p)) (hIJ : ∀ s, I s → J s)
    (hsuspend : ∀ s, Good s → I s → J (s.suspend .switched))
    (hbegin : ∀ s1 c s2, Good s1 → s1.waitView = s.waitView → s1.current = s.current → s1.Caller c →
      Begins x c s1 s2 → I s1 → J s2) (hgone : ∀ s, I s → J { s with current := none })
    (hswitch : ∀ s, Good s → J s → J s.schedReschedule) (hI : I s) : J s' := by
  cases hs with
  | moves h1 => exact hIJ _ (h1.keeps h (hmove _) hI)
  | yields h1 _ =>
    have hg := (h1.spec h).good
    exact hswitch _ hg.suspend (hsuspend _ hg (h1.keeps h (hmove _) hI))
  | waits h1 hv hc hi _ hb =>
    have hm := h1.spec h
    exact hswitch _ (hb.good hm.good hc hi).1
      (hbegin _ _ _ hm.good hv hm.woken.current hc hb (h1.keeps h (hmove _) hI))
  | exits h1 he h2 h3 =>
    have hg := (h1.spec h).good
    have hm2 := h2.spec (he.good hg)
    refine hswitch _ (he.gone hg h2 h3) (hgone _ (h3.keeps (hm2.good.leaveProcess _) (hmove _) ?_))
    exact hleave _ _ (h2.keeps (he.good hg) (hmove _) (hend _ _ _ hg he (h1.keeps h (hmove _) hI)))

theorem Good.unnest (h : Good s) (hm : m < s.ndisp) (ho : (s.disp m).owner = some c)
    (hr : 1 < (s.disp m).recursion) :
    Good (s.modDisp m fun x => { x with recursion := x.recursion - 1 }) := by
  refine ⟨h.core, ?_⟩
  rw [Inv, modDisp_waitView]
  refine h.inv.setDisp rfl (fun b hb => h.inv.holds _ b hb) fun hty hx => ?_
  rcases h.inv.mutex _ hm hty hx with ⟨h1, -⟩ | ⟨t, h1, h2, h3, h4, h5, h6, h7⟩
  · rw [show (s.disp _).owner = none from h1] at ho
    cases ho
  · refine .inr ⟨t, ?_, h2, h3, ?_, ?_, h6, h7⟩
    · simpa [WaitView.setDisp, waitView] using h1
    · simp only [WaitView.setDisp, Function.update_self]
      omega
    · simpa [WaitView.setDisp, waitView] using h5

theorem Stepped.inv (hs : Stepped x s s') (h : Good s) : Inv none none s' := by
  cases hs with
  | moves h1 => exact (h1.spec h).good.inv
  | yields h1 _ =>
    have hg := (h1.spec h).good.suspend
    exact schedReschedule_inv hg.inv hg.core
  | waits h1 _ hc hi _ hb =>
    have hg := (hb.good (h1.spec h).good hc hi).1
    exact schedReschedule_inv hg.inv hg.core
  | exits h1 he h2 h3 =>
    have hg := he.gone (h1.spec h).good h2 h3
    exact schedReschedule_inv hg.inv hg.core

/-- Only the end of a thread takes a mutex from its owner. -/
theorem Stepped.kept (hs : Stepped x s s') (h : Good s) : Kept (fun _ => False) s s' ∨
    ∃ c, s.current = some c ∧ (s'.thread c).state = .terminated ∧ Kept x.wakes s s' := by
  have hplain : ∀ {s1}, Moves False x s s1 → Kept (fun _ => False) s s1 := fun h1 =>
    (h1.spec h).kept.mono fun _ => And.left
  cases hs with
  | moves h1 => exact .inl (hplain h1)
  | yields h1 _ =>
    have hq := suspend_quiet (h1.spec h).good.inv
    exact .inl ((hplain h1).trans (hq.kept.trans (schedReschedule_kept _)))
  | waits h1 _ hc hi _ hb =>
    have hk := (hb.good (h1.spec h).good hc hi).2
    exact .inl ((hplain h1).trans (hk.trans (schedReschedule_kept _)))
  | @exits c st s1 s2 s3 h1 he h2 h3 =>
    have hm1 := h1.spec h
    have hm2 := h2.spec (he.good hm1.good)
    have hm3 := h3.spec (hm2.good.leaveProcess _)
    have hst : ((s1.endThread c st).thread c).state = .terminated := by simp [endThread, modThread]
    refine .inr ⟨c, hm1.woken.current.symm.trans he.current, ?_, ?_⟩
    · have hst3 : ({ s3 with current := none }.thread c).state = .terminated :=
        hm3.terminated (hm2.terminated hst)
      rw [schedReschedule_state (he.gone hm1.good h2 h3).core (by rw [hst3]; simp)
        (by rw [hst3]; simp)]
      exact hst3
    · have hend : Kept (fun m => True ∧ x.wakes m) s1 (s1.endThread c st) := .of_disp rfl rfl rfl rfl
      have hleave : Kept (fun m => True ∧ x.wakes m) s2 (s2.leaveProcess (s2.thread c).process) :=
        .of_disp rfl rfl rfl rfl
      have hgone : Kept (fun m => True ∧ x.wakes m) s3 { s3 with current := none } :=
        .of_disp rfl rfl rfl rfl
      have hk := (hm1.kept.trans hend).trans ((hm2.kept.trans hleave).trans
        ((hm3.kept.trans hgone).trans (schedReschedule_kept _)))
      exact hk.mono fun _ => And.right

end Kernel

end Aegis
