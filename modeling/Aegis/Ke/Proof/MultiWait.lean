import Aegis.Ke.Proof.MultiCall

/-!
# What a wait for several objects returns

A `WAIT_ALL` returns `STATUS_SUCCESS` after the first wakeup, whatever the other objects are, so it is
right only if they were there then and are left alone until it goes on (`waitAll_exact`). The blocks
of a `WAIT_ANY` stay linked until its thread runs, so that a second signal goes to it as well
(`waitAny_exact_iff`).
-/

namespace Aegis

variable {timeout : Nat} {s2 : Kernel} {w : WaitSys} {objs : List Nat} {b : Nat × Nat}
  {c : Nat × List Nat}

namespace Kernel

variable {s s' : Kernel} {t : Nat}
variable {d : Nat} {s2 : Kernel} {st : StatusCode}

/-! ## Taking objects -/

theorem tryWait_other (s : Kernel) (t : Nat) {e : Nat} (he : e ≠ d) :
    (s.tryWait t d).2.disp e = s.disp e := by
  unfold tryWait
  split
  · split
    · simp [modDisp, he]
    · split
      · simp [keMutexOwn, keMutexDisown, modThread, modDisp, he]
      · exact congrFun (congrArg WaitView.disp (mutexDonate_same s d t)) e
  · split
    · simp only
      split
      · simp [modDisp, he]
      · rfl
    · rfl

theorem tryWait_held (hty : (s.disp d).type = .mutant) :
    (s.tryWait t d).2.held t d = s.held t d + if s.dispSatisfied d t = true then 1 else 0 := by
  unfold tryWait dispSatisfied
  by_cases ho : (s.disp d).owner = some t
  · simp [hty, ho, held, modDisp]
  · by_cases hs : (s.disp d).signalState > 0
    · simp [hty, ho, hs, held, keMutexOwn, keMutexDisown, modThread, modDisp]
    · have hd : (s.mutexDonate d t).disp = s.disp := congrArg WaitView.disp (mutexDonate_same s d t)
      simp [hty, ho, hs, held, hd]

theorem dispSatisfied_congr (hty : (s'.disp d).type = (s.disp d).type)
    (ho : (s'.disp d).owner = (s.disp d).owner)
    (hs : (s'.disp d).signalState = (s.disp d).signalState) :
    s'.dispSatisfied d t = s.dispSatisfied d t := by
  unfold dispSatisfied
  rw [hty, ho, hs]

theorem takeAll_other (t : Nat) (objs : List Nat) (hd : d ∉ objs) :
    (takeAll t objs s).disp d = s.disp d := by
  induction objs generalizing s with
  | nil => rfl
  | cons e es ih =>
    simp only [List.mem_cons, not_or] at hd
    exact (ih hd.2).trans (tryWait_other s t hd.1)

/-- Distinct objects are taken independently of each other. -/
theorem takeAll_held {objs : List Nat} (hnd : objs.Nodup) (hd : d ∈ objs)
    (hty : (s.disp d).type = .mutant) :
    (takeAll t objs s).held t d = s.held t d + if s.dispSatisfied d t = true then 1 else 0 := by
  induction objs generalizing s with
  | nil => cases hd
  | cons e es ih =>
    obtain ⟨hne, hes⟩ := List.nodup_cons.1 hnd
    by_cases hde : d = e
    · subst hde
      refine Eq.trans ?_ (tryWait_held hty)
      unfold held
      rw [show takeAll t (d :: es) s = takeAll t es (s.tryWait t d).2 from rfl,
        takeAll_other t es hne]
    · have hsame := tryWait_other s t hde
      refine (ih hes ((List.mem_cons.1 hd).resolve_left hde) (by rwa [hsame])).trans ?_
      rw [dispSatisfied_congr (s := s) (by rw [hsame]) (by rw [hsame]) (by rw [hsame])]
      unfold held
      rw [hsame]

theorem tryWait_some (hr : (s.tryWait t d).1 = some st) :
    (st = statusSuccess ∨ st = statusAbandoned) ∧ s.dispSatisfied d t = true ∧
      ((s.disp d).type = .synchronizationEvent → ((s.tryWait t d).2.disp d).signalState = 0) := by
  unfold tryWait at hr ⊢
  unfold dispSatisfied
  by_cases hty : (s.disp d).type = .mutant
  · by_cases ho : (s.disp d).owner = some t
    · simp only [hty, ho, if_true, Option.some.injEq] at hr
      simp [hty, ho, hr.symm]
    · by_cases hs : (s.disp d).signalState > 0
      · simp only [hty, ho, hs, if_true, if_false, Option.some.injEq] at hr
        have hst : st = statusSuccess ∨ st = statusAbandoned := by
          rw [← hr]
          split
          · exact .inr rfl
          · exact .inl rfl
        simp [hty, ho, hs, hst]
      · simp [hty, ho, hs] at hr
  · by_cases hs : (s.disp d).signalState > 0
    · simp only [hty, hs, if_true, if_false, Option.some.injEq] at hr
      by_cases hsy : (s.disp d).type = .synchronizationEvent
      · simp [hsy, hs, modDisp, hr.symm]
      · simp [hty, hs, hsy, hr.symm]
    · simp [hty, hs] at hr

theorem tryAny_some (objs : List Nat) (i : Nat) (hr : (tryAny t i objs s).1 = some st) :
    ∃ (j d : Nat) (s1 : Kernel) (st1 : StatusCode), objs[j]? = some d ∧
      s1.disp = s.disp ∧ (s1.tryWait t d).1 = some st1 ∧
      (tryAny t i objs s).2 = (s1.tryWait t d).2 ∧
      st = if st1 = statusSuccess then i + j else st1 := by
  induction objs generalizing s i with
  | nil => cases hr
  | cons d ds ih =>
    unfold tryAny at hr ⊢
    cases hn : (s.tryWait t d).1 with
    | some st1 =>
      simp only [hn] at hr ⊢
      exact ⟨0, d, s, st1, rfl, rfl, hn, rfl, (Option.some.inj hr).symm⟩
    | none =>
      simp only [hn] at hr ⊢
      obtain ⟨j, e, s1, st1, hj, hs1, h1, h2, h3⟩ := ih (i + 1) hr
      refine ⟨j + 1, e, s1, st1, by simpa using hj, hs1.trans ?_, h1, h2, ?_⟩
      · exact congrArg WaitView.disp (tryWait_none hn)
      · rw [h3, show i + 1 + j = i + (j + 1) by omega]

/-! ## Objects that a step leaves alone -/

/-- What decides for whom `d` is satisfied. -/
def dispState (s : Kernel) (d : Nat) : Option Nat × Int := ((s.disp d).owner, (s.disp d).signalState)

section
variable {e m c : Nat} {E : Prop} {x : Scope} {op : KeOp}

theorem schedReady_state (s : Kernel) (u e : Nat) : (s.schedReady u).dispState e = s.dispState e := by
  rw [dispState, schedReady_disp, dispState]

theorem dispWakeOne_state (he : e ≠ d) (s : Kernel) :
    (s.dispWakeOne d st).dispState e = s.dispState e := by
  refine (Rule.of_view (dispState · e)).dispWakeOne (fun _ _ _ => rfl) (fun s t a _ => ?_)
    (fun s t _ => schedReady_state s t e) s
  simp [dispState, giveMutex, keMutexOwn, keMutexDisown, modThread, modDisp, he]

theorem expire_state (s : Kernel) (u e : Nat) : (s.expire u).dispState e = s.dispState e := by
  unfold expire expireMulti expireSingle
  split
  · rfl
  · split
    · rfl
    · split
      · refine (schedReady_state ..).trans ?_
        refine (Rule.of_view (dispState · e)).foldl _ (fun k _ s => ?_) s
        split <;> rfl
      · refine (schedReady_state ..).trans ?_
        split <;> rfl

theorem Move.state (hm : Move E x s s') (hw : ¬ x.wakes e) (hx : ¬ x.sets e) :
    s'.dispState e = s.dispState e := by
  have hne : ∀ {d}, x.wakes d ∨ x.sets d → e ≠ d := by
    rintro d hd rfl
    exact hd.elim hw hx
  cases hm with
  | signal f hd _ => simp [dispState, modDisp, hne hd]
  | wake hd _ => exact dispWakeOne_state (hne (.inl hd)) s
  | abandon _ hd _ _ _ _ =>
    have he := hne (.inl hd)
    unfold Kernel.abandon
    simp only
    split
    · refine (dispWakeOne_state he _).trans ?_
      simp [dispState, keMutexDisown, modDisp, he]
    · simp [dispState, keMutexDisown, modDisp, he]
  | take hd _ _ => rw [dispState, tryWait_other s _ (hne (.inr hd)), dispState]
  | boost q _ _ => exact (schedBoost_reprio s _ q).view (v := (dispState · e)) fun _ _ _ _ _ => rfl
  | unlink _ =>
    exact (Rule.of_view (dispState · e)).threadUnlinkWaits (fun _ _ => rfl) (fun _ _ => rfl)
      (fun _ => rfl) s
  | ready _ _ => exact schedReady_state s _ e
  | expire u _ => exact expire_state s u e
  | quantum _ _ =>
    unfold useQuantum
    split
    · simp only
      split <;> rfl
    · rfl
  | @finish c objs _ _ _ _ _ =>
    obtain ⟨l, hl⟩ := unlinkBlocks_disp c objs.length (s.modThread c fun th => { th with cont := .code }) e
    show (((unlinkBlocks c objs.length _).disp e).owner,
      ((unlinkBlocks c objs.length _).disp e).signalState) = _
    rw [hl]
    rfl
  | kill | timers | goOn | died | dropped => rfl

theorem linkBlock_state (s : Kernel) (b : Nat × BlockId) :
    (s.linkBlock d b).dispState e = s.dispState e := by
  by_cases he : e = d
  · simp [dispState, linkBlock, modDisp, he]
  · simp [dispState, linkBlock, modDisp, he]

theorem enqueueMulti_state (waitAll : Bool) (objs : List Nat) (i : Nat) (s : Kernel) :
    (enqueueMulti t waitAll i objs s).2.dispState e = s.dispState e := by
  induction objs generalizing s i with
  | nil => rfl
  | cons d ds ih =>
    unfold enqueueMulti
    simp only
    split
    · rfl
    · refine (ih _ _).trans ((linkBlock_state _ _).trans ?_)
      split
      · exact (mutexDonate_reprio _ d t).view (v := (dispState · e)) fun _ _ _ _ _ => rfl
      · rfl

theorem suspend_state (s : Kernel) (k : Cont) : (s.suspend k).dispState e = s.dispState e := by
  unfold suspend
  split <;> rfl

theorem Stepped.state (hs : Stepped x s s') (hg : Good s) (hw : ¬ x.wakes e) (hx : ¬ x.sets e) :
    s'.dispState e = s.dispState e := by
  refine hs.keeps (I := fun s₁ => s₁.dispState e = s.dispState e)
    (J := fun s₁ => s₁.dispState e = s.dispState e) hg
    (fun _ _ _ _ hm h => (hm.state hw hx).trans h) (fun _ _ _ _ _ h => h) (fun _ _ h => h)
    (fun _ => id) (fun s _ h => (suspend_state s _).trans h) (fun s1 c s2 _ _ _ _ hb h => ?_)
    (fun _ h => h) (fun s _ h => ?_) rfl
  · refine Eq.trans ?_ h
    cases hb with
    | single _ _ _ _ _ =>
      exact (suspend_state _ _).trans (linkBlock_state (s1.modThread c _) _)
    | multi _ _ _ _ =>
      exact (suspend_state _ _).trans (enqueueMulti_state _ _ 0 (s1.modThread c _))
  · exact ((Rule.of_view (dispState · e)).schedReschedule (fun _ _ => rfl) (fun _ _ _ => rfl)
      (fun _ _ => rfl) (fun _ _ => rfl) s).trans h

theorem releaseLast_state (he : e ≠ m) (s : Kernel) (c : Nat) :
    (s.releaseLast m c).dispState e = s.dispState e := by
  unfold releaseLast
  refine ((unboost_reprio _ c).view (v := (dispState · e)) fun _ _ _ _ _ => rfl).trans ?_
  split
  · simp [dispState, keMutexDisown, modDisp, he]
  · refine (dispWakeOne_state he _).trans ?_
    simp [dispState, keMutexDisown, modDisp, he]

/-- A step keeps the types of the objects, and the states of those that it does not touch. -/
theorem keStep_state (hg : Good s) (hrun : ∀ c ∈ s.current, (s.thread c).state = .running)
    (hok : KeOk s op) (hro : ReadyOk s op) (hs : keStep s op = some s') :
    s.nthread ≤ s'.nthread ∧ ∀ d < s.ndisp, (s'.disp d).type = (s.disp d).type ∧
      (¬ s.Touches op d → s'.dispState d = s.dispState d) := by
  cases hnew : op.creates with
  | true =>
    have hc := keStep_created (t := 0) hnew hs
    refine ⟨hc.nthread, fun d hd => ?_⟩
    rw [dispState, hc.eq hd, dispState]
    exact ⟨rfl, fun _ => rfl⟩
  | false =>
    rcases keStep_stepped hg hrun hok hro hnew hs with hst | ⟨m, c, rfl, hm, hcase⟩
    · obtain ⟨n, hn⟩ := s.advance_eq op
      rw [hn] at hst
      have hstate := fun d (hd : ¬ s.Touches op d) =>
        hst.state (e := d) (hg.ticks n) (fun h => hd (.inl h)) fun h => hd (.inr h)
      rcases hst.kept (hg.ticks n) with hk | ⟨-, -, -, hk⟩
      · exact ⟨hk.nthread.ge, fun d _ => ⟨hk.type d, hstate d⟩⟩
      · exact ⟨hk.nthread.ge, fun d _ => ⟨hk.type d, hstate d⟩⟩
    · rcases hcase with ⟨-, rfl⟩ | ⟨hone, rfl⟩
      · refine ⟨le_rfl, fun d _ => ?_⟩
        by_cases hdm : d = m <;> simp [dispState, modDisp, hdm]
      · have hk := (hg.releaseLast hm.lt hm.mutex c).kept
        refine ⟨hk.nthread.ge, fun d _ => ⟨hk.type d, fun hd => releaseLast_state ?_ s c⟩⟩
        rintro rfl
        exact hd (.inl (by simp [signaled, hm.caller.current, hm.owner, hone]))

end

/-! ## The index that is returned -/

theorem whichWoken_succ (s : Kernel) (t n : Nat) : whichWoken (s.thread t) (n + 1) =
    if s.BlockWoken t n then n else whichWoken (s.thread t) n := rfl

theorem whichWoken_spec {n : Nat} (hw : ∃ i < n, s.BlockWoken t i) :
    whichWoken (s.thread t) n < n ∧ s.BlockWoken t (whichWoken (s.thread t) n) ∧
      ∀ i < n, s.BlockWoken t i → i ≤ whichWoken (s.thread t) n := by
  induction n with
  | zero =>
    obtain ⟨i, hi, -⟩ := hw
    exact absurd hi (Nat.not_lt_zero _)
  | succ n ih =>
    by_cases hn : s.BlockWoken t n
    · rw [whichWoken_succ, if_pos hn]
      exact ⟨Nat.lt_succ_self n, hn, fun i hi _ => Nat.lt_succ_iff.1 hi⟩
    · rw [whichWoken_succ, if_neg hn]
      have hne : ∀ i < n + 1, s.BlockWoken t i → i < n := by
        intro i hi hwi
        rcases Nat.lt_succ_iff_lt_or_eq.1 hi with hi | rfl
        · exact hi
        · exact absurd hwi hn
      obtain ⟨i, hi, hwi⟩ := hw
      obtain ⟨h1, h2, h3⟩ := ih ⟨i, hne i hi hwi, hwi⟩
      exact ⟨Nat.lt_succ_of_lt h1, h2, fun j hj hwj => h3 j (hne j hj hwj) hwj⟩

theorem goesOn_eq_some {waitAll : Bool} {c : Nat × List Nat} :
    s.goesOn waitAll = some c ↔ s.current = some c.1 ∧
      (s.thread c.1).cont = .waitMultiple c.2 waitAll ∧ (s.thread c.1).killPending = false := by
  unfold goesOn
  constructor
  · intro h
    split at h
    · cases h
    · next t hc =>
      split at h
      · next objs all hcont =>
        split at h
        · next hk =>
          cases h
          exact ⟨hc, by rw [hcont, hk.1], hk.2⟩
        · cases h
      all_goals cases h
  · intro h
    simp [h.1, h.2.1, h.2.2]

theorem Back.held (h : Back s s2) (d : Nat) : s2.held t d = s.held t d := by
  obtain ⟨l, hl⟩ := h d
  unfold Kernel.held
  rw [hl]

theorem Back.satisfied (h : Back s s2) (d : Nat) : s2.dispSatisfied d t = s.dispSatisfied d t := by
  obtain ⟨l, hl⟩ := h d
  exact dispSatisfied_congr (by rw [hl]) (by rw [hl]) (by rw [hl])

end Kernel

/-! ## Runs -/

open Kernel

/-- Every reachable state. -/
structure WaitSys.Inv (w : WaitSys) : Prop where
  ready : ReadyInv w.ke
  waits : Kernel.Inv none none w.ke
  calls : ∀ t, CallInv (w.base t) (w.ke.blockView t)

theorem waitStep_inv {w' : WaitSys} {op : KeOp} (h : w.Inv) (hok : WaitOk w op)
    (hr : waitStep w op = some w') : w'.Inv := by
  obtain ⟨s', hs, he⟩ := Option.map_eq_some_iff.1 hr
  have hke : w'.ke = s' := by rw [← he]
  refine ⟨?_, ?_, fun t => waitStep_call h.waits h.ready hok (h.calls t) hr⟩
  · rw [hke]
    exact keStep_readyInv w.ke op s' h.ready hok.1 hs
  · rw [hke]
    exact (keStep_mutex h.waits h.ready hok.1 hok.2 hs).1

theorem init_inv : WaitSys.init.Inv := by
  refine ⟨schedInit_readyInv, schedInit_inv, fun t => ?_⟩
  have h1 : CallInv (fun _ => 0) (blank.pspCreateProcess.blockView t) := fun _ _ hc => by cases hc
  rcases (pspCreateThread_created blank.pspCreateProcess 0 priorityIdle false).view (t := t) with ho | hv
  · exact .of_out ho.out
  · exact h1.grow hv

/-! ## Woken threads -/

/-- What is known of the objects of the `WAIT_ALL` that a thread is in once it has been woken: `M` of
those that have woken it, `P` of the others. -/
def CallReady (N : Prop) (M P : Nat → Prop) (v : BlockView) : Prop :=
  ∀ objs, v.thread.cont = .waitMultiple objs true → v.thread.killPending = false → objs.Nodup →
    N ∧ (v.thread.wait.wakeStatus ≠ statusTimeout →
      ∀ (i d : Nat), objs[i]? = some d → v.Woken i ∧ M d ∨ ¬ v.Woken i ∧ P d)

/-- The objects that a woken `WAIT_ALL` of `t` has not been woken by are there to take, and no mutex has
woken it. -/
def Kernel.AllReady (s : Kernel) (t : Nat) : Prop :=
  CallReady (t < s.nthread) (fun d => (s.disp d).type ≠ .mutant)
    (fun d => s.dispSatisfied d t = true) (s.blockView t)

/-- The call, if the thread is in one, is that for `l`. -/
structure Still (base : Nat → Nat) (l : List Nat) (N : Prop) (M P : Nat → Prop) (v : BlockView) :
    Prop where
  call : CallInv base v
  ready : CallReady N M P v
  objs : ∀ objs, v.thread.cont = .waitMultiple objs true → v.thread.killPending = false →
    objs.Nodup → objs = l

section
variable {base : Nat → Nat} {l : List Nat} {N : Prop} {M P : Nat → Prop} {v v' : BlockView}

theorem Still.of_out (base : Nat → Nat) (l : List Nat) (h : v.Out) : Still base l N M P v := by
  have hno : ∀ objs, v.thread.cont = .waitMultiple objs true → v.thread.killPending ≠ false := by
    intro objs hcont hk
    rcases h with hkp | ⟨-, hno⟩
    · rw [hk] at hkp
      cases hkp
    · exact hno objs true hcont
  exact ⟨.of_out h, fun objs hc hk => absurd hk (hno objs hc), fun objs hc hk => absurd hk (hno objs hc)⟩

theorem Still.grow (hg : v.Grown v') (h : Still base l N M P v) : Still base l N M P v' := by
  have hth := hg.thread
  refine ⟨h.call.grow hg, ?_, by rw [hth]; exact h.objs⟩
  unfold CallReady BlockView.Woken
  rw [hth]
  exact h.ready

theorem Still.wake {b : BlockId} {d : Nat} {st : StatusCode} (hl : v.linked d b)
    (hst : st ≠ statusTimeout) (hty : v.type d = .mutant → v.held d = 0)
    (hd : d ∈ l → M d ∧ ∀ e ∈ l, e ≠ d → P e) (h : Still base l N M P v) :
    Still base l N M P (v.wake b d st) := by
  refine ⟨h.call.wake hl hst hty, fun objs hcont hk hnd => ⟨(h.ready objs hcont hk hnd).1, ?_⟩, h.objs⟩
  have hin := h.call objs true hcont hk
  obtain ⟨i, rfl, hobj, -⟩ := hin.linked d _ hl
  obtain rfl := h.objs objs hcont hk hnd
  obtain ⟨hM, hP⟩ := hd (List.mem_of_getElem? hobj)
  intro _ j e hje
  by_cases hji : j = i
  · subst hji
    rw [hobj] at hje
    cases hje
    exact .inl ⟨by simpa [BlockView.Woken, BlockView.wake] using hst, hM⟩
  · have hsame : (v.wake (.multi i) d st).Woken j ↔ v.Woken j := by
      simp [BlockView.Woken, BlockView.wake, Ne.symm hji]
    rw [hsame]
    by_cases hw : v.Woken j
    · have hjlt := (List.getElem?_eq_some_iff.1 hje).1
      exact (h.ready objs hcont hk hnd).2 (fun hs => hin.status.1 hs j hjlt hw) j e hje
    · refine .inr ⟨hw, hP e (List.mem_of_getElem? hje) ?_⟩
      rintro rfl
      exact hji ((List.getElem?_inj (List.getElem?_eq_some_iff.1 hje).1 hnd).1 (hje.trans hobj.symm))

theorem Still.expire (hw : v.thread.waiting) (ht : v.TimedOut v') (h : Still base l N M P v) :
    Still base l N M P v' := by
  have hcall := h.call.expire hw ht
  refine ⟨hcall, fun objs hcont hk hnd => ?_, by rw [ht.cont, ht.killPending]; exact h.objs⟩
  rw [ht.cont] at hcont
  rw [ht.killPending] at hk
  refine ⟨(h.ready objs hcont hk hnd).1, fun hne => absurd ?_ hne⟩
  have hno := (h.call objs true hcont hk).waiting hw
  refine (hcall objs true (ht.cont.trans hcont) (ht.killPending.trans hk)).status.2 fun i hi => ?_
  rw [BlockView.Woken, ht.multi]
  exact hno i hi

theorem readyRule (base : Nat → Nat) (l : List Nat) {s : Kernel} {t : Nat} {x : Scope}
    (hcur : s.current = some t → N)
    (hsig : ∀ d ∈ l, x.wakes d → M d ∧ ∀ e ∈ l, e ≠ d → P e) :
    ViewRule s t x (Still base l N M P) (CallReady N M P) where
  left _ _ h _ := .of_out base l h.out
  wake _ _ d _ hd hl hst hty := .wake hl hst hty fun hdl => hsig d hdl hd
  expire _ _ _ he ht := .expire he.1 ht
  done _ := Still.ready
  single _ _ _ _ _ _ _ := fun _ hc => by cases hc
  multi _ _ _ _ hc _ _ _ _ _ := fun _ _ _ _ => ⟨hcur hc, fun hne => absurd rfl hne⟩

end

/-! ## All objects -/

theorem waitAll_now : AllExact w (.waitMultiple objs true timeout) := by
  intro t ht hnd s' hr d hd
  have hc : w.ke.current = some t := ht
  unfold keWaitMultiple at hr
  split at hr
  · cases hr
  · simp only [hc] at hr
    split at hr
    · simp only [Outcome.bind_eq_ok] at hr
      obtain ⟨s1, -, hr2⟩ := hr
      cases hr2
    · simp only [if_true] at hr
      split at hr
      · next hall =>
        cases hr
        have hsat := List.all_eq_true.1 hall d hd
        refine ⟨hsat, fun hty => ?_⟩
        rw [takeAll_held hnd hd hty, if_pos hsat]
      · split at hr
        · cases hr
        · rw [waitSlow_eq timeout (.inl rfl)] at hr
          cases hr

/-- An object of the call is satisfied, and acquired once if it is a mutex: it has woken the thread and
is no mutex, or it is there for the second pass. -/
theorem waitAll_object (h : w.Inv) (hg : w.ke.goesOn true = some c) (hnd : c.2.Nodup)
    (hB : Back w.ke s2) (hb : b ∈ c.2.zipIdx)
    (hok : w.ke.BlockWoken c.1 b.2 ∧ (w.ke.disp b.1).type ≠ .mutant ∨
      ¬ w.ke.BlockWoken c.1 b.2 ∧ w.ke.dispSatisfied b.1 c.1 = true) :
    (w.ke.BlockWoken c.1 b.2 ∨ w.ke.dispSatisfied b.1 c.1 = true) ∧
      ((w.ke.disp b.1).type = .mutant →
        (takeAll c.1 c.2 s2).held c.1 b.1 = w.base c.1 b.1 + 1) := by
  obtain ⟨-, hcont, hk⟩ := goesOn_eq_some.1 hg
  have hbi : c.2[b.2]? = some b.1 := List.mem_zipIdx_iff_getElem?.1 hb
  have hmem := List.mem_of_getElem? hbi
  rcases hok with ⟨hw, hty⟩ | ⟨hw, hsat⟩
  · exact ⟨.inl hw, fun hm => absurd hm hty⟩
  · refine ⟨.inr hsat, fun hty => ?_⟩
    obtain ⟨l, hl⟩ := hB b.1
    rw [takeAll_held hnd hmem (by rw [hl]; exact hty), hB.held, hB.satisfied, if_pos hsat]
    rcases (h.calls c.1 c.2 true hcont hk).held b.1 hmem with he | ⟨i, hi, hwi⟩
    · exact congrArg (· + 1) he
    · have hib : i = b.2 := (List.getElem?_inj (List.getElem?_eq_some_iff.1 hi).1 hnd).1
        (hi.trans hbi.symm)
      exact absurd (hib ▸ hwi) hw

theorem allExact_of_ready (h : w.Inv) (hr : ∀ t, w.ke.AllReady t) (op : KeOp) : AllExact w op := by
  cases op with
  | waitMultiple objs waitAll timeout =>
    cases waitAll with
    | true => exact waitAll_now
    | false => trivial
  | resume =>
    intro c hg hnd s' hres b hb
    obtain ⟨hc, hcont, hk⟩ := goesOn_eq_some.1 hg
    obtain ⟨s2, hB, he⟩ := resume_back hc hk hcont
    by_cases hst : (w.ke.thread c.1).wait.wakeStatus = statusTimeout
    · rw [he, if_pos hst] at hres
      cases hres
    · rw [he, if_neg hst] at hres
      cases hres
      exact waitAll_object h hg hnd hB hb ((hr c.1 c.2 hcont hk hnd).2 hst b.2 b.1
        (List.mem_zipIdx_iff_getElem?.1 hb))
  | _ => trivial

theorem mem_waitsAll {s : Kernel} {t d : Nat} (hd : d ∈ s.waitsAll t) :
    ∃ objs, (s.thread t).cont = .waitMultiple objs true ∧ (s.thread t).killPending = false ∧
      objs.Nodup ∧ d ∈ objs := by
  unfold waitsAll at hd
  split at hd
  · next objs hcont =>
    split at hd
    · next hk => exact ⟨objs, hcont, hk.1, hk.2, hd⟩
    · cases hd
  · cases hd

theorem keStep_ready {s s' : Kernel} {op : KeOp} {t : Nat} {base : Nat → Nat} (hready : ReadyInv s)
    (hwaits : Kernel.Inv none none s) (hcall : CallInv base (s.blockView t)) (hok : KeOk s op)
    (hro : ReadyOk s op) (hr : s.AllReady t) (ha : t < s.nthread →
      (op.isResume = true → s.current ≠ some t) → ∀ d ∈ s.waitsAll t, s.Spares op t d)
    (hs : keStep s op = some s') : s'.AllReady t := by
  have hg : Good s := ⟨hready.core, hwaits⟩
  by_cases hown : op.isResume = true ∧ s.current = some t ∧ (s.thread t).killPending = false
  · -- the thread goes on, and is in no wait then
    obtain ⟨hop, hc, hk⟩ := hown
    cases op with
    | resume =>
      obtain ⟨⟨r, s1⟩, hres, rfl⟩ := Option.map_eq_some_iff.1 hs
      intro objs hcont
      exact absurd ((resume_goes_on hc hk (Outcome.get?_eq_some.1 hres)).2.symm.trans hcont) nofun
    | _ => cases hop
  have hspares : ∀ objs, (s.thread t).cont = .waitMultiple objs true →
      (s.thread t).killPending = false → objs.Nodup →
      objs = s.waitsAll t ∧ ∀ d ∈ objs, d < s.ndisp ∧ s.Spares op t d := by
    intro objs hcont hk hnd
    have hobjs : s.waitsAll t = objs := by simp [waitsAll, hcont, hk, hnd]
    refine ⟨hobjs.symm, fun d hd => ⟨hwaits.names t objs true hcont d hd, ?_⟩⟩
    exact ha (hr objs hcont hk hnd).1 (fun hop hc => hown ⟨hop, hc, hk⟩) d (hobjs ▸ hd)
  have hJ : CallReady (t < s.nthread) (fun d => d < s.ndisp ∧ (s.disp d).type ≠ .mutant)
      (fun d => d < s.ndisp ∧ s.dispSatisfied d t = true ∧ ¬ s.Touches op d) (s'.blockView t) := by
    obtain ⟨n, hn⟩ := s.advance_eq op
    refine keStep_view (readyRule base (s.waitsAll t) ?_ fun d hd hsig => ?_)
      (fun _ _ => Still.grow) hg hready.runs hok hro hs ?_
    · rw [hn]
      exact fun hc => hg.lt (by rw [hready.runs t hc]; simp)
    · obtain ⟨objs, hcont, hk, hnd, hd⟩ := mem_waitsAll hd
      obtain ⟨hobjs, hsp⟩ := hspares objs hcont hk hnd
      obtain ⟨hty, hothers⟩ := (hsp d hd).2.2 hsig
      exact ⟨⟨(hsp d hd).1, hty⟩, fun e he hne => ⟨(hsp e (hobjs ▸ he)).1, hothers e he hne⟩⟩
    · rw [hn]
      refine Still.grow (v := s.blockView t) ⟨rfl, fun _ _ => id, fun _ _ => rfl, fun _ _ => rfl, le_rfl⟩
        ⟨hcall, fun objs hcont hk hnd => ⟨(hr objs hcont hk hnd).1, fun hne i d hi => ?_⟩,
          fun objs hcont hk hnd => (hspares objs hcont hk hnd).1⟩
      obtain ⟨hlt, hsp⟩ := (hspares objs hcont hk hnd).2 d (List.mem_of_getElem? hi)
      rcases (hr objs hcont hk hnd).2 hne i d hi with ⟨hw, hty⟩ | ⟨hw, hsat⟩
      · exact .inl ⟨hw, hlt, hty⟩
      · exact .inr ⟨hw, hlt, hsat, fun htouch => hne (hsp.1 htouch)⟩
  obtain ⟨hn, hstate⟩ := keStep_state hg hready.runs hok hro hs
  intro objs hcont hk hnd
  obtain ⟨hlt, hrd⟩ := hJ objs hcont hk hnd
  refine ⟨hlt.trans_le hn, fun hne i d hi => ?_⟩
  rcases hrd hne i d hi with ⟨hw, hd, hty⟩ | ⟨hw, hd, hsat, hun⟩
  · exact .inl ⟨hw, (hstate d hd).1.trans_ne hty⟩
  · refine .inr ⟨hw, hsat ▸ dispSatisfied_congr (hstate d hd).1 ?_ ?_⟩
    · exact congrArg Prod.fst ((hstate d hd).2 hun)
    · exact congrArg Prod.snd ((hstate d hd).2 hun)

theorem schedInit_ready (t : Nat) : schedInit.AllReady t := by
  rcases (pspCreateThread_created blank.pspCreateProcess 0 priorityIdle false).view (t := t) with ho | hv
  · exact (Still.of_out (fun _ => 0) [] ho.out).ready
  · intro objs hcont
    exact absurd (hv.thread ▸ hcont) nofun

/-! ## Any object -/

theorem waitAny_took {s s1 : Kernel} {t : Nat} {d : Nat} (hs1 : s1.disp = s.disp)
    (hsat : s1.dispSatisfied d t = true) (hsync : (s1.disp d).type = .synchronizationEvent →
      ((s1.tryWait t d).2.disp d).signalState = 0) :
    s.dispSatisfied d t = true ∧
      ((s.disp d).type = .mutant → (s1.tryWait t d).2.held t d = s.held t d + 1) ∧
      ((s.disp d).type = .synchronizationEvent → ((s1.tryWait t d).2.disp d).signalState = 0) ∧
      ∀ e ∈ objs, e ≠ d → (s1.tryWait t d).2.disp e = s.disp e := by
  have hheld : s.held t d = s1.held t d := by
    unfold held
    rw [hs1]
  rw [hheld, ← hs1]
  refine ⟨?_, fun hty => ?_, hsync, fun e _ he => tryWait_other s1 t he⟩
  · rw [← hsat]
    exact dispSatisfied_congr (by rw [hs1]) (by rw [hs1]) (by rw [hs1])
  · rw [tryWait_held hty, if_pos hsat]

theorem waitAny_now : AnyExact w (.waitMultiple objs false timeout) := by
  intro t ht hnd st s' hr
  have hc : w.ke.current = some t := ht
  unfold keWaitMultiple at hr
  split at hr
  · cases hr
    refine ⟨fun b _ hlt he => ?_, fun he => absurd he (by decide)⟩
    rw [← he] at hlt
    exact absurd hlt (by decide)
  · next hlen =>
    push Not at hlen
    simp only [hc] at hr
    split at hr
    · simp only [Outcome.bind_eq_ok] at hr
      obtain ⟨s1, -, hr2⟩ := hr
      cases hr2
    · simp only [Bool.false_eq_true, if_false] at hr
      split at hr
      · next st0 hany =>
        obtain ⟨j, d, s1, st1, hj, hs1, hsome, hsnd, hst⟩ := tryAny_some objs 0 hany
        cases hr
        rw [hsnd, hst]
        obtain ⟨hcode, hsat, hsync⟩ := tryWait_some hsome
        rcases hcode with rfl | rfl
        · rw [if_pos rfl, Nat.zero_add]
          have hjlt : j < objs.length := (List.getElem?_eq_some_iff.1 hj).1
          refine ⟨fun b hb _ he => ?_, fun he => ?_⟩
          · have hbi := List.mem_zipIdx_iff_getElem?.1 hb
            rw [← he, hj] at hbi
            cases hbi
            exact waitAny_took hs1 hsat hsync
          · exact absurd (he ▸ hjlt.trans_le hlen.2) (by decide)
        · rw [if_neg (by decide)]
          refine ⟨fun b _ hlt he => ?_, fun he => absurd he (by decide)⟩
          rw [← he] at hlt
          exact absurd hlt (by decide)
      · next hnone =>
        have hdisp : (tryAny t 0 objs w.ke).2.disp = w.ke.disp :=
          congrArg WaitView.disp (tryAny_none objs 0 hnone)
        split at hr
        · cases hr
          refine ⟨fun b _ hlt he => ?_, fun _ d _ => by rw [hdisp]⟩
          rw [← he] at hlt
          exact absurd hlt (by decide)
        · rw [waitSlow_eq timeout (.inr (by rw [hdisp]; exact tryAny_none_signal objs 0 hnone))] at hr
          cases hr

/-- A `WAIT_ANY` that goes on: which of its objects it has used up. -/
theorem consumes_iff (h : w.Inv) (hg : w.ke.goesOn false = some c) (hnd : c.2.Nodup)
    (hB : Back w.ke s2) (hb : b ∈ c.2.zipIdx) :
    Consumes (w.base c.1) w.ke s2 c.1 b ↔ w.ke.BlockWoken c.1 b.2 ∧
      ((w.ke.disp b.1).type = .synchronizationEvent ∨ (w.ke.disp b.1).type = .mutant) := by
  obtain ⟨-, hcont, hk⟩ := goesOn_eq_some.1 hg
  have hin := h.calls c.1 c.2 false hcont hk
  have hbi : c.2[b.2]? = some b.1 := List.mem_zipIdx_iff_getElem?.1 hb
  have hmutex : (w.ke.disp b.1).type = .mutant →
      (w.base c.1 b.1 < s2.held c.1 b.1 ↔ w.ke.BlockWoken c.1 b.2) := by
    intro hty
    rw [hB.held]
    constructor
    · intro hlt
      rcases hin.held b.1 (List.mem_of_getElem? hbi) with he | ⟨i, hi, hwi⟩
      · exact absurd he.symm (Nat.ne_of_lt hlt)
      · have hib : i = b.2 := (List.getElem?_inj (List.getElem?_eq_some_iff.1 hi).1 hnd).1
          (hi.trans hbi.symm)
        exact hib ▸ hwi
    · intro hw
      obtain ⟨h0, h1⟩ : _ ∧ w.ke.held c.1 b.1 = 1 := hin.woken b.2 b.1 hbi hw hty
      omega
  unfold Consumes
  constructor
  · rintro (⟨hty, hw⟩ | ⟨hty, hlt⟩)
    · exact ⟨hw, .inl hty⟩
    · exact ⟨(hmutex hty).1 hlt, .inr hty⟩
  · rintro ⟨hw, hty | hty⟩
    · exact .inl ⟨hty, hw⟩
    · exact .inr ⟨hty, (hmutex hty).2 hw⟩

theorem anyExact_iff (h : w.Inv) (op : KeOp) : AnyExact w op ↔ AnyOk w op := by
  cases op with
  | waitMultiple objs waitAll timeout =>
    cases waitAll with
    | true => exact Iff.rfl
    | false => exact iff_of_true waitAny_now trivial
  | resume =>
    refine forall₂_congr fun c hg => forall_congr' fun hnd => ?_
    obtain ⟨hc, hcont, hk⟩ := goesOn_eq_some.1 hg
    obtain ⟨s2, hB, he⟩ := resume_back hc hk hcont
    have hin := h.calls c.1 c.2 false hcont hk
    by_cases hst : (w.ke.thread c.1).wait.wakeStatus = statusTimeout
    · -- nothing has woken the thread
      have hno : ∀ b ∈ c.2.zipIdx, ¬ w.ke.BlockWoken c.1 b.2 := fun b hb =>
        hin.status.1 hst b.2 (List.getElem?_eq_some_iff.1 (List.mem_zipIdx_iff_getElem?.1 hb)).1
      refine iff_of_true (fun st s' hr => ?_) fun b hb _ _ _ hw => absurd hw (hno b hb)
      rw [he, if_pos hst] at hr
      cases hr
      refine ⟨fun b hb hidx => ?_, fun _ b hb hcons => ?_⟩
      · have hlt := (List.getElem?_eq_some_iff.1 (List.mem_zipIdx_iff_getElem?.1 hb)).1
        exact absurd (hidx ▸ hlt.trans_le hin.length) (by decide)
      · exact hno b hb ((consumes_iff h hg hnd hB hb).1 hcons).1
    · have hw : ∃ i < c.2.length, w.ke.BlockWoken c.1 i := by
        by_contra hno
        push Not at hno
        exact hst (hin.status.2 hno)
      obtain ⟨hlt, hlast, hmax⟩ := whichWoken_spec hw
      rw [he, if_neg hst]
      generalize whichWoken (w.ke.thread c.1) c.2.length = k at hlt hlast hmax ⊢
      have hidx : ∀ b ∈ c.2.zipIdx, c.2[b.2]? = some b.1 := fun b hb =>
        List.mem_zipIdx_iff_getElem?.1 hb
      constructor
      · intro hx b hb b' hb' hbb hwb hwb'
        have hk' : b'.2 ≤ k := hmax b'.2 (List.getElem?_eq_some_iff.1 (hidx b' hb')).1 hwb'
        have hmem : (c.2.get ⟨k, hlt⟩, k) ∈ c.2.zipIdx :=
          List.mem_zipIdx_iff_getElem?.2 (List.getElem?_eq_getElem hlt)
        have hno := ((hx k s2 rfl).1 _ hmem rfl).2.2 b hb fun he => by
          rw [he] at hbb
          exact absurd (hbb.trans_le hk') (lt_irrefl _)
        rw [consumes_iff h hg hnd hB hb] at hno
        exact ⟨fun hty => hno ⟨hwb, .inl hty⟩, fun hty => hno ⟨hwb, .inr hty⟩⟩
      · intro hx st s' hr
        cases hr
        refine ⟨fun b hb hkb => ?_, fun hto => ?_⟩
        · subst hkb
          refine ⟨hlast, fun hty => ?_, fun b' hb' hne hcons => ?_⟩
          · obtain ⟨h0, h1⟩ : _ ∧ w.ke.held c.1 b.1 = 1 := hin.woken b.2 b.1 (hidx b hb) hlast hty
            rw [hB.held, h0, h1]
          · obtain ⟨hwb', hty⟩ := (consumes_iff h hg hnd hB hb').1 hcons
            have hle := hmax b'.2 (List.getElem?_eq_some_iff.1 (hidx b' hb')).1 hwb'
            have hne' : b'.2 ≠ b.2 := by
              intro he
              have h1 := hidx b' hb'
              rw [he, hidx b hb] at h1
              exact hne (Prod.ext (Option.some.inj h1).symm he)
            obtain ⟨hs, hm⟩ := hx b' hb' b hb (lt_of_le_of_ne hle hne') hwb' hlast
            rcases hty with hty | hty
            · exact hs hty
            · exact hm hty
        · exact absurd (hto ▸ hlt.trans_le hin.length) (by decide)
  | createProcess | createThread | createEvent | createTimer | createMutex | setCloses | ready | boost
  | kill | exit | yield | wait | release | signal | setSignal | wakeOne | setTimer | cancelTimer
  | tick => exact Iff.rfl

/-! ## Runs -/

/-- **WAIT_ALL.** In a run of the kernel in which the objects of a blocked `WAIT_ALL` are signaled only
when the last of them is missing, and left alone from then on until its thread goes on, every
`ke_wait_multiple` of a set of objects with `wait_all` that returns `STATUS_SUCCESS` has found all of
them satisfied and acquired each mutex once. -/
theorem waitAll_exact {ops : List KeOp} (hl : Run.Legal waitStep WaitOk .init ops)
    (ha : Run.Legal waitStep AllOk .init ops) : Run.Legal waitStep AllExact .init ops := by
  refine Run.legal_imp (I := fun w => w.Inv ∧ ∀ t, w.ke.AllReady t)
    (fun _ op hi _ => allExact_of_ready hi.1 hi.2 op) (fun w op w' hi hok hs => ?_)
    ⟨init_inv, schedInit_ready⟩ (Run.legal_and hl ha)
  refine ⟨waitStep_inv hi.1 hok.1 hs, fun t => ?_⟩
  obtain ⟨s', hs', rfl⟩ := Option.map_eq_some_iff.1 hs
  exact keStep_ready hi.1.ready hi.1.waits (hi.1.calls t) hok.1.1 hok.1.2 (hi.2 t) (hok.2 t) hs'

/-- Thread 1 waits for the objects 4 and 5, and thread 2 runs. -/
def waitTwo (waitAll : Bool) (make₁ make₂ : KeOp) : List KeOp :=
  [.createThread 0 8 false, .createThread 0 8 false, make₁, make₂, .yield, .resume,
    .waitMultiple [4, 5] waitAll infinite, .resume]

/-- The first event is set when thread 1 begins to wait, and thread 2 sets the second one. -/
theorem waitAll_exact_last : Run.Legal waitStep AllExact .init
    (waitTwo true (.createEvent false true) (.createEvent true false) ++
      [.signal 5, .yield, .resume]) :=
  waitAll_exact (by decide +kernel) (by decide +kernel)

/-- Thread 2 sets the first event only: thread 1 returns `STATUS_SUCCESS` without the second one. -/
theorem waitAll_one_signal :
    Run.Legal waitStep WaitOk .init (waitTwo true (.createEvent false false)
      (.createEvent false false) ++ [.signal 4, .yield, .resume]) ∧
    ∃ w s', Run.run waitStep .init (waitTwo true (.createEvent false false)
        (.createEvent false false) ++ [.signal 4, .yield]) = some w ∧
      w.ke.goesOn true = some (1, [4, 5]) ∧ w.ke.resume = .ok (some statusSuccess, s') ∧
      (w.ke.disp 5).signalState = 0 ∧ ¬ AllExact w .resume := by
  refine ⟨by decide +kernel, ?_⟩
  obtain ⟨w, hw, hg, ⟨⟨st, s'⟩, hres, rfl⟩, hsig, hwok, hsat⟩ : ∃ w, Run.run waitStep .init
      (waitTwo true (.createEvent false false) (.createEvent false false) ++ [.signal 4, .yield]) =
        some w ∧ w.ke.goesOn true = some (1, [4, 5]) ∧
      (∃ r, w.ke.resume = .ok r ∧ r.1 = some statusSuccess) ∧ (w.ke.disp 5).signalState = 0 ∧
      ¬ w.ke.BlockWoken 1 1 ∧ w.ke.dispSatisfied 5 1 = false := by decide +kernel
  refine ⟨w, s', hw, hg, hres, hsig, fun hx => ?_⟩
  rcases (hx (1, [4, 5]) hg (by decide) s' hres (5, 1) (by decide)).1 with h | h
  · exact hwok h
  · simp [hsat] at h

/-- **WAIT_ANY.** In a run of the kernel, every `ke_wait_multiple` of distinct objects without
`wait_all` has used up exactly the object that it reports, if and only if no thread goes on in such a
call after two of its objects have woken it, the first of them in the list being an auto-reset event
or a mutex. -/
theorem waitAny_exact_iff {ops : List KeOp} (hl : Run.Legal waitStep WaitOk .init ops) :
    Run.Legal waitStep AnyExact .init ops ↔ Run.Legal waitStep AnyOk .init ops := by
  apply Run.legal_congr (I := WaitSys.Inv) _ _ init_inv hl
  · exact fun _ op hi => anyExact_iff hi op
  · exact fun _ _ _ hi hok hs => waitStep_inv hi hok hs

/-- Thread 2 sets one event. -/
theorem waitAny_exact_one : Run.Legal waitStep AnyExact .init
    (waitTwo false (.createEvent true false) (.createEvent true false) ++
      [.signal 4, .yield, .resume]) :=
  (waitAny_exact_iff (by decide +kernel)).2 (by decide +kernel)

/-- Thread 2 sets both events before thread 1 runs: the call returns the index 1 and has used up the
signal of the first event as well. -/
theorem waitAny_two_signals :
    Run.Legal waitStep WaitOk .init (waitTwo false (.createEvent true false)
      (.createEvent true false) ++ [.signal 4, .signal 5, .yield, .resume]) ∧
    ∃ w s', Run.run waitStep .init (waitTwo false (.createEvent true false)
        (.createEvent true false) ++ [.signal 4, .signal 5, .yield]) = some w ∧
      w.ke.goesOn false = some (1, [4, 5]) ∧ w.ke.resume = .ok (some 1, s') ∧
      (w.ke.disp 4).signalState = 0 ∧ ¬ AnyExact w .resume := by
  refine ⟨by decide +kernel, ?_⟩
  obtain ⟨w, hw, hg, ⟨⟨st, s'⟩, hres, rfl⟩, hsig, hwok, hty⟩ : ∃ w, Run.run waitStep .init
      (waitTwo false (.createEvent true false) (.createEvent true false) ++
        [.signal 4, .signal 5, .yield]) = some w ∧ w.ke.goesOn false = some (1, [4, 5]) ∧
      (∃ r, w.ke.resume = .ok r ∧ r.1 = some 1) ∧ (w.ke.disp 4).signalState = 0 ∧
      w.ke.BlockWoken 1 0 ∧ (w.ke.disp 4).type = .synchronizationEvent := by decide +kernel
  refine ⟨w, s', hw, hg, hres, hsig, fun hx => ?_⟩
  have hno := ((hx (1, [4, 5]) hg (by decide) 1 s' hres).1 (5, 1) (by decide) rfl).2.2 (4, 0)
    (by decide) (by decide)
  exact hno (.inl ⟨hty, hwok⟩)

end Aegis
