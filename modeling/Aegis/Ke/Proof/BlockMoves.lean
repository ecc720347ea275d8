import Aegis.Ke.Proof.BlockView

/-!
# What a step does to the waits of one thread

A `ViewRule` is what has to be shown of a property of the thread `t` that says something only while
`t` is in a wait: that the signals and the timeouts that may end it keep it (`I`), and that it holds
when a wait begins, at the end of a step (`J`). Then every step leads from `I` to `J` (`keStep_view`).
-/

namespace Aegis

/-- The thread is not in a wait, or will not return from it. -/
def BlockView.Out (v : BlockView) : Prop :=
  v.thread.killPending = true ∨
    v.thread.cont ≠ .waitObject ∧ ∀ objs waitAll, v.thread.cont ≠ .waitMultiple objs waitAll

/-- The thread has left its wait, or is still in it with the status that it had. -/
structure BlockView.Left (v w : BlockView) : Prop where
  out : w.Out
  waiting : w.thread.waiting →
    v.thread.waiting ∧ w.thread.wait.wakeStatus = v.thread.wait.wakeStatus

/-- There are more dispatchers. -/
structure BlockView.Grown (v w : BlockView) : Prop where
  thread : w.thread = v.thread
  linked : ∀ d b, w.linked d b → v.linked d b
  held : ∀ d < v.ndisp, w.held d = v.held d
  type : ∀ d < v.ndisp, w.type d = v.type d
  ndisp : v.ndisp ≤ w.ndisp

namespace Kernel

/-- `I` holds of a thread until its step ends, then `J`. -/
structure ViewRule (s : Kernel) (t : Nat) (x : Scope) (I J : BlockView → Prop) : Prop where
  left : ∀ v w : BlockView, v.Left w → I v → I w
  wake : ∀ (v : BlockView) b d st, x.wakes d → v.linked d b → st ≠ statusTimeout →
    (v.type d = .mutant → v.held d = 0) → I v → I (v.wake b d st)
  expire : ∀ v w : BlockView, x.ticks → Expired v → v.TimedOut w → I v → I w
  done : ∀ v, I v → J v
  single : ∀ (v : BlockView) d timeout, s.current = some t → x.enters .waitObject timeout →
    d < v.ndisp → (∀ e b, ¬ v.linked e b) → J (v.wait d timeout)
  multi : ∀ (v : BlockView) objs waitAll timeout, s.current = some t → v.held = s.held t →
    x.enters (.waitMultiple objs waitAll) timeout → (∀ d ∈ objs, d < v.ndisp) →
    objs.length ≤ waitObjectsMax → (∀ e b, ¬ v.linked e b) → J (v.waitMultiple objs waitAll timeout)

variable {s s' s₀ : Kernel} {t c m : Nat} {E : Prop} {x : Scope} {I J : BlockView → Prop}

theorem out_code {v : BlockView} (h : v.thread.cont = .code ∨ v.thread.killPending = true) :
    v.Out := by
  rcases h with h | h
  · exact .inr (by simp [h])
  · exact .inl h

/-! ## Moves -/

theorem threadUnlinkWaits_status (s : Kernel) (t : Nat) :
    ((s.threadUnlinkWaits t).thread t).state = (s.thread t).state ∧
      ((s.threadUnlinkWaits t).thread t).wait.wakeStatus = (s.thread t).wait.wakeStatus := by
  have h := (Rule.of_view fun s : Kernel => ((s.thread t).state, (s.thread t).wait.wakeStatus)
    ).threadUnlinkWaits (t := t) (fun _ _ => rfl) (fun s b => ?_) (fun s => ?_) s
  · exact ⟨congrArg Prod.fst h, congrArg Prod.snd h⟩
  · cases b <;> simp [modThread, Thread.modBlock]
  · simp [modThread]

theorem Move.view (hr : ViewRule s₀ t x I J) (hm : Move E x s s') (hg : Good s)
    (h : I (s.blockView t)) : I (s'.blockView t) := by
  have hsame : ∀ {s' : Kernel}, s'.blockView t = s.blockView t → I (s'.blockView t) := fun he => by
    rw [he]
    exact h
  have hout : ∀ {s' : Kernel} {th}, (s'.blockView t).thread = th →
      th.cont = .code ∨ th.killPending = true →
      (th.waiting → (s.thread t).state = .waiting ∧ th.wait.wakeStatus = (s.thread t).wait.wakeStatus) →
      I (s'.blockView t) := fun hv hth hw =>
    hr.left _ _ ⟨out_code (hv ▸ hth), hv ▸ hw⟩ h
  cases hm with
  | signal f _ _ => exact hsame (modSignal_block s _ f)
  | @wake d hd hs =>
    by_cases hb : ∃ b, (s.disp d).waitList.head? = some (t, b)
    · obtain ⟨b, hb⟩ := hb
      obtain ⟨l, hl⟩ := List.head?_eq_some_iff.1 hb
      rw [dispWakeOne_self hl]
      exact hr.wake _ b d _ hd (List.mem_of_head? hb) (by decide) (fun hm => absurd hm hs.2) h
    · rcases dispWakeOne_other (not_exists.1 hb) statusSuccess with he | ⟨hm, -⟩
      · exact hsame he
      · exact absurd hm hs.2
  | @abandon c m _ hd hc hmem hno hcode =>
    have hself := abandon_block s m t
    by_cases hct : c = t
    · subst hct
      have hb : ∀ b, (s.disp m).waitList.head? ≠ some (c, b) := fun b hb =>
        hno m _ (List.mem_of_head? hb) rfl
      exact hout (congrArg BlockView.thread (hself.2 hb)) hcode fun hw => ⟨hw, rfl⟩
    · have hfree : (s.blockView t).free m = s.blockView t :=
        BlockView.free_eq (held_of_owner (hg.inv.owner_of_mem hmem).1 hct)
      rw [hfree] at hself
      by_cases hb : ∃ b, (s.disp m).waitList.head? = some (t, b)
      · obtain ⟨b, hb⟩ := hb
        rw [hself.1 b hb]
        exact hr.wake _ b m _ hd (List.mem_of_head? hb) (by decide)
          (fun _ => held_of_owner (hg.inv.owner_of_mem hmem).1 hct) h
      · exact hsame (hself.2 (not_exists.1 hb))
  | @take c d _ hd hc =>
    by_cases hct : c = t
    · subst hct
      obtain ⟨_, he⟩ := tryWait_view s c d c
      exact hout (congrArg BlockView.thread he) (.inl hc.code) fun hw => ⟨hw, rfl⟩
    · exact hsame (tryWait_block hg.inv hd hct)
  | boost q _ _ => exact hsame ((schedBoost_reprio s _ q).block t)
  | @unlink u hu =>
    by_cases hut : u = t
    · subst hut
      have hth := congrFun (congrArg RestView.thread (threadUnlinkWaits_rest s u)) u
      have hst := threadUnlinkWaits_status s u
      refine hout rfl (Or.imp (congrArg ThreadRest.cont hth).trans
        (congrArg ThreadRest.killPending hth).trans ?_) fun hw => ⟨hst.1.symm.trans hw, hst.2⟩
      rcases hu with ⟨-, -, -, hcode⟩ | ⟨-, hk, -⟩
      · exact hcode
      · exact .inr hk
    · exact hsame (threadUnlinkWaits_block s fun he => absurd he hut)
  | @kill u st _ _ _ =>
    by_cases hut : u = t
    · subst hut
      exact hout (congrArg BlockView.thread (modThread_self s u _)) (.inr rfl) fun hw => ⟨hw, rfl⟩
    · exact hsame (modThread_block s fun he => absurd he hut)
  | @ready u _ hu =>
    by_cases hut : u = t
    · subst hut
      rcases hu with hst | ⟨-, hk, hw, -⟩
      · exact hsame (schedReady_block s fun _ => by rw [hst]; simp)
      · exact hout (congrArg BlockView.thread (schedReady_wakes hw)) (.inr hk) False.elim
    · exact hsame (schedReady_block s fun he => absurd he hut)
  | expire u ht =>
    by_cases hu : u = t ∧ Expired (s.blockView t)
    · obtain ⟨rfl, he⟩ := hu
      exact hr.expire _ _ ht he (expire_self he) h
    · exact hsame (expire_block u fun hut he => hu ⟨hut, he⟩)
  | timers _ _ _ _ => exact h
  | quantum _ _ => exact hsame (useQuantum_block s _ t)
  | @goOn c _ _ _ _ =>
    by_cases hct : c = t
    · subst hct
      exact hout (congrArg BlockView.thread (modThread_self s c _)) (.inl rfl) fun hw => ⟨hw, rfl⟩
    · exact hsame (modThread_block s fun he => absurd he hct)
  | @finish c objs _ _ hrun _ _ =>
    by_cases hct : c = t
    · subst hct
      have hth := multiDone_thread s c objs
      refine hout rfl (.inl (congrArg Thread.cont hth)) fun hw => ?_
      have hst : (s.thread c).state = .waiting := (congrArg Thread.state hth).symm.trans hw
      rw [hrun] at hst
      cases hst
    · exact hsame (multiDone_block hct s objs)
  | died _ _ => exact h
  | dropped _ _ => exact h

theorem Begins.block {s2 : Kernel} (hb : Begins x c s s2) (hg : Good s) (hc : s.Caller c)
    (hct : c ≠ t) : s2.blockView t = s.blockView t := by
  cases hb with
  | @single d timeout _ _ _ _ _ =>
    refine (suspend_block _ _ fun ht => ?_).trans (enqueue_block hct s d timeout)
    exact absurd (Option.some.inj (hc.current.symm.trans ht)) hct
  | multi _ _ _ _ => exact queueMulti_block hg.core hc.current hct _ _ _

theorem Begins.view {s2 : Kernel} (hr : ViewRule s₀ t x I J) (hb : Begins x c s s2) (hg : Good s)
    (hc : s.Caller c) (hcur : s.current = s₀.current) (hv : s.waitView = s₀.waitView)
    (h : I (s.blockView t)) : J (s2.blockView t) := by
  by_cases hct : c = t
  · subst hct
    have hno : ∀ e b, ¬ (s.blockView c).linked e b := fun e b hm =>
      hg.inv.noBlocks_code hc.code e _ hm rfl
    have hc0 := hcur.symm.trans hc.current
    cases hb with
    | @single d timeout _ hx hd _ _ =>
      rw [enqueue_self hc.current hc.code]
      exact hr.single _ d timeout hc0 hx hd hno
    | @multi objs waitAll timeout hw hx hlen hs =>
      rw [queueMulti_self hg.core hc.current hc.code hs]
      refine hr.multi _ objs waitAll timeout hc0 ?_ hx (fun d hd => (hw d hd).2) hlen.2 hno
      unfold blockView held
      rw [show s.disp = s₀.disp from congrArg WaitView.disp hv]
  · rw [hb.block hg hc hct]
    exact hr.done _ h

theorem Stepped.view (hr : ViewRule s t x I J) (hs : Stepped x s s') (hg : Good s)
    (h : I (s.blockView t)) : J (s'.blockView t) := by
  refine hs.keeps (I := fun s => I (s.blockView t)) (J := fun s => J (s.blockView t)) hg
    (fun _ _ _ hg hm => hm.view hr hg) (fun s c st _ he h => ?_) (fun _ _ h => h)
    (fun _ => hr.done _) (fun s _ h => ?_)
    (fun s1 c s2 hg1 hv hcur hc hb h => hb.view hr hg1 hc hcur hv h) (fun _ => hr.done _)
    (fun s hg h => ?_) h
  · have hv : (s.endThread c st).blockView t = s.blockView t :=
      modThread_block s fun hct => by
        subst hct
        simp [Thread.blocks, he.running]
    rwa [hv]
  · by_cases hc : s.current = some t ∧ (s.thread t).cont = .code
    · rw [suspend_self hc.1 hc.2]
      exact hr.done _ (hr.left (s.blockView t) _ ⟨.inr (by simp), fun hw => ⟨hw, rfl⟩⟩ h)
    · rw [suspend_block s _ fun h1 h2 => absurd ⟨h1, h2⟩ hc]
      exact hr.done _ h
  · rwa [schedReschedule_block hg.core]

/-! ## Steps -/

theorem Created.view (h : Created t s s') :
    (s.blockView t).Left (s'.blockView t) ∨ (s.blockView t).Grown (s'.blockView t) := by
  rcases h.thread with he | ⟨-, d, p, q, he⟩
  · refine .inr ⟨he, fun d b => h.linked, fun d hd => ?_, fun d hd => ?_, h.ndisp⟩
    · show s'.held t d = s.held t d
      unfold held
      rw [h.eq hd]
    · exact congrArg Disp.type (h.eq hd)
  · refine .inl ⟨.inr ?_, fun hw => ?_⟩
    · rw [blockView, he]
      simp [newThread, Thread.blocks]
    · rw [blockView, he] at hw
      simp [newThread, Thread.blocks] at hw

theorem Releases.view (hm : s.Releases m c) (hr : ViewRule s t (s.scope (.release m)) I J) (hg : Good s)
    (hcase : 1 < (s.disp m).recursion ∧
        s' = (s.modDisp m fun x => { x with recursion := x.recursion - 1 }) ∨
      (s.disp m).recursion = 1 ∧ s' = s.releaseLast m c)
    (h : I (s.blockView t)) : I (s'.blockView t) := by
  have hout : ∀ {s' : Kernel}, c = t → (s'.blockView t).thread = (s.thread t).blocks →
      I (s'.blockView t) := fun hct hv => by
    refine hr.left _ _ ⟨out_code (.inl ?_), fun hw => ?_⟩ h
    · rw [hv, ← hct]
      exact hm.caller.code
    · rw [hv] at hw ⊢
      exact ⟨hw, rfl⟩
  have hzero : c ≠ t → s.held t m = 0 := held_of_owner hm.owner
  rcases hcase with ⟨-, rfl⟩ | ⟨hone, rfl⟩
  · by_cases hct : c = t
    · exact hout hct rfl
    · rw [modDisp_block s rfl rfl]
      · exact h
      · rw [hzero hct]
        exact held_of_owner (by simpa [modDisp] using hm.owner) hct
  · have hself := releaseLast_block s m c t
    by_cases hct : c = t
    · have hv := hself.2 fun b hb => ?_
      · exact hout hct (congrArg BlockView.thread hv)
      · exact hg.inv.noBlocks_code hm.caller.code m _ (List.mem_of_head? hb) hct.symm
    · rw [BlockView.free_eq (hzero hct)] at hself
      by_cases hb : ∃ b, (s.disp m).waitList.head? = some (t, b)
      · obtain ⟨b, hb⟩ := hb
        rw [hself.1 b hb]
        have hw : (s.scope (.release m)).wakes m := by
          show m ∈ s.signaled (.release m)
          simp [signaled, hm.caller.current, hm.owner, hone]
        exact hr.wake _ b m _ hw (List.mem_of_head? hb) (by decide) (fun _ => hzero hct) h
      · rw [hself.2 (not_exists.1 hb)]
        exact h

/-- **Every step** keeps what a rule says of `t`. -/
theorem keStep_view {op : KeOp} (hr : ViewRule (s.advance op) t (s.scope op) I J)
    (hgrow : ∀ v w : BlockView, v.Grown w → I v → I w) (hg : Good s)
    (hrun : ∀ c ∈ s.current, (s.thread c).state = .running) (hok : KeOk s op) (hro : ReadyOk s op)
    (hs : keStep s op = some s') (h : I ((s.advance op).blockView t)) : J (s'.blockView t) := by
  cases hnew : op.creates with
  | true =>
    rcases (keStep_created hnew hs).view (t := t) with ho | hv
    · refine hr.done _ (hr.left _ _ ho ?_)
      cases op <;> first | exact h | cases hnew
    · refine hr.done _ (hgrow _ _ hv ?_)
      cases op <;> first | exact h | cases hnew
  | false =>
    rcases keStep_stepped hg hrun hok hro hnew hs with hst | ⟨m, c, rfl, hm, hcase⟩
    · obtain ⟨n, hn⟩ := s.advance_eq op
      exact hst.view hr (hn ▸ hg.ticks n) h
    · exact hr.done _ (hm.view hr hg hcase h)

end Kernel

end Aegis
