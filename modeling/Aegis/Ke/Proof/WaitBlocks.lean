import Aegis.Ke.Proof.BlockMoves

/-!
# Wait blocks that outlive their wait

`ke_wait_object` does not clear `wait.object` when its wait has been ended by a signal or a timeout,
and the end of a wait for several objects leaves it set until the thread runs again, or for good if
the thread is killed. `thread_unlink_waits` then takes the lock of a dispatcher that the thread does
not wait for any more.

`WaitBlockExact` is what the fields should say of a thread. It holds as long as no wait of the thread
ends in one of these ways (`NotWoken`).
-/

namespace Aegis

variable {t : Nat} {op : KeOp} {s : Kernel}

/-! ## The property -/

namespace Kernel

/-- The dispatchers whose locks `thread_unlink_waits` takes. -/
def unlinkTouches (s : Kernel) (t : Nat) : List Nat :=
  if (s.thread t).waitMultiCount ≠ 0 then
    (List.range (s.thread t).waitMultiCount).filterMap fun i => ((s.thread t).waitMulti i).object
  else (s.thread t).wait.object.toList

end Kernel

/-- A block that names an object is linked there. -/
structure WaitBlockExact (s : Kernel) (t : Nat) : Prop where
  single : (s.thread t).waitMultiCount = 0 → ∀ d, (s.thread t).wait.object = some d →
    (s.thread t).state = .waiting ∧ (t, BlockId.single) ∈ (s.disp d).waitList
  awake : (s.thread t).state ≠ .waiting →
    (s.thread t).wait.object = none ∧ (s.thread t).waitMultiCount = 0
  touches : ∀ d ∈ s.unlinkTouches t, ∃ b, (t, b) ∈ (s.disp d).waitList

/-! ## The steps that do not wake a thread -/

/-- The step ends no wait of `t` by a signal or a timeout, and does not kill it in a wait for
several objects. -/
def NotWoken (t : Nat) (s : Kernel) (op : KeOp) : Prop :=
  (∀ d ∈ s.signaled op, s.Off t d) ∧
    match op with
    | .tick => ¬ s.Expires t
    | .kill u _ => u = t → (s.thread t).state = .waiting → (s.thread t).waitMultiCount = 0
    | _ => True

instance (t : Nat) (s : Kernel) (op : KeOp) : Decidable (NotWoken t s op) := by
  apply KeOp.casesOn (motive := fun op => Decidable (NotWoken t s op)) op <;> intros <;>
    dsimp only [NotWoken] <;> infer_instance

/-! ## The invariant -/

/-- `WaitBlockExact` of a view. -/
structure BlockView.Exact (v : BlockView) : Prop where
  single : v.thread.multiCount = 0 → ∀ d, v.thread.wait.object = some d →
    v.thread.waiting ∧ v.linked d .single
  awake : ¬ v.thread.waiting → v.thread.wait.object = none ∧ v.thread.multiCount = 0
  multi : ∀ i < v.thread.multiCount, ∀ d, (v.thread.multi i).object = some d →
    v.linked d (.multi i)
  bound : ∀ d b, v.linked d b → d < v.ndisp

namespace BlockView.Exact

variable {s : Kernel} {t : Nat}

theorem waitBlockExact (h : (s.blockView t).Exact) : WaitBlockExact s t := by
  refine ⟨h.single, h.awake, fun d hd => ?_⟩
  unfold Kernel.unlinkTouches at hd
  split at hd
  · obtain ⟨i, hi, ho⟩ := List.mem_filterMap.1 hd
    exact ⟨_, h.multi i (List.mem_range.1 hi) d ho⟩
  · next hn =>
    rw [Option.mem_toList] at hd
    exact ⟨_, (h.single (not_not.1 hn) d hd).2⟩

theorem of_awake {v : BlockView} (ho : v.thread.wait.object = none)
    (hc : v.thread.multiCount = 0) (hb : ∀ d b, v.linked d b → d < v.ndisp) : v.Exact :=
  ⟨fun _ d hd => (by rw [ho] at hd; cases hd), fun _ => ⟨ho, hc⟩,
    fun i hi => (by rw [hc] at hi; exact absurd hi (Nat.not_lt_zero i)), hb⟩

theorem of_alike {s' : Kernel} (h : (s.blockView t).Exact) (ha : Kernel.Alike t s s') :
    (s'.blockView t).Exact := by
  obtain ⟨_, _, _, he⟩ := ha
  rw [he]
  exact ⟨h.single, h.awake, h.multi, h.bound⟩

theorem of_running (h : (s.blockView t).Exact) (hrun : (s.thread t).state = .running) :
    (s.thread t).wait.object = none ∧ (s.thread t).waitMultiCount = 0 :=
  h.awake (by simp [Kernel.blockView, Thread.blocks, hrun])

end BlockView.Exact

namespace Kernel

variable {s s' : Kernel} {t u : Nat}

/-! ## Kills -/

theorem threadUnlinkWaits_single (hn : (s.thread t).waitMultiCount = 0) :
    ((s.threadUnlinkWaits t).thread t).wait.object = none ∧
      ((s.threadUnlinkWaits t).thread t).waitMultiCount = 0 ∧
      ((s.threadUnlinkWaits t).blockView t).thread.timed = (s.thread t).waitTimed ∧
      ((s.threadUnlinkWaits t).blockView t).thread.timeoutTick = (s.thread t).waitTimeoutTick ∧
      (s.threadUnlinkWaits t).ndisp = s.ndisp ∧ (s.threadUnlinkWaits t).ticks = s.ticks ∧
      Fewer s (s.threadUnlinkWaits t) := by
  unfold threadUnlinkWaits
  rw [if_neg (not_not.2 hn)]
  split
  · next ho => exact ⟨ho, hn, rfl, rfl, rfl, rfl, fun _ _ hb => hb⟩
  · refine ⟨by simp [modThread], by simpa [modThread, unlinkBlock] using hn, ?_, ?_, rfl, rfl,
      unlinkBlock_fewer s (t, .single)⟩
    · simp [blockView, Thread.blocks, modThread, unlinkBlock]
    · simp [blockView, Thread.blocks, modThread, unlinkBlock]

/-! ## Moves -/

/-- What is kept between the moves of a step that does not wake `t`. -/
structure Asleep (x : Scope) (t : Nat) (v : BlockView) : Prop where
  exact : v.Exact
  off : ∀ d, x.wakes d → ∀ b, ¬ v.linked d b
  timeout : x.ticks → ¬ Expired v
  killed : x.kills t → v.thread.waiting → v.thread.multiCount = 0

variable {x : Scope}

theorem Asleep.unlink (h : Asleep x t (s.blockView t)) (hn : (s.thread t).waitMultiCount = 0)
    (hw : (s.thread t).state = .waiting) : Asleep x t ((s.threadUnlinkWaits t).blockView t) := by
  obtain ⟨ho, hc, htimed, htick, hnd, hticks, hfew⟩ := threadUnlinkWaits_single hn
  refine ⟨.of_awake ho hc fun d b hb => ?_, fun d hd b hb => h.off d hd b (hfew d _ hb),
    fun ht he => h.timeout ht ⟨hw, htimed.symm.trans he.2.1, ?_⟩, fun _ _ => hc⟩
  · exact (h.exact.bound d b (hfew d _ hb)).trans_eq hnd.symm
  · have hle := he.2.2
    rw [htick] at hle
    exact hle.trans_eq hticks

theorem Asleep.ready (h : Asleep x t (s.blockView t)) (hk : x.kills t)
    (hw : (s.thread t).state = .waiting) (hno : s.waitView.NoBlocks t) :
    Asleep x t ((s.schedReady t).blockView t) := by
  have hc := h.killed hk hw
  have ho : (s.blockView t).thread.wait.object = none := by
    by_contra hne
    obtain ⟨d, hd⟩ := Option.ne_none_iff_exists'.1 hne
    exact hno d _ (h.exact.single hc d hd).2 rfl
  rw [schedReady_wakes hw]
  exact ⟨.of_awake ho hc h.exact.bound, h.off, fun ht he => h.timeout ht ⟨hw, he.2⟩, fun _ _ => hc⟩

theorem Asleep.multiDone (h : Asleep x t (s.blockView t)) (hw : (s.thread t).state = .running)
    (objs : List Nat) : Asleep x t ((s.multiDone t objs).blockView t) := by
  have hfew : Fewer s (s.multiDone t objs) := fun d b hb =>
    unlinkBlocks_fewer t objs.length (s.modThread t fun th => { th with cont := .code }) d b hb
  have hnd : (s.multiDone t objs).ndisp = s.ndisp :=
    (unlinkBlocks_thread t objs.length (s.modThread t fun th => { th with cont := .code })).2.ndisp
  have hth := multiDone_thread s t objs
  refine ⟨.of_awake ?_ ?_ fun d b hb => ?_, fun d hd b hb => h.off d hd b (hfew d _ hb),
    fun _ he => ?_, fun _ _ => ?_⟩
  · simp [blockView, Thread.blocks, Thread.endWait, hth]
  · simp [blockView, Thread.blocks, Thread.endWait, hth]
  · exact (h.exact.bound d b (hfew d _ hb)).trans_eq hnd.symm
  · have hwait := he.1
    simp [blockView, Thread.blocks, Thread.endWait, hth, hw] at hwait
  · simp [blockView, Thread.blocks, Thread.endWait, hth]

theorem Move.asleep {E : Prop} (hm : Move E x s s') (h : Asleep x t (s.blockView t)) :
    Asleep x t (s'.blockView t) := by
  have hlike : ∀ {s' : Kernel}, Alike t s s' → Asleep x t (s'.blockView t) := fun ha => by
    obtain ⟨_, _, _, he⟩ := id ha
    refine ⟨h.exact.of_alike ha, ?_, ?_, ?_⟩ <;> rw [he]
    exacts [h.off, h.timeout, h.killed]
  have hsame : ∀ {s' : Kernel}, s'.blockView t = s.blockView t → Asleep x t (s'.blockView t) :=
    fun he => hlike (.of_eq he)
  have hoff : ∀ {d}, x.wakes d → s.Off t d := fun hd => off_iff.2 (h.off _ hd)
  cases hm with
  | signal f _ _ => exact hsame (modSignal_block s _ f)
  | wake hd _ => exact hlike (dispWakeOne_alike (hoff hd) _)
  | abandon _ hd _ _ _ _ => exact hlike (.of_held ((abandon_block s _ t).2 (hoff hd).head))
  | take _ _ _ =>
    obtain ⟨_, he⟩ := tryWait_view s _ _ t
    exact hlike (.of_held he)
  | boost q _ _ => exact hsame ((schedBoost_reprio s _ q).block t)
  | @unlink u hu =>
    by_cases hut : u = t
    · subst hut
      rcases hu with ⟨-, -, hrun, -⟩ | ⟨hk, -, hw⟩
      · exact hsame (threadUnlinkWaits_block s fun _ => h.exact.of_running hrun)
      · exact h.unlink (h.killed hk hw) hw
    · exact hsame (threadUnlinkWaits_block s fun he => absurd he hut)
  | kill st _ _ _ => exact hlike (modThread_alike s fun _ => ⟨_, _, rfl⟩)
  | @ready u _ hu =>
    by_cases hut : u = t
    · subst hut
      rcases hu with hst | ⟨hk, -, hw, hno⟩
      · exact hsame (schedReady_block s fun _ => by rw [hst]; simp)
      · exact h.ready hk hw hno
    · exact hsame (schedReady_block s fun he => absurd he hut)
  | expire u ht => exact hsame (expire_block u fun _ => h.timeout ht)
  | timers _ _ _ _ => exact h
  | quantum _ _ => exact hsame (useQuantum_block s _ t)
  | goOn _ _ _ _ => exact hlike (modThread_alike s fun _ => ⟨_, _, rfl⟩)
  | @finish c objs _ _ hrun _ _ =>
    by_cases hct : c = t
    · subst hct
      exact h.multiDone hrun objs
    · exact hsame (multiDone_block hct s objs)
  | died _ _ => exact h
  | dropped _ _ => exact h

theorem Begins.exact {c : Nat} {s2 : Kernel} (hb : Begins x c s s2) (hg : Good s) (hc : s.Caller c)
    (h : (s.blockView t).Exact) : (s2.blockView t).Exact := by
  by_cases hct : c = t
  · subst hct
    have hno : ∀ d b, ¬ (s.blockView c).linked d b := fun d b hm =>
      hg.inv.noBlocks_code hc.code d _ hm rfl
    cases hb with
    | @single d timeout _ _ hd _ _ =>
      rw [enqueue_self hc.current hc.code]
      refine ⟨fun _ e he => ⟨trivial, .inr ⟨(Option.some.inj he).symm, rfl⟩⟩, fun hw => absurd trivial hw,
        fun i hi => ?_, fun e b hb => ?_⟩
      · have hz : ((s.blockView c).wait d timeout).thread.multiCount = 0 :=
          (h.of_running hc.running).2
        exact absurd (hz ▸ hi) (Nat.not_lt_zero i)
      · rcases hb with hb | ⟨rfl, -⟩
        · exact absurd hb (hno e b)
        · exact hd
    | @multi objs waitAll timeout hw _ hlen hs =>
      rw [queueMulti_self hg.core hc.current hc.code hs]
      refine ⟨fun hz => absurd hz hlen.1, fun hw => absurd trivial hw, fun i hi d ho => .inr ?_,
        fun e b hb => ?_⟩
      · have hi' : i < objs.length := hi
        refine ⟨i, by rw [Nat.zero_add], ?_⟩
        simpa [BlockView.waitMultiple, BlockView.queue, hi'] using ho
      · rcases hb with hb | ⟨j, -, hj⟩
        · exact absurd hb (hno e b)
        · exact (hw e (List.mem_of_getElem? hj)).2
  · rw [hb.block hg hc hct]
    exact h

theorem Stepped.exact (hs : Stepped x s s') (hg : Good s) (h : Asleep x t (s.blockView t)) :
    (s'.blockView t).Exact := by
  refine hs.keeps (I := fun s => Asleep x t (s.blockView t)) (J := fun s => (s.blockView t).Exact) hg
    (fun _ _ _ _ hm => hm.asleep) (fun s c st _ he h => ?_) (fun _ _ h => h) (fun _ h => h.exact)
    (fun s _ h => ?_) (fun s c s2 hg _ _ hc hb h => hb.exact hg hc h.exact) (fun _ h => h.exact)
    (fun s hg h => ?_) h
  · have hv : (s.endThread c st).blockView t = s.blockView t :=
      modThread_block s fun hct => by
        subst hct
        simp [Thread.blocks, he.running]
    rw [hv]
    exact h
  · exact h.exact.of_alike (suspend_alike s _ t)
  · rw [schedReschedule_block hg.core]
    exact h

/-! ## New objects -/

theorem Created.exact (h : Created t s s') (hx : (s.blockView t).Exact) :
    (s'.blockView t).Exact := by
  have hb : ∀ d b, (s'.blockView t).linked d b → d < s'.ndisp := fun d b hb =>
    (hx.bound d b (h.linked hb)).trans_le h.ndisp
  have hl : ∀ {d b}, (s.blockView t).linked d b → (s'.blockView t).linked d b := fun {d b} hb =>
    (show (t, b) ∈ (s'.disp d).waitList by rw [h.eq (hx.bound d b hb)]; exact hb)
  rcases h.thread with he | ⟨-, d, p, q, he⟩
  · have hv : (s'.blockView t).thread = (s.blockView t).thread := he
    refine ⟨fun hz d ho => ?_, fun hw => ?_, fun i hi d ho => ?_, hb⟩
    · rw [hv] at hz ho ⊢
      exact ⟨(hx.single hz d ho).1, hl (hx.single hz d ho).2⟩
    · rw [hv] at hw ⊢
      exact hx.awake hw
    · rw [hv] at hi ho
      exact hl (hx.multi i hi d ho)
  · refine .of_awake ?_ ?_ hb
    · rw [blockView, he]
      rfl
    · rw [blockView, he]
      rfl

end Kernel

/-! ## Runs -/

open Kernel

theorem NotWoken.asleep (hw : NotWoken t s op) (hx : (s.blockView t).Exact) :
    Asleep (s.scope op) t ((s.advance op).blockView t) := by
  obtain ⟨n, hn⟩ := s.advance_eq op
  refine ⟨?_, fun d hd b hb => ?_, fun ht => ?_, fun ⟨st, hk⟩ hwait => ?_⟩
  · rw [hn]
    exact ⟨hx.single, hx.awake, hx.multi, hx.bound⟩
  · rw [hn] at hb
    exact off_iff.1 (hw.1 d hd) b hb
  · subst ht
    exact hw.2
  · subst hk
    exact hw.2 rfl hwait

theorem keStep_blocks {s' : Kernel} (h : Inv none none s) (hready : ReadyInv s)
    (hx : (s.blockView t).Exact) (hok : KeOk s op) (hro : ReadyOk s op) (hw : NotWoken t s op)
    (hr : keStep s op = some s') : (s'.blockView t).Exact := by
  have hgood : Good s := ⟨hready.core, h⟩
  have hstep : op.creates = false → (s'.blockView t).Exact := fun hnew => by
    rcases keStep_stepped hgood hready.runs hok hro hnew hr with hs | ⟨m, c, rfl, hm, hcase⟩
    · obtain ⟨n, hn⟩ := s.advance_eq op
      exact hs.exact (hn ▸ hgood.ticks n) (hw.asleep hx)
    · rcases hcase with ⟨-, rfl⟩ | ⟨hone, rfl⟩
      · exact hx.of_alike (.of_held (modDisp_held s rfl rfl))
      · have hoff : s.Off t m := hw.1 m (by simp [signaled, hm.caller.current, hm.owner, hone])
        exact hx.of_alike (.of_held ((releaseLast_block s m c t).2 hoff.head))
  cases hnew : op.creates with
  | false => exact hstep hnew
  | true => exact (keStep_created hnew hr).exact hx

theorem schedInit_blocks (t : Nat) : (schedInit.blockView t).Exact := by
  have hx : (blank.blockView t).Exact := .of_awake rfl rfl fun _ _ hb => by cases hb
  have h1 : (blank.pspCreateProcess.blockView t).Exact :=
    (keStep_created (show KeOp.createProcess.creates = true from rfl) rfl).exact hx
  exact (pspCreateThread_created _ 0 priorityIdle false).exact h1

/-- **Wait blocks.** A thread whose waits have all ended by a kill in a wait for one object, or not
at all, has on record exactly the dispatchers that it is linked to. -/
theorem wait_block_exact {t : Nat} {ops : List KeOp} (hl : Run.Legal keStep
      (fun s op => (KeOk s op ∧ ReadyOk s op) ∧ NotWoken t s op) schedInit ops)
    {s : Kernel} (hr : Run.run keStep schedInit ops = some s) : WaitBlockExact s t := by
  have h : ReadyInv s ∧ Inv none none s ∧ (s.blockView t).Exact :=
    Run.run_keeps (I := fun s => ReadyInv s ∧ Inv none none s ∧ (s.blockView t).Exact)
      (fun s op s' hi hok hs => ⟨keStep_readyInv s op s' hi.1 hok.1.1 hs,
        (keStep_mutex hi.2.1 hi.1 hok.1.1 hok.1.2 hs).1,
        keStep_blocks hi.2.1 hi.1 hi.2.2 hok.1.1 hok.1.2 hok.2 hs⟩)
      ⟨schedInit_readyInv, schedInit_inv, schedInit_blocks t⟩ hl hr
  exact h.2.2.waitBlockExact

/-- A thread that is killed while it waits for an event. -/
theorem wait_block_exact_killed : ∃ s, Run.run keStep schedInit
      [.createThread 0 8 false, .createThread 0 8 false, .createEvent true false, .yield, .resume,
        .wait 4 infinite, .resume, .kill 1 7] = some s ∧
    (s.thread 1).state = .ready ∧ WaitBlockExact s 1 := by
  obtain ⟨s, hs, hst⟩ : ∃ s, Run.run keStep schedInit
      [.createThread 0 8 false, .createThread 0 8 false, .createEvent true false, .yield, .resume,
        .wait 4 infinite, .resume, .kill 1 7] = some s ∧ (s.thread 1).state = .ready := by
    decide +kernel
  exact ⟨s, hs, hst, wait_block_exact (by decide +kernel) hs⟩

/-- The first thread waits for an event, the second one sets it. -/
def signaledWait : List KeOp :=
  [.createThread 0 8 false, .createThread 0 8 false, .createEvent true false, .yield, .resume,
    .wait 4 infinite, .resume, .signal 4, .yield, .resume]

/-- Back in its own code, the first thread still has the event on record, although it is on no wait
list any more: were it to exit now, `thread_unlink_waits` would lock the event. -/
theorem wait_object_stale :
    Run.Legal keStep (fun s op => KeOk s op ∧ ReadyOk s op) schedInit signaledWait ∧
    ∃ s, Run.run keStep schedInit signaledWait = some s ∧ (s.thread 1).state = .running ∧
      (s.thread 1).wait.object = some 4 ∧ (s.thread 1).waitMultiCount = 0 ∧
      (s.disp 4).waitList = [] ∧ s.unlinkTouches 1 = [4] := by
  decide +kernel

end Aegis
