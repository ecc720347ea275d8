import Aegis.Ke.Proof.Moves

/-!
# The steps of the kernel, move by move

`keStep_stepped`: a step other than the creation of an object is made of moves. The dispatchers that
they wake blocks of are those that the step signals or hands on (`signaled`).
-/

namespace Aegis

open Outcome

/-! ## What a step is about -/

namespace Kernel

/-- The dispatchers that the end of the thread `c` signals: its mutexes, its own one, and, if it is
the last of its process, the one of the process and what the handles of the process close. -/
def endTargets (s : Kernel) (c : Nat) : List Nat :=
  (s.thread c).ownedMutexes ++ (s.thread c).disp ::
    let p := s.process (s.thread c).process
    if u32 (p.threadCount + (2 ^ 32 - 1)) = 0 then p.disp :: p.closes else []

/-- The thread `c`, if it runs and has been killed, ends as soon as it waits or goes on. -/
def dyingTargets (s : Kernel) : List Nat :=
  match s.current with
  | none => []
  | some c => if (s.thread c).killPending then s.endTargets c else []

/-- The dispatchers that a step signals, or hands on. -/
def signaled (s : Kernel) : KeOp → List Nat
  | .signal d | .wakeOne d => [d]
  | .release m => if s.current = (s.disp m).owner ∧ (s.disp m).recursion = 1 then [m] else []
  | .exit _ =>
    match s.current with
    | none => []
    | some c => s.endTargets c
  | .kill u _ => if s.current = some u then s.endTargets u else []
  | .wait .. | .waitMultiple .. | .resume => s.dyingTargets
  | .tick => s.timers.filter fun d => (s.timer d).armed ∧ u64 (s.ticks + 1) ≥ (s.timer d).dueTick
  | _ => []

/-- The dispatchers that a step waits for, or whose signal state it sets. -/
def waited (s : Kernel) : KeOp → List Nat
  | .wait d _ | .setSignal d _ | .setTimer d _ _ | .cancelTimer d => [d]
  | .waitMultiple objs _ _ => objs
  | .resume =>
    match s.current with
    | none => []
    | some c =>
      match (s.thread c).cont with
      | .waitMultiple objs _ => objs
      | .code | .start | .switched | .waitObject => []
  | _ => []

/-- The dispatchers that a call may change. -/
def scope (s : Kernel) (op : KeOp) : Scope where
  wakes := (· ∈ s.signaled op)
  sets := (· ∈ s.waited op)
  enters k n :=
    match op with
    | .wait _ timeout => k = .waitObject ∧ n = timeout
    | .waitMultiple objs waitAll timeout => k = .waitMultiple objs waitAll ∧ n = timeout
    | _ => False
  kills t := ∃ st, op = .kill t st
  ticks := op = .tick
  boosts := ∃ t prio, op = .boost t prio

def advance (s : Kernel) : KeOp → Kernel
  | .tick => { s with ticks := u64 (s.ticks + 1) }
  | _ => s

end Kernel

/-- `sched_ready` is called for a new thread. -/
def ReadyOk (s : Kernel) : KeOp → Prop
  | .ready t => (s.thread t).state = .unused
  | _ => True

instance (s : Kernel) (op : KeOp) : Decidable (ReadyOk s op) := by
  apply KeOp.casesOn (motive := fun op => Decidable (ReadyOk s op)) op <;> intros <;>
    dsimp only [ReadyOk] <;> infer_instance

/-- The steps that create an object, or say what the end of a process closes. -/
def KeOp.creates : KeOp → Bool
  | .createProcess | .createThread .. | .createEvent .. | .createTimer _ | .createMutex _
  | .setCloses .. => true
  | _ => false

namespace Kernel

variable {E : Prop} {x : Scope} {s s' : Kernel} {t c d m p : Nat} {st : StatusCode}
variable {k now timeout : Nat}

theorem advance_eq (s : Kernel) (op : KeOp) : ∃ n, s.advance op = { s with ticks := n } := by
  cases op with
  | tick => exact ⟨_, rfl⟩
  | _ => exact ⟨s.ticks, rfl⟩

/-- Moves that keep a condition. -/
theorem keepingRule (E : Prop) (x : Scope) (P : Kernel → Prop) :
    Rule fun s s' => P s → P s' ∧ Moves E x s s' :=
  ⟨fun _ h => ⟨h, .refl⟩, fun _ _ _ h1 h2 h => ⟨(h2 (h1 h).1).1, (h1 h).2.trans (h2 (h1 h).1).2⟩⟩

/-! ## Signals -/

theorem dispSignal_moves (hd : x.wakes d) (h : s.Signals d) (i : Int) :
    Moves E x s (s.dispSignal d i) := by
  refine ((keepingRule E x (·.Signals d)).dispSignal (fun s f h => ?_) (fun s h => ?_) s i h).2
  · exact ⟨(modSignal_kept (P := fun _ => False) s d f).signals h, .single (.signal f (.inl hd) h)⟩
  · exact ⟨(dispWakeOne_kept (P := fun _ => False) s _ (.inl h.2)).signals h, .single (.wake hd h)⟩

theorem signalAll_moves {l : List Nat} (hl : ∀ d ∈ l, x.wakes d) (h : Good s) (hs : ∀ d ∈ l, s.Signals d) :
    Moves E x s (l.foldl (fun s d => s.dispSignal d 1) s) := by
  induction l generalizing s with
  | nil => exact .refl
  | cons d l ih =>
    have h1 : Moves E x s (s.dispSignal d 1) :=
      dispSignal_moves (hl d List.mem_cons_self) (hs d List.mem_cons_self) 1
    have hm := h1.spec h
    exact h1.trans (ih (fun e he => hl e (List.mem_cons_of_mem d he)) hm.good fun e he =>
      hm.kept.signals (hs e (List.mem_cons_of_mem d he)))

/-! ## Ends -/

theorem abandonLoop_moves (hc : s.current = some c) (hno : s.waitView.NoBlocks c)
    (hout : (s.thread c).cont = .code ∨ (s.thread c).killPending = true)
    (hD : ∀ m ∈ (s.thread c).ownedMutexes, x.wakes m) (hr : abandonLoop c k s = .ok s') :
    Moves True x s s' ∧ s'.waitView.NoBlocks c := by
  let P (s : Kernel) : Prop := s.current = some c ∧ s.waitView.NoBlocks c ∧
    ((s.thread c).cont = .code ∨ (s.thread c).killPending = true) ∧
    ∀ m ∈ (s.thread c).ownedMutexes, x.wakes m
  have h := (keepingRule True x P).abandonLoop (fun s m hm h => ?_) hr ⟨hc, hno, hout, hD⟩
  · exact ⟨h.2, h.1.2.1⟩
  · obtain ⟨hc, hno, hout, hD⟩ := h
    have hrest := abandon_rest s m
    have hth := congrFun (congrArg RestView.thread hrest) c
    refine ⟨⟨(congrArg RestView.current hrest).trans hc, NoBlocks.fewer hno (abandon_fewer s m), ?_,
      fun m' hm' => ?_⟩, .single (.abandon trivial (hD m hm) hc hm hno hout)⟩
    · exact hout.imp (congrArg ThreadRest.cont hth).trans (congrArg ThreadRest.killPending hth).trans
    · exact hD m' (List.mem_of_mem_filter ((abandon_owned hno m).subset hm'))

theorem abandonLoop_owned (hr : abandonLoop c k s = .ok s') : (s'.thread c).ownedMutexes = [] := by
  induction k generalizing s with
  | zero =>
    unfold abandonLoop at hr
    split at hr
    · next hnil =>
      cases hr
      exact hnil
    · cases hr
  | succ k ih =>
    unfold abandonLoop at hr
    split at hr
    · next hnil =>
      cases hr
      exact hnil
    · exact ih hr

section
variable (h : Good s)
include h

theorem processLeave_moves (hp : p < s.nprocess)
    (hD : u32 ((s.process p).threadCount + (2 ^ 32 - 1)) = 0 →
      ∀ d ∈ (s.process p).disp :: (s.process p).closes, x.wakes d)
    (hr : s.processLeave p st = .ok s') : Moves E x (s.leaveProcess p) s' := by
  unfold processLeave at hr
  simp only at hr
  split at hr
  · next hz =>
    split at hr
    · cases hr
    · cases hr
      have hz' : ((s.leaveProcess p).process p).threadCount = 0 := hz
      have hl : ∀ d ∈ (s.process p).disp :: (s.process p).closes, x.wakes d ∧ s.Signals d := fun d hd =>
        ⟨hD (by simpa [modProcess] using hz) d hd, by
          rcases List.mem_cons.1 hd with rfl | hd
          · exact (h.inv.processDisp p hp).1
          · exact (h.inv.processDisp p hp).2 d hd⟩
      have hm : Move E x (s.leaveProcess p) ((s.leaveProcess p).modProcess p fun x =>
        { x with exitStatus := st, terminating := true }) := .died st hz'
      obtain ⟨s1, hs1⟩ : ∃ s1, ((s.leaveProcess p).modProcess p fun x =>
        { x with exitStatus := st, terminating := true }) = s1 := ⟨_, rfl⟩
      have hlist : (s1.process p).disp :: (s1.process p).closes =
          (s.process p).disp :: (s.process p).closes := by
        rw [← hs1]
        simp [leaveProcess, modProcess]
      have hzero : (s1.process p).threadCount = 0 := by
        rw [← hs1]
        simpa [modProcess] using hz'
      have hg1 : Good s1 := hs1 ▸ (hm.spec (h.leaveProcess p)).good
      have hsig : ∀ d ∈ (s.process p).disp :: (s.process p).closes, s1.Signals d := fun d hd => by
        rw [← hs1]
        exact (hl d hd).2
      rw [hs1] at hm
      refine .head hm ?_
      show Moves E x s1 (((s.leaveProcess p).modProcess p fun x =>
        { x with exitStatus := st, terminating := true }).processEnd p)
      rw [hs1]
      have hall : Moves E x s1 (((s1.process p).disp :: (s1.process p).closes).foldl
          (fun s d => s.dispSignal d 1) s1) := by
        rw [hlist]
        exact signalAll_moves (fun d hd => (hl d hd).1) hg1 hsig
      have hproc : (s1.dispSignal (s1.process p).disp 1).process = s1.process :=
        congrArg RestView.process (dispSignal_rest s1 _ 1)
      have hrest : ((((s1.process p).disp :: (s1.process p).closes).foldl
          (fun s d => s.dispSignal d 1) s1)).process = s1.process :=
        (Rule.of_view process).foldl _ (fun d _ s => congrArg RestView.process (dispSignal_rest s d 1))
          s1
      unfold processEnd
      simp only [hproc]
      rw [List.foldl_cons] at hall hrest
      split
      · split
        · exact hall
        · next i hi =>
          refine hall.tail (.dropped (p := p) ?_ ?_)
          · rw [hrest]
            exact hzero
          · obtain ⟨hx, hget⟩ := SwapList.findAt_some hi
            rw [hget]
            simpa using hx
      · exact hall
  · cases hr
    exact .refl

theorem schedExitThread_stepped (hc : s.current = some c) (hrun : (s.thread c).state = .running)
    (hi : c ≠ s.idle) (hout : (s.thread c).cont = .code ∨ (s.thread c).killPending = true)
    (hD : ∀ d ∈ s.endTargets c, x.wakes d) (hr : s.schedExitThread st = .ok s') :
    Stepped x s s' := by
  obtain ⟨s1, s0, s2, hr1, hs0, hr2, rfl⟩ := schedExitThread_cases hc hr
  have hu : Moves True x s (s.threadUnlinkWaits c) := .single (.unlink (.inl ⟨trivial, hc, hrun, hout⟩))
  have hown := threadUnlinkWaits_owned s c c
  obtain ⟨ha, hno⟩ : Moves True x (s.threadUnlinkWaits c) s1 ∧ s1.waitView.NoBlocks c := by
    have hrest := threadUnlinkWaits_rest s c
    have hth := congrFun (congrArg RestView.thread hrest) c
    refine abandonLoop_moves ?_ (threadUnlinkWaits_spec h.inv c).2.1 ?_ (fun m hm => ?_) hr1
    · exact (congrArg RestView.current hrest).trans hc
    · exact hout.imp (congrArg ThreadRest.cont hth).trans (congrArg ThreadRest.killPending hth).trans
    · rw [hown] at hm
      exact hD m (List.mem_append_left _ hm)
  have h1 : Moves True x s s1 := hu.trans ha
  have hm1 := h1.spec h
  have hrest : s1.restView = s.restView :=
    (abandonLoop_rest hr1).trans (threadUnlinkWaits_rest s c)
  have he : s1.Ending c := ⟨hm1.woken.current.trans hc, hm1.running hrun,
    fun he => hi (he.trans hm1.woken.idle), hno, abandonLoop_owned hr1⟩
  have hg0 : Good s0 := hs0 ▸ he.good hm1.good
  have hth : (s0.thread c).disp = (s.thread c).disp ∧ (s0.thread c).process = (s.thread c).process ∧
      s0.process = s.process := by
    rw [hs0]
    have ht : (s1.thread c).rest = (s.thread c).rest := congrFun (congrArg RestView.thread hrest) c
    simp only [modThread, Function.update_self]
    exact ⟨congrArg ThreadRest.disp ht, congrArg ThreadRest.process ht,
      congrArg RestView.process hrest⟩
  have hlt : c < s0.nthread := hg0.lt (by rw [hs0]; simp [modThread])
  have h2 : Moves True x s0 (s0.dispSignal (s0.thread c).disp 1) := by
    have hDc : x.wakes (s0.thread c).disp := by
      rw [hth.1]
      exact hD _ (List.mem_append_right _ List.mem_cons_self)
    exact dispSignal_moves hDc (hg0.inv.threadDisp c hlt).1 1
  have hm2 := h2.spec hg0
  have hrest2 := dispSignal_rest s0 (s0.thread c).disp 1
  have hp2 : ((s0.dispSignal (s0.thread c).disp 1).thread c).process = (s.thread c).process :=
    (congrArg ThreadRest.process (congrFun (congrArg RestView.thread hrest2) c)).trans hth.2.1
  have hproc2 : (s0.dispSignal (s0.thread c).disp 1).process = s.process :=
    (congrArg RestView.process hrest2).trans hth.2.2
  have h3 : Moves True x ((s0.dispSignal (s0.thread c).disp 1).leaveProcess
      ((s0.dispSignal (s0.thread c).disp 1).thread c).process) s2 := by
    refine processLeave_moves hm2.good (hm2.good.inv.threadDisp c
      (hlt.trans_eq hm2.woken.nthread.symm)).2 (fun hz d hd => ?_) hr2
    rw [hp2, hproc2] at hz hd
    refine hD d (List.mem_append_right _ (List.mem_cons_of_mem _ ?_))
    simp only [hz, if_true]
    exact hd
  subst hs0
  exact .exits h1 he h2 h3

theorem schedKillThread_stepped (hrun : ∀ c ∈ s.current, (s.thread c).state = .running)
    (hcalls : s.Calls) (hk : x.kills t)
    (hD : s.current = some t → ∀ d ∈ s.endTargets t, x.wakes d)
    (hr : s.schedKillThread t st = .ok s') : Stepped x s s' := by
  unfold schedKillThread at hr
  split at hr
  · cases hr
    exact .moves .refl
  · next hi =>
    split at hr
    · cases hr
      exact .moves .refl
    · split at hr
      · next hc => exact schedExitThread_stepped h hc (hrun t hc) hi (.inl (hcalls t hc).1) (hD hc) hr
      · next hc =>
        obtain ⟨s1, hs1⟩ : ∃ s1, (s.modThread t fun th =>
          { th with killPending := true, exitStatus := st }) = s1 := ⟨_, rfl⟩
        have hm : Move False x s s1 := hs1 ▸ .kill st hk hi hc
        simp only [hs1] at hr
        split at hr
        · next hw =>
          cases hr
          have hg := (hm.spec h).good
          have hkp : (s1.thread t).killPending = true := by
            rw [← hs1]
            simp [modThread]
          have hu : Move False x s1 (s1.threadUnlinkWaits t) := .unlink (.inr ⟨hk, hkp, hw⟩)
          refine .moves (.tail (.tail (.single hm) hu) (.ready ?_ (.inr ⟨hk, ?_, ?_, ?_⟩)))
          · exact (hg.lt (by rw [hw]; simp)).trans_eq (hu.spec hg).woken.nthread.symm
          · have ht := congrFun (congrArg RestView.thread (threadUnlinkWaits_rest s1 t)) t
            exact (congrArg ThreadRest.killPending ht).trans hkp
          · have hv := congrArg SchedView.state (threadUnlinkWaits_view s1 t)
            exact (congrFun hv t).trans hw
          · exact (threadUnlinkWaits_spec hg.inv t).2.1
        · cases hr
          exact .moves (.single hm)

/-! ## Ticks -/

theorem timerFire_moves (hd : d ∈ s.timers) (hD : x.wakes d) : Moves E x s (s.timerFire now d) := by
  have h1 : Move E x s ((s.unlinkTimer d).modTimer d fun x => { x with armed := false }) :=
    .timers _ _ s.timerUp fun e he => h.inv.timers e (List.mem_of_mem_filter he)
  have hm1 := h1.spec h
  have h2 : Moves E x _ (((s.unlinkTimer d).modTimer d fun x =>
      { x with armed := false }).dispSignal d 1) :=
    dispSignal_moves hD (hm1.kept.signals (h.inv.timers d hd)) 1
  have hm2 := hm1.trans (h2.spec hm1.good)
  unfold timerFire
  simp only
  generalize ((s.unlinkTimer d).modTimer d fun x => { x with armed := false }).dispSignal d 1 = s2
    at h2 hm2 ⊢
  split
  · refine .tail (.head h1 h2) (.timers _ _ s2.timerUp fun e he => ?_)
    rcases List.mem_append.1 he with he | he
    · exact hm2.good.inv.timers e he
    · rw [List.mem_singleton] at he
      subst he
      exact hm2.kept.signals (h.inv.timers e hd)
  · exact .head h1 h2

/-- A timer that has been fired may be due again, but the others have not changed. -/
theorem timerTick_moves
    (hD : ∀ d ∈ s.timers, (s.timer d).armed = true ∧ (s.timer d).dueTick ≤ now → x.wakes d)
    (hr : s.timerTick now = .ok s') : Moves E x s s' := by
  refine ((keepingRule E x fun s => Good s ∧
    ∀ d ∈ s.timers, (s.timer d).armed = true ∧ (s.timer d).dueTick ≤ now → x.wakes d).timerTick
      (fun s d hd hdue h => ?_) hr ⟨h, hD⟩).2
  obtain ⟨h, hD⟩ := h
  have hm : Moves E x s (s.timerFire now d) := timerFire_moves h hd (hD d hd hdue)
  obtain ⟨hl, ht⟩ := timerFire_timers s now d
  refine ⟨⟨(hm.spec h).good, fun e he hdue' => ?_⟩, hm⟩
  by_cases hed : e = d
  · subst hed
    exact hD e hd hdue
  · rw [ht, Function.update_of_ne hed] at hdue'
    rw [hl, List.mem_append] at he
    refine hD e ?_ hdue'
    rcases he with he | he
    · exact List.mem_of_mem_filter he
    · split at he
      · exact absurd (List.mem_singleton.1 he) hed
      · cases he

theorem keOnTick_stepped (ht : x.ticks) (hrun : ∀ c ∈ s.current, (s.thread c).state = .running)
    (hD : ∀ d ∈ s.timers, (s.timer d).armed = true ∧ (s.timer d).dueTick ≤ u64 (s.ticks + 1) → x.wakes d)
    (hr : s.keOnTick = .ok s') : Stepped x { s with ticks := u64 (s.ticks + 1) } s' := by
  unfold keOnTick at hr
  simp only [bind_eq_ok] at hr
  obtain ⟨s1, hr1, hr2⟩ := hr
  have h0 := h.ticks (u64 (s.ticks + 1))
  have h1 : Moves False x { s with ticks := u64 (s.ticks + 1) } s1 := timerTick_moves h0 hD hr1
  have h2 : Moves False x { s with ticks := u64 (s.ticks + 1) } s1.timeoutScan :=
    h1.trans (movesRule.timeoutScan (fun s t => .single (.expire t ht)) s1)
  split at hr2
  · cases hr2
    exact .moves h2
  · next c hc =>
    have h3 : Moves False x { s with ticks := u64 (s.ticks + 1) } (s1.timeoutScan.useQuantum c) :=
      h2.tail (.quantum ht hc)
    have hm3 := h3.spec h0
    cases hr2
    split
    · refine .yields h3 fun u hu => hm3.running ?_
      rw [hm3.woken.current] at hu
      exact hrun u hu
    · exact .moves h3

theorem keSetTimer_moves (hd : s.Signals d) (hW : x.sets d) (due period : Nat) :
    Moves E x s (s.keSetTimer d due period) := by
  have h0 : Moves E x s (if s.timerUp then s else { s with timers := [], timerUp := true }) := by
    split
    · exact .refl
    · exact .single (.timers s.timer [] true fun e he => by cases he)
  have hdis : ∀ {s : Kernel}, Good s → Moves E x s (s.disarm d) := fun {s} h => by
    unfold disarm
    split
    · exact .single (.timers _ _ s.timerUp fun e he => h.inv.timers e (List.mem_of_mem_filter he))
    · exact .refl
  unfold keSetTimer
  simp only
  generalize (if s.timerUp then s else { s with timers := [], timerUp := true }) = s0 at h0 ⊢
  have h1 : Moves E x s (s0.disarm d) := h0.trans (hdis (h0.spec h).good)
  generalize s0.disarm d = s1 at h1 ⊢
  have hm1 := h1.spec h
  have h2 : Move E x s1 (s1.modTimer d fun _ =>
      ⟨true, u64 (s1.ticks + if due ≠ 0 then due else 1), period⟩) :=
    .timers _ s1.timers s1.timerUp hm1.good.inv.timers
  have hm2 := hm1.trans (h2.spec hm1.good)
  have h3 : Moves E x s ((s1.modTimer d fun _ =>
      ⟨true, u64 (s1.ticks + if due ≠ 0 then due else 1), period⟩).modDisp d fun x =>
        { x with signalState := 0 }) :=
    (h1.tail h2).tail (.signal (fun _ => 0) (.inr hW) (hm2.kept.signals hd))
  refine h3.tail (.timers _ _ _ fun e he => ?_)
  rcases List.mem_append.1 he with he | he
  · exact (h3.spec h).good.inv.timers e he
  · rw [List.mem_singleton] at he
    subst he
    exact (h3.spec h).kept.signals hd

theorem keCancelTimer_moves (hd : s.Signals d) (hW : x.sets d) :
    Moves E x s (s.keCancelTimer d) := by
  have h1 : Moves E x s (s.disarm d) := by
    unfold disarm
    split
    · exact .single (.timers _ _ s.timerUp fun e he => h.inv.timers e (List.mem_of_mem_filter he))
    · exact .refl
  exact h1.tail (.signal (fun _ => 0) (.inr hW) ((h1.spec h).kept.signals hd))

end

/-! ## Waits -/

theorem Caller.tryWait (hc : s.Caller c) (h : Good s) (d : Nat) : (s.tryWait c d).2.Caller c := by
  have hrest := tryWait_rest s c d
  refine ⟨(congrArg RestView.current hrest).trans hc.current, ?_,
    (congrArg ThreadRest.cont (congrFun (congrArg RestView.thread hrest) c)).trans hc.code⟩
  rcases (tryWait_woken h.core c d).state c with he | ⟨hs, -⟩
  · exact he.trans hc.running
  · rw [hc.running] at hs
    simp at hs

/-- What a caller keeps that takes some of the objects `P`. -/
structure Taking (P : Nat → Prop) (c : Nat) (s : Kernel) : Prop where
  good : Good s
  caller : s.Caller c
  names : ∀ d, P d → d < s.ndisp

section

variable {P : Nat → Prop} (hP : ∀ d, P d → x.sets d)
variable {objs : List Nat}

include hP

theorem Taking.tryWait (h : Taking P c s) (hd : P d) :
    Taking P c (s.tryWait c d).2 ∧ Moves E x s (s.tryWait c d).2 := by
  have hm : Move E x s (s.tryWait c d).2 := .take (hP d hd) (h.names d hd) h.caller
  have hs := hm.spec h.good
  exact ⟨⟨hs.good, h.caller.tryWait h.good d, fun e he => by
    rw [hs.kept.ndisp]
    exact h.names e he⟩, .single hm⟩

theorem Taking.takeAll (h : Taking P c s) (hw : ∀ d ∈ objs, P d) : Moves E x s (takeAll c objs s) :=
  ((keepingRule E x (Taking P c)).foldl objs (fun d hd _ h => h.tryWait hP (hw d hd)) s h).2

theorem Taking.tryAny (h : Taking P c s) (hw : ∀ d ∈ objs, P d) (i : Nat) :
    Taking P c (tryAny c i objs s).2 ∧ Moves E x s (tryAny c i objs s).2 :=
  (keepingRule E x (Taking P c)).tryAny (fun d hd _ h => h.tryWait hP (hw d hd)) i s h

end

theorem tryWait_donated (hcore : ReadyCore s.schedView) (hnone : (s.tryWait c d).1 = none)
    (hty : (s.disp d).type = .mutant) {o : Nat} (ho : (s.disp d).owner = some o) (hi : o ≠ s.idle) :
    ((s.tryWait c d).2.thread c).priority ≤ ((s.tryWait c d).2.thread o).priority := by
  unfold Kernel.tryWait at hnone ⊢
  rw [if_pos hty] at hnone ⊢
  split at hnone
  · cases hnone
  · next hne =>
    rw [if_neg hne]
    split at hnone
    · cases hnone
    · next hs =>
      rw [if_neg hs]
      have hoc : o ≠ c := fun he => hne (he ▸ ho)
      rw [(mutexDonate_self s d c).1]
      have hp : (s.thread c).priority < 32 := hcore.prio c
      unfold mutexDonate
      rw [ho]
      simp only [if_neg hoc]
      split
      · next hle => exact hle
      · rw [schedBoost_priority (s.modThread o _) (by exact hi)]
        simp only [priorityLevels]
        omega

section
variable (h : Good s) (hrun : ∀ c ∈ s.current, (s.thread c).state = .running)
include h hrun

theorem keWaitObject_stepped (hcalls : s.Calls) (hd : d < s.ndisp)
    (hD : ∀ e ∈ s.dyingTargets, x.wakes e) (hW : x.sets d) (hx : x.enters .waitObject timeout)
    {r : Option StatusCode × Kernel} (hr : s.keWaitObject d timeout = .ok r) : Stepped x s r.2 := by
  unfold keWaitObject at hr
  split at hr
  · cases hr
    exact .moves .refl
  · next c hc =>
    obtain ⟨hcode, hi⟩ := hcalls c hc
    split at hr
    · next hk =>
      simp only [bind_eq_ok] at hr
      obtain ⟨s1, hr1, hr2⟩ := hr
      cases hr2
      refine schedExitThread_stepped h hc (hrun c hc) hi (.inr hk) (fun e he => hD e ?_) hr1
      simpa [dyingTargets, hc, hk] using he
    · next hk =>
      have hT : Taking (· = d) c s := ⟨h, ⟨hc, hrun c hc, hcode⟩, fun e he => he ▸ hd⟩
      obtain ⟨hT1, h1⟩ := hT.tryWait (x := x) (d := d) (fun e (he : e = d) => he ▸ hW) rfl
      have hrest := tryWait_rest s c d
      simp only at hr
      split at hr
      · cases hr
        exact .moves h1
      · next hnone =>
        split at hr
        · cases hr
          exact .moves h1
        · cases hr
          have hdisp : (s.tryWait c d).2.disp = s.disp := congrArg WaitView.disp (tryWait_none hnone)
          have hidle : (s.tryWait c d).2.idle = s.idle := congrArg RestView.idle hrest
          refine .waits h1 (tryWait_none hnone) hT1.caller (by rw [hidle]; exact hi) ?_
            (.single hW hx (hT1.names d rfl) ?_ fun hty o ho hio => ?_)
          · have hth := congrFun (congrArg RestView.thread hrest) c
            exact (congrArg ThreadRest.killPending hth).trans (Bool.eq_false_iff.2 hk)
          · rw [hdisp]
            exact tryWait_none_signal hnone
          · rw [hdisp] at hty ho
            rw [hidle] at hio
            exact tryWait_donated h.core hnone hty ho hio

theorem keWaitMultiple_stepped (hcalls : s.Calls) {objs : List Nat} (hd : ∀ d ∈ objs, d < s.ndisp)
    (hD : ∀ e ∈ s.dyingTargets, x.wakes e) (hW : ∀ d ∈ objs, x.sets d) {waitAll : Bool}
    (hx : x.enters (.waitMultiple objs waitAll) timeout) {r : Option StatusCode × Kernel}
    (hr : s.keWaitMultiple objs waitAll timeout = .ok r) : Stepped x s r.2 := by
  unfold keWaitMultiple at hr
  split at hr
  · cases hr
    exact .moves .refl
  · next hlen =>
    push Not at hlen
    split at hr
    · cases hr
      exact .moves .refl
    · next c hc =>
      obtain ⟨hcode, hi⟩ := hcalls c hc
      have hT : Taking (· ∈ objs) c s := ⟨h, ⟨hc, hrun c hc, hcode⟩, hd⟩
      split at hr
      · next hk =>
        simp only [bind_eq_ok] at hr
        obtain ⟨s1, hr1, hr2⟩ := hr
        cases hr2
        refine schedExitThread_stepped h hc (hrun c hc) hi (.inr hk) (fun e he => hD e ?_) hr1
        simpa [dyingTargets, hc, hk] using he
      · next hk =>
        have hk' : (s.thread c).killPending = false := by simpa using hk
        split at hr
        · next hall =>
          split at hr
          · cases hr
            exact .moves (hT.takeAll hW fun _ hm => hm)
          · split at hr
            · cases hr
              exact .moves .refl
            · cases hr
              rw [waitSlow_eq timeout (.inl hall)]
              exact .waits .refl rfl hT.caller hi hk'
                (.multi (fun d hm => ⟨hW d hm, hd d hm⟩) hx hlen (.inl hall))
        · obtain ⟨hT1, h1⟩ := hT.tryAny (x := x) hW (fun _ hm => hm) 0
          simp only at hr
          split at hr
          · cases hr
            exact .moves h1
          · next hnone =>
            split at hr
            · cases hr
              exact .moves h1
            · cases hr
              have hrest : (tryAny c 0 objs s).2.restView = s.restView :=
                (Rule.of_view restView).tryAny (fun d _ s => tryWait_rest s c d) 0 s
              have hv := tryAny_none objs 0 hnone
              have hsig : waitAll = true ∨
                  ∀ d ∈ objs, ¬ ((tryAny c 0 objs s).2.disp d).signalState > 0 := .inr fun d hm => by
                rw [show (tryAny c 0 objs s).2.disp = s.disp from congrArg WaitView.disp hv]
                exact tryAny_none_signal objs 0 hnone d hm
              rw [waitSlow_eq timeout hsig]
              refine .waits h1 hv hT1.caller ?_ ?_
                (.multi (fun d hm => ⟨hW d hm, hT1.names d hm⟩) hx hlen hsig)
              · rw [show (tryAny c 0 objs s).2.idle = s.idle from congrArg RestView.idle hrest]
                exact hi
              · have hth := congrFun (congrArg RestView.thread hrest) c
                exact (congrArg ThreadRest.killPending hth).trans hk'

theorem resume_stepped (hD : ∀ e ∈ s.dyingTargets, x.wakes e)
    (hW : ∀ d ∈ s.waited .resume, x.sets d) {r : Option StatusCode × Kernel}
    (hr : s.resume = .ok r) : Stepped x s r.2 := by
  unfold resume at hr
  split at hr
  · cases hr
    exact .moves .refl
  · next c hc =>
    have hrun := hrun c hc
    split at hr
    · next hk =>
      simp only [bind_eq_ok] at hr
      obtain ⟨s1, hr1, hr2⟩ := hr
      cases hr2
      refine schedExitThread_stepped h hc hrun ?_ (.inr hk) (fun e he => hD e ?_) hr1
      · rintro rfl
        rw [show (s.thread s.idle).killPending = false from h.core.alive] at hk
        cases hk
      · simpa [dyingTargets, hc, hk] using he
    · next hk =>
      have hk' : (s.thread c).killPending = false := by simpa using hk
      simp only at hr
      split at hr
      case h_5 objs waitAll hcont =>
        cases hr
        rw [finishMultiple_eq]
        have hm : Move False x s (s.multiDone c objs) := .finish hc hrun hk' hcont
        split
        · exact .moves (.single hm)
        · split
          · have hs := hm.spec h
            have hw : s.waited .resume = objs := by simp [waited, hc, hcont]
            have hT : Taking (· ∈ objs) c (s.multiDone c objs) :=
              ⟨hs.good, ⟨hs.woken.current.trans hc, hs.running hrun, by rw [multiDone_thread]; rfl⟩,
                fun d hd => (h.inv.names c objs waitAll hcont d hd).trans_eq hs.kept.ndisp.symm⟩
            exact .moves (.head hm (hT.takeAll (hw ▸ hW) fun _ => id))
          · exact .moves (.single hm)
      all_goals
        next hcont =>
          cases hr
          exact .moves (.single (.goOn hc hrun hk' fun _ _ he => by simp [hcont] at he))

end

/-! ## Steps -/

/-- The caller releases a mutex that it owns. -/
structure Releases (s : Kernel) (m c : Nat) : Prop where
  lt : m < s.ndisp
  mutex : (s.disp m).type = .mutant
  caller : s.Caller c
  owner : (s.disp m).owner = some c

end Kernel

open Kernel

/-- A step that creates nothing is made of moves, or releases a mutex. -/
theorem keStep_stepped {s s' : Kernel} {op : KeOp} (h : Good s)
    (hrun : ∀ c ∈ s.current, (s.thread c).state = .running) (hok : KeOk s op) (hro : ReadyOk s op)
    (hnew : op.creates = false) (hs : keStep s op = some s') :
    Stepped (s.scope op) (s.advance op) s' ∨
      ∃ m c, op = .release m ∧ s.Releases m c ∧
        (1 < (s.disp m).recursion ∧
          s' = (s.modDisp m fun x => { x with recursion := x.recursion - 1 }) ∨
        (s.disp m).recursion = 1 ∧ s' = s.releaseLast m c) := by
  cases op with
  | createProcess | createThread | createEvent | createTimer | createMutex | setCloses => cases hnew
  | ready t =>
    cases hs
    exact .inl (.moves (.single (.ready hok (.inl hro))))
  | boost t prio =>
    cases hs
    exact .inl (.moves (.single (.boost prio ⟨t, prio, rfl⟩ hok)))
  | kill t st =>
    refine .inl (schedKillThread_stepped h hrun hok.2 ⟨st, rfl⟩ (fun hc d hd => ?_) (get?_eq_some.1 hs))
    simp only [scope, signaled, if_pos (show s.current = some t from hc)]
    exact hd
  | exit st =>
    obtain ⟨c, hc⟩ := Option.ne_none_iff_exists'.1 hok.1
    refine .inl (schedExitThread_stepped h hc (hrun c hc) (hok.2 c hc).2 (.inl (hok.2 c hc).1)
      (fun d hd => ?_)
      (get?_eq_some.1 hs))
    simp only [scope, signaled, hc]
    exact hd
  | yield =>
    cases hs
    exact .inl (.yields .refl hrun)
  | wait d timeout =>
    obtain ⟨r, he, rfl⟩ := Option.map_eq_some_iff.1 hs
    exact .inl (keWaitObject_stepped h hrun hok.2 hok.1 (fun _ hm => hm)
      (List.mem_singleton_self d) (by exact ⟨rfl, rfl⟩)
      (get?_eq_some.1 he))
  | waitMultiple objs waitAll timeout =>
    obtain ⟨r, he, rfl⟩ := Option.map_eq_some_iff.1 hs
    exact .inl (keWaitMultiple_stepped h hrun hok.2 hok.1 (fun _ hm => hm) (fun _ hm => hm)
      (by exact ⟨rfl, rfl⟩) (get?_eq_some.1 he))
  | release m =>
    cases hs
    unfold keReleaseMutex
    split
    · exact .inl (.moves .refl)
    · next c hc =>
      split
      · exact .inl (.moves .refl)
      · next hno =>
        push Not at hno
        refine .inr ⟨m, c, rfl, ⟨hok.1.1, hok.1.2, ⟨hc, hrun c hc, (hok.2 c hc).1⟩, hno.1⟩, ?_⟩
        split
        · exact .inl ⟨by omega, rfl⟩
        · exact .inr ⟨by omega, rfl⟩
  | signal d =>
    cases hs
    exact .inl (.moves (dispSignal_moves (List.mem_singleton_self d) hok 1))
  | setSignal d state =>
    cases hs
    exact .inl (.moves (.single (.signal (fun _ => state) (.inr (List.mem_singleton_self d)) hok)))
  | wakeOne d =>
    cases hs
    exact .inl (.moves (.single (.wake (List.mem_singleton_self d) hok)))
  | setTimer d due period =>
    cases hs
    exact .inl (.moves (keSetTimer_moves h hok (List.mem_singleton_self d) due period))
  | cancelTimer d =>
    cases hs
    exact .inl (.moves (keCancelTimer_moves h hok (List.mem_singleton_self d)))
  | tick =>
    refine .inl (keOnTick_stepped h rfl hrun (fun d hd hdue => ?_) (get?_eq_some.1 hs))
    simpa [scope, signaled, hd] using hdue
  | resume =>
    obtain ⟨r, he, rfl⟩ := Option.map_eq_some_iff.1 hs
    exact .inl (resume_stepped h hrun (fun _ hm => hm) (fun _ hm => hm)
      (get?_eq_some.1 he))

end Aegis
