import Aegis.Ke.Proof.Mutex
import Aegis.Ke.Terminate
import Aegis.Ob.Proof.AccountRun

/-!
# What `NtTerminateProcess` ends

`Exited` says what `sched_exit_thread` does to the threads and processes: the thread that runs has
ended, no other thread has been killed or has ended, and the statuses of the processes stay.
`NtTerminateProcess` is this exit of its caller, whatever process it is asked about.
-/

namespace Aegis

open Outcome

namespace Kernel

variable {s s' : Kernel} {t u : Nat}
variable {c : Nat} {st : StatusCode}

/-! ## Kills -/

/-- The threads that have been killed and have not ended yet. -/
def killView (s : Kernel) : Nat → Bool := fun t => (s.thread t).killPending

theorem modThread_kill (s : Kernel) (u : Nat) {f : Thread → Thread}
    (hk : (f (s.thread u)).killPending = (s.thread u).killPending) :
    (s.modThread u f).killView = s.killView := by
  funext v
  by_cases hv : v = u
  · subst hv
    simp [killView, modThread, hk]
  · simp [killView, modThread, hv]

theorem killView_of_rest (he : s'.restView = s.restView) : s'.killView = s.killView :=
  funext fun t => congrArg ThreadRest.killPending (congrFun (congrArg RestView.thread he) t)

theorem schedReschedule_kill (s : Kernel) : s.schedReschedule.killView = s.killView :=
  (Rule.of_view killView).schedReschedule (fun _ _ => rfl)
    (fun s c _ => modThread_kill (f := fun th => { th with state := .ready }) s c rfl)
    (fun _ _ => rfl)
    (fun s n => modThread_kill (f := fun th => { th with state := .running, quantumLeft := _ }) s n
      rfl) s

theorem schedReschedule_process (s : Kernel) : s.schedReschedule.process = s.process :=
  (Rule.of_view process).schedReschedule (fun _ _ => rfl) (fun _ _ _ => rfl) (fun _ _ => rfl)
    (fun _ _ => rfl) s

/-! ## Ends -/

theorem Woken.terminated (h : Woken s s') (t : Nat) :
    (s'.thread t).state = .terminated ↔ (s.thread t).state = .terminated := by
  rcases h.state t with he | ⟨hs, he⟩
  · rw [he]
  · rw [he]
    rcases hs with hs | hs <;> simp [hs]

theorem setState_terminated {st : ThreadState} (s : Kernel) (c : Nat) (hst : st ≠ .terminated)
    (ht : ((s.setState c st).thread t).state = .terminated) : (s.thread t).state = .terminated := by
  by_cases hc : t = c
  · subst hc
    simp [setState, modThread, hst] at ht
  · simpa [setState, modThread, hc] using ht

theorem putBack_terminated (ht : (s.putBack.thread t).state = .terminated) :
    (s.thread t).state = .terminated := by
  rcases putBack_cases s with ⟨he, -⟩ | ⟨c, -, -, ⟨-, he⟩ | ⟨-, he⟩⟩
  · rwa [he] at ht
  · rw [he] at ht
    exact setState_terminated s c (by simp) ht
  · rw [he] at ht
    exact setState_terminated s c (by simp) ht

theorem schedReschedule_terminated (h : ReadyCore s.schedView) (t : Nat) :
    (s.schedReschedule.thread t).state = .terminated ↔ (s.thread t).state = .terminated := by
  constructor
  · intro ht
    unfold schedReschedule at ht
    simp only at ht
    split at ht
    · exact ht
    · next hn =>
      have hne : t ≠ s.ready.popHighest.1.getD s.idle := by
        rintro rfl
        simp [switchTo, modThread] at ht
      simp only [switchTo, modThread, Function.update_of_ne hne] at ht
      have hback := putBack_terminated ht
      exact hback
  · intro ht
    rw [schedReschedule_state h (by simp [ht]) (by simp [ht])]
    exact ht

/-! ## The exit of a thread -/

theorem processEnd_frame (s : Kernel) (p : Nat) :
    (s.processEnd p).killView = s.killView ∧ (s.processEnd p).process = s.process :=
  ⟨(Rule.of_view killView).processEnd (fun d _ s => killView_of_rest (dispSignal_rest s d 1))
      fun _ _ => rfl,
    (Rule.of_view process).processEnd
      (fun d _ s => congrArg RestView.process (dispSignal_rest s d 1)) fun _ _ => rfl⟩

theorem processLeave_frame {p : Nat} (hr : s.processLeave p st = .ok s') :
    s'.killView = s.killView ∧ ∀ q, (s'.process q).exitStatus = (s.process q).exitStatus ∨
      (s'.process q).exitStatus = st := by
  unfold processLeave at hr
  simp only at hr
  split at hr
  · split at hr
    · cases hr
    · cases hr
      obtain ⟨hk, hp⟩ := processEnd_frame ((s.modProcess p fun x =>
        { x with threadCount := u32 (x.threadCount + (2 ^ 32 - 1)) }).modProcess p fun x =>
          { x with exitStatus := st, terminating := true }) p
      refine ⟨hk, fun q => ?_⟩
      rw [hp]
      by_cases hq : q = p <;> simp [modProcess, hq]
  · cases hr
    refine ⟨rfl, fun q => .inl ?_⟩
    by_cases hq : q = p <;> simp [modProcess, hq]

/-- `c` has exited. -/
structure Exited (c : Nat) (st : StatusCode) (s s' : Kernel) : Prop where
  self : (s'.thread c).state = .terminated
  kill : s'.killView = s.killView
  others : ∀ t ≠ c, (s'.thread t).state = .terminated ↔ (s.thread t).state = .terminated
  status : ∀ p, (s'.process p).exitStatus = (s.process p).exitStatus ∨
    (s'.process p).exitStatus = st

theorem schedExitThread_exited (hready : ReadyInv s) (hc : s.current = some c) (hi : c ≠ s.idle)
    (hr : s.schedExitThread st = .ok s') : Exited c st s s' := by
  have hrun := hready.runs c hc
  obtain ⟨s1, s0, s2, hr1, hs0, hr2, rfl⟩ := schedExitThread_cases hc hr
  obtain ⟨hw1, hw2⟩ := schedExitThread_woken hready.core hrun hi hr1 hs0 hr2
  have hl := schedExitThread_left hready.core hc hrun hi hr1 hs0 hr2
  have hself : ({ s2 with current := none }.schedReschedule.thread c).state = .terminated := by
    apply (schedReschedule_terminated hl.core c).2
    apply (hw2.terminated c).2
    rw [hs0]
    simp [modThread]
  obtain ⟨hk2, hst⟩ := processLeave_frame hr2
  have hk0 : s0.killView = s.killView := by
    rw [hs0]
    exact (modThread_kill s1 c rfl).trans
      (killView_of_rest ((abandonLoop_rest hr1).trans (threadUnlinkWaits_rest s c)))
  have hp0 : s0.process = s.process := by
    rw [hs0]
    exact congrArg RestView.process ((abandonLoop_rest hr1).trans (threadUnlinkWaits_rest s c))
  refine ⟨hself, ?_, fun t ht => ?_, fun p => ?_⟩
  · exact (schedReschedule_kill { s2 with current := none }).trans
      (hk2.trans ((killView_of_rest (dispSignal_rest s0 _ 1)).trans hk0))
  · calc ({ s2 with current := none }.schedReschedule.thread t).state = .terminated
        ↔ (s2.thread t).state = .terminated := schedReschedule_terminated hl.core t
      _ ↔ (s0.thread t).state = .terminated := hw2.terminated t
      _ ↔ (s1.thread t).state = .terminated := by
          rw [hs0]
          simp [modThread, ht]
      _ ↔ (s.thread t).state = .terminated := hw1.terminated t
  · have hp2 := hst p
    rw [show (s0.dispSignal (s0.thread c).disp 1).process = s0.process from
      congrArg RestView.process (dispSignal_rest s0 _ 1), hp0] at hp2
    rwa [schedReschedule_process]

theorem schedExitThread_ok (h : Inv none none s) (hc : s.current = some c)
    (hp : (s.thread c).process ≠ 1) (st : StatusCode) : ∃ s', s.schedExitThread st = .ok s' := by
  obtain ⟨-, hno, -⟩ := threadUnlinkWaits_spec h c
  obtain ⟨s1, hr1⟩ := abandonLoop_ok hno (Nat.le_refl _)
  have hr1' : (s.threadUnlinkWaits c).keMutexAbandonOwned c = .ok s1 := hr1
  obtain ⟨s0, hs0⟩ : ∃ s0, s1.modThread c (fun th =>
      { th with exitStatus := st, state := .terminated }) = s0 := ⟨_, rfl⟩
  have he1 : s1.restView = s.restView :=
    (abandonLoop_rest hr1).trans (threadUnlinkWaits_rest s c)
  have hp0 : (s0.thread c).process = (s.thread c).process := by
    have hp1 : (s1.thread c).process = (s.thread c).process :=
      congrArg ThreadRest.process (congrFun (congrArg RestView.thread he1) c)
    rw [← hs0]
    simpa [modThread] using hp1
  have hp2 : ((s0.dispSignal (s0.thread c).disp 1).thread c).process ≠ 1 := by
    rw [show ((s0.dispSignal (s0.thread c).disp 1).thread c).process = (s0.thread c).process from
      congrArg ThreadRest.process (congrFun (congrArg RestView.thread (dispSignal_rest s0 _ 1)) c),
      hp0]
    exact hp
  obtain ⟨s2, hr2⟩ : ∃ s2, (s0.dispSignal (s0.thread c).disp 1).processLeave
      ((s0.dispSignal (s0.thread c).disp 1).thread c).process st = .ok s2 := by
    unfold processLeave
    simp only [if_neg hp2]
    split <;> exact ⟨_, rfl⟩
  refine ⟨{ s2 with current := none }.schedReschedule, ?_⟩
  unfold schedExitThread
  simp only [hc, hr1', ok_bind, hs0, hr2]
  rfl

end Kernel

namespace ProcSys

open Kernel World

variable {s s' : ProcSys} {c p : Nat} {st : StatusCode}
variable {r : Option StatusCode}

/-! ## The call -/

/-- What holds between calls: the kernel and the object manager keep to their own rules, and the
table of processes has a reference to each process in it. -/
structure ProcInv (s : ProcSys) : Prop where
  waits : Inv none none s.ke
  ready : ReadyInv s.ke
  refs : ∃ own, Accounts s.world own ∧ ∀ p ∈ s.ke.procs, 0 < own (s.obj p)
  obj : ∀ p < s.ke.nprocess, s.obj p < s.world.nobj

theorem ProcInv.caller (h : ProcInv s) (hc : s.ke.current = some c) :
    (s.ke.thread c).process < s.ke.nprocess := by
  have hlt : c < s.ke.nthread :=
    h.ready.core.lt_of_state (t := c) (by simp [schedView, h.ready.runs c hc])
  exact (h.waits.threadDisp c hlt).2

/-- The kernel when `NtTerminateProcess` ends its caller. -/
def marked (s : ProcSys) (p : Nat) (st : StatusCode) : Kernel :=
  s.ke.modProcess p fun x => { x with terminating := true, exitStatus := st }

theorem ProcInv.mark (h : ProcInv s) (p : Nat) (st : StatusCode) :
    ProcInv { s with ke := s.marked p st } where
  waits := by
    have he : (s.marked p st).waitView = s.ke.waitView := modProcess_same s.ke p rfl rfl
    unfold Kernel.Inv
    rw [he]
    exact h.waits
  ready := ⟨h.ready.core, h.ready.runs⟩
  refs := h.refs
  obj := h.obj

theorem processEnd_ok (h : ProcInv s) (hp : p < s.ke.nprocess) : ∃ w, s.processEnd p = .ok w := by
  obtain ⟨own, ha, hown⟩ := h.refs
  obtain ⟨w, hw, ha', -⟩ := htDestroy_accounts ha (h.obj p hp)
  unfold processEnd
  simp only [hw, ok_bind]
  split
  · next hl =>
    have hpos := hown p hl.2.2
    have hgain : own = gain (Function.update own (s.obj p) (own (s.obj p) - 1)) (s.obj p) := by
      funext y
      by_cases hy : y = s.obj p
      · subst hy
        simp [gain]
        omega
      · simp [gain, hy]
    rw [hgain] at ha'
    obtain ⟨w', hw', -⟩ := obDereference_accounts ha'
    exact ⟨w', hw'⟩
  · exact ⟨w, rfl⟩

theorem schedExitThread_some (h : ProcInv s) (hc : s.ke.current = some c)
    (hp : (s.ke.thread c).process ≠ 1) (st : StatusCode) : ∃ s', s.schedExitThread st = .ok s' := by
  obtain ⟨ke, hke⟩ := schedExitThread_ok h.waits hc hp st
  obtain ⟨w, hw⟩ := processEnd_ok h (h.caller hc)
  have hend : ∃ world, s.threadEnd c = .ok world := by
    unfold threadEnd
    split
    · exact ⟨w, hw⟩
    · exact ⟨s.world, rfl⟩
  obtain ⟨world, hend⟩ := hend
  refine ⟨{ s with world, ke }, ?_⟩
  unfold schedExitThread
  simp only [hc, hke, hend, ok_bind]
  rfl

theorem ntTerminateProcess_eq (h : ProcInv s) (hc : s.ke.current = some c) {hd : Handle}
    (hp : s.target hd = some p) (st : StatusCode) :
    ∃ world, ProcInv { s with world } ∧
      s.ntTerminateProcess hd st = { s with world }.terminate (some p) st := by
  unfold target at hp
  unfold ntTerminateProcess
  by_cases hcur : hd = handleCurrent
  · rw [if_pos hcur] at hp ⊢
    exact ⟨s.world, h, by rw [hp]⟩
  · rw [if_neg hcur] at hp ⊢
    obtain ⟨own, ha, hown⟩ := h.refs
    have hobj := h.obj _ (h.caller hc)
    have hk : s.keCurrentProcess = some (s.ke.thread c).process := by
      simp [keCurrentProcess, hc]
    simp only [hk, Option.map_some, htLookupCur] at hp ⊢
    rcases htLookupEx_accounts ha hobj hd processTerminate (some .process) with
      ⟨he, -⟩ | ⟨o, acc, he, -, hw, ha'⟩
    · simp [he] at hp
    · obtain ⟨w', hw', ha''⟩ := obDereference_accounts ha'
      have hn : w'.nobj = s.world.nobj := (obDereference_kept hw').nobj
      refine ⟨w', ⟨h.waits, h.ready, ⟨own, ha'', hown⟩, fun q hq => ?_⟩, ?_⟩
      · exact (h.obj q hq).trans_eq hn.symm
      · rw [he] at hp
        cases hp
        simp only [he, hw, hw', ok_bind]

theorem schedExitThread_ke (hc : s.ke.current = some c) (hr : s.schedExitThread st = .ok s') :
    s.ke.schedExitThread st = .ok s'.ke := by
  unfold schedExitThread at hr
  simp only [hc, bind_eq_ok] at hr
  obtain ⟨ke, hke, world, -, hr⟩ := hr
  cases hr
  exact hke

theorem terminate_exited (h : ProcInv s) (hc : s.ke.current = some c) (hi : c ≠ s.ke.idle)
    (hr : s.terminate (some p) st = .ok (r, s')) : p ≠ 1 ∧ Exited c st (s.marked p st) s'.ke := by
  unfold terminate at hr
  simp only at hr
  split at hr
  · cases hr
  · next hp =>
    obtain ⟨s1, hr1, hr2⟩ := bind_eq_ok.1 hr
    cases hr2
    have hm := h.mark p st
    have hke := schedExitThread_ke (s := { s with ke := s.marked p st }) hc hr1
    exact ⟨hp, schedExitThread_exited hm.ready hc hi hke⟩

theorem terminate_ok (h : ProcInv s) (hc : s.ke.current = some c) (hp : p ≠ 1)
    (hq : (s.ke.thread c).process ≠ 1) (st : StatusCode) :
    ∃ s', s.terminate (some p) st = .ok (none, s') := by
  obtain ⟨s', hr⟩ := schedExitThread_some (h.mark p st) hc hq st
  refine ⟨s', ?_⟩
  unfold terminate
  simp only [if_neg hp]
  exact bind_eq_ok.2 ⟨s', hr, rfl⟩

/-! ## What it ends -/

/-- The process `p` has been ended with the status `st`, and a caller that is not one of its
threads goes on. -/
structure Terminates (s : ProcSys) (p : Nat) (st : StatusCode) (r : Option StatusCode)
    (s' : ProcSys) : Prop where
  threads : ∀ t ∈ (s.ke.process p).threads,
    (s'.ke.thread t).state = .terminated ∨ (s'.ke.thread t).killPending = true
  status : (s'.ke.process p).exitStatus = st
  caller : ∀ c ∈ s.ke.current, (s.ke.thread c).process ≠ p →
    (s'.ke.thread c).state ≠ .terminated ∧ r = some statusSuccess

/-- The other threads of the process `p` have ended, or been killed. -/
def OthersGone (s : ProcSys) (p : Nat) : Prop :=
  ∀ t ∈ (s.ke.process p).threads, s.ke.current = some t ∨ (s.ke.thread t).state = .terminated ∨
    (s.ke.thread t).killPending = true

theorem exited_terminates_iff (hc : s.ke.current = some c)
    (hx : Exited c st (s.marked p st) s'.ke) :
    Terminates s p st r s' ↔ (s.ke.thread c).process = p ∧ s.OthersGone p := by
  have hkill : ∀ t, (s'.ke.thread t).killPending = (s.ke.thread t).killPending := congrFun hx.kill
  have hothers : ∀ t ≠ c, (s'.ke.thread t).state = .terminated ↔
      (s.ke.thread t).state = .terminated := hx.others
  constructor
  · intro h
    refine ⟨?_, fun t ht => ?_⟩
    · by_contra hp
      exact (h.caller c hc hp).1 hx.self
    · by_cases htc : t = c
      · exact .inl (htc ▸ hc)
      · right
        rw [← hothers t htc, ← hkill t]
        exact h.threads t ht
  · rintro ⟨hp, hgone⟩
    refine ⟨fun t ht => ?_, ?_, fun d hd hne => ?_⟩
    · by_cases htc : t = c
      · exact .inl (htc ▸ hx.self)
      · rw [hothers t htc, hkill t]
        refine (hgone t ht).resolve_left fun ht' => htc ?_
        exact Option.some.inj (ht'.symm.trans hc)
    · rcases hx.status p with he | he
      · rw [he]
        simp [marked, modProcess]
      · exact he
    · rw [hc] at hd
      cases hd
      exact absurd hp hne

end ProcSys

open ProcSys in
/-- **`NtTerminateProcess`.** The call ends the process that its handle names, and only that, exactly
if that is the process of the caller, other than init, and all its other threads have ended or been
killed before. -/
theorem ntTerminateProcess_terminates_iff (s : ProcSys) (h : Handle) (st : StatusCode) (p c : Nat)
    (hs : ProcInv s) (hc : s.ke.current = some c) (hi : c ≠ s.ke.idle) (hp : s.target h = some p) :
    (∃ r s', s.ntTerminateProcess h st = .ok (r, s') ∧ Terminates s p st r s') ↔
      p ≠ 1 ∧ (s.ke.thread c).process = p ∧ s.OthersGone p := by
  obtain ⟨world, hw, he⟩ := ntTerminateProcess_eq hs hc hp st
  constructor
  · rintro ⟨r, s', hr, ht⟩
    rw [he] at hr
    obtain ⟨hp1, hx⟩ := terminate_exited hw hc hi hr
    exact ⟨hp1, (exited_terminates_iff hc hx).1 ht⟩
  · rintro ⟨hp1, hq, hgone⟩
    obtain ⟨s', hr⟩ := terminate_ok hw hc hp1 (hq.trans_ne hp1) st
    obtain ⟨-, hx⟩ := terminate_exited hw hc hi hr
    exact ⟨none, s', he.trans hr, (exited_terminates_iff hc hx).2 ⟨hq, hgone⟩⟩

/-! ## Two processes -/

/-- Besides init there are the processes 2 and 3, each with a thread; that of 2 runs. -/
def targetThreads : List KeOp :=
  [.createProcess, .createProcess, .createProcess, .createThread 2 8 false,
    .createThread 3 8 false, .yield, .resume]

/-- The process 2 has a handle to the process 3 that grants `PROCESS_TERMINATE`. A process and its
token are made one after the other. -/
def targetTables : List HtOp :=
  [.createProcess [] true true true, .createProcess [] true true true,
    .createProcess [] true true true, .createProcess [] true true true,
    .insert 4 6 processTerminate false false]

def twoProcesses : Option ProcSys := do
  let ke ← Run.run keStep .schedInit targetThreads
  let w ← Run.run ownStep ⟨.blank, fun _ => 0⟩ targetTables
  return ⟨w.world, ke, (2 * ·), (· / 2)⟩

theorem twoProcesses_inv {s : ProcSys} (hs : twoProcesses = some s) : s.ProcInv := by
  have hfacts : twoProcesses.map (fun s => (s.ke.nprocess, s.ke.procs, s.world.nobj)) =
      some (4, [0, 1, 2, 3], 8) := by decide +kernel
  have hrefs : (Run.run ownStep ⟨.blank, fun _ => 0⟩ targetTables).map
      (fun w => [0, 1, 2, 3].map fun p => w.own (2 * p)) = some [2, 2, 2, 2] := by decide +kernel
  rw [hs] at hfacts
  simp only [Option.map_some, Option.some.injEq, Prod.mk.injEq] at hfacts
  obtain ⟨hn, hprocs, hobj⟩ := hfacts
  simp only [twoProcesses, Option.bind_eq_bind, Option.bind_eq_some_iff] at hs
  obtain ⟨ke, hke, w, hw, hs⟩ := hs
  cases hs
  obtain ⟨hready, hwaits⟩ := reached_inv (by decide +kernel) hke
  obtain ⟨w', hw', ha⟩ := Run.run_inv (I := fun w => World.Accounts w.world w.own)
    (fun _ _ h hok => ownStep_accounts h hok) World.blank_accounts
    (show Run.Legal ownStep HtOk ⟨.blank, fun _ => 0⟩ targetTables by decide +kernel)
  obtain rfl : w = w' := Option.some.inj (hw.symm.trans hw')
  rw [hw] at hrefs
  refine ⟨hwaits, hready, ⟨w.own, ha, ?_⟩, fun p hp => ?_⟩
  · simp_all
  · simp only at hn hobj hp ⊢
    omega

/-- The thread that runs ends its own process. -/
theorem ntTerminateProcess_terminates_self : ∃ s r s', twoProcesses = some s ∧
    s.ntTerminateProcess handleCurrent 5 = .ok (r, s') ∧ s.Terminates 2 5 r s' := by
  obtain ⟨s, hs, hc, hi, hp, hts, ht⟩ : ∃ s, twoProcesses = some s ∧ s.ke.current = some 1 ∧
      s.ke.idle = 0 ∧ (s.ke.thread 1).process = 2 ∧ (s.ke.process 2).threads = [1] ∧
      s.target handleCurrent = some 2 := by decide +kernel
  have hgone : s.OthersGone 2 := by simp [ProcSys.OthersGone, hts, hc]
  obtain ⟨r, s', hr, hx⟩ := (ntTerminateProcess_terminates_iff s handleCurrent 5 2 1
    (twoProcesses_inv hs) hc (by simp [hi]) ht).2 ⟨by decide, hp, hgone⟩
  exact ⟨s, r, s', hs, hr, hx⟩

/-- The process 2 asks to end the process 3: its own thread ends, and that of the process 3 runs
next. -/
theorem ntTerminateProcess_ends_caller : ∃ s s', twoProcesses = some s ∧ s.ProcInv ∧
    (s.target (handleValue 1 1) = some 3 ∧ (s.ke.process 3).threads = [2] ∧
      s.ke.current = some 1 ∧ (s.ke.thread 1).process = 2) ∧
    s.ntTerminateProcess (handleValue 1 1) 5 = .ok (none, s') ∧
    (s'.ke.thread 1).state = .terminated ∧ (s'.ke.thread 2).state = .running ∧
    (s'.ke.thread 2).killPending = false := by
  obtain ⟨s, hs, he, ⟨r, s'⟩, hr, rfl, hx⟩ : ∃ s, twoProcesses = some s ∧
      (s.target (handleValue 1 1) = some 3 ∧ (s.ke.process 3).threads = [2] ∧
        s.ke.current = some 1 ∧ (s.ke.thread 1).process = 2) ∧
      ∃ r, s.ntTerminateProcess (handleValue 1 1) 5 = .ok r ∧ r.1 = none ∧
        (r.2.ke.thread 1).state = .terminated ∧ (r.2.ke.thread 2).state = .running ∧
        (r.2.ke.thread 2).killPending = false := by decide +kernel
  exact ⟨s, s', hs, twoProcesses_inv hs, he, hr, hx⟩

end Aegis
