import Aegis.Ke.Proof.Steps

/-!
# Every mutex is free or has one owner

Kills, ticks and new objects keep the invariant of `WaitRun` as well, so it holds in every state
that the kernel reaches. `MutexesExact` is what it says of the mutexes, and `MutexKept` who can take
one from its owner.
-/

namespace Aegis

open Function

variable {op : KeOp} {s s' : Kernel}

namespace Kernel

variable {s s' : Kernel} {t : Nat} {x y : Option Nat}
variable {d : Nat} {ty : DispType}

/-! ## New objects -/

theorem newDisp_inv (h : Inv none y s) (hty : ty ≠ .mutant) (st : Int) :
    Inv none y (s.newDisp ty st) := by
  have h1 := h.newDisp (D := ⟨ty, st, [], none, 0, false⟩) rfl
  rw [if_neg hty] at h1
  exact h1

theorem newDisp_signals (s : Kernel) (hty : ty ≠ .mutant) (st : Int) :
    (s.newDisp ty st).Signals s.ndisp :=
  ⟨Nat.lt_succ_self _, by simpa [newDisp] using hty⟩

theorem newDisp_disp (s : Kernel) (ty : DispType) (st : Int) (hd : d < s.ndisp) :
    (s.newDisp ty st).disp d = s.disp d :=
  update_of_ne hd.ne ..

theorem event_type (b : Bool) :
    (if b then DispType.synchronizationEvent else .notificationEvent) ≠ .mutant := by
  cases b <;> simp

theorem pspCreateProcess_inv (h : Inv none none s) : Inv none none s.pspCreateProcess := by
  have hs : (s.newDisp .process 0).Signals s.ndisp := newDisp_signals s (by decide) 0
  have h1 : WaitInv none none
      { (s.newDisp .process 0).waitView with
        nprocess := s.nprocess + 1
        process := update (s.newDisp .process 0).waitView.process s.nprocess
          (s.ndisp, []) } := by
    refine (newDisp_inv h (by decide) 0).setProcess (Nat.le_succ _) (fun u hu => ?_) hs fun d hd => ?_
    · show u = s.nprocess ∨ u < s.nprocess
      omega
    · cases hd
  have he : s.pspCreateProcess.waitView =
      { (s.newDisp .process 0).waitView with
        nprocess := s.nprocess + 1
        process := update (s.newDisp .process 0).waitView.process s.nprocess
          (s.ndisp, []) } := by
    simp only [pspCreateProcess, waitView, newDisp]
    congr 1
    funext u
    by_cases hu : u = s.nprocess <;> simp [hu]
  rw [Inv, he]
  exact h1

theorem pspCreateThread_quiet (h : Inv none none s) {p : Nat} (hp : p < s.nprocess) (prio : Nat)
    (suspended : Bool) : Inv none none (s.pspCreateThread p prio suspended) ∧
      ∀ d < s.ndisp, (s.pspCreateThread p prio suspended).disp d = s.disp d := by
  unfold pspCreateThread
  simp only
  generalize (if prio ≥ priorityLevels then priorityNormal else prio) = q
  obtain ⟨s1, hs1⟩ : ∃ s1, s.addThread p q = s1 := ⟨_, rfl⟩
  have he : s1.waitView =
      { (s.newDisp .thread 0).waitView with
        nthread := s.nthread + 1
        thread := update (s.newDisp .thread 0).waitView.thread s.nthread
          (newThread s.ndisp p q).waits } := by
    rw [← hs1]
    simp only [waitView, addThread, newDisp, modProcess]
    congr 1
    · funext u
      by_cases hu : u = s.nthread <;> simp [hu]
    · funext u
      by_cases hu : u = p <;> simp [hu]
  have h1 : Inv none none s1 := by
    rw [Inv, he]
    exact (newDisp_inv h (by decide) 0).newThread rfl rfl rfl (newDisp_signals s (by decide) 0) hp
      (by simp) fun _ _ hk => by cases hk
  have hd1 : ∀ d < s.ndisp, s1.disp d = s.disp d := fun d hd => by
    rw [show s1.disp = (s.newDisp .thread 0).disp from congrArg WaitView.disp he]
    exact newDisp_disp s _ 0 hd
  rw [hs1]
  split
  · exact ⟨h1, hd1⟩
  · refine ⟨schedReady_inv h1 ?_ fun d hb => ?_, fun d hd => ?_⟩
    · rw [show s1.nthread = s.nthread + 1 from congrArg WaitView.nthread he]
      exact Nat.lt_succ_self _
    · have hw := (h1.holds d _ hb (by simp)).1
      rw [he] at hw
      simp [newThread, Thread.waits] at hw
    · rw [schedReady_disp]
      exact hd1 d hd

theorem obCreateMutex_inv (h : Inv none none s) (hready : ReadyInv s) {b : Bool}
    (hb : b = true → s.current ≠ none) : Inv none none (s.obCreateMutex b) := by
  unfold obCreateMutex
  simp only
  obtain ⟨s1, hs1⟩ : ∃ s1, ((s.newDisp .mutant (if b then 0 else 1)).modDisp s.ndisp fun x =>
      { x with owner := if b then s.current else none, recursion := if b then 1 else 0 }) = s1 :=
    ⟨_, rfl⟩
  have h1 : Inv (some s.ndisp) none s1 := by
    have h0 := h.newDisp (D := ⟨.mutant, if b then 0 else 1, [], none, 0, false⟩) rfl
    rw [if_pos rfl] at h0
    rw [← hs1, Inv, modDisp_waitView]
    exact WaitInv.setDisp h0 rfl (fun c hc => h0.holds s.ndisp c hc) fun _ hne => absurd rfl hne
  have hD : s1.disp s.ndisp = ⟨.mutant, if b then 0 else 1, [], if b then s.current else none,
      if b then 1 else 0, false⟩ := by
    rw [← hs1]
    simp [modDisp, newDisp]
  have hn : s1.ndisp = s.ndisp + 1 := by
    rw [← hs1]
    rfl
  rw [hs1]
  cases b with
  | false =>
    refine WaitInv.free h1 ?_ ?_ ?_ <;> simp [waitView, hD]
  | true =>
    obtain ⟨t, hc⟩ := Option.ne_none_iff_exists'.1 (hb rfl)
    have hrun := hready.runs t hc
    have hlt : t < s.nthread := hready.core.lt_of_state (t := t) (by simp [schedView, hrun])
    have hrun1 : (s1.thread t).state = .running := by
      rw [← hs1]
      exact hrun
    have hlt1 : t < s1.nthread := by
      rw [← hs1]
      exact hlt
    simp only [if_true, hc]
    unfold keMutexOwn
    rw [Inv, modThread_waitView]
    have h2 : Inv (some s.ndisp) none (s1.keMutexDisown s.ndisp) := h1.disown (.inr rfl)
    refine h2.own (show s.ndisp < s1.ndisp by omega) ?_ ?_ ?_ ?_ hlt1 ?_
    · simp [waitView, keMutexDisown, hD]
    · simp [waitView, keMutexDisown, hD, hc]
    · simp [waitView, keMutexDisown, hD]
    · simp [waitView, keMutexDisown, hD]
    · simp [waitView, keMutexDisown, Thread.waits, hrun1]

theorem obCreateMutex_disp (s : Kernel) (b : Bool) (hd : d < s.ndisp) :
    (s.obCreateMutex b).disp d = s.disp d := by
  have h1 : ((s.newDisp .mutant (if b then 0 else 1)).modDisp s.ndisp fun x => { x with
      owner := if b then s.current else none, recursion := if b then 1 else 0 }).disp d = s.disp d :=
    (update_of_ne hd.ne ..).trans (newDisp_disp s _ _ hd)
  unfold obCreateMutex
  simp only
  split
  · exact h1
  · exact h1

end Kernel

/-! ## Runs -/

/-- Nobody owns `m`. -/
structure MutexFree (s : Kernel) (m : Nat) : Prop where
  owner : (s.disp m).owner = none
  recursion : (s.disp m).recursion = 0
  signal : (s.disp m).signalState = 1
  unlinked : ∀ t, m ∉ (s.thread t).ownedMutexes

/-- `t` owns `m`, and it alone. -/
structure MutexOwned (s : Kernel) (m t : Nat) : Prop where
  owner : (s.disp m).owner = some t
  thread : t < s.nthread
  live : (s.thread t).state ≠ .terminated
  recursion : 1 ≤ (s.disp m).recursion
  signal : (s.disp m).signalState = 0
  linked : (s.thread t).ownedMutexes.count m = 1
  only : ∀ u ≠ t, m ∉ (s.thread u).ownedMutexes

/-- Every mutex is free or owned by one thread that lives. -/
structure MutexesExact (s : Kernel) : Prop where
  mutex : ∀ m < s.ndisp, (s.disp m).type = .mutant → MutexFree s m ∨ ∃ t, MutexOwned s m t
  /-- A thread that has ended owns nothing. -/
  ended : ∀ t, (s.thread t).state = .terminated →
    (s.thread t).ownedMutexes = [] ∧ ∀ m < s.ndisp, (s.disp m).type = .mutant →
      (s.disp m).owner ≠ some t

/-- An owner keeps its mutex in the step `op`, unless it is the caller and releases it, or is no
more. -/
def MutexKept (s : Kernel) (op : KeOp) (s' : Kernel) : Prop :=
  ∀ m < s.ndisp, (s.disp m).type = .mutant → ∀ t, (s.disp m).owner = some t →
    ((s'.disp m).owner = some t ∧ (s.disp m).recursion ≤ (s'.disp m).recursion) ∨
      (op = .release m ∧ s.current = some t) ∨ (s'.thread t).state = .terminated

namespace Kernel

variable {s s' : Kernel} {t : Nat}

theorem Inv.exact (h : Inv none none s) : MutexesExact s := by
  refine ⟨fun m hm hty => ?_, fun t ht => ⟨?_, fun m hm hty ho => ?_⟩⟩
  · rcases h.mutex m hm hty (by simp) with ⟨h1, h2, h3, h4⟩ | ⟨t, h1, h2, h3, h4, h5, h6, h7⟩
    · exact .inl ⟨h1, h2, h3, h4⟩
    · exact .inr ⟨t, h1, h2, h3, h4, h5, h6, h7⟩
  · by_contra hne
    obtain ⟨m, hm⟩ := List.exists_mem_of_ne_nil _ hne
    exact (h.owner_of_mem hm).2.2 ht
  · rcases h.mutex m hm hty (by simp) with ⟨h1, -⟩ | ⟨u, h1, -, h3, -⟩
    · rw [show (s.disp m).owner = none from h1] at ho
      cases ho
    · rw [show (s.disp m).owner = some u from h1] at ho
      cases ho
      exact h3 ht

theorem mutexKept_of_disp (hd : ∀ d < s.ndisp, s'.disp d = s.disp d) (op : KeOp) :
    MutexKept s op s' := fun m hm _ t ho => by
  rw [hd m hm]
  exact .inl ⟨ho, le_rfl⟩

theorem signaled_mutex {op : KeOp} (h : Good s)
    (hrun : ∀ c ∈ s.current, (s.thread c).state = .running) (hok : KeOk s op) {m : Nat}
    (hm : m ∈ s.signaled op) (hty : (s.disp m).type = .mutant) : s.current = (s.disp m).owner := by
  have hsig : ∀ d, s.Signals d → m ≠ d := fun d hd he => hd.2 (he ▸ hty)
  have hend : ∀ c, s.current = some c → m ∈ s.endTargets c → s.current = (s.disp m).owner :=
      fun c hc hm => by
    have hlt : c < s.nthread := h.lt (by rw [hrun c hc]; simp)
    obtain ⟨hdisp, hproc⟩ := h.inv.threadDisp c hlt
    obtain ⟨hpd, hcloses⟩ := h.inv.processDisp _ hproc
    rcases List.mem_append.1 hm with hm | hm
    · exact hc.trans (h.inv.owner_of_mem hm).1.symm
    · rcases List.mem_cons.1 hm with he | hm
      · exact absurd he (hsig _ hdisp)
      · simp only at hm
        split at hm
        · rcases List.mem_cons.1 hm with he | hm
          · exact absurd he (hsig _ hpd)
          · exact absurd rfl (hsig m (hcloses m hm))
        · cases hm
  cases op with
  | signal d | wakeOne d => exact absurd (List.mem_singleton.1 hm) (hsig d hok)
  | release m' =>
    simp only [signaled] at hm
    split at hm
    · next hone => exact List.mem_singleton.1 hm ▸ hone.1
    · cases hm
  | exit st =>
    obtain ⟨c, hc⟩ := Option.ne_none_iff_exists'.1 hok.1
    simp only [signaled, hc] at hm
    exact hend c hc hm
  | kill t st =>
    simp only [signaled] at hm
    split at hm
    · next hc => exact hend t hc hm
    · cases hm
  | wait | waitMultiple | resume =>
    simp only [signaled, dyingTargets] at hm
    split at hm
    · cases hm
    · next c hc =>
      split at hm
      · exact hend c hc hm
      · cases hm
  | tick => exact absurd rfl (hsig m (h.inv.timers m (List.mem_of_mem_filter hm)))
  | _ => cases hm

end Kernel

open Kernel

theorem keStep_kept (h : Good s) (hrun : ∀ c ∈ s.current, (s.thread c).state = .running)
    (hok : KeOk s op) (hro : ReadyOk s op) (hnew : op.creates = false)
    (hr : keStep s op = some s') : Inv none none s' ∧ MutexKept s op s' := by
  rcases keStep_stepped h hrun hok hro hnew hr with hs | ⟨m, c, rfl, hm, hcase⟩
  · obtain ⟨n, hn⟩ := s.advance_eq op
    rw [hn] at hs
    refine ⟨hs.inv (h.ticks n), fun m _ hty t ho => ?_⟩
    rcases hs.kept (h.ticks n) with hk | ⟨c, hc, hst, hk⟩
    · exact .inl (hk.owner m t id ho)
    · by_cases hm : m ∈ s.signaled op
      · have hct : some c = some t := hc.symm.trans ((signaled_mutex h hrun hok hm hty).trans ho)
        exact .inr (.inr (Option.some_inj.1 hct ▸ hst))
      · exact .inl (hk.owner m t hm ho)
  · rcases hcase with ⟨hone, rfl⟩ | ⟨hone, rfl⟩
    · refine ⟨(h.unnest hm.lt hm.owner hone).inv, fun m' _ _ t ho => ?_⟩
      by_cases hmm : m' = m
      · subst hmm
        exact .inr (.inl ⟨rfl, hm.caller.current.trans (hm.owner.symm.trans ho)⟩)
      · simp only [modDisp, update_of_ne hmm]
        exact .inl ⟨ho, le_rfl⟩
    · have hr := h.releaseLast hm.lt hm.mutex c
      refine ⟨hr.good.inv, fun m' _ _ t ho => ?_⟩
      by_cases hmm : m' = m
      · subst hmm
        exact .inr (.inl ⟨rfl, hm.caller.current.trans (hm.owner.symm.trans ho)⟩)
      · exact .inl (hr.kept.owner m' t hmm ho)

theorem keStep_mutex (h : Inv none none s) (hready : ReadyInv s) (hok : KeOk s op)
    (hro : ReadyOk s op) (hr : keStep s op = some s') : Inv none none s' ∧ MutexKept s op s' := by
  have hnew : op.creates = false → Inv none none s' ∧ MutexKept s op s' :=
    fun hnew => keStep_kept ⟨hready.core, h⟩ hready.runs hok hro hnew hr
  cases op with
  | createProcess =>
    cases hr
    exact ⟨pspCreateProcess_inv h, mutexKept_of_disp (fun d hd => newDisp_disp s _ _ hd) _⟩
  | createThread p prio suspended =>
    cases hr
    obtain ⟨h1, hd⟩ := pspCreateThread_quiet h hok prio suspended
    exact ⟨h1, mutexKept_of_disp hd _⟩
  | createEvent autoReset initial =>
    cases hr
    exact ⟨newDisp_inv h (event_type _) _, mutexKept_of_disp (fun d hd => newDisp_disp s _ _ hd) _⟩
  | createTimer autoReset =>
    cases hr
    exact ⟨newDisp_inv h (event_type _) _, mutexKept_of_disp (fun d hd => newDisp_disp s _ _ hd) _⟩
  | createMutex initialOwner =>
    cases hr
    exact ⟨obCreateMutex_inv h hready hok, mutexKept_of_disp (fun d => obCreateMutex_disp s _) _⟩
  | setCloses p closes =>
    cases hr
    refine ⟨?_, mutexKept_of_disp (fun _ _ => rfl) _⟩
    have h1 := h.setProcess (p := p) (q := ((s.process p).disp, closes)) le_rfl (fun u hu => .inr hu)
      (h.processDisp p hok.1).1 hok.2
    have he : (s.modProcess p fun x => { x with closes }).waitView =
        { s.waitView with
          process := update s.waitView.process p ((s.process p).disp, closes) } := by
      simp only [waitView, modProcess]
      congr 1
      funext u
      by_cases hu : u = p <;> simp [hu]
    rw [Kernel.Inv, he]
    exact h1
  | _ => exact hnew rfl

theorem blank_inv : Inv none none blank := by
  refine ⟨fun _ _ hb => ?_, fun _ _ _ => rfl, fun _ hm => ?_, fun _ _ hm => ?_, fun _ _ => rfl,
    fun _ ht => ?_, fun _ hp => ?_, fun _ hd => ?_, fun _ _ _ hk => ?_⟩
  · cases hb
  · exact absurd hm (Nat.not_lt_zero _)
  · cases hm
  · exact absurd ht (Nat.not_lt_zero _)
  · exact absurd hp (Nat.not_lt_zero _)
  · cases hd
  · cases hk

theorem schedInit_inv : Inv none none schedInit :=
  (pspCreateThread_quiet (pspCreateProcess_inv blank_inv) (Nat.lt_succ_self 0) _ _).1

theorem reached_inv {ops : List KeOp}
    (hl : Run.Legal keStep (fun s op => KeOk s op ∧ ReadyOk s op) schedInit ops)
    (hr : Run.run keStep schedInit ops = some s) : ReadyInv s ∧ Inv none none s :=
  Run.run_keeps (I := fun s => ReadyInv s ∧ Inv none none s)
    (fun s op s' hi hok hs => ⟨keStep_readyInv s op s' hi.1 hok.1 hs,
      (keStep_mutex hi.2 hi.1 hok.1 hok.2 hs).1⟩) ⟨schedInit_readyInv, schedInit_inv⟩ hl hr

/-- **Mutexes.** In every state that the kernel reaches, each mutex is free or has one owner that has
not ended, and the next step takes it from its owner only if that is the owner's own release, or its
end. -/
theorem mutexes_exact {ops : List KeOp}
    (hl : Run.Legal keStep (fun s op => KeOk s op ∧ ReadyOk s op) schedInit ops) {s : Kernel}
    (hr : Run.run keStep schedInit ops = some s) :
    MutexesExact s ∧ ∀ op s', KeOk s op → ReadyOk s op → keStep s op = some s' →
      MutexKept s op s' := by
  have h := reached_inv hl hr
  exact ⟨h.2.exact, fun op s' hok hro hs => (keStep_mutex h.2 h.1 hok hro hs).2⟩

theorem mutexes_exact_contended : ∃ s, Run.run keStep schedInit contended = some s ∧
    MutexesExact s := by
  obtain ⟨s, hs⟩ := Option.isSome_iff_exists.1
    (show (Run.run keStep schedInit contended).isSome = true by decide +kernel)
  exact ⟨s, hs, (mutexes_exact (by decide +kernel) hs).1⟩

end Aegis
