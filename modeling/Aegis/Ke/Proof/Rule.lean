import Aegis.Ke.Kernel

/-!
# Rules for the loops of the kernel

`Rule R`: what `R` says of the states before and after a piece of code, it says of pieces in turn.
Then it holds of a loop if it holds of every round (`dispSignal`, `abandonLoop`, `timerLoop`, ...).
A property that needs an invariant to hold before is a rule too: `fun s s' => I s → R s s'`, with an
`R` that gives the invariant back.

`restView` is what waking a thread never changes.
-/

namespace Aegis

open Function

/-- What signals leave of a thread. -/
structure ThreadRest where
  disp : Nat
  process : Nat
  exitStatus : StatusCode
  killPending : Bool
  cont : Cont
  waitTimed : Bool
  waitTimeoutTick : Nat

/-- What signals leave alone. -/
structure RestView where
  nthread : Nat
  thread : Nat → ThreadRest
  ndisp : Nat
  nprocess : Nat
  process : Nat → Process
  procs : List Nat
  timer : Nat → Timer
  timers : List Nat
  timerUp : Bool
  idle : Nat
  current : Option Nat
  ticks : Nat

def Thread.rest (th : Thread) : ThreadRest :=
  ⟨th.disp, th.process, th.exitStatus, th.killPending, th.cont, th.waitTimed, th.waitTimeoutTick⟩

namespace Kernel

variable {p t : Nat} {α : Type} {s s' : Kernel} {f : Thread → Thread} {R : Kernel → Kernel → Prop}

/-- A relation that steps compose in. -/
structure Rule (R : Kernel → Kernel → Prop) : Prop where
  refl : ∀ s, R s s
  trans : ∀ s₁ s₂ s₃, R s₁ s₂ → R s₂ s₃ → R s₁ s₃

theorem Rule.of_view (v : Kernel → α) : Rule fun s s' => v s' = v s :=
  ⟨fun _ => rfl, fun _ _ _ h1 h2 => h2.trans h1⟩

namespace Rule

variable {R : Kernel → Kernel → Prop} {s s' : Kernel} {t d : Nat}

theorem foldl (hR : Rule R) {α : Type} {f : Kernel → α → Kernel} (l : List α)
    (hf : ∀ a ∈ l, ∀ s, R s (f s a)) (s : Kernel) : R s (l.foldl f s) := by
  induction l generalizing s with
  | nil => exact hR.refl s
  | cons a l ih =>
    have ha := hf a List.mem_cons_self s
    exact hR.trans _ _ _ ha (ih (fun b hb => hf b (List.mem_cons_of_mem a hb)) _)

/-! ## Waking -/

theorem schedReady (hR : Rule R) (hset : ∀ s : Kernel, R s ((s.setState t .ready).readyInsert t))
    (hflag : ∀ s : Kernel, R s { s with needResched := true }) (s : Kernel) :
    R s (s.schedReady t) := by
  unfold Kernel.schedReady
  split
  · exact hR.refl s
  · refine hR.trans _ _ _ (hset s) ?_
    unfold preempt
    split
    · exact hR.refl _
    · split
      · exact hflag _
      · exact hR.refl _

theorem dispWakeOne (hR : Rule R) {st : StatusCode}
    (hunlink : ∀ (s : Kernel) t b, R s ((s.unlinkBlock (t, b)).setWake t b st))
    (hgive : ∀ (s : Kernel) t a, (s.disp d).type = .mutant → R s (s.giveMutex d t a))
    (hready : ∀ (s : Kernel) t, (s.thread t).state = .waiting → R s (s.schedReady t))
    (s : Kernel) : R s (s.dispWakeOne d st) := by
  unfold Kernel.dispWakeOne
  split
  · exact hR.refl s
  · next t b _ _ =>
    have h1 := hunlink s t b
    simp only
    generalize (s.unlinkBlock (t, b)).setWake t b st = s1 at h1 ⊢
    have h2 : R s (if (s1.disp d).type = .mutant then
        s1.giveMutex d t (st = statusAbandoned) else s1) := by
      split
      · next hm => exact hR.trans _ _ _ h1 (hgive s1 t _ hm)
      · exact h1
    generalize (if (s1.disp d).type = .mutant then
        s1.giveMutex d t (st = statusAbandoned) else s1) = s2 at h2 ⊢
    split
    · next hw => exact hR.trans _ _ _ h2 (hready s2 t hw)
    · exact h2

section
variable (hR : Rule R) (hset : ∀ (s : Kernel) (f : Disp → Int),
    R s (s.modDisp d fun x => { x with signalState := f x }))
include hR hset

theorem signalLoop (hwake : ∀ s : Kernel, R s (s.dispWakeOne d statusSuccess)) (k : Nat)
    (s : Kernel) : R s (signalLoop d k s) := by
  induction k generalizing s with
  | zero => exact hR.refl s
  | succ k ih =>
    unfold Kernel.signalLoop
    split
    · have h1 := hwake s
      simp only
      split
      · exact hR.trans _ _ _ h1 (hR.trans _ _ _ (hset _ fun x => i32 (x.signalState - 1)) (ih _))
      · exact hR.trans _ _ _ h1 (ih _)
    · exact hR.refl s

theorem dispSignal (hwake : ∀ s : Kernel, R s (s.dispWakeOne d statusSuccess)) (s : Kernel)
    (i : Int) : R s (s.dispSignal d i) := by
  have hall : ∀ k s, R s (wakeAllLoop d statusSuccess k s) := by
    intro k
    induction k with
    | zero => exact hR.refl
    | succ k ih => exact fun s => hR.trans _ _ _ (hwake s) (ih _)
  have h1 := hset s fun x => i32 (x.signalState + i)
  unfold Kernel.dispSignal
  simp only
  split
  · exact hR.trans _ _ _ h1 (hall _ _)
  · exact hR.trans _ _ _ h1 (signalLoop hR hset hwake _ _)

end

/-! ## Waiting -/

theorem tryAny (hR : Rule R) {objs : List Nat} (htry : ∀ d ∈ objs, ∀ s : Kernel, R s (s.tryWait t d).2)
    (i : Nat) (s : Kernel) : R s (tryAny t i objs s).2 := by
  induction objs generalizing s i with
  | nil => exact hR.refl s
  | cons d ds ih =>
    have h1 := htry d List.mem_cons_self s
    unfold Kernel.tryAny
    simp only
    split
    · exact hR.trans _ _ _ h1 (ih (fun e he => htry e (List.mem_cons_of_mem d he)) (i + 1) _)
    · exact h1

/-! ## Ends of threads -/

theorem abandonLoop (hR : Rule R)
    (hround : ∀ (s : Kernel) m, m ∈ (s.thread t).ownedMutexes → R s (s.abandon m)) {k : Nat}
    (hr : abandonLoop t k s = .ok s') : R s s' := by
  induction k generalizing s with
  | zero =>
    unfold Kernel.abandonLoop at hr
    split at hr
    · cases hr
      exact hR.refl _
    · cases hr
  | succ k ih =>
    unfold Kernel.abandonLoop at hr
    split at hr
    · cases hr
      exact hR.refl _
    · next m _ he => exact hR.trans _ _ _ (hround s m (he ▸ List.mem_cons_self)) (ih hr)

theorem threadUnlinkWaits (hR : Rule R) (hunlink : ∀ (s : Kernel) b, R s (s.unlinkBlock (t, b)))
    (hclear : ∀ (s : Kernel) b, R s (s.modThread t fun th =>
      th.modBlock b fun x => { x with object := none }))
    (hcount : ∀ s : Kernel, R s (s.modThread t fun th => { th with waitMultiCount := 0 }))
    (s : Kernel) : R s (s.threadUnlinkWaits t) := by
  have hmulti : ∀ n, R s (unlinkMulti t n s) := by
    intro n
    induction n with
    | zero => exact hR.refl s
    | succ n ih =>
      unfold unlinkMulti
      simp only
      split
      · exact ih
      · exact hR.trans _ _ _ ih (hR.trans _ _ _ (hunlink _ _) (hclear _ (.multi n)))
  unfold Kernel.threadUnlinkWaits
  split
  · exact hR.trans _ _ _ (hmulti _) (hcount _)
  · split
    · exact hR.refl s
    · exact hR.trans _ _ _ (hunlink s .single) (hclear _ .single)

/-! ## Ticks -/

theorem timerTick (hR : Rule R) {now : Nat}
    (hfire : ∀ (s : Kernel) d, d ∈ s.timers → (s.timer d).armed = true ∧ (s.timer d).dueTick ≤ now →
      R s (s.timerFire now d)) (hr : s.timerTick now = .ok s') : R s s' := by
  have hloop : ∀ k s, timerLoop now k s = .ok s' → R s s' := by
    intro k
    induction k with
    | zero =>
      intro s hr
      unfold timerLoop at hr
      split at hr
      · cases hr
        exact hR.refl _
      · cases hr
    | succ k ih =>
      intro s hr
      unfold timerLoop at hr
      split at hr
      · cases hr
        exact hR.refl _
      · next d hd =>
        have hdue : (s.timer d).armed = true ∧ (s.timer d).dueTick ≤ now := by
          simpa using List.find?_some hd
        exact hR.trans _ _ _ (hfire s d (List.mem_of_find?_eq_some hd) hdue) (ih _ hr)
  unfold Kernel.timerTick at hr
  split at hr
  · cases hr
    exact hR.refl _
  · exact hloop _ s hr

theorem timeoutScan (hR : Rule R) (hexpire : ∀ (s : Kernel) t, R s (s.expire t)) (s : Kernel) :
    R s s.timeoutScan := by
  refine hR.foldl s.procs (fun p _ s => ?_) s
  split
  · exact hR.refl s
  · exact hR.foldl _ (fun t _ s => hexpire s t) s

/-! ## Switches -/

theorem schedReschedule (hR : Rule R)
    (hqueue : ∀ (s : Kernel) q, R s { s with needResched := false, ready := q })
    (hback : ∀ (s : Kernel) c, s.current = some c → R s (s.setState c .ready))
    (hinsert : ∀ (s : Kernel) c, R s (s.readyInsert c))
    (hto : ∀ (s : Kernel) n, R s (s.switchTo n)) (s : Kernel) : R s s.schedReschedule := by
  have hput : ∀ s : Kernel, R s s.putBack := fun s => by
    unfold putBack
    split
    · exact hR.refl s
    · next c hc =>
      split
      · simp only
        split
        · exact hR.trans _ _ _ (hback s c hc) (hinsert _ c)
        · exact hback s c hc
      · exact hR.refl s
  unfold Kernel.schedReschedule
  simp only
  split
  · exact hqueue s _
  · exact hR.trans _ _ _ (hqueue s _) (hR.trans _ _ _ (hput _) (hto _ _))

end Rule

/-! ## Priorities -/

/-- Other priorities, with the queues and the flag that go with them. -/
def reprio (s : Kernel) (priority savedPriority : Nat → Nat) (waitBoost : Nat → Bool)
    (ready : PrioQueue Nat) (needResched : Bool) : Kernel :=
  { s with
    thread := fun t =>
      { s.thread t with
        priority := priority t, savedPriority := savedPriority t, waitBoost := waitBoost t }
    ready, needResched }

def Reprio (s s' : Kernel) : Prop :=
  ∃ priority savedPriority waitBoost ready needResched,
    s' = s.reprio priority savedPriority waitBoost ready needResched

theorem reprioRule : Rule Reprio := by
  refine ⟨fun s => ⟨_, _, _, _, _, rfl⟩, ?_⟩
  rintro s _ _ ⟨_, _, _, _, _, rfl⟩ ⟨_, _, _, _, _, rfl⟩
  exact ⟨_, _, _, _, _, rfl⟩

theorem Reprio.view {v : Kernel → α} (h : Reprio s s')
    (hv : ∀ p sp w q b, v (s.reprio p sp w q b) = v s) : v s' = v s := by
  obtain ⟨p, sp, w, q, b, rfl⟩ := h
  exact hv p sp w q b

theorem modThread_reprio (s : Kernel) (t : Nat) (hf : ∃ priority savedPriority waitBoost,
      f (s.thread t) = { s.thread t with priority, savedPriority, waitBoost }) :
    Reprio s (s.modThread t f) := by
  obtain ⟨p, sp, w, hf⟩ := hf
  refine ⟨update (fun u => (s.thread u).priority) t p,
    update (fun u => (s.thread u).savedPriority) t sp,
    update (fun u => (s.thread u).waitBoost) t w, s.ready, s.needResched, ?_⟩
  simp only [modThread, reprio, hf]
  congr 1
  funext u
  by_cases hu : u = t
  · subst hu
    simp
  · simp [hu]

theorem schedBoost_reprio (s : Kernel) (t q : Nat) : Reprio s (s.schedBoost t q) := by
  have hflag : ∀ (s : Kernel) old, Reprio s (s.boostPreempt t old) := fun s old => by
    unfold boostPreempt
    split
    · exact reprioRule.refl s
    · split
      · exact ⟨_, _, _, _, _, rfl⟩
      · exact reprioRule.refl s
  unfold schedBoost
  split
  · exact reprioRule.refl s
  · simp only
    generalize (if q ≥ priorityLevels then priorityLevels - 1 else q) = q
    split
    · exact reprioRule.refl s
    · refine reprioRule.trans _ _ _ ?_ (hflag _ _)
      unfold changePriority
      split
      · have h1 : Reprio s { s with ready := (s.ready.unlink t).settle (s.thread t).priority } :=
          ⟨_, _, _, _, _, rfl⟩
        refine reprioRule.trans _ _ _ h1 (reprioRule.trans _ _ _ ?_ ⟨_, _, _, _, _, rfl⟩)
        exact modThread_reprio _ t ⟨q, _, _, rfl⟩
      · exact modThread_reprio s t ⟨q, _, _, rfl⟩

theorem mutexDonate_reprio (s : Kernel) (m t : Nat) : Reprio s (s.mutexDonate m t) := by
  unfold mutexDonate
  split
  · exact reprioRule.refl s
  · split
    · exact reprioRule.refl s
    · split
      · exact reprioRule.refl s
      · exact reprioRule.trans _ _ _ (modThread_reprio s _ ⟨_, _, _, rfl⟩) (schedBoost_reprio _ _ _)

theorem unboost_reprio (s : Kernel) (t : Nat) : Reprio s (s.unboost t) := by
  unfold unboost
  split
  · exact reprioRule.trans _ _ _ (modThread_reprio s t ⟨_, _, _, rfl⟩) (schedBoost_reprio _ _ _)
  · exact reprioRule.refl s

theorem schedBoost_other (s : Kernel) {u : Nat} (hu : t ≠ u) (q : Nat) :
    (s.schedBoost u q).thread t = s.thread t ∧ (s.schedBoost u q).current = s.current := by
  have hp : ∀ s : Kernel, ∀ old, (s.boostPreempt u old).thread = s.thread ∧
      (s.boostPreempt u old).current = s.current := by
    intro s old
    unfold boostPreempt
    split
    · exact ⟨rfl, rfl⟩
    · split <;> exact ⟨rfl, rfl⟩
  unfold schedBoost
  split
  · exact ⟨rfl, rfl⟩
  · simp only
    generalize (if q ≥ priorityLevels then priorityLevels - 1 else q) = q
    split
    · exact ⟨rfl, rfl⟩
    · rw [(hp _ _).1, (hp _ _).2]
      unfold changePriority
      split <;> simp [setPriority, readyInsert, modThread, hu]

theorem mutexDonate_self (s : Kernel) (m t : Nat) :
    (s.mutexDonate m t).thread t = s.thread t ∧ (s.mutexDonate m t).current = s.current := by
  unfold mutexDonate
  split
  · exact ⟨rfl, rfl⟩
  · split
    · exact ⟨rfl, rfl⟩
    · next hne =>
      split
      · exact ⟨rfl, rfl⟩
      · obtain ⟨h1, h2⟩ := schedBoost_other (s.modThread _ _) (Ne.symm hne) (s.thread t).priority
        refine ⟨h1.trans ?_, h2⟩
        simp [modThread, Ne.symm hne]

/-! ## What stays -/

/-- What no function that wakes a thread changes. -/
def restView (s : Kernel) : RestView :=
  ⟨s.nthread, fun t => (s.thread t).rest, s.ndisp, s.nprocess, s.process, s.procs, s.timer,
    s.timers, s.timerUp, s.idle, s.current, s.ticks⟩

theorem modThread_rest (s : Kernel) (t : Nat) (hf : (f (s.thread t)).rest = (s.thread t).rest) :
    (s.modThread t f).restView = s.restView := by
  simp only [restView, modThread]
  congr 1
  funext u
  by_cases hu : u = t
  · subst hu
    simp [hf]
  · simp [hu]

theorem schedReady_rest (s : Kernel) (t : Nat) : (s.schedReady t).restView = s.restView :=
  (Rule.of_view restView).schedReady
    (fun s => modThread_rest (f := fun th => { th with state := .ready }) s t rfl) (fun _ => rfl) s

theorem dispWakeOne_rest (s : Kernel) (d : Nat) (st : StatusCode) :
    (s.dispWakeOne d st).restView = s.restView := by
  refine (Rule.of_view restView).dispWakeOne (fun s t b => ?_) (fun s t a _ => ?_)
    (fun s t _ => schedReady_rest s t) s
  · cases b <;> exact modThread_rest (s.unlinkBlock _) t rfl
  · unfold giveMutex keMutexOwn
    exact modThread_rest _ t rfl

theorem dispSignal_rest (s : Kernel) (d : Nat) (i : Int) :
    (s.dispSignal d i).restView = s.restView :=
  (Rule.of_view restView).dispSignal (fun _ _ => rfl) (fun s => dispWakeOne_rest s d _) s i

theorem Rule.processEnd (hR : Rule R)
    (hsignal : ∀ d ∈ (s.process p).disp :: (s.process p).closes, ∀ s : Kernel,
      R s (s.dispSignal d 1)) (hprocs : ∀ (s : Kernel) l, R s { s with procs := l }) :
    R s (s.processEnd p) := by
  have hp : (s.dispSignal (s.process p).disp 1).process = s.process :=
    congrArg RestView.process (dispSignal_rest s _ 1)
  have h1 : R s ((s.process p).closes.foldl (fun s d => s.dispSignal d 1)
      (s.dispSignal (s.process p).disp 1)) := hR.foldl (_ :: (s.process p).closes) hsignal s
  unfold Kernel.processEnd
  simp only [hp]
  split
  · split
    · exact h1
    · exact hR.trans _ _ _ h1 (hprocs _ _)
  · exact h1

theorem Rule.processLeave (hR : Rule R) {st : StatusCode}
    (hmod : ∀ (s : Kernel) f, (∀ x, (f x).disp = x.disp ∧ (f x).closes = x.closes) →
      R s (s.modProcess p f))
    (hsignal : ∀ d ∈ (s.process p).disp :: (s.process p).closes, ∀ s : Kernel,
      R s (s.dispSignal d 1)) (hprocs : ∀ (s : Kernel) l, R s { s with procs := l })
    (hr : s.processLeave p st = .ok s') : R s s' := by
  have h1 := hmod s (fun x => { x with threadCount := u32 (x.threadCount + (2 ^ 32 - 1)) })
    fun _ => ⟨rfl, rfl⟩
  unfold Kernel.processLeave at hr
  simp only at hr
  split at hr
  · split at hr
    · cases hr
    · cases hr
      refine hR.trans _ _ _ h1 (hR.trans _ _ _ (hmod _ _ ?_) (hR.processEnd (fun d hd => ?_) hprocs))
      · exact fun _ => ⟨rfl, rfl⟩
      · exact hsignal d (by simpa [modProcess] using hd)
  · cases hr
    exact h1

theorem abandon_rest (s : Kernel) (m : Nat) : (s.abandon m).restView = s.restView := by
  unfold abandon
  simp only
  split
  · exact dispWakeOne_rest _ m _
  · rfl

theorem abandonLoop_rest {k : Nat} (hr : abandonLoop t k s = .ok s') : s'.restView = s.restView :=
  (Rule.of_view restView).abandonLoop (fun s m _ => abandon_rest s m) hr

theorem tryWait_rest (s : Kernel) (t d : Nat) : (s.tryWait t d).2.restView = s.restView := by
  unfold tryWait
  split
  · split
    · rfl
    · split
      · unfold keMutexOwn
        exact modThread_rest _ t rfl
      · exact (mutexDonate_reprio s d t).view fun _ _ _ _ _ => rfl
  · split
    · simp only
      split <;> rfl
    · rfl

theorem takeAll_rest (s : Kernel) (t : Nat) (objs : List Nat) :
    (takeAll t objs s).restView = s.restView :=
  (Rule.of_view restView).foldl _ (fun d _ s => tryWait_rest s t d) s

theorem finishMultiple_rest (s : Kernel) (t : Nat) (objs : List Nat) (waitAll : Bool) :
    (s.finishMultiple t objs waitAll).2.restView = s.restView := by
  have hu : (unlinkBlocks t objs.length s).restView = s.restView :=
    (Rule.of_view restView).foldl (f := fun s j => s.unlinkBlock (t, .multi j)) _
      (fun _ _ _ => rfl) s
  have hm := hu ▸ modThread_rest (unlinkBlocks t objs.length s) t 
    (f := (·.endWait objs.length)) rfl
  unfold finishMultiple
  simp only
  split
  · exact hm
  · split
    · exact (takeAll_rest ..).trans hm
    · exact hm

/-- A thread that is not to be killed goes on, and no other runs. -/
theorem resume_goes_on {r : Option StatusCode} (hc : s.current = some t)
    (hk : (s.thread t).killPending = false) (hr : s.resume = .ok (r, s')) :
    s'.current = some t ∧ (s'.thread t).cont = .code := by
  unfold resume at hr
  simp only [hc, hk, Bool.false_eq_true, if_false] at hr
  have hcont : ((s.modThread t fun th => { th with cont := .code }).thread t).cont = .code := by
    simp [modThread]
  split at hr
  · cases hr
    exact ⟨hc, hcont⟩
  · cases hr
    exact ⟨hc, hcont⟩
  · cases hr
    exact ⟨hc, hcont⟩
  · cases hr
    exact ⟨hc, hcont⟩
  · next objs waitAll _ =>
    have he := finishMultiple_rest (s.modThread t fun th => { th with cont := .code }) t objs waitAll
    cases hr
    exact ⟨(congrArg RestView.current he).trans hc,
      (congrArg ThreadRest.cont (congrFun (congrArg RestView.thread he) t)).trans hcont⟩

theorem threadUnlinkWaits_rest (s : Kernel) (t : Nat) :
    (s.threadUnlinkWaits t).restView = s.restView := by
  refine (Rule.of_view restView).threadUnlinkWaits (fun _ _ => rfl) (fun s b => ?_) (fun s => ?_) s
  · cases b <;> exact modThread_rest s t rfl
  · exact modThread_rest s t rfl

theorem timerFire_timers (s : Kernel) (now d : Nat) :
    (s.timerFire now d).timers =
      (s.timers.filter (· ≠ d) ++ if (s.timer d).period ≠ 0 then [d] else []) ∧
    (s.timerFire now d).timer = update s.timer d
      (if (s.timer d).period ≠ 0 then ⟨true, u64 (now + (s.timer d).period), (s.timer d).period⟩
        else { s.timer d with armed := false }) := by
  have he := dispSignal_rest ((s.unlinkTimer d).modTimer d fun x => { x with armed := false }) d 1
  have hl := congrArg RestView.timers he
  have ht := congrArg RestView.timer he
  unfold timerFire
  simp only
  generalize ((s.unlinkTimer d).modTimer d fun x => { x with armed := false }).dispSignal d 1 = s1
    at hl ht
  have hl : s1.timers = s.timers.filter (· ≠ d) := hl
  have ht : s1.timer = update s.timer d { s.timer d with armed := false } := ht
  by_cases hp : (s.timer d).period ≠ 0
  · simp [ht, hl, hp, modTimer]
  · simp [ht, hl, hp]

end Kernel

end Aegis
