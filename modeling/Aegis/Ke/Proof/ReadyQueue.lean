import Aegis.Ke.Proof.Rule

/-!
# The ready queues are exact

`SchedView` is the part of the kernel that the ready queues are about; most functions leave it
alone. Those that change it either wake threads (`Woken`: a waiting or unused thread becomes ready,
and priorities change), which keeps `ReadyCore`, or switch (`schedReschedule`), which also makes the
thread that is then current the one that runs. Between the two, inside a wait or an exit, the
current thread does not run.
-/

namespace Aegis

open Function

/-- What the ready queues are for. -/
structure ReadyQueuesExact (s : Kernel) : Prop where
  mask : ∀ p < priorityLevels, s.ready.mask.getLsbD p = true ↔ s.ready.queue p ≠ []
  linked : ∀ t < s.nthread, (s.thread t).state = .ready → t ≠ s.idle →
    ∀ p, (s.ready.queue p).count t = if p = (s.thread t).priority then 1 else 0
  unlinked : ∀ t < s.nthread, (s.thread t).state ≠ .ready → ∀ p, t ∉ s.ready.queue p
  threads : ∀ p, ∀ t ∈ s.ready.queue p, t < s.nthread
  running : ∀ t < s.nthread, (s.thread t).state = .running ↔ s.current = some t

/-- What the ready queues depend on. -/
structure SchedView where
  nthread : Nat
  state : Nat → ThreadState
  priority : Nat → Nat
  killPending : Nat → Bool
  ready : PrioQueue Nat
  idle : Nat
  current : Option Nat

def Kernel.schedView (s : Kernel) : SchedView :=
  ⟨s.nthread, fun t => (s.thread t).state, fun t => (s.thread t).priority,
    fun t => (s.thread t).killPending, s.ready, s.idle, s.current⟩

/-- The queues are right; the current thread need not run. -/
structure ReadyCore (v : SchedView) : Prop where
  exact : v.ready.Exact
  prio : ∀ t, v.priority t < 32
  once : ∀ t p, (v.ready.queue p).count t ≤ if p = v.priority t then 1 else 0
  linked : ∀ t < v.nthread, v.state t = .ready → t ≠ v.idle → t ∈ v.ready.queue (v.priority t)
  ready : ∀ t p, t ∈ v.ready.queue p → v.state t = .ready
  running : ∀ t, v.state t = .running → v.current = some t
  idle : v.state v.idle = .ready ∨ v.state v.idle = .running
  fresh : ∀ t, v.nthread ≤ t → v.state t = .unused
  alive : v.killPending v.idle = false

/-- `q'` are the queues `q` without `x`. -/
structure Popped (q : PrioQueue Nat) (x : Nat) (q' : PrioQueue Nat) : Prop where
  exact : q'.Exact
  others : ∀ u p, u ≠ x → (q'.queue p).count u = (q.queue p).count u
  gone : ∀ p, x ∉ q'.queue p

theorem Popped.insert {q q' : PrioQueue Nat} {x c p : Nat} (h : Popped q x q') (hp : p < 32)
    (hc : c ≠ x) : Popped (q.insert p c) x (q'.insert p c) := by
  refine ⟨PrioQueue.insert_exact h.exact hp c, fun u i hu => ?_, fun i hm => ?_⟩
  · simp only [PrioQueue.insert_queue, update_apply]
    split
    · rw [List.count_append, List.count_append, h.others u p hu]
    · exact h.others u i hu
  · simp only [PrioQueue.insert_queue, update_apply] at hm
    split at hm
    · rcases List.mem_append.1 hm with hm | hm
      · exact h.gone p hm
      · exact hc (List.mem_singleton.1 hm).symm
    · exact h.gone i hm

namespace ReadyCore

variable {v : SchedView}
variable {p q t : Nat}

section
variable (h : ReadyCore v)
include h

theorem lt_of_state (ht : v.state t ≠ .unused) : t < v.nthread := by
  by_contra hn
  exact ht (h.fresh t (by omega))

theorem notMem (ht : v.state t ≠ .ready) : t ∉ v.ready.queue p :=
  fun hm => ht (h.ready t p hm)

theorem mem_prio (hm : t ∈ v.ready.queue p) : p = v.priority t := by
  by_contra hne
  have := h.once t p
  rw [if_neg hne] at this
  exact absurd (List.count_pos_iff.2 hm) (by omega)

theorem insert (ht : t < v.nthread) (hs : v.state t ≠ .ready) :
    ReadyCore { v with
      state := update v.state t .ready
      ready := v.ready.insert (v.priority t) t } := by
  have hno : ∀ p, t ∉ v.ready.queue p := fun p => h.notMem hs
  constructor
  · exact PrioQueue.insert_exact h.exact (h.prio t) t
  · exact h.prio
  · intro u p
    simp only [PrioQueue.insert_queue, update_apply]
    by_cases hp : p = v.priority t
    · subst hp
      rw [if_pos rfl, List.count_append]
      by_cases hu : u = t
      · subst hu
        simp [List.count_eq_zero_of_not_mem (hno _)]
      · simpa [List.count_singleton, Ne.symm hu] using h.once u (v.priority t)
    · rw [if_neg hp]
      exact h.once u p
  · intro u hu hr hne
    simp only [PrioQueue.insert_queue, update_apply] at hr ⊢
    by_cases hut : u = t
    · subst hut
      simp
    · rw [if_neg hut] at hr
      have hm := h.linked u hu hr hne
      by_cases hp : v.priority u = v.priority t
      · rw [if_pos hp, ← hp]
        exact List.mem_append_left _ hm
      · rwa [if_neg hp]
  · intro u p hm
    simp only [PrioQueue.insert_queue, update_apply] at hm ⊢
    by_cases hut : u = t
    · rw [if_pos hut]
    · rw [if_neg hut]
      by_cases hp : p = v.priority t
      · subst hp
        rw [if_pos rfl, List.mem_append, List.mem_singleton] at hm
        exact h.ready u _ (hm.resolve_right hut)
      · rw [if_neg hp] at hm
        exact h.ready u p hm
  · intro u hu
    simp only [update_apply] at hu
    by_cases hut : u = t
    · simp [hut] at hu
    · rw [if_neg hut] at hu
      exact h.running u hu
  · simp only [update_apply]
    by_cases hidle : v.idle = t
    · exact .inl (if_pos hidle)
    · rw [if_neg hidle]
      exact h.idle
  · intro u hu
    have : u ≠ t := by
      rintro rfl
      exact absurd ht (by simpa using hu)
    simpa [update_of_ne this] using h.fresh u hu
  · exact h.alive

theorem requeue (ht : v.state t = .ready) (hq : q < 32) :
    ReadyCore { v with
      priority := update v.priority t q
      ready := ((v.ready.unlink t).settle (v.priority t)).insert q t } := by
  have hother : ∀ i ≠ v.priority t, t ∉ v.ready.queue i := fun i hi hm => hi (h.mem_prio hm)
  constructor
  · exact PrioQueue.insert_exact (PrioQueue.unlink_exact h.exact (h.prio t) hother) hq t
  · intro u
    simp only [update_apply]
    split
    · exact hq
    · exact h.prio u
  · intro u p
    simp only [PrioQueue.insert_queue, PrioQueue.settle_queue, PrioQueue.unlink_queue,
      update_apply]
    by_cases hu : u = t
    · subst hu
      have hzero : ∀ l : List Nat, (l.filter (· ≠ u)).count u = 0 := fun l =>
        List.count_eq_zero_of_not_mem (by simp)
      by_cases hp : p = q
      · subst hp
        rw [if_pos rfl, List.count_append, hzero]
        simp
      · rw [if_neg hp, hzero]
        exact Nat.zero_le _
    · have hcount : ∀ l : List Nat, (l.filter (· ≠ t)).count u = l.count u := fun l =>
        List.count_filter (by simpa using hu)
      rw [if_neg hu]
      by_cases hp : p = q
      · subst hp
        rw [if_pos rfl, List.count_append, hcount, List.count_singleton]
        simpa [Ne.symm hu] using h.once u p
      · rw [if_neg hp, hcount]
        exact h.once u p
  · intro u hu hr hne
    simp only [PrioQueue.insert_queue, PrioQueue.settle_queue, PrioQueue.unlink_queue,
      update_apply] at hr ⊢
    by_cases hut : u = t
    · subst hut
      simp
    · have hm : u ∈ (v.ready.queue (v.priority u)).filter (· ≠ t) :=
        List.mem_filter.2 ⟨h.linked u hu hr hne, by simpa using hut⟩
      rw [if_neg hut]
      by_cases hp : v.priority u = q
      · rw [if_pos hp, ← hp]
        exact List.mem_append_left _ hm
      · rwa [if_neg hp]
  · intro u p hm
    simp only [PrioQueue.insert_queue, PrioQueue.settle_queue, PrioQueue.unlink_queue,
      update_apply] at hm
    have hmem : u = t ∨ u ∈ v.ready.queue p := by
      split at hm
      · next hp =>
        subst hp
        rcases List.mem_append.1 hm with hm | hm
        · exact .inr (List.mem_of_mem_filter hm)
        · exact .inl (List.mem_singleton.1 hm)
      · exact .inr (List.mem_of_mem_filter hm)
    rcases hmem with rfl | hmem
    · exact ht
    · exact h.ready u p hmem
  · exact h.running
  · exact h.idle
  · exact h.fresh
  · exact h.alive

theorem setPriority (ht : v.state t ≠ .ready) (hq : q < 32) :
    ReadyCore { v with priority := update v.priority t q } := by
  have hne : ∀ {u p}, u ∈ v.ready.queue p → u ≠ t := by
    rintro u p hm rfl
    exact h.notMem ht hm
  refine ⟨h.exact, fun u => ?_, fun u p => ?_, fun u hu hr hi => ?_, h.ready, h.running, h.idle,
    h.fresh, h.alive⟩
  · simp only [update_apply]
    split
    · exact hq
    · exact h.prio u
  · by_cases hm : u ∈ v.ready.queue p
    · simpa [update_of_ne (hne hm)] using h.once u p
    · simp [List.count_eq_zero_of_not_mem hm]
  · have hm := h.linked u hu hr hi
    simpa [update_of_ne (hne hm)] using hm

theorem idleReady : ReadyCore { v with state := update v.state v.idle .ready } := by
  refine ⟨h.exact, h.prio, h.once, fun u hu hr hi => ?_, fun u p hm => ?_, fun u hu => ?_, by simp,
    fun u hu => ?_, h.alive⟩
  · simp only [update_of_ne hi] at hr
    exact h.linked u hu hr hi
  · simp only [update_apply]
    split
    · rfl
    · exact h.ready u p hm
  · simp only [update_apply] at hu
    split at hu
    · cases hu
    · exact h.running u hu
  · have hlt : v.idle < v.nthread := h.lt_of_state (by rcases h.idle with hi | hi <;> simp [hi])
    simpa [update_of_ne (show u ≠ v.idle by simp only at hu; omega)] using h.fresh u hu

theorem stop {c : Nat} {st : ThreadState} (hc : v.state c ≠ .ready) (hlt : c < v.nthread)
    (hi : c ≠ v.idle) (hst : st = .waiting ∨ st = .terminated) :
    ReadyCore { v with state := update v.state c st } := by
  have hne : ∀ {u p}, u ∈ v.ready.queue p → u ≠ c := by
    rintro u p hm rfl
    exact h.notMem hc hm
  have hstate : ∀ {u x}, update v.state c st u = x → x ≠ .waiting → x ≠ .terminated →
      v.state u = x := by
    intro u x hu h1 h2
    by_cases huc : u = c
    · subst huc
      rw [update_self] at hu
      rcases hst with rfl | rfl
      · exact absurd hu.symm h1
      · exact absurd hu.symm h2
    · rwa [update_of_ne huc] at hu
  refine ⟨h.exact, h.prio, h.once, fun u hu hr => h.linked u hu (hstate hr (by simp) (by simp)),
    fun u p hm => ?_, fun u hu => h.running u (hstate hu (by simp) (by simp)), ?_, fun u hu => ?_,
    h.alive⟩
  · simpa [update_of_ne (hne hm)] using h.ready u p hm
  · simpa [update_of_ne hi.symm] using h.idle
  · have : u ≠ c := by
      rintro rfl
      exact absurd hlt (by simpa using hu)
    simpa [update_of_ne this] using h.fresh u hu

theorem leave (hno : ∀ u, v.state u ≠ .running) : ReadyCore { v with current := none } :=
  ⟨h.exact, h.prio, h.once, h.linked, h.ready, fun u hu => absurd hu (hno u), h.idle, h.fresh,
    h.alive⟩

theorem kill (ht : t ≠ v.idle) (b : Bool) :
    ReadyCore { v with killPending := update v.killPending t b } :=
  ⟨h.exact, h.prio, h.once, h.linked, h.ready, h.running, h.idle, h.fresh, by
    simpa [update_of_ne ht.symm] using h.alive⟩

theorem grow (hq : q < 32) :
    ReadyCore { v with
      nthread := v.nthread + 1
      state := update v.state v.nthread .unused
      priority := update v.priority v.nthread q
      killPending := update v.killPending v.nthread false } := by
  have hidle : v.idle ≠ v.nthread :=
    (h.lt_of_state (by rcases h.idle with hi | hi <;> simp [hi])).ne
  have hsame : update v.state v.nthread .unused = v.state := by
    rw [← h.fresh v.nthread le_rfl, update_eq_self]
  have h' := h.setPriority (t := v.nthread) (by simp [h.fresh v.nthread le_rfl]) hq
  simp only [hsame]
  refine ⟨h'.exact, h'.prio, h'.once, fun u hu hr hi => ?_, h'.ready, h'.running, h'.idle,
    fun u hu => h'.fresh u ?_, ?_⟩
  · have hne : u ≠ v.nthread := by
      rintro rfl
      rw [h.fresh v.nthread le_rfl] at hr
      cases hr
    exact h'.linked u (by simp only at hu ⊢; omega) hr hi
  · simp only at hu ⊢
    omega
  · simpa [update_of_ne hidle] using h.alive

theorem run (hrun : ∀ u, v.state u ≠ .running) {x : Nat} (hx : v.state x = .ready)
    {q : PrioQueue Nat} (hp : Popped v.ready x q) :
    ReadyCore { v with ready := q, state := update v.state x .running, current := some x } := by
  obtain ⟨hq, hcount, hnot⟩ := hp
  have hmem : ∀ {u p}, u ≠ x → (u ∈ q.queue p ↔ u ∈ v.ready.queue p) := fun {u p} hu => by
    rw [← List.count_pos_iff, ← List.count_pos_iff, hcount u p hu]
  constructor
  · exact hq
  · exact h.prio
  · intro u p
    by_cases hu : u = x
    · subst hu
      simp [List.count_eq_zero_of_not_mem (hnot p)]
    · simpa [hcount u p hu] using h.once u p
  · intro u hu hr hi
    have hux : u ≠ x := by
      rintro rfl
      simp at hr
    simp only [update_of_ne hux] at hr
    exact (hmem hux).2 (h.linked u hu hr hi)
  · intro u p hm
    have hux : u ≠ x := by
      rintro rfl
      exact hnot p hm
    simpa [update_of_ne hux] using h.ready u p ((hmem hux).1 hm)
  · intro u hu
    by_cases hux : u = x
    · rw [hux]
    · simp only [update_of_ne hux] at hu
      exact absurd hu (hrun u)
  · simp only [update_apply]
    split
    · exact .inr rfl
    · exact h.idle
  · intro u hu
    have hux : u ≠ x := by
      rintro rfl
      exact absurd (h.fresh u hu) (by simp [hx])
    simpa [update_of_ne hux] using h.fresh u hu
  · exact h.alive

/-- The thread that is to run next is ready, or it is the idle thread and there is no other. -/
theorem pop :
    Popped v.ready (v.ready.popHighest.1.getD v.idle) v.ready.popHighest.2 ∧
      (v.state (v.ready.popHighest.1.getD v.idle) = .ready ∨
        v.ready.popHighest = (none, v.ready) ∧ v.state v.idle = .running) := by
  rcases PrioQueue.popHighest_cases h.exact with ⟨he, hall⟩ | ⟨p, x, rest, q, he, hp, hx, -, hq, hqe⟩
  · simp only [he, Option.getD_none]
    exact ⟨⟨h.exact, fun _ _ _ => rfl, by simp [hall]⟩, h.idle.imp id fun hi => ⟨trivial, hi⟩⟩
  · have hmem : x ∈ v.ready.queue p := by simp [hx]
    have hprio := h.mem_prio hmem
    simp only [he, Option.getD_some]
    refine ⟨⟨hqe, fun u i hu => ?_, fun i hm => ?_⟩, .inl (h.ready x p hmem)⟩
    · rw [hq]
      by_cases hi : i = p
      · subst hi
        simp [hx, Ne.symm hu]
      · rw [update_of_ne hi]
    · rw [hq] at hm
      by_cases hi : i = p
      · subst hi
        have hone := h.once x i
        rw [hx, List.count_cons_self, if_pos hprio] at hone
        rw [update_self] at hm
        exact absurd (List.count_pos_iff.2 hm) (by omega)
      · rw [update_of_ne hi] at hm
        exact hi ((h.mem_prio hm).trans hprio.symm)

theorem next : ∃ n, v.ready.popHighest.1.getD v.idle = n ∧
    (v.state n = .ready ∨ v.state n = .running) := by
  refine ⟨_, rfl, h.pop.2.imp id fun hx => ?_⟩
  rw [hx.1]
  exact hx.2

end

end ReadyCore

namespace Kernel

variable {s s' : Kernel} {t : Nat}
variable {s1 s2 s3 : Kernel}

/-! ## Switching -/

theorem switchTo_view (s : Kernel) (x : Nat) :
    (s.switchTo x).schedView = { s.schedView with
        state := update s.schedView.state x .running, current := some x } := by
  simp only [schedView, switchTo, modThread]
  congr 1 <;> funext u <;> by_cases hu : u = x <;> simp [hu]

theorem setState_view (s : Kernel) (t : Nat) (st : ThreadState) :
    (s.setState t st).schedView = { s.schedView with state := update s.schedView.state t st } := by
  simp only [schedView, setState, modThread]
  congr 1 <;> funext u <;> by_cases hu : u = t <;> simp [hu]

theorem setPriority_view (s : Kernel) (t q : Nat) :
    (s.setPriority t q).schedView =
      { s.schedView with priority := update s.schedView.priority t q } := by
  simp only [schedView, setPriority, modThread]
  congr 1 <;> funext u <;> by_cases hu : u = t <;> simp [hu]

/-- What a switch leaves: a thread that runs. -/
structure Switched (s s' : Kernel) : Prop where
  core : ReadyCore s'.schedView
  nthread : s'.nthread = s.nthread
  idle : s'.idle = s.idle
  current : ∃ t, s'.current = some t ∧ (s'.thread t).state = .running

/-- The current thread has stopped running, and is not on a queue. -/
def Stopped (s : Kernel) : Prop :=
  ∀ c ∈ s.current, (s.thread c).state ≠ .ready ∧ (c = s.idle → (s.thread c).state = .running)

theorem readyInsert_view (s : Kernel) (t : Nat) :
    (s.readyInsert t).schedView =
      { s.schedView with ready := s.ready.insert (s.schedView.priority t) t } := rfl

theorem putBack_cases (s : Kernel) :
    (s.putBack = s ∧ ∀ c ∈ s.current, (s.thread c).state ≠ .running) ∨
      ∃ c, s.current = some c ∧ (s.thread c).state = .running ∧
        (c = s.idle ∧ s.putBack = s.setState c .ready ∨
          c ≠ s.idle ∧ s.putBack = (s.setState c .ready).readyInsert c) := by
  unfold putBack
  cases hc : s.current with
  | none => exact .inl ⟨rfl, by simp⟩
  | some c =>
    by_cases hrun : (s.thread c).state = .running
    · right
      refine ⟨c, rfl, hrun, ?_⟩
      by_cases hi : c = s.idle
      · subst hi
        exact .inl ⟨rfl, by simp [hrun]⟩
      · exact .inr ⟨hi, by simp [hrun, hi]⟩
    · exact .inl ⟨by simp [hrun], by simpa using hrun⟩

/-- Putting back the current thread commutes with taking `x` off. -/
theorem putBack_popped (h : ReadyCore s.schedView) {x : Nat} {q : PrioQueue Nat}
    (hpop : Popped s.ready x q) (hx : (s.thread x).state = .ready) (s1 : Kernel)
    (hs1 : s1 = { s with needResched := false, ready := q }) :
    ∃ v, ReadyCore v ∧ (∀ u, v.state u ≠ .running) ∧ v.state x = .ready ∧
      v.nthread = s.nthread ∧ v.idle = s.idle ∧ Popped v.ready x s1.putBack.ready ∧
      s1.putBack.schedView = { v with ready := s1.putBack.ready } := by
  rcases putBack_cases s1 with ⟨he, hno⟩ | ⟨c, hc, hrun, hcase⟩
  · rw [he]
    subst hs1
    exact ⟨s.schedView, h, fun u hu => hno u (h.running u hu) hu, hx, rfl, rfl, hpop, rfl⟩
  · subst hs1
    have hxc : x ≠ c := by
      rintro rfl
      rw [show (s.thread x).state = .running from hrun] at hx
      cases hx
    -- the current thread was the only one that ran
    have hafter : ∀ u, update s.schedView.state c ThreadState.ready u ≠ .running := by
      intro u hu
      by_cases huc : u = c
      · subst huc
        simp at hu
      · rw [update_of_ne huc] at hu
        have hcu : s.current = some u := h.running u hu
        exact huc (Option.some.inj (hcu.symm.trans hc))
    have hkeep : update s.schedView.state c ThreadState.ready x = .ready := by
      rw [update_of_ne hxc]
      exact hx
    have hstate : s.schedView.state c = .running := hrun
    rcases hcase with ⟨rfl, he⟩ | ⟨-, he⟩
    · rw [he, setState_view]
      exact ⟨_, h.idleReady, hafter, hkeep, rfl, rfl, hpop, rfl⟩
    · rw [he, readyInsert_view, setState_view]
      refine ⟨_, h.insert (h.lt_of_state (t := c) (by simp [hstate])) (by simp [hstate]), hafter,
        hkeep, rfl, rfl, ?_, ?_⟩
      · have hprio : ((setState { s with needResched := false, ready := q } c .ready).thread
            c).priority = s.schedView.priority c := by
          simp [setState, modThread, schedView]
        show Popped _ x (q.insert _ c)
        rw [hprio]
        exact hpop.insert (h.prio c) hxc.symm
      · simp [readyInsert, setState, modThread, schedView]

theorem schedReschedule_switched (h : ReadyCore s.schedView) (hc : s.Stopped) :
    Switched s s.schedReschedule := by
  obtain ⟨hpop, hx⟩ := h.pop
  obtain ⟨x, hxe⟩ : ∃ x, s.ready.popHighest.1.getD s.idle = x := ⟨_, rfl⟩
  have hxe' : s.schedView.ready.popHighest.1.getD s.schedView.idle = x := hxe
  rw [hxe'] at hpop hx
  unfold schedReschedule
  simp only [hxe]
  split
  · next hcur =>
    -- only the idle thread can be next while it runs
    have hidle : s.ready.popHighest = (none, s.ready) ∧ (s.thread s.idle).state = .running :=
      hx.resolve_left (hc x hcur).1
    have hxi : x = s.idle := by
      rw [← hxe, hidle.1]
      rfl
    refine ⟨?_, rfl, rfl, x, hcur, hxi ▸ hidle.2⟩
    have hv : ({ s with needResched := false, ready := s.ready.popHighest.2 } : Kernel).schedView =
        s.schedView := by
      rw [hidle.1]
      rfl
    rw [hv]
    exact h
  · next hcur =>
    have hready : (s.thread x).state = .ready := by
      rcases hx with hx | ⟨he, hi⟩
      · exact hx
      · refine absurd (h.running s.idle hi) fun hci => hcur ?_
        rw [show x = s.idle by rw [← hxe, show s.ready.popHighest = _ from he]; rfl]
        exact hci
    obtain ⟨v, hv, hno, hxr, hn, hi, hp, he⟩ := putBack_popped h hpop hready
      { s with needResched := false, ready := s.ready.popHighest.2 } rfl
    refine ⟨?_, ?_, ?_, x, rfl, by simp [switchTo, modThread]⟩
    · rw [switchTo_view, he]
      exact hv.run hno hxr hp
    · exact (congrArg SchedView.nthread he).trans hn
    · exact (congrArg SchedView.idle he).trans hi

/-! ## Waking -/

/-- Threads have become ready and priorities have changed, and nothing else that the queues are
about. -/
structure Woken (s s' : Kernel) : Prop where
  core : ReadyCore s'.schedView
  nthread : s'.nthread = s.nthread
  idle : s'.idle = s.idle
  current : s'.current = s.current
  state : ∀ t, (s'.thread t).state = (s.thread t).state ∨
    ((s.thread t).state = .waiting ∨ (s.thread t).state = .unused) ∧
      (s'.thread t).state = .ready

theorem Woken.of_view (h : ReadyCore s.schedView) (he : s'.schedView = s.schedView) : Woken s s' :=
  ⟨he ▸ h, congrArg SchedView.nthread he, congrArg SchedView.idle he,
    congrArg SchedView.current he, fun t => .inl (congrFun (congrArg SchedView.state he) t)⟩

theorem Woken.refl (h : ReadyCore s.schedView) : Woken s s := .of_view h rfl

theorem Woken.trans (h1 : Woken s1 s2) (h2 : Woken s2 s3) : Woken s1 s3 := by
  refine ⟨h2.core, h2.nthread.trans h1.nthread, h2.idle.trans h1.idle,
    h2.current.trans h1.current, fun t => ?_⟩
  rcases h1.state t with e1 | ⟨a1, e1⟩
  · rcases h2.state t with e2 | ⟨a2, e2⟩
    · exact .inl (e2.trans e1)
    · exact .inr ⟨e1 ▸ a2, e2⟩
  · rcases h2.state t with e2 | ⟨-, e2⟩
    · exact .inr ⟨a1, e2.trans e1⟩
    · exact .inr ⟨a1, e2⟩

theorem Woken.then_view (h : Woken s1 s2) (he : s3.schedView = s2.schedView) : Woken s1 s3 :=
  h.trans (.of_view h.core he)

theorem Woken.after (h : Woken s2 s3) (he : s2.schedView = s1.schedView) : Woken s1 s3 :=
  ⟨h.core, h.nthread.trans (congrArg SchedView.nthread he),
    h.idle.trans (congrArg SchedView.idle he), h.current.trans (congrArg SchedView.current he),
    fun t => by
      have ht : (s2.thread t).state = (s1.thread t).state := congrFun (congrArg SchedView.state he) t
      rw [← ht]
      exact h.state t⟩

theorem modThread_view (s : Kernel) (t : Nat) {f : Thread → Thread}
    (hs : (f (s.thread t)).state = (s.thread t).state)
    (hp : (f (s.thread t)).priority = (s.thread t).priority)
    (hk : (f (s.thread t)).killPending = (s.thread t).killPending) :
    (s.modThread t f).schedView = s.schedView := by
  simp only [schedView, modThread]
  congr 1 <;> funext u <;> by_cases hu : u = t <;> simp [hu, hs, hp, hk]

theorem preempt_view (s : Kernel) (t : Nat) : (s.preempt t).schedView = s.schedView := by
  unfold preempt
  split
  · rfl
  · split <;> rfl

theorem schedReady_woken (h : ReadyCore s.schedView) (ht : t < s.nthread) :
    Woken s (s.schedReady t) := by
  unfold schedReady
  split
  · exact .refl h
  · next hno =>
    push Not at hno
    have hv : (((s.setState t .ready).readyInsert t).preempt t).schedView =
        { s.schedView with
          state := update s.schedView.state t .ready
          ready := s.ready.insert (s.schedView.priority t) t } := by
      rw [preempt_view, readyInsert_view, setState_view]
      rfl
    refine ⟨?_, congrArg SchedView.nthread hv, congrArg SchedView.idle hv,
      congrArg SchedView.current hv, fun u => ?_⟩
    · rw [hv]
      exact h.insert ht hno.2.1
    · have hu : (_ : Kernel).schedView.state u = _ := congrFun (congrArg SchedView.state hv) u
      by_cases hut : u = t
      · subst hut
        right
        refine ⟨?_, hu.trans (update_self ..)⟩
        cases hst : (s.thread u).state <;> simp_all
      · exact .inl (hu.trans (update_of_ne hut ..))

theorem schedReady_twice (s : Kernel) (t : Nat) :
    (s.schedReady t).schedReady t = s.schedReady t := by
  by_cases hno : (s.thread t).state = .terminated ∨ (s.thread t).state = .ready ∨
      (s.thread t).state = .running
  · have h1 : s.schedReady t = s := by rw [schedReady, if_pos hno]
    rw [h1, h1]
  · have h1 : ((s.schedReady t).thread t).state = .ready := by
      rw [schedReady, if_neg hno]
      have hv := preempt_view ((s.setState t .ready).readyInsert t) t
      rw [readyInsert_view, setState_view] at hv
      exact (congrFun (congrArg SchedView.state hv) t).trans (update_self ..)
    generalize s.schedReady t = s' at h1 ⊢
    rw [schedReady, if_pos (.inr (.inl h1))]

theorem boostPreempt_view (s : Kernel) (t old : Nat) :
    (s.boostPreempt t old).schedView = s.schedView := by
  unfold boostPreempt
  split
  · rfl
  · split <;> rfl

theorem schedBoost_woken (h : ReadyCore s.schedView) (t q : Nat) : Woken s (s.schedBoost t q) := by
  unfold schedBoost
  split
  · exact .refl h
  · simp only
    have hq : (if q ≥ priorityLevels then priorityLevels - 1 else q) < 32 := by
      unfold priorityLevels
      split <;> omega
    generalize (if q ≥ priorityLevels then priorityLevels - 1 else q) = q at hq
    split
    · exact .refl h
    · refine Woken.then_view ?_ (boostPreempt_view _ _ _)
      unfold changePriority
      split
      · next hr =>
        have hv : (({ s with ready := (s.ready.unlink t).settle (s.thread t).priority } : Kernel)
              |>.setPriority t q |>.readyInsert t).schedView =
            { s.schedView with
              priority := update s.schedView.priority t q
              ready := ((s.ready.unlink t).settle (s.schedView.priority t)).insert q t } := by
          rw [readyInsert_view, setPriority_view]
          simp [setPriority, modThread, schedView]
        exact ⟨by rw [hv]; exact h.requeue hr hq, congrArg SchedView.nthread hv,
          congrArg SchedView.idle hv, congrArg SchedView.current hv,
          fun u => .inl (congrFun (congrArg SchedView.state hv) u)⟩
      · next hr =>
        have hv := setPriority_view s t q
        exact ⟨by rw [hv]; exact h.setPriority hr hq, congrArg SchedView.nthread hv,
          congrArg SchedView.idle hv, congrArg SchedView.current hv,
          fun u => .inl (congrFun (congrArg SchedView.state hv) u)⟩

theorem schedBoost_priority (s : Kernel) (ht : t ≠ s.idle) (q : Nat) :
    ((s.schedBoost t q).thread t).priority = min q (priorityLevels - 1) := by
  have hq : (if q ≥ priorityLevels then priorityLevels - 1 else q) = min q (priorityLevels - 1) := by
    unfold priorityLevels
    split <;> omega
  rw [schedBoost, if_neg ht]
  simp only [hq]
  split
  · assumption
  · rw [show ∀ s : Kernel, ∀ old, ((s.boostPreempt t old).thread t).priority =
      (s.thread t).priority from fun s old =>
        congrFun (congrArg SchedView.priority (boostPreempt_view s t old)) t]
    unfold changePriority
    split <;> simp [setPriority, readyInsert, modThread]

end Kernel

end Aegis
