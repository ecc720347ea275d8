import Aegis.Ke.Proof.ReadyRun

/-!
# Which thread runs next

`sched_yield` takes the first thread of the highest queue that holds any, whatever the priority of
the thread that yields, which goes to the end of its own queue. The idle thread has no queue to go
back to.
-/

namespace Aegis

open Function

/-- The thread `c` yields in a state with the queues of `v`, and `t` is next. -/
structure SchedView.Picks (v : SchedView) (c t : Nat) (s' : Kernel) : Prop where
  current : s'.current = some t
  first : (∃ rest, v.ready.queue (v.priority t) = t :: rest) ∨
    t = v.idle ∧ ∀ p, v.ready.queue p = []
  highest : ∀ u < v.nthread, u ≠ v.idle → v.state u = .ready → v.priority u ≤ v.priority t
  queue : ∀ p, s'.ready.queue p =
    (if p = v.priority t then (v.ready.queue p).tail else v.ready.queue p) ++
      if c ≠ v.idle ∧ p = v.priority c then [c] else []

namespace Kernel

variable {s s' : Kernel} {c : Nat}

theorem putBack_queue (hc : s.current = some c) (hrun : (s.thread c).state = .running) (p : Nat) :
    s.putBack.ready.queue p = s.ready.queue p ++
      if c ≠ s.idle ∧ p = (s.thread c).priority then [c] else [] := by
  rcases putBack_cases s with ⟨-, hno⟩ | ⟨c', hc', -, ⟨hi, he⟩ | ⟨hi, he⟩⟩
  · exact absurd hrun (hno c hc)
  all_goals
    cases hc.symm.trans hc'
    rw [he]
  · simp [hi, setState, modThread]
  · simp only [readyInsert, setState, modThread, update_self, PrioQueue.insert_queue, update_apply]
    split_ifs <;> simp_all

theorem schedReschedule_picks (h : ReadyCore s.schedView) (hc : s.current = some c)
    (hrun : (s.thread c).state = .running) : ∃ t, s.schedView.Picks c t s.schedReschedule := by
  obtain ⟨t, ht⟩ : ∃ t, s.ready.popHighest.1.getD s.idle = t := ⟨_, rfl⟩
  -- what the pop leaves, and that a thread that is next while it runs is the idle one
  have hpop : ((∃ rest, s.ready.queue (s.thread t).priority = t :: rest) ∨
      t = s.idle ∧ ∀ p, s.ready.queue p = []) ∧
      (∀ i, (s.thread t).priority < i → s.ready.queue i = []) ∧
      ∀ p, s.ready.popHighest.2.queue p =
        if p = (s.thread t).priority then (s.ready.queue p).tail else s.ready.queue p := by
    rcases PrioQueue.popHighest_cases (q := s.ready) h.exact with
      ⟨he, hall⟩ | ⟨p, x, rest, q, he, -, hq, htop, hnew, -⟩
    · exact ⟨.inr ⟨by rw [← ht, he]; rfl, hall⟩, fun i _ => hall i, by simp [he, hall]⟩
    · obtain rfl : x = t := by rw [← ht, he]; rfl
      have hp : p = (s.thread x).priority :=
        h.mem_prio (t := x) (show x ∈ s.ready.queue p by simp [hq])
      subst hp
      refine ⟨.inl ⟨rest, hq⟩, htop, fun i => ?_⟩
      rw [he, hnew, update_apply]
      split_ifs with hi
      · rw [hi, hq]
        rfl
      · rfl
  obtain ⟨hfirst, htop, hnew⟩ := hpop
  refine ⟨t, ?_, hfirst, fun u hu hi hr => ?_, fun p => ?_⟩
  · simp only [schedReschedule, ht]
    split_ifs with hcur
    · exact hcur
    · rfl
  · by_contra hlt
    have := h.linked u hu hr hi
    rw [show s.schedView.ready.queue (s.schedView.priority u) = [] from
      htop _ (not_le.1 hlt)] at this
    cases this
  · simp only [schedReschedule, ht, schedView]
    by_cases hcur : s.current = some t
    · rw [if_pos hcur, hnew]
      obtain rfl := Option.some.inj (hc.symm.trans hcur)
      have hidle : c = s.idle := by
        obtain ⟨rest, hq⟩ | hi := hfirst
        · have hr := h.ready c _ (show c ∈ s.ready.queue (s.thread c).priority by simp [hq])
          rw [show s.schedView.state c = .running from hrun] at hr
          cases hr
        · exact hi.1
      simp [hidle]
    · rw [if_neg hcur]
      exact (putBack_queue (s := { s with needResched := false, ready := s.ready.popHighest.2 }) hc
        hrun p).trans (congrArg (· ++ _) (hnew p))

/-- **Yielding.** In every state that the kernel reaches, the thread that yields gives the CPU to
the first thread of the highest queue that holds any, or to the idle thread; no ready thread has a
higher priority. Unless it is the idle thread, it is the last on its own queue then; the queues are
otherwise as they were. -/
theorem yield_picks {ops : List KeOp} (hl : Run.Legal keStep KeOk schedInit ops)
    (hr : Run.run keStep schedInit ops = some s) (hc : s.current = some c)
    (hy : keStep s .yield = some s') : ∃ t, s.schedView.Picks c t s' := by
  have h := Run.run_keeps (I := ReadyInv) keStep_readyInv schedInit_readyInv hl hr
  cases hy
  have hv := suspend_view s .switched
  rw [← hv]
  exact schedReschedule_picks (hv ▸ h.core) ((congrArg SchedView.current hv).trans hc)
    ((congrFun (congrArg SchedView.state hv) c).trans (h.runs c hc))

/-- Of two threads with one priority, the first yields to the second. -/
theorem yield_picks_next : ∃ s s', Run.run keStep schedInit
    [.createThread 0 8 false, .createThread 0 8 false, .yield] = some s ∧
    keStep s .yield = some s' ∧ s.schedView.Picks 1 2 s' := by
  obtain ⟨s, hs, hc, s', hy, hn⟩ : ∃ s, Run.run keStep schedInit
      [.createThread 0 8 false, .createThread 0 8 false, .yield] = some s ∧ s.current = some 1 ∧
      ∃ s', keStep s .yield = some s' ∧ s'.current = some 2 := by decide +kernel
  obtain ⟨t, ht⟩ := yield_picks (by decide +kernel) hs hc hy
  obtain rfl := Option.some.inj (ht.current.symm.trans hn)
  exact ⟨s, s', hs, hy, ht⟩

end Kernel

end Aegis
