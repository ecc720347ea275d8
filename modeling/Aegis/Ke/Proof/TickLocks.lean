import Aegis.Ke.Proof.Mutex
import Aegis.Ke.Spin

/-!
# Ticks between `spin_lock` and `spin_unlock`

A tick takes the timer queue's lock first, then those of dispatchers and of the scheduler. It comes
through if all of them are free and above what the CPU has on its stack; and if the thread that it
interrupts has a lock, it must have no reason to switch (`Kernel.QuietTick`). None of this is seen
to: `spin_lock` leaves the interrupts on.
-/

namespace Aegis

open RankLock Function

namespace Kernel

variable {s s' : Kernel} {c c' : Cpu Lock} {t : Nat}
variable {d k now : Nat} {l : Lock} {st : StatusCode}

/-! ## Sections -/

theorem spinLock_eq_ok : spinLock c l = .ok c' ↔
    c.Admits Lock.rank lockDepthMax l ∧ c' = c.take Lock.rank l := by
  rw [← Cpu.lock_eq_ok]
  unfold spinLock
  cases c.lock Lock.rank lockDepthMax l with
  | ok c1 => simp
  | error e => cases e <;> simp [spinStop]

theorem spinPulses_ok {ls : List Lock} (hc : c.settle = c)
    (h : ∀ l ∈ ls, c.Admits Lock.rank lockDepthMax l) :
    (ls.foldlM (fun c l => do
      let c ← spinLock c l
      return spinUnlock c l) c : Outcome (Cpu Lock)) = .ok c := by
  induction ls with
  | nil => rfl
  | cons l ls ih =>
    obtain ⟨hl, hls⟩ := List.forall_mem_cons.1 h
    rw [List.foldlM_cons, spinLock_eq_ok.2 ⟨hl, rfl⟩]
    simp only [Outcome.ok_bind, Outcome.pure_eq, spinUnlock, Cpu.unlock_take hl.2, hc]
    exact ih hls

theorem spinSections_cons {x : Section Lock} {xs : List (Section Lock)}
    (h : c.AdmitsSection Lock.rank lockDepthMax x) :
    spinSections c (x :: xs) = spinSections c.settle xs := by
  rw [spinSections, spinLock_eq_ok.2 ⟨h.1, rfl⟩, Outcome.ok_bind,
    spinPulses_ok rfl fun l => h.inner, Outcome.ok_bind, spinUnlock, Cpu.unlock_take h.1.2]

theorem spinSections_ok {xs : List (Section Lock)} (hc : c.settle = c)
    (h : ∀ x ∈ xs, c.AdmitsSection Lock.rank lockDepthMax x) : spinSections c xs = .ok c := by
  induction xs with
  | nil => rfl
  | cons x xs ih =>
    obtain ⟨hx, hxs⟩ := List.forall_mem_cons.1 h
    rw [spinSections_cons hx, hc]
    exact ih hxs

/-! ## The inner locks -/

theorem schedReadyLocks_sched (hl : l ∈ s.schedReadyLocks t) : l = .sched := by
  unfold schedReadyLocks at hl
  split at hl
  · cases hl
  · exact List.mem_singleton.1 hl

theorem wakeOneLocks_sched (hl : l ∈ s.wakeOneLocks d st) : l = .sched := by
  unfold wakeOneLocks at hl
  split at hl
  · cases hl
  · simp only at hl
    generalize (ite (_ = DispType.mutant) _ _ : Kernel) = s1 at hl
    split at hl
    · exact schedReadyLocks_sched hl
    · cases hl

theorem wakeAllLocks_sched (hl : l ∈ wakeAllLocks d st k s) : l = .sched := by
  induction k generalizing s with
  | zero => cases hl
  | succ k ih =>
    rcases List.mem_append.1 hl with hl | hl
    · exact wakeOneLocks_sched hl
    · exact ih hl

theorem signalLoopLocks_sched (hl : l ∈ signalLoopLocks d k s) : l = .sched := by
  induction k generalizing s with
  | zero => cases hl
  | succ k ih =>
    unfold signalLoopLocks at hl
    split at hl
    · rcases List.mem_append.1 hl with hl | hl
      · exact wakeOneLocks_sched hl
      · exact ih hl
    · cases hl

/-- The tick takes the timer queue's lock, those of dispatchers and the scheduler's, the last one also
inside of others. -/
def TickSection (x : Section Lock) : Prop :=
  lockRankProc ≤ x.outer.rank ∧ ∀ l ∈ x.inner, x.outer.rank < l.rank

theorem single_tickSection (h : lockRankProc ≤ l.rank) : TickSection (single l) :=
  ⟨h, fun _ hl => by cases hl⟩

theorem timerq_tickSection : TickSection (single .timerq) := single_tickSection le_rfl

theorem sched_tickSection : TickSection (single .sched) :=
  single_tickSection (show lockRankProc ≤ lockRankSched by decide)

theorem disp_tickSection (d : Nat) : TickSection (single (.disp d)) :=
  single_tickSection (show lockRankProc ≤ lockRankDisp by decide)

theorem signalSection_tickSection (s : Kernel) (d : Nat) (i : Int) :
    TickSection (s.signalSection d i) := by
  have hsched : ∀ l ∈ (s.signalSection d i).inner, l = .sched := by
    intro l hl
    unfold signalSection at hl
    simp only at hl
    split at hl
    · exact wakeAllLocks_sched hl
    · exact signalLoopLocks_sched hl
  refine ⟨show lockRankProc ≤ lockRankDisp by decide, fun l hl => ?_⟩
  rw [hsched l hl]
  show lockRankDisp < lockRankSched
  decide

theorem timerFireSections_tickSection : ∀ x ∈ s.timerFireSections d, TickSection x := by
  unfold timerFireSections
  simp only [List.forall_mem_cons]
  refine ⟨signalSection_tickSection _ _ _, fun x hx => ?_⟩
  split at hx
  · rw [List.mem_singleton.1 hx]
    exact timerq_tickSection
  · cases hx

theorem timerLoopSections_tickSection : ∀ x ∈ timerLoopSections now k s, TickSection x := by
  induction k generalizing s with
  | zero =>
    unfold timerLoopSections
    split <;> simp
  | succ k ih =>
    unfold timerLoopSections
    split
    · simp
    · simp only [List.forall_mem_append, List.forall_mem_cons]
      exact ⟨timerFireSections_tickSection, timerq_tickSection, ih⟩

theorem foldSections_tickSection {α : Type} {f : Kernel → α → Kernel}
    {g : Kernel → α → List (Section Lock)} (hg : ∀ s a, ∀ x ∈ g s a, TickSection x) (as : List α) :
    ∀ x ∈ foldSections f g as s, TickSection x := by
  induction as generalizing s with
  | nil => simp [foldSections]
  | cons a as ih =>
    rw [foldSections, List.forall_mem_append]
    exact ⟨hg s a, ih⟩

theorem expireSections_tickSection : ∀ x ∈ s.expireSections t, TickSection x := by
  intro x hx
  unfold expireSections expireMultiSections expireSingleSections at hx
  split at hx
  · cases hx
  · split at hx
    · cases hx
    · split at hx
      · simp only [List.mem_append, List.mem_filterMap, Option.map_eq_some_iff,
          List.mem_singleton] at hx
        rcases hx with ⟨_, _, d, _, rfl⟩ | rfl
        · exact disp_tickSection d
        · exact sched_tickSection
      · simp only [List.mem_append, Option.mem_toList, Option.map_eq_some_iff,
          List.mem_singleton] at hx
        rcases hx with ⟨d, _, rfl⟩ | rfl
        · exact disp_tickSection d
        · exact sched_tickSection

theorem tickSections_tickSection : ∀ x ∈ s.tickSections, TickSection x := by
  have hscan : ∀ s : Kernel, ∀ x ∈ s.timeoutSections, TickSection x := fun s =>
    foldSections_tickSection (fun s p x hx => by
      split at hx
      · cases hx
      · exact foldSections_tickSection (fun _ _ => expireSections_tickSection) _ x hx) _
  unfold tickSections
  simp only [List.forall_mem_append]
  refine ⟨?_, ?_⟩
  · unfold timerTickSections
    split
    · simp
    · exact List.forall_mem_cons.2 ⟨timerq_tickSection, timerLoopSections_tickSection⟩
  · split
    · simp only [List.forall_mem_append]
      refine ⟨hscan _, ?_⟩
      split
      · simp
      · split
        · exact fun x hx => List.mem_singleton.1 hx ▸ sched_tickSection
        · simp
    · simp

/-! ## Quiet ticks -/

section
variable (h : s.QuietTick)
include h

theorem QuietTick.find_none : ({ s with ticks := u64 (s.ticks + 1) } : Kernel).timers.find? (fun d =>
    (s.timer d).armed ∧ u64 (s.ticks + 1) ≥ (s.timer d).dueTick) = none := by
  refine List.find?_eq_none.2 fun d hd => ?_
  simpa using h.timers d hd

theorem QuietTick.timerTick : timerTick { s with ticks := u64 (s.ticks + 1) } (u64 (s.ticks + 1)) =
    .ok { s with ticks := u64 (s.ticks + 1) } := by
  unfold Kernel.timerTick timerLoop
  rw [h.find_none]
  split <;> rfl

/-- The scan finds every thread as it is to stay. -/
theorem QuietTick.expire {p : Nat} (hp : p ∈ s.procs) (ht : t ∈ (s.process p).threads) :
    expire { s with ticks := u64 (s.ticks + 1) } t = { s with ticks := u64 (s.ticks + 1) } ∧
      expireSections { s with ticks := u64 (s.ticks + 1) } t = [] := by
  have hx := h.timeouts p hp t ht
  unfold Kernel.expire expireSections
  by_cases hw : (s.thread t).state ≠ .waiting ∨ (s.thread t).waitTimed = false
  · rw [if_pos hw, if_pos hw]
    exact ⟨rfl, rfl⟩
  · have hlt : u64 (s.ticks + 1) < (s.thread t).waitTimeoutTick := by
      simp only [Expires] at hx
      simp only [not_or, not_not, Bool.not_eq_false] at hw
      simpa [hw.1, hw.2] using hx
    rw [if_neg hw, if_neg hw, if_pos hlt, if_pos hlt]
    exact ⟨rfl, rfl⟩

theorem QuietTick.expireAll {p : Nat} (hp : p ∈ s.procs) :
    (s.process p).threads.foldl Kernel.expire { s with ticks := u64 (s.ticks + 1) } =
      { s with ticks := u64 (s.ticks + 1) } := by
  refine List.foldlRecOn (motive := fun x => x = { s with ticks := u64 (s.ticks + 1) }) _ _ rfl ?_
  rintro _ rfl t ht
  exact (h.expire hp ht).1

theorem QuietTick.timeoutScan : timeoutScan { s with ticks := u64 (s.ticks + 1) } =
    { s with ticks := u64 (s.ticks + 1) } := by
  refine List.foldlRecOn (motive := fun x => x = { s with ticks := u64 (s.ticks + 1) }) _ _ rfl ?_
  rintro _ rfl p hp
  split
  · rfl
  · exact h.expireAll hp

theorem QuietTick.useQuantum (ht : s.current = some t) :
    (useQuantum { s with ticks := u64 (s.ticks + 1) } t).current = s.current ∧
      (useQuantum { s with ticks := u64 (s.ticks + 1) } t).needResched = false := by
  have hq := h.quantum t ht
  unfold Kernel.useQuantum
  split
  · next hlow =>
    have hne : (s.thread t).quantumLeft ≠ 1 := hq.resolve_right (not_le.2 hlow.2)
    simp only
    rw [if_neg (by
      simp only [modThread, update_self]
      have := hlow.1
      simp only at this
      omega)]
    exact ⟨rfl, h.resched⟩
  · exact ⟨rfl, h.resched⟩

/-- **A quiet tick** returns to the thread that it interrupted. -/
theorem keOnTick_quiet : ∃ s', s.keOnTick = .ok s' ∧ s'.current = s.current := by
  unfold keOnTick
  simp only [h.timerTick, Outcome.ok_bind, h.timeoutScan]
  split
  · exact ⟨_, rfl, rfl⟩
  · next t ht =>
    obtain ⟨hc, hn⟩ := h.useQuantum ht
    refine ⟨_, rfl, ?_⟩
    rw [if_neg (by simp [hn])]
    exact hc

omit h in
theorem foldSections_nil {α : Type} {f : Kernel → α → Kernel} {g : Kernel → α → List (Section Lock)}
    {as : List α} (hfg : ∀ a ∈ as, f s a = s ∧ g s a = []) : foldSections f g as s = [] := by
  induction as with
  | nil => rfl
  | cons a as ih =>
    obtain ⟨⟨hf, hg⟩, has⟩ := List.forall_mem_cons.1 hfg
    rw [foldSections, hf, hg, List.nil_append]
    exact ih has

/-- It takes the lock of the timer queue only. -/
theorem QuietTick.sections (hup : s.timerUp = true) : s.tickSections = [single .timerq] := by
  have hscan : timeoutSections { s with ticks := u64 (s.ticks + 1) } = [] := by
    refine foldSections_nil fun p hp => ?_
    split
    · exact ⟨rfl, rfl⟩
    · exact ⟨h.expireAll hp, foldSections_nil fun t ht => h.expire hp ht⟩
  unfold tickSections timerTickSections timerLoopSections
  simp only [h.timerTick, h.timeoutScan, hscan, h.find_none, List.nil_append]
  rw [if_neg (by simp [hup])]
  split
  · rfl
  · next t ht => simp [(h.useQuantum ht).2]

end

/-! ## Timers that are due -/

/-- No timer that is due is due again at once. -/
def TimersEnd (s : Kernel) (now : Nat) : Prop :=
  ∀ d ∈ s.timers, (s.timer d).armed = true → (s.timer d).dueTick ≤ now →
    (s.timer d).period ≠ 0 → now < u64 (now + (s.timer d).period)
  deriving Decidable

def dueTimers (s : Kernel) (now : Nat) : List Nat :=
  s.timers.filter fun d => (s.timer d).armed ∧ now ≥ (s.timer d).dueTick

theorem dueTimers_fire (h : s.TimersEnd now) (hd : d ∈ s.dueTimers now) :
    (s.timerFire now d).TimersEnd now ∧
      (s.timerFire now d).dueTimers now = (s.dueTimers now).filter (· ≠ d) := by
  obtain ⟨hl, ht⟩ := timerFire_timers s now d
  obtain ⟨hmem, hdue⟩ := List.mem_filter.1 hd
  have hdue : (s.timer d).armed = true ∧ (s.timer d).dueTick ≤ now := of_decide_eq_true hdue
  have hnot : (s.timer d).period ≠ 0 → now < u64 (now + (s.timer d).period) :=
    h d hmem hdue.1 hdue.2
  refine ⟨fun e he => ?_, ?_⟩
  · by_cases hed : e = d
    · subst hed
      rw [ht, update_self]
      split
      · next hp => exact fun _ hlt => absurd (hnot hp) (not_lt.2 hlt)
      · intro hf
        cases hf
    · rw [ht, update_of_ne hed]
      refine h e ?_
      rw [hl, List.mem_append] at he
      rcases he with he | he
      · exact List.mem_of_mem_filter he
      · split at he
        · exact absurd (List.mem_singleton.1 he) hed
        · cases he
  · unfold dueTimers
    rw [hl, ht, List.filter_append]
    have htail : (if (s.timer d).period ≠ 0 then [d] else []).filter (fun e =>
        decide ((update s.timer d (if (s.timer d).period ≠ 0 then
          ⟨true, u64 (now + (s.timer d).period), (s.timer d).period⟩
        else { s.timer d with armed := false }) e).armed = true ∧
          now ≥ (update s.timer d (if (s.timer d).period ≠ 0 then
          ⟨true, u64 (now + (s.timer d).period), (s.timer d).period⟩
        else { s.timer d with armed := false }) e).dueTick)) = [] := by
      split
      · next hp => simpa using hnot hp
      · rfl
    rw [htail, List.append_nil, List.filter_filter, List.filter_filter]
    refine List.filter_congr fun e _ => ?_
    by_cases hed : e = d
    · simp [hed]
    · simp [hed]

theorem find_due (s : Kernel) (now : Nat) :
    (s.timers.find? fun d => (s.timer d).armed ∧ now ≥ (s.timer d).dueTick) =
      (s.dueTimers now).head? := by
  rw [dueTimers, List.head?_filter]

/-- Each round takes one timer off those that are due. -/
theorem timerLoop_ends (h : s.TimersEnd now) (hk : (s.dueTimers now).length ≤ k) :
    ∃ l : List Nat, timerLoop now k s = .ok (l.foldl (fun s d => s.timerFire now d) s) ∧ l.Nodup ∧
      ∀ d, d ∈ l ↔ d ∈ s.dueTimers now := by
  induction k generalizing s with
  | zero =>
    have hnil := List.length_eq_zero_iff.1 (Nat.le_zero.1 hk)
    unfold timerLoop
    rw [find_due, hnil]
    exact ⟨[], rfl, List.nodup_nil, fun _ => Iff.rfl⟩
  | succ k ih =>
    unfold timerLoop
    rw [find_due]
    cases hd : s.dueTimers now with
    | nil => exact ⟨[], rfl, List.nodup_nil, fun _ => Iff.rfl⟩
    | cons d ds =>
      obtain ⟨h', hdue⟩ := dueTimers_fire h (hd ▸ List.mem_cons_self)
      rw [hd, List.filter_cons_of_neg (by simp)] at hdue
      have hlen := List.length_filter_le (· ≠ d) ds
      rw [hd, List.length_cons] at hk
      obtain ⟨l, hl, hnd, hmem⟩ := ih h' (by rw [hdue]; omega)
      rw [hdue] at hmem
      refine ⟨d :: l, hl, List.nodup_cons.2 ⟨fun hin => ?_, hnd⟩, fun e => ?_⟩
      · simpa using (hmem d).1 hin
      · by_cases hed : e = d
        · simp [hed]
        · simp [hed, hmem e]

/-- A timer that is due again at once is due in every round. -/
theorem timerLoop_never (hd : d ∈ s.timers) (ha : (s.timer d).armed = true)
    (hdue : (s.timer d).dueTick ≤ now) (hp : (s.timer d).period ≠ 0)
    (hw : u64 (now + (s.timer d).period) ≤ now) : timerLoop now k s = .diverge := by
  have hmem : d ∈ s.dueTimers now := List.mem_filter.2 ⟨hd, decide_eq_true ⟨ha, hdue⟩⟩
  induction k generalizing s with
  | zero =>
    unfold timerLoop
    rw [find_due]
    cases hl : s.dueTimers now with
    | nil => simp [hl] at hmem
    | cons e es => rfl
  | succ k ih =>
    unfold timerLoop
    rw [find_due]
    cases hl : s.dueTimers now with
    | nil => simp [hl] at hmem
    | cons e es =>
      obtain ⟨htl, ht⟩ := timerFire_timers s now e
      simp only [List.head?_cons]
      by_cases hed : d = e
      · subst hed
        have hd' : d ∈ (s.timerFire now d).timers := by simp [htl, hp]
        have ht' : (s.timerFire now d).timer d =
            ⟨true, u64 (now + (s.timer d).period), (s.timer d).period⟩ := by simp [ht, hp]
        refine ih hd' (by rw [ht']) (by rw [ht']; exact hw) (by rw [ht']; exact hp)
          (by rw [ht']; exact hw) ?_
        exact List.mem_filter.2 ⟨hd', by rw [ht']; exact decide_eq_true ⟨rfl, hw⟩⟩
      · have hd' : d ∈ (s.timerFire now e).timers := by simp [htl, hd, hed]
        have ht' : (s.timerFire now e).timer d = s.timer d := by rw [ht, update_of_ne hed]
        refine ih hd' (by rw [ht']; exact ha) (by rw [ht']; exact hdue) (by rw [ht']; exact hp)
          (by rw [ht']; exact hw) ?_
        exact List.mem_filter.2 ⟨hd', by rw [ht']; exact decide_eq_true ⟨ha, hdue⟩⟩

theorem timerTick_ends_iff (hup : s.timerUp = true) :
    (∃ s', s.timerTick now = .ok s') ↔ s.TimersEnd now := by
  unfold timerTick
  rw [if_neg (by simp [hup])]
  refine ⟨fun ⟨s', hr⟩ d hd ha hdue hp => ?_, fun h => ?_⟩
  · by_contra hw
    rw [timerLoop_never hd ha hdue hp (not_lt.1 hw)] at hr
    cases hr
  · obtain ⟨l, hl, -⟩ := timerLoop_ends h (List.length_filter_le ..)
    exact ⟨_, hl⟩

/-- `timer_tick(now)` returns, and has signaled each timer that was due once. -/
def SignalsOnce (s : Kernel) (now : Nat) : Prop :=
  ∃ l : List Nat, s.timerTick now = .ok (l.foldl (fun s d => s.timerFire now d) s) ∧ l.Nodup ∧
    ∀ d, d ∈ l ↔ s.timerUp = true ∧ d ∈ s.dueTimers now

/-- **`timer_tick` terminates** exactly if no periodic timer that is due wraps around to a due time
that has passed. Otherwise it does not return after any number of rounds. -/
theorem timerTick_once_iff (s : Kernel) (now : Nat) :
    (s.SignalsOnce now ↔ (s.timerUp = true → s.TimersEnd now)) ∧
    (s.timerUp = true → ¬ s.TimersEnd now → ∀ k, timerLoop now k s = .diverge) := by
  refine ⟨⟨fun ⟨l, hr, _⟩ hup => (timerTick_ends_iff hup).1 ⟨_, hr⟩, fun h => ?_⟩, fun _ h k => ?_⟩
  · cases hup : s.timerUp with
    | false => exact ⟨[], by simp [timerTick, hup], List.nodup_nil, by simp [hup]⟩
    | true =>
      obtain ⟨l, hl, hnd, hmem⟩ := timerLoop_ends (h hup) (List.length_filter_le ..)
      refine ⟨l, ?_, hnd, fun d => by rw [hmem, and_iff_right hup]⟩
      rw [timerTick, if_neg (by simp [hup]), hl]
  · simp only [TimersEnd, not_forall, not_lt] at h
    obtain ⟨d, hd, ha, hdue, hp, hw⟩ := h
    exact timerLoop_never hd ha hdue hp hw

/-- A timer with the period 2⁶⁴ - 1 keeps the tick of its first expiry busy for ever. -/
theorem timerTick_never_ends : ∃ s, Run.run keStep .schedInit
    [.createTimer true, .setTimer 2 1 (2 ^ 64 - 1)] = some s ∧ s.dueTimers 1 = [2] ∧
    ¬ s.SignalsOnce 1 ∧ ∀ k, timerLoop 1 k s = .diverge := by
  obtain ⟨s, hs, hup, hdue, ha, hle, hp, hw⟩ : ∃ s, Run.run keStep .schedInit
      [.createTimer true, .setTimer 2 1 (2 ^ 64 - 1)] = some s ∧ s.timerUp = true ∧
      s.dueTimers 1 = [2] ∧ (s.timer 2).armed = true ∧ (s.timer 2).dueTick ≤ 1 ∧
      (s.timer 2).period ≠ 0 ∧ u64 (1 + (s.timer 2).period) ≤ 1 := by decide +kernel
  have hmem : 2 ∈ s.timers := List.mem_of_mem_filter (hdue ▸ List.mem_cons_self)
  have hloop : ∀ k, timerLoop 1 k s = .diverge := fun k => timerLoop_never hmem ha hle hp hw
  refine ⟨s, hs, hdue, fun ⟨l, hr, _⟩ => ?_, hloop⟩
  rw [timerTick, if_neg (by simp [hup]), hloop] at hr
  cases hr

theorem keOnTick_ends_iff (hup : s.timerUp = true) :
    (∃ s', s.keOnTick = .ok s') ↔ s.TimersEnd (u64 (s.ticks + 1)) := by
  rw [← show (∃ s', _) ↔ s.TimersEnd (u64 (s.ticks + 1)) from
    timerTick_ends_iff (s := { s with ticks := u64 (s.ticks + 1) }) hup]
  unfold keOnTick
  simp only
  cases timerTick { s with ticks := u64 (s.ticks + 1) } (u64 (s.ticks + 1)) with
  | ok s1 =>
    simp only [Outcome.ok_bind]
    refine ⟨fun _ => ⟨s1, rfl⟩, fun _ => ?_⟩
    split <;> exact ⟨_, rfl⟩
  | panic m => simp
  | diverge => simp
  | fault => simp

end Kernel

/-! ## Safe ticks -/

/-- The tick finishes, and no other thread runs then while the one that it has interrupted has a
lock. -/
def TickSafe (s : Kernel) (c : Cpu Lock) : Prop :=
  ∃ s' c', s.keOnTickLocked c = .ok (s', c') ∧
    (s'.current ≠ s.current → ∀ l, c.taken l = false)

/-- No lock is taken, and what is still on the stack is below the tick's locks. -/
structure CpuClear (c : Cpu Lock) : Prop where
  free : ∀ l, c.taken l = false
  low : c.stack ≠ [] → c.heldRank < lockRankProc ∧ c.stack.headD 0 < lockRankProc ∧
    c.stack.length + 1 < lockDepthMax

/-- What is needed of the kernel and of the CPU when the tick comes: the CPU has no lock, or the tick
has nothing to do but to look at the timer queue, which it can lock. -/
def TickOk (s : Kernel) (c : Cpu Lock) : Prop :=
  CpuClear c ∧ s.TimersEnd (u64 (s.ticks + 1)) ∨
    c.Admits Lock.rank lockDepthMax .timerq ∧ s.QuietTick

theorem CpuClear.admits {c : Cpu Lock} (h : CpuClear c) {x : Section Lock}
    (hx : Kernel.TickSection x) : c.settle.AdmitsSection Lock.rank lockDepthMax x := by
  refine ⟨⟨fun hne => ?_, h.free _⟩, fun l hl => ⟨hx.2 l hl, ?_, h.free l⟩⟩
  · obtain ⟨-, htop, hlen⟩ := h.low hne
    exact ⟨htop.trans_le hx.1, Nat.lt_of_succ_lt hlen⟩
  · show c.stack.length + 1 < lockDepthMax
    by_cases hne : c.stack = []
    · rw [hne]
      decide
    · exact (h.low hne).2.2

/-- **Ticks.** A tick is safe outside of critical sections, if no timer keeps it busy, and inside of
one if it has nothing to do and may look at the timer queue. For ticks that have nothing to do, and
for those that find no lock taken and the stack empty, this is exact. -/
theorem tick_safe {s : Kernel} (hup : s.timerUp = true) (c : Cpu Lock) :
    (TickOk s c → TickSafe s c) ∧
      (s.QuietTick ∨ (∀ l, c.taken l = false) ∧ c.stack = [] → TickSafe s c → TickOk s c) := by
  have hhead : s.tickSections = Kernel.single .timerq :: s.tickSections.tail := by
    simp [Kernel.tickSections, Kernel.timerTickSections, hup]
  -- the first lock is compared with `held_rank`, which may be behind the stack
  have hgo : c.Admits Lock.rank lockDepthMax .timerq →
      (∀ x ∈ s.tickSections.tail, c.settle.AdmitsSection Lock.rank lockDepthMax x) →
      Kernel.spinSections c s.tickSections = .ok c.settle := by
    intro hq ho
    rw [hhead, Kernel.spinSections_cons ⟨hq, fun _ hl => by cases hl⟩]
    exact Kernel.spinSections_ok rfl ho
  constructor
  · rintro (⟨hc, ht⟩ | ⟨hq, hquiet⟩)
    · obtain ⟨s', hs'⟩ := (Kernel.keOnTick_ends_iff hup).2 ht
      refine ⟨s', c.settle, ?_, fun _ => hc.free⟩
      unfold Kernel.keOnTickLocked
      rw [hgo ⟨fun hne => ⟨(hc.low hne).1, Nat.lt_of_succ_lt (hc.low hne).2.2⟩, hc.free _⟩
        fun x hx => hc.admits (Kernel.tickSections_tickSection x (List.mem_of_mem_tail hx)), hs']
      rfl
    · obtain ⟨s', hs', hcur⟩ := Kernel.keOnTick_quiet hquiet
      refine ⟨s', c.settle, ?_, fun hne => absurd hcur hne⟩
      unfold Kernel.keOnTickLocked
      rw [hgo hq (by rw [hquiet.sections hup]; nofun), hs']
      rfl
  · rintro hcase ⟨s', c', hr, -⟩
    unfold Kernel.keOnTickLocked at hr
    obtain ⟨c1, h1, hr⟩ := Outcome.bind_eq_ok.1 hr
    obtain ⟨s1, h2, -⟩ := Outcome.bind_eq_ok.1 hr
    rw [hhead, Kernel.spinSections] at h1
    obtain ⟨c2, hq, -⟩ := Outcome.bind_eq_ok.1 h1
    rcases hcase with hquiet | ⟨hfree, hstack⟩
    · exact .inr ⟨(Kernel.spinLock_eq_ok.1 hq).1, hquiet⟩
    · exact .inl ⟨⟨hfree, fun hne => absurd hstack hne⟩, (Kernel.keOnTick_ends_iff hup).1 ⟨_, h2⟩⟩

/-- Two threads of one priority; the first one has used its quantum up to the last tick. -/
def lastTick : List KeOp :=
  [.createThread 0 priorityNormal false, .createThread 0 priorityNormal false, .yield, .resume,
    .tick, .tick]

/-- The CPU behind the `spin_lock` of `l`. -/
def oneLock (l : Lock) : Cpu Lock := Cpu.idle.take Lock.rank l

/-- The tick that ends a quantum outside of critical sections, and the one before it in a section of
the heap. -/
theorem tick_safe_quantum : ∃ s₀ s, Run.run keStep .schedInit lastTick.dropLast = some s₀ ∧
    Run.run keStep .schedInit lastTick = some s ∧ TickSafe s₀ (oneLock .heap) ∧
    TickSafe s Cpu.idle := by
  obtain ⟨s₀, hs₀, hup₀, hq, hquiet⟩ : ∃ s, Run.run keStep .schedInit lastTick.dropLast = some s ∧
    s.timerUp = true ∧ (oneLock .heap).Admits Lock.rank lockDepthMax .timerq ∧ s.QuietTick := by
    decide +kernel
  obtain ⟨s, hs, hup, ht⟩ : ∃ s, Run.run keStep .schedInit lastTick = some s ∧
    s.timerUp = true ∧ s.TimersEnd (u64 (s.ticks + 1)) := by decide +kernel
  refine ⟨s₀, s, hs₀, hs, (tick_safe hup₀ _).1 (.inr ⟨hq, hquiet⟩), (tick_safe hup _).1 (.inl ?_)⟩
  exact ⟨⟨fun _ => rfl, fun hne => absurd rfl hne⟩, ht⟩

/-- The same tick inside of `spin_lock` and `spin_unlock`: the other thread runs while the heap's lock
is taken, it panics in a section of a dispatcher, and it spins on the scheduler's lock that is taken
but not yet on the stack. -/
theorem tick_not_masked : ∃ s x y z, Run.run keStep .schedInit lastTick = some s ∧
    Run.run spinStep ⟨.idle, .out⟩ [.lock .heap, .next, .next, .next] = some x ∧
    Run.run spinStep ⟨.idle, .out⟩ [.lock (.disp 0), .next, .next, .next] = some y ∧
    Run.run spinStep ⟨.idle, .out⟩ [.lock .sched, .next] = some z ∧
    (x.pc = .out ∧ x.cpu.taken .heap = true ∧ s.current = some 1 ∧
      ∃ s' c', s.keOnTickLocked x.cpu = .ok (s', c') ∧ s'.current = some 2) ∧ (y.pc = .out ∧
      s.keOnTickLocked y.cpu = .panic "lock rank 8 (timerq) while holding 9 depth 1") ∧
    (z.cpu.taken .sched = true ∧ s.keOnTickLocked z.cpu = .diverge) := by
  obtain ⟨s, hs, hcur, ⟨⟨s', c'⟩, hr, hs'⟩, hy, hz⟩ : ∃ s,
      Run.run keStep .schedInit lastTick = some s ∧ s.current = some 1 ∧
      (∃ r, s.keOnTickLocked (oneLock .heap) = .ok r ∧ r.1.current = some 2) ∧
      (s.keOnTickLocked (oneLock (.disp 0)) matches
        .panic "lock rank 8 (timerq) while holding 9 depth 1") ∧
      (s.keOnTickLocked (Cpu.idle.mark .sched) matches .diverge) := by decide +kernel
  refine ⟨s, ⟨oneLock .heap, .out⟩, ⟨oneLock (.disp 0), .out⟩,
    ⟨Cpu.idle.mark .sched, .marked .sched⟩, hs, rfl, rfl, rfl,
    ⟨rfl, rfl, hcur, s', c', hr, hs'⟩, ⟨rfl, ?_⟩, rfl, ?_⟩
  · split at hy
    · assumption
    · cases hy
  · split at hz
    · assumption
    · cases hz

end Aegis
