import Aegis.Ke.Proof.TickLocks
import Aegis.Ke.TimerSpec

/-!
# The timer queue

`TimerInv s arm`: exactly the armed timers are on `g_timers`, once each, and an armed timer is due
in the next tick in which its arming in `arm` fires. A round of `timer_tick` at the tick `now` takes
one timer that is due and keeps `LoopInv`, which differs in what has fired in this tick already;
when no timer is due any more, the invariant holds for the new tick (`clock_spec`).
-/

namespace Aegis

open Function

namespace Arming

variable {a : Arming} {n m : Nat}

theorem Fires.first_le (h : a.Fires n) : a.first ≤ n := by
  rcases h with rfl | ⟨-, h, -⟩
  · exact Nat.le_refl _
  · exact Nat.le_of_lt h

theorem fires_first (a : Arming) : a.Fires a.first := .inl rfl

theorem Fires.once (h : a.Fires n) (hp : a.period = 0) (hm : n < m) : ¬ a.Fires m := by
  rintro (rfl | ⟨h', -⟩)
  · exact absurd h.first_le (Nat.not_le.2 hm)
  · exact h' hp

theorem Fires.again (h : a.Fires n) (hp : a.period ≠ 0) : a.Fires (n + a.period) := by
  have hle := h.first_le
  refine .inr ⟨hp, by omega, ?_⟩
  rw [Nat.sub_add_comm hle]
  refine Nat.dvd_add ?_ (Nat.dvd_refl _)
  rcases h with rfl | ⟨-, -, h⟩
  · simp
  · exact h

theorem Fires.not_between (h : a.Fires n) (hn : n < m) (hm : m < n + a.period) : ¬ a.Fires m := by
  intro h'
  have hdvd : ∀ k, a.Fires k → a.period ∣ k - a.first := by
    rintro k (rfl | ⟨-, -, h⟩)
    · simp
    · exact h
  have hle := h.first_le
  have hsub := Nat.dvd_sub (hdvd m h') (hdvd n h)
  rw [show m - a.first - (n - a.first) = m - n by omega] at hsub
  have := Nat.le_of_dvd (by omega) hsub
  omega

end Arming

namespace Kernel

variable {s s' : Kernel} {arm : Nat → Option Arming}

/-- Exactly the armed timers are linked, once each. -/
structure Linked (s : Kernel) : Prop where
  nodup : s.timers.Nodup
  mem : ∀ d, d ∈ s.timers ↔ (s.timer d).armed = true
  up : s.timers ≠ [] → s.timerUp = true

/-- The queue of timers against their armings. -/
structure TimerInv (s : Kernel) (arm : Nat → Option Arming) : Prop extends Linked s where
  /-- An armed timer is due in the next tick in which it fires. -/
  armed : ∀ d, (s.timer d).armed = true → ∃ a, arm d = some a ∧ (s.timer d).period = a.period ∧
    a.Fires (s.timer d).dueTick ∧ s.ticks < (s.timer d).dueTick ∧
    ∀ n, s.ticks < n → n < (s.timer d).dueTick → ¬ a.Fires n
  /-- Otherwise it has fired for the last time. -/
  done : ∀ d a, (s.timer d).armed = false → arm d = some a → ∀ n, s.ticks < n → ¬ a.Fires n

/-- In the tick `now`, some of the timers that fire in it have done so. -/
structure LoopInv (now : Nat) (s : Kernel) (arm : Nat → Option Arming) : Prop extends Linked s where
  armed : ∀ d, (s.timer d).armed = true → ∃ a, arm d = some a ∧ (s.timer d).period = a.period ∧
    a.Fires (s.timer d).dueTick ∧ now ≤ (s.timer d).dueTick ∧
    ∀ n, now < n → n < (s.timer d).dueTick → ¬ a.Fires n
  done : ∀ d a, (s.timer d).armed = false → arm d = some a → ∀ n, now < n → ¬ a.Fires n

theorem Linked.count (h : Linked s) (d : Nat) :
    s.timers.count d = if (s.timer d).armed then 1 else 0 := by
  by_cases ha : (s.timer d).armed = true
  · rw [if_pos ha]
    exact List.count_eq_one_of_mem h.nodup ((h.mem d).2 ha)
  · rw [if_neg ha]
    exact List.count_eq_zero.2 fun hm => ha ((h.mem d).1 hm)

/-! ## A tick -/

theorem timerFire_clock (s : Kernel) (now d : Nat) :
    (s.timerFire now d).timerUp = s.timerUp ∧ (s.timerFire now d).ticks = s.ticks := by
  have he := dispSignal_rest ((s.unlinkTimer d).modTimer d fun x => { x with armed := false }) d 1
  have hup := congrArg RestView.timerUp he
  have hticks := congrArg RestView.ticks he
  unfold timerFire
  simp only
  split <;> exact ⟨hup, hticks⟩

theorem timerFire_linked (h : Linked s) {d : Nat} (hd : d ∈ s.timers) (now : Nat) :
    Linked (s.timerFire now d) := by
  obtain ⟨hl, ht⟩ := timerFire_timers s now d
  refine ⟨?_, fun e => ?_, fun _ => ?_⟩
  · rw [hl]
    refine List.Nodup.append (h.nodup.filter _) ?_ ?_
    · split
      · exact List.nodup_singleton d
      · exact List.nodup_nil
    · intro e he he'
      split at he'
      · rw [List.mem_singleton.1 he'] at he
        simp at he
      · cases he'
  · rw [hl, ht, List.mem_append, List.mem_filter]
    by_cases hed : e = d
    · subst hed
      by_cases hp : (s.timer e).period = 0
      · simp [hp]
      · simp [hp]
    · rw [update_of_ne hed, ← h.mem e]
      by_cases hp : (s.timer d).period = 0
      · simp [hp, hed]
      · simp [hp, hed]
  · rw [(timerFire_clock s now d).1]
    exact h.up (List.ne_nil_of_mem hd)

theorem timerFire_loopInv {now d : Nat} (h : LoopInv now s arm) (hd : d ∈ s.timers)
    (hdue : (s.timer d).dueTick ≤ now) (hno : now + (s.timer d).period < 2 ^ 64) :
    LoopInv now (s.timerFire now d) arm := by
  obtain ⟨a, ha, hper, hfires, hle, -⟩ := h.armed d ((h.mem d).1 hd)
  have hnow : (s.timer d).dueTick = now := Nat.le_antisymm hdue hle
  rw [hnow] at hfires
  have ht := (timerFire_timers s now d).2
  refine ⟨timerFire_linked h.toLinked hd now, fun e he => ?_, fun e b he hb n hn => ?_⟩
  · by_cases hed : e = d
    · subst hed
      rw [ht, update_self] at he ⊢
      by_cases hp : (s.timer e).period = 0
      · simp [hp] at he
      · rw [if_pos hp, u64_of_lt hno, hper]
        rw [hper] at hp
        exact ⟨a, ha, rfl, hfires.again hp, Nat.le_add_right _ _, fun n h1 h2 =>
          hfires.not_between h1 h2⟩
    · rw [ht, update_of_ne hed] at he ⊢
      exact h.armed e he
  · by_cases hed : e = d
    · subst hed
      rw [ht, update_self] at he
      rw [ha] at hb
      cases hb
      by_cases hp : (s.timer e).period = 0
      · exact hfires.once (by rw [← hper]; exact hp) hn
      · simp [hp] at he
    · rw [ht, update_of_ne hed] at he
      exact h.done e b he hb n hn

theorem timerLoop_spec {now k : Nat} (h : LoopInv now s arm) (hk : (s.dueTimers now).length ≤ k)
    (hno : ∀ d ∈ s.dueTimers now, now + (s.timer d).period < 2 ^ 64) :
    ∃ s', timerLoop now k s = .ok s' ∧ s' = (s.dueTimers now).foldl (fun s d => s.timerFire now d) s ∧
      LoopInv now s' arm ∧ s'.dueTimers now = [] ∧ s'.ticks = s.ticks := by
  induction k generalizing s with
  | zero =>
    have hnil := List.length_eq_zero_iff.1 (Nat.le_zero.1 hk)
    unfold timerLoop
    rw [find_due, hnil]
    exact ⟨s, rfl, rfl, h, hnil, rfl⟩
  | succ k ih =>
    unfold timerLoop
    rw [find_due]
    cases hl : s.dueTimers now with
    | nil => exact ⟨s, rfl, rfl, h, hl, rfl⟩
    | cons d l =>
      have hd : d ∈ s.dueTimers now := hl ▸ List.mem_cons_self
      obtain ⟨hmem, hdue⟩ := List.mem_filter.1 hd
      have hdue := (of_decide_eq_true hdue).2
      have hlin := timerFire_loopInv h hmem hdue (hno d hd)
      have hend : s.TimersEnd now := fun e he harm hde _ => by
        have := hno e (List.mem_filter.2 ⟨he, decide_eq_true ⟨harm, hde⟩⟩)
        rw [u64_of_lt this]
        omega
      -- the others that are due stay due, and in their order
      have hnd : (s.dueTimers now).Nodup := h.nodup.filter _
      have hrest : (s.timerFire now d).dueTimers now = l := by
        rw [(dueTimers_fire hend hd).2, hl, List.filter_cons_of_neg (by simp)]
        refine List.filter_eq_self.2 fun e he => ?_
        rw [hl] at hnd
        simp only [ne_eq, decide_eq_true_eq]
        rintro rfl
        exact (List.nodup_cons.1 hnd).1 he
      have ht := (timerFire_timers s now d).2
      obtain ⟨s', hr, hfold, hinv, hnone, htick⟩ := ih hlin
        (by rw [hrest]; rw [hl, List.length_cons] at hk; omega) (fun e he => by
          rw [hrest] at he
          rw [ht, update_of_ne (fun hed => by
            rw [hl, hed.symm] at hnd
            exact (List.nodup_cons.1 hnd).1 he)]
          exact hno e (hl ▸ List.mem_cons_of_mem _ he))
      refine ⟨s', hr, ?_, hinv, hnone, htick.trans (timerFire_clock s now d).2⟩
      rw [hfold, hrest]
      rfl

theorem TimerInv.due_iff (h : TimerInv s arm) (d : Nat) :
    d ∈ s.dueTimers (s.ticks + 1) ↔ ∃ a, arm d = some a ∧ a.Fires (s.ticks + 1) := by
  unfold dueTimers
  rw [List.mem_filter, h.mem]
  simp only [ge_iff_le, Bool.decide_and, Bool.decide_eq_true, Bool.and_eq_true, decide_eq_true_eq]
  constructor
  · rintro ⟨ha, -, hdue⟩
    obtain ⟨a, harm, -, hf, hlt, -⟩ := h.armed d ha
    rw [show (s.timer d).dueTick = s.ticks + 1 by omega] at hf
    exact ⟨a, harm, hf⟩
  · rintro ⟨a, harm, hf⟩
    cases ha : (s.timer d).armed with
    | false => exact absurd hf (h.done d a ha harm _ (Nat.lt_succ_self _))
    | true =>
      obtain ⟨b, hb, -, -, -, hno⟩ := h.armed d ha
      rw [harm] at hb
      cases hb
      refine ⟨rfl, rfl, ?_⟩
      by_contra hlt
      exact hno _ (Nat.lt_succ_self _) (by omega) hf

/-- A tick signals the timers that fire in it, once each. -/
theorem clock_spec (h : TimerInv s arm) (hno : NoOverflow s .tick) :
    ∃ s', s.clock = .ok s' ∧ s'.ticks = s.ticks + 1 ∧ TimerInv s' arm ∧
      s' = (s.dueTimers (s.ticks + 1)).foldl (fun s d => s.timerFire (s'.ticks) d) s.nextTick := by
  obtain ⟨hlt, hper⟩ := hno
  have hu : s.nextTick.ticks = s.ticks + 1 := u64_of_lt hlt
  have hloop : LoopInv (s.ticks + 1) s.nextTick arm := by
    refine ⟨⟨h.nodup, h.mem, h.up⟩, fun d ha => ?_, fun d a ha harm n hn => ?_⟩
    · obtain ⟨a, h1, h2, h3, h4, h5⟩ := h.armed d ha
      exact ⟨a, h1, h2, h3, h4, fun n hn => h5 n (by omega)⟩
    · exact h.done d a ha harm n (by omega)
  unfold clock timerTick
  by_cases hup : s.nextTick.timerUp = false
  · rw [if_pos hup]
    have hnil : s.timers = [] := by
      by_contra hne
      have := h.up hne
      rw [show s.timerUp = false from hup] at this
      cases this
    have hoff : ∀ d, ¬ (s.timer d).armed = true := fun d ha => by
      have := (h.mem d).2 ha
      rw [hnil] at this
      cases this
    refine ⟨s.nextTick, rfl, hu, ⟨hloop.toLinked, fun d ha => absurd ha (hoff d),
      fun d a ha harm n hn => hloop.done d a ha harm n (by omega)⟩, ?_⟩
    rw [dueTimers, hnil]
    rfl
  · rw [if_neg hup, hu]
    have hnext : s.nextTick.dueTimers (s.ticks + 1) = s.dueTimers (s.ticks + 1) := rfl
    obtain ⟨s', hr, hfold, hinv, hnone, htick⟩ := timerLoop_spec (k := s.nextTick.timers.length)
      hloop (List.length_filter_le ..) (fun d hd => by
        obtain ⟨hm, hdue⟩ := List.mem_filter.1 hd
        exact hper d hm (of_decide_eq_true hdue).2)
    refine ⟨s', hr, htick.trans hu, ⟨hinv.toLinked, fun d ha => ?_, fun d a ha harm n hn => ?_⟩, ?_⟩
    · obtain ⟨a, h1, h2, h3, h4, h5⟩ := hinv.armed d ha
      rw [htick, hu]
      refine ⟨a, h1, h2, h3, ?_, h5⟩
      by_contra hge
      have : d ∈ s'.dueTimers (s.ticks + 1) :=
        List.mem_filter.2 ⟨(hinv.mem d).2 ha, decide_eq_true ⟨ha, by omega⟩⟩
      rw [hnone] at this
      cases this
    · rw [htick, hu] at hn
      exact hinv.done d a ha harm n hn
    · rw [htick, hu]
      exact hfold

/-! ## Arming and cancelling -/

theorem disarm_end (s : Kernel) (d : Nat) :
    (s.disarm d).timers = (if (s.timer d).armed then s.timers.filter (· ≠ d) else s.timers) ∧
      (s.disarm d).timer = update s.timer d { s.timer d with armed := false } := by
  unfold disarm
  by_cases ha : (s.timer d).armed = true
  · rw [if_pos ha, if_pos ha]
    exact ⟨rfl, rfl⟩
  · rw [if_neg ha, if_neg ha]
    refine ⟨rfl, ?_⟩
    have ha : (s.timer d).armed = false := by simpa using ha
    funext e
    by_cases hed : e = d
    · subst hed
      rw [update_self, ← ha]
    · rw [update_of_ne hed]

theorem disarm_clock (s : Kernel) (d : Nat) :
    (s.disarm d).timerUp = s.timerUp ∧ (s.disarm d).ticks = s.ticks := by
  unfold disarm
  split <;> exact ⟨rfl, rfl⟩

theorem Linked.disarm (h : Linked s) (d : Nat) :
    Linked (s.disarm d) ∧ d ∉ (s.disarm d).timers ∧
      ∀ e, e ≠ d → (e ∈ (s.disarm d).timers ↔ e ∈ s.timers) := by
  obtain ⟨hl, ht⟩ := disarm_end s d
  have hmem : ∀ e, e ∈ (s.disarm d).timers ↔ e ∈ s.timers ∧ e ≠ d := by
    intro e
    rw [hl]
    by_cases ha : (s.timer d).armed = true
    · rw [if_pos ha, List.mem_filter]
      simp
    · rw [if_neg ha]
      refine ⟨fun he => ⟨he, ?_⟩, And.left⟩
      rintro rfl
      exact ha ((h.mem e).1 he)
  refine ⟨⟨?_, fun e => ?_, fun hne => ?_⟩, fun hd => ((hmem d).1 hd).2 rfl, fun e he => ?_⟩
  · rw [hl]
    split
    · exact h.nodup.filter _
    · exact h.nodup
  · rw [hmem, h.mem, ht]
    by_cases hed : e = d
    · subst hed
      simp
    · rw [update_of_ne hed]
      simp [hed]
  · rw [(disarm_clock s d).1]
    refine h.up fun hnil => hne (List.eq_nil_iff_forall_not_mem.2 fun e he => ?_)
    have := ((hmem e).1 he).1
    rw [hnil] at this
    cases this
  · rw [hmem]
    exact and_iff_left he

theorem keSetTimer_end (h : Linked s) (d due period : Nat) :
    (s.keSetTimer d due period).timers = (s.disarm d).timers ++ [d] ∧
      (s.keSetTimer d due period).timer = update s.timer d
        ⟨true, u64 (s.ticks + if due ≠ 0 then due else 1), period⟩ ∧
      (s.keSetTimer d due period).timerUp = true ∧
      (s.keSetTimer d due period).ticks = s.ticks := by
  obtain ⟨s1, hs1⟩ : ∃ s1, (if s.timerUp then s else { s with timers := [], timerUp := true }) = s1 :=
    ⟨_, rfl⟩
  have hup : s1.timers = s.timers ∧ s1.timer = s.timer ∧ s1.timerUp = true ∧ s1.ticks = s.ticks := by
    rw [← hs1]
    split
    · next hu => exact ⟨rfl, rfl, hu, rfl⟩
    · next hu =>
      refine ⟨?_, rfl, rfl, rfl⟩
      by_contra hne
      exact hu (h.up (Ne.symm hne))
  obtain ⟨h1, h2, h3, h4⟩ := hup
  obtain ⟨hl, ht⟩ := disarm_end s1 d
  obtain ⟨hu, hk⟩ := disarm_clock s1 d
  unfold keSetTimer
  simp only [hs1]
  refine ⟨?_, ?_, hu.trans h3, hk.trans h4⟩
  · show (s1.disarm d).timers ++ [d] = _
    rw [hl, h1, h2, (disarm_end s d).1]
  · show update (s1.disarm d).timer d _ = _
    rw [ht, hk, h2, h4, update_idem]

theorem keSetTimer_timerInv (h : TimerInv s arm) {due : Nat} (hno : s.ticks + max due 1 < 2 ^ 64)
    (d period : Nat) :
    TimerInv (s.keSetTimer d due period) (update arm d (some ⟨s.ticks, due, period⟩)) := by
  obtain ⟨hl, ht, hu, hk⟩ := keSetTimer_end h.toLinked d due period
  obtain ⟨hdis, hout, hother⟩ := h.toLinked.disarm d
  have hfirst : u64 (s.ticks + if due ≠ 0 then due else 1) =
      (⟨s.ticks, due, period⟩ : Arming).first := by
    have hmax : (if due ≠ 0 then due else 1) = max due 1 := by
      split <;> omega
    rw [hmax, u64_of_lt hno]
    rfl
  rw [hfirst] at ht
  refine ⟨⟨?_, fun e => ?_, fun _ => hu⟩, fun e he => ?_, fun e a he ha n hn => ?_⟩
  · rw [hl]
    exact List.Nodup.append hdis.nodup (List.nodup_singleton d) fun e he he' =>
      hout (List.mem_singleton.1 he' ▸ he)
  · rw [hl, ht, List.mem_append, List.mem_singleton]
    by_cases hed : e = d
    · simp [hed]
    · rw [update_of_ne hed, hother e hed, h.mem]
      simp [hed]
  · rw [hk]
    rw [ht] at he ⊢
    by_cases hed : e = d
    · subst hed
      simp only [update_self]
      refine ⟨_, rfl, rfl, Arming.fires_first _, ?_, fun n h1 h2 hf => ?_⟩
      · show s.ticks < s.ticks + max due 1
        omega
      · exact absurd hf.first_le (Nat.not_le.2 h2)
    · rw [update_of_ne hed] at he ⊢
      rw [update_of_ne hed]
      exact h.armed e he
  · rw [hk] at hn
    rw [ht] at he
    by_cases hed : e = d
    · subst hed
      simp at he
    · rw [update_of_ne hed] at he ha
      exact h.done e a he ha n hn

theorem keCancelTimer_timerInv (h : TimerInv s arm) (d : Nat) :
    TimerInv (s.keCancelTimer d) (update arm d none) := by
  have ht : (s.keCancelTimer d).timer = update s.timer d { s.timer d with armed := false } :=
    (disarm_end s d).2
  have hk : (s.keCancelTimer d).ticks = s.ticks := (disarm_clock s d).2
  refine ⟨?_, fun e he => ?_, fun e a he ha n hn => ?_⟩
  · obtain ⟨hdis, -, -⟩ := h.toLinked.disarm d
    exact ⟨hdis.nodup, hdis.mem, hdis.up⟩
  · rw [hk]
    rw [ht] at he ⊢
    by_cases hed : e = d
    · subst hed
      simp at he
    · rw [update_of_ne hed] at he ⊢
      rw [update_of_ne hed]
      exact h.armed e he
  · rw [hk] at hn
    rw [ht] at he
    by_cases hed : e = d
    · subst hed
      simp at ha
    · rw [update_of_ne hed] at he ha
      exact h.done e a he ha n hn

/-! ## Runs -/

theorem NoneArmed.timerInv (h : s.NoneArmed) : TimerInv s fun _ => none where
  nodup := by rw [h.1]; exact List.nodup_nil
  mem d := by rw [h.1, h.2 d]; simp
  up hne := absurd h.1 hne
  armed d ha := by rw [h.2 d] at ha; cases ha
  done _ _ _ ha := by cases ha

theorem schedInit_noneArmed : schedInit.NoneArmed := ⟨rfl, fun _ => rfl⟩

theorem NoneArmed.obCreateTimer (h : s.NoneArmed) (autoReset : Bool) :
    (s.obCreateTimer autoReset).NoneArmed := by
  refine ⟨h.1, fun d => ?_⟩
  show (update s.timer s.ndisp ⟨false, 0, 0⟩ d).armed = false
  by_cases hd : d = s.ndisp
  · rw [hd, update_self]
  · rw [update_of_ne hd]
    exact h.2 d

/-- The armings after one operation. -/
def armStep (now : Nat) (arm : Nat → Option Arming) : TimerOp → Nat → Option Arming
  | .set d due period => update arm d (some ⟨now, due, period⟩)
  | .cancel d => update arm d none
  | .tick => arm

theorem timerStep_timerInv (h : TimerInv s arm) {op : TimerOp} (hno : NoOverflow s op) :
    ∃ s', timerStep s op = some s' ∧ TimerInv s' (armStep s.ticks arm op) ∧
      s'.ticks = if op = .tick then s.ticks + 1 else s.ticks := by
  cases op with
  | set d due period =>
    refine ⟨_, rfl, keSetTimer_timerInv h hno d period, ?_⟩
    rw [if_neg (by simp)]
    exact (keSetTimer_end h.toLinked d due period).2.2.2
  | cancel d =>
    refine ⟨_, rfl, keCancelTimer_timerInv h d, ?_⟩
    rw [if_neg (by simp)]
    exact (disarm_clock s d).2
  | tick =>
    obtain ⟨s', hr, htick, hinv, -⟩ := clock_spec h hno
    exact ⟨s', by rw [timerStep, hr]; rfl, hinv, by rw [if_pos rfl]; exact htick⟩

theorem armingFrom_cons (d now : Nat) (arm : Nat → Option Arming) (op : TimerOp)
    (ops : List TimerOp) : armingFrom d now (arm d) (op :: ops) =
      armingFrom d (if op = .tick then now + 1 else now) (armStep now arm op d) ops := by
  cases op with
  | set d' due period =>
    simp only [armingFrom, armStep, reduceCtorEq, if_false]
    by_cases hd : d' = d
    · subst hd
      simp
    · rw [if_neg hd, update_of_ne (Ne.symm hd)]
  | cancel d' =>
    simp only [armingFrom, armStep, reduceCtorEq, if_false]
    by_cases hd : d' = d
    · subst hd
      simp
    · rw [if_neg hd, update_of_ne (Ne.symm hd)]
  | tick => rfl

theorem run_timerInv {ops : List TimerOp} (h : TimerInv s arm)
    (hl : Run.Legal timerStep NoOverflow s ops) :
    ∃ s', Run.run timerStep s ops = some s' ∧
      TimerInv s' (fun d => armingFrom d s.ticks (arm d) ops) ∧
      s'.ticks = s.ticks + ops.count .tick := by
  induction ops generalizing s arm with
  | nil => exact ⟨s, rfl, h, rfl⟩
  | cons op ops ih =>
    obtain ⟨s1, h1, hinv, htick⟩ := timerStep_timerInv h hl.1
    obtain ⟨s', hr, hinv', htick'⟩ := ih hinv (hl.2 s1 h1)
    refine ⟨s', by rw [Run.run_cons h1, hr], ?_, ?_⟩
    · rw [htick] at hinv'
      simpa only [armingFrom_cons] using hinv'
    · rw [htick', htick, List.count_cons]
      by_cases hop : op = .tick
      · simp [hop]
        omega
      · simp [hop]

/-- An armed timer is one whose arming still has a tick to come. -/
theorem TimerInv.armed_iff (h : TimerInv s arm) (d : Nat) :
    (s.timer d).armed = true ↔ ∃ a, arm d = some a ∧ ∃ n, s.ticks < n ∧ a.Fires n := by
  constructor
  · intro ha
    obtain ⟨a, harm, -, hf, hlt, -⟩ := h.armed d ha
    exact ⟨a, harm, _, hlt, hf⟩
  · rintro ⟨a, harm, n, hn, hf⟩
    by_contra ha
    exact h.done d a (by simpa using ha) harm n hn hf

theorem other_timer (h : Linked s) {d e : Nat} (hne : e ≠ d) (due period : Nat) :
    (s.keSetTimer d due period).timer e = s.timer e ∧ (s.keCancelTimer d).timer e = s.timer e ∧
      (e ∈ (s.keSetTimer d due period).timers ↔ e ∈ s.timers) ∧
      (e ∈ (s.keCancelTimer d).timers ↔ e ∈ s.timers) := by
  obtain ⟨hl, ht, -, -⟩ := keSetTimer_end h d due period
  obtain ⟨-, -, hother⟩ := h.disarm d
  refine ⟨by rw [ht, update_of_ne hne], ?_, ?_, hother e hne⟩
  · show (s.disarm d).timer e = _
    rw [(disarm_end s d).2, update_of_ne hne]
  · rw [hl, List.mem_append, List.mem_singleton, hother e hne]
    exact or_iff_left hne

end Kernel

open Kernel

/-- **The timer queue.** Exactly the armed timers are linked, once each; a tick signals exactly the
timers whose arming fires in it, once each; and no timer is touched by what is done to another. -/
theorem timer_queue_correct {s₀ : Kernel} (h0 : s₀.NoneArmed) {ops : List TimerOp}
    (hl : Run.Legal timerStep NoOverflow s₀ ops) :
    ∃ s, Run.run timerStep s₀ ops = some s ∧ s.ticks = s₀.ticks + ops.count .tick ∧
      (∀ d, s.timers.count d = if (s.timer d).armed then 1 else 0) ∧
      (∀ d, (s.timer d).armed = true ↔
        ∃ a, arming s₀.ticks ops d = some a ∧ ∃ n, s.ticks < n ∧ a.Fires n) ∧
      (NoOverflow s .tick → ∃ fired : List Nat, fired.Nodup ∧
        s.clock = .ok (fired.foldl (fun s' d => s'.timerFire (s.ticks + 1) d) s.nextTick) ∧
        ∀ d, d ∈ fired ↔ ∃ a, arming s₀.ticks ops d = some a ∧ a.Fires (s.ticks + 1)) ∧
      ∀ d e due period, e ≠ d →
        (s.keSetTimer d due period).timer e = s.timer e ∧ (s.keCancelTimer d).timer e = s.timer e ∧
        (e ∈ (s.keSetTimer d due period).timers ↔ e ∈ s.timers) ∧
        (e ∈ (s.keCancelTimer d).timers ↔ e ∈ s.timers) := by
  obtain ⟨s, hr, hinv, htick⟩ := run_timerInv h0.timerInv hl
  refine ⟨s, hr, htick, hinv.toLinked.count, hinv.armed_iff, fun hno => ?_,
    fun d e due period hne => other_timer hinv.toLinked hne due period⟩
  obtain ⟨s', hs', htick', -, hfold⟩ := clock_spec hinv hno
  refine ⟨s.dueTimers (s.ticks + 1), hinv.nodup.filter _, ?_, hinv.due_iff⟩
  rw [htick'] at hfold
  rw [hs']
  exact congrArg Outcome.ok hfold

/-- Two timers, one of them periodic. -/
theorem timer_queue_correct_two : ∃ s,
    Run.run timerStep ((schedInit.obCreateTimer false).obCreateTimer true)
      [.set 2 2 3, .set 3 1 0, .tick, .tick] = some s ∧
    s.timers.count 2 = (if (s.timer 2).armed then 1 else 0) ∧
    ((s.timer 3).armed = true ↔ ∃ a,
      arming 0 [.set 2 2 3, .set 3 1 0, .tick, .tick] 3 = some a ∧ ∃ n, s.ticks < n ∧ a.Fires n) := by
  obtain ⟨s, hr, -, hc, ha, -⟩ := timer_queue_correct
    ((schedInit_noneArmed.obCreateTimer false).obCreateTimer true)
    (show Run.Legal timerStep NoOverflow _ [.set 2 2 3, .set 3 1 0, .tick, .tick] by decide +kernel)
  exact ⟨s, hr, hc 2, ha 3⟩

end Aegis
