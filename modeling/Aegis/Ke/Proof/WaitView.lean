import Aegis.Ke.Proof.ReadyRun

/-!
# Wait blocks and mutex owners

`WaitView` is the part of the kernel that waits and mutexes are about. `WaitInv` says who the blocks
on the wait lists belong to (`Holds`), and that every mutex is free or owned (`MutexOk`).

Two exceptions are parameters of the invariant, for the states inside a call: the mutex `x` is on
its way from one owner to the next, and the thread `y` is in the middle of linking or unlinking its
blocks.
-/

namespace Aegis

open Function

/-- What waits depend on, of a thread. -/
structure ThreadWaits where
  state : ThreadState
  cont : Cont
  multiCount : Nat
  object : Option Nat
  multi : Nat → Option Nat
  owned : List Nat
  disp : Nat
  process : Nat

def Thread.waits (th : Thread) : ThreadWaits :=
  ⟨th.state, th.cont, th.waitMultiCount, th.wait.object, fun i => (th.waitMulti i).object,
    th.ownedMutexes, th.disp, th.process⟩

/-- What waits depend on. -/
structure WaitView where
  nthread : Nat
  ndisp : Nat
  nprocess : Nat
  disp : Nat → Disp
  thread : Nat → ThreadWaits
  /-- The dispatchers that the end of a process signals. -/
  process : Nat → Nat × List Nat
  timers : List Nat

def Kernel.waitView (s : Kernel) : WaitView :=
  ⟨s.nthread, s.ndisp, s.nprocess, s.disp, fun t => (s.thread t).waits,
    fun p => ((s.process p).disp, (s.process p).closes), s.timers⟩

/-- What the owner of a linked block is like. -/
def ThreadWaits.Holds (w : ThreadWaits) : BlockId → Prop
  | .single => w.state = .waiting ∧ w.cont = .waitObject ∧ w.multiCount = 0 ∧ w.object ≠ none
  | .multi i => w.state ≠ .terminated ∧ w.state ≠ .unused ∧ i < w.multiCount ∧ w.multi i ≠ none ∧
      ∃ objs waitAll, w.cont = .waitMultiple objs waitAll ∧ i < objs.length

namespace WaitView

/-- A mutex is free, or has one owner. -/
def MutexOk (v : WaitView) (m : Nat) : Prop :=
  ((v.disp m).owner = none ∧ (v.disp m).recursion = 0 ∧ (v.disp m).signalState = 1 ∧
    ∀ t, m ∉ (v.thread t).owned) ∨
  ∃ t, (v.disp m).owner = some t ∧ t < v.nthread ∧ (v.thread t).state ≠ .terminated ∧
    1 ≤ (v.disp m).recursion ∧ (v.disp m).signalState = 0 ∧ (v.thread t).owned.count m = 1 ∧
    ∀ u ≠ t, m ∉ (v.thread u).owned

/-- A dispatcher that is signaled. -/
def Signals (v : WaitView) (d : Nat) : Prop := d < v.ndisp ∧ (v.disp d).type ≠ .mutant

def setDisp (v : WaitView) (d : Nat) (D : Disp) : WaitView :=
  { v with disp := update v.disp d D }

def setThread (v : WaitView) (t : Nat) (w : ThreadWaits) : WaitView :=
  { v with thread := update v.thread t w }

/-- `m` is on no list of owned mutexes. -/
def disown (v : WaitView) (m : Nat) : WaitView :=
  { v with thread := fun t => { v.thread t with owned := (v.thread t).owned.filter (· ≠ m) } }

/-- No block of `t` is on a wait list. -/
def NoBlocks (v : WaitView) (t : Nat) : Prop := ∀ d, ∀ b ∈ (v.disp d).waitList, b.1 ≠ t

/-- A wait is for objects that exist. -/
def Names (v : WaitView) (k : Cont) : Prop :=
  ∀ objs waitAll, k = .waitMultiple objs waitAll → ∀ d ∈ objs, d < v.ndisp

end WaitView

/-- Who waits for what and who owns which mutex. In the middle of a function the mutex `openMutex`
may be half handed over and the thread `leaving` half out of its wait. -/
structure WaitInv (openMutex leaving : Option Nat) (v : WaitView) : Prop where
  holds : ∀ d, ∀ b ∈ (v.disp d).waitList, some b.1 ≠ leaving → (v.thread b.1).Holds b.2
  count : ∀ t, some t ≠ leaving → (∀ objs waitAll, (v.thread t).cont ≠ .waitMultiple objs waitAll) →
    (v.thread t).multiCount = 0
  mutex : ∀ m < v.ndisp, (v.disp m).type = .mutant → some m ≠ openMutex → v.MutexOk m
  owned : ∀ t, ∀ m ∈ (v.thread t).owned,
    m < v.ndisp ∧ (v.disp m).type = .mutant ∧ some m ≠ openMutex
  fresh : ∀ t, v.nthread ≤ t → (v.thread t).state = .unused
  threadDisp : ∀ t < v.nthread, v.Signals (v.thread t).disp ∧ (v.thread t).process < v.nprocess
  processDisp : ∀ p < v.nprocess, v.Signals (v.process p).1 ∧ ∀ d ∈ (v.process p).2, v.Signals d
  timers : ∀ d ∈ v.timers, v.Signals d
  names : ∀ t, v.Names (v.thread t).cont

namespace WaitInv

variable {x y : Option Nat} {v : WaitView}
variable {d m t : Nat} {D : Disp} {w : ThreadWaits}

section
variable (h : WaitInv x y v)
include h

theorem owner_of_mem (hm : m ∈ (v.thread t).owned) :
    (v.disp m).owner = some t ∧ t < v.nthread ∧ (v.thread t).state ≠ .terminated := by
  obtain ⟨hlt, hty, hx⟩ := h.owned t m hm
  rcases h.mutex m hlt hty hx with ⟨-, -, -, hno⟩ | ⟨u, ho, hu, hst, -, -, -, hno⟩
  · exact absurd hm (hno t)
  · by_cases hut : u = t
    · subst hut
      exact ⟨ho, hu, hst⟩
    · exact absurd hm (hno t (Ne.symm hut))

/-! ## Blocks -/

theorem shrink {l : Nat → List (Nat × BlockId)} (hl : ∀ d, ∀ b ∈ l d, b ∈ (v.disp d).waitList) :
    WaitInv x y { v with disp := fun d => { v.disp d with waitList := l d } } :=
  ⟨fun d b hb => h.holds d b (hl d b hb), h.count, h.mutex, h.owned, h.fresh, h.threadDisp,
    h.processDisp, h.timers, h.names⟩

theorem setDisp (hty : D.type = (v.disp d).type)
    (hl : ∀ b ∈ D.waitList, some b.1 ≠ y → (v.thread b.1).Holds b.2)
    (hm : D.type = .mutant → some d ≠ x → (v.setDisp d D).MutexOk d) :
    WaitInv x y (v.setDisp d D) := by
  have htype : ∀ e, ((v.setDisp d D).disp e).type = (v.disp e).type := by
    intro e
    by_cases he : e = d
    · subst he
      simp [WaitView.setDisp, hty]
    · simp [WaitView.setDisp, he]
  have hsig : ∀ e, v.Signals e → (v.setDisp d D).Signals e := fun e he =>
    ⟨he.1, by rw [htype]; exact he.2⟩
  refine ⟨fun e b hb => ?_, h.count, fun m hm' hty' hx => ?_, fun t m hm' => ?_, h.fresh,
    fun t ht => ⟨hsig _ (h.threadDisp t ht).1, (h.threadDisp t ht).2⟩,
    fun p hp => ⟨hsig _ (h.processDisp p hp).1, fun e he => hsig e ((h.processDisp p hp).2 e he)⟩,
    fun e he => hsig e (h.timers e he), h.names⟩
  · by_cases he : e = d
    · subst he
      exact hl b (by simpa [WaitView.setDisp] using hb)
    · exact h.holds e b (by simpa [WaitView.setDisp, he] using hb)
  · rw [htype] at hty'
    by_cases hmd : m = d
    · subst hmd
      exact hm (hty.trans hty') hx
    · simpa [WaitView.MutexOk, WaitView.setDisp, hmd] using h.mutex m hm' hty' hx
  · rw [htype]
    exact h.owned t m hm'

theorem setDisp_same (hty : D.type = (v.disp d).type)
    (hl : ∀ b ∈ D.waitList, some b.1 ≠ y → (v.thread b.1).Holds b.2) (hd : d < v.ndisp)
    (hm : D.type = .mutant → D.owner = (v.disp d).owner ∧
      D.recursion = (v.disp d).recursion ∧ D.signalState = (v.disp d).signalState) :
    WaitInv x y (v.setDisp d D) := by
  refine h.setDisp hty hl fun ht hx => ?_
  obtain ⟨h1, h2, h3⟩ := hm ht
  have := h.mutex d hd (hty ▸ ht) hx
  simpa [WaitView.MutexOk, WaitView.setDisp, h1, h2, h3] using this

/-! ## Threads -/

theorem setThread (hb : ∀ d b, (t, b) ∈ (v.disp d).waitList → some t ≠ y → w.Holds b)
    (hc : some t ≠ y → (∀ objs waitAll, w.cont ≠ .waitMultiple objs waitAll) → w.multiCount = 0)
    (ho : w.owned = (v.thread t).owned)
    (hd : t < v.nthread → w.disp = (v.thread t).disp ∧ w.process = (v.thread t).process)
    (hterm : w.state = .terminated → (v.thread t).owned = [])
    (hfresh : v.nthread ≤ t → w.state = .unused) (hk : v.Names w.cont) :
    WaitInv x y (v.setThread t w) := by
  have howned : ∀ u, ((v.setThread t w).thread u).owned = (v.thread u).owned := by
    intro u
    by_cases hu : u = t
    · subst hu
      simpa [WaitView.setThread] using ho
    · simp [WaitView.setThread, hu]
  refine ⟨fun d b hm hy => ?_, fun u hy hu => ?_, fun m hm hty hx => ?_, fun u m hm => ?_,
    fun u hu => ?_, fun u hu => ?_, h.processDisp, h.timers, fun u => ?_⟩
  · by_cases hbt : b.1 = t
    · subst hbt
      simpa [WaitView.setThread] using hb d b.2 hm hy
    · simpa [WaitView.setThread, hbt] using h.holds d b hm hy
  · by_cases hut : u = t
    · subst hut
      simp only [WaitView.setThread, update_self] at hu ⊢
      exact hc hy hu
    · simp only [WaitView.setThread, update_of_ne hut] at hu ⊢
      exact h.count u hy hu
  · unfold WaitView.MutexOk
    simp only [howned]
    rcases h.mutex m hm hty hx with hfree | ⟨u, h1, h2, h3, h4, h5, h6, h7⟩
    · exact .inl hfree
    · refine .inr ⟨u, h1, h2, ?_, h4, h5, h6, h7⟩
      by_cases hut : u = t
      · subst hut
        simp only [WaitView.setThread, update_self]
        intro hw
        rw [hterm hw] at h6
        simp at h6
      · simpa [WaitView.setThread, hut] using h3
  · rw [howned] at hm
    exact h.owned u m hm
  · by_cases hut : u = t
    · subst hut
      simpa [WaitView.setThread] using hfresh hu
    · simpa [WaitView.setThread, hut] using h.fresh u hu
  · by_cases hut : u = t
    · subst hut
      simp only [WaitView.setThread, update_self, (hd hu).1, (hd hu).2]
      exact h.threadDisp u hu
    · rw [show (v.setThread t w).thread u = v.thread u from update_of_ne hut ..]
      exact h.threadDisp u hu
  · by_cases hut : u = t
    · subst hut
      rw [show (v.setThread u w).thread u = w from update_self ..]
      exact hk
    · rw [show (v.setThread t w).thread u = v.thread u from update_of_ne hut ..]
      exact h.names u

/-! ## Mutexes that change hands -/

theorem disown (hx : x = none ∨ x = some m) : WaitInv (some m) y (v.disown m) := by
  have hne : ∀ {m'}, some m' ≠ some m → m' ≠ m := fun hm he => hm (congrArg some he)
  have hmem : ∀ {u m'}, m' ≠ m → (m' ∈ (v.thread u).owned.filter (· ≠ m) ↔ m' ∈ (v.thread u).owned) :=
    fun hm => by simp [hm]
  refine ⟨fun d b hb hy => ?_, h.count, fun m' hm hty hxm => ?_, fun t m' hm => ?_, h.fresh,
    h.threadDisp, h.processDisp, h.timers, h.names⟩
  · have := h.holds d b hb hy
    cases hb2 : b.2 <;> rw [hb2] at this <;> exact this
  · have hmm := hne hxm
    have hxm' : some m' ≠ x := by
      rcases hx with rfl | rfl
      · simp
      · exact hxm
    rcases h.mutex m' hm hty hxm' with ⟨h1, h2, h3, h4⟩ | ⟨u, h1, h2, h3, h4, h5, h6, h7⟩
    · exact .inl ⟨h1, h2, h3, fun t hmem' => h4 t ((hmem hmm).1 hmem')⟩
    · refine .inr ⟨u, h1, h2, h3, h4, h5, ?_, fun t ht hmem' => h7 t ht ((hmem hmm).1 hmem')⟩
      show ((v.thread u).owned.filter (· ≠ m)).count m' = 1
      rw [List.count_filter (by simpa using hmm)]
      exact h6
  · have hmm : m' ∈ (v.thread t).owned ∧ m' ≠ m := by simpa [WaitView.disown] using hm
    obtain ⟨h1, h2, -⟩ := h.owned t m' hmm.1
    exact ⟨h1, h2, fun he => hmm.2 (Option.some.inj he)⟩

end

theorem free (h : WaitInv (some m) y v) (ho : (v.disp m).owner = none)
    (hr : (v.disp m).recursion = 0) (hs : (v.disp m).signalState = 1) : WaitInv none y v := by
  refine ⟨h.holds, h.count, fun m' hm hty _ => ?_, fun t m' hm => ?_, h.fresh, h.threadDisp,
    h.processDisp, h.timers, h.names⟩
  · by_cases hmm : m' = m
    · subst hmm
      exact .inl ⟨ho, hr, hs, fun t hmem => (h.owned t m' hmem).2.2 rfl⟩
    · exact h.mutex m' hm hty fun he => hmm (Option.some.inj he)
  · exact ⟨(h.owned t m' hm).1, (h.owned t m' hm).2.1, by simp⟩

theorem own (h : WaitInv (some m) y v) (hm : m < v.ndisp) (hty : (v.disp m).type = .mutant)
    (ho : (v.disp m).owner = some t) (hr : 1 ≤ (v.disp m).recursion)
    (hs : (v.disp m).signalState = 0) (ht : t < v.nthread)
    (hst : (v.thread t).state ≠ .terminated) :
    WaitInv none y (v.setThread t { v.thread t with owned := (v.thread t).owned ++ [m] }) := by
  have hno : ∀ u, m ∉ (v.thread u).owned := fun u hmem => (h.owned u m hmem).2.2 rfl
  have hthread : ∀ u, u ≠ t → (v.setThread t { v.thread t with
      owned := (v.thread t).owned ++ [m] }).thread u = v.thread u := fun u hu => by
    simp [WaitView.setThread, hu]
  have hself : (v.setThread t { v.thread t with
      owned := (v.thread t).owned ++ [m] }).thread t =
        { v.thread t with owned := (v.thread t).owned ++ [m] } := by
    simp [WaitView.setThread]
  refine ⟨fun d b hb hy => ?_, fun u hy hu => ?_, fun m' hm' hty' _ => ?_, fun u m' hmem => ?_,
    fun u hu => ?_, fun u hu => ?_, h.processDisp, h.timers, fun u => ?_⟩
  · have := h.holds d b hb hy
    by_cases hbt : b.1 = t
    · rw [hbt, hself]
      rw [hbt] at this
      cases hb2 : b.2 <;> rw [hb2] at this <;> exact this
    · rw [hthread _ hbt]
      exact this
  · by_cases hut : u = t
    · subst hut
      rw [hself] at hu ⊢
      exact h.count u hy hu
    · rw [hthread u hut] at hu ⊢
      exact h.count u hy hu
  · by_cases hmm : m' = m
    · subst hmm
      refine .inr ⟨t, ho, ht, by rw [hself]; exact hst, hr, hs, ?_, fun u hu => ?_⟩
      · rw [hself]
        simp [List.count_eq_zero_of_not_mem (hno t)]
      · rw [hthread u hu]
        exact hno u
    · have hin : ∀ u, m' ∈ ((v.setThread t { v.thread t with
          owned := (v.thread t).owned ++ [m] }).thread u).owned ↔ m' ∈ (v.thread u).owned := by
        intro u
        by_cases hut : u = t
        · subst hut
          rw [hself]
          simp [hmm]
        · rw [hthread u hut]
      rcases h.mutex m' hm' hty' (fun he => hmm (Option.some.inj he)) with
        ⟨h1, h2, h3, h4⟩ | ⟨u, h1, h2, h3, h4, h5, h6, h7⟩
      · exact .inl ⟨h1, h2, h3, fun u hu => h4 u ((hin u).1 hu)⟩
      · refine .inr ⟨u, h1, h2, ?_, h4, h5, ?_, fun u' hu' hmem => h7 u' hu' ((hin u').1 hmem)⟩
        · by_cases hut : u = t
          · subst hut
            rw [hself]
            exact hst
          · rw [hthread u hut]
            exact h3
        · by_cases hut : u = t
          · subst hut
            rw [hself]
            simpa [List.count_append, List.count_singleton, Ne.symm hmm] using h6
          · rw [hthread u hut]
            exact h6
  · by_cases hut : u = t
    · subst hut
      rw [hself] at hmem
      simp only [List.mem_append, List.mem_singleton] at hmem
      rcases hmem with hmem | rfl
      · exact ⟨(h.owned u m' hmem).1, (h.owned u m' hmem).2.1, by simp⟩
      · exact ⟨hm, hty, by simp⟩
    · rw [hthread u hut] at hmem
      exact ⟨(h.owned u m' hmem).1, (h.owned u m' hmem).2.1, by simp⟩
  · by_cases hut : u = t
    · subst hut
      exact absurd ht (Nat.not_lt.2 hu)
    · rw [hthread u hut]
      exact h.fresh u hu
  · by_cases hut : u = t
    · subst hut
      rw [hself]
      exact h.threadDisp u hu
    · rw [hthread u hut]
      exact h.threadDisp u hu
  · by_cases hut : u = t
    · subst hut
      rw [hself]
      exact h.names u
    · rw [hthread u hut]
      exact h.names u

/-! ## Threads in the middle of a call -/

/-- Of the blocks of `t` nothing need be known. -/
theorem exempt (h : WaitInv x none v) (t : Nat) : WaitInv x (some t) v :=
  ⟨fun d b hb _ => h.holds d b hb (by simp), fun u _ => h.count u (by simp), h.mutex, h.owned,
    h.fresh, h.threadDisp, h.processDisp, h.timers, h.names⟩

theorem settle (h : WaitInv x (some t) v)
    (hb : ∀ d b, (t, b) ∈ (v.disp d).waitList → (v.thread t).Holds b)
    (hc : (∀ objs waitAll, (v.thread t).cont ≠ .waitMultiple objs waitAll) →
      (v.thread t).multiCount = 0) : WaitInv x none v := by
  refine ⟨fun d b hm _ => ?_, fun u _ hu => ?_, h.mutex, h.owned, h.fresh, h.threadDisp,
    h.processDisp, h.timers, h.names⟩
  · by_cases hbt : b.1 = t
    · subst hbt
      exact hb d b.2 hm
    · exact h.holds d b hm fun he => hbt (Option.some.inj he)
  · by_cases hut : u = t
    · subst hut
      exact hc hu
    · exact h.count u (fun he => hut (Option.some.inj he)) hu

/-! ## New objects -/

theorem setTimers (h : WaitInv x y v) {l : List Nat} (hl : ∀ d ∈ l, v.Signals d) :
    WaitInv x y { v with timers := l } :=
  ⟨h.holds, h.count, h.mutex, h.owned, h.fresh, h.threadDisp, h.processDisp, hl, h.names⟩

theorem setProcess (h : WaitInv x y v) {n p : Nat} {q : Nat × List Nat} (hle : v.nprocess ≤ n)
    (hn : ∀ u < n, u = p ∨ u < v.nprocess) (hq : v.Signals q.1) (hl : ∀ d ∈ q.2, v.Signals d) :
    WaitInv x y { v with nprocess := n, process := update v.process p q } := by
  refine ⟨h.holds, h.count, h.mutex, h.owned, h.fresh,
    fun t ht => ⟨(h.threadDisp t ht).1, (h.threadDisp t ht).2.trans_le hle⟩, fun u hu => ?_,
    h.timers, h.names⟩
  by_cases hup : u = p
  · subst hup
    simp only [update_self]
    exact ⟨hq, hl⟩
  · simp only [update_of_ne hup]
    exact h.processDisp u ((hn u hu).resolve_left hup)

theorem newDisp (h : WaitInv none y v) (hl : D.waitList = []) :
    WaitInv (if D.type = .mutant then some v.ndisp else none) y
      { v with ndisp := v.ndisp + 1, disp := update v.disp v.ndisp D } := by
  have hsig : ∀ d, v.Signals d → WaitView.Signals
      { v with ndisp := v.ndisp + 1, disp := update v.disp v.ndisp D } d := fun d hd => by
    refine ⟨Nat.lt_succ_of_lt hd.1, ?_⟩
    simp only [update_of_ne hd.1.ne]
    exact hd.2
  refine ⟨fun d b hb => ?_, h.count, fun m hm hty hx => ?_, fun t m hm => ?_, h.fresh,
    fun t ht => ⟨hsig _ (h.threadDisp t ht).1, (h.threadDisp t ht).2⟩,
    fun p hp => ⟨hsig _ (h.processDisp p hp).1, fun d hd => hsig d ((h.processDisp p hp).2 d hd)⟩,
    fun d hd => hsig d (h.timers d hd),
    fun t objs waitAll hk d hd => Nat.lt_succ_of_lt (h.names t objs waitAll hk d hd)⟩
  · by_cases hd : d = v.ndisp
    · subst hd
      simp [hl] at hb
    · exact h.holds d b (by simpa [hd] using hb)
  · by_cases hmn : m = v.ndisp
    · subst hmn
      simp only [update_self] at hty
      rw [if_pos hty] at hx
      exact absurd rfl hx
    · have hlt : m < v.ndisp := by
        simp only at hm
        omega
      simp only [update_of_ne hmn] at hty
      simpa [WaitView.MutexOk, hmn] using h.mutex m hlt hty (by simp)
  · obtain ⟨hlt, hty, -⟩ := h.owned t m hm
    refine ⟨Nat.lt_succ_of_lt hlt, ?_, ?_⟩
    · simpa [update_of_ne hlt.ne] using hty
    · split
      · exact fun he => hlt.ne (Option.some.inj he)
      · simp

theorem newThread (h : WaitInv x y v) (hst : w.state = .unused) (hc : w.multiCount = 0)
    (ho : w.owned = []) (hd : v.Signals w.disp) (hp : w.process < v.nprocess)
    (hy : some v.nthread ≠ y) (hk : v.Names w.cont) :
    WaitInv x y { v with nthread := v.nthread + 1, thread := update v.thread v.nthread w } :=
    by
  have hold : (v.thread v.nthread).owned = [] := by
    by_contra hne
    obtain ⟨m, hm⟩ := List.exists_mem_of_ne_nil _ hne
    exact absurd (h.owner_of_mem hm).2.1 (lt_irrefl _)
  have h₁ := h.setThread (t := v.nthread) (w := w)
    (fun d b hb _ => by
      have hh := h.holds d _ hb hy
      have hu := h.fresh v.nthread le_rfl
      cases b with
      | single =>
        rw [hh.1] at hu
        cases hu
      | multi i => exact absurd hu hh.2.1)
    (fun _ _ => hc) (ho.trans hold.symm) (fun hlt => absurd hlt (lt_irrefl _))
    (fun hs => by rw [hst] at hs; cases hs) (fun _ => hst) hk
  refine ⟨h₁.holds, h₁.count, fun m hm hty hx => ?_, h₁.owned, fun t ht => h₁.fresh t ?_,
    fun t ht => ?_, h₁.processDisp, h₁.timers, h₁.names⟩
  · rcases h₁.mutex m hm hty hx with hfree | ⟨t, h1, h2, h3⟩
    · exact .inl hfree
    · exact .inr ⟨t, h1, Nat.lt_succ_of_lt h2, h3⟩
  · exact Nat.le_of_succ_le ht
  · by_cases htn : t = v.nthread
    · subst htn
      simp only [update_self]
      exact ⟨hd, hp⟩
    · refine h₁.threadDisp t ?_
      simp only [WaitView.setThread] at ht ⊢
      omega

theorem enter (h : WaitInv none y v) (hno : ∀ t, m ∉ (v.thread t).owned) : WaitInv (some m) y v :=
  ⟨h.holds, h.count, fun m' hm hty _ => h.mutex m' hm hty (by simp),
    fun t m' hm => ⟨(h.owned t m' hm).1, (h.owned t m' hm).2.1, by
      rintro ⟨rfl⟩
      exact hno t hm⟩, h.fresh, h.threadDisp, h.processDisp, h.timers, h.names⟩

end WaitInv

end Aegis
