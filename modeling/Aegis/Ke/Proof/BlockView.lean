import Aegis.Ke.MultiSpec

/-!
# What the kernel has on one thread

`BlockView` is what the kernel has on the waits of the thread `t`: its own record of them, its blocks
on the wait lists, and the mutexes that it holds. What other threads do leaves it alone, unless it
signals a dispatcher that `t` waits for (`Off`); `BlockView.wake` is what such a signal does.
-/

namespace Aegis

open Function

/-- What the blocks of a thread depend on. -/
structure ThreadBlocks where
  waiting : Prop
  cont : Cont
  killPending : Bool
  wait : WaitBlock
  multi : Nat → WaitBlock
  multiCount : Nat
  timed : Bool
  timeoutTick : Nat

def Thread.blocks (th : Thread) : ThreadBlocks :=
  ⟨th.state = .waiting, th.cont, th.killPending, th.wait, th.waitMulti, th.waitMultiCount,
    th.waitTimed, th.waitTimeoutTick⟩

/-- The blocks of one thread, and where they are linked. -/
@[ext]
structure BlockView where
  thread : ThreadBlocks
  linked : Nat → BlockId → Prop
  held : Nat → Nat
  type : Nat → DispType
  ndisp : Nat
  ticks : Nat

namespace BlockView

/-- The mutex `m` belongs to nobody, or to another thread. -/
def free (v : BlockView) (m : Nat) : BlockView := { v with held := update v.held m 0 }

/-- The block `b` is taken off `d` by a signal, with which a mutex goes to the thread. -/
def wake (v : BlockView) (b : BlockId) (d : Nat) (st : StatusCode) : BlockView :=
  { v with
    thread := { v.thread with
      waiting := False
      wait := { v.thread.wait with wakeStatus := st }
      multi := fun i =>
        if b = .multi i then { v.thread.multi i with wakeStatus := st } else v.thread.multi i }
    linked := fun e c => v.linked e c ∧ c ≠ b
    held := if v.type d = .mutant then update v.held d 1 else v.held }

/-- The thread waits for `d`. -/
def wait (v : BlockView) (d timeout : Nat) : BlockView :=
  { v with
    thread := { v.thread with
      waiting := True
      cont := .waitObject
      wait := ⟨some d, statusTimeout⟩
      timed := timeout ≠ infinite
      timeoutTick := u64 (v.ticks + if timeout = infinite then 0 else timeout) }
    linked := fun e b => v.linked e b ∨ e = d ∧ b = .single }

/-- The blocks from `i` on are linked to `objs`. -/
def queue (v : BlockView) (i : Nat) (objs : List Nat) : BlockView :=
  { v with
    thread := { v.thread with multi := fun j =>
      if i ≤ j ∧ j < i + objs.length then ⟨objs[j - i]?, statusTimeout⟩ else v.thread.multi j }
    linked := fun e b => v.linked e b ∨ ∃ j, b = .multi (i + j) ∧ objs[j]? = some e }

/-- The thread waits for `objs`. -/
def waitMultiple (v : BlockView) (objs : List Nat) (waitAll : Bool) (timeout : Nat) : BlockView :=
  { v.queue 0 objs with
    thread := { (v.queue 0 objs).thread with
      waiting := True
      cont := .waitMultiple objs waitAll
      wait := ⟨objs.head?, statusTimeout⟩
      multiCount := objs.length
      timed := timeout ≠ infinite
      timeoutTick := u64 (v.ticks + if timeout = infinite then 0 else timeout) } }

/-- The timeout of a wait. -/
structure TimedOut (v w : BlockView) : Prop where
  waiting : ¬ w.thread.waiting
  cont : w.thread.cont = v.thread.cont
  killPending : w.thread.killPending = v.thread.killPending
  status : w.thread.wait.wakeStatus = statusTimeout ∨
    w.thread.wait.wakeStatus = v.thread.wait.wakeStatus
  multi : w.thread.multi = v.thread.multi
  multiCount : w.thread.multiCount = 0
  linked : ∀ d b, w.linked d b → v.linked d b
  rest : w = { v with thread := w.thread, linked := w.linked }

theorem free_eq {v : BlockView} {m : Nat} (h : v.held m = 0) : v.free m = v := by
  unfold free
  rw [← h, update_eq_self]

end BlockView

namespace Kernel

variable {c : Nat} {b : Nat × BlockId} {f : Thread → Thread}

def blockView (s : Kernel) (t : Nat) : BlockView :=
  ⟨(s.thread t).blocks, fun d b => (t, b) ∈ (s.disp d).waitList, s.held t,
    fun d => (s.disp d).type, s.ndisp, s.ticks⟩

/-- The waits of `t` are the same. -/
def Alike (t : Nat) (s s' : Kernel) : Prop :=
  ∃ held cont killPending, s'.blockView t = { s.blockView t with
    thread := { (s.blockView t).thread with cont, killPending }, held }

/-- No block of `t` is on the wait list of `d`. -/
def Off (s : Kernel) (t d : Nat) : Prop := ∀ b ∈ (s.disp d).waitList, b.1 ≠ t
  deriving Decidable

variable {s s' : Kernel} {t u d m : Nat}

theorem off_iff : s.Off t d ↔ ∀ b, ¬ (s.blockView t).linked d b :=
  ⟨fun h _ hb => h _ hb rfl, fun h b hb he => h b.2 (he ▸ hb)⟩

theorem Alike.of_held {held : Nat → Nat} (h : s'.blockView t = { s.blockView t with held }) :
    Alike t s s' :=
  ⟨_, _, _, h⟩

theorem Alike.of_eq (h : s'.blockView t = s.blockView t) : Alike t s s' := of_held h

theorem held_of_owner (ho : (s.disp m).owner = some c) (hc : c ≠ t) : s.held t m = 0 := by
  simp [held, ho, hc]

theorem held_of_free (ho : (s.disp m).owner = none) : s.held t m = 0 := by simp [held, ho]

/-! ## Small steps -/

section
variable (s : Kernel)

theorem modThread_block (hf : u = t → (f (s.thread t)).blocks = (s.thread t).blocks) :
    (s.modThread u f).blockView t = s.blockView t := by
  have hth : ((s.modThread u f).thread t).blocks = (s.thread t).blocks := by
    by_cases hu : u = t
    · subst hu
      simpa [modThread] using hf rfl
    · simp [modThread, Ne.symm hu]
  unfold blockView
  rw [hth]
  rfl

theorem modThread_self (t : Nat) (f : Thread → Thread) :
    (s.modThread t f).blockView t = { s.blockView t with thread := (f (s.thread t)).blocks } :=
  BlockView.ext (by simp [blockView, modThread]) rfl rfl rfl rfl rfl

theorem modThread_alike
    (hf : ∀ th, ∃ cont killPending, (f th).blocks = { th.blocks with cont, killPending }) :
    Alike t s (s.modThread u f) := by
  by_cases hu : u = t
  · subst hu
    obtain ⟨k, kp, he⟩ := hf (s.thread u)
    exact ⟨_, k, kp, by rw [modThread_self, he]; rfl⟩
  · exact .of_eq (modThread_block s fun he => absurd he hu)

theorem modDisp_held {f : Disp → Disp} (hl : (f (s.disp d)).waitList = (s.disp d).waitList)
    (hty : (f (s.disp d)).type = (s.disp d).type) :
    (s.modDisp d f).blockView t = { s.blockView t with
      held := update (s.held t) d ((s.modDisp d f).held t d) } := by
  refine BlockView.ext rfl ?_ ?_ ?_ rfl rfl
  · funext e b
    by_cases he : e = d
    · subst he
      simp [blockView, modDisp, hl]
    · simp [blockView, modDisp, he]
  · funext e
    by_cases he : e = d
    · subst he
      simp [blockView]
    · simp [blockView, held, modDisp, he]
  · funext e
    by_cases he : e = d
    · subst he
      simp [blockView, modDisp, hty]
    · simp [blockView, modDisp, he]

theorem modDisp_block {f : Disp → Disp} (hl : (f (s.disp d)).waitList = (s.disp d).waitList)
    (hty : (f (s.disp d)).type = (s.disp d).type) (ht : (s.modDisp d f).held t d = s.held t d) :
    (s.modDisp d f).blockView t = s.blockView t := by
  rw [modDisp_held s hl hty, ht, update_eq_self]
  rfl

theorem modSignal_block (d : Nat) (f : Disp → Int) :
    (s.modDisp d fun x => { x with signalState := f x }).blockView t = s.blockView t :=
  modDisp_block s rfl rfl (by simp [held, modDisp])

theorem unlinkBlock_block (hb : b.1 ≠ t) : (s.unlinkBlock b).blockView t = s.blockView t := by
  refine BlockView.ext rfl ?_ rfl rfl rfl rfl
  funext e c
  have hne : (t, c) ≠ b := by
    rintro rfl
    exact hb rfl
  simp [blockView, unlinkBlock, hne]

theorem unlinkBlock_self (b : BlockId) :
    (s.unlinkBlock (t, b)).blockView t = { s.blockView t with
      linked := fun e c => (s.blockView t).linked e c ∧ c ≠ b } := by
  refine BlockView.ext rfl ?_ rfl rfl rfl rfl
  funext e c
  simp [blockView, unlinkBlock]

theorem linkBlock_block (d : Nat) (hb : b.1 ≠ t) :
    (s.linkBlock d b).blockView t = s.blockView t := by
  have hne : ∀ c, (t, c) ≠ b := fun c => by
    rintro rfl
    exact hb rfl
  refine BlockView.ext rfl ?_ ?_ ?_ rfl rfl
  · funext e c
    by_cases he : e = d
    · subst he
      simp [blockView, linkBlock, modDisp, hne]
    · simp [blockView, linkBlock, modDisp, he]
  · funext e
    by_cases he : e = d <;> simp [blockView, held, linkBlock, modDisp, he]
  · funext e
    by_cases he : e = d <;> simp [blockView, linkBlock, modDisp, he]

theorem linkBlock_self (d : Nat) (b : BlockId) :
    (s.linkBlock d (t, b)).blockView t = { s.blockView t with
      linked := fun e c => (s.blockView t).linked e c ∨ e = d ∧ c = b } := by
  refine BlockView.ext rfl ?_ ?_ ?_ rfl rfl
  · funext e c
    by_cases he : e = d
    · subst he
      simp [blockView, linkBlock, modDisp]
    · simp [blockView, linkBlock, modDisp, he]
  · funext e
    by_cases he : e = d <;> simp [blockView, held, linkBlock, modDisp, he]
  · funext e
    by_cases he : e = d <;> simp [blockView, linkBlock, modDisp, he]

theorem setState_block {st : ThreadState}
    (hst : u = t → (st = .waiting ↔ (s.thread t).state = .waiting)) :
    (s.setState u st).blockView t = s.blockView t :=
  modThread_block s fun hu => by simp [Thread.blocks, hst hu]

theorem preempt_block (u t : Nat) : (s.preempt u).blockView t = s.blockView t := by
  unfold preempt
  split
  · rfl
  · split <;> rfl

theorem schedReady_block (hu : u = t → (s.thread t).state ≠ .waiting) :
    (s.schedReady u).blockView t = s.blockView t := by
  unfold schedReady
  split
  · rfl
  · rw [preempt_block]
    exact setState_block s fun he => by simp [hu he]

end

theorem schedReady_wakes (h : (s.thread t).state = .waiting) : (s.schedReady t).blockView t =
    { s.blockView t with thread := { (s.blockView t).thread with waiting := False } } := by
  unfold schedReady
  rw [if_neg (by simp [h]), preempt_block]
  refine Eq.trans (b := (s.setState t .ready).blockView t) rfl ((modThread_self s t _).trans ?_)
  simp [blockView, Thread.blocks]

theorem Reprio.block (h : Reprio s s') (t : Nat) : s'.blockView t = s.blockView t :=
  h.view (v := (blockView · t)) fun _ _ _ _ _ => rfl

theorem keMutexOwn_block (s : Kernel) (m u t : Nat) :
    (s.keMutexOwn m u).blockView t = s.blockView t :=
  modThread_block (s.keMutexDisown m) fun _ => rfl

/-! ## Signals -/

theorem giveMutex_block (s : Kernel) (m u : Nat) (a : Bool) :
    (s.giveMutex m u a).blockView t = { s.blockView t with
      held := update (s.held t) m (if u = t then 1 else 0) } := by
  refine (keMutexOwn_block _ m u t).trans ((modDisp_held s rfl rfl).trans ?_)
  simp [held, modDisp]

theorem dispWakeOne_other (h : ∀ b, (s.disp d).waitList.head? ≠ some (t, b)) (st : StatusCode) :
    (s.dispWakeOne d st).blockView t = s.blockView t ∨
      (s.disp d).type = .mutant ∧ (s.dispWakeOne d st).blockView t = (s.blockView t).free d := by
  unfold dispWakeOne
  split
  · exact .inl rfl
  · next u b _ hl =>
    have hu : u ≠ t := fun he => h b (by rw [hl, he]; rfl)
    have h1 : ((s.unlinkBlock (u, b)).setWake u b st).blockView t = s.blockView t :=
      (modThread_block _ fun he => absurd he hu).trans (unlinkBlock_block s hu)
    have hty : (((s.unlinkBlock (u, b)).setWake u b st).disp d).type = (s.disp d).type := rfl
    simp only
    generalize (s.unlinkBlock (u, b)).setWake u b st = s1 at h1 hty ⊢
    rw [← hty]
    by_cases hm : (s1.disp d).type = .mutant
    · rw [if_pos hm]
      have h2 : (s1.giveMutex d u (st = statusAbandoned)).blockView t = (s.blockView t).free d := by
        rw [giveMutex_block, if_neg hu, ← show (s1.blockView t).held = s1.held t from rfl, h1]
        rfl
      refine .inr ⟨hm, ?_⟩
      split
      · exact (schedReady_block _ fun he => absurd he hu).trans h2
      · exact h2
    · rw [if_neg hm]
      left
      split
      · exact (schedReady_block _ fun he => absurd he hu).trans h1
      · exact h1

theorem dispWakeOne_self {b : BlockId} {l : List (Nat × BlockId)}
    (hl : (s.disp d).waitList = (t, b) :: l) (st : StatusCode) :
    (s.dispWakeOne d st).blockView t = (s.blockView t).wake b d st := by
  obtain ⟨s1, hs1⟩ : ∃ s1, (s.unlinkBlock (t, b)).setWake t b st = s1 := ⟨_, rfl⟩
  have h1 : s1.blockView t = { (s.blockView t).wake b d st with
      thread := { ((s.blockView t).wake b d st).thread with waiting := (s.blockView t).thread.waiting }
      held := (s.blockView t).held } := by
    rw [← hs1]
    refine BlockView.ext ?_ ?_ rfl rfl rfl rfl
    · cases b with
      | single => simp [blockView, setWake, modThread, Thread.modBlock, Thread.blocks, unlinkBlock,
          BlockView.wake]
      | multi i =>
        simp only [blockView, setWake, modThread, Thread.modBlock, Thread.blocks, unlinkBlock,
          BlockView.wake, update_self, ThreadBlocks.mk.injEq, true_and, and_true]
        funext j
        by_cases hj : j = i
        · subst hj
          simp
        · simp [hj, Ne.symm hj]
    · funext e c
      simp [blockView, setWake, modThread, unlinkBlock, BlockView.wake]
  have hty : (s1.disp d).type = (s.blockView t).type d := by rw [← hs1]; rfl
  obtain ⟨s2, hs2⟩ : ∃ s2, (if (s1.disp d).type = .mutant then
    s1.giveMutex d t (st = statusAbandoned) else s1) = s2 := ⟨_, rfl⟩
  have h2 : s2.blockView t = { (s.blockView t).wake b d st with
      thread := { ((s.blockView t).wake b d st).thread with
        waiting := (s.blockView t).thread.waiting } } := by
    rw [← hs2]
    split
    · next hm =>
      rw [giveMutex_block, if_pos rfl, ← show (s1.blockView t).held = s1.held t from rfl, h1]
      simp [BlockView.wake, ← hty, hm]
    · next hm =>
      rw [h1]
      simp [BlockView.wake, ← hty, hm]
  have he : s.dispWakeOne d st = if (s2.thread t).state = .waiting then s2.schedReady t else s2 := by
    unfold dispWakeOne
    rw [hl]
    simp only [hs1, hs2]
  have hw : (s2.thread t).state = .waiting ↔ (s.blockView t).thread.waiting :=
    iff_of_eq (congrArg (fun v : BlockView => v.thread.waiting) h2)
  rw [he]
  split
  · next hs => rw [schedReady_wakes hs, h2]; rfl
  · next hs =>
    rw [h2]
    simp [BlockView.wake, ← hw, hs]

theorem Off.head (h : s.Off t d) (b : BlockId) : (s.disp d).waitList.head? ≠ some (t, b) :=
  fun he => h _ (List.mem_of_head? he) rfl

theorem dispWakeOne_alike (h : s.Off t d) (st : StatusCode) : Alike t s (s.dispWakeOne d st) := by
  rcases dispWakeOne_other h.head st with he | ⟨-, he⟩
  · exact .of_eq he
  · exact .of_held he

/-! ## Mutexes -/

theorem handOver_block {s1 : Kernel} (h1 : s1.blockView t = (s.blockView t).free m)
    (hl : (s1.disp m).waitList = (s.disp m).waitList) (st : StatusCode) :
    (∀ b, (s.disp m).waitList.head? = some (t, b) →
      (s1.dispWakeOne m st).blockView t = ((s.blockView t).free m).wake b m st) ∧
    ((∀ b, (s.disp m).waitList.head? ≠ some (t, b)) →
      (s1.dispWakeOne m st).blockView t = (s.blockView t).free m) := by
  refine ⟨fun b hb => ?_, fun hno => ?_⟩
  · obtain ⟨l, hl'⟩ := List.head?_eq_some_iff.1 (hl ▸ hb)
    rw [dispWakeOne_self hl', h1]
  · rcases dispWakeOne_other (by rw [hl]; exact hno) st with he | ⟨-, he⟩
    · exact he.trans h1
    · rw [he, h1]
      simp [BlockView.free]

theorem abandon_block (s : Kernel) (m t : Nat) :
    (∀ b, (s.disp m).waitList.head? = some (t, b) →
      (s.abandon m).blockView t = ((s.blockView t).free m).wake b m statusAbandoned) ∧
    ((∀ b, (s.disp m).waitList.head? ≠ some (t, b)) →
      (s.abandon m).blockView t = (s.blockView t).free m) := by
  obtain ⟨s1, hs1⟩ : ∃ s1, (s.keMutexDisown m).modDisp m (fun x =>
    { x with owner := none, recursion := 0, abandoned := true }) = s1 := ⟨_, rfl⟩
  have h1 : s1.blockView t = (s.blockView t).free m := by
    rw [← hs1]
    refine (modDisp_held (s.keMutexDisown m) rfl rfl).trans ?_
    rw [held_of_free (by simp [modDisp])]
    rfl
  have hl : (s1.disp m).waitList = (s.disp m).waitList := by
    rw [← hs1]
    simp [modDisp, keMutexDisown]
  unfold abandon
  simp only [hs1]
  split
  · exact handOver_block ((modSignal_block s1 m fun _ => 0).trans h1) (by simpa [modDisp] using hl) _
  · next hne =>
    rw [hl, not_not] at hne
    rw [hne]
    exact ⟨fun b hb => (by cases hb), fun _ => (modSignal_block s1 m fun _ => 1).trans h1⟩

theorem releaseLast_block (s : Kernel) (m c t : Nat) :
    (∀ b, (s.disp m).waitList.head? = some (t, b) →
      (s.releaseLast m c).blockView t = ((s.blockView t).free m).wake b m statusSuccess) ∧
    ((∀ b, (s.disp m).waitList.head? ≠ some (t, b)) →
      (s.releaseLast m c).blockView t = (s.blockView t).free m) := by
  obtain ⟨s1, hs1⟩ : ∃ s1, (s.modDisp m fun x => { x with recursion := 0, owner := none }).keMutexDisown
    m = s1 := ⟨_, rfl⟩
  have h1 : s1.blockView t = (s.blockView t).free m := by
    rw [← hs1]
    refine (modDisp_held s rfl rfl).trans ?_
    rw [held_of_free (by simp [modDisp])]
    rfl
  have hl : (s1.disp m).waitList = (s.disp m).waitList := by
    rw [← hs1]
    simp [modDisp, keMutexDisown]
  unfold releaseLast
  simp only [hs1, (unboost_reprio _ c).block]
  split
  · next hne =>
    rw [hl] at hne
    rw [hne]
    exact ⟨fun b hb => (by cases hb), fun _ => (modSignal_block s1 m fun _ => 1).trans h1⟩
  · exact handOver_block h1 hl _

theorem tryWait_view (s : Kernel) (u d t : Nat) :
    ∃ held, (s.tryWait u d).2.blockView t = { s.blockView t with held } := by
  unfold tryWait
  split
  · split
    · dsimp only
      exact ⟨_, modDisp_held s rfl rfl⟩
    · split
      · dsimp only
        exact ⟨_, (keMutexOwn_block _ d u t).trans (modDisp_held s rfl rfl)⟩
      · exact ⟨_, (mutexDonate_reprio s d u).block t⟩
  · split
    · dsimp only
      split
      · exact ⟨_, modSignal_block s d fun _ => 0⟩
      · exact ⟨_, rfl⟩
    · exact ⟨_, rfl⟩

theorem tryWait_block (h : Inv none none s) (hd : d < s.ndisp) (hu : u ≠ t) :
    (s.tryWait u d).2.blockView t = s.blockView t := by
  unfold tryWait
  split
  · next hty =>
    split
    · next ho =>
      dsimp only
      refine modDisp_block s rfl rfl ?_
      rw [held_of_owner ho hu]
      exact held_of_owner (c := u) (by simpa [modDisp] using ho) hu
    · split
      · next hs =>
        dsimp only
        refine (keMutexOwn_block _ d u t).trans (modDisp_block s rfl rfl ?_)
        rw [held_of_free (h.free hd hty hs)]
        exact held_of_owner (c := u) (by simp [modDisp]) hu
      · exact (mutexDonate_reprio s d u).block t
  · split
    · dsimp only
      split
      · exact modSignal_block s d fun _ => 0
      · rfl
    · rfl

/-! ## Waits -/

theorem threadUnlinkWaits_block (s : Kernel)
    (h : u = t → (s.thread t).wait.object = none ∧ (s.thread t).waitMultiCount = 0) :
    (s.threadUnlinkWaits u).blockView t = s.blockView t := by
  by_cases hu : u = t
  · subst hu
    unfold threadUnlinkWaits
    rw [if_neg (not_not.2 (h rfl).2), (h rfl).1]
  · have hmod : ∀ (s : Kernel) f, (s.modThread u f).blockView t = s.blockView t := fun s f =>
      modThread_block s fun he => absurd he hu
    exact (Rule.of_view (blockView · t)).threadUnlinkWaits (fun s _ => unlinkBlock_block s hu)
      (fun s _ => hmod s _) (fun s => hmod s _) s

theorem enqueue_block (hu : u ≠ t) (s : Kernel) (d timeout : Nat) :
    (s.enqueue u d timeout).blockView t = s.blockView t := by
  unfold enqueue startWait
  exact ((modThread_block _ fun he => absurd he hu).trans (linkBlock_block _ d (by exact hu))).trans
    (modThread_block s fun he => absurd he hu)

theorem enqueueMulti_block (hu : u ≠ t) (waitAll : Bool) (objs : List Nat) (i : Nat) (s : Kernel) :
    (enqueueMulti u waitAll i objs s).2.blockView t = s.blockView t := by
  induction objs generalizing s i with
  | nil => rfl
  | cons d ds ih =>
    have h1 : (s.modThread u fun th =>
        th.modBlock (.multi i) fun _ => ⟨some d, statusTimeout⟩).blockView t = s.blockView t :=
      modThread_block s fun he => absurd he hu
    unfold enqueueMulti
    simp only
    generalize (s.modThread u fun th =>
      th.modBlock (.multi i) fun _ => ⟨some d, statusTimeout⟩) = s1 at h1 ⊢
    split
    · exact h1
    · refine (ih (i + 1) _).trans ((linkBlock_block _ d hu).trans ?_)
      split
      · exact ((mutexDonate_reprio s1 d u).block t).trans h1
      · exact h1

theorem suspend_block (s : Kernel) (k : Cont)
    (h : s.current = some t → (s.thread t).cont = .code → k = .code) :
    (s.suspend k).blockView t = s.blockView t := by
  unfold suspend
  split
  · rfl
  · next c hc =>
    refine modThread_block s fun hct => ?_
    subst hct
    by_cases hcode : (s.thread c).cont = .code
    · simp [Thread.blocks, hcode, h hc hcode]
    · simp [Thread.blocks, hcode]

theorem suspend_alike (s : Kernel) (k : Cont) (t : Nat) : Alike t s (s.suspend k) := by
  unfold suspend
  split
  · exact .of_eq rfl
  · exact modThread_alike s fun th => ⟨_, _, rfl⟩

theorem suspend_self (hc : s.current = some c) (hcode : (s.thread c).cont = .code) (k : Cont) :
    (s.suspend k).blockView c =
      { s.blockView c with thread := { (s.blockView c).thread with cont := k } } := by
  unfold suspend
  rw [hc]
  refine (modThread_self s c _).trans ?_
  simp [hcode, Thread.blocks, blockView]

theorem startWait_self (s : Kernel) (t timeout : Nat) :
    (s.startWait t timeout).blockView t = { s.blockView t with
      thread := { (s.blockView t).thread with
        waiting := True
        timed := timeout ≠ infinite
        timeoutTick := u64 (s.ticks + if timeout = infinite then 0 else timeout) } } := by
  refine (modThread_self s t _).trans ?_
  simp [Thread.blocks, blockView]

theorem queueMulti_block (h : ReadyCore s.schedView) (hc : s.current = some u) (hu : u ≠ t)
    (objs : List Nat) (waitAll : Bool) (timeout : Nat) :
    (s.queueMulti u objs waitAll timeout).blockView t = s.blockView t := by
  obtain ⟨s1, hs1⟩ : ∃ s1, (s.modThread u fun th => { th with
    waitMultiCount := objs.length, waitAll, wait := ⟨objs.head?, statusTimeout⟩ }) = s1 := ⟨_, rfl⟩
  have h1 : s1.blockView t = s.blockView t ∧ s1.schedView = s.schedView := by
    rw [← hs1]
    exact ⟨modThread_block s fun he => absurd he hu, modThread_view _ _ rfl rfl rfl⟩
  have hcur : (enqueueMulti u waitAll 0 objs s1).2.current = some u :=
    ((enqueueMulti_woken u waitAll objs 0 (by rw [h1.2]; exact h)).current.trans
      (congrArg SchedView.current h1.2)).trans hc
  unfold queueMulti startWait
  rw [hs1]
  refine (suspend_block _ _ fun ht => ?_).trans ((modThread_block _ fun he => absurd he hu).trans
    ((enqueueMulti_block hu waitAll objs 0 s1).trans h1.1))
  exact absurd (Option.some.inj (hcur.symm.trans ht)) hu

theorem enqueue_self (hc : s.current = some t) (hcode : (s.thread t).cont = .code)
    (d timeout : Nat) :
    ((s.enqueue t d timeout).suspend .waitObject).blockView t = (s.blockView t).wait d timeout := by
  rw [suspend_self (by exact hc) (by simpa [enqueue, startWait, modThread, linkBlock, modDisp])]
  unfold enqueue
  rw [startWait_self, linkBlock_self, modThread_self]
  rfl

theorem enqueueMulti_self (waitAll : Bool) (objs : List Nat) (i : Nat)
    (hnone : (enqueueMulti t waitAll i objs s).1 = none) :
    (enqueueMulti t waitAll i objs s).2.blockView t = (s.blockView t).queue i objs := by
  induction objs generalizing s i with
  | nil =>
    have hno : ∀ j, ¬ (i ≤ j ∧ j < i) := fun j => by omega
    simp [enqueueMulti, BlockView.queue, hno]
  | cons d ds ih =>
    obtain ⟨s1, hs1⟩ : ∃ s1, (s.modThread t fun th =>
        th.modBlock (.multi i) fun _ => ⟨some d, statusTimeout⟩) = s1 := ⟨_, rfl⟩
    obtain ⟨s2, hs2⟩ : ∃ s2, (if (s1.disp d).type = .mutant then s1.mutexDonate d t else s1) = s2 :=
      ⟨_, rfl⟩
    have h2 : s2.blockView t = s1.blockView t := by
      rw [← hs2]
      split
      · exact (mutexDonate_reprio s1 d t).block t
      · rfl
    have hstep : ¬ (waitAll = false ∧ (s1.disp d).signalState > 0) := by
      intro hc
      unfold enqueueMulti at hnone
      simp only [hs1, if_pos hc] at hnone
      cases hnone
    have he : enqueueMulti t waitAll i (d :: ds) s =
        enqueueMulti t waitAll (i + 1) ds (s2.linkBlock d (t, .multi i)) := by
      rw [enqueueMulti]
      simp only [hs1, if_neg hstep, hs2]
    rw [he] at hnone ⊢
    rw [ih (i + 1) hnone, linkBlock_self, h2, ← hs1, modThread_self]
    refine BlockView.ext ?_ ?_ rfl rfl rfl rfl
    · simp only [BlockView.queue, Thread.blocks, Thread.modBlock, blockView, List.length_cons]
      congr 1
      funext j
      by_cases hj : j = i
      · subst hj
        simp
      · by_cases hle : i ≤ j
        · obtain ⟨k, rfl⟩ : ∃ k, j = i + 1 + k := ⟨j - (i + 1), by omega⟩
          simp only [update_of_ne hj, List.getElem?_cons_succ,
            show i + 1 + k - (i + 1) = k by omega, show i + 1 + k - i = k + 1 by omega,
            show (i + 1 ≤ i + 1 + k ∧ i + 1 + k < i + 1 + ds.length) ↔ k < ds.length by omega,
            show (i ≤ i + 1 + k ∧ i + 1 + k < i + (ds.length + 1)) ↔ k < ds.length by omega]
        · simp [hj, hle, show ¬ i + 1 ≤ j by omega]
    · funext e b
      simp only [BlockView.queue, blockView, eq_iff_iff]
      constructor
      · rintro ((h | ⟨rfl, rfl⟩) | ⟨j, rfl, hj⟩)
        · exact .inl h
        · exact .inr ⟨0, rfl, rfl⟩
        · exact .inr ⟨j + 1, by rw [Nat.add_assoc, Nat.add_comm 1], hj⟩
      · rintro (h | ⟨j, rfl, hj⟩)
        · exact .inl (.inl h)
        · cases j with
          | zero => exact .inl (.inr ⟨(Option.some.inj hj).symm, rfl⟩)
          | succ j => exact .inr ⟨j, by rw [Nat.add_assoc, Nat.add_comm 1], hj⟩

theorem queueMulti_self (h : ReadyCore s.schedView) (hc : s.current = some t)
    (hcode : (s.thread t).cont = .code) {objs : List Nat} {waitAll : Bool}
    (hs : waitAll = true ∨ ∀ d ∈ objs, ¬ (s.disp d).signalState > 0) (timeout : Nat) :
    (s.queueMulti t objs waitAll timeout).blockView t =
      (s.blockView t).waitMultiple objs waitAll timeout := by
  obtain ⟨s1, hs1⟩ : ∃ s1, (s.modThread t fun th => { th with
    waitMultiCount := objs.length, waitAll, wait := ⟨objs.head?, statusTimeout⟩ }) = s1 := ⟨_, rfl⟩
  have h1 := modThread_self s t fun th => { th with
    waitMultiCount := objs.length, waitAll, wait := ⟨objs.head?, statusTimeout⟩ }
  have hv : s1.schedView = s.schedView := by
    rw [← hs1]
    exact modThread_view _ _ rfl rfl rfl
  have h2 := enqueueMulti_self waitAll objs 0
    (enqueueMulti_none (t := t) waitAll objs 0 (s := s1) (by rw [← hs1]; exact hs))
  have hcur : (enqueueMulti t waitAll 0 objs s1).2.current = some t :=
    ((enqueueMulti_woken t waitAll objs 0 (by rw [hv]; exact h)).current.trans
      (congrArg SchedView.current hv)).trans hc
  unfold queueMulti
  rw [hs1] at h1 ⊢
  generalize (enqueueMulti t waitAll 0 objs s1).2 = s2 at h2 hcur ⊢
  rw [h1] at h2
  have hcode2 : (s2.thread t).cont = .code :=
    (congrArg (fun v : BlockView => v.thread.cont) h2).trans hcode
  have hticks : s2.ticks = s.ticks := congrArg BlockView.ticks h2
  have h3 : ((s2.startWait t timeout).thread t).cont = .code := by
    simpa [startWait, modThread] using hcode2
  rw [suspend_self (by exact hcur) h3]
  rw [startWait_self, h2, hticks]
  rfl

theorem unlinkBlocks_block (hu : u ≠ t) (n : Nat) (s : Kernel) :
    (unlinkBlocks u n s).blockView t = s.blockView t :=
  (Rule.of_view (blockView · t)).foldl _ (fun _ _ s => unlinkBlock_block s hu) s

theorem multiDone_block (hu : u ≠ t) (s : Kernel) (objs : List Nat) :
    (s.multiDone u objs).blockView t = s.blockView t :=
  ((modThread_block _ fun he => absurd he hu).trans (unlinkBlocks_block hu _ _)).trans
    (modThread_block s fun he => absurd he hu)

/-! ## Switches -/

theorem switchTo_block (s : Kernel) {n : Nat} (hn : n = t → (s.thread t).state ≠ .waiting) :
    (s.switchTo n).blockView t = s.blockView t := by
  have h1 : (s.modThread n fun th => { th with
      state := .running
      quantumLeft := if th.priority ≥ priorityRealtime then 0xFFFF else quantumTicks }).blockView t =
        s.blockView t := modThread_block s fun he => by simp [Thread.blocks, hn he]
  exact h1

theorem putBack_block (s : Kernel) (t : Nat) : s.putBack.blockView t = s.blockView t := by
  rcases putBack_cases s with ⟨he, -⟩ | ⟨c, -, hrun, ⟨-, he⟩ | ⟨-, he⟩⟩
  · rw [he]
  · rw [he]
    exact setState_block s fun hu => by subst hu; simp [hrun]
  · rw [he]
    exact setState_block s fun hu => by subst hu; simp [hrun]

theorem schedReschedule_block (hc : ReadyCore s.schedView) (t : Nat) :
    s.schedReschedule.blockView t = s.blockView t := by
  obtain ⟨n, hn, hready⟩ := hc.next
  unfold schedReschedule
  simp only [show s.ready.popHighest.1.getD s.idle = n from hn]
  split
  · rfl
  · have hb := putBack_block { s with needResched := false, ready := s.ready.popHighest.2 } t
    refine (switchTo_block _ fun hnt => ?_).trans hb
    subst hnt
    intro hw
    have hw' : (s.thread n).state = .waiting :=
      (show _ = _ from congrArg (fun v : BlockView => v.thread.waiting) hb).mp hw
    rcases hready with hr | hr <;> cases hr.symm.trans hw'

theorem useQuantum_block (s : Kernel) (u t : Nat) : (s.useQuantum u).blockView t = s.blockView t := by
  have hq : (s.modThread u fun th => { th with quantumLeft := th.quantumLeft - 1 }).blockView t =
      s.blockView t := modThread_block s fun _ => rfl
  unfold useQuantum
  split
  · simp only
    split <;> exact hq
  · rfl

/-! ## Timeouts -/

/-- The timeout of a thread that `v` is about has come. -/
def Expired (v : BlockView) : Prop :=
  v.thread.waiting ∧ v.thread.timed = true ∧ v.thread.timeoutTick ≤ v.ticks

theorem expire_block (u : Nat) (h : u = t → ¬ Expired (s.blockView t)) :
    (s.expire u).blockView t = s.blockView t := by
  unfold expire
  split
  · rfl
  · next hw =>
    push Not at hw
    split
    · rfl
    · next hdue =>
      have hu : u ≠ t := by
        rintro rfl
        have htimed : (s.thread u).waitTimed = true := by simpa using hw.2
        exact h rfl ⟨hw.1, htimed, Nat.not_lt.1 hdue⟩
      have hready : ∀ s1 : Kernel, (s1.schedReady u).blockView t = s1.blockView t := fun s1 =>
        schedReady_block s1 fun he => absurd he hu
      have hmod : ∀ (s1 : Kernel) f, (s1.modThread u f).blockView t = s1.blockView t := fun s1 f =>
        modThread_block s1 fun he => absurd he hu
      split
      · refine (hready _).trans ((hmod _ _).trans ?_)
        refine (Rule.of_view (blockView · t)).foldl _ (fun k _ s => ?_) s
        split
        · rfl
        · exact unlinkBlock_block s hu
      · unfold expireSingle
        simp only
        split
        · exact hready s
        · exact (hready _).trans ((hmod _ _).trans (unlinkBlock_block s hu))

theorem timedOut_ready {r : Kernel} {l : Nat → BlockId → Prop}
    (h1 : r.blockView t = { s.blockView t with linked := l })
    (hl : ∀ d b, l d b → (s.blockView t).linked d b) (hw : (s.blockView t).thread.waiting)
    (hf : ∀ th, (f th).blocks = { th.blocks with
      wait := { th.wait with wakeStatus := statusTimeout }
      timed := false, multiCount := (f th).waitMultiCount })
    (hn : (f (r.thread t)).waitMultiCount = 0) :
    (s.blockView t).TimedOut (((r.modThread t f).schedReady t).blockView t) := by
  have hth : (r.thread t).blocks = (s.blockView t).thread := congrArg BlockView.thread h1
  have hwait : ((r.modThread t f).thread t).state = .waiting := by
    have he : (f (r.thread t)).blocks.waiting = (r.thread t).blocks.waiting := by rw [hf]
    rw [hth] at he
    rw [show (r.modThread t f).thread t = f (r.thread t) from update_self ..]
    exact he.mpr hw
  rw [schedReady_wakes hwait, modThread_self, hf, hn, hth, h1]
  refine ⟨id, rfl, rfl, .inl rfl, rfl, rfl, hl, rfl⟩

theorem expire_self (h : Expired (s.blockView t)) :
    (s.blockView t).TimedOut ((s.expire t).blockView t) := by
  have hw : (s.thread t).state = .waiting := h.1
  have htimed : (s.thread t).waitTimed = true := h.2.1
  have hdue : ¬ s.ticks < (s.thread t).waitTimeoutTick := Nat.not_lt.2 h.2.2
  unfold expire
  rw [if_neg (by simp [hw, htimed]), if_neg hdue]
  split
  · unfold expireMulti
    generalize hr : List.foldl _ s _ = r
    obtain ⟨l, h1, hl⟩ : ∃ l, r.blockView t = { s.blockView t with linked := l } ∧
        ∀ d b, l d b → (s.blockView t).linked d b := by
      rw [← hr]
      apply List.foldlRecOn (motive := fun s1 : Kernel => ∃ l, s1.blockView t =
        { s.blockView t with linked := l } ∧ ∀ d b, l d b → (s.blockView t).linked d b)
      · exact ⟨_, rfl, fun _ _ => id⟩
      · intro s1 ⟨l, h1, hl⟩ k _
        split
        · exact ⟨l, h1, hl⟩
        · rw [unlinkBlock_self, h1]
          exact ⟨_, rfl, fun d b hb => hl d b hb.1⟩
    exact timedOut_ready h1 hl hw (fun _ => rfl) rfl
  · next hn =>
    unfold expireSingle
    simp only
    split
    · refine Eq.subst (schedReady_wakes hw).symm (motive := (s.blockView t).TimedOut) ?_
      exact ⟨id, rfl, rfl, .inr rfl, rfl, not_not.1 hn, fun _ _ => id, rfl⟩
    · exact timedOut_ready (r := s.unlinkBlock (t, .single))
        (BlockView.ext rfl rfl rfl rfl rfl rfl) (fun _ _ hb => List.mem_of_mem_filter hb) hw
        (fun _ => rfl) (not_not.1 hn)

/-! ## New objects -/

/-- What a step that makes new objects does to `t`. -/
structure Created (t : Nat) (s s' : Kernel) : Prop where
  thread : (s'.thread t).blocks = (s.thread t).blocks ∨
    t = s.nthread ∧ ∃ d p q, (s'.thread t).blocks = (newThread d p q).blocks
  disp : ∀ d, s'.disp d = s.disp d ∨ d = s.ndisp ∧ (s'.disp d).waitList = []
  ndisp : s.ndisp ≤ s'.ndisp
  nthread : s.nthread ≤ s'.nthread

theorem Created.linked (h : Created t s s') {b : BlockId} (hb : (t, b) ∈ (s'.disp d).waitList) :
    (t, b) ∈ (s.disp d).waitList := by
  rcases h.disp d with he | ⟨-, he⟩
  · rwa [he] at hb
  · rw [he] at hb
    cases hb

theorem Created.eq (h : Created t s s') (hd : d < s.ndisp) : s'.disp d = s.disp d :=
  (h.disp d).resolve_right fun he => Nat.ne_of_lt hd he.1

theorem newDisp_created (s : Kernel) (ty : DispType) (st : Int) : Created t s (s.newDisp ty st) := by
  refine ⟨.inl rfl, fun d => ?_, Nat.le_succ _, le_rfl⟩
  by_cases hd : d = s.ndisp
  · exact .inr ⟨hd, by simp [newDisp, hd]⟩
  · exact .inl (by simp [newDisp, hd])

theorem obCreateMutex_created (s : Kernel) (b : Bool) : Created t s (s.obCreateMutex b) := by
  have h1 : ∀ owner r, Created t s ((s.newDisp .mutant (if b then 0 else 1)).modDisp s.ndisp
      fun x => { x with owner, recursion := r }) := fun owner r => by
    refine ⟨.inl rfl, fun d => ?_, Nat.le_succ _, le_rfl⟩
    by_cases hd : d = s.ndisp
    · exact .inr ⟨hd, by simp [modDisp, newDisp, hd]⟩
    · exact .inl (by simp [modDisp, newDisp, hd])
  unfold obCreateMutex
  simp only
  split
  · exact h1 _ _
  · next c _ =>
    have hv := keMutexOwn_block ((s.newDisp .mutant (if b then 0 else 1)).modDisp s.ndisp fun x =>
      { x with owner := if b then s.current else none, recursion := if b then 1 else 0 }) s.ndisp c t
    exact ⟨.inl (congrArg BlockView.thread hv), (h1 _ _).disp, (h1 none 0).ndisp, le_rfl⟩

theorem pspCreateThread_created (s : Kernel) (p prio : Nat) (suspended : Bool) :
    Created t s (s.pspCreateThread p prio suspended) := by
  unfold pspCreateThread
  simp only
  generalize (if prio ≥ priorityLevels then priorityNormal else prio) = q
  obtain ⟨s1, hs1⟩ : ∃ s1, s.addThread p q = s1 := ⟨_, rfl⟩
  have h0 := newDisp_created (t := t) s .thread 0
  have h1 : Created t s s1 := by
    rw [← hs1]
    refine ⟨?_, h0.disp, h0.ndisp, Nat.le_succ _⟩
    by_cases ht : t = s.nthread
    · exact .inr ⟨ht, s.ndisp, p, q, by simp [addThread, modProcess, ht]⟩
    · exact .inl (by simp [addThread, modProcess, ht])
  have hnew : (s1.thread s.nthread).state ≠ .waiting := by
    rw [← hs1]
    simp [addThread, modProcess, newThread]
  rw [hs1]
  split
  · exact h1
  · have hv := schedReady_block s1 fun he : s.nthread = t => he ▸ hnew
    have hd := schedReady_disp s1 s.nthread
    refine ⟨?_, fun d => by rw [hd]; exact h1.disp d, h1.ndisp.trans_eq ?_, h1.nthread.trans_eq
      (congrArg RestView.nthread (schedReady_rest s1 _)).symm⟩
    · rw [show ((s1.schedReady s.nthread).thread t).blocks = (s1.thread t).blocks from
        congrArg BlockView.thread hv]
      exact h1.thread
    · exact (congrArg BlockView.ndisp hv).symm

theorem keStep_created {op : KeOp} (hnew : op.creates = true) (hs : keStep s op = some s') :
    Created t s s' := by
  have h0 := fun ty st => newDisp_created (t := t) s ty st
  cases op with
  | createProcess =>
    cases hs
    exact ⟨.inl rfl, (h0 .process 0).disp, (h0 .process 0).ndisp, le_rfl⟩
  | createThread p prio suspended =>
    cases hs
    exact pspCreateThread_created s p prio suspended
  | createEvent autoReset initial =>
    cases hs
    exact h0 _ _
  | createTimer autoReset =>
    cases hs
    exact ⟨.inl rfl, (h0 _ _).disp, (h0 .process 0).ndisp, le_rfl⟩
  | createMutex initialOwner =>
    cases hs
    exact obCreateMutex_created s initialOwner
  | setCloses p closes =>
    cases hs
    exact ⟨.inl rfl, fun _ => .inl rfl, le_rfl, le_rfl⟩
  | _ => cases hnew

end Kernel

end Aegis
