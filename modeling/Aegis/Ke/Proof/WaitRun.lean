import Aegis.Ke.Proof.WaitView

/-!
# Waits and mutexes over whole runs

Every function keeps `WaitInv` (`Inv` for the kernel), and the owner of every mutex but those that
its caller gives up (`Kept`).
-/

namespace Aegis

open Function

namespace Kernel

variable {s s' : Kernel} {t : Nat} {x y : Option Nat}
variable {d m : Nat} {P : Nat → Prop} {f : Disp → Disp}

/-- `WaitInv` of the kernel. -/
abbrev Inv (openMutex leaving : Option Nat) (s : Kernel) : Prop :=
  WaitInv openMutex leaving s.waitView

/-- The mutexes outside `P` keep their owners. -/
structure Kept (P : Nat → Prop) (s s' : Kernel) : Prop where
  ndisp : s'.ndisp = s.ndisp
  nprocess : s'.nprocess = s.nprocess
  nthread : s'.nthread = s.nthread
  type : ∀ d, (s'.disp d).type = (s.disp d).type
  owner : ∀ m t, ¬ P m → (s.disp m).owner = some t →
    (s'.disp m).owner = some t ∧ (s.disp m).recursion ≤ (s'.disp m).recursion

namespace Kept

variable {P : Nat → Prop} {s₁ s₂ s₃ : Kernel}

theorem of_disp (hd : s₂.disp = s₁.disp) (hn : s₂.ndisp = s₁.ndisp)
    (hp : s₂.nprocess = s₁.nprocess) (ht : s₂.nthread = s₁.nthread) : Kept P s₁ s₂ :=
  ⟨hn, hp, ht, fun d => by rw [hd], fun m t _ ho => by rw [hd]; exact ⟨ho, le_rfl⟩⟩

theorem refl (s : Kernel) : Kept P s s := of_disp rfl rfl rfl rfl

theorem trans (h1 : Kept P s₁ s₂) (h2 : Kept P s₂ s₃) : Kept P s₁ s₃ :=
  ⟨h2.ndisp.trans h1.ndisp, h2.nprocess.trans h1.nprocess, h2.nthread.trans h1.nthread,
    fun d => (h2.type d).trans (h1.type d), fun m t hm ho =>
    ⟨(h2.owner m t hm (h1.owner m t hm ho).1).1,
      (h1.owner m t hm ho).2.trans (h2.owner m t hm (h1.owner m t hm ho).1).2⟩⟩

theorem mono {Q : Nat → Prop} (h : Kept P s₁ s₂) (hPQ : ∀ m, P m → Q m) : Kept Q s₁ s₂ :=
  ⟨h.ndisp, h.nprocess, h.nthread, h.type, fun m t hm => h.owner m t fun hp => hm (hPQ m hp)⟩

theorem signals (h : Kept P s₁ s₂) {d : Nat} (hd : s₁.Signals d) : s₂.Signals d :=
  ⟨by rw [h.ndisp]; exact hd.1, by rw [h.type]; exact hd.2⟩

theorem modDisp (s : Kernel) (d : Nat) {f : Disp → Disp} (hty : (f (s.disp d)).type = (s.disp d).type)
    (ho : P d ∨ ∀ t, (s.disp d).owner = some t → (f (s.disp d)).owner = some t ∧
      (s.disp d).recursion ≤ (f (s.disp d)).recursion) : Kept P s (s.modDisp d f) := by
  refine ⟨rfl, rfl, rfl, fun e => ?_, fun m t hm h => ?_⟩
  · by_cases he : e = d
    · subst he
      simpa [Kernel.modDisp] using hty
    · simp [Kernel.modDisp, he]
  · by_cases he : m = d
    · subst he
      simpa [Kernel.modDisp] using (ho.resolve_left hm) t h
    · simp [Kernel.modDisp, he, h]

theorem unlinkBlock (s : Kernel) (b : Nat × BlockId) : Kept P s (s.unlinkBlock b) :=
  ⟨rfl, rfl, rfl, fun _ => rfl, fun _ _ _ h => ⟨h, le_rfl⟩⟩

end Kept

/-! ## Views -/

section
variable (s : Kernel)

theorem modThread_waitView (t : Nat) (f : Thread → Thread) :
    (s.modThread t f).waitView = s.waitView.setThread t (f (s.thread t)).waits := by
  simp only [waitView, modThread, WaitView.setThread]
  congr 1
  funext u
  by_cases hu : u = t <;> simp [hu]

theorem modThread_same (t : Nat) {f : Thread → Thread}
    (hf : (f (s.thread t)).waits = (s.thread t).waits) :
    (s.modThread t f).waitView = s.waitView := by
  rw [modThread_waitView, hf]
  simp [WaitView.setThread, waitView]

theorem modDisp_waitView (d : Nat) (f : Disp → Disp) :
    (s.modDisp d f).waitView = s.waitView.setDisp d (f (s.disp d)) := rfl

theorem keMutexDisown_waitView (m : Nat) : (s.keMutexDisown m).waitView = s.waitView.disown m := rfl

theorem setWake_same (t : Nat) (b : BlockId) (st : StatusCode) :
    (s.setWake t b st).waitView = s.waitView := by
  refine modThread_same s t ?_
  cases b with
  | single => rfl
  | multi i =>
    simp only [Thread.waits, Thread.modBlock]
    congr 1
    funext j
    by_cases hj : j = i <;> simp [hj]

theorem preempt_same (t : Nat) : (s.preempt t).waitView = s.waitView := by
  unfold preempt
  split
  · rfl
  · split <;> rfl

theorem schedBoost_same (t q : Nat) : (s.schedBoost t q).waitView = s.waitView :=
  (schedBoost_reprio s t q).view fun _ _ _ _ _ => rfl

theorem mutexDonate_same (m w : Nat) : (s.mutexDonate m w).waitView = s.waitView :=
  (mutexDonate_reprio s m w).view fun _ _ _ _ _ => rfl

theorem unboost_same (t : Nat) : (s.unboost t).waitView = s.waitView :=
  (unboost_reprio s t).view fun _ _ _ _ _ => rfl

end

theorem Kept.of_view (he : s'.waitView = s.waitView) : Kept P s s' :=
  .of_disp (congrArg WaitView.disp he) (congrArg WaitView.ndisp he)
    (congrArg WaitView.nprocess he) (congrArg WaitView.nthread he)

/-! ## Waking -/

theorem schedReady_inv (h : Inv x none s) (ht : t < s.nthread)
    (hno : ∀ d, (t, BlockId.single) ∉ (s.disp d).waitList) : Inv x none (s.schedReady t) := by
  unfold schedReady
  split
  · exact h
  · next hst =>
    push Not at hst
    unfold Inv
    rw [preempt_same, show ((s.setState t .ready).readyInsert t).waitView =
      (s.setState t .ready).waitView from rfl, setState, modThread_waitView]
    refine h.setThread (fun d b hb _ => ?_) (fun _ => h.count t (by simp)) rfl (fun _ => ⟨rfl, rfl⟩)
      (fun hs => by cases hs) (fun hle => absurd ht (Nat.not_lt.2 hle)) (h.names t)
    cases b with
    | single => exact absurd hb (hno d)
    | multi i =>
      obtain ⟨-, -, h3⟩ := h.holds d _ hb (by simp)
      exact ⟨by simp [Thread.waits], by simp [Thread.waits], h3⟩

theorem schedReady_disp (s : Kernel) (t : Nat) : (s.schedReady t).disp = s.disp := by
  unfold schedReady
  split
  · rfl
  · rw [show ((((s.setState t .ready).readyInsert t).preempt t)).disp = _ from
      congrArg WaitView.disp (preempt_same _ t)]
    rfl

theorem schedReady_kept (s : Kernel) (t : Nat) : Kept P s (s.schedReady t) := by
  refine .of_disp (schedReady_disp s t) ?_ ?_ ?_ <;> unfold schedReady <;> split
  · rfl
  · exact congrArg WaitView.ndisp (preempt_same _ t)
  · rfl
  · exact congrArg WaitView.nprocess (preempt_same _ t)
  · rfl
  · exact congrArg WaitView.nthread (preempt_same _ t)

/-- What is known of the owner of a block that is taken off. -/
structure Unlinked (x : Option Nat) (s : Kernel) (t : Nat) : Prop where
  inv : Inv x none s
  lt : t < s.nthread
  live : (s.thread t).state ≠ .terminated
  noSingle : ∀ d, (t, BlockId.single) ∉ (s.disp d).waitList

theorem unlinkBlock_unlinked (h : Inv x none s) {b : BlockId} (hb : (t, b) ∈ (s.disp d).waitList) :
    Unlinked x (s.unlinkBlock (t, b)) t := by
  have hh := h.holds d _ hb (by simp)
  have hmem : ∀ {e c}, c ∈ ((s.unlinkBlock (t, b)).disp e).waitList →
      c ∈ (s.disp e).waitList ∧ c ≠ (t, b) := fun hc => by
    simpa [unlinkBlock] using hc
  have hstate : (s.thread t).state ≠ .terminated ∧ (s.thread t).state ≠ .unused := by
    cases b with
    | single =>
      obtain ⟨hst, -⟩ := hh
      rw [show (s.thread t).state = .waiting from hst]
      simp
    | multi i => exact ⟨hh.1, hh.2.1⟩
  refine ⟨h.shrink fun e c hc => (hmem hc).1, ?_, hstate.1, fun e he => ?_⟩
  · by_contra hlt
    exact hstate.2 (h.fresh t (Nat.not_lt.1 hlt))
  · obtain ⟨hin, hne⟩ := hmem he
    obtain ⟨-, hc, -⟩ := h.holds e _ hin (by simp)
    cases b with
    | single => exact hne rfl
    | multi i =>
      obtain ⟨-, -, -, -, objs, waitAll, hc', -⟩ := hh
      rw [show (s.waitView.thread t).cont = .waitObject from hc] at hc'
      cases hc'

theorem Unlinked.of_view (h : Unlinked x s t) (he : s'.waitView = s.waitView) :
    Unlinked x s' t := by
  refine ⟨?_, ?_, ?_, ?_⟩
  · rw [Inv, he]
    exact h.inv
  · rw [show s'.nthread = s.nthread from congrArg WaitView.nthread he]
    exact h.lt
  · have := congrArg ThreadWaits.state (congrFun (congrArg WaitView.thread he) t)
    rw [show (s'.thread t).state = (s.thread t).state from this]
    exact h.live
  · rw [show s'.disp = s.disp from congrArg WaitView.disp he]
    exact h.noSingle

theorem Unlinked.wake (h : Unlinked x s t) :
    Inv x none (if (s.thread t).state = .waiting then s.schedReady t else s) := by
  split
  · exact schedReady_inv h.inv h.lt h.noSingle
  · exact h.inv

theorem giveMutex_inv (h : Inv (some m) y s) (hm : m < s.ndisp) (hty : (s.disp m).type = .mutant)
    (ht : t < s.nthread) (hst : (s.thread t).state ≠ .terminated) (a : Bool) :
    Inv none y (s.giveMutex m t a) := by
  unfold giveMutex keMutexOwn Inv
  rw [modThread_waitView]
  have h1 : WaitInv (some m) y (((s.modDisp m fun x =>
      { x with owner := some t, recursion := 1, abandoned := a, signalState := 0 })).keMutexDisown
        m).waitView := by
    rw [keMutexDisown_waitView, modDisp_waitView]
    refine WaitInv.disown (h.setDisp ?_ ?_ ?_) (.inr rfl)
    · rfl
    · exact fun b hb => h.holds m b hb
    · exact fun _ hne => absurd rfl hne
  refine h1.own hm ?_ ?_ ?_ ?_ ht hst <;> simp [waitView, keMutexDisown, modDisp, hty]

theorem giveMutex_waitList (s : Kernel) (m t : Nat) (a : Bool) (d : Nat) :
    ((s.giveMutex m t a).disp d).waitList = (s.disp d).waitList := by
  by_cases hd : d = m <;> simp [giveMutex, keMutexOwn, keMutexDisown, modThread, modDisp, hd]

theorem giveMutex_state (s : Kernel) (m t : Nat) (a : Bool) (u : Nat) :
    ((s.giveMutex m t a).thread u).state = (s.thread u).state :=
  congrFun (congrArg SchedView.state (giveMutex_view s m t a)) u

theorem dispWakeOne_inv (h : Inv x none s) (hty : (s.disp d).type ≠ .mutant) (st : StatusCode) :
    Inv x none (s.dispWakeOne d st) := by
  unfold dispWakeOne
  split
  · exact h
  · next t b rest hl =>
    have hu := (unlinkBlock_unlinked h (d := d) (by rw [hl]; exact List.mem_cons_self)).of_view
      (setWake_same (s.unlinkBlock (t, b)) t b st)
    have hty' : (((s.unlinkBlock (t, b)).setWake t b st).disp d).type ≠ .mutant := hty
    simp only [if_neg hty']
    exact hu.wake

theorem dispWakeOne_give (h : Inv (some m) none s) (hm : m < s.ndisp)
    (hty : (s.disp m).type = .mutant) (hl : (s.disp m).waitList ≠ []) (st : StatusCode) :
    Inv none none (s.dispWakeOne m st) := by
  unfold dispWakeOne
  split
  · next he => exact absurd he hl
  · next t b rest he =>
    have hu := (unlinkBlock_unlinked h (d := m) (by rw [he]; exact List.mem_cons_self)).of_view
      (setWake_same (s.unlinkBlock (t, b)) t b st)
    have hty' : (((s.unlinkBlock (t, b)).setWake t b st).disp m).type = .mutant := hty
    simp only [if_pos hty']
    have hgive : Unlinked none (((s.unlinkBlock (t, b)).setWake t b st).giveMutex m t
        (st = statusAbandoned)) t := by
      refine ⟨giveMutex_inv hu.inv hm hty' hu.lt hu.live _, hu.lt, ?_, fun d => ?_⟩
      · rw [giveMutex_state]
        exact hu.live
      · rw [giveMutex_waitList]
        exact hu.noSingle d
    exact hgive.wake

theorem giveMutex_kept (s : Kernel) (m t : Nat) (a : Bool) (hm : P m) :
    Kept P s (s.giveMutex m t a) := by
  have h : Kept P s (s.modDisp m fun x =>
      { x with owner := some t, recursion := 1, abandoned := a, signalState := 0 }) :=
    Kept.modDisp s m rfl (.inl hm)
  exact h.trans (.of_disp rfl rfl rfl rfl)

theorem keptRule (P : Nat → Prop) (d : Nat) :
    Rule fun s s' => (s.disp d).type ≠ .mutant ∨ P d → Kept P s s' :=
  ⟨fun s _ => .refl s, fun _ _ _ h1 h2 hd => (h1 hd).trans (h2 (by rwa [(h1 hd).type]))⟩

theorem dispWakeOne_kept (s : Kernel) (st : StatusCode) (hd : (s.disp d).type ≠ .mutant ∨ P d) :
    Kept P s (s.dispWakeOne d st) := by
  refine (keptRule P d).dispWakeOne (fun s t b _ => ?_) (fun s t a hm hd => ?_)
    (fun s t _ _ => schedReady_kept s t) s hd
  · exact (Kept.unlinkBlock s (t, b)).trans (.of_view (setWake_same _ _ _ _))
  · exact giveMutex_kept s d t a (hd.resolve_left fun hn => hn hm)

theorem modDisp_inv (h : Inv x y s) (hd : (s.disp d).type ≠ .mutant)
    (hty : (f (s.disp d)).type = (s.disp d).type)
    (hl : (f (s.disp d)).waitList = (s.disp d).waitList) : Inv x y (s.modDisp d f) := by
  rw [Inv, modDisp_waitView]
  refine h.setDisp hty (fun b hb => ?_) fun hm => absurd (hty.symm.trans hm) hd
  rw [hl] at hb
  exact h.holds d b hb

theorem modSignal_kept (s : Kernel) (d : Nat) (f : Disp → Int) :
    Kept P s (s.modDisp d fun x => { x with signalState := f x }) :=
  Kept.modDisp s d rfl (.inr fun _ ho => ⟨ho, le_rfl⟩)

/-! ## Mutexes -/

/-- A mutex that is on no list is free, or goes to the first of those that wait for it. -/
theorem handOn_inv (h : Inv (some m) none s) (hm : m < s.ndisp) (hty : (s.disp m).type = .mutant)
    (ho : (s.disp m).owner = none) (hr : (s.disp m).recursion = 0) (st : StatusCode) :
    Inv none none
      (if (s.disp m).waitList = [] then s.modDisp m fun x => { x with signalState := 1 }
       else s.dispWakeOne m st) := by
  split
  · refine WaitInv.free (m := m) ?_ ?_ ?_ ?_
    · rw [modDisp_waitView]
      exact h.setDisp rfl (fun b hb => h.holds m b hb) fun _ hne => absurd rfl hne
    · simpa [waitView, modDisp] using ho
    · simpa [waitView, modDisp] using hr
    · simp [waitView, modDisp]
  · next hl => exact dispWakeOne_give h hm hty hl st

theorem handOn_kept (s : Kernel) (hm : P m) (st : StatusCode) :
    Kept P s (if (s.disp m).waitList = [] then s.modDisp m fun x => { x with signalState := 1 }
      else s.dispWakeOne m st) := by
  split
  · exact modSignal_kept s m fun _ => 1
  · exact dispWakeOne_kept s st (.inr hm)

theorem disown_inv (h : Inv none y s) (hty : (f (s.disp m)).type = (s.disp m).type)
    (hl : (f (s.disp m)).waitList = (s.disp m).waitList) :
    Inv (some m) y ((s.keMutexDisown m).modDisp m f) := by
  rw [Inv, modDisp_waitView, keMutexDisown_waitView]
  have hd := h.disown (m := m) (.inl rfl)
  refine hd.setDisp hty (fun b hb => ?_) fun _ hne => absurd rfl hne
  have hb' : b ∈ (s.disp m).waitList := hl ▸ hb
  exact hd.holds m b hb'

theorem abandon_inv (h : Inv none none s) (hm : m < s.ndisp) (hty : (s.disp m).type = .mutant) :
    Inv none none (s.abandon m) := by
  unfold abandon
  simp only
  obtain ⟨s₁, hs1⟩ : ∃ s₁, (s.keMutexDisown m).modDisp m (fun x =>
      { x with owner := none, recursion := 0, abandoned := true }) = s₁ := ⟨_, rfl⟩
  have hd : s₁.disp m = { s.disp m with owner := none, recursion := 0, abandoned := true } := by
    simp [← hs1, modDisp, keMutexDisown]
  have h1 : Inv (some m) none s₁ := hs1 ▸ disown_inv h rfl rfl
  rw [hs1]
  have hm1 : m < s₁.ndisp := hs1 ▸ hm
  split
  · next hl =>
    have h2 : Inv (some m) none (s₁.modDisp m fun x => { x with signalState := 0 }) := by
      rw [Inv, modDisp_waitView]
      exact h1.setDisp rfl (fun b hb => h1.holds m b hb) fun _ hne => absurd rfl hne
    exact dispWakeOne_give h2 hm1 (by simp [modDisp, hd, hty]) (by simpa [modDisp] using hl) _
  · next hl =>
    push Not at hl
    have := handOn_inv h1 hm1 (by rw [hd]; exact hty) (by rw [hd]) (by rw [hd]) statusSuccess
    rwa [if_pos hl] at this

theorem abandon_kept (s : Kernel) (hm : P m) : Kept P s (s.abandon m) := by
  have h0 : Kept P s (s.keMutexDisown m) := .of_disp rfl rfl rfl rfl
  have h1 : Kept P s ((s.keMutexDisown m).modDisp m fun x =>
      { x with owner := none, recursion := 0, abandoned := true }) :=
    h0.trans (.modDisp _ m rfl (.inl hm))
  unfold abandon
  simp only
  split
  · exact (h1.trans (modSignal_kept _ m fun _ => 0)).trans (dispWakeOne_kept _ _ (.inr hm))
  · exact h1.trans (modSignal_kept _ m fun _ => 1)

/-- Functions that only take blocks off. -/
def Fewer (s s' : Kernel) : Prop :=
  ∀ d, ∀ b ∈ (s'.disp d).waitList, b ∈ (s.disp d).waitList

theorem NoBlocks.fewer (h : s.waitView.NoBlocks t) (hf : Fewer s s') : s'.waitView.NoBlocks t :=
  fun d b hb => h d b (hf d b hb)

theorem fewerRule : Rule Fewer := ⟨fun _ _ _ hb => hb, fun _ _ _ h1 h2 d b hb => h1 d b (h2 d b hb)⟩

theorem dispWakeOne_fewer (s : Kernel) (d : Nat) (st : StatusCode) : Fewer s (s.dispWakeOne d st) := by
  refine fewerRule.dispWakeOne (fun s t b e c hc => ?_) (fun s t a _ e c hc => ?_)
    (fun s t _ e c hc => ?_) s
  · exact List.mem_of_mem_filter (show c ∈ ((s.unlinkBlock (t, b)).disp e).waitList from hc)
  · rwa [giveMutex_waitList] at hc
  · rwa [schedReady_disp] at hc

theorem modDisp_fewer (s : Kernel) (d : Nat) (hl : (f (s.disp d)).waitList = (s.disp d).waitList) :
    Fewer s (s.modDisp d f) := by
  intro e b hb
  by_cases he : e = d
  · subst he
    simpa [modDisp, hl] using hb
  · simpa [modDisp, he] using hb

theorem Fewer.trans {s₁ s₂ s₃ : Kernel} (h1 : Fewer s₁ s₂) (h2 : Fewer s₂ s₃) : Fewer s₁ s₃ :=
  fun d b hb => h1 d b (h2 d b hb)

theorem abandon_fewer (s : Kernel) (m : Nat) : Fewer s (s.abandon m) := by
  have h1 : Fewer s ((s.keMutexDisown m).modDisp m fun x =>
      { x with owner := none, recursion := 0, abandoned := true }) :=
    modDisp_fewer (s.keMutexDisown m) m rfl
  unfold abandon
  simp only
  split
  · exact (h1.trans (modDisp_fewer _ m rfl)).trans (dispWakeOne_fewer _ _ _)
  · exact h1.trans (modDisp_fewer _ m rfl)

theorem schedReady_owned (s : Kernel) (t u : Nat) :
    ((s.schedReady t).thread u).ownedMutexes = (s.thread u).ownedMutexes := by
  unfold schedReady
  split
  · rfl
  · rw [show ((((s.setState t .ready).readyInsert t).preempt t).thread u).ownedMutexes = _ from
      congrArg ThreadWaits.owned (congrFun (congrArg WaitView.thread (preempt_same _ t)) u)]
    by_cases hu : u = t <;> simp [waitView, Thread.waits, readyInsert, setState, modThread, hu]

theorem dispWakeOne_owned (h : s.waitView.NoBlocks t) (d : Nat) (st : StatusCode) :
    ((s.dispWakeOne d st).thread t).ownedMutexes.Sublist (s.thread t).ownedMutexes := by
  unfold dispWakeOne
  split
  · exact .refl _
  · next u b _ he =>
    have hu : t ≠ u := (h d (u, b) (by
      rw [show (s.waitView.disp d).waitList = _ from he]
      exact List.mem_cons_self)).symm
    have h1 : (((s.unlinkBlock (u, b)).setWake u b st).thread t).ownedMutexes =
        (s.thread t).ownedMutexes := by
      simp [setWake, modThread, hu, unlinkBlock]
    have h2 : ((((s.unlinkBlock (u, b)).setWake u b st).giveMutex d u
        (st = statusAbandoned)).thread t).ownedMutexes.Sublist (s.thread t).ownedMutexes := by
      rw [← h1]
      simp only [giveMutex, keMutexOwn, modThread, update_of_ne hu, keMutexDisown]
      exact List.filter_sublist
    simp only
    split
    · split
      · rw [schedReady_owned]
        exact h2
      · exact h2
    · split
      · rw [schedReady_owned, h1]
      · rw [h1]

theorem abandon_owned (h : s.waitView.NoBlocks t) (m : Nat) :
    ((s.abandon m).thread t).ownedMutexes.Sublist ((s.thread t).ownedMutexes.filter (· ≠ m)) := by
  unfold abandon
  simp only
  split
  · have hno : ∀ f g : Disp → Disp, (∀ x, (f x).waitList = x.waitList) →
        (∀ x, (g x).waitList = x.waitList) →
        (((s.keMutexDisown m).modDisp m f).modDisp m g).waitView.NoBlocks t := fun f g hf hg =>
      NoBlocks.fewer h ((modDisp_fewer (s.keMutexDisown m) m (hf _)).trans
        (modDisp_fewer _ m (hg _)))
    exact dispWakeOne_owned (hno _ _ (by simp) (by simp)) m statusAbandoned
  · exact .refl _

/-- `ke_mutex_abandon_owned` comes to an end: each round leaves the thread fewer mutexes. -/
theorem abandonLoop_ok {k : Nat} (hno : s.waitView.NoBlocks t)
    (hk : (s.thread t).ownedMutexes.length ≤ k) : ∃ s', abandonLoop t k s = .ok s' := by
  induction k generalizing s with
  | zero =>
    unfold abandonLoop
    rw [if_pos (List.length_eq_zero_iff.1 (Nat.le_zero.1 hk))]
    exact ⟨s, rfl⟩
  | succ k ih =>
    unfold abandonLoop
    split
    · exact ⟨s, rfl⟩
    · next m l he =>
      apply ih (NoBlocks.fewer hno (abandon_fewer s m))
      have hfewer := (abandon_owned hno m).length_le
      have hshort : ((m :: l).filter (· ≠ m)).length ≤ l.length := by
        rw [List.filter_cons_of_neg (by simp)]
        exact List.length_filter_le _ l
      rw [he] at hfewer hk
      exact (hfewer.trans hshort).trans (Nat.le_of_succ_le_succ hk)

theorem releaseLast_inv (h : Inv none none s) (hm : m < s.ndisp) (hty : (s.disp m).type = .mutant)
    (t : Nat) : Inv none none (s.releaseLast m t) := by
  unfold releaseLast Inv
  simp only
  rw [unboost_same]
  obtain ⟨s₁, hs1⟩ : ∃ s₁, (s.modDisp m fun x =>
      { x with recursion := 0, owner := none }).keMutexDisown m = s₁ := ⟨_, rfl⟩
  have hd : s₁.disp m = { s.disp m with recursion := 0, owner := none } := by
    simp [← hs1, modDisp, keMutexDisown]
  have h1 : Inv (some m) none s₁ := by
    rw [← hs1]
    exact disown_inv (f := fun x => { x with recursion := 0, owner := none }) h rfl rfl
  rw [hs1]
  exact handOn_inv h1 (hs1 ▸ hm) (by rw [hd]; exact hty) (by rw [hd]) (by rw [hd]) _

theorem releaseLast_kept (s : Kernel) (m t : Nat) : Kept (fun m' => m' = m) s (s.releaseLast m t) := by
  have h0 : Kept (fun m' => m' = m) s (s.modDisp m fun x =>
      { x with recursion := 0, owner := none }) := .modDisp s m rfl (.inl rfl)
  have h1 : Kept (fun m' => m' = m) s ((s.modDisp m fun x =>
      { x with recursion := 0, owner := none }).keMutexDisown m) :=
    h0.trans (.of_disp rfl rfl rfl rfl)
  have h2 := handOn_kept (P := fun m' => m' = m) ((s.modDisp m fun x =>
      { x with recursion := 0, owner := none }).keMutexDisown m) (m := m) rfl statusSuccess
  exact (h1.trans h2).trans (.of_view (unboost_same _ t))

/-! ## Unlinking -/

theorem unlinkBlock_fewer (s : Kernel) (b : Nat × BlockId) : Fewer s (s.unlinkBlock b) :=
  fun _ _ hc => List.mem_of_mem_filter hc

theorem unlinkBlock_inv (h : Inv x y s) (b : Nat × BlockId) : Inv x y (s.unlinkBlock b) :=
  h.shrink (unlinkBlock_fewer s b)

theorem notMem_unlinkBlock (s : Kernel) (b : Nat × BlockId) (d : Nat) :
    b ∉ ((s.unlinkBlock b).disp d).waitList := by
  simp [unlinkBlock]

theorem unlinkMulti_thread (t n : Nat) (s : Kernel) :
    ∃ multi, ((unlinkMulti t n s).thread t).waits = { (s.thread t).waits with multi } ∧
      ∀ i, n ≤ i → multi i = (s.thread t).waits.multi i := by
  induction n with
  | zero => exact ⟨_, rfl, fun _ _ => rfl⟩
  | succ n ih =>
    obtain ⟨multi, hw, hm⟩ := ih
    unfold unlinkMulti
    simp only
    split
    · exact ⟨multi, hw, fun i hi => hm i (by omega)⟩
    · refine ⟨update multi n none, ?_, fun i hi => ?_⟩
      · have hf : ∀ th : Thread, (th.modBlock (.multi n) fun x => { x with object := none }).waits =
            { th.waits with multi := update th.waits.multi n none } := by
          intro th
          simp only [Thread.waits, Thread.modBlock]
          congr 1
          funext j
          by_cases hj : j = n <;> simp [hj]
        simp only [modThread, update_self, hf]
        rw [show ((unlinkMulti t n s).unlinkBlock (t, .multi n)).thread t =
          (unlinkMulti t n s).thread t from rfl, hw]
      · rw [update_of_ne (by omega)]
        exact hm i (by omega)

theorem unlinkMulti_spec (t n : Nat) (h : Inv x none s) :
    Inv x none (unlinkMulti t n s) ∧ Fewer s (unlinkMulti t n s) ∧
      (∀ i < n, ∀ d, (t, BlockId.multi i) ∉ ((unlinkMulti t n s).disp d).waitList) := by
  induction n with
  | zero => exact ⟨h, fun _ _ hb => hb, fun _ hi => absurd hi (Nat.not_lt_zero _)⟩
  | succ n ih =>
    obtain ⟨h1, hf, hno⟩ := ih
    unfold unlinkMulti
    simp only
    split
    · next hn =>
      refine ⟨h1, hf, fun i hi d hm => ?_⟩
      by_cases hin : i = n
      · subst hin
        obtain ⟨-, -, -, hne, -⟩ := h1.holds d _ hm (by simp)
        exact hne hn
      · exact hno i (by omega) d hm
    · have h2 := unlinkBlock_inv h1 (t, .multi n)
      have hgone : ∀ i < n + 1, ∀ d, (t, BlockId.multi i) ∉
          (((unlinkMulti t n s).unlinkBlock (t, .multi n)).disp d).waitList := by
        intro i hi d hm
        by_cases hin : i = n
        · subst hin
          exact notMem_unlinkBlock _ _ d hm
        · exact hno i (by omega) d (unlinkBlock_fewer _ _ d _ hm)
      refine ⟨?_, hf.trans (unlinkBlock_fewer _ _), hgone⟩
      rw [Inv, modThread_waitView]
      refine h2.setThread (fun d b hb _ => ?_) (fun hy => h2.count t hy) rfl
        (fun _ => ⟨rfl, rfl⟩) (fun hs => ?_) (fun hle => h2.fresh t hle) (h2.names t)
      · have hh := h2.holds d _ hb (by simp)
        cases b with
        | single => exact hh
        | multi i =>
          obtain ⟨h3, h4, h5, h6, h7⟩ := hh
          refine ⟨h3, h4, h5, ?_, h7⟩
          have hin : i ≠ n := by
            rintro rfl
            exact hgone i (Nat.lt_succ_self i) d hb
          simpa [Thread.waits, Thread.modBlock, hin, waitView] using h6
      · by_contra hne
        obtain ⟨m, hm⟩ := List.exists_mem_of_ne_nil _ hne
        exact (h2.owner_of_mem hm).2.2 hs

theorem threadUnlinkWaits_spec (h : Inv x none s) (t : Nat) :
    Inv x none (s.threadUnlinkWaits t) ∧ (s.threadUnlinkWaits t).waitView.NoBlocks t ∧
      Fewer s (s.threadUnlinkWaits t) := by
  have hlive : (s.thread t).state = .terminated → (s.thread t).ownedMutexes = [] := fun hs => by
    by_contra hne
    obtain ⟨m, hm⟩ := List.exists_mem_of_ne_nil _ hne
    exact (h.owner_of_mem hm).2.2 hs
  unfold threadUnlinkWaits
  split
  · next hn =>
    obtain ⟨h1, hf, hno⟩ := unlinkMulti_spec t (s.thread t).waitMultiCount h
    obtain ⟨multi, hw, -⟩ := unlinkMulti_thread t (s.thread t).waitMultiCount s
    have hblocks : (unlinkMulti t (s.thread t).waitMultiCount s).waitView.NoBlocks t := by
      rintro d ⟨u, b⟩ hb hu
      simp only at hu
      subst hu
      have hh := h1.holds d _ hb (by simp)
      rw [show (unlinkMulti u (s.thread u).waitMultiCount s).waitView.thread u = _ from hw] at hh
      cases b with
      | single => exact hn hh.2.2.1
      | multi i => exact hno i hh.2.2.1 d hb
    refine ⟨?_, hblocks, hf⟩
    rw [Inv, modThread_waitView]
    refine h1.setThread (fun d b hb _ => absurd rfl (hblocks d _ hb)) (fun _ _ => rfl) rfl
      (fun _ => ⟨rfl, rfl⟩) (fun hs => ?_) (fun hle => h1.fresh t hle) (h1.names t)
    by_contra hne
    obtain ⟨m, hm⟩ := List.exists_mem_of_ne_nil _ hne
    exact (h1.owner_of_mem hm).2.2 hs
  · next hn =>
    push Not at hn
    split
    · next ho =>
      refine ⟨h, ?_, fun _ _ hb => hb⟩
      rintro d ⟨u, b⟩ hb hu
      simp only at hu
      subst hu
      have hh := h.holds d _ hb (by simp)
      cases b with
      | single => exact hh.2.2.2 ho
      | multi i => exact absurd hh.2.2.1 (by simp [waitView, Thread.waits, hn])
    · have h1 := unlinkBlock_inv h (t, .single)
      have hblocks : (s.unlinkBlock (t, .single)).waitView.NoBlocks t := by
        rintro d ⟨u, b⟩ hb hu
        simp only at hu
        subst hu
        have hh := h1.holds d _ hb (by simp)
        cases b with
        | single => exact notMem_unlinkBlock _ _ d hb
        | multi i => exact absurd hh.2.2.1 (by simp [waitView, Thread.waits, unlinkBlock, hn])
      refine ⟨?_, hblocks, unlinkBlock_fewer _ _⟩
      rw [Inv, modThread_waitView]
      exact h1.setThread (fun d b hb _ => absurd rfl (hblocks d _ hb)) (fun hy => h1.count t hy)
        rfl (fun _ => ⟨rfl, rfl⟩) hlive (fun hle => h1.fresh t hle) (h1.names t)

/-! ## Switching -/

theorem restate_inv (h : Inv x none s) {f : Thread → Thread} {st : ThreadState}
    (hold : (s.thread t).state = .ready ∨ (s.thread t).state = .running)
    (hnew : st = .ready ∨ st = .running)
    (hf : (f (s.thread t)).waits = { (s.thread t).waits with state := st }) :
    Inv x none (s.modThread t f) := by
  rw [Inv, modThread_waitView, hf]
  refine h.setThread (fun d b hb _ => ?_) (fun hy => h.count t hy) rfl
    (fun _ => ⟨rfl, rfl⟩) (fun hs => ?_) (fun hle => ?_) (h.names t)
  · have hh := h.holds d _ hb (by simp)
    cases b with
    | single =>
      have hw : (s.thread t).state = .waiting := hh.1
      rw [hw] at hold
      simp at hold
    | multi i =>
      refine ⟨?_, ?_, hh.2.2⟩ <;> rcases hnew with rfl | rfl <;> simp
  · rcases hnew with rfl | rfl <;> cases hs
  · have hu : (s.thread t).state = .unused := h.fresh t hle
    rw [hu] at hold
    simp at hold

theorem schedReschedule_inv (h : Inv x none s) (hc : ReadyCore s.schedView) :
    Inv x none s.schedReschedule := by
  obtain ⟨n, hn, hready⟩ := hc.next
  unfold schedReschedule
  simp only [show s.ready.popHighest.1.getD s.idle = n from hn]
  split
  · exact h
  · next hcur =>
    -- the current thread, if it is put back, is not the next one
    have hback : Inv x none (putBack { s with needResched := false, ready := s.ready.popHighest.2 }) ∧
        (((putBack { s with needResched := false, ready := s.ready.popHighest.2 }).thread n).state =
          (s.thread n).state) := by
      rcases putBack_cases { s with needResched := false, ready := s.ready.popHighest.2 } with
        ⟨he, -⟩ | ⟨c, hcc, hrun, hcase⟩
      · rw [he]
        exact ⟨h, rfl⟩
      · have hnc : n ≠ c := by
          rintro rfl
          exact hcur hcc
        have h1 : Inv x none (setState { s with needResched := false, ready := s.ready.popHighest.2 }
            c .ready) :=
          restate_inv (s := { s with needResched := false, ready := s.ready.popHighest.2 }) h
            (.inr hrun) (.inl rfl) rfl
        have hst : ((setState { s with needResched := false, ready := s.ready.popHighest.2 }
            c .ready).thread n).state = (s.thread n).state := by
          simp [setState, modThread, hnc]
        rcases hcase with ⟨-, he⟩ | ⟨-, he⟩ <;> rw [he] <;> exact ⟨h1, hst⟩
    have hsw : ∀ s₁ : Kernel, (s₁.switchTo n).waitView = (s₁.modThread n fun th =>
        { th with
          state := .running
          quantumLeft := if th.priority ≥ priorityRealtime then 0xFFFF else quantumTicks
          }).waitView := fun _ => rfl
    rw [Inv, hsw]
    refine restate_inv (t := n) hback.1 ?_ (.inr rfl) rfl
    rw [hback.2]
    exact hready

theorem schedReschedule_disp (s : Kernel) :
    s.schedReschedule.disp = s.disp ∧ s.schedReschedule.ndisp = s.ndisp ∧
      s.schedReschedule.nprocess = s.nprocess ∧ s.schedReschedule.nthread = s.nthread := by
  unfold schedReschedule
  simp only
  split
  · exact ⟨rfl, rfl, rfl, rfl⟩
  · rcases putBack_cases { s with needResched := false, ready := s.ready.popHighest.2 } with
      ⟨he, -⟩ | ⟨c, -, -, ⟨-, he⟩ | ⟨-, he⟩⟩ <;> rw [he] <;> exact ⟨rfl, rfl, rfl, rfl⟩

theorem schedReschedule_kept (s : Kernel) : Kept P s s.schedReschedule := by
  obtain ⟨h1, h2, h3, h4⟩ := schedReschedule_disp s
  exact .of_disp h1 h2 h3 h4

theorem schedReschedule_state (hc : ReadyCore s.schedView) {u : Nat}
    (hr : (s.thread u).state ≠ .ready) (hn : (s.thread u).state ≠ .running) :
    (s.schedReschedule.thread u).state = (s.thread u).state := by
  obtain ⟨n, hne, hready⟩ := hc.next
  have hun : u ≠ n := by
    rintro rfl
    exact hready.elim hr hn
  unfold schedReschedule
  simp only [show s.ready.popHighest.1.getD s.idle = n from hne]
  split
  · rfl
  · simp only [switchTo, modThread, update_of_ne hun]
    rcases putBack_cases { s with needResched := false, ready := s.ready.popHighest.2 } with
      ⟨he, -⟩ | ⟨c, -, hrun, hcase⟩
    · rw [he]
    · have huc : u ≠ c := by
        rintro rfl
        exact hn hrun
      rcases hcase with ⟨-, he⟩ | ⟨-, he⟩ <;> rw [he] <;>
        simp [readyInsert, setState, modThread, huc]

/-! ## Ending threads -/

theorem modProcess_same (s : Kernel) (p : Nat) {f : Process → Process}
    (hd : (f (s.process p)).disp = (s.process p).disp)
    (hc : (f (s.process p)).closes = (s.process p).closes) :
    (s.modProcess p f).waitView = s.waitView := by
  simp only [waitView, modProcess]
  congr 1
  funext q
  by_cases hq : q = p <;> simp [hq, hd, hc]

theorem threadUnlinkWaits_owned (s : Kernel) (t u : Nat) :
    ((s.threadUnlinkWaits t).thread u).ownedMutexes = (s.thread u).ownedMutexes := by
  have hmod : ∀ (s : Kernel) f, (∀ th, (f th).ownedMutexes = th.ownedMutexes) →
      ((s.modThread t f).thread u).ownedMutexes = (s.thread u).ownedMutexes := fun s f hf => by
    by_cases hu : u = t
    · subst hu
      simp [modThread, hf]
    · simp [modThread, hu]
  refine (Rule.of_view fun s => (s.thread u).ownedMutexes).threadUnlinkWaits (fun _ _ => rfl)
    (fun s b => hmod s _ fun _ => ?_) (fun s => hmod s _ fun _ => rfl) s
  cases b <;> rfl

theorem threadUnlinkWaits_kept (s : Kernel) (t : Nat) : Kept P s (s.threadUnlinkWaits t) := by
  have hrule : Rule (Kept P) := ⟨.refl, fun _ _ _ => .trans⟩
  exact hrule.threadUnlinkWaits (fun s b => .unlinkBlock s _)
    (fun _ _ => .of_disp rfl rfl rfl rfl) (fun _ => .of_disp rfl rfl rfl rfl) s

end Kernel

end Aegis
