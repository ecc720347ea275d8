import Aegis.Ke.Proof.BlockMoves

/-!
# A wait for several objects

`CallInv` says what the kernel's records of a call of `ke_wait_multiple` mean while its thread does
not run: a block that is linked has not been woken, a mutex whose block has been woken was not held
before and is held once, and every other mutex of the call is held as often as at its start.
`waitStep_call` is that every step keeps it.
-/

namespace Aegis

/-! ## The records of a call -/

def BlockView.Woken (v : BlockView) (i : Nat) : Prop := (v.thread.multi i).wakeStatus ≠ statusTimeout

/-- The call for `objs`, which started when the thread held the mutexes as in `base`. -/
structure InCall (base : Nat → Nat) (objs : List Nat) (v : BlockView) : Prop where
  length : objs.length ≤ waitObjectsMax
  names : ∀ d ∈ objs, d < v.ndisp
  linked : ∀ d b, v.linked d b → ∃ i, b = .multi i ∧ objs[i]? = some d ∧ ¬ v.Woken i
  held : ∀ d ∈ objs, v.held d = base d ∨ ∃ i, objs[i]? = some d ∧ v.Woken i
  woken : ∀ i d, objs[i]? = some d → v.Woken i → v.type d = .mutant → base d = 0 ∧ v.held d = 1
  status : v.thread.wait.wakeStatus = statusTimeout ↔ ∀ i < objs.length, ¬ v.Woken i
  waiting : v.thread.waiting → ∀ i < objs.length, ¬ v.Woken i

def CallInv (base : Nat → Nat) (v : BlockView) : Prop :=
  ∀ objs waitAll, v.thread.cont = .waitMultiple objs waitAll → v.thread.killPending = false →
    InCall base objs v

namespace CallInv

variable {base : Nat → Nat} {v w : BlockView}

theorem of_out (h : v.Out) : CallInv base v := by
  intro objs waitAll hcont hk
  rcases h with hkp | ⟨-, hno⟩
  · rw [hk] at hkp
    cases hkp
  · exact absurd hcont (hno objs waitAll)

theorem grow (hg : v.Grown w) (h : CallInv base v) : CallInv base w := by
  intro objs waitAll hcont hk
  have hth := hg.thread
  rw [hth] at hcont hk
  have hin := h objs waitAll hcont hk
  have hwoken : ∀ i, w.Woken i ↔ v.Woken i := fun i => by rw [BlockView.Woken, hth, BlockView.Woken]
  refine ⟨hin.length, fun d hd => (hin.names d hd).trans_le hg.ndisp, fun d b hb => ?_, fun d hd => ?_,
    fun i d hi hw hty => ?_, ?_, fun hw i hi => ?_⟩
  · simpa only [hwoken] using hin.linked d b (hg.linked d b hb)
  · simpa only [hwoken, hg.held d (hin.names d hd)] using hin.held d hd
  · have hd := hin.names d (List.mem_of_getElem? hi)
    rw [hg.type d hd] at hty
    rw [hg.held d hd]
    exact hin.woken i d hi ((hwoken i).1 hw) hty
  · simpa only [hwoken, hth] using hin.status
  · rw [hth] at hw
    exact fun hi' => hin.waiting hw i hi ((hwoken i).1 hi')

theorem wake {b : BlockId} {d : Nat} {st : StatusCode} (hl : v.linked d b) (hst : st ≠ statusTimeout)
    (hty : v.type d = .mutant → v.held d = 0) (h : CallInv base v) :
    CallInv base (v.wake b d st) := by
  intro objs waitAll hcont hk
  have hin := h objs waitAll hcont hk
  obtain ⟨i, rfl, hobj, hnot⟩ := hin.linked d _ hl
  have hself : (v.wake (.multi i) d st).Woken i := by
    simpa [BlockView.Woken, BlockView.wake] using hst
  have hother : ∀ j, j ≠ i → ((v.wake (.multi i) d st).Woken j ↔ v.Woken j) := fun j hj => by
    simp [BlockView.Woken, BlockView.wake, Ne.symm hj]
  have hmono : ∀ j, v.Woken j → (v.wake (.multi i) d st).Woken j := fun j hj => by
    by_cases hji : j = i
    · exact hji ▸ hself
    · exact (hother j hji).2 hj
  have hheld : ∀ e, (v.wake (.multi i) d st).held e =
      if e = d ∧ v.type d = .mutant then 1 else v.held e := fun e => by
    unfold BlockView.wake
    by_cases hm : v.type d = .mutant
    · by_cases he : e = d <;> simp [hm, he]
    · simp [hm]
  have hlt : i < objs.length := (List.getElem?_eq_some_iff.1 hobj).1
  refine ⟨hin.length, hin.names, fun e b hb => ?_, fun e he => ?_, fun j e hje hw hm => ?_, ?_,
    fun hw => absurd hw id⟩
  · obtain ⟨hb1, hne⟩ : v.linked e b ∧ b ≠ .multi i := hb
    obtain ⟨j, rfl, hje, hw⟩ := hin.linked e b hb1
    refine ⟨j, rfl, hje, fun hw' => hw ((hother j ?_).1 hw')⟩
    exact fun he => hne (by rw [he])
  · rw [hheld]
    by_cases hed : e = d ∧ v.type d = .mutant
    · exact .inr ⟨i, hed.1 ▸ hobj, hself⟩
    · rw [if_neg hed]
      rcases hin.held e he with hb | ⟨j, hje, hw⟩
      · exact .inl hb
      · exact .inr ⟨j, hje, hmono j hw⟩
  · replace hm : v.type e = .mutant := hm
    rw [hheld]
    by_cases hed : e = d
    · subst hed
      -- the mutex was free of the thread, so its block had not been woken before
      rw [if_pos ⟨rfl, hm⟩]
      refine ⟨?_, rfl⟩
      rcases hin.held e (List.mem_of_getElem? hobj) with hb | ⟨k, hk, hw⟩
      · exact hb.symm.trans (hty hm)
      · exact (hin.woken k e hk hw hm).1
    · have hji : j ≠ i := fun he => by
        rw [he, hobj] at hje
        exact hed (Option.some.inj hje).symm
      rw [if_neg fun hc => hed hc.1]
      exact hin.woken j e hje ((hother j hji).1 hw) hm
  · exact iff_of_false hst fun hall => hall i hlt hself

theorem expire (hw : v.thread.waiting) (ht : v.TimedOut w) (h : CallInv base v) :
    CallInv base w := by
  intro objs waitAll hcont hk
  have hin := h objs waitAll (ht.cont ▸ hcont) (ht.killPending ▸ hk)
  have hwoken : ∀ i, w.Woken i ↔ v.Woken i := fun i => by
    rw [BlockView.Woken, ht.multi, BlockView.Woken]
  have hno := hin.waiting hw
  have hstatus : w.thread.wait.wakeStatus = statusTimeout := by
    rcases ht.status with hs | hs
    · exact hs
    · exact hs.trans (hin.status.2 hno)
  have hrest : w.held = v.held ∧ w.type = v.type ∧ w.ndisp = v.ndisp := by
    rw [ht.rest]
    exact ⟨rfl, rfl, rfl⟩
  refine ⟨hin.length, fun d hd => hrest.2.2 ▸ hin.names d hd, fun d b hb => ?_, fun d hd => ?_,
    fun i d hi hi' => ?_, iff_of_true hstatus fun i hi => ?_, fun h => absurd h ht.waiting⟩
  · simpa only [hwoken] using hin.linked d b (ht.linked d b hb)
  · simpa only [hwoken, hrest.1] using hin.held d hd
  · rw [hrest.1, hrest.2.1]
    exact hin.woken i d hi ((hwoken i).1 hi')
  · rw [hwoken]
    exact hno i hi

theorem start (hno : ∀ d b, ¬ v.linked d b) {objs : List Nat} (hlen : objs.length ≤ waitObjectsMax)
    (hd : ∀ d ∈ objs, d < v.ndisp) (hbase : v.held = base) (waitAll : Bool) (timeout : Nat) :
    CallInv base (v.waitMultiple objs waitAll timeout) := by
  intro objs' waitAll' hcont _
  cases hcont
  have hasleep : ∀ i < objs.length, ¬ (v.waitMultiple objs waitAll timeout).Woken i := fun i hi => by
    simp [BlockView.Woken, BlockView.waitMultiple, BlockView.queue, hi]
  refine ⟨hlen, hd, fun d b hb => ?_, fun d _ => .inl (congrFun hbase d), fun i d hi hw => ?_,
    iff_of_true rfl hasleep, fun _ => hasleep⟩
  · rcases hb with hb | ⟨j, rfl, hj⟩
    · exact absurd hb (hno d b)
    · exact ⟨j, by rw [Nat.zero_add], hj, hasleep j (List.getElem?_eq_some_iff.1 hj).1⟩
  · exact absurd hw (hasleep i (List.getElem?_eq_some_iff.1 hi).1)

end CallInv

namespace Kernel

variable {s s' : Kernel} {t : Nat}

theorem callRule {x : Scope} {base : Nat → Nat} (hbase : s.current = some t →
      ∀ objs waitAll timeout, x.enters (.waitMultiple objs waitAll) timeout → base = s.held t) :
    ViewRule s t x (CallInv base) (CallInv base) where
  left _ _ h _ := .of_out h.out
  wake _ _ _ _ _ hl hst hty := .wake hl hst hty
  expire _ _ _ he ht := .expire he.1 ht
  done _ := id
  single _ _ _ _ _ _ _ := fun _ _ hc => by cases hc
  multi _ objs waitAll timeout hc hheld hx hd hlen hno :=
    .start hno hlen hd (hheld.trans (hbase hc objs waitAll timeout hx).symm) waitAll timeout

/-! ## The end of a call -/

theorem unlinkBlocks_disp (u n : Nat) (s : Kernel) (d : Nat) :
    ∃ l, (unlinkBlocks u n s).disp d = { s.disp d with waitList := l } := by
  induction n with
  | zero => exact ⟨_, rfl⟩
  | succ n ih =>
    obtain ⟨l, hl⟩ := ih
    rw [unlinkBlocks_succ]
    refine ⟨l.filter (· ≠ (u, .multi n)), ?_⟩
    rw [unlinkBlock]
    simp only [hl]

/-- The blocks of a thread are off. -/
def Back (s s₂ : Kernel) : Prop := ∀ d, ∃ l, s₂.disp d = { s.disp d with waitList := l }

theorem resume_back (hc : s.current = some t) (hk : (s.thread t).killPending = false)
    {objs : List Nat} {waitAll : Bool} (hcont : (s.thread t).cont = .waitMultiple objs waitAll) :
    ∃ s2, Back s s2 ∧ s.resume =
      .ok (if (s.thread t).wait.wakeStatus = statusTimeout then (some statusTimeout, s2)
        else if waitAll then (some statusSuccess, takeAll t objs s2)
        else (some (whichWoken (s.thread t) objs.length), s2)) := by
  refine ⟨s.multiDone t objs, fun d => unlinkBlocks_disp t objs.length _ d, ?_⟩
  unfold resume
  simp only [hc, hk, hcont, finishMultiple_eq]
  by_cases hst : (s.thread t).wait.wakeStatus = statusTimeout
  · simp [hst]
  · cases waitAll <;> simp [hst]

end Kernel

/-! ## Steps -/

open Kernel

/-- Every step keeps the records of every thread, with `ke_wait_multiple` as the start of a call. -/
theorem waitStep_call {w w' : WaitSys} {op : KeOp} (h : Inv none none w.ke) (hready : ReadyInv w.ke)
    (hok : WaitOk w op) {t : Nat} (hcall : CallInv (w.base t) (w.ke.blockView t))
    (hr : waitStep w op = some w') : CallInv (w'.base t) (w'.ke.blockView t) := by
  obtain ⟨s', hs, rfl⟩ := Option.map_eq_some_iff.1 hr
  have hstep : ∀ base, CallInv base (w.ke.blockView t) → (w.ke.current = some t →
      ∀ objs waitAll timeout, (w.ke.scope op).enters (.waitMultiple objs waitAll) timeout →
        base = w.ke.held t) → CallInv base (s'.blockView t) := fun base hcall hbase => by
    obtain ⟨n, hn⟩ := w.ke.advance_eq op
    refine keStep_view (callRule ?_) (fun _ _ => .grow) ⟨hready.core, h⟩ hready.runs hok.1 hok.2 hs ?_
    · rw [hn]
      exact hbase
    · rw [hn]
      exact CallInv.grow (v := w.ke.blockView t)
        ⟨rfl, fun _ _ => id, fun _ _ => rfl, fun _ _ => rfl, le_rfl⟩ hcall
  cases op with
  | waitMultiple objs waitAll timeout =>
    have hbase : w.enter t = if w.ke.current = some t then w.ke.held t else w.base t := by
      unfold WaitSys.enter
      cases hcur : w.ke.current with
      | none => simp
      | some c =>
        by_cases hct : c = t
        · simp [hct]
        · simp [hct, Ne.symm hct]
    simp only [hbase]
    refine hstep _ ?_ fun hc _ _ _ _ => if_pos hc
    split
    · next hc =>
      -- a thread that calls has no records
      exact .of_out (out_code (.inl (hok.1.2 t hc).1))
    · exact hcall
  | wait d timeout => exact hstep _ hcall fun _ _ _ _ he => by cases he.1
  | _ => exact hstep _ hcall fun _ _ _ _ he => he.elim

end Aegis
