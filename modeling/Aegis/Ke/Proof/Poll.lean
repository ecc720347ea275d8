import Aegis.Ke.Proof.MultiWait

/-!
# Polling several objects

A `WAIT_ALL` with timeout 0 checks the objects in a first pass and takes them in a second one. With
nothing in between, it takes all of them or none (`waitAll_poll`).
-/

namespace Aegis

namespace Disp

/-- The object is there for `t` to take. -/
def Satisfied (x : Disp) (t : Nat) : Prop :=
  x.signalState > 0 ∨ x.type = .mutant ∧ x.owner = some t
  deriving Decidable

/-- The object when `t` has taken it. -/
def taken (x : Disp) (t : Nat) : Disp :=
  match x.type with
  | .mutant =>
    if x.owner = some t then { x with recursion := x.recursion + 1 }
    else { x with owner := some t, recursion := 1, signalState := 0, abandoned := false }
  | .synchronizationEvent | .timer => { x with signalState := 0 }
  | .notificationEvent | .thread | .process => x

end Disp

namespace Kernel

variable {s s' : Kernel} {t d : Nat}

theorem dispSatisfied_iff : s.dispSatisfied d t = true ↔ (s.disp d).Satisfied t := by
  unfold dispSatisfied Disp.Satisfied
  split
  · next h => exact iff_of_true rfl (.inr h)
  · next h => simp [h]

theorem tryWait_taken (hsat : (s.disp d).Satisfied t)
    (hfree : (s.disp d).type = .mutant → (s.disp d).owner ≠ some t → (s.disp d).signalState = 1) :
    (s.tryWait t d).2.disp d = (s.disp d).taken t := by
  unfold tryWait Disp.taken
  cases hty : (s.disp d).type with
  | mutant =>
    by_cases ho : (s.disp d).owner = some t
    · simp [hty, ho, modDisp]
    · simp [hty, ho, hfree hty ho, keMutexOwn, keMutexDisown, modThread, modDisp]
  | synchronizationEvent | timer | notificationEvent | thread | process =>
    have hs : (s.disp d).signalState > 0 := hsat.resolve_right fun h => by simp [hty] at h
    simp [hty, hs, modDisp]

theorem takeAll_taken {objs : List Nat} (hnd : objs.Nodup)
    (hobjs : ∀ e ∈ objs, (s.disp e).Satisfied t ∧ ((s.disp e).type = .mutant →
      (s.disp e).owner ≠ some t → (s.disp e).signalState = 1)) (hd : d ∈ objs) :
    (takeAll t objs s).disp d = (s.disp d).taken t := by
  induction objs generalizing s with
  | nil => cases hd
  | cons e es ih =>
    obtain ⟨hne, hes⟩ := List.nodup_cons.1 hnd
    show (takeAll t es (s.tryWait t e).2).disp d = _
    by_cases hde : d = e
    · subst hde
      obtain ⟨hsat, hfree⟩ := hobjs d List.mem_cons_self
      rw [takeAll_other t es hne, tryWait_taken hsat hfree]
    · have hother : ∀ f ∈ es, (s.tryWait t e).2.disp f = s.disp f := fun f hf =>
        tryWait_other s t fun hfe => hne (hfe ▸ hf)
      have hd' : d ∈ es := (List.mem_cons.1 hd).resolve_left hde
      rw [ih hes (fun f hf => ?_) hd', hother d hd']
      rw [hother f hf]
      exact hobjs f (List.mem_cons_of_mem e hf)

end Kernel

open Kernel

/-- **Polling.** In every state that the kernel reaches, a `WAIT_ALL` with timeout 0 of a thread that
is not killed succeeds iff each of its objects is there for the caller, and then takes each of them
and nothing else. Otherwise it times out and leaves the state as it is. -/
theorem waitAll_poll {ops : List KeOp}
    (hl : Run.Legal keStep (fun s op => KeOk s op ∧ ReadyOk s op) schedInit ops) {s : Kernel}
    (hr : Run.run keStep schedInit ops = some s) {t : Nat} (hc : s.current = some t)
    (hk : (s.thread t).killPending = false) {objs : List Nat} (hlen : 1 ≤ objs.length)
    (hmax : objs.length ≤ 16) (hnd : objs.Nodup) (hd : ∀ d ∈ objs, d < s.ndisp) :
    ((∀ d ∈ objs, (s.disp d).Satisfied t) → ∃ s',
      s.keWaitMultiple objs true 0 = .ok (some statusSuccess, s') ∧
      ∀ d, s'.disp d = if d ∈ objs then (s.disp d).taken t else s.disp d) ∧
    ((∃ d ∈ objs, ¬ (s.disp d).Satisfied t) →
      s.keWaitMultiple objs true 0 = .ok (some statusTimeout, s)) := by
  have hcount : ¬ (objs.length = 0 ∨ objs.length > waitObjectsMax) := by
    simp only [waitObjectsMax]
    omega
  have hall : (objs.all fun d => s.dispSatisfied d t) = true ↔ ∀ d ∈ objs, (s.disp d).Satisfied t := by
    simp only [List.all_eq_true, dispSatisfied_iff]
  unfold keWaitMultiple
  simp only [if_neg hcount, hc, hk, Bool.false_eq_true, if_false, if_true, hall]
  constructor
  · intro hsat
    refine ⟨takeAll t objs s, if_pos hsat, fun d => ?_⟩
    split
    · next hmem =>
      refine takeAll_taken hnd (fun e he => ⟨hsat e he, fun hty ho => ?_⟩) hmem
      rcases (reached_inv hl hr).2.exact.mutex e (hd e he) hty with hfree | ⟨u, hown⟩
      · exact hfree.signal
      · -- a mutex of another thread is not there
        rcases hsat e he with hs | ⟨-, hot⟩
        · rw [hown.signal] at hs
          exact absurd hs (lt_irrefl 0)
        · exact absurd hot ho
    · next hmem => exact takeAll_other t objs hmem
  · rintro ⟨d, hmem, hno⟩
    rw [if_neg fun hsat => hno (hsat d hmem)]

/-- The thread holds a mutex, and polls for it together with a second one and an event. -/
theorem waitAll_poll_mixed : ∃ s, Run.run keStep schedInit [.createThread 0 8 false, .yield, .resume,
      .createMutex true, .createMutex false, .createEvent true true] = some s ∧
    ∃ s', s.keWaitMultiple [3, 4, 5] true 0 = .ok (some statusSuccess, s') ∧
      ∀ d, s'.disp d = if d ∈ [3, 4, 5] then (s.disp d).taken 1 else s.disp d := by
  obtain ⟨s, hs, hc, hk, hd, hsat⟩ : ∃ s, Run.run keStep schedInit
      [.createThread 0 8 false, .yield, .resume, .createMutex true, .createMutex false,
        .createEvent true true] = some s ∧ s.current = some 1 ∧ (s.thread 1).killPending = false ∧
      (∀ d ∈ ([3, 4, 5] : List Nat), d < s.ndisp) ∧
      ∀ d ∈ ([3, 4, 5] : List Nat), (s.disp d).Satisfied 1 := by decide +kernel
  exact ⟨s, hs, (waitAll_poll (by decide +kernel) hs hc hk (by decide) (by decide) (by decide) hd).1
    hsat⟩

end Aegis
