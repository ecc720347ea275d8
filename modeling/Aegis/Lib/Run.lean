import Mathlib.Tactic

/-!
# Runs of a partial step function

A machine is a step function `step : σ → α → Option σ` (`none`: the step does not return) together
with the operations its callers may issue in a state, `ok : σ → α → Prop`. `run` folds the steps
of a list of operations; `Legal` says each of them is one the callers may issue in the state the
run has reached by then.

`run_inv`: what holds at the start and is kept by every legal step, with the step returning, holds
at the end of every legal run, with the run returning. `always_iff_legal`: what exactly the legal
steps keep holds in all states of exactly the legal runs.
-/

namespace Run

variable {σ α : Type} (step : σ → α → Option σ) (ok : σ → α → Prop)
variable {s s' : σ} {as : List α} {I P : σ → Prop} {env ok' : σ → α → Prop}

/-- The state after a list of operations. -/
def run : σ → List α → Option σ
  | s, [] => some s
  | s, a :: as => (step s a).bind fun s' => run s' as

/-- Every operation is legal in the state it is issued in. -/
def Legal : σ → List α → Prop
  | _, [] => True
  | s, a :: as => ok s a ∧ ∀ s', step s a = some s' → Legal s' as

/-- `P` holds in every state of the run. -/
def Always (P : σ → Prop) : σ → List α → Prop
  | s, [] => P s
  | s, a :: as => P s ∧ ∀ s', step s a = some s' → Always P s' as

instance decidableLegal [∀ s a, Decidable (ok s a)] :
    (s : σ) → (as : List α) → Decidable (Legal step ok s as)
  | _, [] => inferInstanceAs (Decidable True)
  | s, a :: as =>
    match h : step s a with
    | none => decidable_of_iff (ok s a) ⟨fun ha => ⟨ha, fun _ hs => by simp [h] at hs⟩, And.left⟩
    | some s' =>
      have := decidableLegal s' as
      decidable_of_iff (ok s a ∧ Legal step ok s' as)
        ⟨fun ha => ⟨ha.1, fun _ hs => by rw [h] at hs; cases hs; exact ha.2⟩,
          fun ha => ⟨ha.1, ha.2 s' h⟩⟩

/-- Whether a run ends in a state with a property is decided by making the run. -/
instance decidableEnds (r : Option σ) (P : σ → Prop) [DecidablePred P] :
    Decidable (∃ s, r = some s ∧ P s) := inferInstanceAs (Decidable (∃ s ∈ r, P s))

variable {step ok}

theorem run_cons {a : α} (h : step s a = some s') (as : List α) :
    run step s (a :: as) = run step s' as := by simp [run, h]

theorem legal_append {bs : List α} (h : Legal step ok s (as ++ bs)) (hr : run step s as = some s') :
    Legal step ok s as ∧ Legal step ok s' bs := by
  induction as generalizing s with
  | nil => cases hr; exact ⟨trivial, h⟩
  | cons a as ih =>
    obtain ⟨ha, hn⟩ := h
    simp only [run, Option.bind_eq_some_iff] at hr
    obtain ⟨s1, h1, h2⟩ := hr
    refine ⟨⟨ha, fun s2 hs2 => ?_⟩, (ih (hn s1 h1) h2).2⟩
    rw [h1] at hs2
    cases hs2
    exact (ih (hn s1 h1) h2).1

/-- **The invariant rule.** -/
theorem run_inv (hstep : ∀ s a, I s → ok s a → ∃ s', step s a = some s' ∧ I s') (hs : I s)
    (hl : Legal step ok s as) : ∃ s', run step s as = some s' ∧ I s' := by
  induction as generalizing s with
  | nil => exact ⟨s, rfl, hs⟩
  | cons a as ih =>
    obtain ⟨s1, h1, hi⟩ := hstep s a hs hl.1
    rw [run_cons h1]
    exact ih hi (hl.2 s1 h1)

theorem legal_of_forall (h : ∀ a ∈ as, ∀ s, ok s a) : Legal step ok s as := by
  induction as generalizing s with
  | nil => trivial
  | cons a as ih =>
    obtain ⟨ha, has⟩ := List.forall_mem_cons.1 h
    exact ⟨ha s, fun _ _ => ih has⟩

theorem legal_and (h : Legal step ok s as) (h' : Legal step ok' s as) :
    Legal step (fun s a => ok s a ∧ ok' s a) s as := by
  induction as generalizing s with
  | nil => trivial
  | cons a as ih => exact ⟨⟨h.1, h'.1⟩, fun s1 h1 => ih (h.2 s1 h1) (h'.2 s1 h1)⟩

/-- Among the runs of an environment that keeps the invariant, two conditions that agree where it
holds allow the same ones. -/
theorem legal_congr (hiff : ∀ s a, I s → (ok s a ↔ ok' s a))
    (hstep : ∀ s a s', I s → env s a → step s a = some s' → I s') (hs : I s)
    (hl : Legal step env s as) : Legal step ok s as ↔ Legal step ok' s as := by
  induction as generalizing s with
  | nil => exact Iff.rfl
  | cons a as ih =>
    refine and_congr (hiff s a hs) (forall₂_congr fun s1 h1 => ?_)
    exact ih (hstep s a s1 hs hl.1 h1) (hl.2 s1 h1)

/-- A condition that keeps the invariant may be replaced by one that it implies there. -/
theorem legal_imp (himp : ∀ s a, I s → ok s a → ok' s a)
    (hstep : ∀ s a s', I s → ok s a → step s a = some s' → I s') (hs : I s)
    (hl : Legal step ok s as) : Legal step ok' s as := by
  induction as generalizing s with
  | nil => trivial
  | cons a as ih => exact ⟨himp s a hs hl.1, fun s1 h1 => ih (hstep s a s1 hs hl.1 h1) (hl.2 s1 h1)⟩

/-- Two conditions that agree where the invariant holds, and keep it, have the same legal runs. -/
theorem legal_iff_legal (hiff : ∀ s a, I s → (ok s a ↔ ok' s a))
    (hstep : ∀ s a s', I s → ok s a → step s a = some s' → I s') (hs : I s) (as : List α) :
    Legal step ok s as ↔ Legal step ok' s as :=
  ⟨legal_imp (fun s a hi => (hiff s a hi).1) hstep hs, legal_imp (fun s a hi => (hiff s a hi).2)
    (fun s a s' hi ha => hstep s a s' hi ((hiff s a hi).2 ha)) hs⟩

/-- The invariant rule for steps that need not return. -/
theorem run_keeps (hstep : ∀ s a s', I s → ok s a → step s a = some s' → I s') (hs : I s)
    (hl : Legal step ok s as) (hr : run step s as = some s') : I s' := by
  induction as generalizing s with
  | nil => cases hr; exact hs
  | cons a as ih =>
    simp only [run, Option.bind_eq_some_iff] at hr
    obtain ⟨s1, h1, h2⟩ := hr
    exact ih (hstep s a s1 hs hl.1 h1) (hl.2 s1 h1) h2

theorem Always.imp {Q : σ → Prop} (h : ∀ s, P s → Q s) (hp : Always step P s as) :
    Always step Q s as := by
  induction as generalizing s with
  | nil => exact h s hp
  | cons a as ih => exact ⟨h s hp.1, fun s' hs' => ih (hp.2 s' hs')⟩

/-- What every legal step keeps holds all along a legal run. -/
theorem always_of_legal (hstep : ∀ s a s', I s → ok s a → step s a = some s' → I s') (hs : I s)
    (hl : Legal step ok s as) : Always step I s as := by
  induction as generalizing s with
  | nil => exact hs
  | cons a as ih => exact ⟨hs, fun s1 h1 => ih (hstep s a s1 hs hl.1 h1) (hl.2 s1 h1)⟩

/-- A property that, among the steps of an environment, a legal one keeps and no other does holds
all along exactly the legal runs. -/
theorem always_iff_legal (hstep : ∀ s a, I s → P s → env s a →
      ∃ s', step s a = some s' ∧ (P s' ↔ ok s a) ∧ (P s' → I s')) (hs : I s) (hp : P s)
    (he : Legal step env s as) : Always step P s as ↔ Legal step ok s as := by
  induction as generalizing s with
  | nil => exact ⟨fun _ => trivial, fun _ => hp⟩
  | cons a as ih =>
    obtain ⟨s1, h1, hiff, hI⟩ := hstep s a hs hp he.1
    have he1 := he.2 s1 h1
    constructor
    · rintro ⟨-, hn⟩
      have hn1 := hn s1 h1
      have hp1 : P s1 := by cases as with
        | nil => exact hn1
        | cons => exact hn1.1
      refine ⟨hiff.1 hp1, fun s2 h2 => ?_⟩
      rw [h1] at h2
      cases h2
      exact (ih (hI hp1) hp1 he1).1 hn1
    · rintro ⟨ha, hn⟩
      have hp1 := hiff.2 ha
      refine ⟨hp, fun s2 h2 => ?_⟩
      rw [h1] at h2
      cases h2
      exact (ih (hI hp1) hp1 he1).2 (hn s1 h1)

end Run
