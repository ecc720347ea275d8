import Mathlib.Tactic

/-!
# Machines that show something at every step

`step : σ → α → Option (ω × σ)`: the operation is shown as `ω` and leads to the next state, or it
cannot happen in the state. `trace` lists what a run shows, up to the first operation that cannot
happen.

`trace_eq_iff`: two machines that stay related as long as the first one's operations meet a
condition, and show the same at an operation exactly if it meets the condition, have equal traces
exactly if all operations of the run meet it.
-/

namespace Trace

variable {σ τ α ω : Type}

/-- What a run puts out. -/
def trace (step : σ → α → Option (ω × σ)) : σ → List α → List ω
  | _, [] => []
  | s, a :: as =>
    match step s a with
    | none => []
    | some (o, s') => o :: trace step s' as

/-- Every operation that happens meets the condition, in the state it happens in. -/
def Meets (step : σ → α → Option (ω × σ)) (cond : σ → α → Prop) : σ → List α → Prop
  | _, [] => True
  | s, a :: as => ∀ o s', step s a = some (o, s') → cond s a ∧ Meets step cond s' as

section
variable {step : σ → α → Option (ω × σ)} {step' : τ → α → Option (ω × τ)} {cond : σ → α → Prop}
variable {a : α} {s s' : σ} {t : τ} {o : ω} {R : σ → τ → Prop}

theorem trace_cons (h : step s a = some (o, s')) (as : List α) :
    trace step s (a :: as) = o :: trace step s' as := by simp [trace, h]

theorem meets_cons (h : step s a = some (o, s')) (as : List α) :
    Meets step cond s (a :: as) ↔ cond s a ∧ Meets step cond s' as := by
  simp only [Meets, h, Option.some.injEq, Prod.mk.injEq]
  constructor
  · exact fun hm => hm o s' ⟨rfl, rfl⟩
  · rintro hm _ _ ⟨rfl, rfl⟩
    exact hm

theorem trace_eq_iff (hsome : ∀ s t a, R s t → (step s a).isSome = (step' t a).isSome)
    (hstep : ∀ s t a o s' o' t', R s t → step s a = some (o, s') → step' t a = some (o', t') →
      (o = o' ↔ cond s a) ∧ (cond s a → R s' t')) (hR : R s t) (as : List α) :
    trace step s as = trace step' t as ↔ Meets step cond s as := by
  induction as generalizing s t with
  | nil => simp [trace, Meets]
  | cons a as ih =>
    cases h : step s a with
    | none =>
      have h' : step' t a = none := by simpa [h] using hsome s t a hR
      simp [trace, Meets, h, h']
    | some x =>
      obtain ⟨o, s'⟩ := x
      cases h' : step' t a with
      | none => simpa [h, h'] using hsome s t a hR
      | some y =>
        obtain ⟨o', t'⟩ := y
        obtain ⟨ho, hR'⟩ := hstep s t a o s' o' t' hR h h'
        rw [trace_cons h, trace_cons h', meets_cons h, List.cons.injEq, ho]
        exact and_congr_right fun hc => ih (hR' hc)

/-- Machines that always show the same have equal traces. -/
theorem trace_eq (hsome : ∀ s t a, R s t → (step s a).isSome = (step' t a).isSome)
    (hstep : ∀ s t a o s' o' t', R s t → step s a = some (o, s') → step' t a = some (o', t') →
      o = o' ∧ R s' t') (hR : R s t) (as : List α) : trace step s as = trace step' t as := by
  have htrue : ∀ (as : List α) (s : σ), Meets step (fun _ _ => True) s as := by
    intro as
    induction as with
    | nil => exact fun _ => trivial
    | cons a as ih => exact fun _ _ s' _ => ⟨trivial, ih s'⟩
  refine (trace_eq_iff hsome (fun s t a o s' o' t' hR h h' => ?_) hR as).2 (htrue as s)
  obtain ⟨ho, hR'⟩ := hstep s t a o s' o' t' hR h h'
  exact ⟨iff_of_true ho trivial, fun _ => hR'⟩

end

end Trace
