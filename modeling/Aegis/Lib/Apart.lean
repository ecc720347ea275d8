import Mathlib.Tactic

/-!
# Disjoint intervals

A list of things that each occupy an interval `[lo a, hi a)`, no two of which meet. An interval may
be empty; such a one meets no other. The order of the list does not matter.
-/

namespace Apart

variable {α : Type} (lo hi : α → Nat)

/-- Two ranges do not meet. -/
def Off (a b : α) : Prop := hi a ≤ lo b ∨ hi b ≤ lo a ∨ hi a ≤ lo a ∨ hi b ≤ lo b

/-- No two ranges of the list meet. -/
def AllOff (l : List α) : Prop := l.Pairwise (Off lo hi)

variable {lo hi} {l l' rest : List α} {a b v u m : α}

theorem Off.symm (h : Off lo hi a b) : Off lo hi b a := by
  simp only [Off] at h ⊢
  omega

instance : Std.Symm (Off lo hi) := ⟨fun _ _ h => h.symm⟩

theorem AllOff.perm (h : AllOff lo hi l) (hp : l.Perm l') : AllOff lo hi l' :=
  hp.pairwise h fun hab => hab.symm

theorem allOff_cons : AllOff lo hi (a :: l) ↔ (∀ b ∈ l, Off lo hi a b) ∧ AllOff lo hi l :=
  List.pairwise_cons

/-- Two members that both contain a point are the same. -/
theorem AllOff.eq_of_mem (h : AllOff lo hi l) (ha : a ∈ l) (hb : b ∈ l) {x : Nat}
    (hax : lo a ≤ x ∧ x < hi a) (hbx : lo b ≤ x ∧ x < hi b) : a = b := by
  by_contra hne
  have hoff : Off lo hi a b := h.forall ha hb hne
  simp only [Off] at hoff
  omega

/-- An interval makes room for parts of itself. -/
theorem AllOff.refine (h : AllOff lo hi (v :: rest)) (hl : AllOff lo hi l)
    (hin : ∀ x ∈ l, lo v ≤ lo x ∧ hi x ≤ hi v) : AllOff lo hi (l ++ rest) := by
  obtain ⟨hv, hrest⟩ := allOff_cons.1 h
  refine List.pairwise_append.2 ⟨hl, hrest, fun x hx w hw => ?_⟩
  have h1 := hin x hx
  have h2 := hv w hw
  simp only [Off] at h2 ⊢
  omega

/-- Two neighbours become one interval. -/
theorem AllOff.join (h : AllOff lo hi (v :: u :: rest)) (hv : lo v ≤ hi v) (hu : lo u ≤ hi u)
    (hvu : hi v = lo u) (hlo : lo m = lo v) (hhi : hi m = hi u) : AllOff lo hi (m :: rest) := by
  obtain ⟨hoffv, hrest⟩ := allOff_cons.1 h
  obtain ⟨hoffu, hrest⟩ := allOff_cons.1 hrest
  refine allOff_cons.2 ⟨fun w hw => ?_, hrest⟩
  have h1 := hoffv w (List.mem_cons_of_mem _ hw)
  have h2 := hoffu w hw
  simp only [Off] at h1 h2 ⊢
  omega

end Apart
