import Aegis.Mm.PageTable

/-!
# Walks

A walk reads three entries, all of which are present when it finds a leaf. So it finds the same leaf
in every state that keeps the entries that are present (`walk_of_kept`), whatever the tables look
like: a step that only fills holes keeps the walks of the state before, and one that only clears
entries adds none.
-/

namespace Aegis.PageTables

variable {d d' : PageTables}
variable {va : Nat} {x : Nat × Nat}

@[simp] theorem setEntry_root (t i : Nat) (e : Pte) : (d.setEntry t i e).root = d.root := rfl

@[simp] theorem setEntry_self (t i : Nat) (e : Pte) : (d.setEntry t i e).entry t i = e :=
  if_pos ⟨rfl, rfl⟩

theorem setEntry_entry (t i : Nat) (e : Pte) (t' i' : Nat) :
    (d.setEntry t i e).entry t' i' = if t' = t ∧ i' = i then e else d.entry t' i' := rfl

theorem walk_eq_some : d.walk va = some x ↔ (d.entry d.root (tableIndex va 39)).present = true ∧
    (d.entry (d.entry d.root (tableIndex va 39)).frame (tableIndex va 30)).present = true ∧
    (d.entry (d.entry (d.entry d.root (tableIndex va 39)).frame (tableIndex va 30)).frame
      (tableIndex va 21)).present = true ∧
    (d.entry (d.entry (d.entry d.root (tableIndex va 39)).frame (tableIndex va 30)).frame
      (tableIndex va 21)).large = false ∧
    ((d.entry (d.entry (d.entry d.root (tableIndex va 39)).frame (tableIndex va 30)).frame
      (tableIndex va 21)).frame, tableIndex va 12) = x := by
  dsimp only [walk]
  generalize d.entry d.root (tableIndex va 39) = e4
  generalize d.entry e4.frame (tableIndex va 30) = e3
  generalize d.entry e3.frame (tableIndex va 21) = e2
  cases e4.present <;> cases e3.present <;> cases e2.present <;> cases e2.large <;> simp

/-- The entries of `d` that are present are the same in `d'`. -/
structure Kept (d d' : PageTables) : Prop where
  root : d'.root = d.root
  entry : ∀ t i, (d.entry t i).present = true → d'.entry t i = d.entry t i

theorem Kept.walk (h : Kept d d') (hw : d.walk va = some x) : d'.walk va = some x := by
  obtain ⟨h4, h3, h2, hl, hx⟩ := walk_eq_some.1 hw
  have e4 := h.entry _ _ h4
  have e3 := h.entry _ _ h3
  have e2 := h.entry _ _ h2
  rw [walk_eq_some, h.root, e4, e3, e2]
  exact ⟨h4, h3, h2, hl, hx⟩

theorem setEntry_kept {t i : Nat} (hp : (d.entry t i).present = false) (e : Pte) :
    Kept d (d.setEntry t i e) where
  root := rfl
  entry t' i' hp' := by
    rw [setEntry_entry, if_neg]
    rintro ⟨rfl, rfl⟩
    rw [hp] at hp'
    cases hp'

/-! ## Freeing frames -/

@[simp] theorem pmmFree_walk (f va : Nat) : (d.pmmFree f).walk va = d.walk va := rfl

@[simp] theorem pmmFree_entry (f : Nat) : (d.pmmFree f).entry = d.entry := rfl

theorem pmmFreeAll_append (d : PageTables) (fr fr' : List Nat) :
    d.pmmFreeAll (fr ++ fr') = (d.pmmFreeAll fr).pmmFreeAll fr' := List.foldl_append

theorem pmmFreeAll_entry (fr : List Nat) : ∀ d : PageTables, (d.pmmFreeAll fr).entry = d.entry ∧
    (d.pmmFreeAll fr).root = d.root := by
  induction fr with
  | nil => exact fun _ => ⟨rfl, rfl⟩
  | cons f fr ih => exact fun d => ih (d.pmmFree f)

end Aegis.PageTables
