import Mathlib.Tactic

/-!
# Queues by priority with a bitmap

A scheduler keeps one queue per priority and a word that says which of them hold something, so that
the highest one is found without looking at the empty ones. The word is kept apart from the queues:
`Exact` says that it is right.

An item is on at most one of the queues: `unlink` takes it off wherever it is.
-/

/-- A queue for each priority, and a mask of those that are not empty. -/
structure PrioQueue (α : Type) where
  queue : Nat → List α
  mask : BitVec 32

namespace PrioQueue

open Function

variable {α : Type}
variable {p : Nat} {q : PrioQueue α}

def empty : PrioQueue α := ⟨fun _ => [], 0⟩

/-- At the tail of the queue of `p`. -/
def insert (q : PrioQueue α) (p : Nat) (x : α) : PrioQueue α :=
  ⟨update q.queue p (q.queue p ++ [x]), q.mask ||| (1#32 <<< p)⟩

/-- The bit of a queue that has run empty is cleared. -/
def settle (q : PrioQueue α) (p : Nat) : PrioQueue α :=
  match q.queue p with
  | [] => { q with mask := q.mask &&& ~~~(1#32 <<< p) }
  | _ :: _ => q

/-- Out of the queue that has it. -/
def unlink [DecidableEq α] (q : PrioQueue α) (x : α) : PrioQueue α :=
  { q with queue := fun p => (q.queue p).filter (· ≠ x) }

/-- The first item of the highest queue whose bit is set. -/
def popHighest (q : PrioQueue α) : Option α × PrioQueue α :=
  if q.mask = 0 then (none, q)
  else
    let p := q.mask.toNat.log2
    match q.queue p with
    | [] => (none, q.settle p)
    | x :: rest => (some x, { q with queue := update q.queue p rest }.settle p)

/-- The bits are those of the queues that hold something. -/
structure Exact (q : PrioQueue α) : Prop where
  bit : ∀ p < 32, q.mask.getLsbD p = true ↔ q.queue p ≠ []
  high : ∀ p, 32 ≤ p → q.queue p = []

/-! ## The queues -/

@[simp] theorem settle_queue (q : PrioQueue α) (p : Nat) : (q.settle p).queue = q.queue := by
  unfold settle
  split <;> rfl

@[simp] theorem insert_queue (q : PrioQueue α) (p : Nat) (x : α) :
    (q.insert p x).queue = update q.queue p (q.queue p ++ [x]) := rfl

@[simp] theorem unlink_queue [DecidableEq α] (q : PrioQueue α) (x : α) (p : Nat) :
    (q.unlink x).queue p = (q.queue p).filter (· ≠ x) := rfl

/-! ## The bits -/

theorem bit_getLsbD {i : Nat} (hi : i < 32) : (1#32 <<< p).getLsbD i = decide (i = p) := by
  simp only [BitVec.getLsbD_shiftLeft, hi, decide_true, Bool.true_and, BitVec.getLsbD_one]
  by_cases h : i < p
  · simp [h]; omega
  · simp [h]; omega

theorem empty_exact : (empty : PrioQueue α).Exact :=
  ⟨fun p _ => by simp [empty], fun _ _ => rfl⟩

theorem insert_exact (h : q.Exact) (hp : p < 32) (x : α) : (q.insert p x).Exact := by
  refine ⟨fun i hi => ?_, fun i hi => ?_⟩
  · show (q.mask ||| (1#32 <<< p)).getLsbD i = true ↔ _
    rw [BitVec.getLsbD_or, bit_getLsbD hi, Bool.or_eq_true, decide_eq_true_eq, h.bit i hi]
    by_cases hip : i = p
    · subst hip; simp
    · simp [hip]
  · rw [insert_queue, update_of_ne (by omega), h.high i hi]

/-- A bit other than `p` is right, and a queue `p` that runs empty is settled. -/
theorem settle_exact (hp : p < 32)
    (hbit : ∀ i < 32, i ≠ p → (q.mask.getLsbD i = true ↔ q.queue i ≠ []))
    (hset : q.queue p ≠ [] → q.mask.getLsbD p = true) (hhigh : ∀ i, 32 ≤ i → q.queue i = []) :
    (q.settle p).Exact := by
  refine ⟨fun i hi => ?_, fun i hi => by rw [settle_queue]; exact hhigh i hi⟩
  rw [settle_queue]
  unfold settle
  split
  · next he =>
    show (q.mask &&& ~~~(1#32 <<< p)).getLsbD i = true ↔ _
    rw [BitVec.getLsbD_and, BitVec.getLsbD_not, bit_getLsbD hi]
    by_cases hip : i = p
    · subst hip; simp [he]
    · rw [← hbit i hi hip]
      simp [hip, hi]
  · next he =>
    by_cases hip : i = p
    · subst hip
      have hne : q.queue i ≠ [] := by rw [he]; simp
      exact ⟨fun _ => hne, hset⟩
    · exact hbit i hi hip

theorem unlink_exact [DecidableEq α] (h : q.Exact) (hp : p < 32) {x : α}
    (hx : ∀ i ≠ p, x ∉ q.queue i) : ((q.unlink x).settle p).Exact := by
  have hq : ∀ i ≠ p, (q.unlink x).queue i = q.queue i := by
    intro i hi
    rw [unlink_queue, List.filter_eq_self]
    intro y hy
    simp only [ne_eq, decide_eq_true_eq]
    rintro rfl
    exact hx i hi hy
  apply settle_exact hp
  · intro i hi hip
    rw [hq i hip]
    exact h.bit i hi
  · intro hne
    refine (h.bit p hp).2 fun he => hne ?_
    simp [he]
  · intro i hi
    rw [hq i (by omega)]
    exact h.high i hi

/-! ## The highest item -/

theorem popHighest_none (h : q.Exact) (hm : q.mask = 0) (p : Nat) : q.queue p = [] := by
  by_cases hp : p < 32
  · by_contra hne
    simpa [hm] using (h.bit p hp).2 hne
  · exact h.high p (by omega)

theorem log2_mask {m : BitVec 32} (hm : m ≠ 0) :
    m.toNat.log2 < 32 ∧ m.getLsbD m.toNat.log2 = true ∧
      ∀ i, m.toNat.log2 < i → m.getLsbD i = false := by
  have hne : m.toNat ≠ 0 := fun h0 => hm (by
    apply BitVec.eq_of_toNat_eq
    simpa using h0)
  have hlt : m.toNat < 2 ^ 32 := m.isLt
  refine ⟨(Nat.log2_lt hne).2 hlt, Nat.testBit_log2 hne, fun i hi => ?_⟩
  exact Nat.testBit_lt_two_pow ((Nat.log2_lt hne).1 hi)

/-- Under `Exact` nothing is popped only when the queues are all empty; what is popped is the head
of the highest queue. -/
theorem popHighest_cases (h : q.Exact) :
    (q.popHighest = (none, q) ∧ ∀ p, q.queue p = []) ∨
      ∃ p x rest q', q.popHighest = (some x, q') ∧ p < 32 ∧ q.queue p = x :: rest ∧
        (∀ i, p < i → q.queue i = []) ∧ q'.queue = update q.queue p rest ∧ q'.Exact := by
  by_cases hm : q.mask = 0
  · exact .inl ⟨by simp [popHighest, hm], popHighest_none h hm⟩
  · right
    obtain ⟨hp, hset, hclear⟩ := log2_mask hm
    obtain ⟨x, rest, he⟩ := List.exists_cons_of_ne_nil ((h.bit _ hp).1 hset)
    refine ⟨q.mask.toNat.log2, x, rest,
      { q with queue := update q.queue q.mask.toNat.log2 rest }.settle q.mask.toNat.log2,
      by rw [popHighest, if_neg hm]; simp only [he], hp, he, fun i hi => ?_, by simp, ?_⟩
    · by_cases hi32 : i < 32
      · by_contra hne
        simpa [hclear i hi] using (h.bit i hi32).2 hne
      · exact h.high i (by omega)
    · apply settle_exact hp
      · intro i hi hip
        simpa [hip] using h.bit i hi
      · exact fun _ => hset
      · intro i hi
        show update q.queue q.mask.toNat.log2 rest i = []
        rw [update_of_ne (by omega)]
        exact h.high i hi

end PrioQueue
