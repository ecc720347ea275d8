import Mathlib.Tactic

/-!
# Bit masks as sets

`Le a b`: every bit of `a` is a bit of `b`. `exchange k m a` trades bit `k` of `a`, if it is set,
for the bits of `m`.
-/

namespace Mask

variable {n : Nat}
variable {k : Nat} {a b : BitVec n}

/-- The bits of `a` are among those of `b`. -/
def Le (a b : BitVec n) : Prop := a &&& b = a
  deriving Decidable

theorem le_iff : Le a b ↔ ∀ i, a.getLsbD i = true → b.getLsbD i = true := by
  constructor
  · intro h i hi
    have := congrArg (BitVec.getLsbD · i) h
    simp only [BitVec.getLsbD_and, hi, Bool.true_and] at this
    exact this
  · intro h
    refine BitVec.eq_of_getLsbD_eq fun i _ => ?_
    rw [BitVec.getLsbD_and]
    cases hi : a.getLsbD i with
    | false => rfl
    | true => rw [h i hi]; rfl

theorem Le.refl (a : BitVec n) : Le a a := BitVec.and_self

theorem Le.trans {c : BitVec n} (h : Le a b) (h' : Le b c) : Le a c :=
  le_iff.2 fun i hi => le_iff.1 h' i (le_iff.1 h i hi)

theorem and_twoPow_ne_zero (hk : k < n) : a &&& BitVec.twoPow n k ≠ 0 ↔ a.getLsbD k = true := by
  rw [BitVec.and_twoPow]
  cases a.getLsbD k with
  | false => simp
  | true =>
    have : (BitVec.twoPow n k).toNat ≠ 0 := by
      rw [BitVec.toNat_twoPow, Nat.mod_eq_of_lt (Nat.pow_lt_pow_right (by omega) hk)]
      positivity
    simpa using fun h => this (by rw [h]; rfl)

/-- Trade bit `k` for the mask `m`. -/
def exchange (k : Nat) (m a : BitVec n) : BitVec n :=
  if a &&& BitVec.twoPow n k ≠ 0 then (a ||| m) &&& ~~~BitVec.twoPow n k else a

theorem getLsbD_exchange (hk : k < n) (m a : BitVec n) (i : Nat) :
    (exchange k m a).getLsbD i =
      (decide (i ≠ k) && (a.getLsbD i || (a.getLsbD k && m.getLsbD i))) := by
  unfold exchange
  by_cases hb : a.getLsbD k = true
  · rw [if_pos ((and_twoPow_ne_zero hk).2 hb), BitVec.getLsbD_and, BitVec.getLsbD_or,
      BitVec.getLsbD_not, BitVec.getLsbD_twoPow, hb]
    rcases Nat.lt_or_ge i n with hi | hi
    · by_cases h : i = k
      · simp [h, hk]
      · simp [h, hi, Ne.symm h]
    · simp [BitVec.getLsbD_of_ge a i hi, BitVec.getLsbD_of_ge m i hi]
  · rw [if_neg (mt (and_twoPow_ne_zero hk).1 hb)]
    by_cases h : i = k
    · simp [h, hb]
    · simp [h, hb]

end Mask
