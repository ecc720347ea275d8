import Mathlib.Data.Nat.Bitwise
import Mathlib.Tactic

/-!
# Machine words as naturals

A fixed-width unsigned integer is a natural number below `2 ^ w`; `wrap w` is the truncation that
every arithmetic result goes through. The lemmas turn masks and shifts into division and
remainder, which `omega` decides.
-/

namespace Word

/-- A word of `w` bits. -/
def wrap (w n : Nat) : Nat := n % 2 ^ w

def sub (w a b : Nat) : Nat := (a + 2 ^ w - b) % 2 ^ w

theorem wrap_lt (w n : Nat) : wrap w n < 2 ^ w := Nat.mod_lt _ (Nat.two_pow_pos w)

theorem wrap_of_lt {w n : Nat} (h : n < 2 ^ w) : wrap w n = n := Nat.mod_eq_of_lt h

theorem sub_lt (w a b : Nat) : sub w a b < 2 ^ w := Nat.mod_lt _ (Nat.two_pow_pos w)

theorem sub_of_le {w a b : Nat} (h : b ≤ a) (ha : a < 2 ^ w) : sub w a b = a - b := by
  unfold sub
  rw [show a + 2 ^ w - b = (a - b) + 2 ^ w by omega, Nat.add_mod_right]
  exact Nat.mod_eq_of_lt (by omega)

/-- Clearing the low `k` of `w` bits rounds down to a multiple of `2 ^ k`. -/
theorem and_high_mask (x : Nat) {k w : Nat} (hk : k ≤ w) :
    x &&& (2 ^ w - 2 ^ k) = x % 2 ^ w / 2 ^ k * 2 ^ k := by
  have hm : 2 ^ w - 2 ^ k = (2 ^ (w - k) - 1) * 2 ^ k := by
    rw [Nat.sub_mul, one_mul, ← pow_add, Nat.sub_add_cancel hk]
  apply Nat.eq_of_testBit_eq
  intro j
  rw [hm, Nat.testBit_and, Nat.testBit_mul_two_pow, Nat.testBit_mul_two_pow,
    Nat.testBit_two_pow_sub_one, Nat.testBit_div_two_pow, Nat.testBit_mod_two_pow]
  by_cases hj : k ≤ j
  · rw [show j - k + k = j by omega]
    by_cases hjw : j < w
    · have : j - k < w - k := by omega
      simp [hj, hjw, this]
    · have : ¬ j - k < w - k := by omega
      simp [hj, hjw, this]
  · simp [hj]

end Word
