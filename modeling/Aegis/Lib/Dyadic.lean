import Mathlib.Data.Nat.Bitwise
import Mathlib.Order.Interval.Finset.Nat
import Mathlib.Tactic

/-!
# Aligned dyadic blocks

The block `(p, o)` is the interval `[p, p + 2 ^ o)`, aligned when `2 ^ o ∣ p`. Two aligned blocks
that meet are nested (`nested`), so blocks of one order that meet are equal (`eq_of_meet`). The
buddy of `(p, o)` is the other half of its parent (`buddy_spec`).

A `Canonical` family is one of disjoint aligned blocks in which no block below the largest order
has its buddy in the family. `Canonical.ext`: such a family is determined by the set it covers.
-/

namespace Dyadic

open Finset

variable {f o p q r : Nat}

/-- `f` lies in the block of order `o` at `p`. -/
def Mem (f p o : Nat) : Prop := p ≤ f ∧ f < p + 2 ^ o

/-- The other half of the parent block. -/
def buddy (p o : Nat) : Nat := p ^^^ 2 ^ o

theorem mem_self (p o : Nat) : Mem p p o := ⟨Nat.le_refl p, by have := Nat.two_pow_pos o; omega⟩

/-- Aligned blocks that meet are nested. -/
theorem nested (hp : 2 ^ o ∣ p) (hq : 2 ^ r ∣ q) (hor : o ≤ r) (hf : Mem f p o) (hf' : Mem f q r) :
    q ≤ p ∧ p + 2 ^ o ≤ q + 2 ^ r := by
  obtain ⟨a, rfl⟩ := hp
  obtain ⟨b, rfl⟩ := hq
  obtain ⟨c, rfl⟩ := Nat.exists_eq_add_of_le hor
  obtain ⟨h1, h2⟩ := hf
  obtain ⟨h3, h4⟩ := hf'
  rw [pow_add] at h3 h4 ⊢
  -- divide everything by the smaller block's size
  have hlt : 2 ^ c * b < a + 1 := by
    apply Nat.lt_of_mul_lt_mul_left (a := 2 ^ o)
    calc 2 ^ o * (2 ^ c * b) = 2 ^ o * 2 ^ c * b := by ring
      _ ≤ f := h3
      _ < 2 ^ o * a + 2 ^ o := h2
      _ = 2 ^ o * (a + 1) := by ring
  have hlt' : a < 2 ^ c * b + 2 ^ c := by
    apply Nat.lt_of_mul_lt_mul_left (a := 2 ^ o)
    calc 2 ^ o * a ≤ f := h1
      _ < 2 ^ o * 2 ^ c * b + 2 ^ o * 2 ^ c := h4
      _ = 2 ^ o * (2 ^ c * b + 2 ^ c) := by ring
  refine ⟨?_, ?_⟩
  · calc 2 ^ o * 2 ^ c * b = 2 ^ o * (2 ^ c * b) := by ring
      _ ≤ 2 ^ o * a := Nat.mul_le_mul_left _ (by omega)
  · calc 2 ^ o * a + 2 ^ o = 2 ^ o * (a + 1) := by ring
      _ ≤ 2 ^ o * (2 ^ c * b + 2 ^ c) := Nat.mul_le_mul_left _ (by omega)
      _ = 2 ^ o * 2 ^ c * b + 2 ^ o * 2 ^ c := by ring

theorem eq_of_meet (hp : 2 ^ o ∣ p) (hq : 2 ^ o ∣ q) (hf : Mem f p o) (hf' : Mem f q o) :
    p = q := by
  have h1 := nested hp hq (Nat.le_refl o) hf hf'
  have h2 := nested hq hp (Nat.le_refl o) hf' hf
  omega

/-- A block aligned to its parent's size is the lower half. -/
theorem buddy_of_dvd (h : 2 ^ (o + 1) ∣ p) : buddy p o = p + 2 ^ o := by
  obtain ⟨a, rfl⟩ := h
  unfold buddy
  have hlt : 2 ^ o < 2 ^ (o + 1) := by have := Nat.two_pow_pos o; rw [pow_succ]; omega
  rw [Nat.two_pow_add_eq_or_of_lt hlt]
  apply Nat.eq_of_testBit_eq
  intro j
  rw [Nat.testBit_xor, Nat.testBit_or, Nat.testBit_two_pow_mul, Nat.testBit_two_pow]
  by_cases hj : o = j
  · subst hj; simp
  · simp [hj]

/-- A block not aligned to its parent's size is the upper half. -/
theorem buddy_of_not_dvd (hp : 2 ^ o ∣ p) (h : ¬ 2 ^ (o + 1) ∣ p) :
    2 ^ o ≤ p ∧ buddy p o = p - 2 ^ o ∧ 2 ^ (o + 1) ∣ p - 2 ^ o := by
  obtain ⟨a, rfl⟩ := hp
  have hodd : a % 2 = 1 := by
    rcases Nat.mod_two_eq_zero_or_one a with h0 | h1
    · obtain ⟨b, rfl⟩ := Nat.dvd_of_mod_eq_zero h0
      exact absurd ⟨b, by rw [pow_succ]; ring⟩ h
    · exact h1
  obtain ⟨b, rfl⟩ : ∃ b, a = 2 * b + 1 := ⟨a / 2, by omega⟩
  have he : 2 ^ o * (2 * b + 1) = 2 ^ (o + 1) * b + 2 ^ o := by rw [pow_succ]; ring
  rw [he]
  refine ⟨by omega, ?_, ?_⟩
  · rw [Nat.add_sub_cancel, ← buddy_of_dvd ⟨b, rfl⟩]
    unfold buddy
    rw [Nat.xor_assoc, Nat.xor_self, Nat.xor_zero]
  · exact ⟨b, by omega⟩

/-- The buddy of an aligned block: both halves lie in the parent, which starts at the lower one. -/
theorem buddy_spec (hp : 2 ^ o ∣ p) :
    2 ^ o ∣ buddy p o ∧ 2 ^ (o + 1) ∣ min p (buddy p o) ∧
      max p (buddy p o) = min p (buddy p o) + 2 ^ o := by
  have hd : 2 ^ o ∣ 2 ^ (o + 1) := Nat.pow_dvd_pow 2 (by omega)
  by_cases h : 2 ^ (o + 1) ∣ p
  · rw [buddy_of_dvd h, Nat.min_eq_left (by omega), Nat.max_eq_right (by omega)]
    exact ⟨Nat.dvd_add hp (Nat.dvd_refl _), h, rfl⟩
  · obtain ⟨h1, h2, h3⟩ := buddy_of_not_dvd hp h
    rw [h2, Nat.min_eq_right (by omega), Nat.max_eq_left (by omega)]
    exact ⟨hd.trans h3, h3, by omega⟩

theorem buddy_ne (p o : Nat) : buddy p o ≠ p := by
  intro h
  have : p ^^^ (p ^^^ 2 ^ o) = p ^^^ p := congrArg (p ^^^ ·) h
  rw [← Nat.xor_assoc, Nat.xor_self, Nat.zero_xor] at this
  exact absurd this (Nat.two_pow_pos o).ne'

theorem buddy_buddy (p o : Nat) : buddy (buddy p o) o = p := by
  unfold buddy
  rw [Nat.xor_assoc, Nat.xor_self, Nat.xor_zero]

/-- A block strictly inside an aligned block has its buddy there too. -/
theorem buddy_inside (hp : 2 ^ o ∣ p) (hq : 2 ^ r ∣ q) (hro : r < o) (h1 : p ≤ q)
    (h2 : q + 2 ^ r ≤ p + 2 ^ o) : p ≤ buddy q r ∧ buddy q r + 2 ^ r ≤ p + 2 ^ o := by
  obtain ⟨-, hpar, hmax⟩ := buddy_spec hq
  have hpos := Nat.two_pow_pos r
  have hmem : Mem q (min q (buddy q r)) (r + 1) := by
    refine ⟨Nat.min_le_left _ _, ?_⟩
    rw [pow_succ]; omega
  have := nested hpar hp (show r + 1 ≤ o by omega) hmem ⟨h1, by omega⟩
  rw [pow_succ] at this
  omega

/-! ## Blocks as finite sets -/

/-- The elements of the block of order `o` at `p`. -/
def block (p o : Nat) : Finset Nat := Finset.Ico p (p + 2 ^ o)

theorem mem_block : f ∈ block p o ↔ Mem f p o := mem_Ico

theorem card_block (p o : Nat) : (block p o).card = 2 ^ o := by
  rw [block, Nat.card_Ico, Nat.add_sub_cancel_left]

/-- The upper half is a part of the parent, and the lower half is what it leaves. -/
theorem block_upper (p o : Nat) :
    block (p + 2 ^ o) o ⊆ block p (o + 1) ∧ block p (o + 1) \ block (p + 2 ^ o) o = block p o := by
  refine ⟨fun f hf => ?_, ext fun f => ?_⟩
  · rw [mem_block, Mem] at hf ⊢
    rw [pow_succ]
    omega
  · rw [mem_sdiff, mem_block, mem_block, mem_block, Mem, Mem, Mem, pow_succ]
    omega

/-- A block and its buddy make up the parent. -/
theorem block_union_buddy (hp : 2 ^ o ∣ p) :
    block p o ∪ block (buddy p o) o = block (min p (buddy p o)) (o + 1) := by
  obtain ⟨-, -, hmax⟩ := buddy_spec hp
  ext f
  rw [mem_union, mem_block, mem_block, mem_block, Mem, Mem, Mem, pow_succ]
  omega

theorem block_disjoint_buddy (hp : 2 ^ o ∣ p) : Disjoint (block p o) (block (buddy p o) o) := by
  refine disjoint_left.2 fun f hf hf' => ?_
  rw [mem_block] at hf hf'
  exact buddy_ne p o (eq_of_meet (buddy_spec hp).1 hp hf' hf)

/-! ## Canonical families -/

/-- Disjoint aligned blocks of order at most `M`, no two of them buddies below order `M`. -/
structure Canonical (M : Nat) (B : Set (Nat × Nat)) : Prop where
  order : ∀ b ∈ B, b.2 ≤ M
  aligned : ∀ b ∈ B, 2 ^ b.2 ∣ b.1
  disjoint : ∀ b ∈ B, ∀ c ∈ B, ∀ f, Mem f b.1 b.2 → Mem f c.1 c.2 → b = c
  maximal : ∀ b ∈ B, b.2 < M → (buddy b.1 b.2, b.2) ∉ B

/-- The union of the blocks of a family. -/
def cover (B : Set (Nat × Nat)) : Set Nat := {f | ∃ b ∈ B, Mem f b.1 b.2}

section
variable {M : Nat} {B : Set (Nat × Nat)}
variable {B' : Set (Nat × Nat)}

/-- A block that the family covers contains no smaller block of the family. -/
theorem Canonical.not_smaller (hB : Canonical M B) {p o : Nat} (hp : 2 ^ o ∣ p) (hoM : o ≤ M)
    (hcov : ∀ f, Mem f p o → f ∈ cover B) :
    ∀ r q, (q, r) ∈ B → p ≤ q → q + 2 ^ r ≤ p + 2 ^ o → o ≤ r := by
  -- a counterexample of least order has its buddy in the family
  intro r
  induction r using Nat.strong_induction_on with
  | _ r ih =>
    intro q hq h1 h2
    by_contra hlt
    have hqd : 2 ^ r ∣ q := hB.aligned _ hq
    obtain ⟨hb1, hb2⟩ := buddy_inside hp hqd (by omega) h1 h2
    obtain ⟨hbd, hpar, hmax⟩ := buddy_spec hqd
    obtain ⟨⟨c, t⟩, hc, hfc⟩ := hcov (buddy q r) ⟨hb1, by have := Nat.two_pow_pos r; omega⟩
    have hcd : 2 ^ t ∣ c := hB.aligned _ hc
    have hposr := Nat.two_pow_pos r
    -- the block that covers the buddy does not contain `q`
    have hqc : ¬ Mem q c t := by
      intro hm
      have := hB.disjoint _ hq _ hc q (mem_self q r) hm
      simp only [Prod.mk.injEq] at this
      obtain ⟨rfl, rfl⟩ := this
      exact buddy_ne q r (eq_of_meet hbd hqd (mem_self _ _) hfc)
    have hrt : ¬ r < t := by
      intro h
      have hm : Mem (buddy q r) (min q (buddy q r)) (r + 1) := by
        refine ⟨Nat.min_le_right _ _, ?_⟩
        rw [pow_succ]; omega
      have := nested hpar hcd (show r + 1 ≤ t by omega) hm hfc
      rw [pow_succ] at this
      exact hqc ⟨by omega, by omega⟩
    have htr : ¬ t < r := by
      intro h
      have hin := nested hcd hbd (by omega) hfc (mem_self _ _)
      exact absurd (ih t h c hc (by omega) (by omega)) (by omega)
    obtain rfl : t = r := by omega
    obtain rfl : c = buddy q t := eq_of_meet hcd hbd hfc (mem_self _ _)
    exact hB.maximal _ hq (by simp only; omega) hc

theorem Canonical.subset_of_cover (hB : Canonical M B) (hB' : Canonical M B')
    (h : cover B = cover B') : B ⊆ B' := by
  rintro ⟨p, o⟩ hp
  have hpd : 2 ^ o ∣ p := hB.aligned _ hp
  have hcov : ∀ b ∈ B, ∀ f, Mem f b.1 b.2 → f ∈ cover B' := fun b hb f hf => h ▸ ⟨b, hb, hf⟩
  have hcov' : ∀ b ∈ B', ∀ f, Mem f b.1 b.2 → f ∈ cover B := fun b hb f hf => h ▸ ⟨b, hb, hf⟩
  obtain ⟨⟨q, r⟩, hq, hpq⟩ := hcov _ hp p (mem_self p o)
  have hqd : 2 ^ r ∣ q := hB'.aligned _ hq
  -- the block of `B'` at `p` is nested with `(p, o)`; neither can be the smaller one
  rcases Nat.lt_trichotomy o r with hl | rfl | hl
  · have hin := nested hpd hqd (by omega) (mem_self p o) hpq
    exact absurd (hB.not_smaller hqd (hB'.order _ hq) (hcov' _ hq) o p hp (by omega) (by omega))
      (by omega)
  · obtain rfl := eq_of_meet hpd hqd (mem_self p o) hpq
    exact hq
  · have hin := nested hqd hpd (by omega) hpq (mem_self p o)
    exact absurd (hB'.not_smaller hpd (hB.order _ hp) (hcov _ hp) r q hq (by omega) (by omega))
      (by omega)

/-- **A canonical family is determined by the set it covers.** -/
theorem Canonical.ext (hB : Canonical M B) (hB' : Canonical M B') (h : cover B = cover B') :
    B = B' :=
  Set.Subset.antisymm (hB.subset_of_cover hB' h) (hB'.subset_of_cover hB h.symm)

end

end Dyadic
