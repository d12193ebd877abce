import Mathlib.Algebra.Order.BigOperators.Ring.Finset
import Mathlib.Tactic.Linarith
import Mathlib.Tactic.Positivity

/-!
# Sums of squares and the fairness of a distribution

How evenly a quantity is distributed shows in the square of its sum against the sum of its
squares: the two are equal when one holds all, and `n` times apart when all hold the same
(`sq_sum_eq_card_mul_sum_sq_iff`). A distribution `a` is more even than `b` when the ratio
`b / a` grows with `a` (`RatioGrows`); then `a` does better against `b` by that measure
(`RatioGrows.sq_sum_mul_sum_sq_le`). Capping a distribution makes it more even, and more so the
lower the cap (`ratioGrows_min`).
-/

namespace NetSum.Lib

variable {ι α : Type*} [Field α] [LinearOrder α] [IsStrictOrderedRing α] {s : Finset ι}

/-! ## Equal shares -/

omit [LinearOrder α] [IsStrictOrderedRing α] in
/-- The squared differences of all pairs. -/
theorem sum_sum_sub_sq (s : Finset ι) (x : ι → α) :
    ∑ i ∈ s, ∑ j ∈ s, (x i - x j) ^ 2
      = 2 * (s.card * ∑ i ∈ s, x i ^ 2 - (∑ i ∈ s, x i) ^ 2) := by
  have hrow : ∀ i ∈ s, ∑ j ∈ s, (x i - x j) ^ 2
      = s.card * x i ^ 2 - 2 * (x i * ∑ j ∈ s, x j) + ∑ j ∈ s, x j ^ 2 := by
    intro i _
    have hterm : ∀ j ∈ s, (x i - x j) ^ 2 = x i ^ 2 - 2 * (x i * x j) + x j ^ 2 := fun j _ => by ring
    rw [Finset.sum_congr rfl hterm, Finset.sum_add_distrib, Finset.sum_sub_distrib, Finset.sum_const,
      nsmul_eq_mul, ← Finset.mul_sum, ← Finset.mul_sum]
  rw [Finset.sum_congr rfl hrow, Finset.sum_add_distrib, Finset.sum_sub_distrib, Finset.sum_const,
    nsmul_eq_mul, ← Finset.mul_sum, ← Finset.mul_sum, ← Finset.sum_mul]
  ring

/-- The square of a sum reaches its bound exactly if all summands are equal. -/
theorem sq_sum_eq_card_mul_sum_sq_iff (x : ι → α) :
    (∑ i ∈ s, x i) ^ 2 = s.card * ∑ i ∈ s, x i ^ 2 ↔ ∀ i ∈ s, ∀ j ∈ s, x i = x j := by
  have hpairs := sum_sum_sub_sq s x
  have hnonneg : ∀ i ∈ s, 0 ≤ ∑ j ∈ s, (x i - x j) ^ 2 := fun i _ =>
    Finset.sum_nonneg fun j _ => sq_nonneg _
  constructor
  · intro h i hi j hj
    -- a sum of squares is zero only if each square is
    have hzero : ∑ i ∈ s, ∑ j ∈ s, (x i - x j) ^ 2 = 0 := by rw [hpairs, h]; ring
    have hi' := (Finset.sum_eq_zero_iff_of_nonneg hnonneg).mp hzero i hi
    have hj' := (Finset.sum_eq_zero_iff_of_nonneg fun j _ => sq_nonneg (x i - x j)).mp hi' j hj
    exact sub_eq_zero.mp ((pow_eq_zero_iff (by decide)).mp hj')
  · intro h
    have hzero : ∑ i ∈ s, ∑ j ∈ s, (x i - x j) ^ 2 = 0 := by
      refine Finset.sum_eq_zero fun i hi => Finset.sum_eq_zero fun j hj => ?_
      rw [h i hi j hj, sub_self, zero_pow (by decide)]
    rw [hzero] at hpairs
    linarith

/-! ## More even distributions -/

/-- Where `a` is larger, so is the ratio of `b` to `a`. -/
def RatioGrows (s : Finset ι) (a b : ι → α) : Prop :=
  ∀ i ∈ s, ∀ j ∈ s, 0 ≤ (a j - a i) * (a i * b j - a j * b i)

namespace RatioGrows

variable {a b : ι → α}

/-- Chebyshev's inequality for `a` and `b / a`, weighted with `a`. -/
theorem sum_mul_sum_sq_le (h : RatioGrows s a b) :
    (∑ i ∈ s, b i) * ∑ i ∈ s, a i ^ 2 ≤ (∑ i ∈ s, a i) * ∑ i ∈ s, a i * b i := by
  have hpairs : ∑ i ∈ s, ∑ j ∈ s, (a j - a i) * (a i * b j - a j * b i)
      = 2 * ((∑ i ∈ s, a i) * ∑ i ∈ s, a i * b i - (∑ i ∈ s, b i) * ∑ i ∈ s, a i ^ 2) := by
    have hrow : ∀ i ∈ s, ∑ j ∈ s, (a j - a i) * (a i * b j - a j * b i)
        = a i * (∑ j ∈ s, a j * b j) - b i * (∑ j ∈ s, a j ^ 2) - a i ^ 2 * (∑ j ∈ s, b j)
          + a i * b i * ∑ j ∈ s, a j := by
      intro i _
      rw [Finset.mul_sum, Finset.mul_sum, Finset.mul_sum, Finset.mul_sum, ← Finset.sum_sub_distrib,
        ← Finset.sum_sub_distrib, ← Finset.sum_add_distrib]
      exact Finset.sum_congr rfl fun j _ => by ring
    rw [Finset.sum_congr rfl hrow, Finset.sum_add_distrib, Finset.sum_sub_distrib,
      Finset.sum_sub_distrib, ← Finset.sum_mul, ← Finset.sum_mul, ← Finset.sum_mul,
      ← Finset.sum_mul]
    ring
  have hnonneg : 0 ≤ ∑ i ∈ s, ∑ j ∈ s, (a j - a i) * (a i * b j - a j * b i) :=
    Finset.sum_nonneg fun i hi => Finset.sum_nonneg fun j hj => h i hi j hj
  rw [hpairs] at hnonneg
  linarith

/-- The distribution whose ratio to the other grows is the less even one. -/
theorem sq_sum_mul_sum_sq_le (h : RatioGrows s a b) (hb : ∀ i ∈ s, 0 ≤ b i) :
    (∑ i ∈ s, b i) ^ 2 * ∑ i ∈ s, a i ^ 2 ≤ (∑ i ∈ s, a i) ^ 2 * ∑ i ∈ s, b i ^ 2 := by
  have hsa : 0 ≤ ∑ i ∈ s, a i ^ 2 := Finset.sum_nonneg fun i _ => sq_nonneg _
  rcases hsa.eq_or_lt with hzero | hpos
  · rw [← hzero, mul_zero]
    have hsb : 0 ≤ ∑ i ∈ s, b i ^ 2 := Finset.sum_nonneg fun i _ => sq_nonneg _
    positivity
  · have hsum : 0 ≤ (∑ i ∈ s, b i) * ∑ i ∈ s, a i ^ 2 := mul_nonneg (Finset.sum_nonneg hb) hsa
    have hcauchy := Finset.sum_mul_sq_le_sq_mul_sq s a b
    refine le_of_mul_le_mul_right ?_ hpos
    calc (∑ i ∈ s, b i) ^ 2 * (∑ i ∈ s, a i ^ 2) * ∑ i ∈ s, a i ^ 2
        = ((∑ i ∈ s, b i) * ∑ i ∈ s, a i ^ 2) ^ 2 := by ring
      _ ≤ ((∑ i ∈ s, a i) * ∑ i ∈ s, a i * b i) ^ 2 :=
        pow_le_pow_left₀ hsum h.sum_mul_sum_sq_le 2
      _ = (∑ i ∈ s, a i) ^ 2 * (∑ i ∈ s, a i * b i) ^ 2 := by ring
      _ ≤ (∑ i ∈ s, a i) ^ 2 * ((∑ i ∈ s, a i ^ 2) * ∑ i ∈ s, b i ^ 2) :=
        mul_le_mul_of_nonneg_left hcauchy (sq_nonneg _)
      _ = (∑ i ∈ s, a i) ^ 2 * (∑ i ∈ s, b i ^ 2) * ∑ i ∈ s, a i ^ 2 := by ring

end RatioGrows

/-- Capping `d` at `p` makes it more even than any `b` that is `d` below the cap and at least the
cap elsewhere. -/
theorem ratioGrows_min {p : α} {d b : ι → α} (hd : ∀ i ∈ s, 0 ≤ d i)
    (hbelow : ∀ i ∈ s, d i ≤ p → b i = d i) (habove : ∀ i ∈ s, p ≤ d i → p ≤ b i) :
    RatioGrows s (fun i => min (d i) p) b := by
  intro i hi j hj
  dsimp only
  rcases le_total (d i) p with hi' | hi' <;> rcases le_total (d j) p with hj' | hj'
  · rw [min_eq_left hi', min_eq_left hj', hbelow i hi hi', hbelow j hj hj', mul_comm (d i) (d j),
      sub_self, mul_zero]
  · rw [min_eq_left hi', min_eq_right hj', hbelow i hi hi', mul_comm p, ← mul_sub]
    have hbj := habove j hj hj'
    exact mul_nonneg (sub_nonneg.mpr hi') (mul_nonneg (hd i hi) (sub_nonneg.mpr hbj))
  · rw [min_eq_right hi', min_eq_left hj', hbelow j hj hj', mul_comm p, ← mul_sub]
    have hbi := habove i hi hi'
    have hle : d j * (p - b i) ≤ 0 :=
      mul_nonpos_of_nonneg_of_nonpos (hd j hj) (sub_nonpos.mpr hbi)
    exact mul_nonneg_of_nonpos_of_nonpos (sub_nonpos.mpr hj') hle
  · rw [min_eq_right hi', min_eq_right hj', sub_self, zero_mul]

end NetSum.Lib
