import Mathlib.Algebra.Order.Archimedean.Basic
import Mathlib.Data.BitVec
import Mathlib.Tactic.Linarith
import Mathlib.Tactic.Ring

/-!
# Sums of truncated values in a register

`truncate` rounds towards zero, as a conversion to an integer type does. It never increases the
magnitude (`abs_truncate_le`) and loses less than one (`abs_truncate_sub_lt_one`), so a sum of
truncated values is bounded by the bound of the values (`abs_sum_truncate_le`) and is off by less
than their number (`abs_sum_truncate_sub_lt`). A sum in a `w`-bit register is the exact one if that
fits (`toInt_sum_of_fits`).
-/

namespace NetSum.Lib

/-! ## Truncation -/

section

variable {α : Type*} [Field α] [LinearOrder α] [FloorRing α]

/-- Round towards zero. -/
def truncate (x : α) : ℤ := if 0 ≤ x then ⌊x⌋ else ⌈x⌉

theorem truncate_of_nonneg {x : α} (h : 0 ≤ x) : truncate x = ⌊x⌋ := if_pos h

theorem truncate_of_neg {x : α} (h : x < 0) : truncate x = ⌈x⌉ := if_neg (not_le.mpr h)

/-- The error of a sum is the sum of the errors. -/
theorem sum_truncate_cons_sub (x : α) (xs : List α) :
    (((x :: xs).map truncate).sum : α) - (x :: xs).sum
      = ((truncate x : α) - x) + (((xs.map truncate).sum : α) - xs.sum) := by
  rw [List.map_cons, List.sum_cons, List.sum_cons, Int.cast_add]
  ring

variable [IsStrictOrderedRing α]

/-- Truncation never increases the magnitude. -/
theorem abs_truncate_le (x : α) : |(truncate x : α)| ≤ |x| := by
  rcases le_or_gt 0 x with h | h
  · have hfloor : (0 : α) ≤ (⌊x⌋ : α) := Int.cast_nonneg (Int.floor_nonneg.mpr h)
    rw [truncate_of_nonneg h, abs_of_nonneg hfloor, abs_of_nonneg h]
    exact Int.floor_le x
  · have hceil : (⌈x⌉ : α) ≤ 0 := Int.cast_nonpos.mpr (Int.ceil_nonpos.mpr h.le)
    rw [truncate_of_neg h, abs_of_nonpos hceil, abs_of_neg h]
    exact neg_le_neg (Int.le_ceil x)

/-- Truncation loses less than one. -/
theorem abs_truncate_sub_lt_one (x : α) : |(truncate x : α) - x| < 1 := by
  rw [abs_lt]
  rcases le_or_gt 0 x with h | h
  · rw [truncate_of_nonneg h]
    have hle := Int.floor_le x
    have hlt := Int.lt_floor_add_one x
    constructor <;> linarith
  · rw [truncate_of_neg h]
    have hle := Int.le_ceil x
    have hlt := Int.ceil_lt_add_one x
    constructor <;> linarith

/-- The sum of truncated values is bounded as the values are. -/
theorem abs_sum_truncate_le {xs : List α} {b : α} (h : ∀ x ∈ xs, |x| ≤ b) :
    |((xs.map truncate).sum : α)| ≤ xs.length * b := by
  induction xs with
  | nil => simp
  | cons x xs ih =>
    have hhead : |(truncate x : α)| ≤ b := (abs_truncate_le x).trans (h x (List.mem_cons_self ..))
    have htail := ih fun y hy => h y (List.mem_cons_of_mem _ hy)
    rw [List.map_cons, List.sum_cons, Int.cast_add, List.length_cons, Nat.cast_add_one]
    calc |(truncate x : α) + ((xs.map truncate).sum : α)|
        ≤ |(truncate x : α)| + |((xs.map truncate).sum : α)| := abs_add_le _ _
      _ ≤ b + xs.length * b := add_le_add hhead htail
      _ = (xs.length + 1) * b := by ring

theorem abs_sum_truncate_sub_le (xs : List α) :
    |((xs.map truncate).sum : α) - xs.sum| ≤ xs.length := by
  induction xs with
  | nil => simp
  | cons x xs ih =>
    have hhead := abs_truncate_sub_lt_one x
    have hadd := abs_add_le ((truncate x : α) - x) (((xs.map truncate).sum : α) - xs.sum)
    rw [sum_truncate_cons_sub, List.length_cons, Nat.cast_add_one]
    linarith

/-- The errors of the summands add up to less than their number, even if they all have one
sign. -/
theorem abs_sum_truncate_sub_lt {xs : List α} {n : α} (hn : 0 < n) (hlen : xs.length ≤ n) :
    |((xs.map truncate).sum : α) - xs.sum| < n := by
  cases xs with
  | nil => simpa using hn
  | cons x xs =>
    have hhead := abs_truncate_sub_lt_one x
    have htail := abs_sum_truncate_sub_le xs
    have hadd := abs_add_le ((truncate x : α) - x) (((xs.map truncate).sum : α) - xs.sum)
    rw [List.length_cons, Nat.cast_add_one] at hlen
    rw [sum_truncate_cons_sub]
    linarith

end

/-! ## Registers -/

/-- Adding up in a register is adding up the signed values, and cutting off. -/
theorem sum_eq_ofInt {w : ℕ} (xs : List (BitVec w)) :
    xs.sum = BitVec.ofInt w (xs.map BitVec.toInt).sum := by
  induction xs with
  | nil => simp
  | cons x xs ih =>
    rw [List.sum_cons, List.map_cons, List.sum_cons, BitVec.ofInt_add, BitVec.ofInt_toInt, ih]

/-- Nothing is cut off from a sum that fits. -/
theorem toInt_sum_of_fits {w : ℕ} (hw : 0 < w) {xs : List (BitVec w)}
    (hlow : -2 ^ (w - 1) ≤ (xs.map BitVec.toInt).sum)
    (hhigh : (xs.map BitVec.toInt).sum < 2 ^ (w - 1)) :
    xs.sum.toInt = (xs.map BitVec.toInt).sum := by
  rw [sum_eq_ofInt, BitVec.toInt_ofInt_eq_self hw hlow hhigh]

end NetSum.Lib
