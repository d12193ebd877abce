import Mathlib.Algebra.Order.Field.Power
import Mathlib.Data.Int.Log
import Mathlib.Data.Rat.Floor
import Mathlib.Tactic.Linarith
import Mathlib.Tactic.Positivity
import Mathlib.Tactic.Ring

/-!
# Rounding to a binary format

A binary format has so many digits and a least exponent (`Format`); its numbers are the rationals
that it can represent (`Format.Holds`). `Format.round` rounds to the nearest of them, ties to an
even last digit. What the proofs about programs need is that rounding gives a number of the format
(`holds_round`), leaves those of the format (`round_eq`), and never crosses one (`round_le`,
`le_round`).

`Double` are the numbers of `binary64`, with the operations rounded. The format has no greatest
exponent: what overflows in a `double` is a number here.
-/

namespace NetSum.Lib

/-! ## The nearest integer -/

/-- The nearest integer, the even one of two. -/
def roundEven (x : ℚ) : ℤ :=
  if x - ⌊x⌋ < 1 / 2 ∨ x - ⌊x⌋ = 1 / 2 ∧ ⌊x⌋ % 2 = 0 then ⌊x⌋ else ⌊x⌋ + 1

theorem roundEven_le {x : ℚ} {n : ℤ} (h : x ≤ n) : roundEven x ≤ n := by
  have hfloor : ⌊x⌋ ≤ n := Int.floor_le_iff.mpr (h.trans_lt (lt_add_one _))
  unfold roundEven
  split
  · exact hfloor
  · next hup =>
    -- an integer is not rounded up
    refine Int.add_one_le_of_lt (lt_of_le_of_ne hfloor fun heq => hup (.inl ?_))
    have hlow := Int.floor_le x
    rw [heq] at hlow ⊢
    rw [le_antisymm h hlow, sub_self]
    exact one_half_pos

theorem le_roundEven {x : ℚ} {n : ℤ} (h : n ≤ x) : n ≤ roundEven x := by
  have hfloor : n ≤ ⌊x⌋ := Int.le_floor.mpr h
  unfold roundEven
  split
  · exact hfloor
  · exact hfloor.trans (Int.le_add_one le_rfl)

theorem roundEven_intCast (n : ℤ) : roundEven n = n :=
  le_antisymm (roundEven_le le_rfl) (le_roundEven le_rfl)

/-! ## Formats -/

/-- The number of binary digits and the least exponent. -/
structure Format where
  digits : ℕ
  minExp : ℤ
  digits_pos : 0 < digits

namespace Format

variable {F : Format} {x q : ℚ}

/-- The numbers of the format. -/
def Holds (F : Format) (q : ℚ) : Prop :=
  ∃ m k : ℤ, |m| < 2 ^ F.digits ∧ F.minExp ≤ k ∧ q = m * 2 ^ k

/-- The exponent of the last digit of `x`. -/
def exponent (F : Format) (x : ℚ) : ℤ := max (Int.log 2 |x| + 1 - F.digits) F.minExp

/-- The nearest number of the format, the one with an even last digit of two. -/
def round (F : Format) (x : ℚ) : ℚ := roundEven (x / 2 ^ F.exponent x) * 2 ^ F.exponent x

theorem two_zpow_pos (k : ℤ) : (0 : ℚ) < 2 ^ k := zpow_pos two_pos k

/-- Powers of two as multiples of smaller ones. -/
theorem two_zpow_eq {k e : ℤ} (h : e ≤ k) : (2 : ℚ) ^ k = ((2 ^ (k - e).toNat : ℤ) : ℚ) * 2 ^ e := by
  have hsplit : k = ((k - e).toNat : ℤ) + e := by omega
  conv_lhs => rw [hsplit, zpow_add₀ two_ne_zero, zpow_natCast]
  push_cast
  rfl

/-- A number that has one digit too many is a number of the format as well. -/
theorem holds_of_abs_le {m k : ℤ} (hm : |m| ≤ 2 ^ F.digits) (hk : F.minExp ≤ k) :
    F.Holds (m * 2 ^ k) := by
  rcases hm.lt_or_eq with hlt | heq
  · exact ⟨m, k, hlt, hk, rfl⟩
  · -- the last digit is zero
    obtain ⟨d, hd⟩ := Nat.exists_eq_add_of_lt F.digits_pos
    rw [Nat.zero_add] at hd
    have hlt : (2 : ℤ) ^ d < 2 ^ F.digits := by
      rw [hd]
      exact pow_lt_pow_right₀ one_lt_two d.lt_succ_self
    have hdouble : ∀ s : ℤ, m = s * 2 ^ F.digits → |s| = 1 → F.Holds (m * 2 ^ k) := by
      intro s hs hone
      refine ⟨s * 2 ^ d, k + 1, ?_, hk.trans (Int.le_add_one le_rfl), ?_⟩
      · rwa [abs_mul, hone, one_mul, abs_of_pos (by positivity)]
      · rw [hs, hd, zpow_add₀ two_ne_zero, zpow_one]
        push_cast
        ring
    rcases abs_eq (by positivity) |>.mp heq with h | h
    · exact hdouble 1 (by rw [h, one_mul]) abs_one
    · exact hdouble (-1) (by rw [h, neg_one_mul]) (by decide)

theorem abs_lt_zpow (F : Format) (x : ℚ) : |x| < 2 ^ F.digits * 2 ^ F.exponent x := by
  have hlog : |x| < 2 ^ (Int.log 2 |x| + 1) := by
    have := Int.lt_zpow_succ_log_self (R := ℚ) one_lt_two |x|
    exact_mod_cast this
  refine hlog.trans_le ?_
  rw [← zpow_natCast, ← zpow_add₀ two_ne_zero]
  refine zpow_le_zpow_right₀ one_le_two ?_
  have := le_max_left (Int.log 2 |x| + 1 - F.digits) F.minExp
  rw [exponent]
  omega

/-- **Rounding gives a number of the format.** -/
theorem holds_round (F : Format) (x : ℚ) : F.Holds (F.round x) := by
  refine holds_of_abs_le ?_ (le_max_right _ _)
  have hpos := two_zpow_pos (F.exponent x)
  have hlt := abs_lt.mp (F.abs_lt_zpow x)
  have hhigh : roundEven (x / 2 ^ F.exponent x) ≤ 2 ^ F.digits := by
    refine roundEven_le ?_
    rw [div_le_iff₀ hpos]
    exact_mod_cast hlt.2.le
  have hlow : -2 ^ F.digits ≤ roundEven (x / 2 ^ F.exponent x) := by
    refine le_roundEven ?_
    rw [le_div_iff₀ hpos]
    push_cast
    rw [neg_mul]
    exact hlt.1.le
  exact abs_le.mpr ⟨hlow, hhigh⟩

/-- Rounding does not cross the multiples of the last digit. -/
theorem round_le_of_multiple {n : ℤ} (h : x ≤ n * 2 ^ F.exponent x) :
    F.round x ≤ n * 2 ^ F.exponent x := by
  have hpos := two_zpow_pos (F.exponent x)
  have hle : roundEven (x / 2 ^ F.exponent x) ≤ n := roundEven_le ((div_le_iff₀ hpos).mpr h)
  exact mul_le_mul_of_nonneg_right (by exact_mod_cast hle) hpos.le

theorem le_round_of_multiple {n : ℤ} (h : n * 2 ^ F.exponent x ≤ x) :
    n * 2 ^ F.exponent x ≤ F.round x := by
  have hpos := two_zpow_pos (F.exponent x)
  have hle : n ≤ roundEven (x / 2 ^ F.exponent x) := le_roundEven ((le_div_iff₀ hpos).mpr h)
  exact mul_le_mul_of_nonneg_right (by exact_mod_cast hle) hpos.le

@[simp] theorem round_zero (F : Format) : F.round 0 = 0 := by
  have hzero : roundEven 0 = 0 := roundEven_intCast 0
  rw [round, zero_div, hzero, Int.cast_zero, zero_mul]

/-- A number of the format is a multiple of the last digit of `x`, or less than the first digit of
`x`, which is one. -/
theorem Holds.multiple_or_lt (hq : F.Holds q) (hx : x ≠ 0) :
    (∃ n : ℤ, q = n * 2 ^ F.exponent x)
      ∨ ∃ n : ℤ, n * 2 ^ F.exponent x ≤ |x| ∧ |q| < n * 2 ^ F.exponent x := by
  obtain ⟨m, k, hm, hk, rfl⟩ := hq
  rcases le_or_gt (F.exponent x) k with hle | hlt
  · refine .inl ⟨m * 2 ^ (k - F.exponent x).toNat, ?_⟩
    rw [two_zpow_eq hle]
    push_cast
    ring
  · -- the exponent is not the least one
    have hexp : F.exponent x = Int.log 2 |x| + 1 - F.digits := by
      rcases max_choice (Int.log 2 |x| + 1 - (F.digits : ℤ)) F.minExp with h | h
      · exact h
      · rw [exponent, h] at hlt
        omega
    have hdigits := F.digits_pos
    have hfirst : ((2 ^ (F.digits - 1) : ℤ) : ℚ) * 2 ^ F.exponent x = 2 ^ (Int.log 2 |x|) := by
      push_cast
      rw [← zpow_natCast, ← zpow_add₀ two_ne_zero, hexp]
      congr 1
      omega
    refine .inr ⟨2 ^ (F.digits - 1), ?_, ?_⟩
    · rw [hfirst]
      exact_mod_cast Int.zpow_log_le_self (R := ℚ) one_lt_two (abs_pos.mpr hx)
    · have hmq : |(m : ℚ)| < 2 ^ F.digits := by exact_mod_cast hm
      rw [hfirst, abs_mul, abs_of_pos (two_zpow_pos k)]
      calc |(m : ℚ)| * 2 ^ k < 2 ^ F.digits * 2 ^ k :=
            mul_lt_mul_of_pos_right hmq (two_zpow_pos k)
        _ = 2 ^ ((F.digits : ℤ) + k) := by rw [zpow_add₀ two_ne_zero, zpow_natCast]
        _ ≤ 2 ^ (Int.log 2 |x|) := zpow_le_zpow_right₀ one_le_two (by omega)

/-- **Rounding does not cross a number of the format.** -/
theorem round_le (hq : F.Holds q) (h : x ≤ q) : F.round x ≤ q := by
  by_cases hx : x = 0
  · rwa [hx, round_zero, ← hx]
  rcases hq.multiple_or_lt hx with ⟨n, rfl⟩ | ⟨n, hfirst, hlt⟩
  · exact round_le_of_multiple h
  · -- then `x` is on the other side of zero
    have hneg : x ≤ ((-n : ℤ) : ℚ) * 2 ^ F.exponent x := by
      rcases le_abs'.mp hfirst with hneg | hpos
      · push_cast
        linarith only [hneg]
      · exact absurd (hpos.trans (h.trans (le_abs_self q))) (not_le.mpr hlt)
    have hq' := (abs_lt.mp hlt).1
    have hround := round_le_of_multiple hneg
    push_cast at hround
    linarith only [hround, hq']

theorem le_round (hq : F.Holds q) (h : q ≤ x) : q ≤ F.round x := by
  by_cases hx : x = 0
  · rwa [hx, round_zero, ← hx]
  rcases hq.multiple_or_lt hx with ⟨n, rfl⟩ | ⟨n, hfirst, hlt⟩
  · exact le_round_of_multiple h
  · have hpos : n * 2 ^ F.exponent x ≤ x := by
      rcases le_abs'.mp hfirst with hneg | hpos
      · exact absurd ((neg_le_neg h).trans' (le_neg.mpr hneg)) (not_le.mpr (neg_lt.mp (abs_lt.mp hlt).1))
      · exact hpos
    exact (abs_lt.mp hlt).2.le.trans (le_round_of_multiple hpos)

/-- **Rounding leaves the numbers of the format.** -/
theorem round_eq (hq : F.Holds q) : F.round q = q :=
  le_antisymm (round_le hq le_rfl) (le_round hq le_rfl)

end Format

/-! ## Doubles -/

def binary64 : Format := ⟨53, -1074, by decide⟩

/-- The `double` that `0.1` stands for. -/
example : binary64.round (1 / 10) = 3602879701896397 / 2 ^ 55 := by decide +kernel

/-- A number of `binary64`. -/
structure Double where
  val : ℚ
  holds : binary64.Holds val

namespace Double

/-- The nearest number. -/
def round (x : ℚ) : Double := ⟨binary64.round x, binary64.holds_round x⟩

instance (n : ℕ) : OfNat Double n := ⟨round n⟩

instance : NatCast Double := ⟨fun n => round n⟩

instance : IntCast Double := ⟨fun n => round n⟩

instance : Sub Double := ⟨fun a b => round (a.val - b.val)⟩

instance : Mul Double := ⟨fun a b => round (a.val * b.val)⟩

instance : Div Double := ⟨fun a b => round (a.val / b.val)⟩

theorem val_sub (a b : Double) : (a - b).val = binary64.round (a.val - b.val) := rfl

theorem val_mul (a b : Double) : (a * b).val = binary64.round (a.val * b.val) := rfl

theorem val_div (a b : Double) : (a / b).val = binary64.round (a.val / b.val) := rfl

/-- Integers of at most 53 digits, over a power of two. -/
theorem holds_scaled {m k : ℤ} (hm : |m| < 2 ^ 53) (hk : -1074 ≤ k) :
    binary64.Holds (m * 2 ^ k) := ⟨m, k, hm, hk, rfl⟩

theorem holds_intCast {m : ℤ} (hm : |m| < 2 ^ 53) : binary64.Holds m := by
  have h := holds_scaled hm (by decide : -1074 ≤ (0 : ℤ))
  rwa [zpow_zero, mul_one] at h

theorem val_intCast {m : ℤ} (hm : |m| < 2 ^ 53) : (m : Double).val = m :=
  Format.round_eq (holds_intCast hm)

theorem val_natCast {n : ℕ} (hn : n < 2 ^ 53) : (n : Double).val = n := by
  have hm : |(n : ℤ)| < 2 ^ 53 := by
    rw [Nat.abs_cast]
    exact_mod_cast hn
  have h := holds_intCast hm
  rw [Int.cast_natCast] at h
  exact Format.round_eq h

theorem val_ofNat {n : ℕ} (hn : n < 2 ^ 53) : (OfNat.ofNat n : Double).val = n := val_natCast hn

theorem holds_neg (a : Double) : binary64.Holds (-a.val) := by
  obtain ⟨m, k, hm, hk, hval⟩ := a.holds
  refine ⟨-m, k, by rwa [abs_neg], hk, ?_⟩
  rw [hval, Int.cast_neg, neg_mul]

/-- Scaling up by a power of two is exact. -/
theorem holds_mul_two_pow (a : Double) (n : ℕ) : binary64.Holds (a.val * 2 ^ n) := by
  obtain ⟨m, k, hm, hk, hval⟩ := a.holds
  refine ⟨m, k + n, hm, hk.trans (by omega), ?_⟩
  rw [hval, zpow_add₀ two_ne_zero, zpow_natCast, mul_assoc]

end Double

end NetSum.Lib
