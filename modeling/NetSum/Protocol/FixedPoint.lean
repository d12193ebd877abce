import Mathlib.Algebra.BigOperators.Ring.List
import Mathlib.Data.Rat.Floor
import NetSum.Lib.Double
import NetSum.Lib.Truncation
import NetSum.Protocol.Wire

/-!
# Q16.16

The conversions of `grad_proto.h` between a `double` and the `int32_t` on the wire, and the check
of a deployment's `(num_workers, max_abs)`, on exact numbers. A conversion to `int32_t` truncates,
and is undefined for a value outside the range. The functions of the same names in `Binary64` are
what is computed in doubles: the conversion is the exact one (`Binary64.netsumToFixed_eq`), and a
deployment that passes the check passes the exact one (`Binary64.fits_exactly`).
-/

namespace NetSum.Protocol

open NetSum.Lib

abbrev netsumQFracBits : ℕ := 16

/-- `v * (double)(1 << NETSUM_Q_FRAC_BITS)`, truncated. -/
def fixed (v : ℚ) : ℤ := truncate (v * 2 ^ netsumQFracBits)

/-- Nothing where the conversion is undefined. -/
def netsumToFixed (v : ℚ) : Option (BitVec 32) :=
  if IsInt32 (fixed v) then some (BitVec.ofInt 32 (fixed v)) else none

def netsumToDouble (q : BitVec 32) : ℚ := q.toInt / 2 ^ netsumQFracBits

def netsumSumFitsI32 (numWorkers : ℤ) (maxAbs : ℚ) : Bool :=
  let maxFixedSum := numWorkers * maxAbs * 2 ^ netsumQFracBits
  maxFixedSum < 2147483647 && -maxFixedSum > -2147483648

theorem netsumToFixed_of_isInt32 {v : ℚ} (h : IsInt32 (fixed v)) :
    netsumToFixed v = some (BitVec.ofInt 32 (fixed v)) := if_pos h

/-- What a value on the wire stands for. -/
theorem toInt_of_netsumToFixed {v : ℚ} {q : BitVec 32} (h : netsumToFixed v = some q) :
    q.toInt = fixed v := by
  unfold netsumToFixed at h
  split at h
  · next hint =>
    obtain rfl := Option.some.inj h
    exact toInt_ofInt_of_isInt32 hint
  · cases h

/-! ## In doubles -/

namespace Binary64

/-- `(double)(1 << NETSUM_Q_FRAC_BITS)`. -/
def scale : Double := ((1 <<< netsumQFracBits : ℕ) : Double)

def netsumToFixed (v : Double) : Option (BitVec 32) :=
  let fixed := truncate (v * scale).val
  if IsInt32 fixed then some (BitVec.ofInt 32 fixed) else none

def netsumSumFitsI32 (numWorkers : ℤ) (maxAbs : Double) : Bool :=
  let maxFixedSum := numWorkers * maxAbs * scale
  maxFixedSum.val < 2147483647 && -maxFixedSum.val > -2147483648

/-- Scaling is exact. -/
theorem val_mul_scale (v : Double) : (v * scale).val = v.val * 2 ^ netsumQFracBits := by
  have hscale : scale.val = 2 ^ netsumQFracBits := by
    rw [scale, Double.val_natCast (by decide)]
    norm_num [Nat.shiftLeft_eq]
  rw [Double.val_mul, hscale]
  exact Format.round_eq (v.holds_mul_two_pow netsumQFracBits)

theorem netsumToFixed_eq (v : Double) : netsumToFixed v = Protocol.netsumToFixed v.val := by
  rw [netsumToFixed, val_mul_scale]
  rfl

/-- A deployment that passes the check passes the exact one. -/
theorem fits_exactly {numWorkers : ℤ} (hn : |numWorkers| < 2 ^ 53) {maxAbs : Double}
    (h : netsumSumFitsI32 numWorkers maxAbs = true) :
    Protocol.netsumSumFitsI32 numWorkers maxAbs.val = true := by
  have hval : (numWorkers * maxAbs * scale : Double).val
      = binary64.round (numWorkers * maxAbs.val) * 2 ^ netsumQFracBits := by
    rw [val_mul_scale, Double.val_mul, Double.val_intCast hn]
  simp only [netsumSumFitsI32, hval, Bool.and_eq_true, decide_eq_true_eq] at h
  -- the bound is a number of the format, so rounding does not get below it
  have hbound : (numWorkers * maxAbs.val : ℚ) < (2147483647 : ℤ) * 2 ^ (-16 : ℤ) := by
    by_contra hle
    have hround := Format.le_round (Double.holds_scaled (by decide) (by decide)) (not_lt.mp hle)
    have hlt := h.1
    norm_num at hround hlt
    linarith only [hround, hlt]
  simp only [Protocol.netsumSumFitsI32, Bool.and_eq_true, decide_eq_true_eq]
  norm_num at hbound ⊢
  constructor
  · linarith only [hbound]
  · linarith only [hbound]

end Binary64

/-! ## What the check of a deployment gives -/

/-- The values of at most `n` workers, none of them above the bound of a deployment that passes
the check. -/
structure Deployed (n : ℤ) (maxAbs : ℚ) (vs : List ℚ) : Prop where
  one_le : 1 ≤ n
  fits : netsumSumFitsI32 n maxAbs = true
  length_le : (vs.length : ℤ) ≤ n
  abs_le : ∀ v ∈ vs, |v| ≤ maxAbs

namespace Deployed

variable {n : ℤ} {maxAbs : ℚ} {vs ws : List ℚ}

/-- Any part of the values, in any order. -/
theorem subperm (h : Deployed n maxAbs vs) (hsub : ws.Subperm vs) : Deployed n maxAbs ws where
  one_le := h.one_le
  fits := h.fits
  length_le := (Int.ofNat_le.mpr hsub.length_le).trans h.length_le
  abs_le v hv := h.abs_le v (hsub.subset hv)

/-- The scaled values. -/
theorem abs_scaled_le (h : Deployed n maxAbs vs) :
    ∀ x ∈ vs.map (· * (2 : ℚ) ^ netsumQFracBits), |x| ≤ maxAbs * 2 ^ netsumQFracBits := by
  intro x hx
  obtain ⟨v, hv, rfl⟩ := List.mem_map.mp hx
  rw [abs_mul, abs_of_pos (by positivity : (0 : ℚ) < 2 ^ netsumQFracBits)]
  exact mul_le_mul_of_nonneg_right (h.abs_le v hv) (by positivity)

theorem map_fixed (vs : List ℚ) :
    vs.map fixed = (vs.map (· * (2 : ℚ) ^ netsumQFracBits)).map truncate := by
  rw [List.map_map]
  rfl

/-- The quantized values add up to an `int32_t`. -/
theorem isInt32_sum (h : Deployed n maxAbs vs) : IsInt32 (vs.map fixed).sum := by
  have hfits := h.fits
  simp only [netsumSumFitsI32, Bool.and_eq_true, decide_eq_true_eq] at hfits
  have hbound : |((vs.map fixed).sum : ℚ)| ≤ vs.length * (maxAbs * 2 ^ netsumQFracBits) := by
    rw [map_fixed]
    have hsum := abs_sum_truncate_le h.abs_scaled_le
    rwa [List.length_map] at hsum
  -- without values the bound says nothing, and with one it is not negative
  have hle : |((vs.map fixed).sum : ℚ)| < 2147483647 := by
    cases vs with
    | nil => simp
    | cons v vs =>
      have hmax : 0 ≤ maxAbs := (abs_nonneg v).trans (h.abs_le v (List.mem_cons_self ..))
      have hlen : ((v :: vs).length : ℚ) ≤ n := by exact_mod_cast h.length_le
      have hmul : ((v :: vs).length : ℚ) * (maxAbs * 2 ^ netsumQFracBits)
          ≤ n * (maxAbs * 2 ^ netsumQFracBits) :=
        mul_le_mul_of_nonneg_right hlen (by positivity)
      have hn := hfits.1
      rw [mul_assoc] at hn
      exact hbound.trans_lt (hmul.trans_lt hn)
  rw [abs_lt] at hle
  have hlow : -2147483647 < (vs.map fixed).sum := by exact_mod_cast hle.1
  have hhigh : (vs.map fixed).sum < 2147483647 := by exact_mod_cast hle.2
  exact ⟨by omega, by omega⟩

/-- Every value can be quantized. -/
theorem netsumToFixed_eq (h : Deployed n maxAbs vs) {v : ℚ} (hv : v ∈ vs) :
    IsInt32 (fixed v) ∧ netsumToFixed v = some (BitVec.ofInt 32 (fixed v)) := by
  have hone : Deployed n maxAbs [v] := h.subperm (List.singleton_subperm_iff.mpr hv)
  have hint : IsInt32 (fixed v) := by simpa using hone.isInt32_sum
  exact ⟨hint, netsumToFixed_of_isInt32 hint⟩

/-- A register that adds the quantized values up holds their sum. -/
theorem toInt_sum (h : Deployed n maxAbs vs) {qs : List (BitVec 32)}
    (hqs : qs.map BitVec.toInt = vs.map fixed) : qs.sum.toInt = (vs.map fixed).sum := by
  obtain ⟨hlow, hhigh⟩ := h.isInt32_sum
  rw [toInt_sum_of_fits (by decide) (hqs ▸ hlow) (hqs ▸ hhigh), hqs]

/-- What the sum stands for is off by less than one unit in the last place a worker. -/
theorem abs_netsumToDouble_sub_lt (h : Deployed n maxAbs vs) {q : BitVec 32}
    (hq : q.toInt = (vs.map fixed).sum) :
    |netsumToDouble q - vs.sum| < n / 2 ^ netsumQFracBits := by
  have hn : (0 : ℚ) < n := by exact_mod_cast h.one_le
  have hlen : ((vs.map (· * (2 : ℚ) ^ netsumQFracBits)).length : ℚ) ≤ n := by
    rw [List.length_map]
    exact_mod_cast h.length_le
  have herror := abs_sum_truncate_sub_lt hn hlen
  rw [← map_fixed, List.sum_map_mul_right, List.map_id'] at herror
  have hpos : (0 : ℚ) < 2 ^ netsumQFracBits := by positivity
  have hscale : netsumToDouble q - vs.sum
      = (((vs.map fixed).sum : ℚ) - vs.sum * 2 ^ netsumQFracBits) / 2 ^ netsumQFracBits := by
    rw [netsumToDouble, hq, sub_div, mul_div_assoc, div_self hpos.ne', mul_one]
  rw [hscale, abs_div, abs_of_pos hpos]
  exact div_lt_div_of_pos_right herror hpos

end Deployed

end NetSum.Protocol
