import Mathlib.Algebra.BigOperators.Group.List.Basic
import NetSum.Lib.Bytes

/-!
# One's-complement sums

The sum of 16-bit words with the carry of each addition added back in at the low end. As numbers
the words add up modulo `65535 = 2 ^ 16 - 1`, and zero has two representations: the sum is
`0xffff` exactly when the words are not all zero and add up to a multiple of 65535
(`onesSum_eq_allOnes_iff`). Swapping the bytes of a word multiplies it by 256 modulo 65535, so
whether a sum is `0xffff` does not depend on the byte order (`onesSum_swap_iff`).

Software adds the words in 32 bits and brings the carries in afterwards (`foldCarry`). Two such
folds are enough for every 32-bit sum (`foldCarry_foldCarry_lt`).
-/

namespace NetSum.Lib

/-! ## Sums of words -/

/-- Addition with an end-around carry. -/
def onesAdd (a b : BitVec 16) : BitVec 16 :=
  if a.toNat + b.toNat < 65536 then a + b else a + b + 1

/-- The one's-complement sum of a list of words. -/
def onesSum (ws : List (BitVec 16)) : BitVec 16 := ws.foldl onesAdd 0

/-- The words as numbers, added up. -/
def natSum (ws : List (BitVec 16)) : ℕ := (ws.map BitVec.toNat).sum

theorem toNat_onesAdd (a b : BitVec 16) :
    (onesAdd a b).toNat
      = if a.toNat + b.toNat < 65536 then a.toNat + b.toNat else a.toNat + b.toNat - 65535 := by
  have ha := a.isLt
  have hb := b.isLt
  unfold onesAdd
  split
  · rw [BitVec.toNat_add]
    omega
  · rw [BitVec.toNat_add, BitVec.toNat_add, show (1 : BitVec 16).toNat = 1 from rfl]
    omega

/-- Only zeros add up to zero, and the carries keep the sum modulo 65535. -/
theorem foldl_onesAdd (ws : List (BitVec 16)) (a : BitVec 16) :
    (ws.foldl onesAdd a).toNat % 65535 = (a.toNat + natSum ws) % 65535
      ∧ ((ws.foldl onesAdd a).toNat = 0 ↔ a.toNat + natSum ws = 0) := by
  induction ws generalizing a with
  | nil => exact ⟨rfl, Iff.rfl⟩
  | cons w ws ih =>
    obtain ⟨hmod, hzero⟩ := ih (onesAdd a w)
    have hadd := toNat_onesAdd a w
    have hsum : natSum (w :: ws) = w.toNat + natSum ws := rfl
    rw [List.foldl_cons, hmod, hzero, hsum]
    split at hadd
    · omega
    · omega

/-- A sum is all ones when the words add up to a multiple of 65535 and are not all zero. -/
theorem onesSum_eq_allOnes_iff (ws : List (BitVec 16)) :
    onesSum ws = 0xffff#16 ↔ natSum ws % 65535 = 0 ∧ natSum ws ≠ 0 := by
  obtain ⟨hmod, hzero⟩ := foldl_onesAdd ws 0
  have hlt := (onesSum ws).isLt
  rw [← BitVec.toNat_inj]
  simp only [onesSum, show (0 : BitVec 16).toNat = 0 from rfl, Nat.zero_add] at hmod hzero hlt ⊢
  show _ = 65535 ↔ _
  constructor
  · intro h
    omega
  · rintro ⟨h, hne⟩
    have := mt hzero.mp hne
    omega

/-! ## Byte order -/

/-- A word is a high and a low byte. -/
theorem toNat_cat16 (a b : Byte) : (cat16 a b).toNat = 256 * a.toNat + b.toNat := by
  have hb := b.isLt
  show (a ++ b).toNat = _
  rw [BitVec.toNat_append, Nat.shiftLeft_eq, Nat.mul_comm, ← Nat.two_pow_add_eq_or_of_lt hb]

/-- Swapped words add up to 256 times as much, modulo 65535. -/
theorem natSum_swap (ws : List (BitVec 16)) :
    natSum (ws.map swap16) % 65535 = 256 * natSum ws % 65535
      ∧ (natSum (ws.map swap16) = 0 ↔ natSum ws = 0) := by
  induction ws with
  | nil => exact ⟨rfl, Iff.rfl⟩
  | cons w ws ih =>
    obtain ⟨hmod, hzero⟩ := ih
    have hword : w.toNat = 256 * (byte16 w 1).toNat + (byte16 w 0).toNat := by
      rw [← toNat_cat16, cat16_byte16]
    have hswap : (swap16 w).toNat = 256 * (byte16 w 0).toNat + (byte16 w 1).toNat :=
      toNat_cat16 _ _
    have hsum : natSum (w :: ws) = w.toNat + natSum ws := rfl
    have hsum' : natSum ((w :: ws).map swap16) = (swap16 w).toNat + natSum (ws.map swap16) := rfl
    omega

/-- The byte order makes no difference to a sum that verifies. -/
theorem onesSum_swap_iff (ws : List (BitVec 16)) :
    onesSum (ws.map swap16) = 0xffff#16 ↔ onesSum ws = 0xffff#16 := by
  obtain ⟨hmod, hzero⟩ := natSum_swap ws
  rw [onesSum_eq_allOnes_iff, onesSum_eq_allOnes_iff]
  -- 256 is invertible modulo 65535
  omega

/-! ## Folding a 32-bit sum -/

/-- The upper half of a sum added to its lower half. -/
def foldCarry (sum : BitVec 32) : BitVec 32 := (sum &&& 0xffff#32) + sum >>> 16

theorem toNat_foldCarry (sum : BitVec 32) :
    (foldCarry sum).toNat = sum.toNat % 65536 + sum.toNat / 65536 := by
  have hlt := sum.isLt
  have hlow : (sum &&& 0xffff#32).toNat = sum.toNat % 65536 := by
    rw [BitVec.toNat_and]
    exact Nat.and_two_pow_sub_one_eq_mod _ 16
  have hhigh : (sum >>> 16).toNat = sum.toNat / 65536 := by
    rw [BitVec.toNat_ushiftRight, Nat.shiftRight_eq_div_pow]
  rw [foldCarry, BitVec.toNat_add, hlow, hhigh]
  omega

/-- Two folds leave no carry, whatever the sum. -/
theorem foldCarry_foldCarry_lt (sum : BitVec 32) : (foldCarry (foldCarry sum)).toNat < 65536 := by
  have hlt := sum.isLt
  rw [toNat_foldCarry, toNat_foldCarry]
  omega

/-- Two folds keep the sum modulo 65535, and only zero folds to zero. -/
theorem foldCarry_foldCarry_mod (sum : BitVec 32) :
    (foldCarry (foldCarry sum)).toNat % 65535 = sum.toNat % 65535
      ∧ ((foldCarry (foldCarry sum)).toNat = 0 ↔ sum.toNat = 0) := by
  rw [toNat_foldCarry, toNat_foldCarry]
  omega

/-- Up to 65536 words add up in 32 bits without an overflow. -/
theorem toNat_foldl_add {ws : List (BitVec 16)} {a : BitVec 32}
    (h : a.toNat + 65536 * ws.length < 2 ^ 32) :
    (ws.foldl (fun (sum : BitVec 32) w => sum + w.setWidth 32) a).toNat = a.toNat + natSum ws := by
  induction ws generalizing a with
  | nil => rfl
  | cons w ws ih =>
    have hw := w.isLt
    rw [List.length_cons] at h
    have hadd : (a + w.setWidth 32).toNat = a.toNat + w.toNat := by
      rw [BitVec.toNat_add, BitVec.toNat_setWidth]
      omega
    have hsum : natSum (w :: ws) = w.toNat + natSum ws := rfl
    rw [List.foldl_cons, ih (by omega), hadd, hsum]
    omega

/-- The complement of the folded sum of words completes them to all ones. -/
theorem onesSum_complement {ws : List (BitVec 16)} {sum : BitVec 32} {pre post : List (BitVec 16)}
    (hsum : sum.toNat = natSum (pre ++ post))
    (hws : ws = pre ++ ~~~ ((foldCarry (foldCarry sum)).setWidth 16) :: post) :
    onesSum ws = 0xffff#16 := by
  have hlt := foldCarry_foldCarry_lt sum
  obtain ⟨hmod, hzero⟩ := foldCarry_foldCarry_mod sum
  have hword : (~~~ ((foldCarry (foldCarry sum)).setWidth 16)).toNat
      = 65535 - (foldCarry (foldCarry sum)).toNat := by
    rw [BitVec.toNat_not, BitVec.toNat_setWidth, Nat.mod_eq_of_lt hlt]
  have hnat : natSum ws = natSum (pre ++ post)
      + (~~~ ((foldCarry (foldCarry sum)).setWidth 16)).toNat := by
    simp only [hws, natSum, List.map_append, List.map_cons, List.sum_append, List.sum_cons]
    omega
  rw [onesSum_eq_allOnes_iff, hnat, hword]
  omega

end NetSum.Lib
