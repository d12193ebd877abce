import Mathlib.Data.List.Basic
import Mathlib.Data.Nat.ModEq
import Mathlib.Data.Nat.Prime.Basic

/-!
# FNV-1a

The hash of a string of bytes: every byte is combined with the state, which is then multiplied by a
prime. A table uses the lowest bits of the hash only. These are the FNV-1a hash of that width
(`setWidth_fnv1a`), because neither operation moves a bit to the right; and as the prime is odd, a
byte can be told from another in the same place, whatever comes after it
(`setWidth_fnv1a_ne`).
-/

namespace NetSum.Lib

variable {w n : ℕ}

def fnvStep (prime h : BitVec w) (b : BitVec 8) : BitVec w := (h ^^^ b.setWidth w) * prime

def fnv1a (prime basis : BitVec w) (bs : List (BitVec 8)) : BitVec w :=
  bs.foldl (fnvStep prime) basis

/-- An odd factor can be cancelled. -/
theorem eq_of_mul_odd {a b p : BitVec w} (hp : Odd p.toNat) (h : a * p = b * p) : a = b := by
  have hmod : a.toNat * p.toNat ≡ b.toNat * p.toNat [MOD 2 ^ w] := by
    have := congrArg BitVec.toNat h
    rwa [BitVec.toNat_mul, BitVec.toNat_mul] at this
  have hcop : (2 ^ w).gcd p.toNat = 1 := (Nat.coprime_two_left.mpr hp).pow_left w
  have hab := Nat.ModEq.cancel_right_of_coprime hcop hmod
  apply BitVec.eq_of_toNat_eq
  rwa [Nat.ModEq, Nat.mod_eq_of_lt a.isLt, Nat.mod_eq_of_lt b.isLt] at hab

variable {p h h' : BitVec w} {b b' : BitVec 8}

theorem fnvStep_inj (hp : Odd p.toNat) : fnvStep p h b = fnvStep p h' b ↔ h = h' := by
  constructor
  · intro heq
    have hxor := eq_of_mul_odd hp heq
    rw [← BitVec.xor_right_inj (b.setWidth w), BitVec.xor_comm _ h, BitVec.xor_comm _ h']
    exact hxor
  · rintro rfl
    rfl

/-- From one state, distinct bytes lead to distinct states. -/
theorem fnvStep_ne (hp : Odd p.toNat) (hw : 8 ≤ w) (hb : b ≠ b') :
    fnvStep p h b ≠ fnvStep p h b' := by
  intro heq
  have hxor := eq_of_mul_odd hp heq
  rw [BitVec.xor_right_inj] at hxor
  apply hb
  have hnat := congrArg BitVec.toNat hxor
  have hle : (2 : ℕ) ^ 8 ≤ 2 ^ w := Nat.pow_le_pow_right (by decide) hw
  rw [BitVec.toNat_setWidth, BitVec.toNat_setWidth, Nat.mod_eq_of_lt (b.isLt.trans_le hle),
    Nat.mod_eq_of_lt (b'.isLt.trans_le hle)] at hnat
  exact BitVec.eq_of_toNat_eq hnat

/-- Distinct states stay distinct while the same bytes are hashed. -/
theorem fnv1a_inj (hp : Odd p.toNat) (bs : List (BitVec 8)) :
    fnv1a p h bs = fnv1a p h' bs ↔ h = h' := by
  induction bs generalizing h h' with
  | nil => rfl
  | cons b bs ih =>
    show fnv1a p (fnvStep p h b) bs = fnv1a p (fnvStep p h' b) bs ↔ h = h'
    rw [ih, fnvStep_inj hp]

theorem fnv1a_append (basis : BitVec w) (bs bs' : List (BitVec 8)) :
    fnv1a p basis (bs ++ bs') = fnv1a p (fnv1a p basis bs) bs' := List.foldl_append

/-- Strings that differ in one byte have distinct hashes. -/
theorem fnv1a_ne (hp : Odd p.toNat) (hw : 8 ≤ w) (hb : b ≠ b') (basis : BitVec w)
    (pre post : List (BitVec 8)) :
    fnv1a p basis (pre ++ b :: post) ≠ fnv1a p basis (pre ++ b' :: post) := by
  rw [fnv1a_append, fnv1a_append]
  show fnv1a p (fnvStep p (fnv1a p basis pre) b) post
    ≠ fnv1a p (fnvStep p (fnv1a p basis pre) b') post
  rw [Ne, fnv1a_inj hp]
  exact fnvStep_ne hp hw hb

/-! ## The lowest bits -/

theorem setWidth_fnvStep (hn : n ≤ w) (p h : BitVec w) (b : BitVec 8) :
    (fnvStep p h b).setWidth n = fnvStep (p.setWidth n) (h.setWidth n) b := by
  rw [fnvStep, fnvStep, BitVec.setWidth_mul _ _ hn, BitVec.setWidth_xor,
    BitVec.setWidth_setWidth_of_le _ hn]

/-- The lowest bits of a hash are a hash. -/
theorem setWidth_fnv1a (hn : n ≤ w) (p basis : BitVec w) (bs : List (BitVec 8)) :
    (fnv1a p basis bs).setWidth n = fnv1a (p.setWidth n) (basis.setWidth n) bs := by
  induction bs generalizing basis with
  | nil => rfl
  | cons b bs ih =>
    show (fnv1a p (fnvStep p basis b) bs).setWidth n
      = fnv1a (p.setWidth n) (fnvStep (p.setWidth n) (basis.setWidth n) b) bs
    rw [ih, setWidth_fnvStep hn]

/-- Strings that differ in one byte differ in the lowest bits of the hash too. -/
theorem setWidth_fnv1a_ne (hp : Odd p.toNat) (hn8 : 8 ≤ n) (hn : n ≤ w) (hb : b ≠ b')
    (basis : BitVec w) (pre post : List (BitVec 8)) :
    (fnv1a p basis (pre ++ b :: post)).setWidth n
      ≠ (fnv1a p basis (pre ++ b' :: post)).setWidth n := by
  have hodd : Odd (p.setWidth n).toNat := by
    rw [BitVec.toNat_setWidth, Nat.odd_iff,
      Nat.mod_mod_of_dvd _ (dvd_pow_self 2 (by omega : n ≠ 0))]
    exact Nat.odd_iff.mp hp
  rw [setWidth_fnv1a hn, setWidth_fnv1a hn]
  exact fnv1a_ne hodd hn8 hb _ pre post

end NetSum.Lib
