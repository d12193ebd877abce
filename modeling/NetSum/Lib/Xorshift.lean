import Mathlib.Logic.Function.Iterate

/-!
# Xorshift generators

A word is combined with itself shifted, to the left, to the right and to the left again. Each of
the three steps can be undone, because a word that is equal to itself shifted is zero
(`eq_zero_of_shiftLeft_eq`). So a generator takes distinct states to distinct states, and only zero
to zero, however often it runs (`iterate_xorshift_inj`, `iterate_xorshift_ne_zero`).
-/

namespace NetSum.Lib

variable {w : ℕ}

/-- The lowest bits of a word shifted to the left are zero, and so are all others if nothing
changed. -/
theorem eq_zero_of_shiftLeft_eq {d : BitVec w} {n : ℕ} (hn : 0 < n) (h : d <<< n = d) : d = 0#w := by
  have hbit : ∀ i, d.getLsbD i = false := by
    intro i
    induction i using Nat.strongRecOn with
    | ind i ih =>
      rw [← h, BitVec.getLsbD_shiftLeft]
      by_cases hi : i < n
      · simp [hi]
      · rw [ih (i - n) (by omega), Bool.and_false]
  apply BitVec.eq_of_getLsbD_eq
  intro i _
  rw [hbit, BitVec.getLsbD_zero]

/-- The same to the right, from the highest bit down. -/
theorem eq_zero_of_ushiftRight_eq {d : BitVec w} {n : ℕ} (hn : 0 < n) (h : d >>> n = d) :
    d = 0#w := by
  have hbit : ∀ m i, w ≤ i + m → d.getLsbD i = false := by
    intro m
    induction m with
    | zero => exact fun i hi => BitVec.getLsbD_of_ge d i hi
    | succ m ih =>
      intro i hi
      rw [← h, BitVec.getLsbD_ushiftRight]
      exact ih (n + i) (by omega)
  apply BitVec.eq_of_getLsbD_eq
  intro i _
  rw [hbit w i (by omega), BitVec.getLsbD_zero]

/-- A step of a generator takes apart what differs, if it does so for the difference. -/
theorem xor_injective_of_linear {f : BitVec w → BitVec w} (hf : ∀ x y, f (x ^^^ y) = f x ^^^ f y)
    (hzero : ∀ d, f d = d → d = 0#w) : Function.Injective fun x => x ^^^ f x := by
  intro x y h
  have hxy : x ^^^ f x = y ^^^ f y := h
  -- the difference is a fixed point
  have hfix : f (x ^^^ y) = x ^^^ y := by
    rw [hf]
    have hcancel : (x ^^^ y) ^^^ (f x ^^^ f y) = (x ^^^ f x) ^^^ (y ^^^ f y) := by
      ac_rfl
    rw [hxy, BitVec.xor_self, BitVec.xor_eq_zero_iff] at hcancel
    exact hcancel.symm
  exact BitVec.xor_eq_zero_iff.mp (hzero _ hfix)

theorem xor_shiftLeft_injective {n : ℕ} (hn : 0 < n) :
    Function.Injective fun x : BitVec w => x ^^^ x <<< n :=
  xor_injective_of_linear (fun x y => BitVec.shiftLeft_xor_distrib x y n) fun _ =>
    eq_zero_of_shiftLeft_eq hn

theorem xor_ushiftRight_injective {n : ℕ} (hn : 0 < n) :
    Function.Injective fun x : BitVec w => x ^^^ x >>> n :=
  xor_injective_of_linear (fun x y => BitVec.ushiftRight_xor_distrib x y n) fun _ =>
    eq_zero_of_ushiftRight_eq hn

/-- The next state of the generator with the shifts `a`, `b` and `c`. -/
def xorshift (a b c : ℕ) (x : BitVec w) : BitVec w :=
  let x := x ^^^ x <<< a
  let x := x ^^^ x >>> b
  x ^^^ x <<< c

variable {a b c : ℕ}

theorem xorshift_injective (ha : 0 < a) (hb : 0 < b) (hc : 0 < c) :
    Function.Injective (xorshift a b c : BitVec w → BitVec w) :=
  (xor_shiftLeft_injective hc).comp ((xor_ushiftRight_injective hb).comp
    (xor_shiftLeft_injective ha))

@[simp] theorem xorshift_zero (a b c : ℕ) : xorshift a b c 0#w = 0#w := by
  simp [xorshift]

/-- Generators that start in different states are in different states after any number of draws. -/
theorem iterate_xorshift_inj (ha : 0 < a) (hb : 0 < b) (hc : 0 < c) {x y : BitVec w} (n : ℕ) :
    (xorshift a b c)^[n] x = (xorshift a b c)^[n] y ↔ x = y :=
  ((xorshift_injective ha hb hc).iterate n).eq_iff

/-- A generator never gets stuck in the state zero. -/
theorem iterate_xorshift_ne_zero (ha : 0 < a) (hb : 0 < b) (hc : 0 < c) {x : BitVec w}
    (hx : x ≠ 0#w) (n : ℕ) : (xorshift a b c)^[n] x ≠ 0#w := by
  have hzero : (xorshift a b c)^[n] 0#w = 0#w :=
    Function.iterate_fixed (xorshift_zero a b c) n
  intro h
  rw [← hzero] at h
  exact hx ((iterate_xorshift_inj ha hb hc n).mp h)

end NetSum.Lib
