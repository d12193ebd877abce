import Mathlib.Algebra.BigOperators.Fin
import Mathlib.Algebra.Order.Chebyshev
import NetSum.Lib.Fairness

/-!
# Jain's index

`scripts/fairness_sweep.py` rates an outcome, the number of slots each job occupies, by Jain's
index. The index is between `1 / n` and `1`, and `1` only when all occupy the same; and when each
job gets its demand up to a quota, a lower quota never rates worse (`jainsIndex_min_antitone`). The
floats of the script are rationals here.
-/

namespace NetSum.Scripts

open NetSum.Lib

def jainsIndex (values : List ℕ) : ℚ :=
  let n := values.length
  if n = 0 then 0
  else
    let s := values.sum
    let sq := (values.map fun v => v * v).sum
    if sq = 0 then 1 else (s * s : ℚ) / (n * sq)

/-! ## As sums over the positions -/

/-- The value at a position. -/
def share (values : List ℕ) (i : Fin values.length) : ℚ := values[i]

theorem share_nonneg (values : List ℕ) (i : Fin values.length) : 0 ≤ share values i :=
  Nat.cast_nonneg _

/-- A sum over a list is a sum over its positions. -/
theorem sum_positions (d : List ℕ) (k : ℕ → ℕ) :
    ∑ i : Fin d.length, (k d[i] : ℚ) = ((d.map k).sum : ℕ) := by
  rw [Nat.cast_list_sum, List.map_map]
  exact Fin.sum_univ_fun_getElem d (Nat.cast ∘ k)

theorem sum_share (values : List ℕ) : ∑ i, share values i = (values.sum : ℚ) := by
  have hsum := sum_positions values id
  rwa [List.map_id] at hsum

theorem sum_share_sq (values : List ℕ) :
    ∑ i, share values i ^ 2 = ((values.map fun v => v * v).sum : ℕ) := by
  rw [← sum_positions]
  exact Finset.sum_congr rfl fun i _ => by rw [Nat.cast_mul]; exact sq _

/-- Somebody has something. -/
def NotAllZero (values : List ℕ) : Prop := ∃ v ∈ values, v ≠ 0

theorem NotAllZero.length_pos {values : List ℕ} (h : NotAllZero values) : 0 < values.length := by
  obtain ⟨v, hv, -⟩ := h
  exact List.length_pos_of_mem hv

theorem NotAllZero.sum_sq_pos {values : List ℕ} (h : NotAllZero values) :
    0 < (values.map fun v => v * v).sum := by
  obtain ⟨v, hv, hne⟩ := h
  have hmem : v * v ∈ values.map fun v => v * v := List.mem_map_of_mem hv
  have hle := List.le_sum_of_mem hmem
  have hpos : 0 < v * v := Nat.mul_pos (Nat.pos_of_ne_zero hne) (Nat.pos_of_ne_zero hne)
  omega

/-- The index of a list that is not all zeros. -/
theorem jainsIndex_eq {values : List ℕ} (h : NotAllZero values) :
    0 < (values.length : ℚ) ∧ 0 < ∑ i, share values i ^ 2
      ∧ jainsIndex values = (∑ i, share values i) ^ 2 / (values.length * ∑ i, share values i ^ 2) := by
  have hlen := h.length_pos
  have hsq := h.sum_sq_pos
  refine ⟨by exact_mod_cast hlen, by rw [sum_share_sq]; exact_mod_cast hsq, ?_⟩
  unfold jainsIndex
  rw [if_neg (by omega), if_neg (by omega), sum_share, sum_share_sq, sq]

/-! ## Bounds -/

theorem one_div_le_jainsIndex {values : List ℕ} (h : NotAllZero values) :
    1 / values.length ≤ jainsIndex values := by
  obtain ⟨hlen, hsq, heq⟩ := jainsIndex_eq h
  have hle := Finset.sum_sq_le_sq_sum_of_nonneg (s := Finset.univ)
    (fun i _ => share_nonneg values i)
  rw [heq, div_le_div_iff₀ hlen (mul_pos hlen hsq), one_mul, mul_comm]
  exact mul_le_mul_of_nonneg_right hle hlen.le

theorem jainsIndex_le_one {values : List ℕ} (h : NotAllZero values) : jainsIndex values ≤ 1 := by
  obtain ⟨hlen, hsq, heq⟩ := jainsIndex_eq h
  have hle := sq_sum_le_card_mul_sum_sq (s := Finset.univ) (f := share values)
  rw [Finset.card_univ, Fintype.card_fin] at hle
  rw [heq, div_le_one (mul_pos hlen hsq)]
  exact hle

theorem jainsIndex_eq_one_iff {values : List ℕ} (h : NotAllZero values) :
    jainsIndex values = 1 ↔ ∀ a ∈ values, ∀ b ∈ values, a = b := by
  obtain ⟨hlen, hsq, heq⟩ := jainsIndex_eq h
  have hiff := sq_sum_eq_card_mul_sum_sq_iff (s := Finset.univ) (share values)
  rw [Finset.card_univ, Fintype.card_fin] at hiff
  rw [heq, div_eq_one_iff_eq (mul_pos hlen hsq).ne', hiff]
  constructor
  · intro hall a ha b hb
    obtain ⟨i, hi, rfl⟩ := List.getElem_of_mem ha
    obtain ⟨j, hj, rfl⟩ := List.getElem_of_mem hb
    have hij := hall ⟨i, hi⟩ (Finset.mem_univ _) ⟨j, hj⟩ (Finset.mem_univ _)
    exact Nat.cast_injective hij
  · intro hall i _ j _
    have hij := hall values[i] (List.getElem_mem _) values[j] (List.getElem_mem _)
    exact congrArg Nat.cast hij

/-! ## Quotas -/

/-- Of two outcomes for the same jobs, the one that is more even in the sense of `RatioGrows` rates
no worse. -/
theorem jainsIndex_le_of_ratioGrows {d : List ℕ} {f g : ℕ → ℕ} (hf : NotAllZero (d.map f))
    (hg : NotAllZero (d.map g))
    (h : RatioGrows Finset.univ (fun i : Fin d.length => (f d[i] : ℚ)) fun i => (g d[i] : ℚ)) :
    jainsIndex (d.map g) ≤ jainsIndex (d.map f) := by
  have hsum : ∀ k : ℕ → ℕ, ∑ i, share (d.map k) i = ∑ i : Fin d.length, (k d[i] : ℚ) := by
    intro k
    rw [sum_share, sum_positions]
  have hsum_sq : ∀ k : ℕ → ℕ,
      ∑ i, share (d.map k) i ^ 2 = ∑ i : Fin d.length, (k d[i] : ℚ) ^ 2 := by
    intro k
    rw [sum_share_sq, List.map_map, ← sum_positions]
    refine Finset.sum_congr rfl fun i _ => ?_
    rw [Function.comp, Nat.cast_mul, sq]
  obtain ⟨hlen, hsqf, heqf⟩ := jainsIndex_eq hf
  obtain ⟨-, hsqg, heqg⟩ := jainsIndex_eq hg
  have hle := h.sq_sum_mul_sum_sq_le fun i _ => Nat.cast_nonneg _
  rw [heqf, heqg, div_le_div_iff₀ (by simpa using mul_pos hlen hsqg) (mul_pos hlen hsqf)]
  rw [hsum, hsum, hsum_sq, hsum_sq, List.length_map, List.length_map]
  rw [List.length_map] at hlen
  calc _ = (d.length : ℚ) * ((∑ i : Fin d.length, (g d[i] : ℚ)) ^ 2
        * ∑ i : Fin d.length, (f d[i] : ℚ) ^ 2) := by ring
    _ ≤ (d.length : ℚ) * ((∑ i : Fin d.length, (f d[i] : ℚ)) ^ 2
        * ∑ i : Fin d.length, (g d[i] : ℚ) ^ 2) := mul_le_mul_of_nonneg_left hle hlen.le
    _ = _ := by ring

theorem NotAllZero.map_min {d : List ℕ} (h : NotAllZero d) {q : ℕ} (hq : 0 < q) :
    NotAllZero (d.map fun v => min v q) := by
  obtain ⟨v, hv, hne⟩ := h
  exact ⟨min v q, List.mem_map_of_mem hv, by omega⟩

/-- A quota of `q` rates no worse than any outcome that gives a job its demand below `q` and at
least `q` elsewhere. -/
theorem jainsIndex_le_min {d : List ℕ} {q : ℕ} (hq : 0 < q) {g : ℕ → ℕ} (hd : NotAllZero d)
    (hg : NotAllZero (d.map g)) (hbelow : ∀ v, v ≤ q → g v = v) (habove : ∀ v, q ≤ v → q ≤ g v) :
    jainsIndex (d.map g) ≤ jainsIndex (d.map fun v => min v q) := by
  refine jainsIndex_le_of_ratioGrows (hd.map_min hq) hg ?_
  have hgrows := ratioGrows_min (s := Finset.univ) (p := (q : ℚ))
    (d := fun i : Fin d.length => (d[i] : ℚ)) (b := fun i => (g d[i] : ℚ))
    (fun i _ => Nat.cast_nonneg _) (fun i _ hi => ?_) fun i _ hi => ?_
  · simpa only [Nat.cast_min] using hgrows
  · exact congrArg Nat.cast (hbelow _ (by exact_mod_cast hi))
  · exact_mod_cast habove _ (by exact_mod_cast hi)

/-- The lower of two quotas rates no worse. -/
theorem jainsIndex_min_antitone {d : List ℕ} (hd : NotAllZero d) {q₁ q₂ : ℕ} (hq : 0 < q₁)
    (hle : q₁ ≤ q₂) :
    jainsIndex (d.map fun v => min v q₂) ≤ jainsIndex (d.map fun v => min v q₁) := by
  apply jainsIndex_le_min hq hd (hd.map_min (by omega))
  · intro v hv
    exact min_eq_left (by omega)
  · intro v hv
    exact le_min hv hle

/-- Any quota rates no worse than none. -/
theorem jainsIndex_le_of_quota {d : List ℕ} (hd : NotAllZero d) {q : ℕ} (hq : 0 < q) :
    jainsIndex d ≤ jainsIndex (d.map fun v => min v q) := by
  have hsame := jainsIndex_le_min (g := id) hq hd (by rwa [List.map_id]) (fun v _ => rfl)
    fun v hv => hv
  rwa [List.map_id] at hsame

/-- **Tightening the quota never makes the outcome less fair.** -/
theorem jainsIndex_quota :
    (∀ x : List ℕ, NotAllZero x → 1 / x.length ≤ jainsIndex x ∧ jainsIndex x ≤ 1
      ∧ (jainsIndex x = 1 ↔ ∀ a ∈ x, ∀ b ∈ x, a = b))
    ∧ ∀ d : List ℕ, NotAllZero d → ∀ q₁ q₂ : ℕ, 0 < q₁ → q₁ ≤ q₂ →
      jainsIndex (d.map fun v => min v q₂) ≤ jainsIndex (d.map fun v => min v q₁)
        ∧ jainsIndex d ≤ jainsIndex (d.map fun v => min v q₂) := by
  constructor
  · intro x hx
    exact ⟨one_div_le_jainsIndex hx, jainsIndex_le_one hx, jainsIndex_eq_one_iff hx⟩
  · intro d hd q₁ q₂ hq hle
    exact ⟨jainsIndex_min_antitone hd hq hle, jainsIndex_le_of_quota hd (by omega)⟩

/-- The demands of the sweep's three jobs, unlimited and at quotas 8 and 4. -/
theorem jainsIndex_three_jobs :
    1 / 3 ≤ jainsIndex [16, 4, 8] ∧ jainsIndex [16, 4, 8] ≤ jainsIndex [8, 4, 8]
      ∧ jainsIndex [8, 4, 8] ≤ jainsIndex [4, 4, 4] := by
  have hd : NotAllZero [16, 4, 8] := ⟨16, by decide, by decide⟩
  have hquota := jainsIndex_quota.2 [16, 4, 8] hd 4 8 (by decide) (by decide)
  exact ⟨(jainsIndex_quota.1 [16, 4, 8] hd).1, hquota.2, hquota.1⟩

end NetSum.Scripts
