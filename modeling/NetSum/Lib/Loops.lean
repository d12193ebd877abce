import Mathlib.Algebra.GroupWithZero.Nat
import Mathlib.Logic.Function.Basic
import Mathlib.Data.List.Basic

/-!
# Loops over arrays

An array of `n` elements is a function `Fin n → α`. A loop `for i in 0..m` that rewrites
element `i` in round `i` is a fold of `Function.update` over `List.range m`; `foldl_range_update`
says what it leaves in the array, and `foldl_range_induction` is the invariant rule for loops
of any other shape. A loop with a `break` is a `takeWhile` of the range (`takeWhile_range`,
`exists_takeWhile_range`).
-/

namespace NetSum.Lib

variable {α : Type*}

/-- An invariant indexed by the round holds after the last round. -/
theorem foldl_range_induction {β : Type*} (f : β → ℕ → β) (I : ℕ → β → Prop) {b : β} {m : ℕ}
    (h0 : I 0 b) (hstep : ∀ i b, i < m → I i b → I (i + 1) (f b i)) :
    I m ((List.range m).foldl f b) := by
  induction m with
  | zero => exact h0
  | succ m ih =>
    rw [List.range_succ, List.foldl_append]
    exact hstep m _ (by omega) (ih fun i b hi => hstep i b (by omega))

/-- Rewriting elements `0 … m-1`, each once. -/
theorem foldl_range_update {n : ℕ} [NeZero n] (g : ℕ → α → α) (a : Fin n → α) {m : ℕ}
    (hm : m ≤ n) (j : Fin n) :
    (List.range m).foldl (fun a i => Function.update a (Fin.ofNat n i) (g i (a (Fin.ofNat n i)))) a j
      = if (j : ℕ) < m then g j (a j) else a j := by
  refine foldl_range_induction _ (fun i (b : Fin n → α) => b j = if (j : ℕ) < i then g j (a j) else a j)
    (by simp) ?_
  intro i b hi ih
  by_cases hji : j = Fin.ofNat n i
  · have hval : (j : ℕ) = i := by rw [hji, Fin.val_ofNat, Nat.mod_eq_of_lt (by omega)]
    rw [← hji, Function.update_self, ih, if_neg (by omega), if_pos (by omega), hval]
  · have hval : (j : ℕ) ≠ i := by
      rintro rfl
      exact hji (Fin.ext (by rw [Fin.val_ofNat, Nat.mod_eq_of_lt j.isLt]))
    rw [Function.update_of_ne hji, ih]
    by_cases hlt : (j : ℕ) < i
    · rw [if_pos hlt, if_pos (by omega)]
    · rw [if_neg hlt, if_neg (by omega)]

/-- A loop that breaks at `m` runs its first `m` rounds. -/
theorem takeWhile_range {p : ℕ → Bool} {m n : ℕ} (hmn : m ≤ n)
    (hp : ∀ i < n, p i = decide (i < m)) : (List.range n).takeWhile p = List.range m := by
  obtain ⟨k, rfl⟩ := Nat.exists_eq_add_of_le hmn
  rw [List.range_add, List.takeWhile_append_of_pos]
  · cases k with
    | zero => simp
    | succ k =>
      rw [List.range_succ_eq_map, List.map_cons, List.takeWhile_cons_of_neg, List.append_nil]
      simp [hp]
  · intro i hi
    rw [List.mem_range] at hi
    simp [hp i (by omega), hi]

/-- A loop that ends with the first round that fails. -/
theorem exists_takeWhile_range (p : ℕ → Bool) (n : ℕ) :
    ∃ m ≤ n, (List.range n).takeWhile p = List.range m ∧ (∀ i < m, p i = true)
      ∧ (m < n → p m = false) := by
  induction n with
  | zero => exact ⟨0, Nat.le_refl 0, rfl, fun i hi => absurd hi i.not_lt_zero,
      fun h => absurd h (Nat.lt_irrefl 0)⟩
  | succ n ih =>
    obtain ⟨m, hm, htake, hall, hfail⟩ := ih
    rw [List.range_succ, List.takeWhile_append, htake, List.length_range, List.length_range]
    rcases Nat.eq_or_lt_of_le hm with rfl | hlt
    · rw [if_pos rfl]
      cases hp : p m with
      | false =>
        refine ⟨m, Nat.le_succ m, ?_, hall, fun _ => hp⟩
        rw [List.takeWhile_cons_of_neg (by rw [hp]; exact Bool.false_ne_true), List.append_nil]
      | true =>
        refine ⟨m + 1, Nat.le_refl _, ?_, fun i hi => ?_, fun h => absurd h (Nat.lt_irrefl _)⟩
        · rw [List.takeWhile_cons_of_pos hp, List.range_succ]
          rfl
        · rcases Nat.lt_succ_iff_lt_or_eq.mp hi with hi | rfl
          · exact hall i hi
          · exact hp
    · rw [if_neg (Nat.ne_of_lt hlt)]
      exact ⟨m, by omega, rfl, hall, fun _ => hfail hlt⟩

end NetSum.Lib
