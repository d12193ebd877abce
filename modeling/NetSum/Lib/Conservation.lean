import Mathlib.Algebra.BigOperators.Group.Finset.Basic
import NetSum.Lib.Probe
import NetSum.Lib.Runs

/-!
# Conservation

What the entries of a table hold is measured in a commutative monoid. `stock p` is the measure of
all entries whose key satisfies `p`; when one entry changes it changes by that entry's share
(`stock_change`), and clearing entries takes their shares away (`stock_clear`). `flow` sums a
measure over the steps of a run. If in each step what comes in is what goes out and what the stock
grows by, then so it is over the whole run (`conserved_run`).
-/

namespace NetSum.Lib

open Finset

/-! ## Stocks -/

section

variable {n : ℕ} {κ M : Type*} [AddCommMonoid M]

/-- What entry `i` holds for the keys that satisfy `p`. -/
def share (occ : Fin n → Option κ) (w : Fin n → M) (p : κ → Bool) (i : Fin n) : M :=
  if (occ i).any p then w i else 0

/-- What the entries hold for the keys that satisfy `p`. -/
def stock (occ : Fin n → Option κ) (w : Fin n → M) (p : κ → Bool) : M := ∑ i, share occ w p i

variable {occ occ' : Fin n → Option κ} {w w' : Fin n → M} {p : κ → Bool} {i : Fin n} {k : κ}

theorem share_of_free (h : occ i = none) : share occ w p i = 0 := by
  rw [share, h]
  exact if_neg Bool.false_ne_true

theorem share_of_held (h : occ i = some k) : share occ w p i = if p k then w i else 0 := by
  rw [share, h, Option.any_some]

theorem share_congr (hocc : occ' i = occ i) (hw : w' i = w i) :
    share occ' w' p i = share occ w p i := by
  rw [share, share, hocc, hw]

theorem stock_of_free (h : ∀ i, occ i = none) : stock occ w p = 0 :=
  sum_eq_zero fun i _ => share_of_free (h i)

/-- One entry changes. -/
theorem stock_change (hocc : ∀ j ≠ i, occ' j = occ j) (hw : ∀ j ≠ i, w' j = w j) :
    stock occ' w' p + share occ w p i = stock occ w p + share occ' w' p i := by
  have hrest : ∑ j ∈ univ.erase i, share occ' w' p j = ∑ j ∈ univ.erase i, share occ w p j := by
    refine sum_congr rfl fun j hj => ?_
    have hne := ne_of_mem_erase hj
    exact share_congr (hocc j hne) (hw j hne)
  rw [stock, stock, ← add_sum_erase univ _ (mem_univ i), hrest,
    ← add_sum_erase univ (share occ w p) (mem_univ i), add_right_comm, add_comm (share occ' w' p i),
    add_right_comm]

/-- The entries of `E` are cleared. -/
theorem stock_clear {E : Finset (Fin n)} (hE : ∀ i ∈ E, occ' i = none)
    (hoff : ∀ i ∉ E, occ' i = occ i ∧ w' i = w i) :
    stock occ' w' p + ∑ i ∈ E, share occ w p i = stock occ w p := by
  have hcleared : ∑ i ∈ E, share occ' w' p i = 0 := sum_eq_zero fun i hi => share_of_free (hE i hi)
  have hkept : ∑ i ∈ Eᶜ, share occ' w' p i = ∑ i ∈ Eᶜ, share occ w p i := by
    refine sum_congr rfl fun i hi => ?_
    obtain ⟨hocc, hw⟩ := hoff i (mem_compl.mp hi)
    exact share_congr hocc hw
  rw [stock, stock, ← sum_add_sum_compl E, hcleared, hkept, zero_add, add_comm,
    sum_add_sum_compl]

end

/-! ## Flows -/

section

variable {σ ε ω M : Type*} [AddCommMonoid M] {step : σ → ε → σ × ω}

/-- The sum of `f` over the steps of a run. -/
def flow (step : σ → ε → σ × ω) (f : σ → ε → M) : σ → List ε → M
  | _, [] => 0
  | s, e :: es => f s e + flow step f (step s e).1 es

theorem flow_add (f g : σ → ε → M) (s : σ) (es : List ε) :
    flow step (fun s e => f s e + g s e) s es = flow step f s es + flow step g s es := by
  induction es generalizing s with
  | nil => exact (add_zero 0).symm
  | cons e es ih =>
    rw [flow, flow, flow, ih, add_add_add_comm]

/-- What is conserved in each step is conserved over the run. -/
theorem conserved_run (held : σ → M) (inflow outflow : σ → ε → M) (I : σ → Prop)
    (hkeep : ∀ s e, I s → I (step s e).1)
    (hstep : ∀ s e, I s → held (step s e).1 + outflow s e = held s + inflow s e) {s : σ} (h0 : I s)
    (es : List ε) :
    held (runState step s es) + flow step outflow s es = held s + flow step inflow s es := by
  induction es generalizing s with
  | nil => rfl
  | cons e es ih =>
    rw [runState_cons, flow, flow, add_left_comm, ih (hkeep s e h0), ← add_assoc, ← add_assoc,
      add_comm (outflow s e), hstep s e h0]

end

end NetSum.Lib
