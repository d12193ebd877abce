import Mathlib.Algebra.BigOperators.Group.Finset.Basic
import Mathlib.Data.Fintype.Basic

/-!
# Interleaved threads

Threads share a memory, and each has a local state of its own. `act` is one atomic step of a
thread: from the memory, its local state and an input to the memory, its local state and an
output. A step of the system is a step of one thread (`Threads.step`), so a list of thread and
input pairs is an interleaving.

`Keeps` is the invariant of such a system: a condition on the memory, an assertion of each thread
about the memory, and a relation between the local states of every two threads. A step keeps it
if the thread that acts establishes its part, and does not interfere with the others
(`Keeps.step`). `total` sums a number over the threads; a step moves it by what the acting
thread's number moves.
-/

namespace NetSum.Lib

variable {C M L I O : Type}

/-- A memory shared by threads, and the local state of each. -/
structure Threads (C M L : Type) where
  mem : M
  loc : C → L

namespace Threads

variable [DecidableEq C]

/-- One thread takes a step. -/
def step (act : M → L → I → M × L × O) (s : Threads C M L) (ev : C × I) : Threads C M L × O :=
  let r := act s.mem (s.loc ev.1) ev.2
  (⟨r.1, Function.update s.loc ev.1 r.2.1⟩, r.2.2)

variable {act : M → L → I → M × L × O} {s : Threads C M L} {c : C} {i : I}

theorem step_mem : (step act s (c, i)).1.mem = (act s.mem (s.loc c) i).1 := rfl

theorem step_loc_self : (step act s (c, i)).1.loc c = (act s.mem (s.loc c) i).2.1 :=
  Function.update_self ..

theorem step_loc_of_ne {d : C} (h : d ≠ c) : (step act s (c, i)).1.loc d = s.loc d :=
  Function.update_of_ne h ..

/-! ## Invariants -/

/-- The memory satisfies `J`, every thread its assertion `A`, and every two threads `X`. -/
structure Keeps (J : M → Prop) (A : C → M → L → Prop) (X : L → L → Prop)
    (s : Threads C M L) : Prop where
  mem : J s.mem
  loc : ∀ c, A c s.mem (s.loc c)
  apart : ∀ c d, c ≠ d → X (s.loc c) (s.loc d)

/-- **Non-interference.** The acting thread establishes the condition on the memory and its own
assertion, and keeps the assertion of every other thread and its relation to it. -/
theorem Keeps.step {J J' : M → Prop} {A A' : C → M → L → Prop} {X : L → L → Prop}
    (h : s.Keeps J A X) (hX : ∀ l l', X l l' → X l' l)
    (hmem : J' (act s.mem (s.loc c) i).1)
    (hown : A' c (act s.mem (s.loc c) i).1 (act s.mem (s.loc c) i).2.1)
    (hother : ∀ d, d ≠ c → A d s.mem (s.loc d) → X (s.loc c) (s.loc d) →
      A' d (act s.mem (s.loc c) i).1 (s.loc d) ∧ X (act s.mem (s.loc c) i).2.1 (s.loc d)) :
    (Threads.step act s (c, i)).1.Keeps J' A' X := by
  have hkept : ∀ d, d ≠ c → A' d (act s.mem (s.loc c) i).1 (s.loc d)
      ∧ X (act s.mem (s.loc c) i).2.1 (s.loc d) :=
    fun d hd => hother d hd (h.loc d) (h.apart c d hd.symm)
  -- only the thread that stepped has moved
  refine ⟨hmem, fun d => ?_, fun d e hde => ?_⟩
  · by_cases hd : d = c
    · rw [hd, step_mem, step_loc_self]
      exact hown
    · rw [step_mem, step_loc_of_ne hd]
      exact (hkept d hd).1
  · by_cases hd : d = c
    · rw [hd, step_loc_self, step_loc_of_ne (hd ▸ hde.symm)]
      exact (hkept e (hd ▸ hde.symm)).2
    · rw [step_loc_of_ne hd]
      by_cases he : e = c
      · rw [he, step_loc_self]
        exact hX _ _ (hkept d hd).2
      · rw [step_loc_of_ne he]
        exact h.apart d e hde

/-! ## Sums over the threads -/

variable [Fintype C]

/-- The sum of a number over the threads. -/
def total (f : L → ℕ) (s : Threads C M L) : ℕ := ∑ c, f (s.loc c)

/-- A step moves the sum by what the acting thread's number moves. -/
theorem total_step (f : L → ℕ) (act : M → L → I → M × L × O) (s : Threads C M L) (c : C) (i : I) :
    (Threads.step act s (c, i)).1.total f + f (s.loc c)
      = s.total f + f (act s.mem (s.loc c) i).2.1 := by
  have hsum : ∀ t : Threads C M L, t.total f = f (t.loc c) + ∑ d ∈ Finset.univ.erase c, f (t.loc d) :=
    fun t => (Finset.add_sum_erase Finset.univ (fun d => f (t.loc d)) (Finset.mem_univ c)).symm
  have hrest : ∑ d ∈ Finset.univ.erase c, f ((Threads.step act s (c, i)).1.loc d)
      = ∑ d ∈ Finset.univ.erase c, f (s.loc d) := by
    refine Finset.sum_congr rfl fun d hd => ?_
    rw [step_loc_of_ne (Finset.ne_of_mem_erase hd)]
  rw [hsum, hsum s, hrest, step_loc_self]
  omega

omit [DecidableEq C] in
/-- Where every thread counts for nothing, so does the sum. -/
theorem total_eq_zero {f : L → ℕ} (h : ∀ c, f (s.loc c) = 0) : s.total f = 0 :=
  Finset.sum_eq_zero fun c _ => h c

end Threads

end NetSum.Lib
