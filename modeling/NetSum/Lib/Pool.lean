import Mathlib.Data.Fintype.Card
import Mathlib.Data.PEquiv

/-!
# Pools of preallocated cells

A pool is a fixed set of cells. A key in use is linked to a cell of its own, so the links are a
partial equivalence between keys and cells. `link` takes a free cell for a new key and `unlink`
frees a key's cell; what a cell holds is no part of the pool, and survives both. `count p` is the
number of linked keys that satisfy `p`.
-/

namespace NetSum.Lib

/-- Which keys are linked to which cells. -/
abbrev Pool (κ ι : Type) := κ ≃. ι

namespace Pool

variable {κ ι : Type} {m : Pool κ ι} {k : κ} {i : ι}

/-- The key linked to a cell. -/
def owner (m : Pool κ ι) (i : ι) : Option κ := m.symm i

theorem owner_eq_some_iff : m.owner i = some k ↔ m k = some i := m.eq_some_iff

/-- No key is linked to a free cell. -/
theorem apply_ne_of_owner_none (h : m.owner i = none) (k : κ) : m k ≠ some i := by
  intro hk
  rw [owner_eq_some_iff.mpr hk] at h
  cases h

/-- A cell is linked to one key. -/
theorem key_unique {k' : κ} (h : m k = some i) (h' : m k' = some i) : k = k' :=
  Option.some.inj ((owner_eq_some_iff.mpr h).symm.trans (owner_eq_some_iff.mpr h'))

section

variable [DecidableEq κ]

/-- Free the cell of a key, if it has one. -/
def unlink (m : Pool κ ι) (k : κ) : Pool κ ι where
  toFun a := if a = k then none else m a
  invFun b := if m.owner b = some k then none else m.owner b
  inv a b := by
    by_cases ha : a = k
    · subst ha
      rw [if_pos rfl]
      split
      · exact iff_of_false nofun nofun
      · next hb => exact iff_of_false hb nofun
    · rw [if_neg ha]
      split
      · next hb =>
        refine iff_of_false nofun fun h => ha ?_
        exact key_unique h (owner_eq_some_iff.mp hb)
      · exact owner_eq_some_iff

theorem unlink_apply (m : Pool κ ι) (k a : κ) :
    m.unlink k a = if a = k then none else m a := rfl

/-- A link stays when another key's cell is freed. -/
theorem unlink_apply_of_ne {a : κ} (h : a ≠ k) : m.unlink k a = m a := by
  rw [unlink_apply, if_neg h]

theorem owner_unlink (m : Pool κ ι) (k : κ) (b : ι) :
    (m.unlink k).owner b = if m.owner b = some k then none else m.owner b := rfl

/-- There is nothing to free for a key that is not linked. -/
theorem unlink_of_none (h : m k = none) : m.unlink k = m := by
  refine PEquiv.ext fun a => ?_
  rw [unlink_apply]
  split
  · next ha => rw [ha, h]
  · rfl

variable [DecidableEq ι]

/-- Link a new key to a free cell. -/
def link (m : Pool κ ι) (k : κ) (i : ι) (hk : m k = none) (hi : m.owner i = none) : Pool κ ι where
  toFun a := if a = k then some i else m a
  invFun b := if b = i then some k else m.owner b
  inv a b := by
    by_cases ha : a = k
    · subst ha
      rw [if_pos rfl]
      split
      · next hb => exact iff_of_true rfl (congrArg some hb.symm)
      · next hb =>
        rw [owner_eq_some_iff, hk]
        exact iff_of_false nofun fun h => hb (Option.some.inj h).symm
    · rw [if_neg ha]
      split
      · next hb =>
        subst hb
        exact iff_of_false (fun h => ha (Option.some.inj h).symm) (apply_ne_of_owner_none hi a)
      · exact owner_eq_some_iff

theorem link_apply (hk : m k = none) (hi : m.owner i = none) (a : κ) :
    m.link k i hk hi a = if a = k then some i else m a := rfl

/-- A link stays when another key is linked. -/
theorem link_apply_of_some {a : κ} {j : ι} (hk : m k = none) (hi : m.owner i = none)
    (ha : m a = some j) : m.link k i hk hi a = some j := by
  rw [link_apply, if_neg, ha]
  rintro rfl
  rw [hk] at ha
  cases ha

theorem owner_link (hk : m k = none) (hi : m.owner i = none) (b : ι) :
    (m.link k i hk hi).owner b = if b = i then some k else m.owner b := rfl

end

/-! ## Counting keys -/

section

variable [Fintype ι]

/-- The number of linked keys that satisfy `p`. -/
def count (m : Pool κ ι) (p : κ → Bool) : ℕ := (Finset.univ.filter fun i => (m.owner i).any p).card

/-- Two cells whose keys satisfy `p`. -/
theorem one_lt_count {k' : κ} {j : ι} {p : κ → Bool} (hk : m k = some i) (hk' : m k' = some j)
    (hp : p k = true) (hp' : p k' = true) (hne : i ≠ j) : 1 < m.count p := by
  refine Finset.one_lt_card.mpr ⟨i, ?_, j, ?_, hne⟩
  · rw [Finset.mem_filter, owner_eq_some_iff.mpr hk]
    exact ⟨Finset.mem_univ i, hp⟩
  · rw [Finset.mem_filter, owner_eq_some_iff.mpr hk']
    exact ⟨Finset.mem_univ j, hp'⟩

theorem count_pos {p : κ → Bool} (hk : m k = some i) (hp : p k = true) : 0 < m.count p := by
  refine Finset.card_pos.mpr ⟨i, ?_⟩
  rw [Finset.mem_filter, owner_eq_some_iff.mpr hk]
  exact ⟨Finset.mem_univ i, hp⟩

theorem count_le_card (m : Pool κ ι) (p : κ → Bool) : m.count p ≤ Fintype.card ι :=
  Finset.card_le_univ _

theorem count_lt_card (hi : m.owner i = none) (p : κ → Bool) : m.count p < Fintype.card ι := by
  refine Finset.card_lt_univ_of_notMem (x := i) ?_
  rw [Finset.mem_filter, hi]
  exact fun h => Bool.noConfusion h.2

theorem count_eq_card {p : κ → Bool} (h : ∀ i, (m.owner i).any p = true) :
    m.count p = Fintype.card ι :=
  congrArg Finset.card (Finset.filter_true_of_mem fun i _ => h i)

/-- A set of keys has as many cells as keys. -/
theorem count_eq_keys_card (s : Finset κ) (h : ∀ k, k ∈ s ↔ (m k).isSome) :
    m.count (fun _ => true) = s.card := by
  symm
  refine Finset.card_bij (fun k hk => (m k).get ((h k).mp hk)) ?_ ?_ ?_
  · intro k hk
    have howner : m.owner ((m k).get ((h k).mp hk)) = some k :=
      owner_eq_some_iff.mpr (Option.some_get _).symm
    rw [Finset.mem_filter, howner]
    exact ⟨Finset.mem_univ _, rfl⟩
  · intro k hk k' hk' heq
    have hcell : m k = some ((m k').get ((h k').mp hk')) := by rw [← heq, Option.some_get]
    exact key_unique hcell (Option.some_get _).symm
  · intro i hi
    obtain ⟨k, hk, -⟩ := (Option.any_eq_true _ _).mp (Finset.mem_filter.mp hi).2
    have hcell : m k = some i := owner_eq_some_iff.mp hk
    have hsome : (m k).isSome := by rw [hcell]; rfl
    refine ⟨k, (h k).mpr hsome, ?_⟩
    exact Option.some.inj ((Option.some_get hsome).trans hcell)

@[simp] theorem count_bot (p : κ → Bool) : (⊥ : Pool κ ι).count p = 0 :=
  Finset.card_eq_zero.mpr (Finset.filter_eq_empty_iff.mpr fun _ _ => nofun)

/-- The linked keys that satisfy `p` are no more than the keys of a set that has them all. -/
theorem count_le_card_of_subset {p : κ → Bool} {s : Finset κ}
    (h : ∀ k i, m k = some i → p k = true → k ∈ s) : m.count p ≤ s.card := by
  rw [← Finset.card_map Function.Embedding.some]
  refine Finset.card_le_card_of_injOn m.owner (fun i hi => ?_) fun i hi j _ heq => ?_
  · obtain ⟨k, hk, hp⟩ := (Option.any_eq_true _ _).mp (Finset.mem_filter.mp hi).2
    rw [hk]
    exact Finset.mem_map_of_mem _ (h k i (owner_eq_some_iff.mp hk) hp)
  · obtain ⟨k, hk, -⟩ := (Option.any_eq_true _ _).mp (Finset.mem_filter.mp hi).2
    have hi' := owner_eq_some_iff.mp hk
    exact Option.some.inj (hi'.symm.trans (owner_eq_some_iff.mp (heq ▸ hk)))

/-- Linked keys that satisfy `p` have as many cells. -/
theorem card_le_count {p : κ → Bool} {s : Finset κ}
    (h : ∀ k ∈ s, (m k).isSome ∧ p k = true) : s.card ≤ m.count p := by
  have hle : s.card
      ≤ ((Finset.univ.filter fun i => (m.owner i).any p).map Function.Embedding.some).card := by
    refine Finset.card_le_card_of_injOn (fun k => m k) (fun k hk => ?_) fun k hk k' _ heq => ?_
    · obtain ⟨hsome, hp⟩ := h k hk
      obtain ⟨i, hi⟩ := Option.isSome_iff_exists.mp hsome
      dsimp only
      rw [hi]
      refine Finset.mem_map_of_mem _ (Finset.mem_filter.mpr ⟨Finset.mem_univ i, ?_⟩)
      rw [owner_eq_some_iff.mpr hi]
      exact hp
    · obtain ⟨i, hi⟩ := Option.isSome_iff_exists.mp (h k hk).1
      exact key_unique hi (heq.symm.trans hi)
  rwa [Finset.card_map] at hle

variable [DecidableEq κ] [DecidableEq ι]

theorem count_link (hk : m k = none) (hi : m.owner i = none) (p : κ → Bool) :
    (m.link k i hk hi).count p = m.count p + if p k then 1 else 0 := by
  have hnot : i ∉ Finset.univ.filter fun j => (m.owner j).any p := by
    rw [Finset.mem_filter, hi]
    exact fun h => Bool.noConfusion h.2
  -- the new element is one more, if it counts at all
  unfold count
  split
  · next hp =>
    rw [← Finset.card_insert_of_notMem hnot]
    congr 1
    ext j
    rw [Finset.mem_filter, Finset.mem_insert, Finset.mem_filter, owner_link]
    by_cases hj : j = i
    · simp [hj, hp]
    · simp [hj]
  · next hp =>
    congr 1
    ext j
    rw [Finset.mem_filter, Finset.mem_filter, owner_link]
    by_cases hj : j = i
    · simp [hj, hp, hi]
    · simp [hj]

/-- Freeing a key's cell is linking it, backwards. -/
theorem count_unlink (hk : m k = some i) (p : κ → Bool) :
    (m.unlink k).count p + (if p k then 1 else 0) = m.count p := by
  have hfree : (m.unlink k) k = none := by rw [unlink_apply, if_pos rfl]
  have howner : (m.unlink k).owner i = none := by
    rw [owner_unlink, if_pos (owner_eq_some_iff.mpr hk)]
  rw [← count_link hfree howner p]
  congr 1
  refine PEquiv.ext fun a => ?_
  rw [link_apply, unlink_apply]
  split
  · next ha => rw [ha, hk]
  · rfl

end

-- a count is never evaluated: a pool may have many cells
attribute [irreducible] count

end Pool

end NetSum.Lib
