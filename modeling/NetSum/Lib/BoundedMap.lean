import Mathlib.Data.Finmap
import Mathlib.Data.Set.Card

/-!
# Finite maps of bounded size

A `BoundedMap κ ν cap` is a finite map from `κ` to `ν` with at most `cap` keys; the bound is a
field, so no operation can exceed it. `insert` asks for room unless the key is already there,
`modify` and `delete` never need any. Two maps with the same lookups are equal (`ext_lookup`).
`count p` is the number of keys that satisfy `p`; its lemmas say how each operation moves it.
-/

namespace NetSum.Lib

/-- A finite map with at most `cap` keys. -/
structure BoundedMap (κ ν : Type) [DecidableEq κ] (cap : ℕ) where
  toFinmap : Finmap fun _ : κ => ν
  card_le : toFinmap.keys.card ≤ cap

namespace BoundedMap

variable {κ ν : Type} [DecidableEq κ] {cap : ℕ}

/-- The value stored under `k`. -/
def lookup (m : BoundedMap κ ν cap) (k : κ) : Option ν := m.toFinmap.lookup k

/-- The number of keys. -/
def size (m : BoundedMap κ ν cap) : ℕ := m.toFinmap.keys.card

/-- The map with no keys. -/
def empty : BoundedMap κ ν cap := ⟨∅, by simp⟩

theorem keys_insert (m : Finmap fun _ : κ => ν) (k : κ) (v : ν) :
    (m.insert k v).keys = Insert.insert k m.keys := by
  ext a
  simp [Finmap.mem_keys, Finmap.mem_insert]

theorem mem_keys_iff (m : BoundedMap κ ν cap) (k : κ) :
    k ∈ m.toFinmap.keys ↔ (m.lookup k).isSome := by
  rw [Finmap.mem_keys, lookup, Finmap.lookup_isSome]

/-- Store `v` under `k`: a key that is already there is overwritten, a new one needs room. -/
def insert (m : BoundedMap κ ν cap) (k : κ) (v : ν) (h : m.lookup k = none → m.size < cap) :
    BoundedMap κ ν cap :=
  ⟨m.toFinmap.insert k v, by
    rw [keys_insert]
    by_cases hk : k ∈ m.toFinmap.keys
    · rw [Finset.insert_eq_of_mem hk]
      exact m.card_le
    · rw [Finset.card_insert_of_notMem hk]
      rw [mem_keys_iff, Option.not_isSome_iff_eq_none] at hk
      exact h hk⟩

/-- Rewrite the value under `k`, if there is one. -/
def modify (m : BoundedMap κ ν cap) (k : κ) (f : ν → ν) : BoundedMap κ ν cap :=
  match h : m.lookup k with
  | none => m
  | some v => m.insert k (f v) (fun h' => by simp [h] at h')

/-- Put `w` in the place of the value under `k`. -/
def overwrite (m : BoundedMap κ ν cap) {k : κ} {v : ν} (h : m.lookup k = some v) (w : ν) :
    BoundedMap κ ν cap :=
  m.insert k w (fun h' => by simp [h] at h')

/-- Remove `k`, if it is there. -/
def delete (m : BoundedMap κ ν cap) (k : κ) : BoundedMap κ ν cap :=
  ⟨m.toFinmap.erase k, by
    rw [Finmap.keys_erase]
    exact (Finset.card_le_card (Finset.erase_subset _ _)).trans m.card_le⟩

/-- The number of keys that satisfy `p`. -/
def count (m : BoundedMap κ ν cap) (p : κ → Prop) [DecidablePred p] : ℕ :=
  (m.toFinmap.keys.filter p).card

/-! ## Lookups -/

theorem ext_lookup {m m' : BoundedMap κ ν cap} (h : ∀ k, m.lookup k = m'.lookup k) : m = m' := by
  obtain ⟨f, hf⟩ := m
  obtain ⟨f', hf'⟩ := m'
  have : f = f' := Finmap.ext_lookup h
  subst this
  rfl

@[simp] theorem lookup_empty (k : κ) : (empty : BoundedMap κ ν cap).lookup k = none :=
  Finmap.lookup_empty k

theorem lookup_insert (m : BoundedMap κ ν cap) (k : κ) (v : ν) (h) (a : κ) :
    (m.insert k v h).lookup a = if a = k then some v else m.lookup a := by
  by_cases ha : a = k
  · rw [if_pos ha, ha]
    exact Finmap.lookup_insert _
  · rw [if_neg ha]
    exact Finmap.lookup_insert_of_ne _ ha

theorem lookup_insert_self (m : BoundedMap κ ν cap) (k : κ) (v : ν) (h) :
    (m.insert k v h).lookup k = some v := by rw [lookup_insert, if_pos rfl]

theorem lookup_delete (m : BoundedMap κ ν cap) (k a : κ) :
    (m.delete k).lookup a = if a = k then none else m.lookup a := by
  by_cases ha : a = k
  · rw [if_pos ha, ha]
    exact Finmap.lookup_erase _ _
  · rw [if_neg ha]
    exact Finmap.lookup_erase_ne ha

theorem modify_of_none {m : BoundedMap κ ν cap} {k : κ} (h : m.lookup k = none) (f : ν → ν) :
    m.modify k f = m := by
  unfold modify
  split
  · rfl
  · next v hv => rw [h] at hv; cases hv

theorem modify_of_some {m : BoundedMap κ ν cap} {k : κ} {v : ν} (h : m.lookup k = some v)
    (f : ν → ν) : m.modify k f = m.insert k (f v) (fun h' => by rw [h] at h'; cases h') := by
  unfold modify
  split
  · next hv => rw [h] at hv; cases hv
  · next w hw =>
    have : w = v := by rw [h] at hw; exact (Option.some.inj hw).symm
    subst this
    rfl

theorem lookup_modify (m : BoundedMap κ ν cap) (k : κ) (f : ν → ν) (a : κ) :
    (m.modify k f).lookup a = if a = k then (m.lookup k).map f else m.lookup a := by
  cases h : m.lookup k with
  | none =>
    rw [modify_of_none h]
    split
    · next ha => rw [ha, h]; rfl
    · rfl
  | some v =>
    rw [modify_of_some h, lookup_insert]
    rfl

@[simp] theorem isSome_lookup_modify (m : BoundedMap κ ν cap) (k : κ) (f : ν → ν) (a : κ) :
    ((m.modify k f).lookup a).isSome = (m.lookup a).isSome := by
  rw [lookup_modify]
  split
  · next ha => rw [ha, Option.isSome_map]
  · rfl

/-! ## Sizes and counts -/

theorem size_le (m : BoundedMap κ ν cap) : m.size ≤ cap := m.card_le

@[simp] theorem size_empty : (empty : BoundedMap κ ν cap).size = 0 := by simp [size, empty]

@[simp] theorem count_empty (p : κ → Prop) [DecidablePred p] :
    (empty : BoundedMap κ ν cap).count p = 0 := by simp [count, empty]

/-- What is counted, as a set. -/
theorem ncard_lookup (m : BoundedMap κ ν cap) (p : κ → Prop) [DecidablePred p] :
    Set.ncard {k | p k ∧ (m.lookup k).isSome} = m.count p := by
  rw [count, ← Set.ncard_coe_finset]
  refine congrArg Set.ncard (Set.ext fun k => ?_)
  rw [Finset.mem_coe, Finset.mem_filter, mem_keys_iff]
  exact and_comm

theorem count_true (m : BoundedMap κ ν cap) : (m.count fun _ => True) = m.size := by
  rw [count, Finset.filter_true, size]

theorem count_le_size (m : BoundedMap κ ν cap) (p : κ → Prop) [DecidablePred p] :
    m.count p ≤ m.size := Finset.card_filter_le _ _

/-- A map whose keys all lie in a set has at most as many keys as the set. -/
theorem size_le_card (m : BoundedMap κ ν cap) (s : Finset κ)
    (h : ∀ k, (m.lookup k).isSome → k ∈ s) : m.size ≤ s.card :=
  Finset.card_le_card fun k hk => h k ((mem_keys_iff m k).mp hk)

/-- A map that misses an element of a set which holds all its keys is smaller than the set. -/
theorem size_lt_card (m : BoundedMap κ ν cap) (s : Finset κ)
    (h : ∀ k, (m.lookup k).isSome → k ∈ s) {k : κ} (hk : m.lookup k = none) (hs : k ∈ s) :
    m.size < s.card := by
  refine Finset.card_lt_card ⟨fun a ha => h a ((mem_keys_iff m a).mp ha), fun hsub => ?_⟩
  have := (mem_keys_iff m k).mp (hsub hs)
  simp [hk] at this

/-- A map with more keys is larger. -/
theorem size_mono {m m' : BoundedMap κ ν cap}
    (h : ∀ k, (m.lookup k).isSome → (m'.lookup k).isSome) : m.size ≤ m'.size :=
  Finset.card_le_card fun k hk => (mem_keys_iff m' k).mpr (h k ((mem_keys_iff m k).mp hk))

/-- A map with more keys, and one that was not there, is strictly larger. -/
theorem size_lt {m m' : BoundedMap κ ν cap}
    (h : ∀ k, (m.lookup k).isSome → (m'.lookup k).isSome) {k : κ} (hk : m.lookup k = none)
    (hk' : (m'.lookup k).isSome) : m.size < m'.size :=
  size_lt_card m m'.toFinmap.keys (fun a ha => (mem_keys_iff m' a).mpr (h a ha)) hk
    ((mem_keys_iff m' k).mpr hk')

theorem count_insert_of_some {m : BoundedMap κ ν cap} {k : κ} {w : ν} (hk : m.lookup k = some w)
    (v : ν) (h) (p : κ → Prop) [DecidablePred p] : (m.insert k v h).count p = m.count p := by
  have hmem : k ∈ m.toFinmap.keys := by rw [mem_keys_iff, hk]; rfl
  unfold count insert
  rw [keys_insert, Finset.insert_eq_of_mem hmem]

theorem count_insert_of_none {m : BoundedMap κ ν cap} {k : κ} (hk : m.lookup k = none)
    (v : ν) (h) (p : κ → Prop) [DecidablePred p] :
    (m.insert k v h).count p = m.count p + if p k then 1 else 0 := by
  have hmem : k ∉ m.toFinmap.keys := by rw [mem_keys_iff, hk]; simp
  unfold count insert
  rw [keys_insert, Finset.filter_insert]
  split
  · rw [Finset.card_insert_of_notMem]
    exact fun hf => hmem (Finset.mem_filter.mp hf).1
  · rfl

theorem count_modify (m : BoundedMap κ ν cap) (k : κ) (f : ν → ν) (p : κ → Prop)
    [DecidablePred p] : (m.modify k f).count p = m.count p := by
  cases h : m.lookup k with
  | none => rw [modify_of_none h]
  | some v => rw [modify_of_some h, count_insert_of_some h]

theorem count_delete_of_none {m : BoundedMap κ ν cap} {k : κ} (hk : m.lookup k = none)
    (p : κ → Prop) [DecidablePred p] : (m.delete k).count p = m.count p := by
  have hmem : k ∉ m.toFinmap.keys := by rw [mem_keys_iff, hk]; simp
  unfold count delete
  rw [Finmap.keys_erase, Finset.erase_eq_of_notMem hmem]

theorem count_delete_of_some {m : BoundedMap κ ν cap} {k : κ} {v : ν}
    (hk : m.lookup k = some v) (p : κ → Prop) [DecidablePred p] :
    (m.delete k).count p + (if p k then 1 else 0) = m.count p := by
  have hmem : k ∈ m.toFinmap.keys := by rw [mem_keys_iff, hk]; rfl
  unfold count delete
  rw [Finmap.keys_erase, Finset.filter_erase]
  split
  · next hp => exact Finset.card_erase_add_one (Finset.mem_filter.mpr ⟨hmem, hp⟩)
  · next hp =>
    rw [Finset.erase_eq_of_notMem (fun hf => hp (Finset.mem_filter.mp hf).2), Nat.add_zero]

/-- Two maps that differ at `k` at most count the same, but for `k`. -/
theorem count_of_others {m m' : BoundedMap κ ν cap} {k : κ}
    (h : ∀ a, a ≠ k → m'.lookup a = m.lookup a) (p : κ → Prop) [DecidablePred p] :
    m'.count p + (if p k ∧ (m.lookup k).isSome then 1 else 0)
      = m.count p + if p k ∧ (m'.lookup k).isSome then 1 else 0 := by
  have hdelete : m'.delete k = m.delete k := by
    refine ext_lookup fun a => ?_
    rw [lookup_delete, lookup_delete]
    split
    · rfl
    · next ha => exact h a ha
  have hcount : ∀ n : BoundedMap κ ν cap,
      (n.delete k).count p + (if p k ∧ (n.lookup k).isSome then 1 else 0) = n.count p := by
    intro n
    cases hn : n.lookup k with
    | none => simpa using count_delete_of_none hn p
    | some v => simpa using count_delete_of_some hn p
  rw [← hcount m, ← hcount m', hdelete]
  omega

end BoundedMap

end NetSum.Lib
