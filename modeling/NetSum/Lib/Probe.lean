import Mathlib.Algebra.GroupWithZero.Nat
import Mathlib.Algebra.Order.BigOperators.Group.Finset
import Mathlib.Data.Fintype.Card
import Mathlib.Data.Nat.Find
import Mathlib.Data.Set.Card
import Mathlib.Logic.Function.Basic

/-!
# Open addressing

A table has `n` entries; entry `i` holds the key `occ i = some k`, or is free. A search for
`k` visits the entries in the order of its *probe sequence* `seq k : ℕ → Fin n`, and stops at
the first entry that is free or holds `k`. Nothing here depends on how the sequence is
computed, only on `Covers`: the first `n` probes visit every entry.

`probe` is the search loop. `Before` says that one entry is visited strictly ahead of another,
and turns the loop into a statement about entries (`probe_eq_some_iff`). The rest is about the
property that makes open addressing work, `Intact`: no free entry lies ahead of an entry that
holds `k`. An intact key is found (`probe_of_intact`), insertion where the search stopped keeps
every key intact (`Chained.insert`) and unique (`Unique.insert`); clearing an entry does not.
-/

namespace NetSum.Lib

variable {n : ℕ} {κ : Type*}

/-! ## The search loop -/

/-- Probe `seq p, seq (p + 1), …`, at most `fuel` entries, up to the first that satisfies
`stop`. -/
def probeFrom (seq : ℕ → Fin n) (stop : Fin n → Bool) : ℕ → ℕ → Option (Fin n)
  | 0, _ => none
  | fuel + 1, p => if stop (seq p) then some (seq p) else probeFrom seq stop fuel (p + 1)

/-- The whole loop: one pass over the table. -/
def probe (seq : ℕ → Fin n) (stop : Fin n → Bool) : Option (Fin n) := probeFrom seq stop n 0

/-- One pass visits every entry. -/
def Covers (seq : ℕ → Fin n) : Prop := ∀ i, ∃ p < n, seq p = i

/-- Entry `j` is visited strictly ahead of entry `i`. -/
def Before (seq : ℕ → Fin n) (j i : Fin n) : Prop := ∃ q, seq q = j ∧ ∀ r ≤ q, seq r ≠ i

theorem probeFrom_eq_some_iff {seq : ℕ → Fin n} {stop : Fin n → Bool} {fuel p : ℕ} {i : Fin n} :
    probeFrom seq stop fuel p = some i ↔
      ∃ q, p ≤ q ∧ q < p + fuel ∧ seq q = i ∧ stop i = true
        ∧ ∀ r, p ≤ r → r < q → stop (seq r) = false := by
  induction fuel generalizing p with
  | zero =>
    simp only [probeFrom, reduceCtorEq, false_iff, not_exists]
    rintro q ⟨h1, h2, -⟩
    omega
  | succ fuel ih =>
    -- the probe stops here, or starts over at the next position
    rw [probeFrom]
    cases hstop : stop (seq p) with
    | true =>
      simp only [if_true, Option.some.injEq]
      constructor
      · rintro rfl
        exact ⟨p, le_rfl, by omega, rfl, hstop, fun r h1 h2 => by omega⟩
      · rintro ⟨q, h1, -, rfl, -, hmin⟩
        rcases Nat.eq_or_lt_of_le h1 with rfl | hlt
        · rfl
        · simp [hmin p le_rfl hlt] at hstop
    | false =>
      simp only [Bool.false_eq_true, if_false, ih]
      constructor
      · rintro ⟨q, h1, h2, hq, hs, hmin⟩
        refine ⟨q, by omega, by omega, hq, hs, fun r hr1 hr2 => ?_⟩
        rcases Nat.eq_or_lt_of_le hr1 with rfl | hlt
        · exact hstop
        · exact hmin r (by omega) hr2
      · rintro ⟨q, h1, h2, hq, hs, hmin⟩
        have hne : p ≠ q := by
          rintro rfl
          simp [hq, hs] at hstop
        exact ⟨q, by omega, by omega, hq, hs, fun r hr1 hr2 => hmin r (by omega) hr2⟩

theorem probeFrom_eq_none_iff {seq : ℕ → Fin n} {stop : Fin n → Bool} {fuel p : ℕ} :
    probeFrom seq stop fuel p = none ↔ ∀ q, p ≤ q → q < p + fuel → stop (seq q) = false := by
  induction fuel generalizing p with
  | zero => simp only [probeFrom, true_iff]; intro q h1 h2; omega
  | succ fuel ih =>
    rw [probeFrom]
    cases hstop : stop (seq p) with
    | true =>
      simp only [if_true, reduceCtorEq, false_iff]
      intro h
      simp [h p le_rfl (by omega)] at hstop
    | false =>
      simp only [Bool.false_eq_true, if_false, ih]
      constructor
      · intro h q h1 h2
        rcases Nat.eq_or_lt_of_le h1 with rfl | hlt
        · exact hstop
        · exact h q (by omega) (by omega)
      · intro h q h1 h2
        exact h q (by omega) (by omega)

/-! ## The order in which entries are visited -/

theorem not_before_self {seq : ℕ → Fin n} (i : Fin n) : ¬ Before seq i i :=
  fun ⟨q, hq, h⟩ => h q le_rfl hq

theorem Before.ne {seq : ℕ → Fin n} {i j : Fin n} (h : Before seq j i) : j ≠ i := by
  rintro rfl
  exact not_before_self j h

/-- Of two entries one is visited first. -/
theorem before_or_before {seq : ℕ → Fin n} (hc : Covers seq) {i j : Fin n} (h : i ≠ j) :
    Before seq i j ∨ Before seq j i := by
  classical
  have hi : ∃ p, seq p = i := (hc i).imp fun _ hp => hp.2
  have hj : ∃ p, seq p = j := (hc j).imp fun _ hp => hp.2
  rcases lt_trichotomy (Nat.find hi) (Nat.find hj) with hlt | heq | hgt
  · exact .inl ⟨_, Nat.find_spec hi, fun r hr => Nat.find_min hj (by omega)⟩
  · exact absurd (by rw [← Nat.find_spec hi, heq, Nat.find_spec hj]) h
  · exact .inr ⟨_, Nat.find_spec hj, fun r hr => Nat.find_min hi (by omega)⟩

/-- The search stops at `i` exactly when `i` satisfies `stop` and nothing ahead of it does. -/
theorem probe_eq_some_iff {seq : ℕ → Fin n} (hc : Covers seq) {stop : Fin n → Bool}
    {i : Fin n} :
    probe seq stop = some i ↔ stop i = true ∧ ∀ j, Before seq j i → stop j = false := by
  classical
  rw [probe, probeFrom_eq_some_iff]
  constructor
  · rintro ⟨q, -, -, rfl, hs, hmin⟩
    refine ⟨hs, ?_⟩
    rintro j ⟨q', rfl, hq'⟩
    refine hmin q' (Nat.zero_le _) ?_
    by_contra hle
    exact hq' q (by omega) rfl
  · rintro ⟨hs, hmin⟩
    obtain ⟨p, hp, hpi⟩ := hc i
    have hi : ∃ p, seq p = i := ⟨p, hpi⟩
    have hle : Nat.find hi ≤ p := Nat.find_min' hi hpi
    refine ⟨Nat.find hi, Nat.zero_le _, by omega, Nat.find_spec hi, hs, fun r _ hr => ?_⟩
    exact hmin _ ⟨r, rfl, fun r' hr' => Nat.find_min hi (by omega)⟩

theorem probe_eq_none_iff {seq : ℕ → Fin n} (hc : Covers seq) {stop : Fin n → Bool} :
    probe seq stop = none ↔ ∀ i, stop i = false := by
  rw [probe, probeFrom_eq_none_iff]
  constructor
  · intro h i
    obtain ⟨p, hp, rfl⟩ := hc i
    exact h p (Nat.zero_le _) (by omega)
  · intro h q _ _
    exact h _

/-! ## Linear probing -/

/-- The linear probe sequence from home position `h`. -/
def linearSeq (n : ℕ) [NeZero n] (h p : ℕ) : Fin n := Fin.ofNat n (h + p)

theorem covers_linearSeq (n : ℕ) [NeZero n] (h : ℕ) : Covers (linearSeq n h) := by
  intro i
  have hn : 0 < n := Nat.pos_of_ne_zero (NeZero.ne n)
  refine ⟨(i + (n - h % n)) % n, Nat.mod_lt _ hn, Fin.ext ?_⟩
  have hlt : h % n < n := Nat.mod_lt _ hn
  have hsplit : h + (i + (n - h % n)) = i + n * (h / n + 1) := by
    have := Nat.mod_add_div h n
    rw [Nat.mul_add, Nat.mul_one]
    omega
  rw [linearSeq, Fin.val_ofNat, Nat.add_mod_mod, hsplit, Nat.add_mul_mod_self_left,
    Nat.mod_eq_of_lt i.isLt]

/-! ## Counting entries -/

/-- The entries that hold a key satisfying `p`. -/
def held (occ : Fin n → Option κ) (p : κ → Bool) : Finset (Fin n) :=
  Finset.univ.filter fun i => (occ i).any p

theorem mem_held {occ : Fin n → Option κ} {p : κ → Bool} {i : Fin n} :
    i ∈ held occ p ↔ ∃ k, occ i = some k ∧ p k = true := by
  simp [held, Option.any_eq_true]

theorem card_held_le (occ : Fin n → Option κ) (p : κ → Bool) : (held occ p).card ≤ n := by
  have := Finset.card_le_univ (held occ p)
  rwa [Fintype.card_fin] at this

/-- Filling a free entry. -/
theorem card_held_fill {occ : Fin n → Option κ} {i : Fin n} (hi : occ i = none) (k : κ)
    (p : κ → Bool) :
    (held (Function.update occ i (some k)) p).card
      = (held occ p).card + if p k then 1 else 0 := by
  have hmem : i ∉ held occ p := by
    rw [mem_held, hi]
    rintro ⟨k, h, -⟩
    cases h
  cases hp : p k with
  | true =>
    rw [if_pos rfl, ← Finset.card_insert_of_notMem hmem]
    congr 1
    ext j
    by_cases hj : j = i
    · subst hj
      simp [mem_held, hp]
    · simp [mem_held, hj]
  | false =>
    rw [if_neg (by simp), Nat.add_zero]
    congr 1
    ext j
    by_cases hj : j = i
    · subst hj
      simp [mem_held, hp, hi]
    · simp [mem_held, hj]

/-- Clearing an entry. -/
theorem card_held_clear {occ : Fin n → Option κ} {i : Fin n} {k : κ} (hi : occ i = some k)
    (p : κ → Bool) :
    (held (Function.update occ i none) p).card + (if p k then 1 else 0) = (held occ p).card := by
  have hfree : Function.update occ i none i = none := Function.update_self ..
  have h := card_held_fill hfree k p
  rw [Function.update_idem, ← hi, Function.update_eq_self] at h
  exact h.symm

/-- If the keys fall into the classes `S`, and no class holds more than `m` entries, the classes
together hold at most `m * S.card`. -/
theorem card_held_le_mul {γ : Type} [DecidableEq γ] {occ : Fin n → Option κ} {f : κ → γ}
    {S : Finset γ} {m : ℕ} (hS : ∀ i k, occ i = some k → f k ∈ S)
    (hm : ∀ c, (held occ fun k => f k == c).card ≤ m) :
    (held occ fun _ => true).card ≤ m * S.card := by
  have hcover : (held occ fun _ => true) ⊆ S.biUnion fun c => held occ fun k => f k == c := by
    intro i hi
    obtain ⟨k, hk, -⟩ := mem_held.mp hi
    exact Finset.mem_biUnion.mpr ⟨f k, hS i k hk, mem_held.mpr ⟨k, hk, beq_self_eq_true _⟩⟩
  calc (held occ fun _ => true).card
      ≤ (S.biUnion fun c => held occ fun k => f k == c).card := Finset.card_le_card hcover
    _ ≤ S.card * m := Finset.card_biUnion_le_card_mul S _ m fun c _ => hm c
    _ = m * S.card := Nat.mul_comm _ _

/-! ## Keyed tables -/

variable [DecidableEq κ]

/-- Where a search for `k` stops: a free entry or one that holds `k`. -/
def stopAt (occ : Fin n → Option κ) (k : κ) (i : Fin n) : Bool :=
  occ i = none ∨ occ i = some k

theorem stopAt_eq_true {occ : Fin n → Option κ} {k : κ} {i : Fin n} :
    stopAt occ k i = true ↔ occ i = none ∨ occ i = some k := by
  simp [stopAt]

theorem stopAt_eq_false {occ : Fin n → Option κ} {k : κ} {i : Fin n} :
    stopAt occ k i = false ↔ occ i ≠ none ∧ occ i ≠ some k := by
  simp [stopAt]

/-- No free entry lies ahead of an entry that holds `k`. -/
def Intact (seq : ℕ → Fin n) (occ : Fin n → Option κ) (k : κ) : Prop :=
  ∀ i j, occ i = some k → Before seq j i → occ j ≠ none

/-- At most one entry holds `k`. -/
def UniqueAt (occ : Fin n → Option κ) (k : κ) : Prop :=
  ∀ i j, occ i = some k → occ j = some k → i = j

/-- Every key of the table is intact. -/
def Chained (seq : κ → ℕ → Fin n) (occ : Fin n → Option κ) : Prop :=
  ∀ k, Intact (seq k) occ k

/-- Every key of the table is held once. -/
def Unique (occ : Fin n → Option κ) : Prop := ∀ k, UniqueAt occ k

omit [DecidableEq κ] in
/-- When every key is held once, there are as many keys as entries that hold them. -/
theorem ncard_keys {occ : Fin n → Option κ} (hu : Unique occ) (p : κ → Bool) :
    Set.ncard {k | p k = true ∧ ∃ i, occ i = some k} = (held occ p).card := by
  have himage : some '' {k | p k = true ∧ ∃ i, occ i = some k} = occ '' (held occ p) := by
    ext x
    constructor
    · rintro ⟨k, ⟨hp, i, hi⟩, rfl⟩
      exact ⟨i, mem_held.mpr ⟨k, hi, hp⟩, hi⟩
    · rintro ⟨i, hi, rfl⟩
      obtain ⟨k, hk, hp⟩ := mem_held.mp hi
      exact ⟨k, ⟨hp, i, hk⟩, hk.symm⟩
  have hinj : Set.InjOn occ (held occ p) := by
    intro i hi j hj hij
    obtain ⟨k, hk, -⟩ := mem_held.mp hi
    exact hu k i j hk (hij ▸ hk)
  rw [← Set.ncard_image_of_injective _ (Option.some_injective κ), himage,
    hinj.ncard_image, Set.ncard_coe_finset]

omit [DecidableEq κ] in
/-- There is a free entry if fewer are held than there are. -/
theorem exists_free_iff (occ : Fin n → Option κ) :
    (∃ i, occ i = none) ↔ (held occ fun _ => true).card < n := by
  have hall : (held occ fun _ => true) = Finset.univ ↔ ∀ i, occ i ≠ none := by
    rw [Finset.eq_univ_iff_forall]
    refine forall_congr' fun i => ?_
    rw [mem_held]
    constructor
    · rintro ⟨k, hk, -⟩ hnone
      rw [hnone] at hk
      cases hk
    · intro hne
      obtain ⟨k, hk⟩ := Option.ne_none_iff_exists'.mp hne
      exact ⟨k, hk, rfl⟩
  have hcard : (held occ fun _ => true).card = n ↔ ∀ i, occ i ≠ none := by
    rw [← hall, ← Finset.card_eq_iff_eq_univ, Fintype.card_fin]
  have hle := card_held_le occ fun _ => true
  constructor
  · rintro ⟨i, hi⟩
    exact lt_of_le_of_ne hle fun heq => hcard.mp heq i hi
  · intro hlt
    by_contra hno
    exact hlt.ne (hcard.mpr fun i hi => hno ⟨i, hi⟩)

/-- An intact key that is held once is found where it is. -/
theorem probe_of_intact {seq : ℕ → Fin n} (hc : Covers seq) {occ : Fin n → Option κ} {k : κ}
    (hint : Intact seq occ k) (huniq : UniqueAt occ k) {i : Fin n} (hi : occ i = some k) :
    probe seq (stopAt occ k) = some i := by
  rw [probe_eq_some_iff hc]
  refine ⟨stopAt_eq_true.mpr (.inr hi), fun j hj => stopAt_eq_false.mpr ⟨hint i j hi hj, ?_⟩⟩
  intro hk
  exact hj.ne (huniq j i hk hi)

/-- A key the table does not hold is not found: the search stops at a free entry, if any. -/
theorem probe_of_absent {seq : ℕ → Fin n} (hc : Covers seq) {occ : Fin n → Option κ} {k : κ}
    (habs : ∀ i, occ i ≠ some k) (hfree : ∃ i, occ i = none) :
    ∃ i, probe seq (stopAt occ k) = some i ∧ occ i = none := by
  cases h : probe seq (stopAt occ k) with
  | none =>
    obtain ⟨i, hi⟩ := hfree
    have := (probe_eq_none_iff hc).mp h i
    exact absurd hi (stopAt_eq_false.mp this).1
  | some i =>
    have := stopAt_eq_true.mp ((probe_eq_some_iff hc).mp h).1
    exact ⟨i, rfl, this.resolve_right (habs i)⟩

/-- If the search for an intact key stops at a free entry then no entry holds it. -/
theorem absent_of_probe_free {seq : ℕ → Fin n} (hc : Covers seq) {occ : Fin n → Option κ}
    {k : κ} (hint : Intact seq occ k) {i : Fin n} (hp : probe seq (stopAt occ k) = some i)
    (hi : occ i = none) (j : Fin n) : occ j ≠ some k := by
  intro hj
  have hne : i ≠ j := by
    rintro rfl
    simp [hi] at hj
  rcases before_or_before hc hne with h | h
  · exact hint j i hj h hi
  · have := ((probe_eq_some_iff hc).mp hp).2 j h
    exact (stopAt_eq_false.mp this).2 hj

/-- If the search stops at a free entry, everything ahead of it is occupied. -/
theorem occupied_of_before_probe {seq : ℕ → Fin n} (hc : Covers seq) {occ : Fin n → Option κ}
    {k : κ} {i : Fin n} (hp : probe seq (stopAt occ k) = some i) {j : Fin n}
    (hj : Before seq j i) : occ j ≠ none :=
  (stopAt_eq_false.mp (((probe_eq_some_iff hc).mp hp).2 j hj)).1

/-- A key held only where its search stopped is intact. -/
theorem intact_of_probe {seq : ℕ → Fin n} (hc : Covers seq) {occ : Fin n → Option κ} {k : κ}
    {i : Fin n} (hp : probe seq (stopAt occ k) = some i) (honly : ∀ j, j ≠ i → occ j ≠ some k) :
    Intact seq (Function.update occ i (some k)) k := by
  intro i' j hi' hj
  have hii : i' = i := by
    by_contra hne
    rw [Function.update_of_ne hne] at hi'
    exact honly i' hne hi'
  subst hii
  rw [Function.update_of_ne hj.ne]
  exact occupied_of_before_probe hc hp hj

omit [DecidableEq κ] in
/-- A key that no entry holds is intact. -/
theorem intact_of_absent {seq : ℕ → Fin n} {occ : Fin n → Option κ} {k : κ}
    (habs : ∀ i, occ i ≠ some k) : Intact seq occ k := fun i _ hi => absurd hi (habs i)

/-- Inserting a key where its search stopped keeps every key intact. -/
theorem Chained.insert {seq : κ → ℕ → Fin n} {occ : Fin n → Option κ} (hch : Chained seq occ)
    {k : κ} (hc : Covers (seq k)) {i : Fin n} (hp : probe (seq k) (stopAt occ k) = some i) :
    Chained seq (Function.update occ i (some k)) := by
  intro k' i' j hi' hj
  by_cases hji : j = i
  · simp [hji]
  rw [Function.update_of_ne hji]
  by_cases hii : i' = i
  · subst hii
    rw [Function.update_self, Option.some.injEq] at hi'
    subst hi'
    exact occupied_of_before_probe hc hp hj
  · rw [Function.update_of_ne hii] at hi'
    exact hch k' i' j hi' hj

omit [DecidableEq κ] in
/-- Clearing the entries in `D` keeps every key intact exactly when none of them lies ahead of an
entry that stays. -/
theorem Chained.clear_iff {seq : κ → ℕ → Fin n} {occ occ' : Fin n → Option κ}
    (hch : Chained seq occ) {D : Fin n → Prop} (hclear : ∀ i, D i → occ' i = none)
    (hkept : ∀ i, ¬ D i → occ' i = occ i) :
    Chained seq occ' ↔ ∀ i j k, occ j = some k → D i → ¬ D j → ¬ Before (seq k) i j := by
  constructor
  · intro hch' i j k hj hi hnot hbefore
    exact hch' k j i ((hkept j hnot).trans hj) hbefore (hclear i hi)
  · intro hahead k j i hj hbefore
    have hnot : ¬ D j := fun hD => by
      rw [hclear j hD] at hj
      cases hj
    rw [hkept j hnot] at hj
    rw [hkept i fun hD => hahead i j k hj hD hnot hbefore]
    exact hch k j i hj hbefore

/-- Inserting an intact key where its search stopped at a free entry keeps keys unique. -/
theorem Unique.insert {seq : κ → ℕ → Fin n} {occ : Fin n → Option κ} (hu : Unique occ)
    {k : κ} (hc : Covers (seq k)) (hint : Intact (seq k) occ k) {i : Fin n}
    (hp : probe (seq k) (stopAt occ k) = some i) (hi : occ i = none) :
    Unique (Function.update occ i (some k)) := by
  have habs := absent_of_probe_free hc hint hp hi
  intro k' a b ha hb
  by_cases hai : a = i <;> by_cases hbi : b = i
  · rw [hai, hbi]
  · subst hai
    rw [Function.update_self, Option.some.injEq] at ha
    rw [Function.update_of_ne hbi, ← ha] at hb
    exact absurd hb (habs b)
  · subst hbi
    rw [Function.update_self, Option.some.injEq] at hb
    rw [Function.update_of_ne hai, ← hb] at ha
    exact absurd ha (habs a)
  · rw [Function.update_of_ne hai] at ha
    rw [Function.update_of_ne hbi] at hb
    exact hu k' a b ha hb

/-! ## Homes -/

/-- Every key of the table is one of `K`, and is held where its search begins. -/
def Homed (K : Set κ) (seq : κ → ℕ → Fin n) (occ : Fin n → Option κ) : Prop :=
  ∀ i k, occ i = some k → k ∈ K ∧ seq k 0 = i

section

variable {K : Set κ} {seq : κ → ℕ → Fin n} {occ : Fin n → Option κ}

omit [DecidableEq κ] in
/-- Nothing is visited ahead of the home of a key. -/
theorem Homed.chained (h : Homed K seq occ) : Chained seq occ := by
  intro k i j hi hj
  obtain ⟨q, -, hq⟩ := hj
  exact absurd (h i k hi).2 (hq 0 (Nat.zero_le _))

/-- When no two keys share a home, a search ends where it begins. -/
theorem Homed.probe_eq (h : Homed K seq occ) (hinj : Set.InjOn (fun k => seq k 0) K) {k : κ}
    (hk : k ∈ K) (hc : Covers (seq k)) : probe (seq k) (stopAt occ k) = some (seq k 0) := by
  rw [probe_eq_some_iff hc]
  constructor
  · rw [stopAt_eq_true]
    cases hocc : occ (seq k 0) with
    | none => exact .inl rfl
    | some k' =>
      obtain ⟨hk', hhome⟩ := h _ k' hocc
      exact .inr (congrArg some (hinj hk' hk hhome))
  · rintro j ⟨q, -, hq⟩
    exact absurd rfl (hq 0 (Nat.zero_le _))

end

end NetSum.Lib
