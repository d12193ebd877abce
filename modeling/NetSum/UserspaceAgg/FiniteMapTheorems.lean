import NetSum.UserspaceAgg.QuotaTheorems

/-!
# The slot table as a finite map

The operations on the slot table, on their own: `find_or_create_slot`, `free_slot` on an entry in
use, the sweep, and what the caller writes to an entry in between. Without a quota the table is a
finite map from keys to slots (`FiniteMap`) as long as no free entry lies ahead of an entry in use
on its probe path. Nothing but a removal makes one, so the table is a finite map throughout
exactly when no entry that is removed lies ahead of one that stays (`finite_map_iff`).
-/

namespace NetSum.UserspaceAgg

open NetSum.Lib NetSum.Protocol NetSum.Aggregation

/-! ## Operations -/

/-- An operation on the slot table. -/
inductive TableOp where
  | findOrCreate (k : GradSlotKey)
  | free (i : SlotIdx)
  | reap (slotTtlMs now : ℤ)
  | write (i : SlotIdx) (s : Slot)

/-- The tables afterwards, and the entry that was looked up. -/
def tableStep (t : Tables) : TableOp → Tables × Option SlotIdx
  | .findOrCreate k => findOrCreateSlot 0 t k
  | .free i => (freeSlot t i, none)
  | .reap slotTtlMs now => ((reapExpiredSlots slotTtlMs now t).1, none)
  | .write i s => (⟨Function.update t.gSlots i s, t.gJobs⟩, none)

/-- Entries in use are freed and written, and a write leaves the key alone. -/
def TableOp.Valid (t : Tables) : TableOp → Prop
  | .free i => (t.gSlots i).inUse = true
  | .write i s => (t.gSlots i).inUse = true ∧ s.inUse = true ∧ s.key = (t.gSlots i).key
  | _ => True

instance (t : Tables) : (op : TableOp) → Decidable (op.Valid t)
  | .findOrCreate _ => .isTrue trivial
  | .free i => inferInstanceAs (Decidable ((t.gSlots i).inUse = true))
  | .reap _ _ => .isTrue trivial
  | .write _ _ => inferInstanceAs (Decidable (_ ∧ _ ∧ _))

/-- The operation removes entry `i`. -/
def TableOp.Removes (t : Tables) (i : SlotIdx) : TableOp → Prop
  | .free j => i = j
  | .reap slotTtlMs now => (t.gSlots i).Expired (slotTtlMs * 1000) now
  | _ => False

/-- No entry that is removed lies ahead of one that stays. -/
def TableOp.KeepsChains (t : Tables) (op : TableOp) : Prop :=
  ∀ i j k, t.occ j = some k → op.Removes t i → ¬ op.Removes t j → ¬ Before (slotSeq k) i j

/-- The table is a finite map: a key has one entry, which is found; it gets one exactly when it
has none and the table is not full. -/
structure Tables.FiniteMap (t : Tables) : Prop where
  unique : Unique t.occ
  found : ∀ i k, t.occ i = some k → findOrCreateSlot 0 t k = (t, some i)
  creates : ∀ k, (∃ i, t.occ i = none ∧ (findOrCreateSlot 0 t k).2 = some i
      ∧ (findOrCreateSlot 0 t k).1.gSlots = Function.update t.gSlots i (Slot.fresh k))
    ↔ (∀ i, t.occ i ≠ some k) ∧ t.HasRoom

/-- What is not removed is found as it was. -/
def TableOp.Leaves (t : Tables) (op : TableOp) : Prop :=
  (∃ i, op.Removes t i) → ∀ i k, t.occ i = some k → ¬ op.Removes t i →
    (tableStep t op).1.gSlots i = t.gSlots i
      ∧ findOrCreateSlot 0 (tableStep t op).1 k = ((tableStep t op).1, some i)

/-! ## One state -/

/-- Keys are held once, and no free entry lies ahead of one in use. -/
structure Tables.Keyed (t : Tables) : Prop where
  chained : Chained slotSeq t.occ
  unique : Unique t.occ

section

variable {t : Tables} {op : TableOp} {k : GradSlotKey}

theorem not_overQuota_zero (e : JobEntry) : ¬ OverQuota 0 e := fun h => lt_irrefl _ h.1

/-- Without a quota a search that stops at a free entry opens it. -/
theorem findOrCreateSlot_of_free {i : SlotIdx} (hp : probe (slotSeq k) (stopAt t.occ k) = some i)
    (hi : t.occ i = none) :
    (findOrCreateSlot 0 t k).2 = some i
      ∧ (findOrCreateSlot 0 t k).1.gSlots = Function.update t.gSlots i (Slot.fresh k) := by
  rcases findOrCreateSlot_cases 0 t k with
    ⟨-, hfull⟩ | ⟨j, hp', ⟨hocc, -⟩ | ⟨-, ⟨g, a, -, hq, -⟩ | ⟨g, -, h⟩⟩⟩
  · exact absurd hi (hfull i).1
  · obtain rfl := Option.some.inj (hp.symm.trans hp')
    rw [hi] at hocc
    cases hocc
  · exact absurd hq (not_overQuota_zero _)
  · obtain rfl := Option.some.inj (hp.symm.trans hp')
    rw [h]
    exact ⟨rfl, rfl⟩

/-- A search that stops at an entry of the key returns it. -/
theorem findOrCreateSlot_of_held {i : SlotIdx} (hp : probe (slotSeq k) (stopAt t.occ k) = some i)
    (hi : t.occ i = some k) : findOrCreateSlot 0 t k = (t, some i) := by
  rcases findOrCreateSlot_cases 0 t k with
    ⟨-, hfull⟩ | ⟨j, hp', ⟨-, h⟩ | ⟨hfree, -⟩⟩
  · exact absurd hi (hfull i).2
  · obtain rfl := Option.some.inj (hp.symm.trans hp')
    exact h
  · obtain rfl := Option.some.inj (hp.symm.trans hp')
    rw [hi] at hfree
    cases hfree

/-- **Unbroken chains make a finite map**, and only they do. -/
theorem keyed_iff_finiteMap : t.Keyed ↔ t.FiniteMap := by
  constructor
  · rintro ⟨hch, huniq⟩
    refine ⟨huniq, fun i k hi => findOrCreateSlot_of_held
      (probe_of_intact (covers_slotSeq k) (hch k) (huniq k) hi) hi, fun k => ⟨?_, ?_⟩⟩
    · rintro ⟨i, hfree, hi, -⟩
      refine ⟨fun j hj => ?_, i, hfree⟩
      have hfound := findOrCreateSlot_of_held
        (probe_of_intact (covers_slotSeq k) (hch k) (huniq k) hj) hj
      rw [hfound] at hi
      obtain rfl := Option.some.inj hi
      rw [hj] at hfree
      cases hfree
    · rintro ⟨habs, hroom⟩
      obtain ⟨i, hp, hi⟩ := probe_of_absent (covers_slotSeq k) habs hroom
      exact ⟨i, hi, findOrCreateSlot_of_free hp hi⟩
  · rintro ⟨huniq, hfound, -⟩
    refine ⟨fun k i j hi hbefore => ?_, huniq⟩
    -- the lookup that finds the entry has stopped at it
    have hp : probe (slotSeq k) (stopAt t.occ k) = some i := by
      rcases findOrCreateSlot_cases 0 t k with
        ⟨-, hfull⟩ | ⟨a, hp, ⟨-, h⟩ | ⟨-, ⟨g, b, -, hq, -⟩ | ⟨g, -, h⟩⟩⟩
      · exact absurd hi (hfull i).2
      · rw [hfound i k hi] at h
        rw [hp, (Prod.mk.inj h).2]
      · exact absurd hq (not_overQuota_zero _)
      · rw [hfound i k hi] at h
        rw [hp, (Prod.mk.inj h).2]
    exact occupied_of_before_probe (covers_slotSeq k) hp hbefore

/-! ## One operation -/

theorem gSlots_reap (t : Tables) (slotTtlMs now : ℤ) (i : SlotIdx) :
    (tableStep t (.reap slotTtlMs now)).1.gSlots i
      = if (t.gSlots i).Expired (slotTtlMs * 1000) now
        then { t.gSlots i with inUse := false } else t.gSlots i := by
  have hslot := reapExpiredSlots_gSlots slotTtlMs now t i
  have hstep : ∃ r, r = reapExpiredSlots slotTtlMs now t
      ∧ tableStep t (.reap slotTtlMs now) = (r.1, none) := ⟨_, rfl, rfl⟩
  obtain ⟨r, hr, hstep⟩ := hstep
  rw [← hr] at hslot
  rw [hstep]
  exact hslot

/-- Only the keys of the entries matter. -/
theorem Tables.Keyed.congr {t t' : Tables} (h : t.Keyed) (hocc : t'.occ = t.occ) : t'.Keyed := by
  refine ⟨?_, ?_⟩
  · rw [hocc]
    exact h.chained
  · rw [hocc]
    exact h.unique

theorem occ_eq_of_gSlots {t t' : Tables} {i : SlotIdx} (h : t'.gSlots i = t.gSlots i) :
    t'.occ i = t.occ i := by
  rw [Tables.occ, h, Tables.occ]

/-- What the sweep removes is free afterwards, and the rest is left. -/
theorem gSlots_reap_cases (t : Tables) (slotTtlMs now : ℤ) (i : SlotIdx) :
    ((t.gSlots i).Expired (slotTtlMs * 1000) now → (tableStep t (.reap slotTtlMs now)).1.occ i = none)
      ∧ (¬ (t.gSlots i).Expired (slotTtlMs * 1000) now →
        (tableStep t (.reap slotTtlMs now)).1.gSlots i = t.gSlots i) := by
  have hslot := gSlots_reap t slotTtlMs now i
  generalize (tableStep t (.reap slotTtlMs now)).1 = t' at hslot ⊢
  refine ⟨fun h => ?_, fun h => ?_⟩
  · rw [Tables.occ, hslot, if_pos h, Slot.occupant_eq_none]
  · rw [hslot, if_neg h]

/-- What an operation removes is free afterwards, and the rest is left. -/
theorem occ_tableStep_of_removes (h : ∃ i, op.Removes t i) :
    (∀ i, op.Removes t i → (tableStep t op).1.occ i = none)
      ∧ ∀ i, ¬ op.Removes t i → (tableStep t op).1.gSlots i = t.gSlots i := by
  cases op with
  | findOrCreate k => exact absurd h fun ⟨_, h⟩ => h
  | write i s => exact absurd h fun ⟨_, h⟩ => h
  | free j =>
    refine ⟨?_, fun i hi => ?_⟩
    · rintro _ rfl
      show (freeSlot t _).occ _ = none
      rw [occ_freeSlot, Function.update_self]
    · show (freeSlot t j).gSlots i = _
      rw [freeSlot_gSlots, Function.update_of_ne hi]
  | reap slotTtlMs now =>
    exact ⟨fun i => (gSlots_reap_cases t slotTtlMs now i).1,
      fun i => (gSlots_reap_cases t slotTtlMs now i).2⟩

/-- A caller rewrites an entry under its own key. -/
theorem occ_write {i : SlotIdx} {s : Slot} (hvalid : TableOp.Valid t (.write i s)) :
    (tableStep t (.write i s)).1.occ = t.occ := by
  obtain ⟨hu, hu', hkey⟩ := hvalid
  have hi : t.occ i = some (t.gSlots i).key := Slot.occupant_eq_some.mpr ⟨hu, rfl⟩
  show Tables.occ ⟨Function.update t.gSlots i s, t.gJobs⟩ = t.occ
  rw [occ_update, Slot.occupant_eq_some.mpr ⟨hu', hkey⟩, ← hi, Function.update_eq_self]

/-- An operation that removes nothing keeps the chains. -/
theorem Tables.Keyed.tableStep_of_not_removes (h : t.Keyed) (hvalid : op.Valid t)
    (hno : ∀ i, ¬ op.Removes t i) : (tableStep t op).1.Keyed := by
  cases op with
  | findOrCreate k =>
    show (findOrCreateSlot 0 t k).1.Keyed
    rcases findOrCreateSlot_cases 0 t k with
      ⟨heq, -⟩ | ⟨i, hp, ⟨-, heq⟩ | ⟨hfree, ⟨g, j, -, hq, -⟩ | ⟨g, -, heq⟩⟩⟩
    · rwa [heq]
    · rwa [heq]
    · exact absurd hq (not_overQuota_zero _)
    · rw [heq]
      have hocc : Tables.occ ⟨Function.update t.gSlots i (Slot.fresh k), g⟩
          = Function.update t.occ i (some k) := occ_update t i (Slot.fresh k) g
      refine ⟨?_, ?_⟩
      · rw [hocc]
        exact h.chained.insert (covers_slotSeq k) hp
      · rw [hocc]
        exact h.unique.insert (covers_slotSeq k) (h.chained k) hp hfree
  | free j => exact absurd rfl (hno j)
  | reap slotTtlMs now =>
    refine h.congr (funext fun i => occ_eq_of_gSlots ?_)
    rw [gSlots_reap, if_neg (show ¬ (t.gSlots i).Expired _ _ from hno i)]
  | write i s => exact h.congr (occ_write hvalid)

/-- **One operation** keeps the table a finite map exactly when no entry that it removes lies
ahead of one that stays. -/
theorem Tables.Keyed.tableStep_iff (h : t.Keyed) (hvalid : op.Valid t) :
    (tableStep t op).1.Keyed ↔ op.KeepsChains t := by
  by_cases hrem : ∃ i, op.Removes t i
  · obtain ⟨hclear, hkept⟩ := occ_tableStep_of_removes hrem
    have hocc := fun i hi => occ_eq_of_gSlots (hkept i hi)
    refine ⟨fun h' => (h.chained.clear_iff hclear hocc).mp h'.chained, fun hk =>
      ⟨(h.chained.clear_iff hclear hocc).mpr hk, fun k i j hi hj => ?_⟩⟩
    have hstay : ∀ a, (tableStep t op).1.occ a = some k → t.occ a = some k := fun a ha => by
      by_cases hr : op.Removes t a
      · rw [hclear a hr] at ha
        cases ha
      · rwa [← hocc a hr]
    exact h.unique k i j (hstay i hi) (hstay j hj)
  · have hno : ∀ i, ¬ op.Removes t i := fun i hi => hrem ⟨i, hi⟩
    exact iff_of_true (h.tableStep_of_not_removes hvalid hno) fun i j k _ hi => absurd hi (hno i)

theorem Tables.Keyed.leaves (h : (tableStep t op).1.Keyed) : op.Leaves t := by
  intro hrem i k hi hno
  have hslot := (occ_tableStep_of_removes hrem).2 i hno
  exact ⟨hslot, (keyed_iff_finiteMap.mp h).found i k ((occ_eq_of_gSlots hslot).trans hi)⟩

/-- Only a search for a key brings it into the table. -/
theorem occ_tableStep_cases (hvalid : op.Valid t) {j : SlotIdx}
    (h : (tableStep t op).1.occ j = some k) :
    t.occ j = some k ∨ op = .findOrCreate k ∧ (tableStep t op).2 = some j := by
  cases op with
  | findOrCreate k' =>
    obtain ⟨r, hr, hstep⟩ : ∃ r, r = findOrCreateSlot 0 t k' ∧ tableStep t (.findOrCreate k') = r :=
      ⟨_, rfl, rfl⟩
    rw [hstep] at h ⊢
    rcases findOrCreateSlot_cases 0 t k' with
      ⟨heq, -⟩ | ⟨i, hp, ⟨-, heq⟩ | ⟨hfree, ⟨g, a, -, hq, -⟩ | ⟨g, -, heq⟩⟩⟩
    · rw [hr, heq] at h
      exact .inl h
    · rw [hr, heq] at h
      exact .inl h
    · exact absurd hq (not_overQuota_zero _)
    · rw [hr, heq] at h ⊢
      rw [show Tables.occ _ = _ from occ_update t i (Slot.fresh k') g] at h
      by_cases hj : j = i
      · subst hj
        rw [Function.update_self] at h
        obtain rfl := Option.some.inj h
        exact .inr ⟨rfl, rfl⟩
      · rw [Function.update_of_ne hj] at h
        exact .inl h
  | write i s =>
    rw [occ_write hvalid] at h
    exact .inl h
  | free i =>
    have hocc : (tableStep t (.free i)).1.occ = Function.update t.occ i none := occ_freeSlot t i
    rw [hocc] at h
    by_cases hj : j = i
    · rw [hj, Function.update_self] at h
      cases h
    · rw [Function.update_of_ne hj] at h
      exact .inl h
  | reap slotTtlMs now =>
    obtain ⟨hgone, hkept⟩ := gSlots_reap_cases t slotTtlMs now j
    by_cases hexpired : (t.gSlots j).Expired (slotTtlMs * 1000) now
    · rw [hgone hexpired] at h
      cases h
    · rw [occ_eq_of_gSlots (hkept hexpired)] at h
      exact .inl h

theorem keyed_zero : Tables.zero.Keyed := by
  refine ⟨fun k i j hi => ?_, fun k i j hi => ?_⟩
  · rw [occ_zero] at hi
    cases hi
  · rw [occ_zero] at hi
    cases hi

end

/-! ## Sequences of operations -/

/-- A key in the table was put there by a search for it. -/
theorem searched_run {ops : List TableOp}
    (hvalid : StepsMeet tableStep (fun t op => op.Valid t) Tables.zero ops) :
    ∀ T ≤ ops.length, ∀ j k, (stateAt tableStep Tables.zero ops T).occ j = some k →
      ∃ u < T, ops[u]? = some (.findOrCreate k)
        ∧ (tableStep (stateAt tableStep Tables.zero ops u) (.findOrCreate k)).2 = some j := by
  refine stateAt_induction (fun T (t : Tables) => ∀ j k, t.occ j = some k → ∃ u < T,
    ops[u]? = some (.findOrCreate k)
      ∧ (tableStep (stateAt tableStep Tables.zero ops u) (.findOrCreate k)).2 = some j)
    (fun j k h => ?_) fun T op hop ih j k h => ?_
  · rw [occ_zero] at h
    cases h
  · rcases occ_tableStep_cases (stepsMeet_iff.mp hvalid T op hop) h with hbefore | ⟨rfl, hj⟩
    · obtain ⟨u, hu, hfound⟩ := ih j k hbefore
      exact ⟨u, Nat.lt_succ_of_lt hu, hfound⟩
    · exact ⟨T, Nat.lt_succ_self T, hop, hj⟩

/-- **The slot table is a finite map** throughout, and leaves alone what it does not remove,
exactly when no entry that is removed lies ahead of one that stays. -/
theorem finite_map_iff {ops : List TableOp}
    (hvalid : StepsMeet tableStep (fun t op => op.Valid t) Tables.zero ops) :
    ((∀ T ≤ ops.length, (stateAt tableStep Tables.zero ops T).FiniteMap)
        ∧ ∀ T (op : TableOp), ops[T]? = some op → op.Leaves (stateAt tableStep Tables.zero ops T))
      ↔ StepsMeet tableStep (fun t op => op.KeepsChains t) Tables.zero ops := by
  have hvalid' := stepsMeet_iff.mp hvalid
  rw [stepsMeet_iff]
  constructor
  · rintro ⟨hmap, -⟩ T op hop
    have hlt : T < ops.length := (List.getElem?_eq_some_iff.mp hop).1
    have hnext := keyed_iff_finiteMap.mpr (hmap (T + 1) hlt)
    rw [stateAt_succ hop] at hnext
    exact ((keyed_iff_finiteMap.mpr (hmap T hlt.le)).tableStep_iff (hvalid' T op hop)).mp hnext
  · -- chains are kept by every operation, so by the run
    intro hkeeps
    have hkeyed : ∀ T ≤ ops.length, (stateAt tableStep Tables.zero ops T).Keyed :=
      stateAt_induction (fun _ (t : Tables) => t.Keyed) keyed_zero fun T op hop h =>
        (h.tableStep_iff (hvalid' T op hop)).mpr (hkeeps T op hop)
    refine ⟨fun T hT => keyed_iff_finiteMap.mp (hkeyed T hT), fun T op hop => ?_⟩
    have hlt : T < ops.length := (List.getElem?_eq_some_iff.mp hop).1
    have hnext := hkeyed (T + 1) hlt
    rw [stateAt_succ hop] at hnext
    exact Tables.Keyed.leaves hnext

/-- Keys `(1, 0, 0)` and `(2, 46657, 0)` have the same home position. The second, which lies behind,
is removed, comes back, and is swept away when the first has just been written. -/
def removalOps : List TableOp :=
  [.findOrCreate ⟨1, 0, 0⟩, .findOrCreate ⟨2, 46657, 0⟩, .free 56547, .findOrCreate ⟨2, 46657, 0⟩,
    .write 56546 { Slot.fresh ⟨1, 0, 0⟩ with lastTouchedMicros := 90000 }, .reap 40 100000]

theorem finite_map_of_removals :
    ((stateAt tableStep Tables.zero removalOps 5).gSlots 56547).Expired (40 * 1000) 100000
      ∧ (∀ T ≤ removalOps.length, (stateAt tableStep Tables.zero removalOps T).FiniteMap)
      ∧ ∀ T (op : TableOp), removalOps[T]? = some op →
        op.Leaves (stateAt tableStep Tables.zero removalOps T) := by
  have hvalid : StepsMeet tableStep (fun t op => op.Valid t) Tables.zero removalOps := by
    decide +kernel
  have hsearched := searched_run hvalid
  -- the entries that are ever in use
  have hocc : ∀ T ≤ 5, ∀ j k, (stateAt tableStep Tables.zero removalOps T).occ j = some k →
      j = 56546 ∧ k = ⟨1, 0, 0⟩ ∨ j = 56547 := by
    intro T hT j k h
    obtain ⟨u, hu, hop, hj⟩ := hsearched T (hT.trans (by decide)) j k h
    have hlt : u < 5 := by omega
    interval_cases u <;> cases hop <;> obtain rfl := Option.some.inj hj
    · exact .inl ⟨by decide +kernel, rfl⟩
    · exact .inr (by decide +kernel)
    · exact .inr (by decide +kernel)
  have hahead : ¬ Before (slotSeq ⟨1, 0, 0⟩) 56547 56546 := by
    rintro ⟨q, -, hq⟩
    exact hq 0 (Nat.zero_le q) (by decide +kernel)
  refine ⟨by decide +kernel,
    (finite_map_iff hvalid).mpr (stepsMeet_iff.mpr fun T op hop i j k hj hi hstays => ?_)⟩
  have hlt : T < 6 := (List.getElem?_eq_some_iff.mp hop).1
  have hfirst := hocc T (by omega) j k hj
  interval_cases T <;> obtain rfl := Option.some.inj hop
  · exact absurd hi id
  · exact absurd hi id
  · obtain rfl : i = 56547 := hi
    rcases hfirst with ⟨rfl, rfl⟩ | rfl
    · exact hahead
    · exact absurd rfl hstays
  · exact absurd hi id
  · exact absurd hi id
  · have hexpired : ((stateAt tableStep Tables.zero removalOps 5).gSlots i).Expired (40 * 1000)
        100000 := hi
    rcases hocc 5 le_rfl i _ (Slot.occupant_eq_some.mpr ⟨hexpired.1, rfl⟩) with ⟨rfl, -⟩ | rfl
    · exact absurd hexpired (by decide +kernel)
    · rcases hfirst with ⟨rfl, rfl⟩ | rfl
      · exact hahead
      · exact absurd hi hstays

/-- Keys `(1, 0, 0)` and `(2, 46657, 0)` have the same home position; the first is removed. -/
def collidingOps : List TableOp :=
  [.findOrCreate ⟨1, 0, 0⟩, .findOrCreate ⟨2, 46657, 0⟩, .free 56546]

/-- Then the second is in the table and is not found: a second entry is created for it. -/
theorem collidingOps_lose_key :
    StepsMeet tableStep (fun t op => op.Valid t) Tables.zero collidingOps
      ∧ (runState tableStep Tables.zero collidingOps).occ 56547 = some ⟨2, 46657, 0⟩
      ∧ (findOrCreateSlot 0 (runState tableStep Tables.zero collidingOps) ⟨2, 46657, 0⟩).2
        = some 56546
      ∧ ¬ (runState tableStep Tables.zero collidingOps).FiniteMap := by
  have hocc : (runState tableStep Tables.zero collidingOps).occ 56547 = some ⟨2, 46657, 0⟩ := by
    decide +kernel
  have hfound : (findOrCreateSlot 0 (runState tableStep Tables.zero collidingOps)
      ⟨2, 46657, 0⟩).2 = some 56546 := by decide +kernel
  refine ⟨by decide +kernel, hocc, hfound, fun h => ?_⟩
  rw [h.found _ _ hocc] at hfound
  cases hfound

end NetSum.UserspaceAgg
