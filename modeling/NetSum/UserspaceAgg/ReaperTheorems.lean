import NetSum.UserspaceAgg.QuotaTheorems

/-!
# What the reaper does

A sweep clears exactly the expired slots (`reapExpiredSlots_gSlots`). What it does to the job
table goes through `find_or_create_job` and a guarded decrement, once for each eviction. In a
state whose accounting is right the lookup adds no job and the guard swallows no decrement, so
each tracked job's counter drops by the number of its evicted slots (`reap_exact`).
-/

namespace NetSum.UserspaceAgg

open NetSum.Lib NetSum.Protocol NetSum.Aggregation

/-! ## The job table -/

/-- Entries differ in their count of slots only, and free entries not at all. -/
def CountsOnly (g g' : Jobs) : Prop :=
  ∀ j, g' j = { g j with concurrentSlots := (g' j).concurrentSlots }
    ∧ ((g j).inUse = false → g' j = g j)

theorem CountsOnly.refl (g : Jobs) : CountsOnly g g := fun _ => ⟨rfl, fun _ => rfl⟩

theorem CountsOnly.inUse_eq {g g' : Jobs} (h : CountsOnly g g') (j : JobIdx) :
    (g' j).inUse = (g j).inUse := by
  have hj := congrArg JobEntry.inUse (h j).1
  exact hj

theorem CountsOnly.jobId_eq {g g' : Jobs} (h : CountsOnly g g') (j : JobIdx) :
    (g' j).jobId = (g j).jobId := by
  have hj := congrArg JobEntry.jobId (h j).1
  exact hj

theorem release_eq (e : JobEntry) :
    e.release = { e with concurrentSlots := e.release.concurrentSlots } := by
  unfold JobEntry.release
  split <;> rfl

/-- One eviction more. -/
theorem CountsOnly.freeSlot {g : Jobs} {t : Tables} (h : CountsOnly g t.gJobs)
    (ht : t.Accounted) {i : SlotIdx} (hi : (t.gSlots i).inUse = true) :
    CountsOnly g (freeSlot t i).gJobs := by
  intro j
  obtain ⟨hcount, hfree⟩ := h j
  rw [ht.freeSlot_gJobs hi j]
  by_cases hj : jobOcc t.gJobs j = some (t.gSlots i).jobId
  · rw [if_pos hj]
    constructor
    · rw [release_eq, hcount]
    · intro hunused
      have hused := (jobOcc_eq_some.mp hj).1
      rw [h.inUse_eq j, hunused] at hused
      cases hused
  · rw [if_neg hj]
    exact ⟨hcount, hfree⟩

/-- The sweep keeps the accounting right, and changes counts only. -/
theorem reapExpiredSlots_jobs {t : Tables} (ht : t.Accounted) (slotTtlMs now : ℤ) :
    (reapExpiredSlots slotTtlMs now t).1.Accounted
      ∧ CountsOnly t.gJobs (reapExpiredSlots slotTtlMs now t).1.gJobs := by
  apply reapExpiredSlots_log_induction fun t' _ => t'.Accounted ∧ CountsOnly t.gJobs t'.gJobs
  · intro t' log i hi h
    exact ⟨h.1.freeSlot hi, h.2.freeSlot h.1 hi⟩
  · exact ⟨ht, .refl _⟩

/-! ## The slots of a job -/

/-- The slots of a job that the sweep is to evict. -/
def expiredOf (t : Tables) (ttlMicros now : ℤ) (jobId : BitVec 32) : Finset SlotIdx :=
  Finset.univ.filter fun i => (t.gSlots i).Expired ttlMicros now ∧ (t.gSlots i).jobId = jobId

/-- An entry is in use after the sweep if it was and has not expired. -/
theorem reapExpiredSlots_inUse (slotTtlMs now : ℤ) (t : Tables) (i : SlotIdx) :
    ((reapExpiredSlots slotTtlMs now t).1.gSlots i).inUse = true
      ↔ (t.gSlots i).inUse = true
        ∧ now - (t.gSlots i).lastTouchedMicros < slotTtlMs * 1000 := by
  rw [reapExpiredSlots_gSlots]
  by_cases he : (t.gSlots i).Expired (slotTtlMs * 1000) now
  · rw [if_pos he]
    exact iff_of_false Bool.false_ne_true fun h => absurd he.2 (not_le.mpr h.2)
  · rw [if_neg he]
    constructor
    · intro hused
      exact ⟨hused, not_le.mp fun hage => he ⟨hused, hage⟩⟩
    · exact And.left

/-- What is in use after the sweep is as it was. -/
theorem reapExpiredSlots_survivor (slotTtlMs now : ℤ) (t : Tables) (i : SlotIdx)
    (h : ((reapExpiredSlots slotTtlMs now t).1.gSlots i).inUse = true) :
    (reapExpiredSlots slotTtlMs now t).1.gSlots i = t.gSlots i := by
  have hlive := (reapExpiredSlots_inUse slotTtlMs now t i).mp h
  rw [reapExpiredSlots_gSlots, if_neg]
  intro he
  exact absurd he.2 (not_le.mpr hlive.2)

/-- A job's slots are those that survive the sweep and those that expired. -/
theorem card_slotsOf_reapExpiredSlots (slotTtlMs now : ℤ) (t : Tables) (jobId : BitVec 32) :
    (slotsOf (reapExpiredSlots slotTtlMs now t).1.occ jobId).card
        + (expiredOf t (slotTtlMs * 1000) now jobId).card
      = (slotsOf t.occ jobId).card := by
  have hdisj : Disjoint (slotsOf (reapExpiredSlots slotTtlMs now t).1.occ jobId)
      (expiredOf t (slotTtlMs * 1000) now jobId) := by
    rw [Finset.disjoint_left]
    intro i hi he
    have hlive := (reapExpiredSlots_inUse slotTtlMs now t i).mp (mem_slotsOf.mp hi).1
    exact absurd (Finset.mem_filter.mp he).2.1.2 (not_le.mpr hlive.2)
  rw [← Finset.card_union_of_disjoint hdisj]
  refine congrArg Finset.card (Finset.ext fun i => ?_)
  rw [Finset.mem_union, mem_slotsOf, mem_slotsOf, expiredOf, Finset.mem_filter]
  constructor
  · rintro (⟨hused, hjob⟩ | ⟨-, he, hjob⟩)
    · have hsame := reapExpiredSlots_survivor slotTtlMs now t i hused
      rw [hsame] at hused hjob
      exact ⟨hused, hjob⟩
    · exact ⟨he.1, hjob⟩
  · -- a slot of the job is evicted, or is in use afterwards as before
    rintro ⟨hused, hjob⟩
    by_cases he : (t.gSlots i).Expired (slotTtlMs * 1000) now
    · exact .inr ⟨Finset.mem_univ _, he, hjob⟩
    · rw [reapExpiredSlots_gSlots, if_neg he]
      exact .inl ⟨hused, hjob⟩

/-- A tracked job's counter drops by the number of its evicted slots. -/
theorem reapExpiredSlots_concurrentSlots {t : Tables} (ht : t.Accounted) (slotTtlMs now : ℤ)
    {j : JobIdx} (hj : (t.gJobs j).inUse = true) :
    ((reapExpiredSlots slotTtlMs now t).1.gJobs j).concurrentSlots.toNat
        + (expiredOf t (slotTtlMs * 1000) now (t.gJobs j).jobId).card
      = (t.gJobs j).concurrentSlots.toNat := by
  obtain ⟨ht', hcounts⟩ := reapExpiredSlots_jobs ht slotTtlMs now
  -- both counters are the numbers of slots, which differ by the expired ones
  have hafter := ht'.count_eq j ((hcounts.inUse_eq j).trans hj)
  have hcard := card_slotsOf_reapExpiredSlots slotTtlMs now t (t.gJobs j).jobId
  rw [hcounts.jobId_eq j] at hafter
  have hbefore := ht.count_eq j hj
  omega

/-! ## The main result -/

/-- **The reaper evicts exactly the silent slots.** In every reachable state a sweep leaves in
use the slots last touched less than `slot_ttl_ms * 1000` ago, as they were. It makes no entry of
the job table, and of a tracked job's entry it changes the counter alone, by the number of the
job's evicted slots. -/
theorem reap_exact (args : Args) (inPacket outPacket : Buffer) (now₀ : ℤ) (es : List Event)
    (slotTtlMs now : ℤ) :
    let t := (runState (mainStep args) (State.init inPacket outPacket now₀) es).tables
    let t' := (reapExpiredSlots slotTtlMs now t).1
    (∀ i, (t'.gSlots i).inUse = true
        ↔ (t.gSlots i).inUse = true
          ∧ now - (t.gSlots i).lastTouchedMicros < slotTtlMs * 1000)
    ∧ (∀ i, (t'.gSlots i).inUse = true → t'.gSlots i = t.gSlots i)
    ∧ (∀ j, (t.gJobs j).inUse = false → t'.gJobs j = t.gJobs j)
    ∧ ∀ j, (t.gJobs j).inUse = true →
      t'.gJobs j = { t.gJobs j with concurrentSlots := (t'.gJobs j).concurrentSlots }
      ∧ (t'.gJobs j).concurrentSlots.toNat
          + (expiredOf t (slotTtlMs * 1000) now (t.gJobs j).jobId).card
        = (t.gJobs j).concurrentSlots.toNat := by
  have hacct := (accounted_init args inPacket outPacket now₀ es).2
  have hcounts := (reapExpiredSlots_jobs hacct slotTtlMs now).2
  exact ⟨reapExpiredSlots_inUse slotTtlMs now _, reapExpiredSlots_survivor slotTtlMs now _,
    fun j => (hcounts j).2, fun j hj => ⟨(hcounts j).1,
      reapExpiredSlots_concurrentSlots hacct slotTtlMs now hj⟩⟩

end NetSum.UserspaceAgg
