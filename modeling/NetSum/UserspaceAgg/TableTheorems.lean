import NetSum.UserspaceAgg.Tables

/-!
# What the table operations do

One specification for each operation of `Tables`, in terms of which key an entry holds
(`Tables.occ`, `jobOcc`) rather than of the probe loops. The job table never loses an entry,
so its chains stay whole (`JobsOk`) and a job is found wherever it is. The slot table loses
entries in the middle of chains, so the lookup's specification is only about where the search
stops.
-/

namespace NetSum.UserspaceAgg

open NetSum.Lib NetSum.Protocol NetSum.Aggregation

/-! ## The two probe sequences -/

theorem slotSeq_eq (k : GradSlotKey) :
    slotSeq k = linearSeq slotTableCapacity (slotKey k).toNat := by
  funext p
  apply Fin.ext
  rw [slotSeq, linearSeq, Fin.val_ofNat, Fin.val_ofNat, BitVec.toNat_and, BitVec.toNat_add,
    BitVec.toNat_ofNat, show (65535#64).toNat = 2 ^ 16 - 1 from rfl,
    Nat.and_two_pow_sub_one_eq_mod]
  show _ % 65536 % 65536 = _ % 65536
  omega

theorem jobSeq_eq (jobId : BitVec 32) :
    jobSeq jobId = linearSeq jobTableCapacity (jobHash jobId).toNat := by
  funext p
  apply Fin.ext
  rw [jobSeq, linearSeq, Fin.val_ofNat, Fin.val_ofNat, BitVec.toNat_and, BitVec.toNat_add,
    BitVec.toNat_ofNat, show (255#64).toNat = 2 ^ 8 - 1 from rfl,
    Nat.and_two_pow_sub_one_eq_mod, BitVec.toNat_setWidth]
  show _ % 256 % 256 = _ % 256
  omega

theorem covers_slotSeq (k : GradSlotKey) : Covers (slotSeq k) := by
  rw [slotSeq_eq]
  exact covers_linearSeq _ _

theorem covers_jobSeq (jobId : BitVec 32) : Covers (jobSeq jobId) := by
  rw [jobSeq_eq]
  exact covers_linearSeq _ _

/-! ## Which key an entry holds -/

/-- The key a slot holds, if it is in use. -/
def Slot.occupant (s : Slot) : Option GradSlotKey := if s.inUse then some s.key else none

/-- The keys of the slot table. -/
def Tables.occ (t : Tables) (i : SlotIdx) : Option GradSlotKey := (t.gSlots i).occupant

/-- The jobs of the job table. -/
def jobOcc (g : Jobs) (j : JobIdx) : Option (BitVec 32) :=
  if (g j).inUse then some (g j).jobId else none

theorem Slot.occupant_eq_none {s : Slot} : s.occupant = none ↔ s.inUse = false := by
  unfold Slot.occupant
  cases s.inUse <;> simp

theorem Slot.occupant_eq_some {s : Slot} {k : GradSlotKey} :
    s.occupant = some k ↔ s.inUse = true ∧ s.key = k := by
  unfold Slot.occupant
  cases s.inUse <;> simp

theorem jobOcc_eq_none {g : Jobs} {j : JobIdx} : jobOcc g j = none ↔ (g j).inUse = false := by
  unfold jobOcc
  cases (g j).inUse <;> simp

theorem jobOcc_eq_some {g : Jobs} {j : JobIdx} {jobId : BitVec 32} :
    jobOcc g j = some jobId ↔ (g j).inUse = true ∧ (g j).jobId = jobId := by
  unfold jobOcc
  cases (g j).inUse <;> simp

@[simp] theorem occ_zero (i : SlotIdx) : Tables.zero.occ i = none :=
  Slot.occupant_eq_none.mpr rfl

theorem occ_update (t : Tables) (i : SlotIdx) (s : Slot) (g : Jobs) :
    Tables.occ ⟨Function.update t.gSlots i s, g⟩ = Function.update t.occ i s.occupant := by
  funext j
  by_cases h : j = i
  · subst h
    simp [Tables.occ]
  · simp [Tables.occ, h]

/-- The slot table has a free entry. -/
def Tables.HasRoom (t : Tables) : Prop := ∃ i, t.occ i = none

/-- Where the slot search stops. -/
theorem slotStop_eq (t : Tables) (k : GradSlotKey) :
    (fun idx => !(t.gSlots idx).inUse || (t.gSlots idx).key == k) = stopAt t.occ k := by
  funext i
  rw [Bool.eq_iff_iff, stopAt_eq_true, Tables.occ, Slot.occupant_eq_none,
    Slot.occupant_eq_some]
  cases (t.gSlots i).inUse <;> simp

/-- Where the job search stops. -/
theorem jobStop_eq (g : Jobs) (jobId : BitVec 32) :
    (fun idx => !(g idx).inUse || (g idx).jobId == jobId) = stopAt (jobOcc g) jobId := by
  funext i
  rw [Bool.eq_iff_iff, stopAt_eq_true, jobOcc_eq_none, jobOcc_eq_some]
  cases (g i).inUse <;> simp

/-- The entry a slot search stops at is free or holds the key. -/
theorem occ_of_probe {t : Tables} {k : GradSlotKey} {i : SlotIdx}
    (h : probe (slotSeq k) (stopAt t.occ k) = some i) : t.occ i = none ∨ t.occ i = some k :=
  stopAt_eq_true.mp ((probe_eq_some_iff (covers_slotSeq k)).mp h).1

/-! ## The job table -/

/-- Every tracked job is found, and is tracked once. -/
structure JobsOk (g : Jobs) : Prop where
  chained : Chained jobSeq (jobOcc g)
  unique : Unique (jobOcc g)

theorem jobsOk_zero : JobsOk Tables.zero.gJobs := by
  constructor
  · intro k i j hi
    simp [jobOcc, Tables.zero, JobEntry.zero] at hi
  · intro k i j hi
    simp [jobOcc, Tables.zero, JobEntry.zero] at hi

/-- Rewriting an entry without moving its job leaves the keys of the table alone. -/
theorem jobOcc_update_of_same {g : Jobs} {j : JobIdx} {e : JobEntry}
    (hu : e.inUse = (g j).inUse) (hid : e.jobId = (g j).jobId) :
    jobOcc (Function.update g j e) = jobOcc g := by
  funext j'
  by_cases h : j' = j
  · subst h
    simp [jobOcc, hu, hid]
  · simp [jobOcc, h]

theorem JobsOk.update {g : Jobs} (hg : JobsOk g) {j : JobIdx} {e : JobEntry}
    (hu : e.inUse = (g j).inUse) (hid : e.jobId = (g j).jobId) :
    JobsOk (Function.update g j e) := by
  have h := jobOcc_update_of_same hu hid
  exact ⟨h ▸ hg.chained, h ▸ hg.unique⟩

/-- What `find_or_create_job` returns: the job's entry, an entry made for it in a table that
had none, or `NULL` from a table full of other jobs. -/
theorem findOrCreateJob_cases {g : Jobs} (hg : JobsOk g) (jobId : BitVec 32) :
    (∃ j, findOrCreateJob g jobId = (g, some j) ∧ (g j).inUse = true ∧ (g j).jobId = jobId)
    ∨ (∃ j, findOrCreateJob g jobId
            = (Function.update g j (JobEntry.fresh jobId), some j)
          ∧ (g j).inUse = false ∧ (∀ j', jobOcc g j' ≠ some jobId)
          ∧ JobsOk (Function.update g j (JobEntry.fresh jobId)))
    ∨ (findOrCreateJob g jobId = (g, none) ∧ ∀ j, jobOcc g j ≠ none ∧ jobOcc g j ≠ some jobId) := by
  have hc := covers_jobSeq jobId
  unfold findOrCreateJob
  rw [jobStop_eq]
  cases hp : probe (jobSeq jobId) (stopAt (jobOcc g) jobId) with
  | none =>
    refine .inr (.inr ⟨rfl, fun j => ?_⟩)
    exact stopAt_eq_false.mp ((probe_eq_none_iff hc).mp hp j)
  | some j =>
    cases hu : (g j).inUse with
    | true =>
      refine .inl ⟨j, by simp [hu], hu, ?_⟩
      have hstop := stopAt_eq_true.mp ((probe_eq_some_iff hc).mp hp).1
      rcases hstop with h | h
      · rw [jobOcc_eq_none, hu] at h
        cases h
      · exact (jobOcc_eq_some.mp h).2
    | false =>
      have hfree : jobOcc g j = none := jobOcc_eq_none.mpr hu
      have hocc : jobOcc (Function.update g j (JobEntry.fresh jobId))
          = Function.update (jobOcc g) j (some jobId) := by
        funext j'
        by_cases h : j' = j
        · subst h
          simp [jobOcc, JobEntry.fresh]
        · simp [jobOcc, h]
      refine .inr (.inl ⟨j, by simp [hu], hu, ?_, ?_⟩)
      · exact absent_of_probe_free hc (hg.chained jobId) hp hfree
      · constructor
        · rw [hocc]
          exact hg.chained.insert hc hp
        · rw [hocc]
          exact hg.unique.insert hc (hg.chained jobId) hp hfree

/-- An entry that is returned was the job's, or was free in a table without the job. -/
theorem findOrCreateJob_eq_some {g g' : Jobs} (hg : JobsOk g) {jobId : BitVec 32} {j : JobIdx}
    (h : findOrCreateJob g jobId = (g', some j)) :
    (g' = g ∧ jobOcc g j = some jobId)
    ∨ (g' = Function.update g j (JobEntry.fresh jobId) ∧ jobOcc g j = none
      ∧ (∀ j', jobOcc g j' ≠ some jobId) ∧ JobsOk g') := by
  rcases findOrCreateJob_cases hg jobId with
    ⟨j', h', hu, hid⟩ | ⟨j', h', hfree, habs, hok⟩ | ⟨h', -⟩
  · rw [h', Prod.mk.injEq, Option.some.injEq] at h
    obtain ⟨rfl, rfl⟩ := h
    exact .inl ⟨rfl, jobOcc_eq_some.mpr ⟨hu, hid⟩⟩
  · rw [h', Prod.mk.injEq, Option.some.injEq] at h
    obtain ⟨rfl, rfl⟩ := h
    exact .inr ⟨rfl, jobOcc_eq_none.mpr hfree, habs, hok⟩
  · rw [h'] at h
    cases h

/-- Two entries in use for one job are one entry. -/
theorem JobsOk.eq_of_jobId {g : Jobs} (hg : JobsOk g) {j j' : JobIdx} (hj : (g j).inUse = true)
    (hj' : (g j').inUse = true) (h : (g j).jobId = (g j').jobId) : j = j' :=
  hg.unique (g j).jobId j j' (jobOcc_eq_some.mpr ⟨hj, rfl⟩)
    (jobOcc_eq_some.mpr ⟨hj', h.symm⟩)

@[simp] theorem reject_inUse (e : JobEntry) : e.reject.inUse = e.inUse := rfl
@[simp] theorem reject_jobId (e : JobEntry) : e.reject.jobId = e.jobId := rfl
@[simp] theorem acquire_inUse (e : JobEntry) : e.acquire.inUse = e.inUse := rfl
@[simp] theorem acquire_jobId (e : JobEntry) : e.acquire.jobId = e.jobId := rfl
@[simp] theorem acquire_concurrentSlots (e : JobEntry) :
    e.acquire.concurrentSlots = e.concurrentSlots + 1 := rfl

@[simp] theorem release_inUse (e : JobEntry) : e.release.inUse = e.inUse := by
  unfold JobEntry.release
  split <;> rfl

@[simp] theorem release_jobId (e : JobEntry) : e.release.jobId = e.jobId := by
  unfold JobEntry.release
  split <;> rfl

/-- The guarded decrement. -/
theorem release_concurrentSlots (e : JobEntry) :
    e.release.concurrentSlots.toNat = e.concurrentSlots.toNat - 1 := by
  unfold JobEntry.release
  split
  · next h =>
    show (e.concurrentSlots - 1).toNat = _
    rw [BitVec.toNat_sub_of_le (by rw [BitVec.le_def]; exact h)]
    rfl
  · next h => omega

/-! ## Freeing and reaping -/

theorem freeSlot_gSlots (t : Tables) (s : SlotIdx) :
    (freeSlot t s).gSlots = Function.update t.gSlots s { t.gSlots s with inUse := false } := by
  unfold freeSlot
  split <;> rfl

/-- Freeing a slot that was just written. -/
theorem freeSlot_update_gSlots (gSlots : SlotIdx → Slot) (i : SlotIdx) (s : Slot) (g : Jobs) :
    (freeSlot ⟨Function.update gSlots i s, g⟩ i).gSlots
      = Function.update gSlots i { s with inUse := false } := by
  rw [freeSlot_gSlots]
  simp only [Function.update_self, Function.update_idem]

/-- The slot is due for eviction. -/
def Slot.Expired (ttlMicros now : ℤ) (s : Slot) : Prop :=
  s.inUse = true ∧ now - s.lastTouchedMicros ≥ ttlMicros

instance (ttlMicros now : ℤ) (s : Slot) : Decidable (s.Expired ttlMicros now) :=
  inferInstanceAs (Decidable (_ ∧ _))

theorem reapSlot_eq (ttlMicros now : ℤ) (acc : Tables × List SlotIdx) (i : SlotIdx) :
    reapSlot ttlMicros now acc i
      = if (acc.1.gSlots i).Expired ttlMicros now then (freeSlot acc.1 i, acc.2 ++ [i])
        else acc := rfl

/-- What the sweep keeps of the tables and the log: anything that freeing an in-use slot and
logging it keeps. -/
theorem reapExpiredSlots_log_induction (P : Tables → List SlotIdx → Prop)
    (hfree : ∀ t log i, (t.gSlots i).inUse = true → P t log → P (freeSlot t i) (log ++ [i]))
    {t : Tables} (h0 : P t []) (slotTtlMs now : ℤ) :
    P (reapExpiredSlots slotTtlMs now t).1 (reapExpiredSlots slotTtlMs now t).2 := by
  unfold reapExpiredSlots
  suffices H : ∀ (l : List SlotIdx) (acc : Tables × List SlotIdx), P acc.1 acc.2 →
      P (l.foldl (reapSlot (slotTtlMs * 1000) now) acc).1
        (l.foldl (reapSlot (slotTtlMs * 1000) now) acc).2 from H _ _ h0
  intro l
  induction l with
  | nil => intro acc h; exact h
  | cons i l ih =>
    intro acc h
    apply ih
    rw [reapSlot_eq]
    split
    · next he => exact hfree _ _ _ he.1 h
    · exact h

/-- A sweep over some of the slots, each once: exactly the expired ones among them are
cleared. -/
theorem foldl_reapSlot_gSlots (ttlMicros now : ℤ) {l : List SlotIdx} (hl : l.Nodup)
    (acc : Tables × List SlotIdx) (i : SlotIdx) :
    (i ∉ l → (l.foldl (reapSlot ttlMicros now) acc).1.gSlots i = acc.1.gSlots i)
    ∧ (i ∈ l → (l.foldl (reapSlot ttlMicros now) acc).1.gSlots i
      = if (acc.1.gSlots i).Expired ttlMicros now
        then { acc.1.gSlots i with inUse := false } else acc.1.gSlots i) := by
  induction l generalizing acc with
  | nil => simp
  | cons a l ih =>
    obtain ⟨ha, hl⟩ := List.nodup_cons.mp hl
    obtain ⟨ih1, ih2⟩ := ih hl (reapSlot ttlMicros now acc a)
    rw [List.foldl_cons]
    by_cases hi : i = a
    · subst hi
      refine ⟨fun h => absurd List.mem_cons_self h, fun _ => ?_⟩
      rw [ih1 ha, reapSlot_eq]
      by_cases he : (acc.1.gSlots i).Expired ttlMicros now
      · rw [if_pos he, if_pos he, freeSlot_gSlots, Function.update_self]
      · rw [if_neg he, if_neg he]
    · -- round `a` does not touch slot `i`
      have hslot : (reapSlot ttlMicros now acc a).1.gSlots i = acc.1.gSlots i := by
        rw [reapSlot_eq]
        split
        · rw [freeSlot_gSlots, Function.update_of_ne hi]
        · rfl
      rw [hslot] at ih1 ih2
      exact ⟨fun h => ih1 fun h' => h (List.mem_cons_of_mem _ h'),
        fun h => ih2 ((List.mem_cons.mp h).resolve_left hi)⟩

/-- A sweep over some of the slots, each once: exactly the expired ones among them are
logged. -/
theorem mem_foldl_reapSlot (ttlMicros now : ℤ) {l : List SlotIdx} (hl : l.Nodup)
    (acc : Tables × List SlotIdx) (i : SlotIdx) :
    i ∈ (l.foldl (reapSlot ttlMicros now) acc).2
      ↔ i ∈ acc.2 ∨ i ∈ l ∧ (acc.1.gSlots i).Expired ttlMicros now := by
  induction l generalizing acc with
  | nil => simp
  | cons a l ih =>
    obtain ⟨ha, hl⟩ := List.nodup_cons.mp hl
    rw [List.foldl_cons, ih hl, reapSlot_eq]
    by_cases he : (acc.1.gSlots a).Expired ttlMicros now
    · rw [if_pos he]
      by_cases hi : i = a
      · subst hi
        simp [he]
      · simp [freeSlot_gSlots, hi]
    · rw [if_neg he]
      by_cases hi : i = a
      · subst hi
        simp [he, ha]
      · simp [hi]

/-- The sweep clears exactly the expired slots. -/
theorem reapExpiredSlots_gSlots (slotTtlMs now : ℤ) (t : Tables) (i : SlotIdx) :
    (reapExpiredSlots slotTtlMs now t).1.gSlots i
      = if (t.gSlots i).Expired (slotTtlMs * 1000) now
        then { t.gSlots i with inUse := false } else t.gSlots i := by
  have h := foldl_reapSlot_gSlots (slotTtlMs * 1000) now (List.nodup_finRange slotTableCapacity)
    (t, []) i
  rw [reapExpiredSlots]
  exact h.2 (List.mem_finRange i)

/-- The sweep logs exactly the expired slots. -/
theorem mem_reapExpiredSlots (slotTtlMs now : ℤ) (t : Tables) (i : SlotIdx) :
    i ∈ (reapExpiredSlots slotTtlMs now t).2
      ↔ (t.gSlots i).Expired (slotTtlMs * 1000) now := by
  rw [reapExpiredSlots, mem_foldl_reapSlot _ _ (List.nodup_finRange _)]
  constructor
  · rintro (h | h)
    · cases h
    · exact h.2
  · exact fun h => .inr ⟨List.mem_finRange i, h⟩

end NetSum.UserspaceAgg
