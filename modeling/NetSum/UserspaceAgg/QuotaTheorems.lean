import NetSum.UserspaceAgg.Invariants

/-!
# The fairness quota

The quota compares `concurrent_slots` of the job's entry with the quota cast to 32 bits. The
entry's counter is right (`Accounted`): it is the number of slots in use that belong to the
job, and a job with slots but no entry exists only when the job table is full. What the rule
admits is therefore exact but for two gaps, a job that does not fit into the job table, which
is never refused, and a quota from `2 ^ 32` on, of which only the low 32 bits count
(`quota_exact_iff`).
-/

namespace NetSum.UserspaceAgg

open NetSum.Lib NetSum.Protocol NetSum.Aggregation

/-! ## Slots of a job -/

/-- The slots in use that belong to a job. -/
def slotsOf (occ : SlotIdx → Option GradSlotKey) (jobId : BitVec 32) : Finset SlotIdx :=
  held occ fun k => k.jobId == jobId

theorem card_slotsOf_fill {occ : SlotIdx → Option GradSlotKey} {i : SlotIdx} (hi : occ i = none)
    (k : GradSlotKey) (jobId : BitVec 32) :
    (slotsOf (Function.update occ i (some k)) jobId).card
      = (slotsOf occ jobId).card + if k.jobId = jobId then 1 else 0 := by
  rw [slotsOf, card_held_fill hi]
  simp only [beq_iff_eq, slotsOf]

theorem card_slotsOf_clear {occ : SlotIdx → Option GradSlotKey} {i : SlotIdx} {k : GradSlotKey}
    (hi : occ i = some k) (jobId : BitVec 32) :
    (slotsOf (Function.update occ i none) jobId).card + (if k.jobId = jobId then 1 else 0)
      = (slotsOf occ jobId).card := by
  rw [slotsOf, slotsOf, ← card_held_clear hi]
  simp only [beq_iff_eq]

theorem card_slotsOf_le (occ : SlotIdx → Option GradSlotKey) (jobId : BitVec 32) :
    (slotsOf occ jobId).card ≤ slotTableCapacity := card_held_le _ _

@[simp] theorem slotsOf_zero (jobId : BitVec 32) : slotsOf Tables.zero.occ jobId = ∅ := by
  rw [Finset.eq_empty_iff_forall_notMem]
  intro i hi
  obtain ⟨k, hk, -⟩ := mem_held.mp hi
  rw [occ_zero] at hk
  cases hk

theorem mem_slotsOf {t : Tables} {jobId : BitVec 32} {i : SlotIdx} :
    i ∈ slotsOf t.occ jobId ↔ (t.gSlots i).inUse = true ∧ (t.gSlots i).jobId = jobId := by
  rw [slotsOf, mem_held]
  constructor
  · rintro ⟨k, hk, hjob⟩
    obtain ⟨hused, rfl⟩ := Slot.occupant_eq_some.mp hk
    exact ⟨hused, beq_iff_eq.mp hjob⟩
  · rintro ⟨hused, hjob⟩
    exact ⟨_, Slot.occupant_eq_some.mpr ⟨hused, rfl⟩, beq_iff_eq.mpr hjob⟩

/-! ## The accounting invariant -/

/-- Every tracked job's counter is the number of its slots, and a job with slots is tracked
unless the job table is full. -/
structure Accounted (occ : SlotIdx → Option GradSlotKey) (g : Jobs) : Prop where
  jobsOk : JobsOk g
  count_eq : ∀ j, (g j).inUse = true →
    (g j).concurrentSlots.toNat = (slotsOf occ (g j).jobId).card
  tracked : ∀ i k, occ i = some k →
    (∃ j, jobOcc g j = some k.jobId) ∨ ∀ j, jobOcc g j ≠ none

namespace Accounted

variable {occ occ' : SlotIdx → Option GradSlotKey} {g g' : Jobs} {j : JobIdx} {jobId : BitVec 32}

/-- `find_or_create_job` keeps the invariant: a job it adds has no slots. -/
theorem findOrCreateJob_some (h : Accounted occ g) (hf : findOrCreateJob g jobId = (g', some j)) :
    Accounted occ g' ∧ (g' j).inUse = true ∧ (g' j).jobId = jobId := by
  rcases findOrCreateJob_eq_some h.jobsOk hf with ⟨rfl, hj⟩ | ⟨rfl, hfree, habs, hok⟩
  · exact ⟨h, jobOcc_eq_some.mp hj⟩
  · -- no slot belongs to the job, which was neither tracked nor kept out
    have hzero : (slotsOf occ jobId).card = 0 := by
      rw [Finset.card_eq_zero, Finset.eq_empty_iff_forall_notMem]
      intro i hi
      obtain ⟨k, hk, hkj⟩ := mem_held.mp hi
      rcases h.tracked i k hk with ⟨a, ha⟩ | hfull
      · rw [beq_iff_eq] at hkj
        exact habs a (hkj ▸ ha)
      · exact hfull j hfree
    refine ⟨⟨hok, fun a ha => ?_, fun i k hk => ?_⟩, ?_, ?_⟩
    · by_cases haj : a = j
      · subst haj
        rw [Function.update_self]
        exact hzero.symm
      · rw [Function.update_of_ne haj] at ha ⊢
        exact h.count_eq a ha
    · rcases h.tracked i k hk with ⟨a, ha⟩ | hfull
      · refine .inl ⟨a, ?_⟩
        have haj : a ≠ j := by
          rintro rfl
          rw [hfree] at ha
          cases ha
        rw [jobOcc_eq_some] at ha ⊢
        rwa [Function.update_of_ne haj]
      · exact absurd hfree (hfull j)
    · rw [Function.update_self]
      rfl
    · rw [Function.update_self]
      rfl

theorem findOrCreateJob_none (h : Accounted occ g) (hf : findOrCreateJob g jobId = (g', none)) :
    g' = g ∧ ∀ a, jobOcc g a ≠ none ∧ jobOcc g a ≠ some jobId := by
  rcases findOrCreateJob_cases h.jobsOk jobId with
    ⟨j', hf', -⟩ | ⟨j', hf', -⟩ | ⟨hf', hfull⟩
  · rw [hf'] at hf
    cases hf
  · rw [hf'] at hf
    cases hf
  · rw [hf', Prod.mk.injEq] at hf
    exact ⟨hf.1.symm, hfull⟩

/-- Changing the slots of one tracked job along with its counter. -/
theorem update (h : Accounted occ g) (hj : (g j).inUse = true) {e : JobEntry}
    (hu : e.inUse = true) (hid : e.jobId = (g j).jobId)
    (hcount : e.concurrentSlots.toNat = (slotsOf occ' (g j).jobId).card)
    (hothers : ∀ J, J ≠ (g j).jobId → (slotsOf occ' J).card = (slotsOf occ J).card)
    (hkeys : ∀ i k, occ' i = some k → k.jobId ≠ (g j).jobId → occ i = some k) :
    Accounted occ' (Function.update g j e) := by
  have hsame := jobOcc_update_of_same (g := g) (hu.trans hj.symm) hid
  refine ⟨h.jobsOk.update (hu.trans hj.symm) hid, fun a ha => ?_, fun i k hk => ?_⟩
  · by_cases haj : a = j
    · subst haj
      rw [Function.update_self, hid, hcount]
    · rw [Function.update_of_ne haj] at ha ⊢
      rw [h.count_eq a ha, hothers]
      exact fun hid' => haj (h.jobsOk.eq_of_jobId ha hj hid')
  · rw [hsame]
    by_cases hkj : k.jobId = (g j).jobId
    · exact .inl ⟨j, jobOcc_eq_some.mpr ⟨hj, hkj.symm⟩⟩
    · exact h.tracked i k (hkeys i k hk hkj)

/-- Refusing a slot. -/
theorem reject (h : Accounted occ g) (hj : (g j).inUse = true) :
    Accounted occ (Function.update g j (g j).reject) :=
  h.update hj hj rfl (h.count_eq j hj) (fun _ _ => rfl) fun _ _ hk _ => hk

/-- Opening a slot for a tracked job. -/
theorem acquire (h : Accounted occ g) (hj : (g j).inUse = true) {i : SlotIdx} (hi : occ i = none)
    {k : GradSlotKey} (hk : (g j).jobId = k.jobId) :
    Accounted (Function.update occ i (some k)) (Function.update g j (g j).acquire) := by
  refine h.update hj hj rfl ?_ (fun J hJ => ?_) fun i' k' hk' hne => ?_
  · have hcount := h.count_eq j hj
    have hle := card_slotsOf_le occ (g j).jobId
    rw [card_slotsOf_fill hi, if_pos hk.symm, ← hcount, acquire_concurrentSlots, BitVec.toNat_add]
    rw [← hcount] at hle
    show (_ + 1) % 4294967296 = _ + 1
    simp only [slotTableCapacity] at hle
    omega
  · rw [card_slotsOf_fill hi, if_neg (fun h => hJ (h.symm.trans hk.symm)), Nat.add_zero]
  · by_cases hii : i' = i
    · subst hii
      rw [Function.update_self, Option.some.injEq] at hk'
      exact absurd (hk' ▸ hk.symm) hne
    · rwa [Function.update_of_ne hii] at hk'

/-- Opening a slot for a job that a full table leaves untracked. -/
theorem acquire_untracked (h : Accounted occ g) {i : SlotIdx} (hi : occ i = none) {k : GradSlotKey}
    (hfull : ∀ a, jobOcc g a ≠ none ∧ jobOcc g a ≠ some k.jobId) :
    Accounted (Function.update occ i (some k)) g := by
  refine ⟨h.jobsOk, fun a ha => ?_, fun i' k' _ => .inr fun a => (hfull a).1⟩
  rw [h.count_eq a ha, card_slotsOf_fill hi, if_neg, Nat.add_zero]
  exact fun hk => (hfull a).2 (jobOcc_eq_some.mpr ⟨ha, hk.symm⟩)

/-- Freeing a slot. -/
theorem release (h : Accounted occ g) (hj : (g j).inUse = true) {i : SlotIdx} {k : GradSlotKey}
    (hi : occ i = some k) (hk : (g j).jobId = k.jobId) :
    Accounted (Function.update occ i none) (Function.update g j (g j).release) := by
  refine h.update hj (by rw [release_inUse, hj]) (release_jobId _) ?_ (fun J hJ => ?_)
    fun i' k' hk' _ => ?_
  · have hclear := card_slotsOf_clear hi (g j).jobId
    rw [if_pos hk.symm] at hclear
    rw [release_concurrentSlots, h.count_eq j hj]
    omega
  · have hclear := card_slotsOf_clear hi J
    rwa [if_neg (fun h => hJ (h.symm.trans hk.symm)), Nat.add_zero] at hclear
  · by_cases hii : i' = i
    · subst hii
      rw [Function.update_self] at hk'
      cases hk'
    · rwa [Function.update_of_ne hii] at hk'

theorem release_untracked (h : Accounted occ g) {i : SlotIdx} {k : GradSlotKey}
    (hi : occ i = some k) (hfull : ∀ a, jobOcc g a ≠ none ∧ jobOcc g a ≠ some k.jobId) :
    Accounted (Function.update occ i none) g := by
  refine ⟨h.jobsOk, fun a ha => ?_, fun i' k' _ => .inr fun a => (hfull a).1⟩
  have hclear := card_slotsOf_clear hi (g a).jobId
  rw [if_neg fun hk => (hfull a).2 (jobOcc_eq_some.mpr ⟨ha, hk.symm⟩)] at hclear
  rw [h.count_eq a ha]
  omega

end Accounted

/-! ## The invariant over tables, steps and runs -/

/-- The accounting invariant of the two tables. -/
def Tables.Accounted (t : Tables) : Prop := UserspaceAgg.Accounted t.occ t.gJobs

theorem Tables.accounted_zero : Tables.zero.Accounted := by
  refine UserspaceAgg.Accounted.mk jobsOk_zero (fun j hj => by cases hj) fun i k hk => ?_
  rw [occ_zero] at hk
  cases hk

theorem occ_freeSlot (t : Tables) (i : SlotIdx) :
    (freeSlot t i).occ = Function.update t.occ i none := by
  funext j
  rw [Tables.occ, freeSlot_gSlots]
  by_cases h : j = i
  · subst h
    rw [Function.update_self, Function.update_self]
    exact Slot.occupant_eq_none.mpr rfl
  · rw [Function.update_of_ne h, Function.update_of_ne h, Tables.occ]

theorem Tables.Accounted.freeSlot {t : Tables} (h : t.Accounted) {i : SlotIdx}
    (hi : (t.gSlots i).inUse = true) : (freeSlot t i).Accounted := by
  have hocc : t.occ i = some (t.gSlots i).key := Slot.occupant_eq_some.mpr ⟨hi, rfl⟩
  rw [Tables.Accounted, occ_freeSlot]
  unfold UserspaceAgg.freeSlot
  rcases hf : findOrCreateJob t.gJobs (t.gSlots i).jobId with ⟨g, _ | j⟩
  · obtain ⟨rfl, hfull⟩ := UserspaceAgg.Accounted.findOrCreateJob_none h hf
    exact UserspaceAgg.Accounted.release_untracked h hocc hfull
  · obtain ⟨hg, hj, hid⟩ := UserspaceAgg.Accounted.findOrCreateJob_some h hf
    exact hg.release hj hocc hid

/-- Freeing a slot in use releases its job's entry, if there is one, and adds none. -/
theorem Tables.Accounted.freeSlot_gJobs {t : Tables} (h : t.Accounted) {i : SlotIdx}
    (hi : (t.gSlots i).inUse = true) (j : JobIdx) :
    (UserspaceAgg.freeSlot t i).gJobs j
      = if jobOcc t.gJobs j = some (t.gSlots i).jobId then (t.gJobs j).release else t.gJobs j := by
  have hocc : t.occ i = some (t.gSlots i).key := Slot.occupant_eq_some.mpr ⟨hi, rfl⟩
  unfold UserspaceAgg.freeSlot
  rcases findOrCreateJob_cases h.jobsOk (t.gSlots i).jobId with
    ⟨j', hf, hu, hid⟩ | ⟨j', hf, hfree, habs, -⟩ | ⟨hf, hfull⟩
  · rw [hf]
    show Function.update t.gJobs j' (t.gJobs j').release j = _
    by_cases hj : j = j'
    · subst hj
      rw [Function.update_self, if_pos (jobOcc_eq_some.mpr ⟨hu, hid⟩)]
    · rw [Function.update_of_ne hj, if_neg]
      intro hsome
      obtain ⟨hu', hid'⟩ := jobOcc_eq_some.mp hsome
      exact hj (h.jobsOk.eq_of_jobId hu' hu (hid'.trans hid.symm))
  · -- the slot's job was neither tracked nor kept out
    rcases h.tracked i _ hocc with ⟨a, ha⟩ | hfull
    · exact absurd ha (habs a)
    · exact absurd (jobOcc_eq_none.mpr hfree) (hfull j')
  · rw [hf]
    show t.gJobs j = _
    rw [if_neg (hfull j).2]

/-- Counting a contribution in keeps the invariant: a slot it opens is accounted for. -/
theorem Accepts.accounted {q : ℤ} {ev : Event} {t : Tables} {d : Bytes} {i : SlotIdx} {s : Slot}
    {g : Jobs} (h : Accepts q ev t d i s g) (ht : t.Accounted) :
    Tables.Accounted ⟨Function.update t.gSlots i s, g⟩ := by
  rw [Tables.Accounted, occ_update, h.occupant.1]
  cases h with
  | joined hprobe hocc hlen hseen =>
    rw [← hocc, Function.update_eq_self]
    exact ht
  | opened hprobe hocc hjobs =>
    cases hjobs with
    | tracked hfind hquota =>
      obtain ⟨hg, hj, hid⟩ := UserspaceAgg.Accounted.findOrCreateJob_some ht hfind
      exact hg.acquire hj hocc hid
    | untracked hfind =>
      obtain ⟨rfl, hfull⟩ := UserspaceAgg.Accounted.findOrCreateJob_none ht hfind
      exact UserspaceAgg.Accounted.acquire_untracked ht hocc hfull

theorem Effect.accounted {q : ℤ} {ev : Event} {t t' : Tables} {v : Verdict}
    {slot : Option SlotIdx} {sent : Option Bytes} (h : Effect q ev t t' v slot sent)
    (ht : t.Accounted) : t'.Accounted := by
  cases h with
  | idle hrecv => exact ht
  | screened hrecv hscreen => exact ht
  | full hrecv hd hfull => exact ht
  | refused hrecv hd hprobe hocc hfind hquota =>
    obtain ⟨hg, hj, -⟩ := UserspaceAgg.Accounted.findOrCreateJob_some ht hfind
    exact hg.reject hj
  | mismatch hrecv hd hprobe hocc hlen => exact ht
  | duplicate hrecv hd hprobe hocc hlen hseen => exact ht
  | absorbed hrecv hd hacc hlt => exact hacc.accounted ht
  | complete hrecv hd hacc hge hsent =>
    refine (hacc.accounted ht).freeSlot ?_
    simp only [Function.update_self]
    exact (Slot.occupant_eq_some.mp hacc.occupant.1).1

theorem reapPhase_accounted (args : Args) {st : State} (h : st.tables.Accounted) (ev : Event) :
    (reapPhase args st ev).1.tables.Accounted :=
  reapPhase_induction Tables.Accounted (fun _ _ hi ht => ht.freeSlot hi) args h ev

theorem accounted_run {args : Args} {st : State} (hok : st.tables.Ok) (h : st.tables.Accounted)
    (es : List Event) :
    (runState (mainStep args) st es).tables.Ok
      ∧ (runState (mainStep args) st es).tables.Accounted :=
  runState_invariant_of_forall (fun st : State => st.tables.Ok ∧ st.tables.Accounted)
    (fun _ ev hst => ⟨mainStep_ok hst.1 ev,
      (mainStep_effect_of_ok args hst.1 ev).accounted (reapPhase_accounted args hst.2 ev)⟩)
    es ⟨hok, h⟩

/-- The invariants hold in every reachable state. -/
theorem accounted_init (args : Args) (inPacket outPacket : Buffer) (now : ℤ) (es : List Event) :
    (runState (mainStep args) (State.init inPacket outPacket now) es).tables.Ok
      ∧ (runState (mainStep args) (State.init inPacket outPacket now) es).tables.Accounted :=
  accounted_run (State.init_ok inPacket outPacket now) Tables.accounted_zero es

/-! ## What the quota admits -/

/-- The job has an entry, or there is a free one for it. -/
def JobFits (g : Jobs) (jobId : BitVec 32) : Prop :=
  ∃ j, jobOcc g j = none ∨ jobOcc g j = some jobId

/-- The condition under which the quota rule admits a new slot of the job exactly when the job
has less than `q` slots: there is no quota; or the job fits into the job table, and either the
quota fits into 32 bits or its low 32 bits are above the job's slots; or the job does not fit,
and has less than `q` slots. -/
def QuotaExact (q : ℤ) (t : Tables) (jobId : BitVec 32) : Prop :=
  q ≤ 0
    ∨ JobFits t.gJobs jobId ∧ (q < 2 ^ 32 ∨ ((slotsOf t.occ jobId).card : ℤ) < q % 2 ^ 32)
    ∨ ¬ JobFits t.gJobs jobId ∧ ((slotsOf t.occ jobId).card : ℤ) < q

/-- The datagram was admitted. -/
def Verdict.Admitted (v : Verdict) : Prop := v = .absorbed ∨ v = .complete

instance (v : Verdict) : Decidable v.Admitted :=
  inferInstanceAs (Decidable (v = .absorbed ∨ v = .complete))

/-- What the rule does: it admits a new slot of the job if there is no quota, the job does not
fit into the job table, or the job has less slots than the quota's low 32 bits. -/
def QuotaAdmits (q : ℤ) (t : Tables) (jobId : BitVec 32) : Prop :=
  q ≤ 0 ∨ ¬ JobFits t.gJobs jobId ∨ ((slotsOf t.occ jobId).card : ℤ) < q % 2 ^ 32

theorem jobFits_iff {occ : SlotIdx → Option GradSlotKey} {g : Jobs} (h : Accounted occ g)
    (jobId : BitVec 32) : JobFits g jobId ↔ ∃ g' j, findOrCreateJob g jobId = (g', some j) := by
  rcases findOrCreateJob_cases h.jobsOk jobId with
    ⟨j, hf, hu, hid⟩ | ⟨j, hf, hfree, -⟩ | ⟨hf, hfull⟩
  · exact iff_of_true ⟨j, .inr (jobOcc_eq_some.mpr ⟨hu, hid⟩)⟩ ⟨g, j, hf⟩
  · exact iff_of_true ⟨j, .inl (jobOcc_eq_none.mpr hfree)⟩ ⟨_, j, hf⟩
  · refine iff_of_false ?_ ?_
    · rintro ⟨j, hj | hj⟩
      · exact (hfull j).1 hj
      · exact (hfull j).2 hj
    · rintro ⟨g', j, hf'⟩
      rw [hf] at hf'
      cases hf'

/-- The comparison of the counter with the cast quota. -/
theorem overQuota_iff {occ : SlotIdx → Option GradSlotKey} {g : Jobs} (h : Accounted occ g)
    {j : JobIdx} (hj : (g j).inUse = true) (q : ℤ) :
    OverQuota q (g j) ↔ 0 < q ∧ q % 2 ^ 32 ≤ ((slotsOf occ (g j).jobId).card : ℤ) := by
  rw [OverQuota, ge_iff_le, BitVec.le_def, h.count_eq j hj, BitVec.toNat_ofInt]
  have hpos : 0 ≤ q % 2 ^ 32 := Int.emod_nonneg q (by decide)
  show 0 < q ∧ (q % 2 ^ 32).toNat ≤ _ ↔ _
  omega

/-- The search for the key stops at a free entry: a slot is about to be opened there. -/
def Tables.NeedsSlot (t : Tables) (k : GradSlotKey) : Prop :=
  ∃ i, probe (slotSeq k) (stopAt t.occ k) = some i ∧ t.occ i = none

/-- What is admitted, of the datagrams that need a new slot. -/
theorem Effect.admitted_iff {q : ℤ} {ev : Event} {t t' : Tables} {v : Verdict}
    {slot : Option SlotIdx} {sent : Option Bytes} (h : Effect q ev t t' v slot sent)
    (ht : t.Accounted) {d : Bytes} (hrecv : ev.received = some d) (hd : WellFormed d)
    (hneeds : t.NeedsSlot (GradHdr.decode d).key) :
    v.Admitted ↔ QuotaAdmits q t (GradHdr.decode d).jobId := by
  obtain ⟨i₀, hprobe₀, hfree⟩ := hneeds
  have hstop : ∀ {i}, probe (slotSeq (GradHdr.decode d).key)
      (stopAt t.occ (GradHdr.decode d).key) = some i → t.occ i ≠ some (GradHdr.decode d).key := by
    intro i hprobe hocc
    obtain rfl := Option.some.inj (hprobe₀.symm.trans hprobe)
    rw [hfree] at hocc
    cases hocc
  -- an accepted datagram opened a slot, which the rule allowed
  have haccept : ∀ {i s g}, Accepts q ev t d i s g →
      QuotaAdmits q t (GradHdr.decode d).jobId := by
    intro i s g hacc
    cases hacc with
    | joined hprobe hocc hlen hseen => exact absurd hocc (hstop hprobe)
    | opened hprobe hocc hjobs =>
      cases hjobs with
      | tracked hfind hquota =>
        obtain ⟨hg, hj, hid⟩ := ht.findOrCreateJob_some hfind
        rw [overQuota_iff hg hj, hid] at hquota
        unfold QuotaAdmits
        omega
      | untracked hfind =>
        obtain ⟨-, hfull⟩ := ht.findOrCreateJob_none hfind
        refine .inr (.inl ?_)
        rintro ⟨j, hj | hj⟩
        · exact (hfull j).1 hj
        · exact (hfull j).2 hj
  cases h with
  | idle hr => rw [hrecv] at hr; cases hr
  | screened hr hscreen =>
    rw [received_unique hrecv hr, screen_of_wellFormed hd] at hscreen
    cases hscreen
  | full hr hd' hfull =>
    exact absurd hfree (hfull i₀).1
  | refused hr hd' hprobe hocc hfind hquota =>
    obtain rfl := received_unique hrecv hr
    obtain ⟨hg, hj, hid⟩ := ht.findOrCreateJob_some hfind
    have hfits := (jobFits_iff ht (GradHdr.decode _).jobId).mpr ⟨_, _, hfind⟩
    rw [overQuota_iff hg hj, hid] at hquota
    refine iff_of_false (by rintro (h | h) <;> cases h) ?_
    rintro (h | h | h)
    · omega
    · exact h hfits
    · omega
  | mismatch hr hd' hprobe hocc hlen =>
    obtain rfl := received_unique hrecv hr
    exact absurd hocc (hstop hprobe)
  | duplicate hr hd' hprobe hocc hlen hseen =>
    obtain rfl := received_unique hrecv hr
    exact absurd hocc (hstop hprobe)
  | absorbed hr hd' hacc hlt =>
    obtain rfl := received_unique hrecv hr
    exact iff_of_true (.inl rfl) (haccept hacc)
  | complete hr hd' hacc hge hsent =>
    obtain rfl := received_unique hrecv hr
    exact iff_of_true (.inr rfl) (haccept hacc)

/-- The rule is the quota exactly under the condition. -/
theorem admitted_exact_iff {q : ℤ} {t : Tables} {jobId : BitVec 32} {A : Prop}
    (h : A ↔ QuotaAdmits q t jobId) :
    (A ↔ q ≤ 0 ∨ ((slotsOf t.occ jobId).card : ℤ) < q) ↔ QuotaExact q t jobId := by
  have hle := card_slotsOf_le t.occ jobId
  have hmod : 0 ≤ q → q < 2 ^ 32 → q % 2 ^ 32 = q := Int.emod_eq_of_lt
  simp only [slotTableCapacity] at hle
  rw [h, QuotaAdmits, QuotaExact]
  by_cases hfits : JobFits t.gJobs jobId
  · simp only [hfits, not_true_eq_false, false_or, true_and, false_and, or_false]
    omega
  · simp only [hfits, not_false_eq_true, true_or, or_true, false_and, true_and, false_or,
      true_iff]

/-! ## The bound -/

/-- No job has more than `q` slots. -/
def Tables.Within (q : ℤ) (t : Tables) : Prop := ∀ jobId, ((slotsOf t.occ jobId).card : ℤ) ≤ q

theorem Tables.Within.freeSlot {q : ℤ} {t : Tables} (h : t.Within q) {i : SlotIdx}
    (hi : (t.gSlots i).inUse = true) : (freeSlot t i).Within q := by
  intro jobId
  have hocc : t.occ i = some (t.gSlots i).key := Slot.occupant_eq_some.mpr ⟨hi, rfl⟩
  have hclear := card_slotsOf_clear hocc jobId
  have := h jobId
  rw [occ_freeSlot]
  omega

/-- Counting a contribution in keeps the bound if the job is below it when a slot is opened. -/
theorem Accepts.bounded {q : ℤ} {ev : Event} {t : Tables} {d : Bytes} {i : SlotIdx} {s : Slot}
    {g : Jobs} (h : Accepts q ev t d i s g) (ht : t.Within q)
    (hlt : t.NeedsSlot (GradHdr.decode d).key →
      ((slotsOf t.occ (GradHdr.decode d).jobId).card : ℤ) < q) :
    Tables.Within q ⟨Function.update t.gSlots i s, g⟩ := by
  intro jobId
  rw [occ_update, h.occupant.1]
  have := ht jobId
  cases h with
  | joined hprobe hocc hlen hseen => rwa [← hocc, Function.update_eq_self]
  | opened hprobe hocc hjobs =>
    rw [card_slotsOf_fill hocc]
    by_cases hj : (GradHdr.decode d).key.jobId = jobId
    · have hlt := hlt ⟨i, hprobe, hocc⟩
      rw [show (GradHdr.decode d).jobId = jobId from hj] at hlt
      rw [if_pos hj]
      push_cast
      omega
    · rwa [if_neg hj, Nat.add_zero]

theorem Effect.within {q : ℤ} {ev : Event} {t t' : Tables} {v : Verdict} {slot : Option SlotIdx}
    {sent : Option Bytes} (h : Effect q ev t t' v slot sent) (ht : t.Within q)
    (hlt : ∀ d, ev.received = some d → WellFormed d → v.Admitted →
      t.NeedsSlot (GradHdr.decode d).key →
      ((slotsOf t.occ (GradHdr.decode d).jobId).card : ℤ) < q) : t'.Within q := by
  cases h with
  | idle hrecv => exact ht
  | screened hrecv hscreen => exact ht
  | full hrecv hd hfull => exact ht
  | refused hrecv hd hprobe hocc hfind hquota => exact ht
  | mismatch hrecv hd hprobe hocc hlen => exact ht
  | duplicate hrecv hd hprobe hocc hlen hseen => exact ht
  | absorbed hrecv hd hacc hcount => exact hacc.bounded ht (hlt _ hrecv hd (.inl rfl))
  | complete hrecv hd hacc hge hsent =>
    refine (hacc.bounded ht (hlt _ hrecv hd (.inr rfl))).freeSlot ?_
    simp only [Function.update_self]
    exact (Slot.occupant_eq_some.mp hacc.occupant.1).1

/-- Every slot about to be opened is opened under the condition. -/
def OpensExactly (args : Args) (st : State) (ev : Event) : Prop :=
  ∀ d, ev.received = some d → WellFormed d →
    (reapPhase args st ev).1.tables.NeedsSlot (GradHdr.decode d).key →
    QuotaExact args.gJobQuota (reapPhase args st ev).1.tables (GradHdr.decode d).jobId

theorem mainStep_within {args : Args} {st : State} {ev : Event} (hok : st.tables.Ok)
    (hacct : st.tables.Accounted) (hq : 0 < args.gJobQuota) (hexact : OpensExactly args st ev)
    (h : st.tables.Within args.gJobQuota) :
    (mainStep args st ev).1.tables.Within args.gJobQuota := by
  have hreap : (reapPhase args st ev).1.tables.Within args.gJobQuota :=
    reapPhase_induction (Tables.Within args.gJobQuota) (fun _ _ hi ht => ht.freeSlot hi) args h ev
  have heff := mainStep_effect_of_ok args hok ev
  have hacct' := reapPhase_accounted args hacct ev
  refine heff.within hreap fun d hrecv hd hadm hneeds => ?_
  -- an admitted job was below the quota
  have hiff := (admitted_exact_iff (heff.admitted_iff hacct' hrecv hd hneeds)).mpr
    (hexact d hrecv hd hneeds)
  exact (hiff.mp hadm).resolve_left (by omega)

/-- **The quota.** In every reachable state, a well-formed datagram whose key has no slot, while
there is room for one, is admitted exactly when its job has less than `q` slots (or `q ≤ 0`), if
and only if `QuotaExact` holds. And in a run whose openings all meet it, no job ever has more
than `q` slots. -/
theorem quota_exact_iff (args : Args) (inPacket outPacket : Buffer) (now : ℤ)
    (es : List Event) :
    let st := stateAt (mainStep args) (State.init inPacket outPacket now) es
    (∀ T ev d, es[T]? = some ev → ev.received = some d → WellFormed d →
      let t := (reapPhase args (st T) ev).1.tables
      (∀ i, t.occ i ≠ some (GradHdr.decode d).key) → t.HasRoom →
        (((mainStep args (st T) ev).2.verdict.Admitted
            ↔ args.gJobQuota ≤ 0
              ∨ ((slotsOf t.occ (GradHdr.decode d).jobId).card : ℤ) < args.gJobQuota)
          ↔ QuotaExact args.gJobQuota t (GradHdr.decode d).jobId))
    ∧ (0 < args.gJobQuota →
      StepsMeet (mainStep args) (OpensExactly args) (State.init inPacket outPacket now) es →
      ∀ T jobId, ((slotsOf (st T).tables.occ jobId).card : ℤ) ≤ args.gJobQuota) := by
  have hok := State.init_ok inPacket outPacket now
  have hacct : (State.init inPacket outPacket now).tables.Accounted := Tables.accounted_zero
  refine ⟨fun T ev d he hrecv hd habs hroom => ?_, fun hq hmeet T => ?_⟩
  · have hst := ok_stateAt args hok es T
    have heff := mainStep_effect_of_ok args hst ev
    exact admitted_exact_iff (heff.admitted_iff
      (reapPhase_accounted args (accounted_run hok hacct (es.take T)).2 ev) hrecv hd
      (probe_of_absent (covers_slotSeq _) habs hroom))
  · have hzero : (State.init inPacket outPacket now).tables.Within args.gJobQuota := by
      intro jobId
      rw [State.init, slotsOf_zero]
      exact hq.le
    exact (runState_invariant (fun st : State => st.tables.Ok ∧ st.tables.Accounted
      ∧ st.tables.Within args.gJobQuota)
      (fun st ev hexact hst => ⟨mainStep_ok hst.1 ev,
        (mainStep_effect_of_ok args hst.1 ev).accounted (reapPhase_accounted args hst.2.1 ev),
        mainStep_within hst.1 hst.2.1 hq hexact hst.2.2⟩) ⟨hok, hacct, hzero⟩ (hmeet.take T)).2.2

/-- With quota 2 the first datagram meets the condition. -/
theorem quota_two_exact :
    let args : Args := ⟨2, 0⟩
    let st := State.init Buffer.zero Buffer.zero 0
    let d := workerPacket ⟨1, 0, 0, 0, 2, 1, 0⟩ fun _ => 5
    (((mainStep args st (.deliver d)).2.verdict.Admitted
        ↔ args.gJobQuota ≤ 0
          ∨ ((slotsOf Tables.zero.occ (GradHdr.decode d).jobId).card : ℤ) < args.gJobQuota)
      ↔ QuotaExact args.gJobQuota Tables.zero (GradHdr.decode d).jobId)
    ∧ ∀ T jobId, ((slotsOf (stateAt (mainStep args) st [.deliver d] T).tables.occ jobId).card : ℤ)
      ≤ args.gJobQuota := by
  intro args st d
  obtain ⟨h₁, h₂⟩ := quota_exact_iff args Buffer.zero Buffer.zero 0 [.deliver d]
  have habs : ∀ i, Tables.zero.occ i ≠ some (GradHdr.decode d).key := fun i => by simp
  refine ⟨h₁ 0 (.deliver d) d rfl rfl (by decide +kernel) habs ⟨0, occ_zero 0⟩,
    h₂ (by decide) ⟨fun d' _ _ _ => ?_, trivial⟩⟩
  exact .inr (.inl ⟨⟨0, .inl rfl⟩, .inl (by decide)⟩)

/-- With quota `2 ^ 32` the first datagram of all is refused. -/
theorem wideQuota_refuses :
    let args : Args := ⟨2 ^ 32, 0⟩
    let st := State.init Buffer.zero Buffer.zero 0
    let d := workerPacket ⟨1, 0, 0, 0, 2, 1, 0⟩ fun _ => 5
    let t := (reapPhase args st (.deliver d)).1.tables
    WellFormed d ∧ (∀ i, t.occ i ≠ some (GradHdr.decode d).key) ∧ t.HasRoom
      ∧ ((slotsOf t.occ (GradHdr.decode d).jobId).card : ℤ) < args.gJobQuota
      ∧ ¬ (mainStep args st (.deliver d)).2.verdict.Admitted := by
  intro args st d t
  have ht : t = Tables.zero := rfl
  have hv : (mainStep args st (.deliver d)).2.verdict = .admissionReject := by decide +kernel
  rw [ht, hv]
  refine ⟨by decide +kernel, fun i => by simp, ⟨0, occ_zero 0⟩, by simp [args], ?_⟩
  rintro (h | h) <;> cases h

end NetSum.UserspaceAgg
