import NetSum.UserspaceAgg.QuotaTheorems

/-!
# Rejection is atomic

`find_or_create_slot` may create a slot and charge the job before the mismatch and the duplicate
check have run. No datagram is dropped between the two, because a slot that was just created has
no contributions and no marks. So an iteration either counts its datagram into one slot and
changes at most the entry of its own job, or it changes no slot, and no job's entry but for one
more rejection of its own job (`rejection_atomic`).
-/

namespace NetSum.UserspaceAgg

open NetSum.Lib NetSum.Protocol NetSum.Aggregation

/-! ## Changes to the job table -/

/-- Every entry that changes is the job's afterwards, and was the job's or free. -/
def OwnJobOnly (jobId : BitVec 32) (g g' : Jobs) : Prop :=
  ∀ j, g' j ≠ g j → jobOcc g' j = some jobId ∧ (jobOcc g j = some jobId ∨ jobOcc g j = none)

/-- The job table after a slot was refused to a job over its quota: one more rejection in the job's
entry, which is made with zero counts if the job has none. -/
inductive Refuses (gJobQuota : ℤ) (jobId : BitVec 32) (g : Jobs) : Jobs → Prop
  | existing {j} (hj : jobOcc g j = some jobId) (hquota : OverQuota gJobQuota (g j)) :
    Refuses gJobQuota jobId g (Function.update g j (g j).reject)
  | created {j} (hfree : jobOcc g j = none) (habs : ∀ j', jobOcc g j' ≠ some jobId)
    (hquota : OverQuota gJobQuota (JobEntry.fresh jobId)) :
    Refuses gJobQuota jobId g (Function.update g j (JobEntry.fresh jobId).reject)

section

variable {q : ℤ} {jobId : BitVec 32} {g g' g'' : Jobs} {j : JobIdx}

theorem OwnJobOnly.refl (jobId : BitVec 32) (g : Jobs) : OwnJobOnly jobId g g :=
  fun _ h => absurd rfl h

theorem OwnJobOnly.trans (h : OwnJobOnly jobId g g') (h' : OwnJobOnly jobId g' g'') :
    OwnJobOnly jobId g g'' := by
  intro j hne
  by_cases hsecond : g'' j = g' j
  · obtain ⟨h1, h2⟩ := h j (hsecond ▸ hne)
    refine ⟨?_, h2⟩
    rw [jobOcc, hsecond]
    exact h1
  · obtain ⟨h1, h2⟩ := h' j hsecond
    refine ⟨h1, ?_⟩
    by_cases hfirst : g' j = g j
    · rwa [jobOcc, hfirst] at h2
    · exact (h j hfirst).2

/-- One entry is rewritten, and stays or becomes the job's. -/
theorem OwnJobOnly.update {e : JobEntry} (he : e.inUse = true ∧ e.jobId = jobId)
    (hj : jobOcc g j = some jobId ∨ jobOcc g j = none) :
    OwnJobOnly jobId g (Function.update g j e) := by
  intro a hne
  by_cases ha : a = j
  · subst ha
    exact ⟨jobOcc_eq_some.mpr (by rwa [Function.update_self]), hj⟩
  · exact absurd (Function.update_of_ne ha ..) hne

theorem OwnJobOnly.findOrCreateJob (hg : JobsOk g) (hf : findOrCreateJob g jobId = (g', some j)) :
    OwnJobOnly jobId g g' ∧ jobOcc g' j = some jobId := by
  rcases findOrCreateJob_eq_some hg hf with ⟨rfl, hj⟩ | ⟨rfl, hfree, -, -⟩
  · exact ⟨.refl _ _, hj⟩
  · refine ⟨.update ⟨rfl, rfl⟩ (.inr hfree), jobOcc_eq_some.mpr ?_⟩
    rw [Function.update_self]
    exact ⟨rfl, rfl⟩

/-- A refusal leaves every counter but the job's rejections. -/
theorem refuses_of_findOrCreateJob (hg : JobsOk g)
    (hf : UserspaceAgg.findOrCreateJob g jobId = (g', some j)) (hquota : OverQuota q (g' j)) :
    Refuses q jobId g (Function.update g' j (g' j).reject) := by
  rcases findOrCreateJob_eq_some hg hf with ⟨rfl, hj⟩ | ⟨rfl, hfree, habs, -⟩
  · exact .existing hj hquota
  · rw [Function.update_self] at hquota ⊢
    rw [Function.update_idem]
    exact .created hfree habs hquota

theorem OwnJobOnly.freeSlot {t : Tables} (h : t.Accounted) {i : SlotIdx}
    (hi : (t.gSlots i).inUse = true) :
    OwnJobOnly (t.gSlots i).jobId t.gJobs (freeSlot t i).gJobs := by
  intro j hne
  have hentry := h.freeSlot_gJobs hi j
  by_cases hj : jobOcc t.gJobs j = some (t.gSlots i).jobId
  · rw [if_pos hj] at hentry
    have hkeep := jobOcc_eq_some.mp hj
    refine ⟨jobOcc_eq_some.mpr ?_, .inl hj⟩
    rw [hentry, release_inUse, release_jobId]
    exact hkeep
  · rw [if_neg hj] at hentry
    exact absurd hentry hne

theorem Accepts.ownJobOnly {ev : Event} {t : Tables} {d : Bytes} {i : SlotIdx} {s : Slot}
    (h : Accepts q ev t d i s g) (ht : t.Accounted) :
    OwnJobOnly (GradHdr.decode d).jobId t.gJobs g := by
  cases h with
  | joined hprobe hocc hlen hseen => exact .refl _ _
  | opened hprobe hocc hjobs =>
    cases hjobs with
    | tracked hfind hquota =>
      obtain ⟨hfound, hj⟩ := OwnJobOnly.findOrCreateJob ht.jobsOk hfind
      refine hfound.trans (.update ?_ (.inl hj))
      exact jobOcc_eq_some.mp hj
    | untracked hfind =>
      obtain ⟨rfl, -⟩ := UserspaceAgg.Accounted.findOrCreateJob_none ht hfind
      exact .refl _ _

end

/-! ## The two outcomes -/

/-- The iteration counted its datagram `d`: into one slot entry, found in use for the key or
created for it, which holds one contribution more and is freed if that completed it. -/
structure CountsOne (ev : Event) (d : Bytes) (t t' : Tables) (o : Output) : Prop where
  slots : ∃ i s, o.slot = some i
    ∧ (t.occ i = some (GradHdr.decode d).key ∧ s = t.gSlots i
      ∨ t.occ i = none
        ∧ s = (Slot.fresh (GradHdr.decode d).key).latch (GradHdr.decode d) ev.nowFirstSeen)
    ∧ t'.gSlots = Function.update t.gSlots i
      { s.accumulate (GradHdr.decode d) (valueAt d) ev.nowTouched with
        inUse := decide (o.verdict = .absorbed) }
  jobs : OwnJobOnly (GradHdr.decode d).jobId t.gJobs t'.gJobs

/-- The iteration dropped its datagram `d`: no slot entry is touched and nothing is sent, and the
job table is as it was unless the quota refused the datagram a slot. -/
structure LeavesAlone (gJobQuota : ℤ) (d : Bytes) (t t' : Tables) (o : Output) : Prop where
  slots : t'.gSlots = t.gSlots
  sent : o.sent = none
  jobs : t'.gJobs = t.gJobs ∨ o.verdict = .admissionReject
    ∧ Refuses gJobQuota (GradHdr.decode d).jobId t.gJobs t'.gJobs

/-- A refusal changes no count of slots and no count of admissions. -/
theorem Refuses.counts {q : ℤ} {jobId : BitVec 32} {g g' : Jobs} (h : Refuses q jobId g g')
    (j : JobIdx) (hj : (g j).inUse = true) :
    (g' j).inUse = true ∧ (g' j).jobId = (g j).jobId
      ∧ (g' j).concurrentSlots = (g j).concurrentSlots
      ∧ (g' j).admittedCount = (g j).admittedCount := by
  cases h with
  | @existing a ha hquota =>
    by_cases hja : j = a
    · subst hja
      rw [Function.update_self]
      exact ⟨hj, rfl, rfl, rfl⟩
    · rw [Function.update_of_ne hja]
      exact ⟨hj, rfl, rfl, rfl⟩
  | @created a hfree habs hquota =>
    have hja : j ≠ a := by
      rintro rfl
      rw [jobOcc_eq_none, hj] at hfree
      cases hfree
    rw [Function.update_of_ne hja]
    exact ⟨hj, rfl, rfl, rfl⟩

section

variable {q : ℤ} {ev : Event} {t t' : Tables} {v : Verdict} {slot : Option SlotIdx}
  {sent : Option Bytes} {d : Bytes} {i : SlotIdx} {s : Slot} {g : Jobs}

/-- The slot that a datagram was counted into, before and after. -/
theorem Accepts.slot_eq (h : Accepts q ev t d i s g) :
    ∃ s₀ : Slot, (t.occ i = some (GradHdr.decode d).key ∧ s₀ = t.gSlots i
        ∨ t.occ i = none
          ∧ s₀ = (Slot.fresh (GradHdr.decode d).key).latch (GradHdr.decode d) ev.nowFirstSeen)
      ∧ s = s₀.accumulate (GradHdr.decode d) (valueAt d) ev.nowTouched := by
  cases h with
  | joined hprobe hocc hlen hseen => exact ⟨_, .inl ⟨hocc, rfl⟩, rfl⟩
  | opened hprobe hocc hjobs => exact ⟨_, .inr ⟨hocc, rfl⟩, rfl⟩

theorem Effect.atomic (h : Effect q ev t t' v slot sent) (ht : t.Accounted)
    (hrecv : ev.received = some d) (reaped : List SlotIdx) :
    (v.Admitted → CountsOne ev d t t' ⟨reaped, v, slot, sent⟩)
      ∧ (¬ v.Admitted → LeavesAlone q d t t' ⟨reaped, v, slot, sent⟩) := by
  have hsame : ∀ {v : Verdict} {slot : Option SlotIdx}, ¬ v.Admitted →
      (v.Admitted → CountsOne ev d t t ⟨reaped, v, slot, none⟩)
        ∧ (¬ v.Admitted → LeavesAlone q d t t ⟨reaped, v, slot, none⟩) := fun hv =>
    ⟨fun hadm => absurd hadm hv, fun _ => ⟨rfl, rfl, .inl rfl⟩⟩
  cases h with
  | idle hr => exact hsame (by decide)
  | @screened d' v hr hscreen =>
    refine hsame ?_
    rcases screen_verdict hscreen with rfl | rfl | rfl | rfl | rfl <;> decide
  | full hr hd hfull => exact hsame (by decide)
  | refused hr hd hprobe hocc hfind hquota =>
    obtain rfl := received_unique hrecv hr
    exact ⟨fun hadm => absurd hadm (by decide),
      fun _ => ⟨rfl, rfl, .inr ⟨rfl, refuses_of_findOrCreateJob ht.jobsOk hfind hquota⟩⟩⟩
  | mismatch hr hd hprobe hocc hlen => exact hsame (by decide)
  | duplicate hr hd hprobe hocc hlen hseen => exact hsame (by decide)
  | @absorbed d' i s g hr hd hacc hlt =>
    obtain rfl := received_unique hrecv hr
    refine ⟨fun _ => ⟨?_, hacc.ownJobOnly ht⟩, fun hno => absurd (.inl rfl) hno⟩
    obtain ⟨s₀, hs₀, hs⟩ := hacc.slot_eq
    refine ⟨i, s₀, rfl, hs₀, ?_⟩
    have hinUse := (Slot.occupant_eq_some.mp hacc.occupant.1).1
    rw [← hs]
    show Function.update t.gSlots i s = Function.update t.gSlots i { s with inUse := true }
    rw [← hinUse]
  | @complete d' i s g p hr hd hacc hge hsent =>
    obtain rfl := received_unique hrecv hr
    obtain ⟨hinUse, hkey⟩ := Slot.occupant_eq_some.mp hacc.occupant.1
    refine ⟨fun _ => ⟨?_, ?_⟩, fun hno => absurd (.inr rfl) hno⟩
    · obtain ⟨s₀, hs₀, hs⟩ := hacc.slot_eq
      refine ⟨i, s₀, rfl, hs₀, ?_⟩
      rw [← hs, freeSlot_update_gSlots]
      rfl
    · -- charged for the slot, if it was created, and released at once
      have hself : Function.update t.gSlots i s i = s := Function.update_self ..
      have hfree := OwnJobOnly.freeSlot (hacc.accounted ht) (hself.symm ▸ hinUse)
      have hjob : (Function.update t.gSlots i s i).jobId = (GradHdr.decode d').jobId := by
        rw [hself]
        exact congrArg GradSlotKey.jobId hkey
      dsimp only at hfree
      rw [hjob] at hfree
      exact (hacc.ownJobOnly ht).trans hfree

end

/-- **Rejection is atomic.** In every reachable state, what an iteration does after its reaper
phase is to count its datagram into one slot entry, touching the entry of no other job, or to
leave every slot entry and every job's counts of slots and admissions alone. -/
theorem rejection_atomic (args : Args) (inPacket outPacket : Buffer) (now : ℤ) (es : List Event)
    (ev : Event) {d : Bytes} (hrecv : ev.received = some d) :
    let st := runState (mainStep args) (State.init inPacket outPacket now) es
    let t := (reapPhase args st ev).1.tables
    let t' := (mainStep args st ev).1.tables
    let o := (mainStep args st ev).2
    (o.verdict.Admitted ∧ CountsOne ev d t t' o)
      ∨ (¬ o.verdict.Admitted ∧ LeavesAlone args.gJobQuota d t t' o
        ∧ ∀ j, (t.gJobs j).inUse = true → (t'.gJobs j).inUse = true
          ∧ (t'.gJobs j).jobId = (t.gJobs j).jobId
          ∧ (t'.gJobs j).concurrentSlots = (t.gJobs j).concurrentSlots
          ∧ (t'.gJobs j).admittedCount = (t.gJobs j).admittedCount) := by
  intro st t t' o
  obtain ⟨hok, hacct⟩ : st.tables.Ok ∧ st.tables.Accounted :=
    accounted_init args inPacket outPacket now es
  -- the effect of an iteration is on the tables that its reaper phase leaves
  have heff := mainStep_effect_of_ok args hok ev
  obtain ⟨hcounts, hleaves⟩ := heff.atomic (reapPhase_accounted args hacct ev) hrecv o.reaped
  by_cases hadm : o.verdict.Admitted
  · exact .inl ⟨hadm, hcounts hadm⟩
  · have hleave := hleaves hadm
    refine .inr ⟨hadm, hleave, fun j hj => ?_⟩
    rcases hleave.jobs with hsame | ⟨-, hrefuses⟩
    · rw [hsame]
      exact ⟨hj, rfl, rfl, rfl⟩
    · exact hrefuses.counts j hj

/-- With a quota of one, the second slot of the job is refused. -/
theorem rejection_atomic_second_slot :
    let args : Args := ⟨1, 0⟩
    let first := workerPacket ⟨1, 0, 0, 0, 2, 1, 0⟩ fun _ => 5
    let second := workerPacket ⟨1, 0, 1, 0, 2, 1, 0⟩ fun _ => 5
    let st := runState (mainStep args) (State.init Buffer.zero Buffer.zero 0) [.deliver first]
    let t := (reapPhase args st (.deliver second)).1.tables
    let r := mainStep args st (.deliver second)
    r.2.verdict = .admissionReject ∧ LeavesAlone 1 second t r.1.tables r.2 := by
  intro args first second st t r
  have hv : r.2.verdict = .admissionReject := by decide +kernel
  refine ⟨hv, ?_⟩
  rcases rejection_atomic args Buffer.zero Buffer.zero 0 [.deliver first] (.deliver second) rfl
    with ⟨hadm, -⟩ | ⟨-, hleave, -⟩
  · exact absurd (show Verdict.Admitted .admissionReject from hv ▸ hadm) (by decide)
  · exact hleave

end NetSum.UserspaceAgg
