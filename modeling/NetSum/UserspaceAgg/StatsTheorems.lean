import Mathlib.Algebra.Group.Pi.Basic
import NetSum.Lib.Conservation
import NetSum.UserspaceAgg.ContentionTheorems
import NetSum.UserspaceAgg.StarvationTheorems

/-!
# What the counters of a job count

`admitted_count` and `rejected_count` belong to an entry of the job table, which is made when the
job first asks for a slot. In runs of at most 256 jobs it is never lost or taken by another, so the
counters count what was asked from the start of the run on, modulo `2 ^ 32` (`counters_true`).
-/

namespace NetSum.UserspaceAgg

open NetSum.Lib NetSum.Protocol NetSum.Aggregation

/-! ## What is asked -/

/-- A datagram of the job needs a slot, and is answered by a verdict that satisfies `P`. -/
def Tables.Answers (P : Verdict → Prop) (t : Tables) (ev : Event) (v : Verdict)
    (jobId : BitVec 32) : Prop :=
  ∃ d, ev.received = some d ∧ (GradHdr.decode d).jobId = jobId
    ∧ t.NeedsSlot (GradHdr.decode d).key ∧ P v

open Classical in
/-- How often that was so, by jobs. -/
noncomputable def Tables.answered (P : Verdict → Prop) (t : Tables) (ev : Event) (v : Verdict) :
    BitVec 32 → ℕ :=
  fun jobId => if t.Answers P ev v jobId then 1 else 0

/-- Slots opened. -/
noncomputable abbrev Tables.opened : Tables → Event → Verdict → BitVec 32 → ℕ :=
  Tables.answered Verdict.Admitted

/-- Slots refused. -/
noncomputable abbrev Tables.refused : Tables → Event → Verdict → BitVec 32 → ℕ :=
  Tables.answered fun v => v = .admissionReject

/-! ## The job table -/

/-- A job that was admitted or refused a slot has an entry that counts how often, and no other job
has one. -/
structure Recorded (admitted refused : BitVec 32 → ℕ) (g : Jobs) : Prop where
  admitted_eq : ∀ j jobId, jobOcc g j = some jobId →
    (g j).admittedCount = BitVec.ofNat 32 (admitted jobId)
  rejected_eq : ∀ j jobId, jobOcc g j = some jobId →
    (g j).rejectedCount = BitVec.ofNat 32 (refused jobId)
  tracked_iff : ∀ jobId, (∃ j, jobOcc g j = some jobId) ↔ 0 < admitted jobId + refused jobId

section

variable {admitted refused : BitVec 32 → ℕ} {g g' : Jobs} {j : JobIdx} {e : JobEntry}
  {jobId : BitVec 32} {m n : ℕ}

theorem recorded_zero : Recorded 0 0 Tables.zero.gJobs := by
  have hfree : ∀ j jobId, jobOcc Tables.zero.gJobs j ≠ some jobId := by
    intro j jobId hj
    cases (jobOcc_eq_some.mp hj).1
  refine ⟨fun j jobId hj => absurd hj (hfree j jobId), fun j jobId hj => absurd hj (hfree j jobId),
    fun jobId => iff_of_false ?_ (lt_irrefl 0)⟩
  rintro ⟨j, hj⟩
  exact hfree j jobId hj

/-- The entry that `find_or_create_job` returns counts what the job was answered. -/
theorem Recorded.found (h : Recorded admitted refused g) (hg : JobsOk g)
    (hfind : findOrCreateJob g jobId = (g', some j)) :
    (g' j).admittedCount = BitVec.ofNat 32 (admitted jobId)
      ∧ (g' j).rejectedCount = BitVec.ofNat 32 (refused jobId) := by
  rcases findOrCreateJob_eq_some hg hfind with ⟨rfl, hj⟩ | ⟨rfl, -, habs, -⟩
  · exact ⟨h.admitted_eq j jobId hj, h.rejected_eq j jobId hj⟩
  · -- a job without an entry was never answered
    have hnone : ¬ 0 < admitted jobId + refused jobId := by
      rw [← h.tracked_iff]
      rintro ⟨a, ha⟩
      exact habs a ha
    have hzero : admitted jobId = 0 ∧ refused jobId = 0 := by omega
    rw [Function.update_self, hzero.1, hzero.2]
    exact ⟨rfl, rfl⟩

/-- The job's entry is found and rewritten, after `m` slots more were opened and `n` refused. -/
theorem Recorded.rewrite (h : Recorded admitted refused g) (hg : JobsOk g)
    (hfind : findOrCreateJob g jobId = (g', some j)) (hu : e.inUse = (g' j).inUse)
    (hid : e.jobId = (g' j).jobId)
    (hadmitted : e.admittedCount = (g' j).admittedCount + BitVec.ofNat 32 m)
    (hrejected : e.rejectedCount = (g' j).rejectedCount + BitVec.ofNat 32 n) (hpos : 0 < m + n) :
    Recorded (admitted + Pi.single jobId m) (refused + Pi.single jobId n)
      (Function.update g' j e) := by
  obtain ⟨-, hj⟩ := jobOcc_of_found hg hfind
  obtain ⟨ha, hr⟩ := h.found hg hfind
  have hne : ∀ {J : BitVec 32} {f : BitVec 32 → ℕ} {m : ℕ}, J ≠ jobId →
      (f + Pi.single jobId m : BitVec 32 → ℕ) J = f J := by
    intro J f m hJ
    rw [Pi.add_apply, Pi.single_eq_of_ne hJ, Nat.add_zero]
  refine ⟨fun a J hocc => ?_, fun a J hocc => ?_, fun J => ?_⟩
  · rcases jobOcc_rewrite hg hfind hu hid hocc with ⟨rfl, rfl⟩ | ⟨hJ, hocc', heq⟩
    · rw [Function.update_self, hadmitted, ha, Pi.add_apply, Pi.single_eq_same, BitVec.ofNat_add]
    · rw [heq, hne hJ, h.admitted_eq a J hocc']
  · rcases jobOcc_rewrite hg hfind hu hid hocc with ⟨rfl, rfl⟩ | ⟨hJ, hocc', heq⟩
    · rw [Function.update_self, hrejected, hr, Pi.add_apply, Pi.single_eq_same, BitVec.ofNat_add]
    · rw [heq, hne hJ, h.rejected_eq a J hocc']
  · have hsame := jobOcc_update_of_same hu hid
    by_cases hJ : J = jobId
    · subst hJ
      rw [Pi.add_apply, Pi.add_apply, Pi.single_eq_same, Pi.single_eq_same]
      exact iff_of_true ⟨j, hsame ▸ hj⟩ (by omega)
    · rw [hne hJ, hne hJ, ← h.tracked_iff, hsame]
      exact exists_congr fun a => (jobOcc_found hg hfind hJ).1

/-- Releasing a slot does not change what is counted. -/
theorem Recorded.release (h : Recorded admitted refused g) (j : JobIdx) :
    Recorded admitted refused (Function.update g j (g j).release) := by
  have hsame := jobOcc_update_of_same (release_inUse (g j)) (release_jobId (g j))
  have hcounts : ∀ a, (Function.update g j (g j).release a).admittedCount = (g a).admittedCount
      ∧ (Function.update g j (g j).release a).rejectedCount = (g a).rejectedCount := by
    intro a
    by_cases ha : a = j
    · subst ha
      rw [Function.update_self, JobEntry.release]
      split <;> exact ⟨rfl, rfl⟩
    · rw [Function.update_of_ne ha]
      exact ⟨rfl, rfl⟩
  refine ⟨fun a J hocc => ?_, fun a J hocc => ?_, fun J => ?_⟩
  · exact (hcounts a).1.trans (h.admitted_eq a J (hsame ▸ hocc))
  · exact (hcounts a).2.trans (h.rejected_eq a J (hsame ▸ hocc))
  · rw [← h.tracked_iff, hsame]

end

/-! ## Both tables -/

section

variable {admitted refused : BitVec 32 → ℕ} {q : ℤ} {ev : Event} {t t' : Tables} {d : Bytes}
  {i : SlotIdx} {s : Slot} {g : Jobs} {v : Verdict} {slot : Option SlotIdx} {sent : Option Bytes}
  {P : Verdict → Prop}

/-- A slot in use is freed. -/
theorem Recorded.freeSlot (h : Recorded admitted refused t.gJobs) (hacct : t.Accounted)
    (hi : (t.gSlots i).inUse = true) : Recorded admitted refused (freeSlot t i).gJobs := by
  unfold UserspaceAgg.freeSlot
  rcases hf : findOrCreateJob t.gJobs (t.gSlots i).jobId with ⟨g, _ | j⟩
  · obtain ⟨rfl, -⟩ := hacct.findOrCreateJob_none hf
    exact h
  · rcases findOrCreateJob_eq_some hacct.jobsOk hf with ⟨rfl, -⟩ | ⟨-, hfree, habs, -⟩
    · exact h.release j
    · -- a job with slots has its entry
      rcases hacct.tracked i _ (Slot.occupant_eq_some.mpr ⟨hi, rfl⟩) with ⟨a, ha⟩ | hfull
      · exact absurd ha (habs a)
      · exact absurd hfree (hfull j)

theorem answered_eq_zero (h : ∀ jobId, ¬ t.Answers P ev v jobId) : t.answered P ev v = 0 :=
  funext fun jobId => if_neg (h jobId)

theorem answered_of_not (h : ¬ P v) : t.answered P ev v = 0 :=
  answered_eq_zero fun _ ⟨_, _, _, _, hP⟩ => h hP

/-- A datagram whose key has a slot asks for none. -/
theorem answered_of_found (hr : ev.received = some d)
    (hprobe : probe (slotSeq (GradHdr.decode d).key) (stopAt t.occ (GradHdr.decode d).key) = some i)
    (hocc : t.occ i = some (GradHdr.decode d).key) : t.answered P ev v = 0 := by
  apply answered_eq_zero
  rintro jobId ⟨d', hr', -, ⟨i', hprobe', hfree⟩, -⟩
  obtain rfl := received_unique hr hr'
  obtain rfl := Option.some.inj (hprobe.symm.trans hprobe')
  rw [hocc] at hfree
  cases hfree

/-- A datagram that needs a slot. -/
theorem answered_eq_single (hr : ev.received = some d)
    (hneeds : t.NeedsSlot (GradHdr.decode d).key) (hP : P v) :
    t.answered P ev v = Pi.single (GradHdr.decode d).jobId 1 := by
  funext jobId
  by_cases hjob : jobId = (GradHdr.decode d).jobId
  · rw [hjob, Pi.single_eq_same]
    exact if_pos ⟨d, hr, rfl, hneeds, hP⟩
  · rw [Pi.single_eq_of_ne hjob]
    refine if_neg ?_
    rintro ⟨d', hr', rfl, -⟩
    exact hjob (congrArg (fun d => (GradHdr.decode d).jobId) (received_unique hr hr'))

/-- A datagram is counted into a slot that was found, or into one opened for it. -/
theorem Accepts.recorded (h : Accepts q ev t d i s g) (hr : ev.received = some d)
    (hadm : v.Admitted) (hacct : t.Accounted) (hfits : JobFits t.gJobs (GradHdr.decode d).jobId)
    (hrec : Recorded admitted refused t.gJobs) :
    Recorded (admitted + t.opened ev v) (refused + t.refused ev v) g := by
  have hnot : v ≠ .admissionReject := by
    rintro rfl
    exact absurd hadm (by decide)
  rw [Tables.refused, answered_of_not (P := fun v => v = .admissionReject) hnot, add_zero]
  cases h with
  | joined hprobe hocc hlen hseen =>
    rw [Tables.opened, answered_of_found hr hprobe hocc, add_zero]
    exact hrec
  | opened hprobe hocc hjobs =>
    cases hjobs with
    | untracked hfind =>
      have hfull := (hacct.findOrCreateJob_none hfind).2
      obtain ⟨j, hj | hj⟩ := hfits
      · exact absurd hj (hfull j).1
      · exact absurd hj (hfull j).2
    | @tracked g' j hfind hquota =>
      have hsingle := hrec.rewrite hacct.jobsOk hfind (e := (g' j).acquire) (m := 1) (n := 0)
        rfl rfl rfl (BitVec.add_zero _).symm (Nat.one_pos)
      rw [Pi.single_zero, add_zero] at hsingle
      rwa [Tables.opened, answered_eq_single hr ⟨i, hprobe, hocc⟩ hadm]

/-- **The receive phase** counts what the datagram was answered. -/
theorem Effect.recorded (h : Effect q ev t t' v slot sent) (hacct : t.Accounted)
    (hfits : ∀ d, ev.received = some d → WellFormed d → JobFits t.gJobs (GradHdr.decode d).jobId)
    (hrec : Recorded admitted refused t.gJobs) :
    Recorded (admitted + t.opened ev v) (refused + t.refused ev v) t'.gJobs := by
  have hkeep : ∀ {v}, t.answered Verdict.Admitted ev v = 0 →
      t.answered (fun v => v = .admissionReject) ev v = 0 →
      Recorded (admitted + t.opened ev v) (refused + t.refused ev v) t.gJobs := by
    intro v hopened hrefused
    rw [Tables.opened, hopened, Tables.refused, hrefused, add_zero, add_zero]
    exact hrec
  cases h with
  | idle hr => exact hkeep (answered_of_not (by decide)) (answered_of_not (by decide))
  | screened hr hscreen =>
    rcases screen_verdict hscreen with rfl | rfl | rfl | rfl | rfl <;>
      exact hkeep (answered_of_not (by decide)) (answered_of_not (by decide))
  | full hr hd hfull =>
    refine hkeep (answered_of_not (by decide)) (answered_eq_zero ?_)
    rintro jobId ⟨d', hr', -, ⟨i, -, hfree⟩, -⟩
    exact (hfull i).1 hfree
  | @refused d i g j hr hd hprobe hocc hfind hquota =>
    have hsingle := hrec.rewrite hacct.jobsOk hfind (e := (g j).reject) (m := 0) (n := 1) rfl rfl
      (BitVec.add_zero _).symm rfl Nat.one_pos
    rw [Pi.single_zero, add_zero] at hsingle
    rw [Tables.opened, answered_of_not (by decide), add_zero, Tables.refused,
      answered_eq_single (P := fun v => v = .admissionReject) hr ⟨_, hprobe, hocc⟩ rfl]
    exact hsingle
  | mismatch hr hd hprobe hocc hlen =>
    exact hkeep (answered_of_not (by decide)) (answered_of_not (by decide))
  | duplicate hr hd hprobe hocc hlen hseen =>
    exact hkeep (answered_of_not (by decide)) (answered_of_not (by decide))
  | absorbed hr hd hacc hlt => exact hacc.recorded hr (.inl rfl) hacct (hfits _ hr hd) hrec
  | complete hr hd hacc hge hsent =>
    refine Recorded.freeSlot (hacc.recorded hr (.inr rfl) hacct (hfits _ hr hd) hrec)
      (hacc.accounted hacct) ?_
    simp only [Function.update_self]
    exact (Slot.occupant_eq_some.mp hacc.occupant.1).1

/-! ## Runs -/

/-- The slots opened and refused by an iteration. -/
noncomputable def openedAt (args : Args) (st : State) (ev : Event) : BitVec 32 → ℕ :=
  (reapPhase args st ev).1.tables.opened ev (mainStep args st ev).2.verdict

noncomputable def refusedAt (args : Args) (st : State) (ev : Event) : BitVec 32 → ℕ :=
  (reapPhase args st ev).1.tables.refused ev (mainStep args st ev).2.verdict

/-- **One iteration.** -/
theorem mainStep_recorded (args : Args) {st : State} {S : Finset (BitVec 32)}
    (hok : st.tables.Ok) (hacct : st.tables.Accounted) (hjobs : st.tables.JobsIn S)
    (hS : S.card ≤ jobTableCapacity) (hev : JobsFrom S ev)
    (hrec : Recorded admitted refused st.tables.gJobs) :
    Recorded (admitted + openedAt args st ev) (refused + refusedAt args st ev)
      (mainStep args st ev).1.tables.gJobs := by
  have hacct' := reapPhase_accounted args hacct ev
  have hrec' : Recorded admitted refused (reapPhase args st ev).1.tables.gJobs :=
    (reapPhase_induction (fun t => t.Accounted ∧ Recorded admitted refused t.gJobs)
      (fun t i hi ht => ⟨ht.1.freeSlot hi, ht.2.freeSlot ht.1 hi⟩) args ⟨hacct, hrec⟩ ev).2
  refine (mainStep_effect_of_ok args hok ev).recorded hacct' (fun d hr hd => ?_) hrec'
  exact (reapPhase_jobsIn hacct hjobs).jobFits hacct' hS (hev d hr hd.hdr_le)

/-- A run counts what it answers. -/
theorem recorded_run (args : Args) {S : Finset (BitVec 32)} (hS : S.card ≤ jobTableCapacity)
    {es : List Event} (hes : ∀ ev ∈ es, JobsFrom S ev) {st : State} (hok : st.tables.Ok)
    (hacct : st.tables.Accounted) (hjobs : st.tables.JobsIn S)
    (hrec : Recorded admitted refused st.tables.gJobs) :
    Recorded (admitted + flow (mainStep args) (openedAt args) st es)
      (refused + flow (mainStep args) (refusedAt args) st es)
      (runState (mainStep args) st es).tables.gJobs := by
  induction es generalizing st admitted refused with
  | nil =>
    rw [flow, flow, add_zero, add_zero]
    exact hrec
  | cons ev es ih =>
    have hev := hes ev List.mem_cons_self
    have hstep := mainStep_recorded args hok hacct hjobs hS hev hrec
    rw [flow, flow, ← add_assoc, ← add_assoc]
    refine ih (fun ev' h => hes ev' (List.mem_cons_of_mem ev h)) (mainStep_ok hok ev) ?_
      (mainStep_jobsIn hok hacct hjobs hev) hstep
    exact (mainStep_effect_of_ok args hok ev).accounted (reapPhase_accounted args hacct ev)

end

/-- **The counters are true.** In every run of at most 256 jobs, a job has an entry in the job
table exactly if it was admitted or refused a slot. It has one then, which shows how many slots the
job holds, and how many were opened for it and refused to it since the run began, modulo
`2 ^ 32`. -/
theorem counters_true (args : Args) {S : Finset (BitVec 32)} (hS : S.card ≤ jobTableCapacity)
    (inPacket outPacket : Buffer) (now : ℤ) {es : List Event} (hes : ∀ ev ∈ es, JobsFrom S ev)
    (jobId : BitVec 32) :
    let st₀ := State.init inPacket outPacket now
    let t := (runState (mainStep args) st₀ es).tables
    let admitted := flow (mainStep args) (openedAt args) st₀ es jobId
    let refused := flow (mainStep args) (refusedAt args) st₀ es jobId
    ((∃ j, jobOcc t.gJobs j = some jobId) ↔ 0 < admitted + refused)
    ∧ ∀ j, jobOcc t.gJobs j = some jobId → (∀ a, jobOcc t.gJobs a = some jobId → a = j)
      ∧ (t.gJobs j).concurrentSlots.toNat = (slotsOf t.occ jobId).card
      ∧ (t.gJobs j).admittedCount.toNat = admitted % 2 ^ 32
      ∧ (t.gJobs j).rejectedCount.toNat = refused % 2 ^ 32 := by
  intro st₀ t admitted refused
  have hrec := recorded_run args hS hes (State.init_ok inPacket outPacket now)
    Tables.accounted_zero (Tables.jobsIn_zero S) recorded_zero
  rw [zero_add, zero_add] at hrec
  have hacct : t.Accounted := (accounted_init args inPacket outPacket now es).2
  refine ⟨hrec.tracked_iff jobId, fun j hj => ⟨fun a ha => hacct.jobsOk.unique jobId a j ha hj,
    ?_, ?_, ?_⟩⟩
  · obtain ⟨hu, hid⟩ := jobOcc_eq_some.mp hj
    rw [hacct.count_eq j hu, hid]
  · rw [hrec.admitted_eq j jobId hj, BitVec.toNat_ofNat]
  · rw [hrec.rejected_eq j jobId hj, BitVec.toNat_ofNat]

/-- Two datagrams of one job under a quota of one slot: its entry shows the one slot it has. -/
theorem counters_true_flood :
    let t := (runState (mainStep ⟨1, 0⟩) (State.init Buffer.zero Buffer.zero 0) (flood 2)).tables
    jobOcc t.gJobs 183 = some 1
      ∧ (t.gJobs 183).concurrentSlots.toNat = (slotsOf t.occ 1).card := by
  intro t
  have hjobs : ∀ ev ∈ flood 2, JobsFrom {1} ev := by
    intro ev hev d hd _
    obtain ⟨n, -, rfl⟩ := List.mem_map.mp hev
    obtain rfl := Option.some.inj hd
    rw [decode_opener]
    exact Finset.mem_singleton_self _
  have hentry : jobOcc t.gJobs 183 = some 1 := by decide +kernel
  have hcard : ({1} : Finset (BitVec 32)).card ≤ jobTableCapacity := by decide
  exact ⟨hentry, ((counters_true ⟨1, 0⟩ hcard Buffer.zero Buffer.zero 0 hjobs 1).2 183 hentry).2.1⟩

end NetSum.UserspaceAgg
