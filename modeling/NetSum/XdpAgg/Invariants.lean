import NetSum.Lib.Runs
import NetSum.XdpAgg.StepTheorems

/-!
# Invariants of the XDP program

Runs of the program on frames that arrive one at a time, with whatever `config_map` holds when
they do. Every slot stays open (`Maps.Ok`), the entries of `job_quota_map` count the slots
(`Maps.Accounted`), and as long as the jobs fit into the map, `concurrent_slots` is the number
of slots of the job (`JobsIn.concurrentSlots_eq`).
-/

namespace NetSum.XdpAgg

open NetSum.Lib NetSum.Protocol NetSum.Aggregation

/-! ## Runs -/

/-- A frame, and the `config_map` it finds. -/
structure XdpEvent where
  configMap : BoundedMap (BitVec 32) NetsumConfig 1
  frame : Bytes

/-- One call of the program; the answer is its exit and the frame it left. -/
def xdpStep (maps : Maps) (ev : XdpEvent) : Maps × Exit × Bytes :=
  netsumXdpAggregate { maps with configMap := ev.configMap } ev.frame

/-- A frame that gets past the header checks. -/
def Counts (frame : Bytes) : Prop := IsGradient frame ∧ Sound (payload frame)

instance (frame : Bytes) : Decidable (Counts frame) := inferInstanceAs (Decidable (_ ∧ _))

/-- A frame that counts is read as its payload says. -/
theorem parse_eq_ok_iff {frame : Bytes} {p : Parsed} :
    parse frame = .ok p ↔ Counts frame ∧ p = .ofPayload (payload frame) := by
  by_cases hg : IsGradient frame
  · by_cases hs : Sound (payload frame)
    · rw [parse_of_sound hg hs, Except.ok.injEq]
      exact ⟨fun h => ⟨⟨hg, hs⟩, h.symm⟩, fun h => h.2.symm⟩
    · obtain ⟨exit, hparse, -⟩ := parse_of_not_sound hg hs
      rw [hparse]
      exact iff_of_false nofun fun h => hs h.1.2
  · obtain ⟨exit, hparse, -⟩ := parse_of_not_isGradient hg
    rw [hparse]
    exact iff_of_false nofun fun h => hg h.1.1

/-- The key of a gradient frame. -/
def keyOf (frame : Bytes) : GradSlotKey := (GradHdr.decode (payload frame)).key

/-- What `config_map` says is in force. -/
def Maps.withConfig (maps : Maps) (configMap : BoundedMap (BitVec 32) NetsumConfig 1) : Maps :=
  { maps with configMap }

/-- A call on a frame that does not count. -/
theorem xdpStep_of_not_counts (maps : Maps) {ev : XdpEvent} (h : ¬ Counts ev.frame) :
    ∃ exit, xdpStep maps ev = (maps.withConfig ev.configMap, exit, ev.frame)
      ∧ exit.action = if IsGradient ev.frame then .drop else .pass :=
  netsumXdpAggregate_of_not_sound _ h

/-- A call on a frame that counts. -/
theorem xdpStep_respond {maps : Maps} (hok : maps.Ok) {ev : XdpEvent} (h : Counts ev.frame) :
    Answered (maps.withConfig ev.configMap) ev.frame (keyOf ev.frame)
      (respond (admits (maps.withConfig ev.configMap) (.ofPayload (payload ev.frame)))
        (payload ev.frame) (maps.live (keyOf ev.frame)))
      (xdpStep maps ev) :=
  have hok' : (maps.withConfig ev.configMap).Ok := hok
  netsumXdpAggregate_respond hok' h.1 h.2

/-! ## Slots and counts -/

theorem Moves.ok {maps maps' : Maps} {k : GradSlotKey} {T? : Option Tally}
    (h : Moves maps maps' k T?) (hok : maps.Ok) (hT : ∀ T, T? = some T → T.Open) : maps'.Ok := by
  intro k' T hk'
  by_cases hk : k' = k
  · rw [hk, h.live_eq] at hk'
    exact hT T hk'
  · rw [h.live_of_ne hk] at hk'
    exact hok k' T hk'

theorem xdpStep_ok {maps : Maps} (hok : maps.Ok) (ev : XdpEvent) : (xdpStep maps ev).1.Ok := by
  by_cases h : Counts ev.frame
  · have hans := xdpStep_respond hok h
    refine hans.moves.ok hok fun T hT => Tally.Open.respond (hok _) (fun hadm => ?_) hT
    exact (fanInOk_of_admits hadm).2
  · obtain ⟨exit, hstep, -⟩ := xdpStep_of_not_counts maps h
    rw [hstep]
    exact hok

theorem ok_empty : Maps.empty.Ok := fun k T h => by simp [Maps.live, Maps.empty] at h

theorem ok_run (es : List XdpEvent) : (runState xdpStep Maps.empty es).Ok :=
  runState_invariant_of_forall Maps.Ok (fun _ ev hok => xdpStep_ok hok ev) es ok_empty

theorem xdpStep_accounted {maps : Maps} (hok : maps.Ok) (hacct : maps.Accounted) (ev : XdpEvent) :
    (xdpStep maps ev).1.Accounted := by
  by_cases h : Counts ev.frame
  · exact (xdpStep_respond hok h).moves.accounted (hacct.congr rfl rfl)
  · obtain ⟨exit, hstep, -⟩ := xdpStep_of_not_counts maps h
    rw [hstep]
    exact hacct.congr rfl rfl

theorem accounted_run {maps : Maps} (hok : maps.Ok) (hacct : maps.Accounted)
    (es : List XdpEvent) : (runState xdpStep maps es).Accounted :=
  (runState_invariant_of_forall (fun maps : Maps => maps.Ok ∧ maps.Accounted)
    (fun _ ev h => ⟨xdpStep_ok h.1 ev, xdpStep_accounted h.1 h.2 ev⟩) es ⟨hok, hacct⟩).2

/-- No entry of `job_quota_map` is ever removed. -/
theorem isSome_run {maps : Maps} (hok : maps.Ok) (es : List XdpEvent) (jobId : BitVec 32)
    (h : (maps.jobQuotaMap.lookup jobId).isSome) :
    ((runState xdpStep maps es).jobQuotaMap.lookup jobId).isSome := by
  have hstep : ∀ (m : Maps) ev, m.Ok ∧ (m.jobQuotaMap.lookup jobId).isSome →
      (xdpStep m ev).1.Ok ∧ ((xdpStep m ev).1.jobQuotaMap.lookup jobId).isSome := by
    rintro m ev ⟨hok, hsome⟩
    refine ⟨xdpStep_ok hok ev, ?_⟩
    by_cases hcounts : Counts ev.frame
    · exact (xdpStep_respond hok hcounts).moves.quota.isSome jobId hsome
    · obtain ⟨exit, hstep, -⟩ := xdpStep_of_not_counts m hcounts
      rw [hstep]
      exact hsome
  exact (runState_invariant_of_forall (fun m : Maps => m.Ok ∧ (m.jobQuotaMap.lookup jobId).isSome)
    hstep es ⟨hok, h⟩).2

/-- A frame changes the count of its own job only, and as its key becomes live or is completed. -/
theorem Moves.slotCount {maps maps' : Maps} {k : GradSlotKey} {T? : Option Tally}
    (h : Moves maps maps' k T?) (jobId : BitVec 32) :
    slotCount maps'.slotMap jobId + (if k.jobId = jobId then liveCount (maps.live k) else 0)
      = slotCount maps.slotMap jobId + if k.jobId = jobId then liveCount T? else 0 := by
  have hcount := BoundedMap.count_of_others h.others fun k => k.jobId = jobId
  have hlive : ∀ m : Maps, (m.slotMap.lookup k).isSome = (m.live k).isSome := fun m => by
    rw [Maps.live, Option.isSome_map]
  rw [hlive, hlive, h.live_eq] at hcount
  by_cases hjob : k.jobId = jobId
  · simp only [hjob, true_and, if_true] at hcount ⊢
    exact hcount
  · simp only [hjob, false_and, if_false] at hcount ⊢
    exact hcount

/-! ## The entry of a job -/

/-- `concurrent_slots` of a job, `0` without an entry. -/
def concurrentSlots (maps : Maps) (jobId : BitVec 32) : ℕ :=
  match maps.jobQuotaMap.lookup jobId with
  | some e => e.concurrentSlots.toNat
  | none => 0

/-- Every job with a slot or an entry is in `S`. -/
structure Maps.JobsIn (S : Finset (BitVec 32)) (maps : Maps) : Prop where
  slots : ∀ k T, maps.live k = some T → k.jobId ∈ S
  entries : ∀ jobId, (maps.jobQuotaMap.lookup jobId).isSome → jobId ∈ S

/-- The frame's job is in `S`. -/
def JobIn (S : Finset (BitVec 32)) (frame : Bytes) : Prop :=
  IsGradient frame → (keyOf frame).jobId ∈ S

instance (S : Finset (BitVec 32)) (frame : Bytes) : Decidable (JobIn S frame) :=
  inferInstanceAs (Decidable (_ → _))

/-- The frames name at most 256 jobs. -/
def FewJobs (es : List XdpEvent) : Prop :=
  ∃ S : Finset (BitVec 32), S.card ≤ jobQuotaMapEntries ∧ ∀ ev ∈ es, JobIn S ev.frame

theorem jobsIn_empty (S : Finset (BitVec 32)) : Maps.empty.JobsIn S :=
  ⟨fun k T h => by simp [Maps.live, Maps.empty] at h,
    fun jobId h => by simp [Maps.empty] at h⟩

theorem Moves.jobsIn {maps maps' : Maps} {k : GradSlotKey} {T? : Option Tally}
    (h : Moves maps maps' k T?) {S : Finset (BitVec 32)} (hS : maps.JobsIn S)
    (hk : k.jobId ∈ S) : maps'.JobsIn S := by
  refine ⟨fun k' T hk' => ?_, fun j hj => ?_⟩
  · by_cases hkk : k' = k
    · exact hkk ▸ hk
    · rw [h.live_of_ne hkk] at hk'
      exact hS.slots k' T hk'
  · by_cases hjob : j = k.jobId
    · exact hjob ▸ hk
    · rw [h.quota.others j hjob] at hj
      exact hS.entries j hj

theorem xdpStep_jobsIn {maps : Maps} (hok : maps.Ok) {S : Finset (BitVec 32)}
    (hS : maps.JobsIn S) {ev : XdpEvent} (hev : JobIn S ev.frame) :
    (xdpStep maps ev).1.JobsIn S := by
  by_cases h : Counts ev.frame
  · exact (xdpStep_respond hok h).moves.jobsIn ⟨hS.slots, hS.entries⟩ (hev h.1)
  · obtain ⟨exit, hstep, -⟩ := xdpStep_of_not_counts maps h
    rw [hstep]
    exact ⟨hS.slots, hS.entries⟩

/-- A run on frames of the jobs in `S`. -/
theorem jobsIn_stateAt {S : Finset (BitVec 32)} {es : List XdpEvent}
    (hS : ∀ ev ∈ es, JobIn S ev.frame) (T : ℕ) :
    (stateAt xdpStep Maps.empty es T).Ok ∧ (stateAt xdpStep Maps.empty es T).Accounted
      ∧ (stateAt xdpStep Maps.empty es T).JobsIn S := by
  have hmeet : StepsMeet xdpStep (fun _ ev => JobIn S ev.frame) Maps.empty (es.take T) :=
    stepsMeet_iff.mpr fun _ ev he => hS ev (List.mem_of_mem_take (List.mem_of_getElem? he))
  exact runState_invariant (fun maps : Maps => maps.Ok ∧ maps.Accounted ∧ maps.JobsIn S)
    (fun _ ev hev ⟨hok, hacct, hjobs⟩ => ⟨xdpStep_ok hok ev, xdpStep_accounted hok hacct ev,
      xdpStep_jobsIn hok hjobs hev⟩) ⟨ok_empty, accounted_empty, jobsIn_empty S⟩ hmeet

/-- Of 256 jobs each fits into `job_quota_map`, and its entry counts its slots. -/
theorem Maps.JobsIn.concurrentSlots_eq {maps : Maps} {S : Finset (BitVec 32)}
    (hS : maps.JobsIn S) (hcard : S.card ≤ jobQuotaMapEntries) (hacct : maps.Accounted)
    (jobId : BitVec 32) : concurrentSlots maps jobId = slotCount maps.slotMap jobId := by
  unfold concurrentSlots
  cases he : maps.jobQuotaMap.lookup jobId with
  | some e => exact hacct.tracked jobId e he
  | none =>
    rcases hacct.untracked jobId he with h0 | hfull
    · exact h0.symm
    · by_cases hjob : jobId ∈ S
      · -- 256 entries for 255 other jobs
        have := BoundedMap.size_lt_card maps.jobQuotaMap S hS.entries he hjob
        omega
      · refine (Finset.card_eq_zero.mpr (Finset.filter_eq_empty_iff.mpr fun k hk hkj => ?_)).symm
        rw [BoundedMap.mem_keys_iff, Option.isSome_iff_exists] at hk
        obtain ⟨s, hs⟩ := hk
        exact hjob (hkj ▸ hS.slots k _ (live_of_lookup hs))

theorem overQuota_iff (maps : Maps) (jobId : BitVec 32) :
    overQuota maps jobId = true ↔ 0 < (maxSlotsPerJob maps).toNat
      ∧ (maxSlotsPerJob maps).toNat ≤ concurrentSlots maps jobId := by
  unfold overQuota concurrentSlots
  cases maps.jobQuotaMap.lookup jobId with
  | some e => simp [BitVec.le_def]
  | none => simp; omega

/-- With room in both, two states that count the same for a job admit its keys alike. -/
theorem admits_congr {maps maps' : Maps} {p : Parsed} (hcfg : maps.configMap = maps'.configMap)
    (hslots : concurrentSlots maps p.key.jobId = concurrentSlots maps' p.key.jobId)
    (hroom : maps.slotMap.size < slotMapEntries) (hroom' : maps'.slotMap.size < slotMapEntries) :
    admits maps p = admits maps' p := by
  have hmax : maxSlotsPerJob maps = maxSlotsPerJob maps' := by
    rw [maxSlotsPerJob, maxSlotsPerJob, hcfg]
  have hquota : overQuota maps p.key.jobId = overQuota maps' p.key.jobId := by
    rw [Bool.eq_iff_iff, overQuota_iff, overQuota_iff, hslots, hmax]
  rw [admits, admits, hquota, decide_eq_true hroom, decide_eq_true hroom']

end NetSum.XdpAgg
