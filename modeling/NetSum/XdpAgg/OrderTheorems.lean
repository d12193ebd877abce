import NetSum.XdpAgg.RetransmissionTheorems

/-!
# The order of frames does not matter

A collection of frames with one frame for each worker of a key, few enough keys and jobs for the
maps, and no quota. Every frame lands, whatever the order, so a key goes through its round on the
same workers in another order, which leaves it in the same state and completes it alike
(`Phase.unique`). Slots are what their tallies say, and a job's entry counts its slots, so the
maps end up equal (`order_independent`).
-/

namespace NetSum.XdpAgg

open NetSum.Lib NetSum.Protocol NetSum.Aggregation

/-- Well-formed gradient frames: those of a key agree on the fan-in and the chunk length, and
each of its workers sends once. The keys and the jobs fit into the maps. -/
structure Collection (frames : List Bytes) : Prop where
  isGradient : ∀ frame ∈ frames, IsGradient frame
  wellFormed : ∀ frame ∈ frames, WellFormed (payload frame)
  worker_lt : ∀ frame ∈ frames,
    workerOf frame < (GradHdr.decode (payload frame)).numWorkers.toNat
  agree : ∀ frame ∈ frames, ∀ frame' ∈ frames, keyOf frame = keyOf frame' →
    (GradHdr.decode (payload frame)).numWorkers = (GradHdr.decode (payload frame')).numWorkers
    ∧ (GradHdr.decode (payload frame)).chunkLen = (GradHdr.decode (payload frame')).chunkLen
  once : (frames.map fun frame => (keyOf frame, workerOf frame)).Nodup
  keys_lt : (frames.map keyOf).toFinset.card < slotMapEntries
  jobs_le : (frames.map fun frame => (keyOf frame).jobId).toFinset.card ≤ jobQuotaMapEntries

/-- What the frames transmitted for the key say. -/
def reports (k : GradSlotKey) (es : List XdpEvent) :
    List (GradSlotKey × ℕ × List (BitVec 32)) :=
  ((runOut xdpStep Maps.empty es).filterMap (transmittedOf k)).map fun p => contents (payload p)

namespace Collection

variable {frames frames' : List Bytes}

theorem counts (h : Collection frames) {frame : Bytes} (hf : frame ∈ frames) : Counts frame :=
  ⟨h.isGradient frame hf, sound_of_wellFormed (h.wellFormed frame hf)⟩

theorem fanInOk (h : Collection frames) {frame : Bytes} (hf : frame ∈ frames) :
    FanInOk (GradHdr.decode (payload frame)).numWorkers :=
  ⟨(h.wellFormed frame hf).numWorkers_pos, (h.wellFormed frame hf).numWorkers_le⟩

theorem perm (h : Collection frames) (hperm : frames.Perm frames') : Collection frames' where
  isGradient frame hf := h.isGradient frame (hperm.mem_iff.mpr hf)
  wellFormed frame hf := h.wellFormed frame (hperm.mem_iff.mpr hf)
  worker_lt frame hf := h.worker_lt frame (hperm.mem_iff.mpr hf)
  agree frame hf frame' hf' := h.agree frame (hperm.mem_iff.mpr hf) frame' (hperm.mem_iff.mpr hf')
  once := (hperm.map _).nodup_iff.mp h.once
  keys_lt := by
    rw [← List.toFinset_eq_of_perm _ _ (hperm.map keyOf)]
    exact h.keys_lt
  jobs_le := by
    rw [← List.toFinset_eq_of_perm _ _ (hperm.map fun frame => (keyOf frame).jobId)]
    exact h.jobs_le

/-- The frames of a key are told apart by their workers. -/
theorem eq_of_worker (h : Collection frames) {frame frame' : Bytes} (hf : frame ∈ frames)
    (hf' : frame' ∈ frames) (hkey : keyOf frame = keyOf frame')
    (hworker : workerOf frame = workerOf frame') : frame = frame' :=
  List.inj_on_of_nodup_map h.once hf hf' (Prod.ext hkey hworker)

/-- The frames of a key are those of the workers of one round. -/
theorem exists_round (h : Collection frames) (k : GradSlotKey) :
    ∃ N L f, ∀ frame ∈ frames, keyOf frame = k →
      SendsOne N L f (workerOf frame) ∧ f (workerOf frame) = payload frame := by
  by_cases hk : ∃ frame ∈ frames, keyOf frame = k
  swap
  · exact ⟨0, 0, fun _ => [], fun frame hf hkey => absurd ⟨frame, hf, hkey⟩ hk⟩
  obtain ⟨frame₀, hf₀, hkey₀⟩ := hk
  -- worker `w` sends the frame of the key that is from it
  let f : ℕ → Bytes := fun w =>
    payload ((frames.find? fun frame => keyOf frame = k ∧ workerOf frame = w).getD frame₀)
  refine ⟨(GradHdr.decode (payload frame₀)).numWorkers.toNat,
    (GradHdr.decode (payload frame₀)).chunkLen.toNat, f, fun frame hf hkey => ?_⟩
  have hfind : f (workerOf frame) = payload frame := by
    have hsome : (frames.find? fun frame' =>
        keyOf frame' = k ∧ workerOf frame' = workerOf frame).isSome := by
      rw [List.find?_isSome]
      exact ⟨frame, hf, by simp [hkey]⟩
    obtain ⟨frame', hframe'⟩ := Option.isSome_iff_exists.mp hsome
    have hspec := List.find?_some hframe'
    rw [decide_eq_true_iff] at hspec
    have heq : frame' = frame := h.eq_of_worker (List.mem_of_find?_eq_some hframe') hf
      (hspec.1.trans hkey.symm) hspec.2
    show payload (Option.getD (frames.find? _) frame₀) = _
    rw [hframe', heq]
    rfl
  obtain ⟨hN, hL⟩ := h.agree frame hf frame₀ hf₀ (hkey.trans hkey₀.symm)
  refine ⟨⟨?_, (h.wellFormed frame hf).workerId_lt, ?_, ?_, ?_⟩, hfind⟩
  · rw [← hN]
    exact h.worker_lt frame hf
  · rw [hfind]
    rfl
  · rw [hfind, hN]
  · rw [hfind, hL]

end Collection

/-! ## Every frame lands -/

/-- The live keys are among those of the frames. -/
theorem keysIn_run {S : Finset GradSlotKey} {maps : Maps} {es : List XdpEvent} (hok : maps.Ok)
    (h : ∀ k, (maps.live k).isSome → k ∈ S) (hes : ∀ ev ∈ es, keyOf ev.frame ∈ S) :
    ∀ k, ((runState xdpStep maps es).live k).isSome → k ∈ S := by
  have hmeet : StepsMeet xdpStep (fun _ ev => keyOf ev.frame ∈ S) maps es :=
    stepsMeet_iff.mpr fun _ ev he => hes ev (List.mem_of_getElem? he)
  refine (runState_invariant (fun m : Maps => m.Ok ∧ ∀ k, (m.live k).isSome → k ∈ S)
    (fun m ev hev hm => ⟨xdpStep_ok hm.1 ev, fun k hk => ?_⟩) ⟨hok, h⟩ hmeet).2
  by_cases hcounts : Counts ev.frame
  · by_cases hkey : k = keyOf ev.frame
    · exact hkey ▸ hev
    · rw [(xdpStep_respond hm.1 hcounts).moves.live_of_ne hkey] at hk
      exact hm.2 k hk
  · obtain ⟨exit, hstep, -⟩ := xdpStep_of_not_counts m hcounts
    rw [hstep] at hk
    exact hm.2 k hk

theorem size_lt_of_keysIn {S : Finset GradSlotKey} (hcard : S.card < slotMapEntries) {maps : Maps}
    (h : ∀ k, (maps.live k).isSome → k ∈ S) : maps.slotMap.size < slotMapEntries := by
  refine (BoundedMap.size_le_card maps.slotMap S fun k hk => h k ?_).trans_lt hcard
  rw [Maps.live, Option.isSome_map]
  exact hk

section

variable {es : List XdpEvent}

/-- There is room for every frame of the collection. -/
theorem Collection.hasRoom (h : Collection (es.map XdpEvent.frame)) :
    StepsMeet xdpStep (fun maps _ => maps.slotMap.size < slotMapEntries) Maps.empty es := by
  refine stepsMeet_iff.mpr fun T ev _ => size_lt_of_keysIn h.keys_lt ?_
  refine keysIn_run ok_empty (fun k hk => by simp [Maps.live, Maps.empty] at hk) fun e he => ?_
  rw [List.mem_toFinset]
  exact List.mem_map_of_mem (List.mem_map_of_mem (List.mem_of_mem_take he))

/-- With room for it, every frame of the key lands. -/
theorem landed_eq {maps : Maps} (k : GradSlotKey)
    (hroom : StepsMeet xdpStep (fun maps _ => maps.slotMap.size < slotMapEntries) maps es)
    (hes : ∀ ev ∈ es, Counts ev.frame ∧ FanInOk (GradHdr.decode (payload ev.frame)).numWorkers) :
    landed k maps es = (es.map XdpEvent.frame).filter fun frame => keyOf frame = k := by
  induction es generalizing maps with
  | nil => rfl
  | cons ev es ih =>
    have htail := ih hroom.2 fun e he => hes e (List.mem_cons_of_mem _ he)
    obtain ⟨hcounts, hfan⟩ := hes ev List.mem_cons_self
    rw [landed, List.map_cons, htail]
    by_cases hkey : keyOf ev.frame = k
    · rw [if_pos ⟨hcounts, hkey, .inr ⟨hfan, hroom.1⟩⟩, List.filter_cons_of_pos (by simp [hkey])]
    · rw [if_neg fun hlands => hkey hlands.2.1, List.filter_cons_of_neg (by simp [hkey])]

/-- The workers of the key, in the order of their frames. -/
def workersOf (k : GradSlotKey) (frames : List Bytes) : List ℕ :=
  (frames.filter fun frame => keyOf frame = k).map workerOf

theorem Collection.workersOf_nodup {frames : List Bytes} (h : Collection frames)
    (k : GradSlotKey) : (workersOf k frames).Nodup := by
  refine List.Nodup.map_on (fun frame hf frame' hf' hworker => ?_)
    ((h.once.of_map _).filter _)
  rw [List.mem_filter, decide_eq_true_iff] at hf hf'
  exact h.eq_of_worker hf.1 hf'.1 (hf.2.trans hf'.2.symm) hworker

/-! ## One key -/

/-- The key goes through its round on its workers, in the order of their frames. -/
theorem Collection.round_run (h : Collection (es.map XdpEvent.frame))
    (hes : ∀ ev ∈ es, ev.Unlimited) {k : GradSlotKey} {N L : ℕ} {f : ℕ → Bytes}
    (hf : ∀ frame ∈ es.map XdpEvent.frame, keyOf frame = k →
      SendsOne N L f (workerOf frame) ∧ f (workerOf frame) = payload frame) :
    (∀ w ∈ workersOf k (es.map XdpEvent.frame), SendsOne N L f w)
      ∧ (runState xdpStep Maps.empty es).live k
        = runState keyStep none ((workersOf k (es.map XdpEvent.frame)).map f)
      ∧ reports k es = ((runOut keyStep none ((workersOf k (es.map XdpEvent.frame)).map f)).filterMap
          Answer.completed).map fun T => T.contents k := by
  have hland : landed k Maps.empty es
      = (es.map XdpEvent.frame).filter fun frame => keyOf frame = k := by
    refine landed_eq k h.hasRoom fun ev hev => ?_
    have hmem : ev.frame ∈ es.map XdpEvent.frame := List.mem_map_of_mem hev
    exact ⟨h.counts hmem, h.fanInOk hmem⟩
  have hpayload : (landed k Maps.empty es).map payload
      = (workersOf k (es.map XdpEvent.frame)).map f := by
    rw [hland, workersOf, List.map_map]
    refine List.map_congr_left fun frame hframe => ?_
    rw [List.mem_filter, decide_eq_true_iff] at hframe
    exact (hf frame hframe.1 hframe.2).2.symm
  obtain ⟨hlive, hsent⟩ := live_run ok_empty k hes
  have hstart : Maps.empty.live k = none := by simp [Maps.live, Maps.empty]
  rw [hpayload, hstart] at hlive hsent
  refine ⟨fun w hw => ?_, hlive, hsent⟩
  obtain ⟨frame, hframe, rfl⟩ := List.mem_map.mp hw
  rw [List.mem_filter, decide_eq_true_iff] at hframe
  exact (hf frame hframe.1 hframe.2).1

/-- A key ends up the same after both orders, and is reported alike, at most once. -/
theorem Collection.key_eq {es' : List XdpEvent} (h : Collection (es.map XdpEvent.frame))
    (hperm : (es.map XdpEvent.frame).Perm (es'.map XdpEvent.frame))
    (hes : ∀ ev ∈ es, ev.Unlimited) (hes' : ∀ ev ∈ es', ev.Unlimited) (k : GradSlotKey) :
    (runState xdpStep Maps.empty es).live k = (runState xdpStep Maps.empty es').live k
      ∧ reports k es = reports k es' ∧ (reports k es).length ≤ 1 := by
  obtain ⟨N, L, f, hf⟩ := h.exists_round k
  obtain ⟨hsends, hlive, hreports⟩ := h.round_run hes hf
  obtain ⟨-, hlive', hreports'⟩ := (h.perm hperm).round_run hes' (f := f) fun frame hframe =>
    hf frame (hperm.mem_iff.mpr hframe)
  have hworkers : (workersOf k (es.map XdpEvent.frame)).Perm
      (workersOf k (es'.map XdpEvent.frame)) := (hperm.filter _).map _
  obtain ⟨hstate, hout, hlen⟩ := run_perm hsends (h.workersOf_nodup k) hworkers
  rw [hlive, hlive', hreports, hreports', hstate, hout, List.length_map]
  rw [hout] at hlen
  exact ⟨rfl, rfl, hlen⟩

/-! ## The entries of the jobs -/

theorem isSome_jobQuotaIncrement {m : BoundedMap (BitVec 32) JobQuotaEntry jobQuotaMapEntries}
    {jobId : BitVec 32} (hroom : (m.lookup jobId).isSome ∨ m.size < jobQuotaMapEntries) :
    ((jobQuotaIncrement m jobId).lookup jobId).isSome := by
  rw [lookup_jobQuotaIncrement, if_pos rfl]
  cases he : m.lookup jobId with
  | some e => rfl
  | none =>
    rw [he] at hroom
    rw [if_pos (hroom.resolve_left (by simp))]
    rfl

/-- A frame that lands leaves its job with an entry, if there is room for one. -/
theorem xdpStep_tracked {maps : Maps} (hok : maps.Ok) {ev : XdpEvent} (hev : ev.Unlimited)
    {k : GradSlotKey} (h : Lands k maps ev.frame)
    (htracked : (maps.live k).isSome → (maps.jobQuotaMap.lookup k.jobId).isSome)
    (hroom : (maps.jobQuotaMap.lookup k.jobId).isSome
      ∨ maps.jobQuotaMap.size < jobQuotaMapEntries) :
    ((xdpStep maps ev).1.jobQuotaMap.lookup k.jobId).isSome := by
  obtain ⟨hcounts, rfl, hcase⟩ := h
  by_cases hlive : (maps.live (keyOf ev.frame)).isSome
  · exact (xdpStep_respond hok hcounts).moves.quota.isSome _ (htracked hlive)
  obtain ⟨hfan, hslots⟩ := hcase.resolve_left hlive
  rw [Option.not_isSome_iff_eq_none, Maps.live, Option.map_eq_none_iff] at hlive
  have hcall := netsumXdpAggregate_cases (maps.withConfig ev.configMap) hcounts.1 hcounts.2
  show ((netsumXdpAggregate (maps.withConfig ev.configMap) ev.frame).1.jobQuotaMap.lookup
    (keyOf ev.frame).jobId).isSome = true
  generalize netsumXdpAggregate (maps.withConfig ev.configMap) ev.frame = r at hcall ⊢
  cases hcall with
  | found hk => rw [show maps.slotMap.lookup (keyOf ev.frame) = _ from hk] at hlive; cases hlive
  | refused dropStats hk hadm hexit =>
    -- without a quota, and with room, nothing is refused
    have hyes : admits (maps.withConfig ev.configMap) (.ofPayload (payload ev.frame)) = true := by
      simp only [admits, Bool.and_eq_true, decide_eq_true_eq, Bool.not_eq_true',
        overQuota_of_unlimited hev, and_true]
      exact ⟨hfan, hslots⟩
    rw [hyes] at hadm
    cases hadm
  | created hk hadm hroom' =>
    have hopen := open_fresh (GradHdr.decode (payload ev.frame)).chunkLen hfan
    let maps' : Maps := { maps.withConfig ev.configMap with
      slotMap := maps.slotMap.insert (keyOf ev.frame) (.fresh
        (GradHdr.decode (payload ev.frame)).chunkLen
        (GradHdr.decode (payload ev.frame)).numWorkers) fun _ => hroom'
      jobQuotaMap := jobQuotaIncrement maps.jobQuotaMap (keyOf ev.frame).jobId }
    have hcreated : maps'.slotMap.lookup (keyOf ev.frame) = some _ :=
      BoundedMap.lookup_insert_self _ _ _ fun _ => hroom'
    have hans := aggregate_respond hcounts.1.length_le hcounts.2 hopen hcreated true
    exact hans.moves.quota.isSome _ (isSome_jobQuotaIncrement hroom)

/-- Every job that sent has an entry. -/
theorem tracked_run {S : Finset (BitVec 32)} (hcard : S.card ≤ jobQuotaMapEntries)
    (hroom : StepsMeet xdpStep (fun maps _ => maps.slotMap.size < slotMapEntries) Maps.empty es)
    (hes : ∀ ev ∈ es, ev.Unlimited ∧ Counts ev.frame
      ∧ FanInOk (GradHdr.decode (payload ev.frame)).numWorkers ∧ (keyOf ev.frame).jobId ∈ S) :
    ∀ ev ∈ es, ((runState xdpStep Maps.empty es).jobQuotaMap.lookup
      (keyOf ev.frame).jobId).isSome := by
  induction es using List.reverseRecOn with
  | nil => exact fun ev hev => absurd hev List.not_mem_nil
  | append_singleton es ev ih =>
    rw [stepsMeet_concat] at hroom
    have hpre := ih hroom.1 fun e he => hes e (List.mem_append_left _ he)
    have hlast := hes ev (List.mem_append_right _ List.mem_cons_self)
    have hin : ∀ e ∈ es, JobIn S e.frame :=
      fun e he _ => (hes e (List.mem_append_left _ he)).2.2.2
    have hjobs := jobsIn_stateAt hin es.length
    rw [stateAt_of_length_le le_rfl] at hjobs
    rw [runState_append]
    generalize runState xdpStep Maps.empty es = maps at hpre hjobs hroom
    obtain ⟨hok, hacct, hS⟩ := hjobs
    obtain ⟨hev, hcounts, hfan, hjob⟩ := hlast
    intro e he
    rcases List.mem_append.mp he with he | he
    · exact (xdpStep_respond hok hcounts).moves.quota.isSome _ (hpre e he)
    · rw [List.mem_singleton.mp he]
      refine xdpStep_tracked hok hev ⟨hcounts, rfl, .inr ⟨hfan, hroom.2⟩⟩ (fun hlive => ?_) ?_
      · -- a slot of the job is counted, so there is an entry
        by_contra hnone
        rw [Option.not_isSome_iff_eq_none] at hnone
        have hcount := hS.concurrentSlots_eq hcard hacct (keyOf ev.frame).jobId
        rw [concurrentSlots, hnone, eq_comm] at hcount
        have hempty := Finset.card_eq_zero.mp hcount
        rw [Maps.live, Option.isSome_map, ← BoundedMap.mem_keys_iff] at hlive
        have hmem : keyOf ev.frame ∈ maps.slotMap.toFinmap.keys.filter
            fun k => k.jobId = (keyOf ev.frame).jobId := Finset.mem_filter.mpr ⟨hlive, rfl⟩
        rw [hempty] at hmem
        exact Finset.notMem_empty _ hmem
      · cases he' : maps.jobQuotaMap.lookup (keyOf ev.frame).jobId with
        | some e' => exact .inl rfl
        | none =>
          have hlt := BoundedMap.size_lt_card maps.jobQuotaMap S hS.entries he' hjob
          exact .inr (hlt.trans_le hcard)

/-- After a collection the jobs with an entry are those that sent. -/
theorem Collection.tracked_iff (h : Collection (es.map XdpEvent.frame))
    (hes : ∀ ev ∈ es, ev.Unlimited) (jobId : BitVec 32) :
    ((runState xdpStep Maps.empty es).jobQuotaMap.lookup jobId).isSome
      ↔ ∃ frame ∈ es.map XdpEvent.frame, (keyOf frame).jobId = jobId := by
  have hjob : ∀ ev ∈ es, (keyOf ev.frame).jobId
      ∈ ((es.map XdpEvent.frame).map fun frame => (keyOf frame).jobId).toFinset := by
    intro ev hev
    rw [List.mem_toFinset]
    exact List.mem_map_of_mem (List.mem_map_of_mem hev)
  constructor
  · intro hsome
    have hin : ∀ ev ∈ es, JobIn _ ev.frame := fun ev hev _ => hjob ev hev
    have hS := (jobsIn_stateAt hin es.length).2.2.entries
    rw [stateAt_of_length_le le_rfl] at hS
    exact List.mem_map.mp (List.mem_toFinset.mp (hS jobId hsome))
  · rintro ⟨frame, hframe, rfl⟩
    obtain ⟨ev, hev, rfl⟩ := List.mem_map.mp hframe
    refine tracked_run h.jobs_le h.hasRoom (fun e he => ?_) ev hev
    have hmem : e.frame ∈ es.map XdpEvent.frame := List.mem_map_of_mem he
    exact ⟨hes e he, h.counts hmem, h.fanInOk hmem, hjob e he⟩

/-- **Two orders of one collection** transmit the same rounds, each once, and leave the same slots
and the same entries. -/
theorem order_independent {es' : List XdpEvent} (h : Collection (es.map XdpEvent.frame))
    (hperm : (es.map XdpEvent.frame).Perm (es'.map XdpEvent.frame))
    (hes : ∀ ev ∈ es, ev.Unlimited) (hes' : ∀ ev ∈ es', ev.Unlimited) :
    (∀ k, reports k es = reports k es' ∧ (reports k es).length ≤ 1)
    ∧ (runState xdpStep Maps.empty es).slotMap = (runState xdpStep Maps.empty es').slotMap
    ∧ (runState xdpStep Maps.empty es).jobQuotaMap
      = (runState xdpStep Maps.empty es').jobQuotaMap := by
  have hkey := h.key_eq hperm hes hes'
  have htracked := h.tracked_iff hes
  have htracked' := (h.perm hperm).tracked_iff hes'
  have hacct := accounted_run ok_empty accounted_empty es
  have hacct' := accounted_run ok_empty accounted_empty es'
  have hslots : (runState xdpStep Maps.empty es).slotMap
      = (runState xdpStep Maps.empty es').slotMap := by
    refine BoundedMap.ext_lookup fun k => ?_
    exact Option.map_injective (fun _ _ => GradSlot.tally_injective) (hkey k).1
  refine ⟨fun k => (hkey k).2, hslots, BoundedMap.ext_lookup fun jobId => ?_⟩
  have hsome : ((runState xdpStep Maps.empty es).jobQuotaMap.lookup jobId).isSome
      = ((runState xdpStep Maps.empty es').jobQuotaMap.lookup jobId).isSome := by
    rw [Bool.eq_iff_iff, htracked, htracked']
    exact ⟨fun ⟨frame, hf, hj⟩ => ⟨frame, hperm.mem_iff.mp hf, hj⟩,
      fun ⟨frame, hf, hj⟩ => ⟨frame, hperm.mem_iff.mpr hf, hj⟩⟩
  generalize runState xdpStep Maps.empty es = maps at hacct hslots hsome ⊢
  generalize runState xdpStep Maps.empty es' = maps' at hacct' hslots hsome ⊢
  cases he : maps.jobQuotaMap.lookup jobId with
  | none =>
    rw [he, eq_comm] at hsome
    exact (Option.not_isSome_iff_eq_none.mp (by rw [hsome]; nofun)).symm
  | some e =>
    rw [he, eq_comm] at hsome
    obtain ⟨e', he'⟩ := Option.isSome_iff_exists.mp hsome
    rw [he']
    -- both entries count the slots of the job
    have hcount := hacct.tracked jobId e he
    have hcount' := hacct'.tracked jobId e' he'
    rw [hslots, ← hcount'] at hcount
    exact congrArg some (congrArg JobQuotaEntry.mk (BitVec.eq_of_toNat_eq hcount))

end

/-- A round of two workers, with a parameter server and no quota. -/
def pairOf (w : BitVec 16) : XdpEvent :=
  ⟨configured ⟨fun _ => 0, 0, 0, 0⟩,
    frameWith (workerPacket ⟨1, 0, 0, w, 2, 1, 0⟩ fun _ => w.setWidth 32)⟩

theorem order_independent_pair : reports ⟨1, 0, 0⟩ [pairOf 0, pairOf 1]
    = reports ⟨1, 0, 0⟩ [pairOf 1, pairOf 0] := by
  have hcollection : Collection ([pairOf 0, pairOf 1].map XdpEvent.frame) :=
    ⟨by decide +kernel, by decide +kernel, by decide +kernel, by decide +kernel,
      by decide +kernel, by decide +kernel, by decide +kernel⟩
  have hunlimited : ∀ w, (pairOf w).Unlimited := fun w => ⟨_, lookup_configured _, rfl⟩
  have hperm : ([pairOf 0, pairOf 1].map XdpEvent.frame).Perm
      ([pairOf 1, pairOf 0].map XdpEvent.frame) := List.Perm.swap _ _ []
  refine ((order_independent hcollection hperm (fun ev hev => ?_)
    fun ev hev => ?_).1 _).1
  · rcases List.mem_pair.mp hev with rfl | rfl <;> exact hunlimited _
  · rcases List.mem_pair.mp hev with rfl | rfl <;> exact hunlimited _

end NetSum.XdpAgg
