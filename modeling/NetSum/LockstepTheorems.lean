import NetSum.ParityTheorems
import NetSum.UserspaceAgg.RefinementTheorems

/-!
# The two aggregators on everybody's traffic

The userspace aggregator and the XDP program are fed the same datagrams, of any keys and any jobs,
with the same quota. Both answer each datagram as the machine of its key, both count the slots of
a job, and both have room for 65536 keys; so they stay in correspondence on every key
(`Twin.step`), refuse the same datagrams for the quota or for want of room, and emit the same sums
(`aggregators_agree`). What they need not share is the defect of the one of them that probes:
every datagram finds its key intact.
-/

namespace NetSum

open NetSum.Lib NetSum.Protocol NetSum.Aggregation UserspaceAgg XdpAgg

/-! ## The same traffic -/

/-- An iteration and a call get the same datagram, which passes the stateless admission check; the
program has a configuration with the quota. -/
def FeedsBoth (quota : BitVec 32) (ev : Event) (x : XdpEvent) : Prop :=
  ∃ d, ev.received = some d ∧ (aggParseStateless d).isSome ∧ IsGradient x.frame
    ∧ payload x.frame = d ∧ ∃ cfg, x.configMap.lookup 0 = some cfg ∧ cfg.maxSlotsPerJob = quota

/-- The two aggregators keep the same tally for every key. -/
structure Twin (S : Finset (BitVec 32)) (st : State) (maps : Maps) : Prop where
  ok : st.tables.Ok
  accounted : st.tables.Accounted
  jobsIn : st.tables.JobsIn S
  xdp_ok : maps.Ok
  xdp_accounted : maps.Accounted
  xdp_jobsIn : maps.JobsIn S
  shows : ∀ k, st.tables.Shows k (maps.live k)

section

variable {S : Finset (BitVec 32)} {st : State} {maps : Maps} {args : Args} {ev : Event}
  {x : XdpEvent} {quota : BitVec 32}

namespace Twin

theorem isSome_iff (h : Twin S st maps) (k : GradSlotKey) :
    (maps.slotMap.lookup k).isSome ↔ ∃ i, st.tables.occ i = some k := by
  have hlive : (maps.slotMap.lookup k).isSome = (maps.live k).isSome := by
    rw [Maps.live, Option.isSome_map]
  rw [hlive]
  have hshow := h.shows k
  cases hk : maps.live k with
  | none =>
    rw [hk] at hshow
    cases hshow with
    | absent habs =>
      apply iff_of_false Bool.false_ne_true
      rintro ⟨i, hi⟩
      exact habs i hi
  | some T =>
    rw [hk] at hshow
    cases hshow with
    | live i hocc huniq => exact iff_of_true rfl ⟨i, hocc⟩

theorem unique (h : Twin S st maps) : Unique st.tables.occ := by
  intro k i j hi hj
  have hshow := h.shows k
  generalize maps.live k = T? at hshow
  cases hshow with
  | absent habs => exact absurd hi (habs i)
  | live a hocc huniq => exact huniq i j hi hj

/-- A job has as many slots in one as in the other. -/
theorem card_slotsOf (h : Twin S st maps) (jobId : BitVec 32) :
    (slotsOf st.tables.occ jobId).card = slotCount maps.slotMap jobId := by
  rw [slotsOf, ← ncard_keys h.unique, slotCount, ← BoundedMap.ncard_lookup]
  simp only [h.isSome_iff, beq_iff_eq]

/-- One has room when the other has. -/
theorem hasRoom_iff (h : Twin S st maps) :
    st.tables.HasRoom ↔ maps.slotMap.size < slotMapEntries := by
  rw [Tables.HasRoom, exists_free_iff, ← ncard_keys h.unique, ← BoundedMap.count_true,
    ← BoundedMap.ncard_lookup]
  simp only [h.isSome_iff]

/-- Both admit the same new keys. -/
theorem admits_iff (h : Twin S st maps) (hS : S.card ≤ jobTableCapacity) {d : Bytes}
    (hd : WellFormed d) (hjob : (GradHdr.decode d).jobId ∈ S)
    (hquota : (maxSlotsPerJob maps).toNat = quota.toNat) :
    admits maps (.ofPayload d) = true
      ↔ st.tables.HasRoom ∧ QuotaAdmits quota.toNat st.tables (GradHdr.decode d).jobId := by
  have hfan : FanInOk (Parsed.ofPayload d).numWorkers := ⟨hd.numWorkers_pos, hd.numWorkers_le⟩
  have hfits := h.jobsIn.jobFits h.accounted hS hjob
  have hover := overQuota_iff maps (GradHdr.decode d).jobId
  rw [h.xdp_jobsIn.concurrentSlots_eq hS h.xdp_accounted, ← h.card_slotsOf, hquota] at hover
  have hmod : ((quota.toNat : ℤ) % 2 ^ 32) = quota.toNat := by
    apply Int.emod_eq_of_lt (Int.natCast_nonneg _)
    exact_mod_cast quota.isLt
  have hadm : QuotaAdmits quota.toNat st.tables (GradHdr.decode d).jobId
      ↔ overQuota maps (GradHdr.decode d).jobId = false := by
    rw [← Bool.not_eq_true, hover, QuotaAdmits, hmod]
    constructor
    · rintro (hle | hno | hlt) ⟨hpos, hge⟩
      · omega
      · exact hno hfits
      · omega
    · intro hno
      by_cases hpos : 0 < quota.toNat
      · exact .inr (.inr (by omega))
      · exact .inl (by omega)
  have hjobId : (Parsed.ofPayload d).key.jobId = (GradHdr.decode d).jobId := rfl
  rw [admits, hjobId, hadm, h.hasRoom_iff, decide_eq_true hfan]
  simp [and_comm]

end Twin

/-! ## One datagram -/

/-- The rest of the program's admission check is in the stateless one. -/
theorem counts_of_feedsBoth (h : FeedsBoth quota ev x) : Counts x.frame
    ∧ ev.received = some (payload x.frame) ∧ WellFormed (payload x.frame) := by
  obtain ⟨d, hrecv, hparse, hg, rfl, -⟩ := h
  have hd := (aggParseStateless_isSome _).mp hparse
  exact ⟨⟨hg, sound_of_wellFormed hd⟩, hrecv, hd⟩

/-- **One datagram.** -/
theorem Twin.step (h : Twin S st maps) (hS : S.card ≤ jobTableCapacity)
    (hreap : args.slotTtlMs ≤ 0) (hquota : args.gJobQuota = quota.toNat)
    (hfeed : FeedsBoth quota ev x)
    (hjob : ∀ d, ev.received = some d → netsumHdrSize ≤ d.length → (GradHdr.decode d).jobId ∈ S)
    (hint : FindsIntactSwept args st ev) :
    Twin S (mainStep args st ev).1 (xdpStep maps x).1
      ∧ SameAnswer (mainStep args st ev).2 (xdpStep maps x).2 := by
  obtain ⟨hcounts, hrecv, hd⟩ := counts_of_feedsBoth hfeed
  obtain ⟨-, -, -, -, -, cfg, hcfg, hmax⟩ := hfeed
  have hjob' := hjob _ hrecv hd.hdr_le
  have hint' := hint _ hrecv hd
  have heff := mainStep_effect_of_ok args h.ok ev
  rw [reapPhase_off hreap] at heff hint'
  rw [hquota] at heff
  have hans := xdpStep_respond h.xdp_ok hcounts
  -- both answer as the machine of the key
  have hmax' : (maxSlotsPerJob (maps.withConfig x.configMap)).toNat = quota.toNat := by
    have hlookup : (maps.withConfig x.configMap).configMap.lookup 0 = some cfg := hcfg
    rw [maxSlotsPerJob, hlookup]
    exact congrArg BitVec.toNat hmax
  have htwin : Twin S st (maps.withConfig x.configMap) :=
    ⟨h.ok, h.accounted, h.jobsIn, h.xdp_ok, ⟨h.xdp_accounted.tracked, h.xdp_accounted.untracked⟩,
      ⟨h.xdp_jobsIn.slots, h.xdp_jobsIn.entries⟩, h.shows⟩
  obtain ⟨hshow, hv, hsent⟩ := heff.respond_of_admits h.ok h.accounted hrecv hd
    (h.shows (keyOf x.frame)) hint' fun _ => htwin.admits_iff hS hd hjob' hmax'
  refine ⟨?_, ?_⟩
  · refine
      { ok := heff.ok h.ok
        accounted := heff.accounted h.accounted
        jobsIn := heff.jobsIn h.accounted h.jobsIn hjob
        xdp_ok := xdpStep_ok h.xdp_ok x
        xdp_accounted := xdpStep_accounted h.xdp_ok h.xdp_accounted x
        xdp_jobsIn := xdpStep_jobsIn h.xdp_ok h.xdp_jobsIn fun _ => hjob'
        shows := fun k => ?_ }
    by_cases hk : k = keyOf x.frame
    · rw [hk, hans.moves.live_eq]
      exact hshow
    · rw [hans.moves.live_of_ne hk]
      refine (h.shows k).frame (heff.frame fun d' hd' => ?_).1
      rw [received_unique hrecv hd']
      exact Ne.symm hk
  · have hshown := hans.shown
    have hcfg' : (maps.withConfig x.configMap).configMap.lookup 0 = some cfg := hcfg
    rw [hcfg'] at hshown
    exact sameAnswer_of_shown hcounts rfl (fun T => chunkLen_of_complete) hv hsent hshown

end

/-! ## Runs -/

theorem twin_init (S : Finset (BitVec 32)) (inPacket outPacket : Buffer) (now : ℤ) :
    Twin S (State.init inPacket outPacket now) Maps.empty := by
  refine ⟨State.init_ok _ _ _, Tables.accounted_zero, Tables.jobsIn_zero S, ok_empty,
    accounted_empty, jobsIn_empty S, fun k => ?_⟩
  have hlive : Maps.empty.live k = none :=
    congrArg (Option.map GradSlot.tally) (BoundedMap.lookup_empty k)
  rw [hlive]
  exact .absent fun i => by simp [State.init]

/-- **The aggregators agree** on every run of datagrams that pass the stateless admission check, of
at most 256 jobs, under the same quota: after each datagram every key's slots correspond and every
job's counters are equal, each datagram gets the same decision, and the same sums are emitted. -/
theorem aggregators_agree {args : Args} (hreap : args.slotTtlMs ≤ 0) {quota : BitVec 32}
    (hquota : args.gJobQuota = quota.toNat) (inPacket outPacket : Buffer) (now : ℤ)
    {es : List Event} {xs : List XdpEvent} (hfeeds : List.Forall₂ (FeedsBoth quota) es xs)
    (hjobs : UserspaceAgg.FewJobs es)
    (hint : StepsMeet (mainStep args) (FindsIntactSwept args) (State.init inPacket outPacket now)
      es) :
    let st := State.init inPacket outPacket now
    (∀ T k, Corresponds k (stateAt (mainStep args) st es T).tables
      (stateAt xdpStep Maps.empty xs T))
    ∧ (∀ T j, ((stateAt (mainStep args) st es T).tables.gJobs j).inUse = true →
      ((stateAt (mainStep args) st es T).tables.gJobs j).concurrentSlots.toNat
        = concurrentSlots (stateAt xdpStep Maps.empty xs T)
          ((stateAt (mainStep args) st es T).tables.gJobs j).jobId)
    ∧ List.Forall₂ SameDecision ((runOut (mainStep args) st es).map Output.verdict)
      ((runOut xdpStep Maps.empty xs).map Prod.fst)
    ∧ ((runOut (mainStep args) st es).filterMap Output.sent).map contents
      = ((runOut xdpStep Maps.empty xs).filterMap transmitted).map fun p => contents (payload p) := by
  intro st
  obtain ⟨S, hS, hes⟩ := hjobs
  let Tame := fun st ev => FindsIntactSwept args st ev ∧ ∀ d, ev.received = some d →
    netsumHdrSize ≤ d.length → (GradHdr.decode d).jobId ∈ S
  have hstep : ∀ (st : State) maps ev x, Tame st ev → FeedsBoth quota ev x → Twin S st maps →
      Twin S (mainStep args st ev).1 (xdpStep maps x).1
        ∧ SameAnswer (mainStep args st ev).2 (xdpStep maps x).2 :=
    fun _ _ _ _ htame hfeed h => h.step hS hreap hquota hfeed htame.2 htame.1
  have htame : StepsMeet (mainStep args) Tame st es := stepsMeet_iff.mpr fun T ev he =>
    ⟨stepsMeet_iff.mp hint T ev he, hes ev (List.mem_of_getElem? he)⟩
  obtain ⟨hstates, houts⟩ := run_lockstep_of_meet (Twin S) hstep
    (twin_init S inPacket outPacket now) hfeeds htame
  refine ⟨fun T k => corresponds_of_shows ((hstates T).shows k), fun T j hj => ?_, ?_, ?_⟩
  · have htwin := hstates T
    rw [htwin.accounted.count_eq j hj, htwin.card_slotsOf,
      htwin.xdp_jobsIn.concurrentSlots_eq hS htwin.xdp_accounted]
  · rw [List.forall₂_map_left_iff, List.forall₂_map_right_iff]
    exact houts.imp fun _ _ h => h.decision
  · rw [List.map_filterMap, List.map_filterMap]
    exact filterMap_eq_of_forall₂ (houts.imp fun _ _ h => h.emitted)

/-- With a quota of one, both refuse the job's second key. -/
theorem aggregators_agree_quota :
    let d := fun round => workerPacket ⟨1, round, 0, 0, 2, 1, 0⟩ fun _ => 5
    let xdp := fun round =>
      (⟨configured ⟨fun _ => 0xaa, 0x0200000a, 0x9526, 1⟩, frameWith (d round)⟩ : XdpEvent)
    List.Forall₂ SameDecision
      ((runOut (mainStep ⟨1, 0⟩) (.init .zero .zero 0)
        [Event.deliver (d 0), .deliver (d 1)]).map Output.verdict)
      ((runOut xdpStep Maps.empty [xdp 0, xdp 1]).map Prod.fst) := by
  intro d xdp
  have hfeeds : ∀ round : BitVec 32, (aggParseStateless (d round)).isSome →
      netsumHdrSize ≤ (d round).length → payload (frameWith (d round)) = d round →
      FeedsBoth 1 (.deliver (d round)) (xdp round) := fun round hparse hhdr hpayload =>
    ⟨d round, rfl, hparse, isGradient_frameWith hhdr, hpayload, _, lookup_configured _, rfl⟩
  have hint : StepsMeet (mainStep ⟨1, 0⟩) (FindsIntactSwept ⟨1, 0⟩) (.init .zero .zero 0)
      [Event.deliver (d 0), .deliver (d 1)] := by
    refine ⟨fun p hp _ => ?_, fun p hp _ => ?_, trivial⟩
    · rw [reapPhase_of_ttl_zero rfl]
      exact intact_of_absent fun i => by simp [State.init]
    · obtain rfl := Option.some.inj hp
      -- the first datagram is of another key
      have heff := mainStep_effect_of_ok ⟨1, 0⟩ (State.init_ok .zero .zero 0) (.deliver (d 0))
      rw [reapPhase_of_ttl_zero rfl] at heff ⊢
      refine intact_of_absent fun i hi => ?_
      have hsame := (heff.frame (k := (GradHdr.decode (d 1)).key) fun p hp => ?_).1 i
      · have hzero := hsame.1.mp hi
        simp [State.init] at hzero
      · obtain rfl := Option.some.inj hp
        decide +kernel
  exact (aggregators_agree (le_refl 0) rfl .zero .zero 0
    (.cons (hfeeds 0 (by decide +kernel) (by decide +kernel) (by decide +kernel))
      (.cons (hfeeds 1 (by decide +kernel) (by decide +kernel) (by decide +kernel)) .nil))
    (fewJobs_of_all {1} (by decide) (by decide +kernel)) hint).2.2.1

end NetSum
