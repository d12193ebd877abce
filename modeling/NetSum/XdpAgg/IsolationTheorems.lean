import NetSum.XdpAgg.KeyTheorems

/-!
# Isolation of jobs in the XDP program

What a job sees of the program: the return codes of its gradient frames, and the frames
transmitted for it. Every branch taken for the job reads its own slots and its own entry of
`job_quota_map`, so two states with the same slots of the job (`SameView`) answer its frames
alike, and frames of other jobs leave them alone (`job_isolation`).
-/

namespace NetSum.XdpAgg

open NetSum.Lib NetSum.Protocol NetSum.Aggregation

/-! ## The traffic of a job -/

/-- The gradient frame of the job that a call is for. -/
def XdpEvent.ofJob (jobId : BitVec 32) (ev : XdpEvent) : Option Bytes :=
  if IsGradient ev.frame ∧ (keyOf ev.frame).jobId = jobId then some ev.frame else none

/-- The frame of the job that a call transmitted. -/
def transmittedFor (jobId : BitVec 32) (out : Exit × Bytes) : Option Bytes :=
  (transmitted out).filter fun frame => (keyOf frame).jobId = jobId

theorem XdpEvent.ofJob_eq_some {jobId : BitVec 32} {ev : XdpEvent} {frame : Bytes} :
    ev.ofJob jobId = some frame
      ↔ ev.frame = frame ∧ IsGradient frame ∧ (keyOf frame).jobId = jobId := by
  unfold XdpEvent.ofJob
  split
  · next h =>
    rw [Option.some.injEq]
    exact ⟨fun he => ⟨he, he ▸ h⟩, fun he => he.1⟩
  · next h =>
    refine ⟨fun hnone => absurd hnone.symm (Option.some_ne_none _), ?_⟩
    rintro ⟨rfl, hframe⟩
    exact absurd hframe h

theorem XdpEvent.ofJob_eq_none {jobId : BitVec 32} {ev : XdpEvent} :
    ev.ofJob jobId = none ↔ (IsGradient ev.frame → (keyOf ev.frame).jobId ≠ jobId) := by
  unfold XdpEvent.ofJob
  split
  · next h => exact ⟨nofun, fun hne => absurd h.2 (hne h.1)⟩
  · next h => exact ⟨fun _ hg hj => h ⟨hg, hj⟩, fun _ => rfl⟩

/-! ## What a job sees -/

/-- The answers that show alike: one return code, and one frame if it is transmitted. -/
theorem Shown.unique {cfg? : Option NetsumConfig} {frame : Bytes} {a : Answer Tally}
    {exit exit' : Exit} {out out' : Bytes} (h : Shown cfg? frame a exit out)
    (h' : Shown cfg? frame a exit' out') :
    exit.action = exit'.action ∧ transmitted (exit, out) = transmitted (exit', out') := by
  cases a with
  | refused =>
    cases h with
    | refused hexit =>
      cases h' with
      | refused hexit' =>
        rcases hexit with rfl | rfl | rfl <;> rcases hexit' with rfl | rfl | rfl <;> exact ⟨rfl, rfl⟩
  | mismatch => cases h; cases h'; exact ⟨rfl, rfl⟩
  | duplicate => cases h; cases h'; exact ⟨rfl, rfl⟩
  | absorbed => cases h; cases h'; exact ⟨rfl, rfl⟩
  | complete T =>
    rcases h.complete_cases with ⟨hcfg, rfl⟩ | ⟨cfg, s, hcfg, hs, rfl, rfl⟩
    · rcases h'.complete_cases with ⟨-, rfl⟩ | ⟨cfg', s', hcfg', -⟩
      · exact ⟨rfl, rfl⟩
      · rw [hcfg] at hcfg'
        cases hcfg'
    · rcases h'.complete_cases with ⟨hcfg', -⟩ | ⟨cfg', s', hcfg', hs', rfl, rfl⟩
      · rw [hcfg] at hcfg'
        cases hcfg'
      · -- the frame depends on the tally alone
        obtain rfl : cfg = cfg' := Option.some.inj (hcfg.symm.trans hcfg')
        have hchunk : s.chunkLen = s'.chunkLen :=
          BitVec.eq_of_toNat_eq (congrArg Tally.chunkLen (hs.trans hs'.symm))
        have hsum : s.sum = s'.sum := congrArg Tally.sum (hs.trans hs'.symm)
        rw [writeBack, writeBack, hchunk, hsum]
        exact ⟨rfl, rfl⟩

/-- The two states have the same slots of the job. -/
structure SameView (jobId : BitVec 32) (maps maps' : Maps) : Prop where
  live_eq : ∀ k, k.jobId = jobId → maps.live k = maps'.live k
  slotCount_eq : slotCount maps.slotMap jobId = slotCount maps'.slotMap jobId

theorem SameView.symm {jobId : BitVec 32} {maps maps' : Maps} (h : SameView jobId maps maps') :
    SameView jobId maps' maps :=
  ⟨fun k hk => (h.live_eq k hk).symm, h.slotCount_eq.symm⟩

/-- What holds in the states of a run with room in the slot map and few jobs. -/
structure Tame (configMap : BoundedMap (BitVec 32) NetsumConfig 1) (maps : Maps) (ev : XdpEvent) :
    Prop where
  ok : maps.Ok
  room : maps.slotMap.size < slotMapEntries
  concurrentSlots_eq : ∀ jobId, concurrentSlots maps jobId = slotCount maps.slotMap jobId
  configMap_eq : ev.configMap = configMap

/-- A frame that is not the job's leaves its slots alone. -/
theorem SameView.hidden {jobId : BitVec 32} {maps maps' : Maps} (h : SameView jobId maps maps')
    {ev : XdpEvent} (hev : ev.ofJob jobId = none) (hok : maps.Ok) :
    SameView jobId (xdpStep maps ev).1 maps' := by
  by_cases hcounts : Counts ev.frame
  · have hjob := XdpEvent.ofJob_eq_none.mp hev hcounts.1
    have hmoves := (xdpStep_respond hok hcounts).moves
    refine ⟨fun k hk => ?_, ?_⟩
    · rw [hmoves.live_of_ne fun hkey => hjob (hkey ▸ hk)]
      exact h.live_eq k hk
    · have hcount := hmoves.slotCount jobId
      rw [if_neg hjob, if_neg hjob, Nat.add_zero, Nat.add_zero] at hcount
      exact hcount.trans h.slotCount_eq
  · obtain ⟨exit, hstep, -⟩ := xdpStep_of_not_counts maps hcounts
    rw [hstep]
    exact ⟨h.live_eq, h.slotCount_eq⟩

/-- Two calls on the same frame of the job, in states with the same slots of it, answer alike. -/
theorem SameView.shown {jobId : BitVec 32} {maps maps' : Maps} (h : SameView jobId maps maps')
    {configMap : BoundedMap (BitVec 32) NetsumConfig 1} {ev ev' : XdpEvent}
    (ht : Tame configMap maps ev) (ht' : Tame configMap maps' ev') {frame : Bytes}
    (hev : ev.ofJob jobId = some frame) (hev' : ev'.ofJob jobId = some frame) :
    SameView jobId (xdpStep maps ev).1 (xdpStep maps' ev').1
      ∧ (xdpStep maps ev).2.1.action = (xdpStep maps' ev').2.1.action
      ∧ transmitted (xdpStep maps ev).2 = transmitted (xdpStep maps' ev').2 := by
  obtain ⟨rfl, hg, rfl⟩ := XdpEvent.ofJob_eq_some.mp hev
  obtain ⟨hframe, -, -⟩ := XdpEvent.ofJob_eq_some.mp hev'
  have hconfig : ev'.configMap = ev.configMap := ht'.configMap_eq.trans ht.configMap_eq.symm
  obtain rfl : ev' = ev := by
    cases ev
    cases ev'
    simp only at hframe hconfig
    rw [hframe, hconfig]
  by_cases hs : Sound (payload ev'.frame)
  · have hcounts : Counts ev'.frame := ⟨hg, hs⟩
    have hans := xdpStep_respond ht.ok hcounts
    have hans' := xdpStep_respond ht'.ok hcounts
    have hlive := h.live_eq (keyOf ev'.frame) rfl
    -- the quota goes by the count of the job, which is the number of its slots
    have hadm : admits (maps.withConfig ev'.configMap) (.ofPayload (payload ev'.frame))
        = admits (maps'.withConfig ev'.configMap) (.ofPayload (payload ev'.frame)) := by
      refine admits_congr rfl ?_ ht.room ht'.room
      exact (ht.concurrentSlots_eq _).trans (h.slotCount_eq.trans (ht'.concurrentSlots_eq _).symm)
    rw [hadm, hlive] at hans
    obtain ⟨haction, hsent⟩ := hans.shown.unique hans'.shown
    refine ⟨⟨fun k hk => ?_, ?_⟩, haction, hsent⟩
    · by_cases hkey : k = keyOf ev'.frame
      · rw [hkey, hans.moves.live_eq, hans'.moves.live_eq]
      · rw [hans.moves.live_of_ne hkey, hans'.moves.live_of_ne hkey]
        exact h.live_eq k hk
    · have hcount := hans.moves.slotCount (keyOf ev'.frame).jobId
      have hcount' := hans'.moves.slotCount (keyOf ev'.frame).jobId
      have hslots : slotCount maps.slotMap _ = slotCount maps'.slotMap _ := h.slotCount_eq
      rw [if_pos rfl, if_pos rfl] at hcount hcount'
      rw [show (maps.withConfig ev'.configMap).live _ = _ from hlive] at hcount
      exact Nat.add_right_cancel (hcount.trans ((congrArg (· + _) hslots).trans hcount'.symm))
  · have hcounts : ¬ Counts ev'.frame := fun h => hs h.2
    obtain ⟨exit, hstep, haction⟩ := xdpStep_of_not_counts maps hcounts
    obtain ⟨exit', hstep', haction'⟩ := xdpStep_of_not_counts maps' hcounts
    rw [hstep, hstep']
    rw [if_pos hg] at haction haction'
    refine ⟨⟨h.live_eq, h.slotCount_eq⟩, haction.trans haction'.symm, ?_⟩
    simp only [transmitted, haction, haction']

/-! ## Two runs -/

/-- In a run with few jobs and room in the slot map, every step is tame. -/
theorem tame_of_run {configMap : BoundedMap (BitVec 32) NetsumConfig 1} {es : List XdpEvent}
    (hconfig : ∀ ev ∈ es, ev.configMap = configMap) (hjobs : FewJobs es)
    (hroom : StepsMeet xdpStep (fun maps _ => maps.slotMap.size < slotMapEntries) Maps.empty es) :
    StepsMeet xdpStep (Tame configMap) Maps.empty es := by
  obtain ⟨S, hcard, hS⟩ := hjobs
  have hmem : ∀ {T ev}, es[T]? = some ev → ev ∈ es := List.mem_of_getElem?
  rw [stepsMeet_iff] at hroom ⊢
  intro T ev he
  obtain ⟨hok, hacct, hjobs⟩ := jobsIn_stateAt hS T
  exact ⟨hok, hroom T ev he, hjobs.concurrentSlots_eq hcard hacct, hconfig ev (hmem he)⟩

/-- The frames transmitted for the job are answers to its own. -/
theorem transmittedFor_eq_observed {configMap : BoundedMap (BitVec 32) NetsumConfig 1}
    {jobId : BitVec 32} {es : List XdpEvent}
    (ht : StepsMeet xdpStep (Tame configMap) Maps.empty es) :
    (runOut xdpStep Maps.empty es).filterMap (transmittedFor jobId)
      = (observed xdpStep (XdpEvent.ofJob jobId)
          (fun out => (out.1.action, transmitted out)) Maps.empty es).filterMap
        fun x => x.2.filter fun frame => (keyOf frame).jobId = jobId := by
  have hquiet : StepsMeet xdpStep (fun maps ev => ev.ofJob jobId = none →
      transmittedFor jobId (xdpStep maps ev).2 = none) Maps.empty es := by
    refine ht.mono fun maps ev htame hev => ?_
    rw [transmittedFor, Option.filter_eq_none_iff]
    intro p hp
    have hcounts : Counts ev.frame := by
      by_contra hno
      rw [transmitted_of_not_counts maps hno] at hp
      cases hp
    -- a frame is transmitted under the key of the one received
    have hkey := (xdpStep_respond htame.ok hcounts).shown.keyOf_eq hcounts
      (fun T => chunkLen_of_complete) hp
    simpa [hkey] using XdpEvent.ofJob_eq_none.mp hev hcounts.1
  have hmap := observed_map xdpStep (XdpEvent.ofJob jobId) id
    (fun out : Exit × Bytes => (out.1.action, transmitted out)) Maps.empty es
  simp only [id_eq] at hmap
  rw [filterMap_runOut hquiet, hmap, List.filterMap_map]
  rfl

/-- **Isolation.** Under one configuration, take two runs that agree on the gradient frames of
a job, in which the slot map keeps room and at most 256 jobs appear. The job's frames get the
same return codes and the same frames are transmitted for it, whatever the other frames are. -/
theorem job_isolation (configMap : BoundedMap (BitVec 32) NetsumConfig 1) {jobId : BitVec 32}
    {es es' : List XdpEvent}
    (hconfig : ∀ ev ∈ es, ev.configMap = configMap) (hconfig' : ∀ ev ∈ es', ev.configMap = configMap)
    (hsame : es.filterMap (XdpEvent.ofJob jobId) = es'.filterMap (XdpEvent.ofJob jobId))
    (hjobs : FewJobs es) (hjobs' : FewJobs es')
    (hroom : StepsMeet xdpStep (fun maps _ => maps.slotMap.size < slotMapEntries) Maps.empty es)
    (hroom' : StepsMeet xdpStep (fun maps _ => maps.slotMap.size < slotMapEntries) Maps.empty es') :
    observed xdpStep (XdpEvent.ofJob jobId) (fun out => out.1.action) Maps.empty es
      = observed xdpStep (XdpEvent.ofJob jobId) (fun out => out.1.action) Maps.empty es'
    ∧ (runOut xdpStep Maps.empty es).filterMap (transmittedFor jobId)
      = (runOut xdpStep Maps.empty es').filterMap (transmittedFor jobId) := by
  have ht := tame_of_run hconfig hjobs hroom
  have ht' := tame_of_run hconfig' hjobs' hroom'
  have hobs : observed xdpStep (XdpEvent.ofJob jobId)
        (fun out => (out.1.action, transmitted out)) Maps.empty es
      = observed xdpStep (XdpEvent.ofJob jobId)
        (fun out => (out.1.action, transmitted out)) Maps.empty es' := by
    refine run_unwinding (P := Tame configMap) (SameView jobId) (fun _ _ => SameView.symm) ?_ ?_
      ⟨fun _ _ => rfl, rfl⟩ hsame ht ht'
    · intro maps maps' ev hev htame h
      exact h.hidden hev htame.ok
    · intro maps maps' ev ev' frame hev hev' htame htame' h
      obtain ⟨hview, haction, hsent⟩ := h.shown htame htame' hev hev'
      exact ⟨hview, by rw [haction, hsent]⟩
  refine ⟨?_, ?_⟩
  · have haction := congrArg (List.map Prod.fst) hobs
    rwa [← observed_map, ← observed_map] at haction
  · rw [transmittedFor_eq_observed ht, transmittedFor_eq_observed ht', hobs]

/-- Under a quota of one slot job 2 completes a round and waits with another, alone or among frames
of job 1, which does the same. -/
theorem mixed_frames_isolated :
    let configMap := configured ⟨fun _ => 0xaa, 0x0200000a, 0x9526, 1⟩
    let event := fun (job round : BitVec 32) (worker : BitVec 16) =>
      XdpEvent.mk configMap (wholeFrame (workerPacket ⟨job, round, 0, worker, 2, 1, 0⟩ fun _ => 5))
    let es := [event 2 0 0, event 2 1 0, event 2 0 1]
    let es' := [event 1 0 0, event 2 0 0, event 1 1 0, event 2 1 0, event 1 0 1, event 2 0 1]
    observed xdpStep (XdpEvent.ofJob 2) (fun out => out.1.action) Maps.empty es
      = observed xdpStep (XdpEvent.ofJob 2) (fun out => out.1.action) Maps.empty es'
    ∧ (runOut xdpStep Maps.empty es).filterMap (transmittedFor 2)
      = (runOut xdpStep Maps.empty es').filterMap (transmittedFor 2) :=
  job_isolation (configured ⟨fun _ => 0xaa, 0x0200000a, 0x9526, 1⟩) (by simp) (by simp)
    (by decide +kernel) ⟨{2}, by decide, by decide +kernel⟩ ⟨{1, 2}, by decide, by decide +kernel⟩
    (by decide +kernel) (by decide +kernel)

end NetSum.XdpAgg
