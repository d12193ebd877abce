import Mathlib.Data.Fintype.Prod
import NetSum.Aggregation.Bookkeeping
import NetSum.XdpAgg.Invariants

/-!
# The books of the four maps

What holds between the maps in every reachable state, frames processed one at a time: slots have
balanced books (`GradSlot.Consistent`), a job's entry counts its slots and keeps to a constant
quota (`Maps.Capped`), every completed round is transmitted or dropped for want of a
configuration, and two counters record what was dropped (`rounds_conserved`). The counters have
64 bits, so they record it modulo `2 ^ 64` (`quotaCounter_wraps`).
-/

namespace NetSum.XdpAgg

open NetSum.Lib NetSum.Protocol NetSum.Aggregation

/-! ## What the books say -/

/-- The number of bits set in the bitmap. -/
def GradSlot.population (s : GradSlot) : ℕ :=
  (Finset.univ.filter fun x : Fin maxTrackedWorkersBitmapBytes × Fin 8 =>
    (s.seenWorker x.1).getLsbD x.2 = true).card

/-- The slot's counters are consistent, and its round is in progress. -/
structure GradSlot.Consistent (s : GradSlot) : Prop where
  count_pos : 1 ≤ s.contributionsReceived.toNat
  count_lt : s.contributionsReceived.toNat < s.numWorkersExpected.toNat
  fanIn_le : s.numWorkersExpected.toNat ≤ maxTrackedWorkers
  count_eq : s.contributionsReceived.toNat = s.population
  sum_zero : ∀ j : Fin netsumMaxChunkLen, s.chunkLen.toNat ≤ j → s.sum j = 0

def LockOutcome.isComplete : LockOutcome → Bool
  | .complete _ => true
  | _ => false

/-- A call leaves the locked section with a complete slot. -/
def completesRound (maps : Maps) (ev : XdpEvent) : Bool :=
  match parse ev.frame with
  | .error _ => false
  | .ok p =>
    match (findOrCreate (maps.withConfig ev.configMap) p).2 with
    | .error _ => false
    | .ok slot => (lockedSection slot ev.frame p).2.2.isComplete

/-- The rounds that a run completes. -/
def completedRounds : Maps → List XdpEvent → ℕ
  | _, [] => 0
  | maps, ev :: es =>
    (completesRound maps ev).toNat + completedRounds (xdpStep maps ev).1 es

/-- The calls of a run that returned `XDP_TX`. -/
def txReturns (maps : Maps) (es : List XdpEvent) : ℕ :=
  (runOut xdpStep maps es).countP fun out => out.1.action = .tx

/-- The calls of a run that took the given exit. -/
def exits (exit : Exit) (maps : Maps) (es : List XdpEvent) : ℕ :=
  (runOut xdpStep maps es).countP fun out => out.1 = exit

/-- A drop counter, `0` without an entry. -/
def dropStat (maps : Maps) (statKey : BitVec 32) : BitVec 64 :=
  (maps.dropStats.lookup statKey).getD 0

/-- `config_map` holds a configuration with quota `q`. -/
def XdpEvent.HasQuota (q : BitVec 32) (ev : XdpEvent) : Prop :=
  ∃ cfg, ev.configMap.lookup 0 = some cfg ∧ cfg.maxSlotsPerJob = q

/-- No job with an entry holds more than `q` slots. -/
def Maps.Capped (q : ℕ) (maps : Maps) : Prop :=
  ∀ jobId e, maps.jobQuotaMap.lookup jobId = some e → e.concurrentSlots.toNat ≤ q

/-! ## Slots -/

/-- The bits set are the workers seen. -/
theorem GradSlot.population_eq (s : GradSlot) :
    s.population = (Finset.univ.filter fun w => s.tally.seen w = true).card := by
  refine (Finset.card_bijective bitPos bitPos_bijective fun w => ?_).symm
  simp only [Finset.mem_filter, Finset.mem_univ, true_and, GradSlot.tally_seen]

theorem GradSlot.consistent_of_inProgress {s : GradSlot} (h : s.tally.InProgress) :
    s.Consistent where
  count_pos := h.count_pos
  count_lt := h.count_lt
  fanIn_le := h.fanIn_le
  count_eq := h.count_eq.trans s.population_eq.symm
  sum_zero := h.sum_zero

/-- Every slot has balanced books. -/
def Maps.Balanced (maps : Maps) : Prop := ∀ k T, maps.live k = some T → T.InProgress

theorem xdpStep_balanced {maps : Maps} (hok : maps.Ok) (h : maps.Balanced) (ev : XdpEvent) :
    (xdpStep maps ev).1.Balanced := by
  by_cases hcounts : Counts ev.frame
  · have hans := xdpStep_respond hok hcounts
    intro k T hk
    by_cases hkey : k = keyOf ev.frame
    · rw [hkey, hans.moves.live_eq] at hk
      exact Tally.InProgress.respond (h _) hcounts.2.chunkLen_le
        (fun hadm => (fanInOk_of_admits hadm).2) hk
    · rw [hans.moves.live_of_ne hkey] at hk
      exact h k T hk
  · obtain ⟨exit, hstep, -⟩ := xdpStep_of_not_counts maps hcounts
    rw [hstep]
    exact h

/-! ## The quota -/

theorem Maps.Capped.concurrentSlots_le {q : ℕ} {maps : Maps} (h : maps.Capped q)
    (jobId : BitVec 32) : concurrentSlots maps jobId ≤ q := by
  unfold concurrentSlots
  split
  · next e he => exact h jobId e he
  · exact Nat.zero_le q

/-- A job that has an entry after a frame of its own had its slots counted before. -/
theorem Maps.Accounted.slotCount_eq {maps maps' : Maps} (h : maps.Accounted) {k : GradSlotKey}
    {T? : Option Tally} (hmoves : Moves maps maps' k T?) {e' : JobQuotaEntry}
    (he' : maps'.jobQuotaMap.lookup k.jobId = some e') :
    slotCount maps.slotMap k.jobId = concurrentSlots maps k.jobId := by
  cases he : maps.jobQuotaMap.lookup k.jobId with
  | some e =>
    rw [concurrentSlots, he]
    exact (h.tracked _ e he).symm
  | none =>
    rw [concurrentSlots, he]
    refine (h.untracked _ he).resolve_right fun hfull => ?_
    -- the entry would have been added to a full map
    have hlt := BoundedMap.size_lt hmoves.quota.isSome he (by rw [he']; rfl)
    have hle := maps'.jobQuotaMap.size_le
    omega

/-- A key is admitted below the quota. -/
theorem concurrentSlots_lt_of_admits {maps : Maps} {q : BitVec 32} (hq : 0 < q.toNat)
    {ev : XdpEvent} (hev : ev.HasQuota q) {p : Parsed}
    (h : admits (maps.withConfig ev.configMap) p = true) :
    concurrentSlots (maps.withConfig ev.configMap) p.key.jobId < q.toNat := by
  obtain ⟨cfg, hcfg, hmax⟩ := hev
  have hmaxSlots : maxSlotsPerJob (maps.withConfig ev.configMap) = q := by
    rw [maxSlotsPerJob, show (maps.withConfig ev.configMap).configMap.lookup 0 = _ from hcfg]
    exact hmax
  simp only [admits, Bool.and_eq_true, Bool.not_eq_true', decide_eq_true_eq] at h
  have hnot := h.1.2
  rw [Bool.eq_false_iff, ne_eq, overQuota_iff, hmaxSlots] at hnot
  omega

/-- The entry of a job that got a new slot was below the quota, and no other entry grows. -/
theorem xdpStep_capped {maps : Maps} (hok : maps.Ok) (hacct : maps.Accounted) {q : BitVec 32}
    (hq : 0 < q.toNat) {ev : XdpEvent} (hev : ev.HasQuota q) (h : maps.Capped q.toNat) :
    (xdpStep maps ev).1.Capped q.toNat := by
  by_cases hcounts : Counts ev.frame
  swap
  · obtain ⟨exit, hstep, -⟩ := xdpStep_of_not_counts maps hcounts
    rw [hstep]
    exact h
  have hans := xdpStep_respond hok hcounts
  have hacct₀ : (maps.withConfig ev.configMap).Accounted := hacct.congr rfl rfl
  have hcapped₀ : (maps.withConfig ev.configMap).Capped q.toNat := h
  intro jobId e' he'
  by_cases hjob : jobId = (keyOf ev.frame).jobId
  swap
  · rw [hans.moves.quota.others jobId hjob] at he'
    exact h jobId e' he'
  subst hjob
  -- the slots of the job before: at most the quota, and below it if the key is opened
  have hle := hcapped₀.concurrentSlots_le (keyOf ev.frame).jobId
  have hcount := hans.moves.slotCount (keyOf ev.frame).jobId
  rw [if_pos rfl, if_pos rfl, hacct₀.slotCount_eq hans.moves he'] at hcount
  rw [(hans.moves.accounted hacct₀).tracked _ e' he']
  cases hT' : (respond (admits (maps.withConfig ev.configMap) (.ofPayload (payload ev.frame)))
      (payload ev.frame) (maps.live (keyOf ev.frame))).2 with
  | none =>
    rw [hT', liveCount_none] at hcount
    omega
  | some T' =>
    rw [hT', liveCount_some] at hcount
    cases hT : (maps.withConfig ev.configMap).live (keyOf ev.frame) with
    | some T =>
      rw [hT, liveCount_some] at hcount
      omega
    | none =>
      rw [hT, liveCount_none] at hcount
      rw [show maps.live (keyOf ev.frame) = none from hT] at hT'
      have hlt := concurrentSlots_lt_of_admits hq hev (mayOpen_of_respond hT')
      have hlt' : concurrentSlots (maps.withConfig ev.configMap) (keyOf ev.frame).jobId < q.toNat :=
        hlt
      omega

/-! ## The drop counters -/

/-- `drop_stats` has the program's two counters at most. -/
def StatsOk (m : BoundedMap (BitVec 32) (BitVec 64) 4) : Prop :=
  ∀ k, (m.lookup k).isSome →
    k ∈ ({statDroppedNoConfig, statDroppedFairnessQuota} : Finset (BitVec 32))

theorem lookup_bumpStat {m : BoundedMap (BitVec 32) (BitVec 64) 4} (hm : StatsOk m)
    (statKey k : BitVec 32) :
    (bumpStat m statKey).lookup k
      = if k = statKey then some ((m.lookup statKey).getD 0 + 1) else m.lookup k := by
  unfold bumpStat
  split
  · next v hv =>
    rw [BoundedMap.lookup_modify, hv]
    rfl
  · next hnone =>
    have hsize : m.size < 4 := (BoundedMap.size_le_card m _ hm).trans_lt (by decide)
    rw [bpfMapUpdateElem_any_of_room hnone hsize, BoundedMap.lookup_insert, hnone]
    rfl

/-- The counters after a call, by its exit. -/
def statsAfter (exit : Exit) (m : BoundedMap (BitVec 32) (BitVec 64) 4) :
    BoundedMap (BitVec 32) (BitVec 64) 4 :=
  match exit with
  | .overQuota => bumpStat m statDroppedFairnessQuota
  | .noConfig => bumpStat m statDroppedNoConfig
  | _ => m

/-- The checks take none of the exits that count. -/
theorem parse_error {frame : Bytes} {exit : Exit} (h : parse frame = .error exit) :
    exit ≠ .overQuota ∧ exit ≠ .noConfig ∧ exit ≠ .complete := by
  by_cases hg : IsGradient frame
  · rw [parse_of_isGradient hg] at h
    split at h
    · cases h
      exact ⟨nofun, nofun, nofun⟩
    split at h
    · cases h
      exact ⟨nofun, nofun, nofun⟩
    split at h
    · cases h
      exact ⟨nofun, nofun, nofun⟩
    · cases h
  · obtain ⟨exit', hparse, haction⟩ := parse_of_not_isGradient hg
    rw [hparse] at h
    obtain rfl := Except.error.inj h
    refine ⟨?_, ?_, ?_⟩
    all_goals rintro rfl; cases haction

/-- A slot is found without counting; without one, a refusal for the quota is counted. -/
theorem findOrCreate_stats (maps : Maps) (p : Parsed) :
    match findOrCreate maps p with
    | (maps', .error exit) => maps'.dropStats = statsAfter exit maps.dropStats
      ∧ exit ≠ .noConfig ∧ exit ≠ .complete
    | (maps', .ok _) => maps'.dropStats = maps.dropStats := by
  cases hk : maps.slotMap.lookup p.key with
  | some slot =>
    simp only [findOrCreate, hk]
  | none =>
    simp only [findOrCreate, hk]
    by_cases hfan : p.numWorkers.toNat = 0 ∨ p.numWorkers.toNat > maxTrackedWorkersBitmapBytes * 8
    · rw [if_pos hfan]
      exact ⟨rfl, by decide, by decide⟩
    rw [if_neg hfan]
    cases hquota : overQuota maps p.key.jobId with
    | true => exact ⟨rfl, by decide, by decide⟩
    | false =>
      by_cases hroom : maps.slotMap.size < slotMapEntries
      · simp only [Bool.false_eq_true, if_false, bpfMapUpdateElem_of_room hk hroom,
          BoundedMap.lookup_insert, if_true]
      · simp only [Bool.false_eq_true, if_false, bpfMapUpdateElem_of_full hk hroom, hk]
        exact ⟨rfl, by decide, by decide⟩

/-- After the lock, a completed round that cannot be sent is counted. -/
theorem aggregate_stats (maps : Maps) (p : Parsed) (slot : GradSlot) (frame : Bytes) :
    (aggregate maps p slot frame).1.dropStats
        = statsAfter (aggregate maps p slot frame).2.1 maps.dropStats
      ∧ ((lockedSection slot frame p).2.2.isComplete = true
        ↔ (aggregate maps p slot frame).2.1 = .noConfig
          ∨ (aggregate maps p slot frame).2.1 = .complete) := by
  unfold aggregate
  rcases lockedSection slot frame p with ⟨s, out, outcome⟩
  cases outcome with
  | mismatch => exact ⟨rfl, by simp [LockOutcome.isComplete]⟩
  | duplicate => exact ⟨rfl, by simp [LockOutcome.isComplete]⟩
  | absorbed => exact ⟨rfl, by simp [LockOutcome.isComplete]⟩
  | complete finalChunkLen =>
    cases hcfg : maps.configMap.lookup 0 with
    | none =>
      simp only [finish, hcfg]
      exact ⟨rfl, by simp [LockOutcome.isComplete]⟩
    | some cfg =>
      simp only [finish, hcfg]
      exact ⟨rfl, by simp [LockOutcome.isComplete]⟩

/-- **What a call counts**, and that it completes a round exactly when it takes one of the two
exits behind the teardown. -/
theorem xdpStep_stats (maps : Maps) (ev : XdpEvent) :
    (xdpStep maps ev).1.dropStats = statsAfter (xdpStep maps ev).2.1 maps.dropStats
      ∧ (completesRound maps ev = true
        ↔ (xdpStep maps ev).2.1 = .noConfig ∨ (xdpStep maps ev).2.1 = .complete) := by
  change (netsumXdpAggregate (maps.withConfig ev.configMap) ev.frame).1.dropStats
      = statsAfter (netsumXdpAggregate (maps.withConfig ev.configMap) ev.frame).2.1
        (maps.withConfig ev.configMap).dropStats
    ∧ (_ ↔ (netsumXdpAggregate (maps.withConfig ev.configMap) ev.frame).2.1 = .noConfig
      ∨ (netsumXdpAggregate (maps.withConfig ev.configMap) ev.frame).2.1 = .complete)
  unfold netsumXdpAggregate completesRound
  cases hparse : parse ev.frame with
  | error exit =>
    obtain ⟨h1, h2, h3⟩ := parse_error hparse
    refine ⟨?_, by simp [h2, h3]⟩
    cases exit with
    | overQuota => exact absurd rfl h1
    | noConfig => exact absurd rfl h2
    | _ => rfl
  | ok p =>
    -- the lookup counts a refusal only, the rest a missing configuration only
    have hfind := findOrCreate_stats (maps.withConfig ev.configMap) p
    dsimp only
    generalize findOrCreate (maps.withConfig ev.configMap) p = found at hfind ⊢
    rcases found with ⟨maps', exit | slot⟩
    · obtain ⟨hstats, h2, h3⟩ := hfind
      exact ⟨hstats, by simp [h2, h3]⟩
    · obtain ⟨hstats, hcomplete⟩ := aggregate_stats maps' p slot ev.frame
      have hfind' : maps'.dropStats = (maps.withConfig ev.configMap).dropStats := hfind
      rw [hfind'] at hstats
      exact ⟨hstats, hcomplete⟩

theorem statsOk_empty : StatsOk Maps.empty.dropStats := fun k h => by simp [Maps.empty] at h

theorem statsOk_after {m : BoundedMap (BitVec 32) (BitVec 64) 4} (hm : StatsOk m) (exit : Exit) :
    StatsOk (statsAfter exit m) := by
  have hbump : ∀ statKey ∈ ({statDroppedNoConfig, statDroppedFairnessQuota} : Finset (BitVec 32)),
      StatsOk (bumpStat m statKey) := by
    intro statKey hmem k hk
    rw [lookup_bumpStat hm] at hk
    split at hk
    · next heq => exact heq ▸ hmem
    · exact hm k hk
  cases exit with
  | overQuota => exact hbump _ (by decide)
  | noConfig => exact hbump _ (by decide)
  | _ => exact hm

/-- Which calls a counter counts. -/
theorem getD_statsAfter {m : BoundedMap (BitVec 32) (BitVec 64) 4} (hm : StatsOk m)
    (exit : Exit) :
    ((statsAfter exit m).lookup statDroppedNoConfig).getD 0
        = (m.lookup statDroppedNoConfig).getD 0 + (if exit = .noConfig then 1 else 0)
      ∧ ((statsAfter exit m).lookup statDroppedFairnessQuota).getD 0
        = (m.lookup statDroppedFairnessQuota).getD 0 + if exit = .overQuota then 1 else 0 := by
  cases exit with
  | overQuota =>
    simp only [statsAfter, lookup_bumpStat hm]
    exact ⟨(BitVec.add_zero _).symm, rfl⟩
  | noConfig =>
    simp only [statsAfter, lookup_bumpStat hm]
    exact ⟨rfl, (BitVec.add_zero _).symm⟩
  | _ => exact ⟨(BitVec.add_zero _).symm, (BitVec.add_zero _).symm⟩

theorem xdpStep_statsOk {maps : Maps} (h : StatsOk maps.dropStats) (ev : XdpEvent) :
    StatsOk (xdpStep maps ev).1.dropStats := by
  rw [(xdpStep_stats maps ev).1]
  exact statsOk_after h _

theorem exits_cons (exit : Exit) (maps : Maps) (ev : XdpEvent) (es : List XdpEvent) :
    exits exit maps (ev :: es)
      = exits exit (xdpStep maps ev).1 es + if (xdpStep maps ev).2.1 = exit then 1 else 0 := by
  rw [exits, runOut_cons, List.countP_cons]
  simp only [decide_eq_true_eq]
  rfl

/-- One more call, in the arithmetic of a counter. -/
theorem add_ofNat_succ (c : BitVec 64) (n : ℕ) (p : Prop) [Decidable p] :
    c + (if p then 1 else 0) + BitVec.ofNat 64 n = c + BitVec.ofNat 64 (n + if p then 1 else 0) := by
  split
  · rw [BitVec.ofNat_add, BitVec.add_assoc, BitVec.add_comm 1]
    rfl
  · show c + 0#64 + _ = _
    rw [BitVec.add_zero]
    rfl

/-- The counters after a run have grown by the calls they count. -/
theorem dropStat_run {maps : Maps} (h : StatsOk maps.dropStats) (es : List XdpEvent) :
    dropStat (runState xdpStep maps es) statDroppedNoConfig
        = dropStat maps statDroppedNoConfig + BitVec.ofNat 64 (exits .noConfig maps es)
      ∧ dropStat (runState xdpStep maps es) statDroppedFairnessQuota
        = dropStat maps statDroppedFairnessQuota
          + BitVec.ofNat 64 (exits .overQuota maps es) := by
  induction es generalizing maps with
  | nil => exact ⟨(BitVec.add_zero _).symm, (BitVec.add_zero _).symm⟩
  | cons ev es ih =>
    obtain ⟨hcfg, hquota⟩ := ih (xdpStep_statsOk h ev)
    obtain ⟨hcfg', hquota'⟩ := getD_statsAfter h (xdpStep maps ev).2.1
    rw [← (xdpStep_stats maps ev).1] at hcfg' hquota'
    rw [runState_cons, exits_cons, exits_cons, ← add_ofNat_succ, ← add_ofNat_succ]
    exact ⟨hcfg.trans (congrArg (· + _) hcfg'), hquota.trans (congrArg (· + _) hquota')⟩

/-- Only the last exit transmits. -/
theorem txReturns_eq (maps : Maps) (es : List XdpEvent) :
    txReturns maps es = exits .complete maps es := by
  have htx : ∀ exit : Exit, exit.action = .tx ↔ exit = .complete := by
    intro exit
    cases exit <;> decide
  refine List.countP_congr fun out _ => ?_
  rw [decide_eq_true_iff, decide_eq_true_iff]
  exact htx out.1

/-- Every completed round is transmitted, or dropped for want of a configuration. -/
theorem completedRounds_eq (maps : Maps) (es : List XdpEvent) :
    completedRounds maps es = txReturns maps es + exits .noConfig maps es := by
  rw [txReturns_eq]
  induction es generalizing maps with
  | nil => rfl
  | cons ev es ih =>
    have hcomplete := (xdpStep_stats maps ev).2
    rw [completedRounds, ih, exits_cons, exits_cons]
    generalize (xdpStep maps ev).2.1 = exit at hcomplete ⊢
    -- a round that completes leaves by one of the two exits
    cases hc : completesRound maps ev with
    | true =>
      rcases hcomplete.mp hc with rfl | rfl
      · rw [if_neg nofun, if_pos rfl]
        show 1 + _ = _
        omega
      · rw [if_pos rfl, if_neg nofun]
        show 1 + _ = _
        omega
    | false =>
      rw [hc] at hcomplete
      have htx : exit ≠ .complete := fun h => nomatch hcomplete.mpr (.inr h)
      have hcfg : exit ≠ .noConfig := fun h => nomatch hcomplete.mpr (.inl h)
      rw [if_neg htx, if_neg hcfg]
      exact Nat.zero_add _

/-! ## Runs -/

theorem capped_run {q : BitVec 32} (hq : 0 < q.toNat) {es : List XdpEvent}
    (hes : ∀ ev ∈ es, ev.HasQuota q) : (runState xdpStep Maps.empty es).Capped q.toNat := by
  have hmeet : StepsMeet xdpStep (fun _ ev => ev.HasQuota q) Maps.empty es :=
    stepsMeet_iff.mpr fun _ ev he => hes ev (List.mem_of_getElem? he)
  exact (runState_invariant (fun maps : Maps => maps.Ok ∧ maps.Accounted ∧ maps.Capped q.toNat)
    (fun _ ev hev ⟨hok, hacct, hcap⟩ => ⟨xdpStep_ok hok ev, xdpStep_accounted hok hacct ev,
      xdpStep_capped hok hacct hq hev hcap⟩)
    ⟨ok_empty, accounted_empty, fun jobId e he => by simp [Maps.empty] at he⟩ hmeet).2.2

/-- **The books of the four maps**, after every run. -/
theorem rounds_conserved (es : List XdpEvent) :
    let maps := runState xdpStep Maps.empty es
    (∀ k s, maps.slotMap.lookup k = some s → s.Consistent)
    ∧ (∀ jobId e, maps.jobQuotaMap.lookup jobId = some e →
      e.concurrentSlots.toNat = slotCount maps.slotMap jobId)
    ∧ (∀ q : BitVec 32, 0 < q.toNat → (∀ ev ∈ es, ev.HasQuota q) → maps.Capped q.toNat)
    ∧ completedRounds Maps.empty es = txReturns Maps.empty es + exits .noConfig Maps.empty es
    ∧ (dropStat maps statDroppedNoConfig).toNat = exits .noConfig Maps.empty es % 2 ^ 64
    ∧ (dropStat maps statDroppedFairnessQuota).toNat
      = exits .overQuota Maps.empty es % 2 ^ 64 := by
  intro maps
  have hbal : maps.Balanced :=
    (runState_invariant_of_forall (fun maps : Maps => maps.Ok ∧ maps.Balanced)
      (fun _ ev h => ⟨xdpStep_ok h.1 ev, xdpStep_balanced h.1 h.2 ev⟩) es
      ⟨ok_empty, fun k T h => by simp [Maps.live, Maps.empty] at h⟩).2
  -- the counters start at zero and wrap
  obtain ⟨hcfg, hquota⟩ := dropStat_run statsOk_empty es
  have hzero : ∀ k, dropStat Maps.empty k = 0#64 := fun k => by simp [dropStat, Maps.empty]
  rw [hzero, BitVec.zero_add] at hcfg hquota
  refine ⟨fun k s hs => ?_, (accounted_run ok_empty accounted_empty es).tracked,
    fun q hq hes => capped_run hq hes, completedRounds_eq _ es, ?_, ?_⟩
  · exact GradSlot.consistent_of_inProgress (hbal k _ (live_of_lookup hs))
  · show (dropStat (runState xdpStep Maps.empty es) _).toNat = _
    rw [hcfg, BitVec.toNat_ofNat]
  · show (dropStat (runState xdpStep Maps.empty es) _).toNat = _
    rw [hquota, BitVec.toNat_ofNat]

/-! ## A counter wraps -/

/-- One slot a job. -/
def oneSlot : NetsumConfig := ⟨fun _ => 0, 0, 0, 1⟩

/-- The job's only slot, waiting for a second worker. -/
def firstSlot : XdpEvent :=
  ⟨configured oneSlot, frameWith (workerPacket ⟨1, 0, 0, 0, 2, 0, 0⟩ fun _ => 0)⟩

/-- A frame that asks for a second slot. -/
def secondSlot : XdpEvent :=
  ⟨configured oneSlot, frameWith (workerPacket ⟨1, 1, 0, 0, 2, 0, 0⟩ fun _ => 0)⟩

theorem rounds_conserved_first : (runState xdpStep Maps.empty [firstSlot, secondSlot]).Capped 1 :=
  (rounds_conserved [firstSlot, secondSlot]).2.2.1 1 (by decide) fun ev hev => by
    have hcfg : ev.configMap = configured oneSlot := by
      rcases List.mem_pair.mp hev with rfl | rfl <;> rfl
    exact ⟨oneSlot, hcfg ▸ lookup_configured oneSlot, rfl⟩

/-- The job is at its quota, and `secondSlot` finds no slot. -/
structure Maps.AtQuota (maps : Maps) : Prop where
  absent : maps.slotMap.lookup ⟨1, 1, 0⟩ = none
  entry : maps.jobQuotaMap.lookup 1 = some ⟨1⟩

/-- A refusal is counted and changes nothing else. -/
theorem Maps.AtQuota.refused {maps : Maps} (h : maps.AtQuota) :
    (xdpStep maps secondSlot).1.AtQuota ∧ (xdpStep maps secondSlot).2.1 = .overQuota := by
  have hparse : parse secondSlot.frame = .ok (.ofPayload (payload secondSlot.frame)) :=
    parse_of_sound (by decide +kernel) (by decide +kernel)
  have hmax : maxSlotsPerJob (maps.withConfig (configured oneSlot)) = 1 := by
    rw [maxSlotsPerJob, show (maps.withConfig (configured oneSlot)).configMap.lookup 0 = _
      from lookup_configured oneSlot]
    rfl
  have hquota : overQuota (maps.withConfig (configured oneSlot))
      (Parsed.ofPayload (payload secondSlot.frame)).key.jobId = true := by
    rw [show (Parsed.ofPayload (payload secondSlot.frame)).key.jobId = 1 by decide +kernel,
      overQuota, hmax, show (maps.withConfig (configured oneSlot)).jobQuotaMap.lookup 1 = _
      from h.entry]
    decide
  -- the quota is asked before a slot is made
  have hfind : findOrCreate (maps.withConfig (configured oneSlot))
      (.ofPayload (payload secondSlot.frame))
      = ({ maps.withConfig (configured oneSlot) with
          dropStats := bumpStat maps.dropStats statDroppedFairnessQuota }, .error .overQuota) := by
    have habsent : (maps.withConfig (configured oneSlot)).slotMap.lookup
        (Parsed.ofPayload (payload secondSlot.frame)).key = none := h.absent
    simp only [findOrCreate, habsent]
    rw [if_neg (by decide +kernel), if_pos hquota]
    rfl
  have hstep : xdpStep maps secondSlot
      = ({ maps.withConfig (configured oneSlot) with
          dropStats := bumpStat maps.dropStats statDroppedFairnessQuota }, .overQuota,
        secondSlot.frame) := by
    show netsumXdpAggregate (maps.withConfig (configured oneSlot)) secondSlot.frame = _
    rw [netsumXdpAggregate, hparse]
    simp only [hfind]
  rw [hstep]
  exact ⟨⟨h.absent, h.entry⟩, rfl⟩

theorem Maps.AtQuota.exits_replicate {maps : Maps} (h : maps.AtQuota) (n : ℕ) :
    exits .overQuota maps (List.replicate n secondSlot) = n := by
  induction n generalizing maps with
  | zero => rfl
  | succ n ih =>
    obtain ⟨h', hexit⟩ := h.refused
    rw [List.replicate_succ, exits_cons, ih h', if_pos hexit]

/-- After `2 ^ 64` refusals the counter of refusals is back at zero. -/
theorem quotaCounter_wraps :
    let es := firstSlot :: List.replicate (2 ^ 64) secondSlot
    exits .overQuota Maps.empty es = 2 ^ 64
      ∧ dropStat (runState xdpStep Maps.empty es) statDroppedFairnessQuota = 0 := by
  intro es
  have hfirst : (xdpStep Maps.empty firstSlot).1.AtQuota :=
    ⟨by decide +kernel, by decide +kernel⟩
  have hexits : exits .overQuota Maps.empty es = 2 ^ 64 := by
    rw [exits_cons, hfirst.exits_replicate, if_neg (by decide +kernel)]
    rfl
  have hstats := (dropStat_run statsOk_empty es).2
  rw [hexits] at hstats
  exact ⟨hexits, hstats⟩

end NetSum.XdpAgg
