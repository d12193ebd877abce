import NetSum.XdpAgg.Invariants

/-!
# The XDP program refines an abstract aggregator

The abstract aggregator keeps, for each live key, the round itself (fan-in, chunk length and the
list of contributions) and, for each job, the number of its live keys. The program keeps bitmaps,
counters and running sums in two maps. `Represents` relates the two; one step keeps it and
returns what the abstract aggregator rules (`Represents.step`), so every run does
(`refines_aggregator`).
-/

namespace NetSum.XdpAgg

open NetSum.Lib NetSum.Protocol NetSum.Aggregation

/-! ## The abstract aggregator -/

/-- What becomes of a frame: a completed round is transmitted. -/
inductive Ruling where
  | pass
  | drop
  | tx (r : Round)

def Ruling.action : Ruling → XdpAction
  | pass => .pass
  | drop => .drop
  | tx _ => .tx

/-- The rounds of the live keys, and the number of live keys of each job. -/
structure Aggregator where
  live : Finmap fun _ : GradSlotKey => Round
  jobCount : BitVec 32 → ℕ

namespace Aggregator

def empty : Aggregator := ⟨∅, fun _ => 0⟩

/-- A new key is refused for its fan-in, or when its job has `maxSlots` live keys; `0` is no
limit. -/
def admits (maxSlots : ℕ) (st : Aggregator) (hdr : GradHdr) : Bool :=
  decide (FanInOk hdr.numWorkers) && !decide (0 < maxSlots ∧ maxSlots ≤ st.jobCount hdr.jobId)

/-- Key `k` gets the round `r?`, or is not live afterwards. -/
def put (st : Aggregator) (k : GradSlotKey) (r? : Option Round) : Aggregator where
  live := match r? with
    | some r => st.live.insert k r
    | none => st.live.erase k
  jobCount := Function.update st.jobCount k.jobId
    (st.jobCount k.jobId + (if r?.isSome then 1 else 0)
      - if (st.live.lookup k).isSome then 1 else 0)

/-- A completed round is transmitted if there is a configuration. -/
def rule (cfg? : Option NetsumConfig) : Answer Round → Ruling
  | .complete r => if cfg?.isSome then .tx r else .drop
  | _ => .drop

/-- The quota in force, none without a configuration. -/
def maxSlots (cfg? : Option NetsumConfig) : ℕ :=
  match cfg? with
  | some cfg => cfg.maxSlotsPerJob.toNat
  | none => 0

/-- One frame. -/
def step (st : Aggregator) (ev : XdpEvent) : Aggregator × Ruling :=
  if ¬ IsGradient ev.frame then (st, .pass)
  else if ¬ Sound (payload ev.frame) then (st, .drop)
  else
    let cfg? := ev.configMap.lookup 0
    let hdr := GradHdr.decode (payload ev.frame)
    let (a, r?) := Round.respond (st.admits (maxSlots cfg?) hdr) (payload ev.frame)
      (st.live.lookup hdr.key)
    (st.put hdr.key r?, rule cfg? a)

theorem step_of_not_counts (st : Aggregator) {ev : XdpEvent} (h : ¬ Counts ev.frame) :
    st.step ev = (st, if IsGradient ev.frame then .drop else .pass) := by
  by_cases hg : IsGradient ev.frame
  · have hs : ¬ Sound (payload ev.frame) := fun hs => h ⟨hg, hs⟩
    rw [step, if_neg (not_not_intro hg), if_pos hs, if_pos hg]
  · rw [step, if_pos hg, if_neg hg]

theorem step_of_counts (st : Aggregator) {ev : XdpEvent} (h : Counts ev.frame) :
    st.step ev =
      let a := Round.respond (st.admits (maxSlots (ev.configMap.lookup 0))
        (GradHdr.decode (payload ev.frame))) (payload ev.frame) (st.live.lookup (keyOf ev.frame))
      (st.put (keyOf ev.frame) a.2, rule (ev.configMap.lookup 0) a.1) := by
  rw [step, if_neg (not_not_intro h.1), if_neg (not_not_intro h.2)]
  rfl

theorem lookup_put (st : Aggregator) (k k' : GradSlotKey) (r? : Option Round) :
    (st.put k r?).live.lookup k' = if k' = k then r? else st.live.lookup k' := by
  cases r? with
  | some r =>
    by_cases h : k' = k
    · rw [if_pos h, h]
      exact Finmap.lookup_insert _
    · rw [if_neg h]
      exact Finmap.lookup_insert_of_ne _ h
  | none =>
    by_cases h : k' = k
    · rw [if_pos h, h]
      exact Finmap.lookup_erase _ _
    · rw [if_neg h]
      exact Finmap.lookup_erase_ne h

end Aggregator

/-! ## The simulation -/

/-- The maps represent the aggregator: a live key's slot has the tally of its round, and
`concurrent_slots` of a job is the number of its live keys. -/
structure Represents (maps : Maps) (st : Aggregator) : Prop where
  live_eq : ∀ k, maps.live k = (st.live.lookup k).map Round.tally
  jobCount_eq : ∀ jobId, concurrentSlots maps jobId = st.jobCount jobId

/-- What the program returned is what was ruled: the return code, and in a transmitted frame
the sums of the round. -/
structure Obeys (ev : XdpEvent) (out : Exit × Bytes) (ruling : Ruling) : Prop where
  action_eq : out.1.action = ruling.action
  forwards : ∀ r, ruling = .tx r → ∃ cfg, ev.configMap.lookup 0 = some cfg
    ∧ Forwards cfg ev.frame out.2 r.tally

/-- An answer that shows is obeyed. -/
theorem Shown.obeys {ev : XdpEvent} {a : Answer Round} {exit : Exit} {out : Bytes}
    (h : Shown (ev.configMap.lookup 0) ev.frame (a.map Round.tally) exit out)
    (hlen : valuesOff ≤ ev.frame.length) (hs : Sound (payload ev.frame))
    (hL : ∀ T, a.map Round.tally = .complete T →
      T.chunkLen = (GradHdr.decode (payload ev.frame)).chunkLen.toNat) :
    Obeys ev (exit, out) (Aggregator.rule (ev.configMap.lookup 0) a) := by
  cases a with
  | refused =>
    cases h with
    | refused hexit => rcases hexit with rfl | rfl | rfl <;> exact ⟨rfl, nofun⟩
  | mismatch => cases h; exact ⟨rfl, nofun⟩
  | duplicate => cases h; exact ⟨rfl, nofun⟩
  | absorbed => cases h; exact ⟨rfl, nofun⟩
  | complete r =>
    rcases h.complete_cases with ⟨hcfg, rfl⟩ | ⟨cfg, s, hcfg, hs', rfl, rfl⟩
    · rw [hcfg]
      exact ⟨rfl, nofun⟩
    · have hchunk : s.chunkLen = (GradHdr.decode (payload ev.frame)).chunkLen :=
        BitVec.eq_of_toNat_eq ((congrArg Tally.chunkLen hs').trans (hL _ rfl))
      have hforwards := forwards_rewriteHeaders cfg hlen hs hchunk
      generalize rewriteHeaders cfg _ _ = out at hforwards ⊢
      rw [hcfg]
      refine ⟨rfl, fun r' hr' => ⟨cfg, hcfg, ?_⟩⟩
      cases hr'
      exact hs' ▸ hforwards

/-- The aggregator admits what the program admits, as long as there is room. -/
theorem Represents.admits_eq {maps : Maps} {st : Aggregator} (hrep : Represents maps st)
    (hroom : maps.slotMap.size < slotMapEntries) (d : Bytes) :
    admits maps (.ofPayload d)
      = st.admits (Aggregator.maxSlots (maps.configMap.lookup 0)) (GradHdr.decode d) := by
  have hmax : (maxSlotsPerJob maps).toNat = Aggregator.maxSlots (maps.configMap.lookup 0) := by
    unfold maxSlotsPerJob Aggregator.maxSlots
    cases maps.configMap.lookup 0 <;> rfl
  have hquota : overQuota maps (GradHdr.decode d).jobId
      = decide (0 < Aggregator.maxSlots (maps.configMap.lookup 0)
        ∧ Aggregator.maxSlots (maps.configMap.lookup 0) ≤ st.jobCount (GradHdr.decode d).jobId) := by
    rw [Bool.eq_iff_iff, overQuota_iff, decide_eq_true_iff, hmax, hrep.jobCount_eq]
  rw [admits, Aggregator.admits, decide_eq_true hroom, Bool.and_true, Parsed.ofPayload,
    GradHdr.jobId_key, hquota]

/-- **One frame.** -/
theorem Represents.step {maps : Maps} {st : Aggregator} {S : Finset (BitVec 32)}
    (hrep : Represents maps st) (hok : maps.Ok) (hacct : maps.Accounted) (hS : maps.JobsIn S)
    (hcard : S.card ≤ jobQuotaMapEntries) (hroom : maps.slotMap.size < slotMapEntries)
    {ev : XdpEvent} (hev : JobIn S ev.frame) :
    Represents (xdpStep maps ev).1 (st.step ev).1
      ∧ Obeys ev (xdpStep maps ev).2 (st.step ev).2 := by
  by_cases hcounts : Counts ev.frame
  swap
  · obtain ⟨exit, hstep, haction⟩ := xdpStep_of_not_counts maps hcounts
    rw [hstep, st.step_of_not_counts hcounts]
    refine ⟨⟨hrep.live_eq, hrep.jobCount_eq⟩, haction.trans ?_, fun r hr => ?_⟩
    · split <;> rfl
    · split at hr <;> cases hr
  -- the counts in the map are the numbers of slots, before and after
  have hcount_eq := (xdpStep_jobsIn hok hS hev).concurrentSlots_eq hcard
    (xdpStep_accounted hok hacct ev)
  have hcount_eq₀ := hS.concurrentSlots_eq hcard hacct
  have hans := xdpStep_respond hok hcounts
  have hrep' : Represents (maps.withConfig ev.configMap) st := ⟨hrep.live_eq, hrep.jobCount_eq⟩
  have hadm : admits (maps.withConfig ev.configMap) (.ofPayload (payload ev.frame))
      = st.admits (Aggregator.maxSlots (ev.configMap.lookup 0))
        (GradHdr.decode (payload ev.frame)) :=
    hrep'.admits_eq hroom _
  have hchunk : ∀ T, (respond (admits (maps.withConfig ev.configMap) (.ofPayload (payload ev.frame)))
      (payload ev.frame) (maps.live (keyOf ev.frame))).1 = .complete T →
      T.chunkLen = (GradHdr.decode (payload ev.frame)).chunkLen.toNat :=
    fun T => chunkLen_of_complete
  rw [hadm, hrep.live_eq, Round.respond_tally] at hans hchunk
  rw [st.step_of_counts hcounts]
  generalize Round.respond _ (payload ev.frame) (st.live.lookup (keyOf ev.frame)) = a
    at hans hchunk ⊢
  generalize xdpStep maps ev = r at hans hcount_eq ⊢
  refine ⟨⟨fun k => ?_, fun jobId => ?_⟩, hans.shown.obeys hcounts.1.length_le hcounts.2 hchunk⟩
  · rw [Aggregator.lookup_put]
    split
    · next hk => rw [hk, hans.moves.live_eq]
    · next hk =>
      rw [hans.moves.live_of_ne hk]
      exact hrep.live_eq k
  · have hcount := hans.moves.slotCount jobId
    have hlive : ∀ r? : Option Round, liveCount (r?.map Round.tally) = if r?.isSome then 1 else 0 :=
      fun r? => by cases r? <;> rfl
    rw [show (maps.withConfig ev.configMap).live (keyOf ev.frame) = _ from hrep.live_eq _, hlive,
      hlive] at hcount
    show concurrentSlots r.1 jobId = Function.update st.jobCount (keyOf ev.frame).jobId _ jobId
    rw [hcount_eq]
    by_cases hjob : (keyOf ev.frame).jobId = jobId
    · subst hjob
      rw [if_pos rfl, if_pos rfl] at hcount
      rw [Function.update_self, ← hrep.jobCount_eq, hcount_eq₀]
      exact Nat.eq_sub_of_add_eq hcount
    · rw [if_neg hjob, if_neg hjob, Nat.add_zero, Nat.add_zero] at hcount
      rw [Function.update_of_ne (Ne.symm hjob), ← hrep.jobCount_eq, hcount_eq₀]
      exact hcount

theorem represents_empty : Represents Maps.empty Aggregator.empty :=
  ⟨fun k => by simp [Maps.live, Maps.empty, Aggregator.empty],
    fun jobId => by simp [concurrentSlots, Maps.empty, Aggregator.empty]⟩

/-- **The XDP program refines the aggregator.** -/
theorem refines_aggregator {es : List XdpEvent} (hjobs : FewJobs es)
    (hroom : StepsMeet xdpStep (fun maps _ => maps.slotMap.size < slotMapEntries) Maps.empty es) :
    (∀ T, Represents (stateAt xdpStep Maps.empty es T)
        (stateAt Aggregator.step Aggregator.empty es T))
    ∧ ∀ T ev, es[T]? = some ev →
      Obeys ev (xdpStep (stateAt xdpStep Maps.empty es T) ev).2
        (Aggregator.step (stateAt Aggregator.step Aggregator.empty es T) ev).2 := by
  obtain ⟨S, hcard, hS⟩ := hjobs
  have hsim := run_simulation xdpStep Aggregator.step
    (P := fun maps ev => maps.slotMap.size < slotMapEntries ∧ JobIn S ev.frame)
    (fun maps st => maps.Ok ∧ maps.Accounted ∧ maps.JobsIn S ∧ Represents maps st)
    (fun maps st ev hP ⟨hok, hacct, hjobs, hrep⟩ =>
      ⟨xdpStep_ok hok ev, xdpStep_accounted hok hacct ev, xdpStep_jobsIn hok hjobs hP.2,
        (hrep.step hok hacct hjobs hcard hP.1 hP.2).1⟩)
    ⟨ok_empty, accounted_empty, jobsIn_empty S, represents_empty⟩
    (stepsMeet_iff.mpr fun T ev he =>
      ⟨stepsMeet_iff.mp hroom T ev he, hS ev (List.mem_of_getElem? he)⟩)
  refine ⟨fun T => (hsim T).2.2.2, fun T ev he => ?_⟩
  obtain ⟨hok, hacct, hjobs, hrep⟩ := hsim T
  exact (hrep.step hok hacct hjobs hcard (stepsMeet_iff.mp hroom T ev he)
    (hS ev (List.mem_of_getElem? he))).2

/-- Two rounds of two workers under a quota of one: the second round has to wait, and one datagram
comes twice. -/
def twoWorkers : List XdpEvent :=
  [(0, 0), (1, 0), (0, 0), (0, 1), (1, 0)].map fun x =>
    ⟨configured ⟨fun _ => 0xaa, 0x0200000a, 0x9526, 1⟩,
      wholeFrame (workerPacket ⟨1, x.1, 0, x.2, 2, 1, 0⟩ fun _ => 5)⟩

/-- The sum of the first round is transmitted. -/
theorem twoWorkers_refines :
    (runOut xdpStep Maps.empty twoWorkers).map (fun out => out.1.action)
        = [.drop, .drop, .drop, .tx, .drop]
    ∧ (∀ T, Represents (stateAt xdpStep Maps.empty twoWorkers T)
        (stateAt Aggregator.step Aggregator.empty twoWorkers T))
    ∧ ∀ T ev, twoWorkers[T]? = some ev →
      Obeys ev (xdpStep (stateAt xdpStep Maps.empty twoWorkers T) ev).2
        (Aggregator.step (stateAt Aggregator.step Aggregator.empty twoWorkers T) ev).2 :=
  ⟨by decide +kernel, refines_aggregator ⟨{1}, by decide, by decide +kernel⟩ (by decide +kernel)⟩

end NetSum.XdpAgg
