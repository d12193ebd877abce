import NetSum.Aggregation.Disturbance
import NetSum.XdpAgg.RetransmissionTheorems

/-!
# A misconfigured worker

The workers of a key send their frames, and somebody else sends frames of the same key with
another chunk length. The program rejects a contribution that disagrees with the slot, so these
frames are harmless once the slot is there. But the slot has the length of the frame that creates
it: if that is one of the others, the workers' own frames are rejected, and their round is lost
(`misconfiguredFirst_poisons`). The sum is transmitted exactly when no worker's frame finds a slot
of another length (`sum_transmitted_iff`).
-/

namespace NetSum.XdpAgg

open NetSum.Lib NetSum.Protocol NetSum.Aggregation

/-! ## The traffic of a key -/

/-- The frame is of chunk length `L`. -/
def HasLength (L : ℕ) (ev : XdpEvent) : Prop := chunkLenOf (payload ev.frame) = L

instance (L : ℕ) (ev : XdpEvent) : Decidable (HasLength L ev) :=
  inferInstanceAs (Decidable (_ = _))

/-- Each of the `N` workers of key `k` has its one frame of chunk length `L`, `frames w`, delivered
once, in any order and among any frames of the key of other chunk lengths. -/
structure Disturbed (k : GradSlotKey) (N L : ℕ) (frames : ℕ → Bytes) (es : List XdpEvent) :
    Prop where
  pos : 1 ≤ N
  isGradient : ∀ ev ∈ es, IsGradient ev.frame
  key_eq : ∀ ev ∈ es, keyOf ev.frame = k
  wellFormed : ∀ w < N, WellFormed (payload (frames w))
  workers : WorkersSend N L fun w => payload (frames w)
  once : ((es.filter fun ev => HasLength L ev).map XdpEvent.frame).Perm
    ((List.range N).map frames)

/-- A frame is transmitted with the sums of the payloads of the `N` workers. -/
def SumTransmitted (k : GradSlotKey) (N L : ℕ) (frames : ℕ → Bytes) (maps : Maps)
    (es : List XdpEvent) : Prop :=
  ∃ p ∈ (runOut xdpStep maps es).filterMap transmitted, contents (payload p)
    = (k, L, (List.range L).map fun i => ∑ w ∈ Finset.range N, valueAt (payload (frames w)) i)

/-- A frame of chunk length `L` does not find a slot of the key of another length. -/
def FindsOwnSlot (k : GradSlotKey) (L : ℕ) (maps : Maps) (ev : XdpEvent) : Prop :=
  HasLength L ev → ∀ s, maps.slotMap.lookup k = some s → s.chunkLen.toNat = L

theorem findsOwnSlot_iff {k : GradSlotKey} {L : ℕ} {maps : Maps} {ev : XdpEvent} :
    FindsOwnSlot k L maps ev ↔ FindsOwnLength L (maps.live k) (payload ev.frame) := by
  unfold FindsOwnSlot FindsOwnLength
  refine imp_congr_right fun _ => ?_
  rw [Maps.live]
  cases maps.slotMap.lookup k with
  | none => simp
  | some s => simp [GradSlot.tally]

/-! ## Room and landing -/

/-- Frames of one key leave room for it whenever it has no slot. -/
theorem hasRoom_run {k : GradSlotKey} {maps : Maps} (hok : maps.Ok) {es : List XdpEvent}
    (hkey : ∀ ev ∈ es, keyOf ev.frame = k)
    (hroom : maps.live k = none → maps.slotMap.size < slotMapEntries) :
    StepsMeet xdpStep (fun maps _ => maps.Ok
      ∧ (maps.live k = none → maps.slotMap.size < slotMapEntries)) maps es := by
  induction es generalizing maps with
  | nil => trivial
  | cons ev es ih =>
    refine ⟨⟨hok, hroom⟩, ih (xdpStep_ok hok ev) (fun e he => hkey e (List.mem_cons_of_mem _ he))
      fun hnone => ?_⟩
    obtain rfl := hkey ev List.mem_cons_self
    by_cases hcounts : Counts ev.frame
    · exact xdpStep_hasRoom hok hcounts hnone hroom
    · obtain ⟨exit, hstep, -⟩ := xdpStep_of_not_counts maps hcounts
      rw [hstep] at hnone ⊢
      exact hroom hnone

section

variable {k : GradSlotKey} {N L : ℕ} {frames : ℕ → Bytes} {es : List XdpEvent}

/-- The frames of length `L`, in the order in which they come. -/
def own (L : ℕ) (es : List XdpEvent) : List Bytes :=
  (es.filter fun ev => HasLength L ev).map XdpEvent.frame

theorem own_cons_of_hasLength {ev : XdpEvent} (h : HasLength L ev) :
    own L (ev :: es) = ev.frame :: own L es := by
  rw [own, List.filter_cons_of_pos (by simpa using h)]
  rfl

theorem own_cons_of_not_hasLength {ev : XdpEvent} (h : ¬ HasLength L ev) :
    own L (ev :: es) = own L es := by
  rw [own, List.filter_cons_of_neg (by simpa using h)]
  rfl

theorem frame_mem_own {ev : XdpEvent} (hev : ev ∈ es) (h : HasLength L ev) :
    ev.frame ∈ own L es :=
  List.mem_map_of_mem (List.mem_filter.mpr ⟨hev, by simpa using h⟩)

/-- If the frames of length `L` land, they are the landed frames of length `L`, and the two
conditions are one. -/
theorem landed_own {maps : Maps} (hok : maps.Ok) (hes : ∀ ev ∈ es, ev.Unlimited)
    (hlands : StepsMeet xdpStep (fun maps ev => HasLength L ev → Lands k maps ev.frame) maps es) :
    ((landed k maps es).map payload).filter (fun d => chunkLenOf d = L)
        = (own L es).map payload
      ∧ (StepsMeet keyStep (FindsOwnLength L) (maps.live k) ((landed k maps es).map payload)
        ↔ StepsMeet xdpStep (FindsOwnSlot k L) maps es) := by
  induction es generalizing maps with
  | nil => exact ⟨rfl, Iff.rfl⟩
  | cons ev es ih =>
    obtain ⟨hfilter, hmeet⟩ := ih (xdpStep_ok hok ev)
      (fun e he => hes e (List.mem_cons_of_mem _ he)) hlands.2
    rw [landed]
    by_cases h : Lands k maps ev.frame
    · rw [if_pos h, List.map_cons, StepsMeet, StepsMeet, findsOwnSlot_iff, ← hmeet,
        (xdpStep_of_lands hok (hes ev List.mem_cons_self) h).1]
      refine ⟨?_, Iff.rfl⟩
      by_cases hown : HasLength L ev
      · have hlen : chunkLenOf (payload ev.frame) = L := hown
        rw [List.filter_cons_of_pos (by simpa using hlen), hfilter, own_cons_of_hasLength hown,
          List.map_cons]
      · have hlen : ¬ chunkLenOf (payload ev.frame) = L := hown
        rw [List.filter_cons_of_neg (by simpa using hlen), hfilter,
          own_cons_of_not_hasLength hown]
    · -- what does not land is of another length, and both runs skip it
      have hown : ¬ HasLength L ev := fun hown => h (hlands.1 hown)
      rw [if_neg h, StepsMeet, ← hmeet, (xdpStep_of_not_lands hok h).1, hfilter,
        own_cons_of_not_hasLength hown]
      exact ⟨rfl, fun hrest => ⟨fun h => absurd h hown, hrest⟩, fun hall => hall.2⟩

/-- The frame of length `L` of a disturbed round is that of its worker. -/
theorem Disturbed.own_eq (h : Disturbed k N L frames es) {frame : Bytes}
    (hframe : frame ∈ own L es) : frame = frames (workerOf frame) ∧ workerOf frame < N := by
  obtain ⟨w, hw, rfl⟩ := List.mem_map.mp (h.once.mem_iff.mp hframe)
  have hworker : workerOf (frames w) = w := h.workers.workerId_eq w (List.mem_range.mp hw)
  rw [hworker]
  exact ⟨rfl, List.mem_range.mp hw⟩

theorem Disturbed.wellFormed_own (h : Disturbed k N L frames es) {frame : Bytes}
    (hframe : frame ∈ own L es) : WellFormed (payload frame) := by
  obtain ⟨heq, hlt⟩ := h.own_eq hframe
  have hwf := h.wellFormed _ hlt
  rwa [← heq] at hwf

/-- Each worker sends one of them. -/
theorem Disturbed.workers_perm (h : Disturbed k N L frames es) :
    ((own L es).map workerOf).Perm (List.range N) := by
  refine (h.once.map workerOf).trans (List.Perm.of_eq ?_)
  rw [List.map_map]
  refine (List.map_congr_left fun w hw => ?_).trans (List.map_id _)
  exact h.workers.workerId_eq w (List.mem_range.mp hw)

/-- With room, every worker's frame lands. -/
theorem Disturbed.lands (h : Disturbed k N L frames es) {maps : Maps} (hok : maps.Ok)
    (hroom : maps.live k = none → maps.slotMap.size < slotMapEntries) :
    StepsMeet xdpStep (fun maps ev => HasLength L ev → Lands k maps ev.frame) maps es := by
  have hrun := stepsMeet_iff.mp (hasRoom_run hok h.key_eq hroom)
  refine stepsMeet_iff.mpr fun T ev he hown => ?_
  have hev := List.mem_of_getElem? he
  have hwf := h.wellFormed_own (frame_mem_own hev hown)
  refine ⟨⟨h.isGradient ev hev, sound_of_wellFormed hwf⟩, h.key_eq ev hev, ?_⟩
  cases hlive : (stateAt xdpStep maps es T).live k with
  | some T => exact .inl rfl
  | none => exact .inr ⟨⟨hwf.numWorkers_pos, hwf.numWorkers_le⟩, (hrun T ev he).2 hlive⟩

/-- The workers' frames alone. -/
theorem Disturbed.undisturbed (h : Disturbed k N L frames es) :
    Disturbed k N L frames (es.filter fun ev => HasLength L ev) where
  pos := h.pos
  isGradient ev hev := h.isGradient ev (List.mem_filter.mp hev).1
  key_eq ev hev := h.key_eq ev (List.mem_filter.mp hev).1
  wellFormed := h.wellFormed
  workers := h.workers
  once := by
    rw [List.filter_filter]
    simpa using h.once

/-- The sum is transmitted exactly when no worker's frame finds a slot of another length. -/
theorem Disturbed.transmitted_iff (h : Disturbed k N L frames es) {maps : Maps} (hok : maps.Ok)
    (hstart : maps.live k = none) (hroom : maps.slotMap.size < slotMapEntries)
    (hes : ∀ ev ∈ es, ev.Unlimited) :
    SumTransmitted k N L frames maps es ↔ StepsMeet xdpStep (FindsOwnSlot k L) maps es := by
  obtain ⟨hown, hmeet⟩ := landed_own hok hes (h.lands hok fun _ => hroom)
  have hsent := (live_run hok k hes).2
  rw [hstart] at hmeet hsent
  -- the workers in the order in which their frames come
  have hds : ((landed k maps es).map payload).filter (fun d => chunkLenOf d = L)
      = ((own L es).map workerOf).map fun w => payload (frames w) := by
    rw [hown, List.map_map]
    exact List.map_congr_left fun frame hframe => congrArg payload (h.own_eq hframe).1
  have hworkers : ∀ w ∈ (own L es).map workerOf, w < N ∧ w < maxTrackedWorkers := by
    intro w hw
    obtain ⟨frame, hframe, rfl⟩ := List.mem_map.mp hw
    exact ⟨(h.own_eq hframe).2, (h.wellFormed_own hframe).workerId_lt⟩
  have hL : L ≤ netsumMaxChunkLen := by
    rw [← h.workers.chunkLen_eq 0 h.pos]
    exact (h.wellFormed 0 h.pos).chunkLen_le
  obtain ⟨hiff, hof⟩ := completed_iff_findsOwnLength h.pos (h.workers.sendsOne hworkers) hds
    h.workers_perm
  rw [← hmeet]
  constructor
  · rintro ⟨p, hp, hcontents⟩
    obtain ⟨out, hout, htx⟩ := List.mem_filterMap.mp hp
    have hkey : keyOf p = k := congrArg Prod.fst hcontents
    have hpk : p ∈ (runOut xdpStep maps es).filterMap (transmittedOf k) :=
      List.mem_filterMap.mpr ⟨out, hout, by rw [transmittedOf, htx, Option.filter_some, if_pos
        (by simpa using hkey)]⟩
    have hmem := List.mem_map_of_mem (f := fun p => contents (payload p)) hpk
    rw [hsent] at hmem
    obtain ⟨T, hT, heq⟩ := List.mem_map.mp hmem
    refine hiff.mp ⟨T, hT, ?_⟩
    exact congrArg (fun c => c.2.1) (heq.trans hcontents)
  · intro hall
    obtain ⟨T, hT, hsum⟩ := hof hall
    have hmem := List.mem_map_of_mem (f := fun T => T.contents k) hT
    rw [← hsent] at hmem
    obtain ⟨p, hp, heq⟩ := List.mem_map.mp hmem
    obtain ⟨out, hout, htx⟩ := List.mem_filterMap.mp hp
    refine ⟨p, List.mem_filterMap.mpr ⟨out, hout, ?_⟩, heq.trans (contents_of h.workers hL hsum)⟩
    exact (Option.filter_eq_some_iff.mp htx).1

/-- **A misconfigured worker** costs the key its round, from any reachable state without a slot
for the key and with room for one, exactly when one of the workers' own frames finds a slot of
another length. Without the other frames the sum is always transmitted. -/
theorem sum_transmitted_iff (es₀ : List XdpEvent)
    (hstart : (runState xdpStep Maps.empty es₀).slotMap.lookup k = none)
    (hroom : (runState xdpStep Maps.empty es₀).slotMap.size < slotMapEntries)
    (hes : ∀ ev ∈ es, ev.Unlimited) (h : Disturbed k N L frames es) :
    SumTransmitted k N L frames (runState xdpStep Maps.empty es₀) es
        ∧ SumTransmitted k N L frames (runState xdpStep Maps.empty es₀)
          (es.filter fun ev => HasLength L ev)
      ↔ StepsMeet xdpStep (FindsOwnSlot k L) (runState xdpStep Maps.empty es₀) es := by
  have hok := ok_run es₀
  generalize runState xdpStep Maps.empty es₀ = maps at hstart hroom hok ⊢
  have hlive : maps.live k = none := by rw [Maps.live, hstart, Option.map_none]
  rw [h.transmitted_iff hok hlive hroom hes, and_iff_left_iff_imp]
  intro _
  -- alone, the workers' frames find no other length
  have hes' : ∀ ev ∈ es.filter (fun ev => HasLength L ev), ev.Unlimited :=
    fun ev hev => hes ev (List.mem_filter.mp hev).1
  rw [h.undisturbed.transmitted_iff hok hlive hroom hes', ← (landed_own hok hes'
    (h.undisturbed.lands hok fun _ => hroom)).2, hlive]
  refine findsOwnLength_of_all (fun T hT => by cases hT) fun d hd => ?_
  obtain ⟨frame, hframe, rfl⟩ := List.mem_map.mp hd
  obtain ⟨-, -, ev, hev, rfl⟩ := mem_landed hframe
  exact of_decide_eq_true (List.mem_filter.mp hev).2

end

/-! ## A misconfigured worker that comes first -/

/-- A frame of the key `(1, 0, 0)` from worker 7, of chunk length 2. -/
def misconfigured : XdpEvent :=
  ⟨configured ⟨fun _ => 0xaa, 0x0200000a, 0x9526, 0⟩,
    frameWith (workerPacket ⟨1, 0, 0, 7, 2, 2, 0⟩ fun _ => 9)⟩

theorem disturbed_of_perm {es : List XdpEvent}
    (hes : ∀ ev ∈ es, ev = misconfigured ∨ ev = resentEvent 0 ∨ ev = resentEvent 1)
    (hperm : ((es.filter fun ev => HasLength 1 ev).map XdpEvent.frame).Perm
      ((List.range 2).map resent)) : Disturbed ⟨1, 0, 0⟩ 2 1 resent es := by
  have hall : ∀ ev ∈ [misconfigured, resentEvent 0, resentEvent 1],
      IsGradient ev.frame ∧ keyOf ev.frame = ⟨1, 0, 0⟩ := by decide +kernel
  have hmem : ∀ ev ∈ es, ev ∈ [misconfigured, resentEvent 0, resentEvent 1] := by
    simpa using hes
  exact ⟨by decide, fun ev hev => (hall ev (hmem ev hev)).1,
    fun ev hev => (hall ev (hmem ev hev)).2, by decide +kernel,
    ⟨by decide +kernel, by decide +kernel, by decide +kernel⟩, hperm⟩

theorem unlimited_of_disturbed {es : List XdpEvent}
    (hes : ∀ ev ∈ es, ev = misconfigured ∨ ev = resentEvent 0 ∨ ev = resentEvent 1) :
    ∀ ev ∈ es, ev.Unlimited := by
  intro ev hev
  rcases hes ev hev with rfl | rfl | rfl
  · exact ⟨_, lookup_configured _, rfl⟩
  · exact resentEvent_unlimited 0
  · exact resentEvent_unlimited 1

/-- A misconfigured worker between the others is harmless. -/
theorem misconfiguredSecond_harmless :
    let es := [resentEvent 0, misconfigured, resentEvent 1]
    SumTransmitted ⟨1, 0, 0⟩ 2 1 resent (runState xdpStep Maps.empty []) es := by
  intro es
  have hes : ∀ ev ∈ es, ev = misconfigured ∨ ev = resentEvent 0 ∨ ev = resentEvent 1 := by
    simp [es]
  have hmeet : StepsMeet xdpStep (FindsOwnSlot ⟨1, 0, 0⟩ 1)
      (runState xdpStep Maps.empty []) es := by
    refine ⟨fun _ s hs => (by cases hs), fun hown => ?_, fun _ s hs => ?_, trivial⟩
    · exact absurd hown (by decide +kernel)
    · have hlen : ((xdpStep (xdpStep (runState xdpStep Maps.empty []) (resentEvent 0)).1
          misconfigured).1.slotMap.lookup ⟨1, 0, 0⟩).all (fun s => s.chunkLen.toNat = 1) := by
        decide +kernel
      rw [hs] at hlen
      simpa using hlen
  exact ((sum_transmitted_iff [] rfl (by decide +kernel) (unlimited_of_disturbed hes)
    (disturbed_of_perm hes (List.Perm.of_eq (by decide +kernel)))).mpr hmeet).1

/-- A misconfigured worker that comes first takes the slot, and the round is lost. -/
theorem misconfiguredFirst_poisons :
    let es := [misconfigured, resentEvent 0, resentEvent 1]
    (∀ ev ∈ es, ev.Unlimited) ∧ Disturbed ⟨1, 0, 0⟩ 2 1 resent es
      ∧ ¬ SumTransmitted ⟨1, 0, 0⟩ 2 1 resent Maps.empty es := by
  intro es
  have hes : ∀ ev ∈ es, ev = misconfigured ∨ ev = resentEvent 0 ∨ ev = resentEvent 1 := by
    simp [es]
  refine ⟨unlimited_of_disturbed hes, disturbed_of_perm hes (List.Perm.of_eq (by decide +kernel)),
    ?_⟩
  rintro ⟨p, hp, -⟩
  have hnone : (runOut xdpStep Maps.empty es).filterMap transmitted = [] := by decide +kernel
  rw [hnone] at hp
  cases hp

end NetSum.XdpAgg
