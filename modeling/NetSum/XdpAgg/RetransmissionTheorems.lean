import NetSum.XdpAgg.KeyTheorems

/-!
# Retransmission to the XDP program

The workers of a key send their frames any number of times. The dedup bitmap absorbs copies as
long as the slot is there, but completion removes the slot, so a copy that arrives after it opens
the key again, with a bitmap that has forgotten everybody. So the round is aggregated exactly
once, and nothing is left behind, exactly when the last frame that lands is the first of its
worker and all workers land (`exactly_once_iff`).
-/

namespace NetSum.XdpAgg

open NetSum.Lib NetSum.Protocol NetSum.Aggregation

/-! ## The traffic of a key -/

/-- The worker a frame is from. -/
def workerOf (frame : Bytes) : ℕ := (GradHdr.decode (payload frame)).workerId.toNat

/-- Each of the `N` workers of key `k` has its one frame, `frames w`, delivered at least once, and
the key's frames are copies of these. -/
structure Retransmits (k : GradSlotKey) (N L : ℕ) (frames : ℕ → Bytes) (es : List XdpEvent) :
    Prop where
  isGradient : ∀ w < N, IsGradient (frames w)
  key_eq : ∀ w < N, keyOf (frames w) = k
  workers : WorkersSend N L fun w => payload (frames w)
  copies : ∀ ev ∈ es, IsGradient ev.frame → keyOf ev.frame = k → ∃ w < N, ev.frame = frames w
  delivered : ∀ w < N, ∃ ev ∈ es, ev.frame = frames w

/-- The slots that the job of `k` holds for other keys. -/
def otherSlots (k : GradSlotKey) (maps : Maps) : ℕ :=
  maps.slotMap.count fun k' => k'.jobId = k.jobId ∧ k' ≠ k

/-- The round of `k` is aggregated exactly once: one frame is transmitted for the key, with the
sums of the `N` payloads; no slot is left; and `concurrent_slots` of the job is back to its value,
unless the job's other keys hold more or fewer slots than before. -/
structure ExactlyOnce (k : GradSlotKey) (N L : ℕ) (frames : ℕ → Bytes) (maps : Maps)
    (es : List XdpEvent) : Prop where
  transmitted_once : ∃ p, (runOut xdpStep maps es).filterMap (transmittedOf k) = [p]
    ∧ contents (payload p) = (k, L, (List.range L).map fun i =>
        ∑ w ∈ Finset.range N, valueAt (payload (frames w)) i)
  no_slot : (runState xdpStep maps es).slotMap.lookup k = none
  slots_back : otherSlots k (runState xdpStep maps es) = otherSlots k maps →
    concurrentSlots (runState xdpStep maps es) k.jobId = concurrentSlots maps k.jobId

/-! ## The job's entry -/

theorem slotCount_eq_otherSlots {maps : Maps} {k : GradSlotKey}
    (h : maps.slotMap.lookup k = none) : slotCount maps.slotMap k.jobId = otherSlots k maps := by
  refine congrArg Finset.card (Finset.filter_congr fun k' hk' => ?_)
  refine ⟨fun hj => ⟨hj, ?_⟩, fun hj => hj.1⟩
  rintro rfl
  rw [BoundedMap.mem_keys_iff, h] at hk'
  cases hk'

/-- Between two states without a slot for the key, `concurrent_slots` moves with the other keys
of the job only. -/
theorem concurrentSlots_back {maps : Maps} (hok : maps.Ok) (hacct : maps.Accounted)
    {es : List XdpEvent} {k : GradSlotKey} (hstart : maps.slotMap.lookup k = none)
    (hend : (runState xdpStep maps es).slotMap.lookup k = none)
    (hother : otherSlots k (runState xdpStep maps es) = otherSlots k maps) :
    concurrentSlots (runState xdpStep maps es) k.jobId = concurrentSlots maps k.jobId := by
  have hacct' := accounted_run hok hacct es
  have hmono := isSome_run hok es
  rw [← slotCount_eq_otherSlots hstart, ← slotCount_eq_otherSlots hend] at hother
  generalize runState xdpStep maps es = maps' at hother hacct' hmono
  unfold concurrentSlots
  cases he' : maps'.jobQuotaMap.lookup k.jobId with
  | some e' =>
    dsimp only
    rw [hacct'.tracked _ _ he', hother]
    cases he : maps.jobQuotaMap.lookup k.jobId with
    | some e => exact (hacct.tracked _ _ he).symm
    | none =>
      rcases hacct.untracked _ he with h0 | hfull
      · exact h0
      · -- a full map gets no new entries
        have := BoundedMap.size_lt hmono he (by rw [he']; rfl)
        have := maps'.jobQuotaMap.size_le
        omega
  | none =>
    cases he : maps.jobQuotaMap.lookup k.jobId with
    | some e =>
      have := hmono _ (by rw [he]; rfl)
      rw [he'] at this
      cases this
    | none => rfl

/-! ## The frames that land -/

theorem mem_landed {k : GradSlotKey} {maps : Maps} {es : List XdpEvent} {frame : Bytes}
    (h : frame ∈ landed k maps es) :
    Counts frame ∧ keyOf frame = k ∧ ∃ ev ∈ es, ev.frame = frame := by
  induction es generalizing maps with
  | nil => cases h
  | cons ev es ih =>
    rw [landed] at h
    split at h
    · next hlands =>
      rcases List.mem_cons.mp h with rfl | h
      · exact ⟨hlands.1, hlands.2.1, ev, List.mem_cons_self, rfl⟩
      · obtain ⟨h1, h2, e, he, heq⟩ := ih h
        exact ⟨h1, h2, e, List.mem_cons_of_mem _ he, heq⟩
    · obtain ⟨h1, h2, e, he, heq⟩ := ih h
      exact ⟨h1, h2, e, List.mem_cons_of_mem _ he, heq⟩

/-- The workers of the frames that land. -/
def landedWorkers (k : GradSlotKey) (maps : Maps) (es : List XdpEvent) : List ℕ :=
  (landed k maps es).map workerOf

section

variable {k : GradSlotKey} {N L : ℕ} {frames : ℕ → Bytes} {es : List XdpEvent}

theorem Retransmits.workers_landed (h : Retransmits k N L frames es) (maps : Maps) :
    (∀ w ∈ landedWorkers k maps es, w < N ∧ w < maxTrackedWorkers)
      ∧ (landed k maps es).map payload
        = (landedWorkers k maps es).map fun w => payload (frames w) := by
  have hmem : ∀ frame ∈ landed k maps es, workerOf frame < N ∧ workerOf frame < maxTrackedWorkers
      ∧ frame = frames (workerOf frame) := by
    intro frame hframe
    obtain ⟨hcounts, hkey, ev, hev, rfl⟩ := mem_landed hframe
    obtain ⟨w, hw, heq⟩ := h.copies ev hev hcounts.1 hkey
    have hworker : workerOf ev.frame = w := by
      rw [heq]
      exact h.workers.workerId_eq w hw
    exact ⟨hworker ▸ hw, hcounts.2.workerId_lt, by rw [hworker, ← heq]⟩
  refine ⟨fun w hw => ?_, ?_⟩
  · obtain ⟨frame, hframe, rfl⟩ := List.mem_map.mp hw
    exact ⟨(hmem frame hframe).1, (hmem frame hframe).2.1⟩
  · rw [landedWorkers, List.map_map]
    exact List.map_congr_left fun frame hframe => congrArg payload (hmem frame hframe).2.2

theorem Retransmits.chunkLen_le (h : Retransmits k N L frames es) {maps : Maps} {w : ℕ}
    (hw : w ∈ landedWorkers k maps es) : L ≤ netsumMaxChunkLen := by
  obtain ⟨frame, hframe, -⟩ := List.mem_map.mp hw
  obtain ⟨hcounts, hkey, ev, hev, rfl⟩ := mem_landed hframe
  obtain ⟨v, hv, heq⟩ := h.copies ev hev hcounts.1 hkey
  have hlen := hcounts.2.chunkLen_le
  rwa [heq, h.workers.chunkLen_eq v hv] at hlen

/-- What a round that got all contributions reports. -/
theorem contents_of {f : ℕ → Bytes} {T : Tally} (hf : WorkersSend N L f) (hL : L ≤ netsumMaxChunkLen)
    (hT : T.Of N L (values f) (Finset.range N)) :
    T.contents k = (k, L, (List.range L).map fun i => ∑ w ∈ Finset.range N, valueAt (f w) i) := by
  rw [Tally.contents, hT.chunkLen_eq]
  refine congrArg _ (congrArg _ (List.map_congr_left fun i hi => ?_))
  have hi' := List.mem_range.mp hi
  rw [hT.sum_eq]
  refine Finset.sum_congr rfl fun w hw => ?_
  have hval : ((Fin.ofNat netsumMaxChunkLen i : Fin netsumMaxChunkLen) : ℕ) = i :=
    Nat.mod_eq_of_lt (hi'.trans_le hL)
  show (if _ < (GradHdr.decode (f w)).chunkLen.toNat then valueAt (f w) _ else 0) = _
  rw [hval, hf.chunkLen_eq w (Finset.mem_range.mp hw), if_pos hi']

/-- **Exactly once under retransmission.** From any reachable state without a slot for the key,
with a configuration and no quota, the round is aggregated exactly once exactly when the last
frame that lands is the first of its worker and all workers land. -/
theorem exactly_once_iff (es₀ : List XdpEvent)
    (hstart : (runState xdpStep Maps.empty es₀).slotMap.lookup k = none)
    (hes : ∀ ev ∈ es, ev.Unlimited) (h : Retransmits k N L frames es) :
    ExactlyOnce k N L frames (runState xdpStep Maps.empty es₀) es
      ↔ LastIsNew N (landedWorkers k (runState xdpStep Maps.empty es₀) es) := by
  have hok := ok_run es₀
  have hacct := accounted_run ok_empty accounted_empty es₀
  generalize runState xdpStep Maps.empty es₀ = maps at hstart hok hacct ⊢
  obtain ⟨hlive, hsent⟩ := live_run hok k hes
  obtain ⟨hworkers, hlanded⟩ := h.workers_landed maps
  rw [live_of_lookup hstart, Option.map_none, hlanded] at hlive hsent
  -- the slot is gone when the machine of the key has no tally
  have hlookup : (runState xdpStep maps es).slotMap.lookup k = none
      ↔ runState keyStep none ((landedWorkers k maps es).map fun w => payload (frames w)) = none := by
    rw [← hlive, Maps.live, Option.map_eq_none_iff]
  rw [← completes_once_iff h.workers hworkers]
  constructor
  · rintro ⟨⟨p, hp, -⟩, hno, -⟩
    rw [hp, List.map_singleton] at hsent
    obtain ⟨T, hT, -⟩ := List.map_eq_singleton_iff.mp hsent.symm
    exact ⟨hlookup.mp hno, T, hT⟩
  · rintro ⟨hstate, T, hout⟩
    have hof := of_completes_once h.workers hworkers hstate hout
    have hL : L ≤ netsumMaxChunkLen := by
      obtain ⟨⟨pre, w, hws, -⟩, -⟩ :=
        (completes_once_iff h.workers hworkers).mp ⟨hstate, T, hout⟩
      exact h.chunkLen_le (show w ∈ landedWorkers k maps es from hws ▸ by simp)
    rw [hout, List.map_singleton] at hsent
    obtain ⟨p, hp, hcontents⟩ := List.map_eq_singleton_iff.mp hsent
    have hend := hlookup.mpr hstate
    exact ⟨⟨p, hp, hcontents.trans (contents_of h.workers hL hof)⟩, hend,
      concurrentSlots_back hok hacct hstart hend⟩

end

/-! ## A retransmitted last frame -/

/-- Worker `w`'s frame of a round of two workers. -/
def resent (w : ℕ) : Bytes :=
  frameWith (workerPacket ⟨1, 0, 0, BitVec.ofNat 16 w, 2, 1, 0⟩ fun _ => BitVec.ofNat 32 (5 + w))

/-- A call on worker `w`'s frame, with a parameter server configured. -/
def resentEvent (w : ℕ) : XdpEvent := ⟨configured ⟨fun _ => 0xaa, 0x0200000a, 0x9526, 0⟩, resent w⟩

theorem resentEvent_unlimited (w : ℕ) : (resentEvent w).Unlimited :=
  ⟨_, lookup_configured _, rfl⟩

theorem retransmits_resent {ws : List ℕ} (hws : ∀ w ∈ ws, w < 2) (hall : ∀ w < 2, w ∈ ws) :
    Retransmits ⟨1, 0, 0⟩ 2 1 resent (ws.map resentEvent) := by
  refine ⟨by decide +kernel, by decide +kernel, ⟨by decide +kernel, by decide +kernel,
    by decide +kernel⟩, fun ev hev _ _ => ?_, fun w hw => ?_⟩
  · obtain ⟨w, hw, rfl⟩ := List.mem_map.mp hev
    exact ⟨w, hws w hw, rfl⟩
  · exact ⟨resentEvent w, List.mem_map_of_mem (hall w hw), rfl⟩

/-- Copies of the first frame are absorbed. -/
theorem first_resent_once :
    ExactlyOnce ⟨1, 0, 0⟩ 2 1 resent (runState xdpStep Maps.empty [])
      ([0, 0, 1].map resentEvent) := by
  have hlanded : landedWorkers ⟨1, 0, 0⟩ Maps.empty ([0, 0, 1].map resentEvent) = [0, 0, 1] := by
    decide +kernel
  refine (exactly_once_iff [] rfl (by simp [resentEvent_unlimited])
    (retransmits_resent (by decide) (by decide))).mpr ?_
  rw [runState_nil, hlanded]
  exact ⟨⟨[0, 0], 1, rfl, by decide⟩, by decide⟩

/-- A copy of the last frame opens the key again. -/
theorem last_resent_not_once :
    (∀ ev ∈ [0, 1, 1].map resentEvent, ev.Unlimited)
      ∧ Retransmits ⟨1, 0, 0⟩ 2 1 resent ([0, 1, 1].map resentEvent)
      ∧ ¬ ExactlyOnce ⟨1, 0, 0⟩ 2 1 resent Maps.empty ([0, 1, 1].map resentEvent) := by
  refine ⟨by simp [resentEvent_unlimited], retransmits_resent (by decide) (by decide), fun h => ?_⟩
  have hslot : ((runState xdpStep Maps.empty ([0, 1, 1].map resentEvent)).slotMap.lookup
      ⟨1, 0, 0⟩).isSome = true := by decide +kernel
  rw [h.no_slot] at hslot
  cases hslot

end NetSum.XdpAgg
