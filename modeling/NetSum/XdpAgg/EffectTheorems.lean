import NetSum.XdpAgg.Invariants

/-!
# What a call leaves behind

The effects of the program on the packet and the maps, for every frame and every state of the
maps. A frame that is passed on leaves no trace. A frame that is transmitted is rewritten in the
fields that a forwarded frame has of its own and in its values, and takes its key out of
`slot_map` (`netsumXdpAggregate_effect`).
-/

namespace NetSum.XdpAgg

open NetSum.Lib NetSum.Protocol NetSum.Aggregation

/-! ## The bytes that are rewritten -/

/-- The bytes that a forwarded frame has of its own: the Ethernet destination, the IP checksum and
destination, the UDP destination port and checksum, `worker_id`, `num_workers` and `chunk_len`, and
the values. -/
def Rewritten (chunkLen j : ℕ) : Prop :=
  j < 6 ∨ (ipOff + 10 ≤ j ∧ j < ipOff + 12) ∨ (ipOff + 16 ≤ j ∧ j < ipOff + 20)
    ∨ (udpOff + 2 ≤ j ∧ j < udpOff + 4) ∨ (udpOff + 6 ≤ j ∧ j < udpOff + 8)
    ∨ (hdrOff + 12 ≤ j ∧ j < hdrOff + 18) ∨ (valuesOff ≤ j ∧ j < valuesOff + 4 * chunkLen)

instance (chunkLen j : ℕ) : Decidable (Rewritten chunkLen j) := inferInstanceAs (Decidable (_ ∨ _))

/-- The rewrite of the headers leaves all other bytes. -/
theorem byteAt_rewriteHeaders_of_not_rewritten (cfg : NetsumConfig) (finalChunkLen : BitVec 16)
    {frame : Bytes} (hlen : 6 ≤ frame.length) {chunkLen j : ℕ} (hj : ¬ Rewritten chunkLen j) :
    byteAt (rewriteHeaders cfg finalChunkLen frame) j = byteAt frame j := by
  simp only [Rewritten, hdrOff, udpOff, ipOff, ethHdrSize, ipHdrSize, udpHdrSize] at hj
  simp only [rewriteHeaders, hdrOff, udpOff, ipOff, ethHdrSize, ipHdrSize, udpHdrSize]
  rw [byteAt_store16_of_disjoint (by omega), byteAt_store16_of_disjoint (by omega),
    byteAt_store16_of_disjoint (by omega), byteAt_store16_of_disjoint (by omega),
    byteAt_store32_of_disjoint (by omega),
    (setMac_spec cfg.psMac _ (by simpa only [length_store16] using hlen)).2.1 j (by omega),
    byteAt_store16_of_disjoint (by omega), byteAt_store16_of_disjoint (by omega),
    byteAt_store16_of_disjoint (by omega)]

/-- The write-back leaves all other bytes. -/
theorem byteAt_writeBack_of_not_rewritten {frame : Bytes} {s : GradSlot} {L : BitVec 16}
    (hL : L.toNat ≤ netsumMaxChunkLen) (hlen : valuesOff + 4 * L.toNat ≤ frame.length) {j : ℕ}
    (hj : ¬ Rewritten L.toNat j) : byteAt (writeBack frame s L) j = byteAt frame j := by
  have hout : ¬ (valuesOff ≤ j ∧ j < valuesOff + 4 * L.toNat) := fun h => hj (by
    simp only [Rewritten]
    tauto)
  rw [writeBack, valueLoop_eq hL hlen]
  refine foldl_range_induction _ (fun _ (b : Bytes) => byteAt b j = byteAt frame j) rfl ?_
  intro i b hi hb
  rw [byteAt_store32_of_disjoint (by omega), hb]

/-! ## What a call transmits -/

/-- The slot that the frame is counted into: the one in the map, or a new one. -/
def slotFor (maps : Maps) (frame : Bytes) : GradSlot :=
  match maps.slotMap.lookup (keyOf frame) with
  | some s => s
  | none => .fresh (GradHdr.decode (payload frame)).chunkLen
    (GradHdr.decode (payload frame)).numWorkers

/-- The slot with the frame counted in. -/
def slotAfter (maps : Maps) (frame : Bytes) : GradSlot :=
  (slotFor maps frame).accumulate frame (.ofPayload (payload frame))

/-- The job counts, with the slot of the frame counted if it is a new one. -/
def jobsFor (maps : Maps) (frame : Bytes) :
    BoundedMap (BitVec 32) JobQuotaEntry jobQuotaMapEntries :=
  if (maps.slotMap.lookup (keyOf frame)).isSome then maps.jobQuotaMap
  else jobQuotaIncrement maps.jobQuotaMap (keyOf frame).jobId

/-- What a call that transmits returns. -/
structure Transmits (maps : Maps) (frame : Bytes) (cfg : NetsumConfig) (r : Maps × Exit × Bytes) :
    Prop where
  counts : Counts frame
  config : maps.configMap.lookup 0 = some cfg
  chunkLen_eq : (slotFor maps frame).chunkLen = (GradHdr.decode (payload frame)).chunkLen
  complete : (slotFor maps frame).contributionsReceived + 1
    = (slotFor maps frame).numWorkersExpected
  exit_eq : r.2.1 = .complete
  frame_eq : r.2.2 = rewriteHeaders cfg (slotAfter maps frame).chunkLen
    (writeBack frame (slotAfter maps frame) (slotAfter maps frame).chunkLen)
  slots : ∀ k, r.1.slotMap.lookup k
    = if k = keyOf frame then none else maps.slotMap.lookup k
  configMap_eq : r.1.configMap = maps.configMap
  dropStats_eq : r.1.dropStats = maps.dropStats
  jobs_eq : r.1.jobQuotaMap = jobQuotaDecrement (jobsFor maps frame) (keyOf frame).jobId

/-- What `aggregate` does to a slot that is in the map. -/
theorem aggregate_effect {maps maps' : Maps} {frame : Bytes} (hcounts : Counts frame)
    (hothers : ∀ k, k ≠ keyOf frame → maps'.slotMap.lookup k = maps.slotMap.lookup k)
    (hcfg : maps'.configMap = maps.configMap) (hstats : maps'.dropStats = maps.dropStats)
    (hjobs : maps'.jobQuotaMap = jobsFor maps frame)
    (htx : (aggregate maps' (.ofPayload (payload frame)) (slotFor maps frame) frame).2.1.action
      = .tx) :
    ∃ cfg, Transmits maps frame cfg
      (aggregate maps' (.ofPayload (payload frame)) (slotFor maps frame) frame) := by
  have hcase := lockedSection_case (slotFor maps frame) frame (.ofPayload (payload frame))
  unfold aggregate at htx ⊢
  generalize lockedSection (slotFor maps frame) frame (.ofPayload (payload frame)) = l
    at hcase htx ⊢
  cases hcase with
  | mismatch hlen => cases htx
  | duplicate hlen hseen => cases htx
  | absorbed hlen hseen hcount => cases htx
  | complete hlen hseen hcount =>
    dsimp only [finish] at htx ⊢
    -- without a configuration the completed frame is dropped
    cases hconfig : maps'.configMap.lookup 0 with
    | none =>
      rw [hconfig] at htx
      cases htx
    | some cfg =>
      dsimp only
      refine ⟨cfg, hcounts, hcfg ▸ hconfig, hlen, hcount, rfl, rfl, fun k => ?_, hcfg, hstats, ?_⟩
      · rw [BoundedMap.lookup_delete]
        show (if k = keyOf frame then none else _) = _
        by_cases hk : k = keyOf frame
        · rw [if_pos hk, if_pos hk]
        · rw [if_neg hk, if_neg hk]
          refine (BoundedMap.lookup_modify ..).trans ?_
          exact (if_neg hk).trans (hothers k hk)
      · rw [← hjobs]
        rfl

/-- **A call that transmits.** Its frame was counted into a slot that it completes. -/
theorem transmits_of_tx {maps : Maps} {frame : Bytes}
    (htx : (netsumXdpAggregate maps frame).2.1.action = .tx) :
    ∃ cfg, Transmits maps frame cfg (netsumXdpAggregate maps frame) := by
  by_cases hcounts : Counts frame
  swap
  · -- what does not count is passed on or dropped
    obtain ⟨exit, hstep, haction⟩ := netsumXdpAggregate_of_not_sound maps hcounts
    rw [hstep] at htx
    rw [show exit.action = .tx from htx] at haction
    split at haction <;> cases haction
  have hcall := netsumXdpAggregate_cases maps hcounts.1 hcounts.2
  generalize netsumXdpAggregate maps frame = r at hcall htx ⊢
  cases hcall with
  | @found s hk =>
    have hk' : maps.slotMap.lookup (keyOf frame) = some s := hk
    have hslot : s = slotFor maps frame := by rw [slotFor, hk']
    subst hslot
    exact aggregate_effect hcounts (fun _ _ => rfl) rfl rfl (by rw [jobsFor, hk']; rfl) htx
  | refused dropStats hk hadm hexit =>
    rcases hexit with rfl | rfl | rfl
    all_goals cases htx
  | created hk hadm hroom =>
    -- the slot is made, counted and completed in one call
    have hk' : maps.slotMap.lookup (keyOf frame) = none := hk
    have hslot : GradSlot.fresh (GradHdr.decode (payload frame)).chunkLen
        (GradHdr.decode (payload frame)).numWorkers = slotFor maps frame := by rw [slotFor, hk']
    rw [hslot] at htx ⊢
    refine aggregate_effect hcounts (fun k hne => ?_) rfl rfl ?_ htx
    · exact (BoundedMap.lookup_insert _ _ _ (fun _ => hroom) k).trans (if_neg hne)
    · rw [jobsFor, hk']
      rfl

/-- No frame is passed on once a slot was found for it. -/
theorem aggregate_ne_pass (maps : Maps) (p : Parsed) (slot : GradSlot) (frame : Bytes) :
    (aggregate maps p slot frame).2.1.action ≠ .pass := by
  unfold aggregate finish
  dsimp only
  split
  · nofun
  · nofun
  · nofun
  · split <;> nofun

/-- A frame that counts is not passed on. -/
theorem ne_pass_of_counts {maps : Maps} {frame : Bytes} (h : Counts frame) :
    (netsumXdpAggregate maps frame).2.1.action ≠ .pass := by
  have hcall := netsumXdpAggregate_cases maps h.1 h.2
  generalize netsumXdpAggregate maps frame = r at hcall
  cases hcall with
  | found hk => exact aggregate_ne_pass _ _ _ _
  | refused dropStats hk hadm hexit => rcases hexit with rfl | rfl | rfl <;> nofun
  | created hk hadm hroom => exact aggregate_ne_pass _ _ _ _

/-- **A call that passes its frame on leaves no trace.** -/
theorem eq_of_pass {maps : Maps} {frame : Bytes}
    (hpass : (netsumXdpAggregate maps frame).2.1.action = .pass) :
    (netsumXdpAggregate maps frame).1 = maps ∧ (netsumXdpAggregate maps frame).2.2 = frame := by
  have hcounts : ¬ Counts frame := fun h => ne_pass_of_counts h hpass
  obtain ⟨exit, hstep, -⟩ := netsumXdpAggregate_of_not_sound maps hcounts
  rw [hstep]
  exact ⟨rfl, rfl⟩

/-! ## The frame condition -/

/-- The transmitted frame, in terms of the one received. -/
theorem Transmits.frame_spec {maps : Maps} {frame : Bytes} {cfg : NetsumConfig}
    {r : Maps × Exit × Bytes} (h : Transmits maps frame cfg r) :
    r.2.2.length = frame.length
      ∧ (∀ j, ¬ Rewritten (GradHdr.decode (payload frame)).chunkLen.toNat j →
        byteAt r.2.2 j = byteAt frame j)
      ∧ Forwards cfg frame r.2.2 (slotAfter maps frame).tally := by
  have hL : (slotAfter maps frame).chunkLen = (GradHdr.decode (payload frame)).chunkLen :=
    h.chunkLen_eq
  have hforwards := forwards_rewriteHeaders cfg h.counts.1.length_le h.counts.2 hL
  rw [← h.frame_eq] at hforwards
  refine ⟨hforwards.length_eq, fun j hj => ?_, hforwards⟩
  have hvalues := values_le_length h.counts.1.length_le h.counts.2
  rw [← hL] at hj hvalues
  have hle : (slotAfter maps frame).chunkLen.toNat ≤ netsumMaxChunkLen :=
    hL ▸ h.counts.2.chunkLen_le
  have hout := (writeBack_spec (s := slotAfter maps frame) hle hvalues).1
  rw [h.frame_eq, byteAt_rewriteHeaders_of_not_rewritten cfg _ ?_ hj,
    byteAt_writeBack_of_not_rewritten hle hvalues hj]
  rw [hout]
  exact (by decide : 6 ≤ valuesOff).trans h.counts.1.length_le

/-- A key without a slot completes at once when its round has one packet. -/
theorem Transmits.numWorkers_eq {maps : Maps} {frame : Bytes} {cfg : NetsumConfig}
    {r : Maps × Exit × Bytes} (h : Transmits maps frame cfg r)
    (hk : maps.slotMap.lookup (keyOf frame) = none) :
    (GradHdr.decode (payload frame)).numWorkers = 1 := by
  have hcomplete := h.complete
  rw [slotFor, hk] at hcomplete
  exact hcomplete.symm

/-- **The frame condition.** A call that returns `XDP_PASS` changes nothing. A call that returns
`XDP_TX` keeps the length of the frame and all bytes but those a forwarded frame has of its own,
with the sums of the slot as its values; it removes the key, which it may have created for a round
of one packet, and counts its job's slots accordingly. -/
theorem netsumXdpAggregate_effect (maps : Maps) (frame : Bytes) :
    let r := netsumXdpAggregate maps frame
    let chunkLen := (GradHdr.decode (payload frame)).chunkLen.toNat
    let k := keyOf frame
    (r.2.1.action = .pass → r.1 = maps ∧ r.2.2 = frame)
      ∧ (r.2.1.action = .tx →
        r.2.2.length = frame.length
        ∧ (∀ j, ¬ Rewritten chunkLen j → byteAt r.2.2 j = byteAt frame j)
        ∧ (∀ i : Fin netsumMaxChunkLen, (i : ℕ) < chunkLen →
          be32 r.2.2 (valuesOff + 4 * i) = (slotAfter maps frame).sum i)
        ∧ (∀ k', r.1.slotMap.lookup k' = if k' = k then none else maps.slotMap.lookup k')
        ∧ (maps.slotMap.lookup k = none → (GradHdr.decode (payload frame)).numWorkers = 1)
        ∧ r.1.configMap = maps.configMap ∧ r.1.dropStats = maps.dropStats
        ∧ r.1.jobQuotaMap = jobQuotaDecrement (jobsFor maps frame) k.jobId
        ∧ ∀ j, j ≠ k.jobId → r.1.jobQuotaMap.lookup j = maps.jobQuotaMap.lookup j) := by
  intro r chunkLen k
  refine ⟨eq_of_pass, fun htx => ?_⟩
  obtain ⟨cfg, h⟩ := transmits_of_tx htx
  obtain ⟨hlen, hbytes, hforwards⟩ := h.frame_spec
  refine ⟨hlen, hbytes, fun i hi => ?_, h.slots, h.numWorkers_eq, h.configMap_eq, h.dropStats_eq,
    h.jobs_eq, fun j hj => ?_⟩
  · rw [← valueAt_payload]
    exact hforwards.value_eq i hi
  · -- neither the creation nor the removal counts for another job
    rw [h.jobs_eq, QuotaMoves.decrement.others j hj, jobsFor]
    split
    · rfl
    · exact QuotaMoves.increment.others j hj

end NetSum.XdpAgg
