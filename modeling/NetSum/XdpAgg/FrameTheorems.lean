import NetSum.XdpAgg.Program

/-!
# Frames

The parts of the XDP program that look at the frame alone. A frame is gradient traffic
(`IsGradient`) or passed on; its payload is sound (`Sound`) or dropped; from a sound payload the
program reads what `GradHdr.decode` and `Contribution.ofDatagram` say. A forwarded frame carries
the sums it was given under the frame's own key (`forwards_rewriteHeaders`).
-/

namespace NetSum.XdpAgg

open NetSum.Lib NetSum.Protocol NetSum.Aggregation

/-! ## Gradient frames -/

/-- What the UDP header of a frame is followed by. -/
def payload (frame : Bytes) : Bytes := frame.drop hdrOff

@[simp] theorem length_payload (frame : Bytes) : (payload frame).length = frame.length - hdrOff :=
  List.length_drop

/-- The gradient header is read ahead of the values. -/
theorem decode_payload_congr {frame frame' : Bytes}
    (h : ∀ j < valuesOff, byteAt frame' j = byteAt frame j) :
    GradHdr.decode (payload frame') = GradHdr.decode (payload frame) := by
  refine GradHdr.decode_congr fun i hi => ?_
  rw [payload, payload, byteAt_drop, byteAt_drop, h _ (by simp only [valuesOff]; omega)]

theorem valueAt_payload (frame : Bytes) (i : ℕ) :
    valueAt (payload frame) i = be32 frame (valuesOff + 4 * i) := by
  rw [valueAt, payload, be32_drop, ← Nat.add_assoc]

/-- A UDP frame without IP options to the gradient port, with a whole gradient header. -/
structure IsGradient (frame : Bytes) : Prop where
  length_le : valuesOff ≤ frame.length
  ip : be16 frame 12 = 0x0800#16
  no_options : byteAt frame ipOff &&& 0x0f#8 = 5#8
  udp : byteAt frame (ipOff + 9) = 17#8
  port : (be16 frame (udpOff + 2)).toNat = netsumPort

theorem isGradient_iff (frame : Bytes) :
    IsGradient frame ↔ valuesOff ≤ frame.length ∧ be16 frame 12 = 0x0800#16
      ∧ byteAt frame ipOff &&& 0x0f#8 = 5#8 ∧ byteAt frame (ipOff + 9) = 17#8
      ∧ (be16 frame (udpOff + 2)).toNat = netsumPort :=
  ⟨fun h => ⟨h.1, h.2, h.3, h.4, h.5⟩, fun ⟨h1, h2, h3, h4, h5⟩ => ⟨h1, h2, h3, h4, h5⟩⟩

instance (frame : Bytes) : Decidable (IsGradient frame) := decidable_of_iff' _ (isGradient_iff frame)

/-- The payloads that get past the header checks: at most 64 values, all of them there, and a
worker id the bitmap has a bit for. -/
structure Sound (d : Bytes) : Prop where
  chunkLen_le : (GradHdr.decode d).chunkLen.toNat ≤ netsumMaxChunkLen
  values_le : netsumHdrSize + 4 * (GradHdr.decode d).chunkLen.toNat ≤ d.length
  workerId_lt : (GradHdr.decode d).workerId.toNat < maxTrackedWorkers

theorem sound_iff (d : Bytes) :
    Sound d ↔ (GradHdr.decode d).chunkLen.toNat ≤ netsumMaxChunkLen
      ∧ netsumHdrSize + 4 * (GradHdr.decode d).chunkLen.toNat ≤ d.length
      ∧ (GradHdr.decode d).workerId.toNat < maxTrackedWorkers :=
  ⟨fun h => ⟨h.1, h.2, h.3⟩, fun ⟨h1, h2, h3⟩ => ⟨h1, h2, h3⟩⟩

instance (d : Bytes) : Decidable (Sound d) := decidable_of_iff' _ (sound_iff d)

/-- A well-formed datagram is a sound one with a possible fan-in. -/
theorem sound_of_wellFormed {d : Bytes} (h : WellFormed d) : Sound d :=
  ⟨h.chunkLen_le, h.values_le, h.workerId_lt⟩

/-- A frame between unnamed hosts that carries the datagram `d` to the gradient port. -/
def frameWith (d : Bytes) : Bytes :=
  List.replicate 12 0 ++ [0x08, 0x00] ++ ([0x45] ++ List.replicate 8 0 ++ [17]
    ++ List.replicate 10 0) ++ ([0, 0, 0x26, 0x94] ++ List.replicate 4 0) ++ d

theorem isGradient_frameWith {d : Bytes} (h : netsumHdrSize ≤ d.length) :
    IsGradient (frameWith d) := by
  have hport : be16 (frameWith d) (udpOff + 2) = cat16 0x26 0x94 := congrArg₂ cat16 rfl rfl
  have hip : be16 (frameWith d) 12 = cat16 0x08 0x00 := congrArg₂ cat16 rfl rfl
  have hihl : byteAt (frameWith d) ipOff = 0x45#8 := rfl
  refine ⟨?_, hip, ?_, rfl, congrArg BitVec.toNat hport⟩
  swap
  · rw [hihl]
    rfl
  have hlen : (frameWith d).length = hdrOff + d.length := by
    rw [frameWith, List.length_append]
    rfl
  rw [hlen]
  exact Nat.add_le_add_left h _

/-- A frame from 10.0.0.1 to the gradient port of 10.0.0.2, with these lengths and IP checksum,
and `rest` behind its UDP header. -/
def frameFrom (totLen udpLen checksum : BitVec 16) (rest : Bytes) : Bytes :=
  let wire (v : BitVec 16) : Bytes := [byte16 v 1, byte16 v 0]
  List.replicate 12 0 ++ [0x08, 0x00] ++ ([0x45, 0] ++ wire totLen ++ [0, 0, 0, 0, 64, 17]
    ++ wire checksum ++ [10, 0, 0, 1, 10, 0, 0, 2])
    ++ ([0x26, 0x94, 0x26, 0x94] ++ wire udpLen ++ [0, 0]) ++ rest

/-- The frame around a packet of one value, with all lengths and the checksum in order. -/
def wholeFrame (d : Bytes) : Bytes := frameFrom 52 32 0x66b7 d

/-! ## What `parse` does -/

/-- What the program holds of a sound payload. -/
def Parsed.ofPayload (d : Bytes) : Parsed where
  key := (GradHdr.decode d).key
  workerId := (GradHdr.decode d).workerId
  numWorkers := (GradHdr.decode d).numWorkers
  chunkLen := (GradHdr.decode d).chunkLen

/-- Everything else is passed to the kernel. -/
theorem parse_of_not_isGradient {frame : Bytes} (h : ¬ IsGradient frame) :
    ∃ exit, parse frame = .error exit ∧ exit.action = .pass := by
  unfold parse
  rw [netsumBpfNtohs_eq, netsumBpfNtohs_eq, swap16_load16, swap16_load16]
  by_cases heth : frame.length < ethHdrSize
  · exact ⟨.shortEth, if_pos heth, rfl⟩
  by_cases hip : be16 frame 12 = 0x0800#16
  swap
  · exact ⟨.notIp, (if_neg heth).trans (if_pos hip), rfl⟩
  rw [if_neg heth, if_neg (not_not_intro hip)]
  by_cases hshort : frame.length < udpOff
  · exact ⟨.shortIp, if_pos hshort, rfl⟩
  by_cases hopt : byteAt frame ipOff &&& 0x0f#8 = 5#8
  swap
  · exact ⟨.ipOptions, (if_neg hshort).trans (if_pos hopt), rfl⟩
  rw [if_neg hshort, if_neg (not_not_intro hopt)]
  by_cases hudp : byteAt frame (ipOff + 9) = 17#8
  swap
  · exact ⟨.notUdp, if_pos hudp, rfl⟩
  by_cases hshort : frame.length < hdrOff
  · exact ⟨.shortUdp, (if_neg (not_not_intro hudp)).trans (if_pos hshort), rfl⟩
  rw [if_neg (not_not_intro hudp), if_neg hshort]
  by_cases hport : (be16 frame (udpOff + 2)).toNat = netsumPort
  swap
  · exact ⟨.otherPort, if_pos hport, rfl⟩
  by_cases hlen : frame.length < valuesOff
  · exact ⟨.shortHdr, (if_neg (not_not_intro hport)).trans (if_pos hlen), rfl⟩
  exact absurd ⟨not_lt.mp hlen, hip, hopt, hudp, hport⟩ h

/-- The checks that are left for a gradient frame. -/
theorem parse_of_isGradient {frame : Bytes} (h : IsGradient frame) :
    parse frame =
      if (GradHdr.decode (payload frame)).chunkLen.toNat > netsumMaxChunkLen then .error .malformed
      else if frame.length < valuesOff + 4 * (GradHdr.decode (payload frame)).chunkLen.toNat then
        .error .truncated
      else if (GradHdr.decode (payload frame)).workerId.toNat
          ≥ maxTrackedWorkersBitmapBytes * 8 then .error .workerOutOfRange
      else .ok (Parsed.ofPayload (payload frame)) := by
  have hlen := h.length_le
  simp only [valuesOff, hdrOff, udpOff, ipOff, ethHdrSize, ipHdrSize, udpHdrSize,
    netsumHdrSize] at hlen
  have heth : ¬ frame.length < ethHdrSize := by simp only [ethHdrSize]; omega
  have hip : ¬ frame.length < udpOff := by simp only [udpOff, ipOff, ethHdrSize, ipHdrSize]; omega
  have hudp : ¬ frame.length < hdrOff := by
    simp only [hdrOff, udpOff, ipOff, ethHdrSize, ipHdrSize, udpHdrSize]; omega
  unfold parse
  rw [netsumBpfNtohs_eq, netsumBpfNtohs_eq, swap16_load16, swap16_load16, if_neg heth,
    if_neg (not_not_intro h.ip), if_neg hip, if_neg (not_not_intro h.no_options),
    if_neg (not_not_intro h.udp), if_neg hudp, if_neg (not_not_intro h.port),
    if_neg (not_lt.mpr h.length_le), GradHdr.decode_eq_netsumBpfNtoh]
  rfl

theorem length_lt_iff {frame : Bytes} (h : IsGradient frame) (n : ℕ) :
    frame.length < valuesOff + 4 * n ↔ (payload frame).length < netsumHdrSize + 4 * n := by
  have hlen := h.length_le
  rw [length_payload]
  simp only [valuesOff] at hlen ⊢
  omega

/-- What fails a check is dropped. -/
theorem parse_of_not_sound {frame : Bytes} (h : IsGradient frame)
    (hs : ¬ Sound (payload frame)) :
    ∃ exit, parse frame = .error exit ∧ exit.action = .drop := by
  rw [parse_of_isGradient h]
  split
  · exact ⟨.malformed, rfl, rfl⟩
  split
  · exact ⟨.truncated, rfl, rfl⟩
  split
  · exact ⟨.workerOutOfRange, rfl, rfl⟩
  next hchunk hlen hworker =>
    rw [length_lt_iff h] at hlen
    exact absurd ⟨not_lt.mp hchunk, not_lt.mp hlen, not_le.mp hworker⟩ hs

theorem parse_of_sound {frame : Bytes} (h : IsGradient frame) (hs : Sound (payload frame)) :
    parse frame = .ok (Parsed.ofPayload (payload frame)) := by
  rw [parse_of_isGradient h, if_neg (not_lt.mpr hs.chunkLen_le),
    if_neg (mt (length_lt_iff h _).mp (not_lt.mpr hs.values_le)),
    if_neg (show ¬ _ ≥ maxTrackedWorkersBitmapBytes * 8 from not_le.mpr hs.workerId_lt)]

/-- All the values are in the frame. -/
theorem values_le_length {frame : Bytes} (hframe : valuesOff ≤ frame.length)
    (hs : Sound (payload frame)) :
    valuesOff + 4 * (GradHdr.decode (payload frame)).chunkLen.toNat ≤ frame.length := by
  have hvalues := hs.values_le
  rw [length_payload] at hvalues
  simp only [valuesOff] at hframe ⊢
  omega

/-! ## The loops over the values -/

/-- With the values there, both loops go over all of them. -/
theorem valueLoop_eq {β : Type} {frame : Bytes} {chunkLen : ℕ} (hle : chunkLen ≤ netsumMaxChunkLen)
    (hlen : valuesOff + 4 * chunkLen ≤ frame.length) (body : β → ℕ → β) (b : β) :
    valueLoop frame chunkLen body b = (List.range chunkLen).foldl body b := by
  unfold valueLoop
  rw [takeWhile_range hle]
  intro i _
  by_cases hi : i < chunkLen
  · have : valuesOff + 4 * (i + 1) ≤ frame.length := by omega
    simp [hi, this]
  · simp [hi]

/-! ## A contribution counted in -/

namespace GradSlot

/-- The bitmap has a bit for each worker. -/
theorem seen_eq (s : GradSlot) (workerId : BitVec 16) :
    s.seen workerId = (s.seenWorker (byteIdx workerId)).getLsbD (workerId.toNat % 8) :=
  and_shiftLeft_one _ (Nat.mod_lt _ (by decide))

theorem byteIdx_val {workerId : BitVec 16} (h : workerId.toNat < maxTrackedWorkers) :
    (byteIdx workerId : ℕ) = workerId.toNat / 8 := by
  simp only [maxTrackedWorkers] at h
  exact Nat.mod_eq_of_lt (Nat.div_lt_of_lt_mul h)

/-- Where a worker's bit is. -/
def bitPos (w : Fin maxTrackedWorkers) : Fin maxTrackedWorkersBitmapBytes × Fin 8 :=
  (⟨w / 8, Nat.div_lt_of_lt_mul w.isLt⟩, ⟨w % 8, Nat.mod_lt _ (by decide)⟩)

theorem bitPos_bijective : Function.Bijective bitPos := by
  refine ⟨fun w w' h => ?_, fun x => ?_⟩
  · have hdiv : (w : ℕ) / 8 = w' / 8 := congrArg (fun x => (x.1 : ℕ)) h
    have hmod : (w : ℕ) % 8 = w' % 8 := congrArg (fun x => (x.2 : ℕ)) h
    exact Fin.ext (by omega)
  · have h1 := x.1.isLt
    have h2 := x.2.isLt
    simp only [maxTrackedWorkersBitmapBytes] at h1
    have hlt : 8 * (x.1 : ℕ) + x.2 < maxTrackedWorkers := by
      show _ < 256
      omega
    refine ⟨⟨8 * x.1 + x.2, hlt⟩, Prod.ext (Fin.ext ?_) (Fin.ext ?_)⟩
    · show (8 * (x.1 : ℕ) + x.2) / 8 = x.1
      omega
    · show (8 * (x.1 : ℕ) + x.2) % 8 = x.2
      omega

theorem tally_seen (s : GradSlot) (w : Fin maxTrackedWorkers) :
    s.tally.seen w = (s.seenWorker (bitPos w).1).getLsbD (bitPos w).2 := by
  have hw : (BitVec.ofNat 16 (w : ℕ)).toNat = w := by
    rw [BitVec.toNat_ofNat]
    exact Nat.mod_eq_of_lt (w.isLt.trans (by decide))
  have hidx : byteIdx (BitVec.ofNat 16 (w : ℕ)) = (bitPos w).1 := by
    refine Fin.ext ?_
    rw [byteIdx_val (by rw [hw]; exact w.isLt), hw]
    rfl
  show s.seen (BitVec.ofNat 16 w) = _
  rw [seen_eq, hidx, hw]
  rfl

/-- The program looks at the bit of the worker that contributes. -/
theorem tally_seen_worker (s : GradSlot) {d : Bytes} (hd : Sound d) :
    s.tally.seen (Contribution.ofDatagram d).worker = s.seen (GradHdr.decode d).workerId := by
  have hworker : BitVec.ofNat 16 ((Contribution.ofDatagram d).worker : ℕ)
      = (GradHdr.decode d).workerId := by
    apply BitVec.eq_of_toNat_eq
    rw [BitVec.toNat_ofNat, Nat.mod_eq_of_lt (Fin.isLt _ |>.trans (by decide))]
    exact Nat.mod_eq_of_lt hd.workerId_lt
  exact congrArg s.seen hworker

/-- A slot is what its tally says. -/
theorem tally_injective {s s' : GradSlot} (h : s.tally = s'.tally) : s = s' := by
  have hseen : s.seenWorker = s'.seenWorker := by
    funext i
    apply BitVec.eq_of_getLsbD_eq
    intro b hb
    obtain ⟨w, hw⟩ := bitPos_bijective.2 (i, ⟨b, hb⟩)
    have hbit := congrFun (congrArg Tally.seen h) w
    rw [tally_seen, tally_seen, hw] at hbit
    exact hbit
  obtain ⟨sum, chunkLen, numWorkersExpected, contributionsReceived, seenWorker⟩ := s
  have hsum : sum = s'.sum := congrArg Tally.sum h
  have hchunk : chunkLen = s'.chunkLen := BitVec.eq_of_toNat_eq (congrArg Tally.chunkLen h)
  have hfan : numWorkersExpected = s'.numWorkersExpected :=
    BitVec.eq_of_toNat_eq (congrArg Tally.fanIn h)
  have hcount : contributionsReceived = s'.contributionsReceived :=
    BitVec.eq_of_toNat_eq (congrArg Tally.count h)
  rw [hsum, hchunk, hfan, hcount, show seenWorker = s'.seenWorker from hseen]

/-- Marking a worker marks it and no other. -/
theorem seen_mark (s : GradSlot) {w w' : BitVec 16} (hw : w.toNat < maxTrackedWorkers)
    (hw' : w'.toNat < maxTrackedWorkers) :
    GradSlot.seen { s with
      seenWorker := Function.update s.seenWorker (byteIdx w)
        (s.seenWorker (byteIdx w) ||| bitOf w) } w' = (decide (w' = w) || s.seen w') := by
  have heq : w' = w ↔ byteIdx w' = byteIdx w ∧ w'.toNat % 8 = w.toNat % 8 := by
    rw [← Fin.val_inj, byteIdx_val hw, byteIdx_val hw', ← BitVec.toNat_inj]
    omega
  rw [seen_eq, seen_eq]
  by_cases hidx : byteIdx w' = byteIdx w
  · simp only [hidx, Function.update_self, heq, true_and]
    rw [bitOf, getLsbD_or_shiftLeft_one _ (Nat.mod_lt _ (by decide)), Bool.or_comm]
  · simp only [Function.update_of_ne hidx, heq, hidx, false_and, decide_false, Bool.false_or]

/-- Each value of the frame is added to its sum. -/
theorem sum_accumulate (s : GradSlot) {frame : Bytes} {p : Parsed}
    (hle : p.chunkLen.toNat ≤ netsumMaxChunkLen)
    (hlen : valuesOff + 4 * p.chunkLen.toNat ≤ frame.length) (i : Fin netsumMaxChunkLen) :
    (s.accumulate frame p).sum i = if (i : ℕ) < p.chunkLen.toNat
      then s.sum i + be32 frame (valuesOff + 4 * i) else s.sum i := by
  show valueLoop frame p.chunkLen.toNat _ s.sum i = _
  rw [valueLoop_eq hle hlen,
    foldl_range_update (fun j v => v + netsumBpfNtohl (load32 frame (valuesOff + 4 * j))) s.sum hle,
    netsumBpfNtohl_eq, swap32_load32]

/-- **Counting a frame into a slot absorbs its contribution.** -/
theorem tally_accumulate {s : GradSlot} {frame : Bytes} (hs : Sound (payload frame))
    (hlen : valuesOff ≤ frame.length) (hcount : s.tally.count < maxTrackedWorkers) :
    (s.accumulate frame (Parsed.ofPayload (payload frame))).tally
      = s.tally.absorb (Contribution.ofDatagram (payload frame)) := by
  have hvalues := values_le_length hlen hs
  have hworker : (Contribution.ofDatagram (payload frame)).worker.val
      = (GradHdr.decode (payload frame)).workerId.toNat := Nat.mod_eq_of_lt hs.workerId_lt
  refine Tally.ext rfl rfl ?_ (funext fun w => ?_) (funext fun i => ?_)
  · show (s.contributionsReceived + 1).toNat = s.contributionsReceived.toNat + 1
    simp only [tally, maxTrackedWorkers] at hcount
    rw [BitVec.toNat_add, show (1 : BitVec 16).toNat = 1 from rfl, Nat.mod_eq_of_lt (by omega)]
  · have hw : (BitVec.ofNat 16 (w : ℕ)).toNat = w :=
      Nat.mod_eq_of_lt (w.isLt.trans (by decide))
    have hiff : BitVec.ofNat 16 (w : ℕ) = (GradHdr.decode (payload frame)).workerId
        ↔ w = (Contribution.ofDatagram (payload frame)).worker := by
      rw [← BitVec.toNat_inj, hw, ← Fin.val_inj, hworker]
    -- a bit of the bitmap stands for one worker
    have hmark := seen_mark s hs.workerId_lt (hw ▸ w.isLt)
    have hleft : (s.accumulate frame (Parsed.ofPayload (payload frame))).tally.seen w
        = (decide (BitVec.ofNat 16 (w : ℕ) = (GradHdr.decode (payload frame)).workerId)
          || s.seen (BitVec.ofNat 16 (w : ℕ))) := hmark
    rw [hleft, Bool.eq_iff_iff, Tally.seen_absorb, Bool.or_eq_true, decide_eq_true_iff, hiff]
    rfl
  · refine (sum_accumulate s (p := .ofPayload (payload frame)) hs.chunkLen_le hvalues i).trans ?_
    rw [← valueAt_payload]
    show _ = s.sum i + (if i.val < (GradHdr.decode (payload frame)).chunkLen.toNat
      then valueAt (payload frame) i else 0)
    by_cases hi : i.val < (GradHdr.decode (payload frame)).chunkLen.toNat
    · rw [if_pos hi]
      exact if_pos hi
    · rw [if_neg hi, add_zero]
      exact if_neg hi

end GradSlot

/-! ## The forwarded frame -/

/-- `out` is `frame` forwarded with the sums of `T`: one contribution, already complete, under
the frame's own key, sent on to the parameter server. -/
structure Forwards (cfg : NetsumConfig) (frame out : Bytes) (T : Tally) : Prop where
  length_eq : out.length = frame.length
  hdr_eq : GradHdr.decode (payload out)
    = { GradHdr.decode (payload frame) with workerId := 0, numWorkers := 1 }
  value_eq : ∀ i : Fin netsumMaxChunkLen, (i : ℕ) < (GradHdr.decode (payload frame)).chunkLen.toNat →
    valueAt (payload out) i = T.sum i
  mac_eq : ∀ i : Fin 6, byteAt out i = cfg.psMac i
  ip_eq : load32 out (ipOff + 16) = cfg.psIp
  port_eq : load16 out (udpOff + 2) = cfg.psPort

/-- The write-back leaves everything ahead of the values alone and stores each sum. -/
theorem writeBack_spec {frame : Bytes} {s : GradSlot} {L : BitVec 16}
    (hL : L.toNat ≤ netsumMaxChunkLen) (hlen : valuesOff + 4 * L.toNat ≤ frame.length) :
    (writeBack frame s L).length = frame.length
      ∧ (∀ j < valuesOff, byteAt (writeBack frame s L) j = byteAt frame j)
      ∧ ∀ j < L.toNat, be32 (writeBack frame s L) (valuesOff + 4 * j) = s.sum (Fin.ofNat _ j) := by
  rw [writeBack, valueLoop_eq hL hlen]
  refine foldl_range_induction _ (fun i (b : Bytes) => b.length = frame.length
    ∧ (∀ j < valuesOff, byteAt b j = byteAt frame j)
    ∧ ∀ j < i, be32 b (valuesOff + 4 * j) = s.sum (Fin.ofNat _ j))
    ⟨rfl, fun _ _ => rfl, by simp⟩ ?_
  rintro i b hi ⟨h1, h2, h3⟩
  refine ⟨by rw [length_store32, h1], fun j hj => ?_, fun j hj => ?_⟩
  · rw [byteAt_store32_of_disjoint (by omega), h2 j hj]
  · rcases Nat.eq_or_lt_of_le (Nat.le_of_lt_succ hj) with rfl | hlt
    · rw [netsumBpfNtohl_eq]
      exact be32_store32_swap32 (by omega) _
    · rw [← h3 j hlt]
      exact be32_store32_of_disjoint (by omega) _

/-- The loop over the destination address. -/
theorem setMac_spec (mac : Fin 6 → Byte) (frame : Bytes) (hlen : 6 ≤ frame.length) :
    let out := (List.range 6).foldl (fun (b : Bytes) i => b.set i (mac (Fin.ofNat 6 i))) frame
    out.length = frame.length ∧ (∀ j, 6 ≤ j → byteAt out j = byteAt frame j)
      ∧ ∀ j < 6, byteAt out j = mac (Fin.ofNat 6 j) := by
  refine foldl_range_induction _ (fun i (b : Bytes) => b.length = frame.length
    ∧ (∀ j, 6 ≤ j → byteAt b j = byteAt frame j) ∧ ∀ j < i, byteAt b j = mac (Fin.ofNat 6 j))
    ⟨rfl, fun _ _ => rfl, by simp⟩ ?_
  rintro i b hi ⟨h1, h2, h3⟩
  refine ⟨by rw [List.length_set, h1], fun j hj => ?_, fun j hj => ?_⟩
  · rw [byteAt_set_of_ne (by omega), h2 j hj]
  · rcases Nat.eq_or_lt_of_le (Nat.le_of_lt_succ hj) with rfl | hlt
    · exact byteAt_set_self (by omega) _
    · rw [byteAt_set_of_ne (by omega), h3 j hlt]

/-- From the gradient header on, a forwarded frame differs from the frame in three fields. -/
theorem byteAt_rewriteHeaders (cfg : NetsumConfig) (L : BitVec 16) {frame : Bytes}
    (hlen : 6 ≤ frame.length) {j : ℕ} (hj : hdrOff ≤ j) :
    byteAt (rewriteHeaders cfg L frame) j =
      byteAt (store16 (store16 (store16 frame (hdrOff + 12) (swap16 0)) (hdrOff + 14) (swap16 1))
        (hdrOff + 16) (swap16 L)) j := by
  simp only [hdrOff, udpOff, ipOff, ethHdrSize, ipHdrSize, udpHdrSize] at hj
  have hmac := (setMac_spec cfg.psMac (store16 (store16 (store16 frame (hdrOff + 12)
    (swap16 0)) (hdrOff + 14) (swap16 1)) (hdrOff + 16) (swap16 L)) (by simpa using hlen)).2.1 j
    (by omega)
  rw [← hmac]
  simp only [rewriteHeaders, netsumBpfNtohs_eq, hdrOff, udpOff, ipOff, ethHdrSize, ipHdrSize,
    udpHdrSize]
  rw [byteAt_store16_of_disjoint (by omega), byteAt_store16_of_disjoint (by omega),
    byteAt_store16_of_disjoint (by omega), byteAt_store16_of_disjoint (by omega),
    byteAt_store32_of_disjoint (by omega)]

@[simp] theorem length_rewriteHeaders (cfg : NetsumConfig) (L : BitVec 16) {frame : Bytes}
    (hlen : 6 ≤ frame.length) : (rewriteHeaders cfg L frame).length = frame.length := by
  simp only [rewriteHeaders, length_store16, length_store32]
  rw [(setMac_spec cfg.psMac _ (by simpa using hlen)).1]
  simp

/-- The destination of a forwarded frame. -/
theorem destination_rewriteHeaders (cfg : NetsumConfig) (L : BitVec 16) (frame : Bytes)
    (hlen : hdrOff ≤ frame.length) :
    (∀ i : Fin 6, byteAt (rewriteHeaders cfg L frame) i = cfg.psMac i)
      ∧ load32 (rewriteHeaders cfg L frame) (ipOff + 16) = cfg.psIp
      ∧ load16 (rewriteHeaders cfg L frame) (udpOff + 2) = cfg.psPort := by
  simp only [hdrOff, udpOff, ipOff, ethHdrSize, ipHdrSize, udpHdrSize] at hlen
  simp only [rewriteHeaders, hdrOff, udpOff, ipOff, ethHdrSize, ipHdrSize, udpHdrSize]
  generalize hfields : store16 (store16 (store16 frame _ _) _ _) _ _ = b
  have hb : b.length = frame.length := by simp [← hfields]
  obtain ⟨hlenm, -, hmac⟩ := setMac_spec cfg.psMac b (by omega)
  generalize (List.range 6).foldl _ b = m at hlenm hmac ⊢
  refine ⟨fun i => ?_, ?_, ?_⟩
  · have hi := i.isLt
    rw [byteAt_store16_of_disjoint (by omega), byteAt_store16_of_disjoint (by omega),
      byteAt_store16_of_disjoint (by omega), byteAt_store16_of_disjoint (by omega),
      byteAt_store32_of_disjoint (by omega), hmac i hi]
    exact congrArg cfg.psMac (Fin.ext (Nat.mod_eq_of_lt hi))
  · refine (load32_congr (c := store32 m 30 cfg.psIp) fun j _ _ => ?_).trans
      (load32_store32 (by omega) _)
    rw [byteAt_store16_of_disjoint (by omega), byteAt_store16_of_disjoint (by omega),
      byteAt_store16_of_disjoint (by omega), byteAt_store16_of_disjoint (by omega)]
  · refine (load16_congr (c := store16 (store32 m 30 cfg.psIp) 36 cfg.psPort) fun j _ _ => ?_).trans
      (load16_store16 (by rw [length_store32]; omega) _)
    rw [byteAt_store16_of_disjoint (by omega), byteAt_store16_of_disjoint (by omega),
      byteAt_store16_of_disjoint (by omega)]

/-- **The forwarded frame.** -/
theorem forwards_rewriteHeaders (cfg : NetsumConfig) {frame : Bytes} {s : GradSlot}
    (hframe : valuesOff ≤ frame.length) (hs : Sound (payload frame))
    (hL : s.chunkLen = (GradHdr.decode (payload frame)).chunkLen) :
    Forwards cfg frame (rewriteHeaders cfg s.chunkLen (writeBack frame s s.chunkLen)) s.tally := by
  have hvalues : valuesOff + 4 * s.chunkLen.toNat ≤ frame.length :=
    hL ▸ values_le_length hframe hs
  obtain ⟨hlen, hahead, hsums⟩ := writeBack_spec (s := s) (hL ▸ hs.chunkLen_le) hvalues
  -- the write-back is behind the header
  have hdec := decode_payload_congr hahead
  simp only [valuesOff, hdrOff, udpOff, ipOff, ethHdrSize, ipHdrSize, udpHdrSize,
    netsumHdrSize] at hframe hvalues hsums
  generalize hwb : writeBack frame s s.chunkLen = b at *
  have hlen6 : 6 ≤ b.length := by omega
  obtain ⟨hmac, hip, hport⟩ := destination_rewriteHeaders cfg s.chunkLen b
    (by simp only [hdrOff, udpOff, ipOff, ethHdrSize, ipHdrSize, udpHdrSize]; omega)
  -- from the gradient header on, only three fields are stored
  have hbytes := fun j (hj : hdrOff ≤ j) =>
    byteAt_rewriteHeaders cfg s.chunkLen hlen6 hj
  simp only [hdrOff, udpOff, ipOff, ethHdrSize, ipHdrSize, udpHdrSize, Nat.reduceAdd] at hbytes
  refine ⟨(length_rewriteHeaders _ _ hlen6).trans hlen, ?_, fun i hi => ?_, hmac, hip, hport⟩
  · have hcongr : GradHdr.decode (payload (rewriteHeaders cfg s.chunkLen b)) = GradHdr.decode
        (payload (store16 (store16 (store16 b 54 (swap16 0)) 56 (swap16 1)) 58
          (swap16 s.chunkLen))) := by
      refine GradHdr.decode_congr fun i _ => ?_
      rw [payload, payload, byteAt_drop, byteAt_drop]
      exact hbytes _ (Nat.le_add_right _ _)
    rw [hcongr, ← hdec, GradHdr.ext_iff]
    simp only [GradHdr.decode, payload, be16_drop, be32_drop, hdrOff, udpOff, ipOff, ethHdrSize,
      ipHdrSize, udpHdrSize, Nat.reduceAdd]
    refine ⟨?_, ?_, ?_, ?_, ?_, ?_, ?_⟩
    · simp (disch := omega) only [be32_store16_of_disjoint]
    · simp (disch := omega) only [be32_store16_of_disjoint]
    · simp (disch := omega) only [be32_store16_of_disjoint]
    · simp (disch := omega) only [be16_store16_of_disjoint, be16_store16_swap16]
    · rw [be16_store16_of_disjoint (by omega), be16_store16_swap16]
      simp only [length_store16]
      omega
    · rw [be16_store16_swap16 (by simp only [length_store16]; omega), hL, ← hdec]
      simp only [GradHdr.decode, payload, be16_drop, hdrOff, udpOff, ipOff, ethHdrSize, ipHdrSize,
        udpHdrSize, Nat.reduceAdd]
    · simp (disch := omega) only [be16_store16_of_disjoint]
  · rw [← hL] at hi
    have hsum := hsums i hi
    rw [valueAt_payload]
    simp only [valuesOff, hdrOff, udpOff, ipOff, ethHdrSize, ipHdrSize, udpHdrSize, netsumHdrSize,
      Nat.reduceAdd] at hsum ⊢
    rw [be32_congr fun j hj _ => hbytes j (by omega), be32_store16_of_disjoint (by omega),
      be32_store16_of_disjoint (by omega), be32_store16_of_disjoint (by omega), hsum]
    exact congrArg s.sum (Fin.ext (Nat.mod_eq_of_lt i.isLt))

end NetSum.XdpAgg
