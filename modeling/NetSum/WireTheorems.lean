import NetSum.ParamServer.BufferTheorems
import NetSum.Protocol.Wire
import NetSum.UserspaceAgg.BufferTheorems
import NetSum.XdpAgg.FrameTheorems

/-!
# The wire format at every hop

The worker, the userspace aggregator and the XDP program write packets, both aggregators and the
parameter server read them. The userspace programs read their receive buffer
(`Buffer.readPacket`), the XDP program reads the frame (`readFrame`), and what they read is all
that their loop bodies know of a datagram. A packet is read by all of them as the header and the
values it was written from, and the bytes of a datagram are those its header and its values are
written to (`wire_round_trip`).
-/

namespace NetSum

open NetSum.Lib NetSum.Protocol NetSum.Aggregation UserspaceAgg XdpAgg

/-! ## Readers -/

namespace UserspaceAgg

/-- What `main` of `agg.c` and of `paramserver.c` makes of its receive buffer. -/
def Buffer.readPacket (inPacket : Buffer) : GradHdr × List ℤ :=
  decodeWith ntohs ntohl inPacket.bytes 0

/-- The value at `i` that is read is the one that is added. -/
theorem Buffer.getD_readPacket (inPacket : Buffer) {i : ℕ}
    (hi : i < inPacket.readPacket.1.chunkLen.toNat) :
    BitVec.ofInt 32 (inPacket.readPacket.2.getD i 0)
      = ntohl (load32 inPacket.bytes (netsumHdrSize + 4 * i)) := by
  have hlen : i < inPacket.readPacket.2.length := by
    simpa [readPacket, decodeWith] using hi
  have hget : inPacket.readPacket.2[i]
      = (ntohl (load32 inPacket.bytes (netsumHdrSize + 4 * i))).toInt := by
    simp [readPacket, decodeWith]
  rw [List.getD_eq_getElem _ _ hlen, hget, BitVec.ofInt_toInt]

/-- The loop body knows of a datagram what `readPacket` says. -/
theorem receivePhase_readPacket (args : Args) (st : State) {ev : Event} {d : Bytes}
    (hrecv : ev.received = some d) (hd : WellFormed d) :
    let inPacket := st.inPacket.recvfrom d
    receivePhase args st ev
      = slotPhase args { st with inPacket, packetsIn := st.packetsIn + 1 } ev inPacket.readPacket.1
        fun i => BitVec.ofInt 32 (inPacket.readPacket.2.getD i 0) := by
  intro inPacket
  have hhdr : inPacket.readPacket.1 = GradHdr.decode d := decode_recvfrom st.inPacket hd.hdr_le
  rw [receivePhase_of_wellFormed args st hrecv hd, hhdr, slotPhase, slotPhase]
  refine congrArg _ (processContribution_congr fun i hi => ?_)
  exact (inPacket.getD_readPacket (hhdr ▸ hi)).symm

end UserspaceAgg

/-- So does the loop body of the parameter server. -/
theorem ParamServer.mainStep_readPacket (mode : ParamServer.Mode) (st : ParamServer.State)
    {ev : ParamServer.Event} {d : Bytes} (hrecv : ev.received = some d)
    (hd : ParamServer.Readable d) :
    let packet := st.packet.recvfrom d
    ParamServer.mainStep mode st ev
      = ParamServer.slotPhase mode { st with packet, packetsSeen := st.packetsSeen + 1 } ev
        packet.readPacket.1 fun i => BitVec.ofInt 32 (packet.readPacket.2.getD i 0) := by
  intro packet
  have hhdr : packet.readPacket.1 = GradHdr.decode d := decode_recvfrom st.packet hd.hdr_le
  have hsum : ∀ sum, Slot.sumLoop sum (GradHdr.decode d).chunkLen.toNat
      (ParamServer.bufferValues st.packet d) = Slot.sumLoop sum (GradHdr.decode d).chunkLen.toNat
        fun i => BitVec.ofInt 32 (packet.readPacket.2.getD i 0) := by
    intro sum
    apply ParamServer.sumLoop_congr
    intro i hi
    exact (packet.getD_readPacket (hhdr ▸ hi)).symm
  rw [ParamServer.mainStep_of_readable mode st hrecv hd, hhdr]
  simp only [ParamServer.slotPhase, ParamServer.Slot.contribute, ParamServer.Slot.accumulate, hsum]
  rfl

namespace XdpAgg

/-- What the program makes of a frame. -/
def readFrame (frame : Bytes) : GradHdr × List ℤ :=
  decodeWith netsumBpfNtohs netsumBpfNtohl frame hdrOff

/-- The program knows of a frame what `readFrame` says: the variables of the header checks, and
the values that are added under the lock. -/
theorem parse_readFrame {frame : Bytes} (h : IsGradient frame) (hs : Sound (payload frame)) :
    let r := readFrame frame
    let p : Parsed := ⟨r.1.key, r.1.workerId, r.1.numWorkers, r.1.chunkLen⟩
    parse frame = .ok p ∧ ∀ (s : GradSlot) (i : Fin netsumMaxChunkLen), (s.accumulate frame p).sum i
      = if (i : ℕ) < r.1.chunkLen.toNat then s.sum i + BitVec.ofInt 32 (r.2.getD i 0)
        else s.sum i := by
  intro r p
  have hr : r = wireContents (payload frame) := decodeWith_netsumBpfNtoh frame hdrOff
  have hp : p = Parsed.ofPayload (payload frame) := by
    simp only [p, hr]
    rfl
  refine ⟨hp ▸ parse_of_sound h hs, fun s i => ?_⟩
  have hchunk : r.1.chunkLen = (GradHdr.decode (payload frame)).chunkLen := by rw [hr]; rfl
  rw [hp, GradSlot.sum_accumulate s hs.chunkLen_le (values_le_length h.length_le hs) i, hchunk]
  by_cases hi : (i : ℕ) < (GradHdr.decode (payload frame)).chunkLen.toNat
  · have hlen : (i : ℕ) < r.2.length := by rw [hr]; simpa [wireContents] using hi
    have hget : r.2[(i : ℕ)] = (valueAt (payload frame) i).toInt := by simp [hr, wireContents]
    rw [if_pos hi, if_pos (show (i : ℕ) < (Parsed.ofPayload (payload frame)).chunkLen.toNat from hi),
      List.getD_eq_getElem _ _ hlen, hget, BitVec.ofInt_toInt, valueAt_payload]
  · rw [if_neg hi, if_neg (show ¬ (i : ℕ) < (Parsed.ofPayload (payload frame)).chunkLen.toNat from hi)]

end XdpAgg

/-! ## The same for every reader -/

/-- Everyone who receives the datagram reads `c`: the two userspace programs whatever their buffer
held, and the XDP program whatever headers it comes in and whatever is behind it. -/
structure ReadAs (d : Bytes) (c : GradHdr × List ℤ) : Prop where
  userspace : ∀ inPacket : Buffer, (inPacket.recvfrom d).readPacket = c
  xdp : ∀ hdrs trailer : Bytes, hdrs.length = hdrOff → readFrame (hdrs ++ d ++ trailer) = c

/-- A datagram that carries its values is read as what it carries. -/
theorem readAs_wireContents {d : Bytes}
    (hchunk : (GradHdr.decode d).chunkLen.toNat ≤ netsumMaxChunkLen)
    (hlen : netsumHdrSize + 4 * (GradHdr.decode d).chunkLen.toNat ≤ d.length) :
    ReadAs d (wireContents d) where
  userspace inPacket := by
    rw [Buffer.readPacket, decodeWith_ntoh, List.drop_zero]
    apply wireContents_congr
    intro i hi
    refine byteAt_recvfrom inPacket (by omega) ?_
    simp only [netsumMaxPacketSize]
    omega
  xdp hdrs trailer hhdrs := by
    have hdrop : (hdrs ++ d ++ trailer).drop hdrOff = d ++ trailer := by
      rw [List.append_assoc, ← hhdrs, List.drop_left]
    rw [readFrame, decodeWith_netsumBpfNtoh, hdrop]
    apply wireContents_congr
    intro i hi
    exact byteAt_append_left (by omega)

/-- The buffers have room for every packet. -/
theorem Buffer.fits (buf : Buffer) {n : ℕ} (hn : n ≤ netsumMaxChunkLen) :
    netsumHdrSize + 4 * n ≤ buf.bytes.length := by
  rw [buf.length_eq]
  simp only [netsumMaxPacketSize]
  omega

theorem readAs_encode (buf : Buffer) {hdr : GradHdr} {values : List ℤ}
    (hlen : values.length = hdr.chunkLen.toNat) (hle : values.length ≤ netsumMaxChunkLen)
    (hint : ∀ v ∈ values, IsInt32 v) : ReadAs (encode buf.bytes hdr values) (hdr, values) := by
  have hfits := Buffer.fits buf (hlen ▸ hle)
  have hcontents := wireContents_encode hfits hlen hint
  have hhdr : GradHdr.decode (encode buf.bytes hdr values) = hdr := congrArg Prod.fst hcontents
  have hread := readAs_wireContents (d := encode buf.bytes hdr values)
  rw [hcontents, hhdr] at hread
  exact hread (hlen ▸ hle) (length_encode hdr values hfits).ge

/-- The first `n` sums of a slot, as `int32_t`. -/
def int32s (sum : Fin netsumMaxChunkLen → BitVec 32) (n : ℕ) : List ℤ :=
  (List.range n).map fun i => (sum (Fin.ofNat _ i)).toInt

/-- A packet that reports a header and the sums of a slot is read as these. -/
theorem readAs_of_values {p : Bytes} {hdr : GradHdr} {sum : Fin netsumMaxChunkLen → BitVec 32}
    (hhdr : GradHdr.decode p = hdr) (hchunk : hdr.chunkLen.toNat ≤ netsumMaxChunkLen)
    (hlen : netsumHdrSize + 4 * hdr.chunkLen.toNat ≤ p.length)
    (hsum : ∀ i : Fin netsumMaxChunkLen, (i : ℕ) < hdr.chunkLen.toNat → valueAt p i = sum i) :
    ReadAs p (hdr, int32s sum hdr.chunkLen.toNat) := by
  have hread := readAs_wireContents (d := p) (hhdr ▸ hchunk) (hhdr ▸ hlen)
  have hvalues : (List.range hdr.chunkLen.toNat).map (fun i => (valueAt p i).toInt)
      = int32s sum hdr.chunkLen.toNat := by
    apply List.map_congr_left
    intro i hi
    have hi' : i < hdr.chunkLen.toNat := List.mem_range.mp hi
    have hval : (Fin.ofNat netsumMaxChunkLen i : ℕ) = i := Nat.mod_eq_of_lt (by omega)
    have h := hsum (Fin.ofNat _ i) (by omega)
    rw [hval] at h
    rw [h]
  rwa [wireContents, hhdr, hvalues] at hread

/-- What the userspace aggregator sends. It writes the packet as the worker does. -/
theorem readAs_writeOutPacket (out : Buffer) (k : GradSlotKey) (s : Slot)
    (hs : s.chunkLen.toNat ≤ netsumMaxChunkLen) :
    ReadAs ((out.writeOutPacket k s).bytes.take (netsumHdrSize + 4 * s.chunkLen.toNat))
      (outHdr k s, int32s s.sum s.chunkLen.toNat) := by
  obtain ⟨hlen, hhdr, hvalue⟩ := decode_packet (outHdr k s) (fun i => s.sum (Fin.ofNat _ i))
    (Buffer.fits out (n := (outHdr k s).chunkLen.toNat) hs)
  apply readAs_of_values hhdr hs hlen.ge
  intro i hi
  exact (hvalue i hi).trans (congrArg s.sum (Fin.ext (Nat.mod_eq_of_lt i.isLt)))

/-- What the XDP program sends. It writes into the frame that completed the key. -/
theorem readAs_rewriteHeaders (cfg : NetsumConfig) {frame : Bytes} {s : GradSlot}
    (hframe : valuesOff ≤ frame.length) (hs : Sound (payload frame))
    (hchunk : s.chunkLen = (GradHdr.decode (payload frame)).chunkLen) :
    ReadAs (payload (rewriteHeaders cfg s.chunkLen (writeBack frame s s.chunkLen)))
      ({ GradHdr.decode (payload frame) with workerId := 0, numWorkers := 1 },
        int32s s.sum s.chunkLen.toNat) := by
  have hforward := forwards_rewriteHeaders cfg hframe hs hchunk
  have hlen : (payload (rewriteHeaders cfg s.chunkLen (writeBack frame s s.chunkLen))).length
      = (payload frame).length := by
    rw [length_payload, hforward.length_eq, length_payload]
  have hsums : int32s s.sum s.chunkLen.toNat
      = int32s s.sum (GradHdr.decode (payload frame)).chunkLen.toNat := by rw [hchunk]
  rw [hsums]
  exact readAs_of_values hforward.hdr_eq hs.chunkLen_le (hs.values_le.trans hlen.ge)
    hforward.value_eq

/-- **Wire round trip.** What a sender encodes, every receiver reads; what a receiver reads of a
datagram without trailing bytes is encoded to the same bytes; and what the two aggregators send on
is read as the header and the sums they wrote. -/
theorem wire_round_trip :
    (∀ (buf : Buffer) (hdr : GradHdr) (values : List ℤ), values.length = hdr.chunkLen.toNat →
      values.length ≤ netsumMaxChunkLen → (∀ v ∈ values, IsInt32 v) →
      (encode buf.bytes hdr values).length = netsumHdrSize + 4 * values.length
        ∧ ReadAs (encode buf.bytes hdr values) (hdr, values))
    ∧ (∀ d : Bytes, WellFormed d →
      d.length = netsumHdrSize + 4 * (GradHdr.decode d).chunkLen.toNat →
      ∃ c, ReadAs d c ∧ c.2.length = c.1.chunkLen.toNat ∧ (∀ v ∈ c.2, IsInt32 v)
        ∧ ∀ buf : Buffer, encode buf.bytes c.1 c.2 = d)
    ∧ (∀ (out : Buffer) (k : GradSlotKey) (s : Slot), s.chunkLen.toNat ≤ netsumMaxChunkLen →
      ReadAs ((out.writeOutPacket k s).bytes.take (netsumHdrSize + 4 * s.chunkLen.toNat))
        (outHdr k s, int32s s.sum s.chunkLen.toNat))
    ∧ ∀ (cfg : NetsumConfig) (frame : Bytes) (s : GradSlot), valuesOff ≤ frame.length →
      Sound (payload frame) → s.chunkLen = (GradHdr.decode (payload frame)).chunkLen →
      ReadAs (payload (rewriteHeaders cfg s.chunkLen (writeBack frame s s.chunkLen)))
        ({ GradHdr.decode (payload frame) with workerId := 0, numWorkers := 1 },
          int32s s.sum s.chunkLen.toNat) := by
  refine ⟨fun buf hdr values hlen hle hint => ⟨?_, readAs_encode buf hlen hle hint⟩,
    fun d hd hlen => ⟨wireContents d, readAs_wireContents hd.chunkLen_le hd.values_le,
      (wireContents_values d).1, (wireContents_values d).2, fun buf => ?_⟩,
    readAs_writeOutPacket, fun cfg frame s => readAs_rewriteHeaders cfg⟩
  · rw [hlen]
    exact length_encode hdr values (Buffer.fits buf (hlen ▸ hle))
  · refine encode_wireContents ?_ hlen
    rw [hlen]
    exact Buffer.fits buf hd.chunkLen_le

/-- A packet with a negative value and the largest one. -/
theorem wire_round_trip_signed :
    ReadAs (encode Buffer.zero.bytes ⟨7, 1, 0, 3, 4, 2, 0⟩ [-5, 2147483647])
      (⟨7, 1, 0, 3, 4, 2, 0⟩, [-5, 2147483647]) :=
  (wire_round_trip.1 Buffer.zero ⟨7, 1, 0, 3, 4, 2, 0⟩ [-5, 2147483647] (by decide) (by decide)
    (by decide)).2

end NetSum
