import NetSum.Lib.Datagram
import NetSum.XdpAgg.ChecksumTheorems

/-!
# The datagram in a frame

The program does not look for the end of the datagram in a frame: it takes the payload to end where
the frame does, never reads `udp->len`, and verifies no checksum. A protocol stack does all of
that. Here is what a stack finds in a frame without IP options (`holdsUdp_iff_of_ihl`), and that a
forwarded frame holds a datagram to the parameter server if the frame that came in held one
(`holdsUdp_rewriteHeaders`): the program leaves the lengths, clears the UDP checksum and
completes the IP header's.
-/

namespace NetSum.XdpAgg

open NetSum.Lib NetSum.Protocol

/-! ## Without options -/

/-- `udp->len`. -/
def udpLen (frame : Bytes) : ℕ := (be16 frame (udpOff + 4)).toNat

/-- `iph->tot_len`. -/
def totLen (frame : Bytes) : ℕ := (be16 frame (ipOff + 2)).toNat

/-- The payload of the UDP datagram, as `udp->len` delimits it. -/
def udpPayload (frame : Bytes) : Bytes := (payload frame).take (udpLen frame - udpHdrSize)

/-- An IPv4 packet without options, no fragment, that holds a UDP datagram to the port; the packet
lies within the frame and the datagram within the packet. Whether the checksums verify is left
open. -/
structure HoldsDatagram (port : ℕ) (frame : Bytes) : Prop where
  ip : be16 frame 12 = 0x0800#16
  version_ihl : byteAt frame ipOff = 0x45#8
  unfragmented : be16 frame (ipOff + 6) &&& 0x3fff#16 = 0#16
  udp : byteAt frame (ipOff + 9) = 17#8
  port : (be16 frame (udpOff + 2)).toNat = port
  udpLen_ge : udpHdrSize ≤ udpLen frame
  udpLen_le : ipHdrSize + udpLen frame ≤ totLen frame
  totLen_le : ethHdrSize + totLen frame ≤ frame.length

theorem holdsDatagram_iff (port : ℕ) (frame : Bytes) :
    HoldsDatagram port frame ↔ be16 frame 12 = 0x0800#16 ∧ byteAt frame ipOff = 0x45#8
      ∧ be16 frame (ipOff + 6) &&& 0x3fff#16 = 0#16 ∧ byteAt frame (ipOff + 9) = 17#8
      ∧ (be16 frame (udpOff + 2)).toNat = port ∧ udpHdrSize ≤ udpLen frame
      ∧ ipHdrSize + udpLen frame ≤ totLen frame ∧ ethHdrSize + totLen frame ≤ frame.length :=
  ⟨fun h => ⟨h.1, h.2, h.3, h.4, h.5, h.6, h.7, h.8⟩,
    fun ⟨h1, h2, h3, h4, h5, h6, h7, h8⟩ => ⟨h1, h2, h3, h4, h5, h6, h7, h8⟩⟩

instance (port : ℕ) (frame : Bytes) : Decidable (HoldsDatagram port frame) :=
  decidable_of_iff' _ (holdsDatagram_iff port frame)

section

variable {port : ℕ} {frame : Bytes}

/-- The datagram is as long as it says, and lies within the frame. -/
theorem HoldsDatagram.length_udpPayload (h : HoldsDatagram port frame) :
    udpHdrSize + (udpPayload frame).length = udpLen frame
      ∧ hdrOff + (udpPayload frame).length ≤ frame.length := by
  have hge := h.udpLen_ge
  have hle := h.udpLen_le
  have htot := h.totLen_le
  rw [udpPayload, List.length_take, length_payload]
  simp only [hdrOff, udpOff, ipOff, ethHdrSize, ipHdrSize, udpHdrSize] at *
  omega

/-- The header is the datagram's when the datagram has one. -/
theorem decode_udpPayload (h : udpHdrSize + netsumHdrSize ≤ udpLen frame) :
    GradHdr.decode (udpPayload frame) = GradHdr.decode (payload frame) :=
  GradHdr.decode_congr fun _ hi => byteAt_take (by omega)

/-! ## What a stack finds -/

/-- The checksums of a packet without options and of its datagram verify. -/
structure Verifies (frame : Bytes) : Prop where
  ip : onesSum (wordsAt frame ipOff 10) = 0xffff#16
  udp : be16 frame (udpOff + 6) = 0#16 ∨ onesSum (udpWords frame) = 0xffff#16

/-- Without options the UDP header is where the program takes it to be. -/
theorem udpStart_eq (h : byteAt frame ipOff &&& 0x0f#8 = 5#8) : udpStart frame = udpOff := by
  rw [udpStart, ipHeaderLen, h]
  rfl

theorem udpLength_eq (h : byteAt frame ipOff &&& 0x0f#8 = 5#8) : udpLength frame = udpLen frame := by
  rw [udpLength, udpStart_eq h, udpLen]

theorem udpData_eq_udpPayload (h : byteAt frame ipOff &&& 0x0f#8 = 5#8) :
    udpData frame = udpPayload frame := by
  rw [udpData_eq_take, udpStart_eq h, udpLength_eq h]
  rfl

/-- The version is the high half of the byte that has the header length in its low half. -/
theorem version_ihl_iff (b : Byte) : b = 0x45#8 ↔ b >>> 4 = 4#8 ∧ b &&& 0x0f#8 = 5#8 := by
  revert b
  decide

theorem HoldsDatagram.ihl (h : HoldsDatagram port frame) : byteAt frame ipOff &&& 0x0f#8 = 5#8 :=
  ((version_ihl_iff _).mp h.version_ihl).2

/-- A stack asks for the checksums besides. -/
theorem holdsUdp_iff_of_ihl (h : byteAt frame ipOff &&& 0x0f#8 = 5#8) :
    HoldsUdp port frame ↔ HoldsDatagram port frame ∧ Verifies frame := by
  have hlen : ipHeaderLen frame = ipHdrSize := by
    rw [ipHeaderLen, h]
    rfl
  have hudp : udpLength frame = udpLen frame := udpLength_eq h
  have hstart : udpStart frame = udpOff := udpStart_eq h
  constructor
  · intro hholds
    have hport := hholds.port_eq
    have hge := hholds.length_ge
    have hle := hholds.length_le
    have hip := hholds.verifies
    have hsums := hholds.sums
    rw [hstart] at hport hsums
    rw [hudp] at hge hle
    rw [hlen] at hle hip
    exact ⟨⟨hholds.etherType_eq, (version_ihl_iff _).mpr ⟨hholds.version_eq, h⟩,
      hholds.unfragmented, hholds.protocol_eq, hport, hge, hle, hholds.totalLen_le⟩, hip, hsums⟩
  · rintro ⟨hholds, hip, hsums⟩
    have hge := hholds.udpLen_ge
    have hle := hholds.udpLen_le
    refine
      { etherType_eq := hholds.ip
        version_eq := ((version_ihl_iff _).mp hholds.version_ihl).1
        headerLen_ge := hlen.ge
        headerLen_le := ?_
        totalLen_le := hholds.totLen_le
        verifies := by rwa [hlen]
        unfragmented := hholds.unfragmented
        protocol_eq := hholds.udp
        port_eq := by rw [hstart]; exact hholds.port
        length_ge := by rwa [hudp]
        length_le := by rwa [hlen, hudp]
        sums := by rwa [hstart] }
    rw [hlen]
    exact (Nat.le_add_right _ _).trans hle

end

/-! ## What the program forwards -/

/-- The bytes that `rewriteHeaders` leaves: the type of the frame, the IP header but for the
checksum and the destination, and the source port and length of the datagram. -/
def Kept (j : ℕ) : Prop := 12 ≤ j ∧ j < 24 ∨ 26 ≤ j ∧ j < 30 ∨ 34 ≤ j ∧ j < 36 ∨ 38 ≤ j ∧ j < 40

instance (j : ℕ) : Decidable (Kept j) := inferInstanceAs (Decidable (_ ∨ _))

section

variable {frame : Bytes} (cfg : NetsumConfig) (finalChunkLen : BitVec 16)

theorem byteAt_rewriteHeaders_of_kept (hlen : 6 ≤ frame.length) {j : ℕ} (hj : Kept j) :
    byteAt (rewriteHeaders cfg finalChunkLen frame) j = byteAt frame j := by
  unfold Kept at hj
  simp only [rewriteHeaders, hdrOff, udpOff, ipOff, ethHdrSize, ipHdrSize, udpHdrSize]
  rw [byteAt_store16_of_disjoint (by omega), byteAt_store16_of_disjoint (by omega),
    byteAt_store16_of_disjoint (by omega), byteAt_store16_of_disjoint (by omega),
    byteAt_store32_of_disjoint (by omega),
    (setMac_spec cfg.psMac _ (by simpa using hlen)).2.1 j (by omega),
    byteAt_store16_of_disjoint (by omega), byteAt_store16_of_disjoint (by omega),
    byteAt_store16_of_disjoint (by omega)]

theorem be16_rewriteHeaders_of_kept (hlen : 6 ≤ frame.length) {j : ℕ} (hj : Kept j)
    (hj' : Kept (j + 1)) : be16 (rewriteHeaders cfg finalChunkLen frame) j = be16 frame j := by
  rw [be16, be16, byteAt_rewriteHeaders_of_kept cfg finalChunkLen hlen hj,
    byteAt_rewriteHeaders_of_kept cfg finalChunkLen hlen hj']

theorem udpLen_rewriteHeaders (hlen : 6 ≤ frame.length) :
    udpLen (rewriteHeaders cfg finalChunkLen frame) = udpLen frame := by
  rw [udpLen, be16_rewriteHeaders_of_kept cfg finalChunkLen hlen (by decide)
    (by decide), udpLen]

/-- The datagram goes out without a checksum. -/
theorem udpCheck_rewriteHeaders (hlen : hdrOff ≤ frame.length) :
    be16 (rewriteHeaders cfg finalChunkLen frame) (udpOff + 6) = 0#16 := by
  simp only [hdrOff, udpOff, ipOff, ethHdrSize, ipHdrSize, udpHdrSize] at hlen
  simp only [rewriteHeaders, hdrOff, udpOff, ipOff, ethHdrSize, ipHdrSize, udpHdrSize]
  generalize hfields : store16 (store16 (store16 frame _ _) _ _) _ _ = b
  have hb : b.length = frame.length := by simp [← hfields]
  obtain ⟨hlenm, -, -⟩ := setMac_spec cfg.psMac b (by omega)
  generalize (List.range 6).foldl _ b = m at hlenm ⊢
  rw [be16_store16_of_disjoint (by omega), be16_store16_of_disjoint (by omega), ← swap16_load16,
    load16_store16 (by simp only [length_store16, length_store32]; omega)]
  rfl

/-- A forwarded frame holds a datagram to the parameter server if the frame that is forwarded holds
one. -/
theorem holdsDatagram_rewriteHeaders {port : ℕ} (h : HoldsDatagram port frame) :
    HoldsDatagram (swap16 cfg.psPort).toNat (rewriteHeaders cfg finalChunkLen frame) := by
  have hlen : hdrOff ≤ frame.length := (Nat.le_add_right _ _).trans h.length_udpPayload.2
  have hlen6 : 6 ≤ frame.length := by
    simp only [hdrOff, udpOff, ipOff, ethHdrSize, ipHdrSize, udpHdrSize] at hlen
    omega
  obtain ⟨-, -, hport⟩ := destination_rewriteHeaders cfg finalChunkLen frame hlen
  have hword := fun {j : ℕ} => be16_rewriteHeaders_of_kept (j := j) cfg finalChunkLen hlen6
  have hbyte := fun {j : ℕ} => byteAt_rewriteHeaders_of_kept (j := j) cfg finalChunkLen hlen6
  have htot : totLen (rewriteHeaders cfg finalChunkLen frame) = totLen frame := by
    rw [totLen, hword (by decide) (by decide), totLen]
  exact
    { ip := (hword (by decide) (by decide)).trans h.ip
      version_ihl := (hbyte (by decide)).trans h.version_ihl
      unfragmented := by rw [hword (by decide) (by decide)]; exact h.unfragmented
      udp := (hbyte (by decide)).trans h.udp
      port := by rw [← swap16_load16, hport]
      udpLen_ge := by rw [udpLen_rewriteHeaders cfg finalChunkLen hlen6]; exact h.udpLen_ge
      udpLen_le := by rw [udpLen_rewriteHeaders cfg finalChunkLen hlen6, htot]; exact h.udpLen_le
      totLen_le := by
        rw [htot, length_rewriteHeaders cfg finalChunkLen hlen6]
        exact h.totLen_le }

/-- Its checksums verify. -/
theorem verifies_rewriteHeaders (hlen : hdrOff ≤ frame.length) :
    Verifies (rewriteHeaders cfg finalChunkLen frame) := by
  obtain ⟨-, -, hsum, -⟩ := rewriteHeaders_verifies cfg finalChunkLen hlen
  exact ⟨hsum, .inl (udpCheck_rewriteHeaders cfg finalChunkLen hlen)⟩

/-- **A forwarded frame holds what a stack asks for.** -/
theorem holdsUdp_rewriteHeaders {port : ℕ} (h : HoldsDatagram port frame) :
    HoldsUdp (swap16 cfg.psPort).toNat (rewriteHeaders cfg finalChunkLen frame) := by
  have hout := holdsDatagram_rewriteHeaders cfg finalChunkLen h
  have hlen : hdrOff ≤ frame.length := (Nat.le_add_right _ _).trans h.length_udpPayload.2
  exact (holdsUdp_iff_of_ihl hout.ihl).mpr ⟨hout, verifies_rewriteHeaders cfg finalChunkLen hlen⟩

end

/-- The write-back leaves the length and everything ahead of the values. -/
theorem writeBack_ahead (frame : Bytes) (s : GradSlot) (finalChunkLen : BitVec 16) :
    (writeBack frame s finalChunkLen).length = frame.length
      ∧ ∀ j < valuesOff, byteAt (writeBack frame s finalChunkLen) j = byteAt frame j := by
  unfold writeBack valueLoop
  generalize (List.range netsumMaxChunkLen).takeWhile _ = is
  induction is using List.reverseRecOn with
  | nil => exact ⟨rfl, fun _ _ => rfl⟩
  | append_singleton is i ih =>
    rw [List.foldl_concat, length_store32]
    refine ⟨ih.1, fun j hj => ?_⟩
    rw [byteAt_store32_of_disjoint (.inl (by omega)), ih.2 j hj]

/-- Whether a frame holds a datagram is read ahead of the values. -/
theorem HoldsDatagram.congr {port : ℕ} {frame frame' : Bytes} (h : HoldsDatagram port frame)
    (hlen : frame'.length = frame.length) (hahead : ∀ j < valuesOff, byteAt frame' j = byteAt frame j) :
    HoldsDatagram port frame' ∧ udpLen frame' = udpLen frame := by
  have hword : ∀ j, j + 1 < valuesOff → be16 frame' j = be16 frame j := by
    intro j hj
    rw [be16, be16, hahead j (by omega), hahead (j + 1) hj]
  have hudp : udpLen frame' = udpLen frame := congrArg BitVec.toNat (hword _ (by decide))
  have htot : totLen frame' = totLen frame := congrArg BitVec.toNat (hword _ (by decide))
  refine ⟨?_, hudp⟩
  exact
    { ip := (hword _ (by decide)).trans h.ip
      version_ihl := (hahead _ (by decide)).trans h.version_ihl
      unfragmented := by rw [hword _ (by decide)]; exact h.unfragmented
      udp := (hahead _ (by decide)).trans h.udp
      port := by rw [hword _ (by decide)]; exact h.port
      udpLen_ge := hudp ▸ h.udpLen_ge
      udpLen_le := by rw [hudp, htot]; exact h.udpLen_le
      totLen_le := by rw [htot, hlen]; exact h.totLen_le }

end NetSum.XdpAgg
