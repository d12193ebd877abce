import NetSum.Lib.OnesComplement
import NetSum.XdpAgg.FrameTheorems

/-!
# The rewritten IP header verifies

`ip_checksum` adds the words of the header but for the checksum in 32 bits, reads them as the host
does and folds twice. The sum of nine words fits into 32 bits and two folds leave no carry, so the
complement completes the header to all ones, as the host reads it and as it goes over the wire
(`rewriteHeaders_verifies`).
-/

namespace NetSum.XdpAgg

open NetSum.Lib NetSum.Protocol

/-- The ten words of the IP header, as the host reads them. -/
def ipWords (frame : Bytes) : List (BitVec 16) :=
  (List.range 10).map fun i => load16 frame (ipOff + 2 * i)

/-- The ten words of the IP header, as they go over the wire. -/
def ipWordsNet (frame : Bytes) : List (BitVec 16) :=
  (List.range 10).map fun i => be16 frame (ipOff + 2 * i)

/-- The sum that `ip_checksum` folds. -/
def ipSum (frame : Bytes) : BitVec 32 :=
  (List.range 10).foldl
    (fun (sum : BitVec 32) i =>
      if i = 5 then sum else sum + (load16 frame (ipOff + 2 * i)).setWidth 32) 0

theorem ipChecksum_eq (frame : Bytes) :
    ipChecksum frame = ~~~ ((foldCarry (foldCarry (ipSum frame))).setWidth 16) := rfl

theorem ipWordsNet_eq (frame : Bytes) : ipWordsNet frame = (ipWords frame).map swap16 := by
  rw [ipWordsNet, ipWords, List.map_map]
  exact List.map_congr_left fun i _ => (swap16_load16 frame _).symm

/-- The words ahead of the checksum and the words behind it. -/
def wordsAhead (frame : Bytes) : List (BitVec 16) :=
  (List.range 5).map fun i => load16 frame (ipOff + 2 * i)

def wordsBehind (frame : Bytes) : List (BitVec 16) :=
  (List.range' 6 4).map fun i => load16 frame (ipOff + 2 * i)

theorem ipWords_eq (frame : Bytes) :
    ipWords frame = wordsAhead frame ++ load16 frame (ipOff + 10) :: wordsBehind frame := rfl

/-- Nine words do not overflow 32 bits. -/
theorem toNat_ipSum (frame : Bytes) :
    (ipSum frame).toNat = natSum (wordsAhead frame ++ wordsBehind frame) := by
  have hskip : ipSum frame = (wordsAhead frame ++ wordsBehind frame).foldl
      (fun (sum : BitVec 32) w => sum + w.setWidth 32) 0 := rfl
  rw [hskip, toNat_foldl_add (by simp [wordsAhead, wordsBehind])]
  exact Nat.zero_add _

/-- Storing the checksum leaves the other words. -/
theorem words_store16 (frame : Bytes) (v : BitVec 16) :
    wordsAhead (store16 frame (ipOff + 10) v) = wordsAhead frame
      ∧ wordsBehind (store16 frame (ipOff + 10) v) = wordsBehind frame := by
  constructor
  · refine List.map_congr_left fun i hi => load16_congr fun j _ _ => ?_
    rw [List.mem_range] at hi
    exact byteAt_store16_of_disjoint (by omega) v
  · refine List.map_congr_left fun i hi => load16_congr fun j _ _ => ?_
    rw [List.mem_range'_1] at hi
    exact byteAt_store16_of_disjoint (by omega) v

/-- A header with its checksum stored verifies. -/
theorem onesSum_store_ipChecksum {frame : Bytes} (hlen : udpOff ≤ frame.length) :
    onesSum (ipWords (store16 frame (ipOff + 10) (ipChecksum frame))) = 0xffff#16 := by
  obtain ⟨hahead, hbehind⟩ := words_store16 frame (ipChecksum frame)
  have hin : ipOff + 10 + 1 < frame.length := by
    simp only [udpOff, ipOff, ethHdrSize, ipHdrSize] at hlen ⊢
    omega
  refine onesSum_complement (toNat_ipSum frame) ?_
  rw [ipWords_eq, hahead, hbehind, load16_store16 hin, ipChecksum_eq]

/-- The checksum is stored last. -/
theorem rewriteHeaders_eq_store (cfg : NetsumConfig) (finalChunkLen : BitVec 16) {frame : Bytes}
    (hlen : hdrOff ≤ frame.length) :
    ∃ b : Bytes, b.length = frame.length
      ∧ rewriteHeaders cfg finalChunkLen frame = store16 b (ipOff + 10) (ipChecksum b) := by
  have hlen6 : 6 ≤ frame.length := by
    simp only [hdrOff, udpOff, ipOff, ethHdrSize, ipHdrSize, udpHdrSize] at hlen
    omega
  have hout := length_rewriteHeaders cfg finalChunkLen hlen6
  simp only [rewriteHeaders] at hout ⊢
  exact ⟨_, (length_store16 ..).symm.trans hout, rfl⟩

/-- **The rewritten IP header verifies.** Its words add up to all ones as the host reads them and
as a receiver does, and no sum that is folded loses a carry. -/
theorem rewriteHeaders_verifies (cfg : NetsumConfig) (finalChunkLen : BitVec 16) {frame : Bytes}
    (hlen : hdrOff ≤ frame.length) :
    load32 (rewriteHeaders cfg finalChunkLen frame) (ipOff + 16) = cfg.psIp
      ∧ onesSum (ipWords (rewriteHeaders cfg finalChunkLen frame)) = 0xffff#16
      ∧ onesSum (ipWordsNet (rewriteHeaders cfg finalChunkLen frame)) = 0xffff#16
      ∧ ∀ b : Bytes, ipChecksum b = ~~~ ((foldCarry (foldCarry (ipSum b))).setWidth 16)
        ∧ (ipSum b).toNat = natSum (wordsAhead b ++ wordsBehind b)
        ∧ (foldCarry (foldCarry (ipSum b))).toNat < 2 ^ 16 := by
  have hsum : onesSum (ipWords (rewriteHeaders cfg finalChunkLen frame)) = 0xffff#16 := by
    obtain ⟨b, hb, hout⟩ := rewriteHeaders_eq_store cfg finalChunkLen hlen
    rw [hout]
    refine onesSum_store_ipChecksum ?_
    rw [hb]
    exact (Nat.le_add_right udpOff udpHdrSize).trans hlen
  refine ⟨(destination_rewriteHeaders cfg finalChunkLen frame hlen).2.1, hsum, ?_, fun b => ?_⟩
  · rwa [ipWordsNet_eq, onesSum_swap_iff]
  · exact ⟨ipChecksum_eq b, toNat_ipSum b, foldCarry_foldCarry_lt _⟩

/-- A worker's frame, forwarded to `192.168.31.254`: the sum of its header has a carry to fold. -/
theorem rewriteHeaders_verifies_carry :
    let out := rewriteHeaders ⟨fun _ => 0xaa, 0xfe1fa8c0, 0x9526, 0⟩ 1
      (wholeFrame (workerPacket ⟨1, 0, 0, 0, 2, 1, 0⟩ fun _ => 5))
    (ipSum out).toNat = 0x1ed6e ∧ load32 out (ipOff + 16) = 0xfe1fa8c0
      ∧ onesSum (ipWords out) = 0xffff#16 ∧ onesSum (ipWordsNet out) = 0xffff#16 := by
  have hlen : hdrOff ≤ (wholeFrame (workerPacket ⟨1, 0, 0, 0, 2, 1, 0⟩ fun _ => 5)).length := by
    decide +kernel
  obtain ⟨haddr, hhost, hnet, -⟩ :=
    rewriteHeaders_verifies ⟨fun _ => 0xaa, 0xfe1fa8c0, 0x9526, 0⟩ 1 hlen
  exact ⟨by decide +kernel, haddr, hhost, hnet⟩

end NetSum.XdpAgg
