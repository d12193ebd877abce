import NetSum.Lib.Bytes
import NetSum.Lib.Loops

/-!
# The wire protocol

`grad_proto.h`: the 20-byte gradient header, the sizes that depend on it, and the byte-order
conversions. Every host that runs this code is little-endian, so `ntohs` and `ntohl` are byte
swaps; the XDP program has its own, made of shifts (`bpf_compat.h`).

A program reads a header by laying `struct grad_hdr` over a buffer (`GradHdr.overlay`, host
loads) and converting each field. Both conversions give `GradHdr.decode`, the fields in network
order (`decode_eq_ntoh`, `decode_eq_netsumBpfNtoh`), which is what the statements about
datagrams speak of.
-/

namespace NetSum.Protocol

open NetSum.Lib

/-! ## Sizes -/

abbrev netsumPort : ℕ := 9876

/-- At most this many values a packet. -/
abbrev netsumMaxChunkLen : ℕ := 64

abbrev netsumHdrSize : ℕ := 20

abbrev netsumMaxPacketSize : ℕ := netsumHdrSize + netsumMaxChunkLen * 4

/-- Worker ids below this bound are tracked, by a byte array or by a bitmap. -/
abbrev maxTrackedWorkers : ℕ := 256

instance : NeZero netsumMaxChunkLen := ⟨by decide⟩

instance : NeZero maxTrackedWorkers := ⟨by decide⟩

/-! ## Byte order -/

def ntohs (v : BitVec 16) : BitVec 16 := swap16 v

def ntohl (v : BitVec 32) : BitVec 32 := swap32 v

def htons (v : BitVec 16) : BitVec 16 := swap16 v

def htonl (v : BitVec 32) : BitVec 32 := swap32 v

def netsumBpfNtohs (v : BitVec 16) : BitVec 16 := v <<< 8 ||| v >>> 8

def netsumBpfNtohl (v : BitVec 32) : BitVec 32 :=
  (v &&& 0x000000ff#32) <<< 24 ||| (v &&& 0x0000ff00#32) <<< 8
    ||| (v &&& 0x00ff0000#32) >>> 8 ||| (v &&& 0xff000000#32) >>> 24

/-- The two pairs of conversions agree. -/
theorem netsumBpfNtohs_eq (v : BitVec 16) : netsumBpfNtohs v = swap16 v := swap16_eq_shifts v

theorem netsumBpfNtohl_eq (v : BitVec 32) : netsumBpfNtohl v = swap32 v := swap32_eq_shifts v

/-! ## The header -/

/-- The key of an aggregation: one chunk of one round of one job. -/
structure GradSlotKey where
  jobId : BitVec 32
  round : BitVec 32
  chunkId : BitVec 32
  deriving DecidableEq, Repr

/-- `struct grad_hdr`. -/
@[ext]
structure GradHdr where
  jobId : BitVec 32
  round : BitVec 32
  chunkId : BitVec 32
  workerId : BitVec 16
  numWorkers : BitVec 16
  chunkLen : BitVec 16
  flags : BitVec 16
  deriving DecidableEq, Repr

namespace GradHdr

/-- The struct laid over the bytes at `off`: each field as the host loads it. -/
def overlay (b : Bytes) (off : ℕ) : GradHdr where
  jobId := load32 b off
  round := load32 b (off + 4)
  chunkId := load32 b (off + 8)
  workerId := load16 b (off + 12)
  numWorkers := load16 b (off + 14)
  chunkLen := load16 b (off + 16)
  flags := load16 b (off + 18)

/-- Every field converted with the given conversions. -/
def convert (s : BitVec 16 → BitVec 16) (l : BitVec 32 → BitVec 32) (h : GradHdr) : GradHdr where
  jobId := l h.jobId
  round := l h.round
  chunkId := l h.chunkId
  workerId := s h.workerId
  numWorkers := s h.numWorkers
  chunkLen := s h.chunkLen
  flags := s h.flags

/-- The header at the start of a datagram, its fields in network order. -/
def decode (b : Bytes) : GradHdr where
  jobId := be32 b 0
  round := be32 b 4
  chunkId := be32 b 8
  workerId := be16 b 12
  numWorkers := be16 b 14
  chunkLen := be16 b 16
  flags := be16 b 18

def key (h : GradHdr) : GradSlotKey := ⟨h.jobId, h.round, h.chunkId⟩

@[simp] theorem jobId_key (h : GradHdr) : h.key.jobId = h.jobId := rfl

theorem decode_eq_ntoh (b : Bytes) (off : ℕ) :
    (overlay b off).convert ntohs ntohl = decode (b.drop off) := by
  simp [convert, overlay, decode, ntohs, ntohl, be16_drop, be32_drop]

theorem decode_eq_netsumBpfNtoh (b : Bytes) (off : ℕ) :
    (overlay b off).convert netsumBpfNtohs netsumBpfNtohl = decode (b.drop off) := by
  simp [convert, overlay, decode, netsumBpfNtohs_eq, netsumBpfNtohl_eq, be16_drop, be32_drop]

/-- A header is read from its twenty bytes. -/
theorem decode_congr {b c : Bytes} (h : ∀ i < netsumHdrSize, byteAt b i = byteAt c i) :
    decode b = decode c := by
  have hb16 : ∀ off, off + 2 ≤ netsumHdrSize → be16 b off = be16 c off := fun off ho =>
    be16_congr fun i _ hi => h i (by omega)
  have hb32 : ∀ off, off + 4 ≤ netsumHdrSize → be32 b off = be32 c off := fun off ho =>
    be32_congr fun i _ hi => h i (by omega)
  simp only [decode, hb32 0 (by decide), hb32 4 (by decide), hb32 8 (by decide),
    hb16 12 (by decide), hb16 14 (by decide), hb16 16 (by decide), hb16 18 (by decide)]

end GradHdr

/-- Value `i` of the payload, in network order. -/
def valueAt (b : Bytes) (i : ℕ) : BitVec 32 := be32 b (netsumHdrSize + 4 * i)

/-- A value is read from bytes the datagram has when it is long enough. -/
theorem valueAt_congr {b c : Bytes} {i m : ℕ}
    (h : ∀ j < netsumHdrSize + 4 * m, byteAt b j = byteAt c j) (hi : i < m) :
    valueAt b i = valueAt c i :=
  be32_congr fun j _ hj => h j (by omega)

/-- A datagram is its header and its values. -/
theorem datagram_ext {b c : Bytes} {m : ℕ} (hb : b.length = netsumHdrSize + 4 * m)
    (hc : c.length = netsumHdrSize + 4 * m) (hdec : GradHdr.decode b = GradHdr.decode c)
    (hval : ∀ i < m, valueAt b i = valueAt c i) : b = c := by
  simp only [GradHdr.decode, GradHdr.mk.injEq] at hdec
  obtain ⟨h0, h4, h8, h12, h14, h16, h18⟩ := hdec
  refine ext_byteAt (hb.trans hc.symm) fun i hi => ?_
  rw [hb] at hi
  by_cases hhdr : i < netsumHdrSize
  · simp only [netsumHdrSize] at hhdr
    obtain h | h | h | h | h | h | h :
        i < 4 ∨ i - 4 < 4 ∧ 4 ≤ i ∨ i - 8 < 4 ∧ 8 ≤ i ∨ i - 12 < 2 ∧ 12 ≤ i
          ∨ i - 14 < 2 ∧ 14 ≤ i ∨ i - 16 < 2 ∧ 16 ≤ i ∨ i - 18 < 2 ∧ 18 ≤ i := by omega
    · simpa using byteAt_of_be32_eq h0 h
    · simpa [Nat.add_sub_cancel' h.2] using byteAt_of_be32_eq h4 h.1
    · simpa [Nat.add_sub_cancel' h.2] using byteAt_of_be32_eq h8 h.1
    · simpa [Nat.add_sub_cancel' h.2] using byteAt_of_be16_eq h12 h.1
    · simpa [Nat.add_sub_cancel' h.2] using byteAt_of_be16_eq h14 h.1
    · simpa [Nat.add_sub_cancel' h.2] using byteAt_of_be16_eq h16 h.1
    · simpa [Nat.add_sub_cancel' h.2] using byteAt_of_be16_eq h18 h.1
  · -- byte `r` of value `j`
    have hsplit : netsumHdrSize + 4 * ((i - netsumHdrSize) / 4) + (i - netsumHdrSize) % 4 = i := by
      omega
    have h := byteAt_of_be32_eq (hval ((i - netsumHdrSize) / 4) (by omega))
      (Nat.mod_lt (i - netsumHdrSize) (by decide : 0 < 4))
    rwa [hsplit] at h

/-! ## Writing a packet -/

/-- Each field of a header converted and stored at the start of a buffer. -/
def writeHdr (out : Bytes) (hdr : GradHdr) : Bytes :=
  let out := store32 out 0 (htonl hdr.jobId)
  let out := store32 out 4 (htonl hdr.round)
  let out := store32 out 8 (htonl hdr.chunkId)
  let out := store16 out 12 (htons hdr.workerId)
  let out := store16 out 14 (htons hdr.numWorkers)
  let out := store16 out 16 (htons hdr.chunkLen)
  store16 out 18 (htons hdr.flags)

/-- A header and its values stored at the start of a buffer. -/
def writePacket (out : Bytes) (hdr : GradHdr) (values : ℕ → BitVec 32) : Bytes :=
  (List.range hdr.chunkLen.toNat).foldl
    (fun out i => store32 out (netsumHdrSize + 4 * i) (htonl (values i))) (writeHdr out hdr)

@[simp] theorem length_writeHdr (out : Bytes) (hdr : GradHdr) :
    (writeHdr out hdr).length = out.length := by simp [writeHdr]

theorem decode_writeHdr {out : Bytes} (hdr : GradHdr) (hout : netsumHdrSize ≤ out.length) :
    GradHdr.decode (writeHdr out hdr) = hdr := by
  simp only [netsumHdrSize] at hout
  have hlt : ∀ n, n < 20 → n < out.length := fun n hn => by omega
  rw [GradHdr.ext_iff]
  simp only [GradHdr.decode, writeHdr, htonl, htons]
  refine ⟨?_, ?_, ?_, ?_, ?_, ?_, ?_⟩
  · simp (disch := first | omega | simp [hlt]) only [be32_store16_of_disjoint,
      be32_store32_of_disjoint, be32_store32_swap32]
  · simp (disch := first | omega | simp [hlt]) only [be32_store16_of_disjoint,
      be32_store32_of_disjoint, be32_store32_swap32]
  · simp (disch := first | omega | simp [hlt]) only [be32_store16_of_disjoint,
      be32_store32_swap32]
  · simp (disch := first | omega | simp [hlt]) only [be16_store16_of_disjoint,
      be16_store16_swap16]
  · simp (disch := first | omega | simp [hlt]) only [be16_store16_of_disjoint,
      be16_store16_swap16]
  · simp (disch := first | omega | simp [hlt]) only [be16_store16_of_disjoint,
      be16_store16_swap16]
  · simp (disch := first | omega | simp [hlt]) only [be16_store16_swap16]

theorem length_writePacket (out : Bytes) (hdr : GradHdr) (values : ℕ → BitVec 32) :
    (writePacket out hdr values).length = out.length := by
  unfold writePacket
  refine foldl_range_induction _ (fun _ (b : Bytes) => b.length = out.length) (by simp) ?_
  intro i b _ hb
  rw [length_store32, hb]

/-- The loop over the values leaves the header alone and stores each value. -/
theorem writePacket_loop (b₀ : Bytes) {n : ℕ} (values : ℕ → BitVec 32)
    (hlen : netsumHdrSize + 4 * n ≤ b₀.length) :
    let b := (List.range n).foldl
      (fun out i => store32 out (netsumHdrSize + 4 * i) (htonl (values i))) b₀
    b.length = b₀.length ∧ (∀ j < netsumHdrSize, byteAt b j = byteAt b₀ j)
      ∧ ∀ j < n, valueAt b j = values j := by
  refine foldl_range_induction _ (fun i (b : Bytes) => b.length = b₀.length
    ∧ (∀ j < netsumHdrSize, byteAt b j = byteAt b₀ j) ∧ ∀ j < i, valueAt b j = values j)
    ⟨rfl, fun _ _ => rfl, by simp⟩ ?_
  rintro i b hi ⟨h1, h2, h3⟩
  refine ⟨by rw [length_store32, h1], fun j hj => ?_, fun j hj => ?_⟩
  · rw [byteAt_store32_of_disjoint (by omega), h2 j hj]
  · rcases Nat.eq_or_lt_of_le (Nat.le_of_lt_succ hj) with rfl | hlt
    · exact be32_store32_swap32 (by omega) _
    · rw [← h3 j hlt]
      exact be32_store32_of_disjoint (by omega) _

/-- The bytes sent: the header and its values. -/
def packet (out : Bytes) (hdr : GradHdr) (values : ℕ → BitVec 32) : Bytes :=
  (writePacket out hdr values).take (netsumHdrSize + 4 * hdr.chunkLen.toNat)

/-- **Round trip.** What was written is what is read. -/
theorem decode_packet {out : Bytes} (hdr : GradHdr) (values : ℕ → BitVec 32)
    (hout : netsumHdrSize + 4 * hdr.chunkLen.toNat ≤ out.length) :
    (packet out hdr values).length = netsumHdrSize + 4 * hdr.chunkLen.toNat
      ∧ GradHdr.decode (packet out hdr values) = hdr
      ∧ ∀ i < hdr.chunkLen.toNat, valueAt (packet out hdr values) i = values i := by
  have hlen := length_writePacket out hdr values
  have htake : ∀ j < netsumHdrSize + 4 * hdr.chunkLen.toNat,
      byteAt (packet out hdr values) j = byteAt (writePacket out hdr values) j :=
    fun j hj => byteAt_take hj
  obtain ⟨-, hhdr, hval⟩ := writePacket_loop (writeHdr out hdr) values
    ((length_writeHdr out hdr).symm ▸ hout)
  refine ⟨by rw [packet, List.length_take, hlen]; omega, ?_, fun i hi => ?_⟩
  · rw [GradHdr.decode_congr fun j hj => (htake j (by omega)).trans (hhdr j hj),
      decode_writeHdr hdr (by omega)]
  · rw [valueAt_congr htake hi]
    exact hval i hi

/-- What a worker sends. -/
def workerPacket (hdr : GradHdr) (values : ℕ → BitVec 32) : Bytes :=
  packet (List.replicate netsumMaxPacketSize 0) hdr values

/-! ## Well-formed datagrams -/

/-- The datagrams that can contribute: a whole header, at most 64 values and all of them
there, a trackable worker id and a fan-in from 1 to 256. -/
structure WellFormed (d : Bytes) : Prop where
  hdr_le : netsumHdrSize ≤ d.length
  chunkLen_le : (GradHdr.decode d).chunkLen.toNat ≤ netsumMaxChunkLen
  values_le : netsumHdrSize + 4 * (GradHdr.decode d).chunkLen.toNat ≤ d.length
  workerId_lt : (GradHdr.decode d).workerId.toNat < maxTrackedWorkers
  numWorkers_pos : 1 ≤ (GradHdr.decode d).numWorkers.toNat
  numWorkers_le : (GradHdr.decode d).numWorkers.toNat ≤ maxTrackedWorkers

theorem wellFormed_iff (d : Bytes) :
    WellFormed d ↔ netsumHdrSize ≤ d.length
      ∧ (GradHdr.decode d).chunkLen.toNat ≤ netsumMaxChunkLen
      ∧ netsumHdrSize + 4 * (GradHdr.decode d).chunkLen.toNat ≤ d.length
      ∧ (GradHdr.decode d).workerId.toNat < maxTrackedWorkers
      ∧ 1 ≤ (GradHdr.decode d).numWorkers.toNat
      ∧ (GradHdr.decode d).numWorkers.toNat ≤ maxTrackedWorkers :=
  ⟨fun h => ⟨h.1, h.2, h.3, h.4, h.5, h.6⟩, fun ⟨h1, h2, h3, h4, h5, h6⟩ => ⟨h1, h2, h3, h4, h5, h6⟩⟩

instance (d : Bytes) : Decidable (WellFormed d) := decidable_of_iff' _ (wellFormed_iff d)

theorem decode_workerPacket {hdr : GradHdr} (hlen : hdr.chunkLen.toNat ≤ netsumMaxChunkLen)
    (values : ℕ → BitVec 32) :
    (workerPacket hdr values).length = netsumHdrSize + 4 * hdr.chunkLen.toNat
      ∧ GradHdr.decode (workerPacket hdr values) = hdr
      ∧ ∀ i < hdr.chunkLen.toNat, valueAt (workerPacket hdr values) i = values i := by
  apply decode_packet
  rw [List.length_replicate]
  simp only [netsumMaxChunkLen, netsumMaxPacketSize, netsumHdrSize] at hlen ⊢
  omega

theorem wellFormed_workerPacket {hdr : GradHdr} (hlen : hdr.chunkLen.toNat ≤ netsumMaxChunkLen)
    (hworker : hdr.workerId.toNat < maxTrackedWorkers) (hpos : 1 ≤ hdr.numWorkers.toNat)
    (hle : hdr.numWorkers.toNat ≤ maxTrackedWorkers) (values : ℕ → BitVec 32) :
    WellFormed (workerPacket hdr values) := by
  obtain ⟨hlength, hhdr, -⟩ := decode_workerPacket hlen values
  rw [wellFormed_iff, hhdr, hlength]
  exact ⟨Nat.le_add_right _ _, hlen, le_refl _, hworker, hpos, hle⟩

/-! ## The admission check shared with the fuzz harness -/

/-- `struct netsum_parse_result`, for an accepted datagram. -/
structure NetsumParseResult where
  chunkLen : BitVec 16
  workerId : BitVec 16
  numWorkers : BitVec 16
  deriving DecidableEq, Repr

/-- `agg_parse_stateless`: `none` is `NETSUM_PARSE_REJECT`. -/
def aggParseStateless (data : Bytes) : Option NetsumParseResult :=
  if data.length < netsumHdrSize then none
  else
    let hdr := GradHdr.overlay data 0
    let workerId := ntohs hdr.workerId
    let numWorkers := ntohs hdr.numWorkers
    let chunkLen := ntohs hdr.chunkLen
    if chunkLen.toNat > netsumMaxChunkLen then none
    else if data.length < netsumHdrSize + chunkLen.toNat * 4 then none
    else if workerId.toNat ≥ maxTrackedWorkers then none
    else if numWorkers.toNat = 0 ∨ numWorkers.toNat > maxTrackedWorkers then none
    else some { chunkLen, workerId, numWorkers }

/-- The shared check accepts exactly the well-formed datagrams. -/
theorem aggParseStateless_isSome (d : Bytes) : (aggParseStateless d).isSome ↔ WellFormed d := by
  rw [wellFormed_iff]
  unfold aggParseStateless
  simp only [GradHdr.overlay, GradHdr.decode, ntohs, swap16_load16, Nat.zero_add]
  split_ifs <;> simp <;> omega

end NetSum.Protocol
