import Mathlib.Data.List.GetD
import NetSum.Protocol.GradProto

/-!
# Packets as a header and a list of values

`encode` is what a sender makes of a header and its `int32_t` values: `htons` and `htonl` of the
fields, `htonl((uint32_t)v)` of each value, and the first `20 + 4 * chunk_len` bytes of the buffer
sent. `decodeWith` is what a receiver makes of the bytes at an offset: the overlaid header with
each field converted, and `(int32_t)ntohl(v)` of the values after it. The two are inverse
(`wireContents_encode`, `encode_wireContents`), whichever conversions the receiver has.
-/

namespace NetSum.Protocol

open NetSum.Lib

/-! ## `int32_t` -/

/-- The range of `int32_t`. -/
def IsInt32 (v : ℤ) : Prop := -2 ^ 31 ≤ v ∧ v < 2 ^ 31

instance (v : ℤ) : Decidable (IsInt32 v) := inferInstanceAs (Decidable (_ ∧ _))

theorem isInt32_toInt (v : BitVec 32) : IsInt32 v.toInt := by
  have hlow := BitVec.le_toInt v
  have hhigh := BitVec.toInt_lt (x := v)
  exact ⟨by simpa using hlow, by simpa using hhigh⟩

/-- The casts to `uint32_t` and back lose nothing of an `int32_t`. -/
theorem toInt_ofInt_of_isInt32 {v : ℤ} (h : IsInt32 v) : (BitVec.ofInt 32 v).toInt = v := by
  obtain ⟨hlow, hhigh⟩ := h
  exact BitVec.toInt_ofInt_eq_self (by decide) hlow hhigh

/-! ## Both directions -/

/-- The bytes sent for a header and its values. -/
def encode (buf : Bytes) (hdr : GradHdr) (values : List ℤ) : Bytes :=
  packet buf hdr fun i => BitVec.ofInt 32 (values.getD i 0)

/-- The header laid over the bytes at `off` and the values after it, each converted. -/
def decodeWith (s : BitVec 16 → BitVec 16) (l : BitVec 32 → BitVec 32) (b : Bytes) (off : ℕ) :
    GradHdr × List ℤ :=
  let hdr := (GradHdr.overlay b off).convert s l
  (hdr, (List.range hdr.chunkLen.toNat).map fun i =>
    (l (load32 b (off + netsumHdrSize + 4 * i))).toInt)

/-- The header and the values that a byte string carries in network order. -/
def wireContents (d : Bytes) : GradHdr × List ℤ :=
  (GradHdr.decode d,
    (List.range (GradHdr.decode d).chunkLen.toNat).map fun i => (valueAt d i).toInt)

/-- Reading with the conversions of the socket interface. -/
theorem decodeWith_ntoh (b : Bytes) (off : ℕ) :
    decodeWith ntohs ntohl b off = wireContents (b.drop off) := by
  have hvalue : ∀ i, ntohl (load32 b (off + netsumHdrSize + 4 * i)) = valueAt (b.drop off) i := by
    intro i
    rw [ntohl, swap32_load32, valueAt, be32_drop, Nat.add_assoc]
  simp only [decodeWith, wireContents, GradHdr.decode_eq_ntoh, hvalue]

/-- Reading with the conversions of the XDP program. -/
theorem decodeWith_netsumBpfNtoh (b : Bytes) (off : ℕ) :
    decodeWith netsumBpfNtohs netsumBpfNtohl b off = wireContents (b.drop off) := by
  have hvalue : ∀ i, netsumBpfNtohl (load32 b (off + netsumHdrSize + 4 * i))
      = valueAt (b.drop off) i := by
    intro i
    rw [netsumBpfNtohl_eq, swap32_load32, valueAt, be32_drop, Nat.add_assoc]
  simp only [decodeWith, wireContents, GradHdr.decode_eq_netsumBpfNtoh, hvalue]

/-- What is read depends on the header and the values it announces only. -/
theorem wireContents_congr {b d : Bytes}
    (h : ∀ i < netsumHdrSize + 4 * (GradHdr.decode d).chunkLen.toNat, byteAt b i = byteAt d i) :
    wireContents b = wireContents d := by
  have hhdr : GradHdr.decode b = GradHdr.decode d :=
    GradHdr.decode_congr fun i hi => h i (by omega)
  have hvalues : (List.range (GradHdr.decode d).chunkLen.toNat).map (fun i => (valueAt b i).toInt)
      = (List.range (GradHdr.decode d).chunkLen.toNat).map fun i => (valueAt d i).toInt := by
    apply List.map_congr_left
    intro i hi
    rw [valueAt_congr h (List.mem_range.mp hi)]
  rw [wireContents, hhdr, hvalues, wireContents]

theorem length_encode {buf : Bytes} (hdr : GradHdr) (values : List ℤ)
    (hbuf : netsumHdrSize + 4 * hdr.chunkLen.toNat ≤ buf.length) :
    (encode buf hdr values).length = netsumHdrSize + 4 * hdr.chunkLen.toNat :=
  (decode_packet hdr _ hbuf).1

/-- What was encoded is decoded. -/
theorem wireContents_encode {buf : Bytes} {hdr : GradHdr} {values : List ℤ}
    (hbuf : netsumHdrSize + 4 * hdr.chunkLen.toNat ≤ buf.length)
    (hlen : values.length = hdr.chunkLen.toNat) (hint : ∀ v ∈ values, IsInt32 v) :
    wireContents (encode buf hdr values) = (hdr, values) := by
  obtain ⟨-, hhdr, hvalue⟩ := decode_packet hdr
    (fun i => BitVec.ofInt 32 (values.getD i 0)) hbuf
  have hhdr' : GradHdr.decode (encode buf hdr values) = hdr := hhdr
  rw [wireContents, hhdr', Prod.mk.injEq]
  refine ⟨rfl, List.ext_getElem (by simp [hlen]) fun i hi hi' => ?_⟩
  -- each value survives the two casts
  have hmem : IsInt32 values[i] := hint _ (List.getElem_mem hi')
  have hval : valueAt (encode buf hdr values) i = BitVec.ofInt 32 values[i] := by
    have hv := hvalue i (by omega)
    rwa [List.getD_eq_getElem _ _ hi'] at hv
  rw [List.getElem_map, List.getElem_range, hval, toInt_ofInt_of_isInt32 hmem]

/-- What was decoded is encoded to the same bytes. -/
theorem encode_wireContents {buf d : Bytes} (hbuf : d.length ≤ buf.length)
    (hd : d.length = netsumHdrSize + 4 * (GradHdr.decode d).chunkLen.toNat) :
    encode buf (wireContents d).1 (wireContents d).2 = d := by
  have hfits : netsumHdrSize + 4 * (GradHdr.decode d).chunkLen.toNat ≤ buf.length := by omega
  obtain ⟨hlen, hhdr, hvalue⟩ := decode_packet (GradHdr.decode d)
    (fun i => BitVec.ofInt 32 ((wireContents d).2.getD i 0)) hfits
  -- the same length, the same header and the same values
  refine datagram_ext (m := (GradHdr.decode d).chunkLen.toNat) hlen hd hhdr fun i hi => ?_
  have hget : (wireContents d).2.getD i 0 = (valueAt d i).toInt := by
    rw [List.getD_eq_getElem _ _ (by simpa [wireContents] using hi)]
    simp [wireContents]
  have hv := hvalue i hi
  rw [hget, BitVec.ofInt_toInt] at hv
  exact hv

/-- A byte string announces as many values as it carries, each an `int32_t`. -/
theorem wireContents_values (d : Bytes) :
    (wireContents d).2.length = (wireContents d).1.chunkLen.toNat
      ∧ ∀ v ∈ (wireContents d).2, IsInt32 v := by
  refine ⟨by simp [wireContents], fun v hv => ?_⟩
  obtain ⟨i, -, rfl⟩ := List.mem_map.mp hv
  exact isInt32_toInt _

end NetSum.Protocol
