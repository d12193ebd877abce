import NetSum.Lib.Checked
import NetSum.Protocol.GradProto

/-!
# The two stateless checks

`fuzz/parse_shared.h`: the admission checks of the two aggregators, taken out of them as
`agg_parse_stateless` and `xdp_parse_stateless`. Here every load is checked against the length
that was passed. The two make the same decision and neither faults
(`aggParseStatelessChecked_eq`, `xdpParseStateless_eq`).
-/

namespace NetSum.Protocol

open NetSum.Lib

/-- `FUZZ_XDP_MAX_TRACKED_WORKERS_BITMAP_BYTES`. -/
abbrev fuzzXdpMaxTrackedWorkersBitmapBytes : ℕ := 32

/-- `netsum_bpf_style_ntohs`. -/
def netsumBpfStyleNtohs (v : BitVec 16) : BitVec 16 := v <<< 8 ||| v >>> 8

theorem netsumBpfStyleNtohs_eq (v : BitVec 16) : netsumBpfStyleNtohs v = swap16 v :=
  swap16_eq_shifts v

/-- `agg_parse_stateless` with its loads checked. -/
def aggParseStatelessChecked (data : Bytes) : Checked (Option NetsumParseResult) := do
  if data.length < netsumHdrSize then return none
  let workerId := ntohs (← checkedLoad16 data 12)
  let numWorkers := ntohs (← checkedLoad16 data 14)
  let chunkLen := ntohs (← checkedLoad16 data 16)
  if chunkLen.toNat > netsumMaxChunkLen then return none
  if data.length < netsumHdrSize + chunkLen.toNat * 4 then return none
  if workerId.toNat ≥ maxTrackedWorkers then return none
  if numWorkers.toNat = 0 ∨ numWorkers.toNat > maxTrackedWorkers then return none
  return some { chunkLen, workerId, numWorkers }

/-- `xdp_parse_stateless`: each field is loaded where the source loads it. -/
def xdpParseStateless (data : Bytes) : Checked (Option NetsumParseResult) := do
  if data.length < netsumHdrSize then return none
  let chunkLen := netsumBpfStyleNtohs (← checkedLoad16 data 16)
  if chunkLen.toNat > netsumMaxChunkLen then return none
  if data.length < netsumHdrSize + chunkLen.toNat * 4 then return none
  let workerId := netsumBpfStyleNtohs (← checkedLoad16 data 12)
  if workerId.toNat ≥ fuzzXdpMaxTrackedWorkersBitmapBytes * 8 then return none
  let numWorkers := netsumBpfStyleNtohs (← checkedLoad16 data 14)
  if numWorkers.toNat = 0 ∨ numWorkers.toNat > fuzzXdpMaxTrackedWorkersBitmapBytes * 8 then
    return none
  return some { chunkLen, workerId, numWorkers }

/-- The fields of a header that is there are loaded without a fault. -/
theorem checkedLoad16_hdr {data : Bytes} (h : ¬ data.length < netsumHdrSize) {off : ℕ}
    (hoff : off + 2 ≤ netsumHdrSize) : checkedLoad16 data off = .ok (load16 data off) :=
  checkedLoad16_of_le (hoff.trans (not_lt.mp h))

/-- An accepted datagram's fields are those of its header. -/
theorem aggParseStateless_eq_some {data : Bytes} {r : NetsumParseResult}
    (h : aggParseStateless data = some r) :
    r.chunkLen = be16 data 16 ∧ r.workerId = be16 data 12 ∧ r.numWorkers = be16 data 14 := by
  unfold aggParseStateless at h
  simp only [GradHdr.overlay, ntohs, swap16_load16, Nat.zero_add] at h
  split_ifs at h
  rw [Option.some.injEq] at h
  subst h
  exact ⟨rfl, rfl, rfl⟩

/-- No load of `agg_parse_stateless` is out of bounds. -/
theorem aggParseStatelessChecked_eq (data : Bytes) :
    aggParseStatelessChecked data = .ok (aggParseStateless data) := by
  unfold aggParseStatelessChecked aggParseStateless
  refine guard_eq_ok fun hlen => ?_
  rw [checkedLoad16_hdr hlen (by decide), checkedLoad16_hdr hlen (by decide),
    checkedLoad16_hdr hlen (by decide)]
  simp only [ok_bind, GradHdr.overlay, Nat.zero_add]
  split_ifs <;> rfl

/-- No load of `xdp_parse_stateless` is out of bounds, and it decides as `agg_parse_stateless`. -/
theorem xdpParseStateless_eq (data : Bytes) :
    xdpParseStateless data = .ok (aggParseStateless data) := by
  unfold xdpParseStateless aggParseStateless
  refine guard_eq_ok fun hlen => ?_
  rw [checkedLoad16_hdr hlen (by decide), checkedLoad16_hdr hlen (by decide),
    checkedLoad16_hdr hlen (by decide)]
  -- the two differ in the swap, in how they spell 256, and in when they load the ids
  simp only [ok_bind, netsumBpfStyleNtohs_eq, ntohs, GradHdr.overlay, Nat.zero_add,
    fuzzXdpMaxTrackedWorkersBitmapBytes, maxTrackedWorkers, Nat.reduceMul]
  split_ifs <;> rfl

end NetSum.Protocol
