import NetSum.XdpAgg.Maps

/-!
# `netsum_xdp_aggregate`

The program on one frame, in the order of the source: the header checks (`parse`), lookup or
creation of the slot (`findOrCreate`), the section under the slot's lock (`lockedSection`),
and teardown and rewrite (`finish`). A frame is its bytes from the Ethernet header on. Every
`return` of the source is an `Exit`; the `return` for an incomplete slot is two of them, by
whether the worker was new.
-/

namespace NetSum.XdpAgg

open NetSum.Lib NetSum.Protocol NetSum.Aggregation

/-! ## Layout of a frame -/

abbrev ethHdrSize : ℕ := 14

abbrev ipHdrSize : ℕ := 20

abbrev udpHdrSize : ℕ := 8

/-- Where the IP header starts. -/
abbrev ipOff : ℕ := ethHdrSize

/-- Where the UDP header starts. -/
abbrev udpOff : ℕ := ipOff + ipHdrSize

/-- Where the gradient header starts. -/
abbrev hdrOff : ℕ := udpOff + udpHdrSize

/-- Where the values start. -/
abbrev valuesOff : ℕ := hdrOff + netsumHdrSize

/-! ## Return codes and exits -/

/-- `enum xdp_action`, the members the program returns. -/
inductive XdpAction where
  | drop
  | pass
  | tx
  deriving DecidableEq, Repr

inductive Exit where
  | shortEth
  | notIp
  | shortIp
  | ipOptions
  | notUdp
  | shortUdp
  | otherPort
  | shortHdr
  | malformed
  | truncated
  | workerOutOfRange
  | fanInOutOfRange
  | overQuota
  | mapFull
  | chunkLenMismatch
  | duplicate
  | absorbed
  | noConfig
  | complete
  deriving DecidableEq, Repr

/-- The return code of an exit. -/
def Exit.action : Exit → XdpAction
  | shortEth | notIp | shortIp | ipOptions | notUdp | shortUdp | otherPort | shortHdr => .pass
  | complete => .tx
  | _ => .drop

/-! ## Header checks -/

/-- What the checks leave in variables. -/
structure Parsed where
  key : GradSlotKey
  workerId : BitVec 16
  numWorkers : BitVec 16
  chunkLen : BitVec 16

/-- From the start of the program to the slot key; `num_workers` is read later in the source,
from the same header. -/
def parse (frame : Bytes) : Except Exit Parsed :=
  if frame.length < ethHdrSize then .error .shortEth
  else if netsumBpfNtohs (load16 frame 12) ≠ 0x0800#16 then .error .notIp
  else if frame.length < udpOff then .error .shortIp
  else if byteAt frame ipOff &&& 0x0f#8 ≠ 5#8 then .error .ipOptions
  else if byteAt frame (ipOff + 9) ≠ 17#8 then .error .notUdp
  else if frame.length < hdrOff then .error .shortUdp
  else if (netsumBpfNtohs (load16 frame (udpOff + 2))).toNat ≠ netsumPort then .error .otherPort
  else if frame.length < valuesOff then .error .shortHdr
  else
    let hdr := (GradHdr.overlay frame hdrOff).convert netsumBpfNtohs netsumBpfNtohl
    if hdr.chunkLen.toNat > netsumMaxChunkLen then .error .malformed
    else if frame.length < valuesOff + 4 * hdr.chunkLen.toNat then .error .truncated
    else if hdr.workerId.toNat ≥ maxTrackedWorkersBitmapBytes * 8 then .error .workerOutOfRange
    else .ok ⟨hdr.key, hdr.workerId, hdr.numWorkers, hdr.chunkLen⟩

/-! ## Lookup or creation -/

/-- `max_slots_per_job` of the configuration, `0` without one. -/
def maxSlotsPerJob (maps : Maps) : BitVec 32 :=
  match maps.configMap.lookup 0 with
  | some cfg => cfg.maxSlotsPerJob
  | none => 0

/-- The admission check: the job is at its quota. -/
def overQuota (maps : Maps) (jobId : BitVec 32) : Bool :=
  0 < (maxSlotsPerJob maps).toNat &&
    match maps.jobQuotaMap.lookup jobId with
    | some jq => decide (jq.concurrentSlots ≥ maxSlotsPerJob maps)
    | none => false

/-- The slot of the key, created if need be. -/
def findOrCreate (maps : Maps) (p : Parsed) : Maps × Except Exit GradSlot :=
  match maps.slotMap.lookup p.key with
  | some slot => (maps, .ok slot)
  | none =>
    if p.numWorkers.toNat = 0 ∨ p.numWorkers.toNat > maxTrackedWorkersBitmapBytes * 8 then
      (maps, .error .fanInOutOfRange)
    else if overQuota maps p.key.jobId then
      ({ maps with dropStats := bumpStat maps.dropStats statDroppedFairnessQuota },
        .error .overQuota)
    else
      let (slotMap, createRc) :=
        bpfMapUpdateElem maps.slotMap p.key (GradSlot.fresh p.chunkLen p.numWorkers) .noexist
      match slotMap.lookup p.key with
      | none => ({ maps with slotMap }, .error .mapFull)
      | some slot =>
        if createRc = 0 then
          ({ maps with
              slotMap, jobQuotaMap := jobQuotaIncrement maps.jobQuotaMap p.key.jobId }, .ok slot)
        else ({ maps with slotMap }, .ok slot)

/-! ## Under the lock -/

/-- A loop over the values of a frame: up to `chunk_len`, `NETSUM_MAX_CHUNK_LEN` and the end of
the frame. -/
def valueLoop {β : Type} (frame : Bytes) (chunkLen : ℕ) (body : β → ℕ → β) (b : β) : β :=
  ((List.range netsumMaxChunkLen).takeWhile fun i =>
    !(decide (i ≥ chunkLen)) && !(decide (frame.length < valuesOff + 4 * (i + 1)))).foldl body b

/-- How the locked section ends. -/
inductive LockOutcome where
  | mismatch
  | duplicate
  | absorbed
  | complete (finalChunkLen : BitVec 16)
  deriving DecidableEq, Repr

/-- Mark the worker, add the frame's values, count the contribution. -/
def GradSlot.accumulate (s : GradSlot) (frame : Bytes) (p : Parsed) : GradSlot :=
  { s with
    seenWorker := Function.update s.seenWorker (byteIdx p.workerId)
      (s.seenWorker (byteIdx p.workerId) ||| bitOf p.workerId)
    sum := valueLoop frame p.chunkLen.toNat
      (fun sum i => Function.update sum (Fin.ofNat _ i)
        (sum (Fin.ofNat _ i) + netsumBpfNtohl (load32 frame (valuesOff + 4 * i)))) s.sum
    contributionsReceived := s.contributionsReceived + 1 }

/-- `values[i] = htonl(slot->sum[i])`. -/
def writeBack (frame : Bytes) (s : GradSlot) (finalChunkLen : BitVec 16) : Bytes :=
  valueLoop frame finalChunkLen.toNat
    (fun out i => store32 out (valuesOff + 4 * i) (netsumBpfNtohl (s.sum (Fin.ofNat _ i)))) frame

/-- From `bpf_spin_lock` to `bpf_spin_unlock`. -/
def lockedSection (s : GradSlot) (frame : Bytes) (p : Parsed) : GradSlot × Bytes × LockOutcome :=
  if s.chunkLen ≠ p.chunkLen then (s, frame, .mismatch)
  else if s.seen p.workerId then (s, frame, .duplicate)
  else
    let s := s.accumulate frame p
    if s.contributionsReceived = s.numWorkersExpected then
      (s, writeBack frame s s.chunkLen, .complete s.chunkLen)
    else (s, frame, .absorbed)

/-! ## Teardown and rewrite -/

def ipChecksum (frame : Bytes) : BitVec 16 :=
  let sum := (List.range 10).foldl
    (fun (sum : BitVec 32) i =>
      if i = 5 then sum else sum + (load16 frame (ipOff + 2 * i)).setWidth 32) 0
  let sum := (sum &&& 0xffff#32) + sum >>> 16
  let sum := (sum &&& 0xffff#32) + sum >>> 16
  ~~~ (sum.setWidth 16)

/-- The headers of the forwarded frame. -/
@[irreducible]
def rewriteHeaders (cfg : NetsumConfig) (finalChunkLen : BitVec 16) (frame : Bytes) : Bytes :=
  let frame := store16 frame (hdrOff + 12) (netsumBpfNtohs 0)
  let frame := store16 frame (hdrOff + 14) (netsumBpfNtohs 1)
  let frame := store16 frame (hdrOff + 16) (netsumBpfNtohs finalChunkLen)
  let frame := (List.range 6).foldl
    (fun (frame : Bytes) i => frame.set i (cfg.psMac (Fin.ofNat 6 i))) frame
  let frame := store32 frame (ipOff + 16) cfg.psIp
  let frame := store16 frame (udpOff + 2) cfg.psPort
  let frame := store16 frame (udpOff + 6) 0
  let frame := store16 frame (ipOff + 10) 0
  store16 frame (ipOff + 10) (ipChecksum frame)

/-- After the lock, for a completed slot. -/
def finish (maps : Maps) (key : GradSlotKey) (frame : Bytes) (finalChunkLen : BitVec 16) :
    Maps × Exit × Bytes :=
  match maps.configMap.lookup 0 with
  | none =>
    ({ maps with
        slotMap := maps.slotMap.delete key
        jobQuotaMap := jobQuotaDecrement maps.jobQuotaMap key.jobId
        dropStats := bumpStat maps.dropStats statDroppedNoConfig }, .noConfig, frame)
  | some cfg =>
    ({ maps with
        slotMap := maps.slotMap.delete key
        jobQuotaMap := jobQuotaDecrement maps.jobQuotaMap key.jobId },
      .complete, rewriteHeaders cfg finalChunkLen frame)

/-! ## The program -/

/-- The slot's lock taken, and what follows. -/
def aggregate (maps : Maps) (p : Parsed) (slot : GradSlot) (frame : Bytes) :
    Maps × Exit × Bytes :=
  let (slot, frame, outcome) := lockedSection slot frame p
  let maps := { maps with slotMap := maps.slotMap.modify p.key fun _ => slot }
  match outcome with
  | .mismatch => (maps, .chunkLenMismatch, frame)
  | .duplicate => (maps, .duplicate, frame)
  | .absorbed => (maps, .absorbed, frame)
  | .complete finalChunkLen => finish maps p.key frame finalChunkLen

/-- The maps afterwards, how the program returned, and the frame as it left it. -/
def netsumXdpAggregate (maps : Maps) (frame : Bytes) : Maps × Exit × Bytes :=
  match parse frame with
  | .error exit => (maps, exit, frame)
  | .ok p =>
    match findOrCreate maps p with
    | (maps, .error exit) => (maps, exit, frame)
    | (maps, .ok slot) => aggregate maps p slot frame

end NetSum.XdpAgg
