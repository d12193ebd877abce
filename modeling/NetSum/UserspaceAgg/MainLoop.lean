import NetSum.Lib.Runs
import NetSum.UserspaceAgg.Tables

/-!
# The userspace aggregator's main loop

One iteration of `main`'s loop in `userspace_agg/agg.c` as a step function: the reaper phase,
`recvfrom` into the reused buffer, the checks on the datagram, then the slot phase (lookup,
mismatch and duplicate rejection, accumulation, completion, emission, freeing). What the
iteration learns from outside, the clock readings, the datagram and whether `sendto` succeeds, is
an `Event`; which of the loop body's exits it took is a `Verdict`.
-/

namespace NetSum.UserspaceAgg

open NetSum.Lib NetSum.Protocol NetSum.Aggregation

/-! ## State and events -/

/-- `uint8_t [NETSUM_MAX_PACKET_SIZE]`. -/
structure Buffer where
  bytes : Bytes
  length_eq : bytes.length = netsumMaxPacketSize

/-- A buffer of zeros. -/
def Buffer.zero : Buffer := ⟨List.replicate netsumMaxPacketSize 0, by simp⟩

/-- `recvfrom` copies the datagram over the start of the buffer, cut to the buffer's size. -/
def Buffer.recvfrom (buf : Buffer) (d : Bytes) : Buffer :=
  ⟨d.take netsumMaxPacketSize ++ buf.bytes.drop d.length, by
    rw [List.length_append, List.length_take, List.length_drop, buf.length_eq]
    omega⟩

/-- The command line arguments that shape the loop. -/
structure Args where
  gJobQuota : ℤ
  slotTtlMs : ℤ

/-- `reap_interval_micros`: a quarter of the TTL, at least one millisecond. -/
def Args.reapIntervalMicros (args : Args) : ℤ :=
  let intervalMs := args.slotTtlMs / 4
  (if intervalMs < 1 then 1 else intervalMs) * 1000

/-- What one iteration learns from outside: the clock, each time it is read, what `recvfrom`
delivered (`none` is `-1`: a timeout or an interrupt), and whether `sendto` succeeds, if it is
called. -/
structure Event where
  nowLoop : ℤ
  nowReap : ℤ
  nowFirstSeen : ℤ
  nowTouched : ℤ
  received : Option Bytes
  sendOk : Bool

/-- An iteration at time 0 that receives `d`. -/
def Event.deliver (d : Bytes) : Event := ⟨0, 0, 0, 0, some d, true⟩

structure State where
  tables : Tables
  inPacket : Buffer
  outPacket : Buffer
  packetsIn : ℕ
  packetsOut : ℕ
  lastReapMicros : ℤ

/-- Before the first iteration; the two buffers are uninitialised memory. -/
def State.init (inPacket outPacket : Buffer) (now : ℤ) : State where
  tables := Tables.zero
  inPacket := inPacket
  outPacket := outPacket
  packetsIn := 0
  packetsOut := 0
  lastReapMicros := now

/-- How an iteration left the loop body: one for each `continue`, and `complete`. -/
inductive Verdict where
  | short
  | malformed
  | truncated
  | workerOutOfRange
  | fanInOutOfRange
  | admissionReject
  | chunkLenMismatch
  | duplicate
  | absorbed
  | complete
  deriving DecidableEq, Repr

/-- What an iteration shows: the slots it logged as reaped, its exit, the slot its datagram
was looked up in, and the packet it handed to `sendto`. -/
structure Output where
  reaped : List SlotIdx
  verdict : Verdict
  slot : Option SlotIdx
  sent : Option Bytes

/-! ## The slot phase -/

namespace Slot

/-- The first contribution fixes `chunk_len` and the expected fan-in. -/
def latch (s : Slot) (hdr : GradHdr) (now : ℤ) : Slot :=
  { s with
    chunkLen := hdr.chunkLen, numWorkersExpected := hdr.numWorkers, firstSeenMicros := now }

/-- `for (i = 0; i < chunk_len && i < NETSUM_MAX_CHUNK_LEN; i++) slot->sum[i] += …`. -/
def sumLoop (sum : Fin netsumMaxChunkLen → BitVec 32) (chunkLen : ℕ) (values : ℕ → BitVec 32) :
    Fin netsumMaxChunkLen → BitVec 32 :=
  (List.range (min chunkLen netsumMaxChunkLen)).foldl
    (fun sum i => Function.update sum (Fin.ofNat _ i) (sum (Fin.ofNat _ i) + values i)) sum

/-- Mark the worker, touch the slot, add the values, count the contribution. -/
def accumulate (s : Slot) (hdr : GradHdr) (values : ℕ → BitVec 32) (now : ℤ) : Slot :=
  { s with
    seenWorker := Function.update s.seenWorker (Fin.ofNat _ hdr.workerId.toNat) 1
    lastTouchedMicros := now
    sum := sumLoop s.sum hdr.chunkLen.toNat values
    contributionsReceived := s.contributionsReceived + 1 }

end Slot

/-- Count the contribution into slot `i`, whose value is `s`, and test for completion. -/
def accumulateInto (t : Tables) (i : SlotIdx) (s : Slot) (hdr : GradHdr)
    (values : ℕ → BitVec 32) (now : ℤ) : Tables × Verdict × Option SlotIdx :=
  let s := s.accumulate hdr values now
  let t : Tables := ⟨Function.update t.gSlots i s, t.gJobs⟩
  if s.contributionsReceived < s.numWorkersExpected then (t, .absorbed, some i)
  else (t, .complete, some i)

/-- From the slot that was looked up to the completion test. -/
def contribute (ev : Event) (t : Tables) (i : SlotIdx) (hdr : GradHdr)
    (values : ℕ → BitVec 32) : Tables × Verdict × Option SlotIdx :=
  let s := t.gSlots i
  if s.contributionsReceived ≠ 0 ∧ s.chunkLen ≠ hdr.chunkLen then (t, .chunkLenMismatch, some i)
  else
    let s := if s.contributionsReceived = 0 then s.latch hdr ev.nowFirstSeen else s
    if s.seenWorker (Fin.ofNat _ hdr.workerId.toNat) ≠ 0 then
      (⟨Function.update t.gSlots i s, t.gJobs⟩, .duplicate, some i)
    else accumulateInto t i s hdr values ev.nowTouched

/-- From `find_or_create_slot` to the completion test, for a datagram with header `hdr` (in
host order) and payload `values`. -/
def processContribution (gJobQuota : ℤ) (ev : Event) (t : Tables) (hdr : GradHdr)
    (values : ℕ → BitVec 32) : Tables × Verdict × Option SlotIdx :=
  match findOrCreateSlot gJobQuota t hdr.key with
  | (t, none) => (t, .admissionReject, none)
  | (t, some i) => contribute ev t i hdr values

/-! ## Emission -/

/-- The header of the aggregated packet: a single contribution, already complete. -/
def outHdr (k : GradSlotKey) (s : Slot) : GradHdr where
  jobId := k.jobId
  round := k.round
  chunkId := k.chunkId
  workerId := 0
  numWorkers := 1
  chunkLen := s.chunkLen
  flags := 0

/-- The aggregated packet, written into `out_packet`. -/
def writeOutPacket (out : Bytes) (k : GradSlotKey) (s : Slot) : Bytes :=
  writePacket out (outHdr k s) fun i => s.sum (Fin.ofNat _ i)

theorem length_writeOutPacket (out : Bytes) (k : GradSlotKey) (s : Slot) :
    (writeOutPacket out k s).length = out.length :=
  length_writePacket out (outHdr k s) _

def Buffer.writeOutPacket (out : Buffer) (k : GradSlotKey) (s : Slot) : Buffer :=
  ⟨UserspaceAgg.writeOutPacket out.bytes k s, by rw [length_writeOutPacket, out.length_eq]⟩

/-! ## One iteration -/

/-- The reaper phase. -/
def reapPhase (args : Args) (st : State) (ev : Event) : State × List SlotIdx :=
  if 0 < args.slotTtlMs ∧ ev.nowLoop - st.lastReapMicros ≥ args.reapIntervalMicros then
    let r := reapExpiredSlots args.slotTtlMs ev.nowReap st.tables
    ({ st with tables := r.1, lastReapMicros := ev.nowLoop }, r.2)
  else (st, [])

/-- What follows the completion test: a completed slot is sent and freed. It is freed as well when
`sendto` fails. -/
def emitPhase (st : State) (ev : Event) (hdr : GradHdr) :
    Tables × Verdict × Option SlotIdx → State × Verdict × Option SlotIdx × Option Bytes
  | (t, .complete, some i) =>
    let s := t.gSlots i
    let outPacket := st.outPacket.writeOutPacket hdr.key s
    let sent := outPacket.bytes.take (netsumHdrSize + 4 * s.chunkLen.toNat)
    let packetsOut := if ev.sendOk then st.packetsOut + 1 else st.packetsOut
    ({ st with tables := freeSlot t i, outPacket, packetsOut }, .complete, some i, some sent)
  | (t, verdict, slot) => ({ st with tables := t }, verdict, slot, none)

/-- The loop body from `find_or_create_slot` on. -/
def slotPhase (args : Args) (st : State) (ev : Event) (hdr : GradHdr)
    (values : ℕ → BitVec 32) : State × Verdict × Option SlotIdx × Option Bytes :=
  emitPhase st ev hdr (processContribution args.gJobQuota ev st.tables hdr values)

/-- From `recvfrom` to the end of the loop body. -/
def receivePhase (args : Args) (st : State) (ev : Event) :
    State × Verdict × Option SlotIdx × Option Bytes :=
  match ev.received with
  | none => (st, .short, none, none)
  | some d =>
    let inPacket := st.inPacket.recvfrom d
    let n := min d.length netsumMaxPacketSize
    let st := { st with inPacket }
    if n < netsumHdrSize then (st, .short, none, none)
    else
      let st := { st with packetsIn := st.packetsIn + 1 }
      let hdr := (GradHdr.overlay inPacket.bytes 0).convert ntohs ntohl
      let values := fun i => ntohl (load32 inPacket.bytes (netsumHdrSize + 4 * i))
      if hdr.chunkLen.toNat > netsumMaxChunkLen then (st, .malformed, none, none)
      else if n < netsumHdrSize + hdr.chunkLen.toNat * 4 then (st, .truncated, none, none)
      else if hdr.workerId.toNat ≥ maxTrackedWorkers then (st, .workerOutOfRange, none, none)
      else if hdr.numWorkers.toNat = 0 ∨ hdr.numWorkers.toNat > maxTrackedWorkers then
        (st, .fanInOutOfRange, none, none)
      else slotPhase args st ev hdr values

/-- One iteration of the main loop. -/
def mainStep (args : Args) (st : State) (ev : Event) : State × Output :=
  let (st, reaped) := reapPhase args st ev
  let (st, verdict, slot, sent) := receivePhase args st ev
  (st, { reaped, verdict, slot, sent })

end NetSum.UserspaceAgg
