import NetSum.UserspaceAgg.MainLoop

/-!
# The parameter server

`paramserver/paramserver.c`: its slot table, `find_or_create_slot` and the main loop. The hash,
the probe sequence and the receive buffer are the same as in the userspace aggregator, whose
definitions are used. A slot is never freed. The server checks neither the length of a datagram
against its `chunk_len` nor that the contributions of a slot agree on it, so the loop over the
values reads what the buffer holds.
-/

namespace NetSum.ParamServer

open NetSum.Lib NetSum.Protocol NetSum.Aggregation
open UserspaceAgg (SlotIdx slotTableCapacity Buffer)

/-! ## Data -/

/-- `slot_t`. -/
structure Slot where
  inUse : Bool
  jobId : BitVec 32
  round : BitVec 32
  chunkId : BitVec 32
  numWorkersExpected : BitVec 16
  contributionsReceived : BitVec 16
  sum : Fin netsumMaxChunkLen → BitVec 32
  chunkLen : BitVec 16
  firstSeenMicros : ℤ
  completedMicros : ℤ
  seenWorker : Fin maxTrackedWorkers → BitVec 8

namespace Slot

/-- All bytes zero. -/
def zero : Slot where
  inUse := false
  jobId := 0
  round := 0
  chunkId := 0
  numWorkersExpected := 0
  contributionsReceived := 0
  sum _ := 0
  chunkLen := 0
  firstSeenMicros := 0
  completedMicros := 0
  seenWorker _ := 0

/-- `memset(s, 0, sizeof(*s))`, then `in_use` and the key. -/
def fresh (k : GradSlotKey) : Slot :=
  { zero with inUse := true, jobId := k.jobId, round := k.round, chunkId := k.chunkId }

def key (s : Slot) : GradSlotKey := ⟨s.jobId, s.round, s.chunkId⟩

/-- What the slot keeps of its round. -/
def tally (s : Slot) : Tally where
  fanIn := s.numWorkersExpected.toNat
  chunkLen := s.chunkLen.toNat
  count := s.contributionsReceived.toNat
  seen w := s.seenWorker w != 0
  sum := s.sum

end Slot

/-- `g_slots`. -/
abbrev Slots := SlotIdx → Slot

/-- `--mode`: in `agg` mode one packet closes a slot. -/
inductive Mode where
  | noagg
  | agg
  deriving DecidableEq

/-- What one iteration learns from outside: the two clock readings, and what `recvfrom` delivered
(`none` is `-1`). -/
structure Event where
  nowFirstSeen : ℤ
  nowCompleted : ℤ
  received : Option Bytes

/-- An iteration at time 1 that receives `d`. -/
def Event.deliver (d : Bytes) : Event := ⟨1, 1, some d⟩

structure State where
  gSlots : Slots
  packet : Buffer
  packetsSeen : ℕ
  slotsCompleted : ℕ

/-- Before the first iteration; the buffer is uninitialised memory. -/
def State.init (packet : Buffer) : State := ⟨fun _ => Slot.zero, packet, 0, 0⟩

/-- How an iteration left the loop body. -/
inductive Verdict where
  | short
  | malformed
  | workerOutOfRange
  | tableFull
  | duplicate
  | absorbed
  | complete
  deriving DecidableEq, Repr

/-- What an iteration shows: its exit, and the slot its datagram was looked up in. -/
structure Output where
  verdict : Verdict
  slot : Option SlotIdx

/-! ## Slots -/

/-- `slot_key`, the same function as the aggregator's. -/
abbrev slotKey : GradSlotKey → BitVec 64 := UserspaceAgg.slotKey

/-- `(h + probe) & (SLOT_TABLE_CAPACITY - 1)`. -/
abbrev slotSeq : GradSlotKey → ℕ → SlotIdx := UserspaceAgg.slotSeq

/-- Returns the slots and `NULL` when the table is full. -/
def findOrCreateSlot (gSlots : Slots) (k : GradSlotKey) : Slots × Option SlotIdx :=
  match probe (slotSeq k) fun idx => !(gSlots idx).inUse || (gSlots idx).key == k with
  | none => (gSlots, none)
  | some idx =>
    if (gSlots idx).inUse then (gSlots, some idx)
    else (Function.update gSlots idx (Slot.fresh k), some idx)

namespace Slot

/-- The first contribution fixes `chunk_len` and the expected fan-in. -/
def latch (s : Slot) (mode : Mode) (hdr : GradHdr) (now : ℤ) : Slot :=
  { s with
    firstSeenMicros := now
    chunkLen := hdr.chunkLen
    numWorkersExpected := match mode with
      | .agg => 1
      | .noagg => hdr.numWorkers }

/-- Mark the worker, add the values, count the contribution. -/
def accumulate (s : Slot) (hdr : GradHdr) (values : ℕ → BitVec 32) : Slot :=
  { s with
    seenWorker := Function.update s.seenWorker (Fin.ofNat _ hdr.workerId.toNat) 1
    sum := UserspaceAgg.Slot.sumLoop s.sum hdr.chunkLen.toNat values
    contributionsReceived := s.contributionsReceived + 1 }

/-- The completion test. -/
def settle (s : Slot) (now : ℤ) : Slot × Verdict :=
  if s.contributionsReceived = s.numWorkersExpected ∧ s.completedMicros = 0 then
    ({ s with completedMicros := now }, .complete)
  else (s, .absorbed)

/-- From the slot that was looked up to the end of the loop body. -/
def contribute (s : Slot) (mode : Mode) (ev : Event) (hdr : GradHdr) (values : ℕ → BitVec 32) :
    Slot × Verdict :=
  let s := if s.contributionsReceived = 0 then s.latch mode hdr ev.nowFirstSeen else s
  if s.seenWorker (Fin.ofNat _ hdr.workerId.toNat) ≠ 0 then (s, .duplicate)
  else (s.accumulate hdr values).settle ev.nowCompleted

end Slot

/-! ## One iteration -/

/-- The loop body from `find_or_create_slot` on. -/
def slotPhase (mode : Mode) (st : State) (ev : Event) (hdr : GradHdr) (values : ℕ → BitVec 32) :
    State × Output :=
  match findOrCreateSlot st.gSlots hdr.key with
  | (gSlots, none) => ({ st with gSlots }, ⟨.tableFull, none⟩)
  | (gSlots, some i) =>
    let r := (gSlots i).contribute mode ev hdr values
    ({ st with
        gSlots := Function.update gSlots i r.1
        slotsCompleted := if r.2 = .complete then st.slotsCompleted + 1 else st.slotsCompleted },
      ⟨r.2, some i⟩)

/-- One iteration of the main loop. -/
def mainStep (mode : Mode) (st : State) (ev : Event) : State × Output :=
  match ev.received with
  | none => (st, ⟨.short, none⟩)
  | some d =>
    let packet := st.packet.recvfrom d
    let n := min d.length netsumMaxPacketSize
    let st := { st with packet }
    if n < netsumHdrSize then (st, ⟨.short, none⟩)
    else
      let st := { st with packetsSeen := st.packetsSeen + 1 }
      let hdr := (GradHdr.overlay packet.bytes 0).convert ntohs ntohl
      let values := fun i => ntohl (load32 packet.bytes (netsumHdrSize + 4 * i))
      if hdr.chunkLen.toNat > netsumMaxChunkLen then (st, ⟨.malformed, none⟩)
      else if hdr.workerId.toNat ≥ maxTrackedWorkers then (st, ⟨.workerOutOfRange, none⟩)
      else slotPhase mode st ev hdr values

end NetSum.ParamServer
