import NetSum.Aggregation.Round
import NetSum.Lib.Loops
import NetSum.Lib.Probe

/-!
# The userspace aggregator's two tables

`userspace_agg/agg.c` down to its main loop: the slot table `g_slots`, the per-job table
`g_jobs` of the fairness quota, the two hash functions, `find_or_create_job`,
`find_or_create_slot`, `free_slot` and `reap_expired_slots`. A pointer into a table is an index
of it. `long` is `ℤ`; the one narrowing cast of a `long`, `(uint32_t)g_job_quota`, is explicit.

Both searches are `for` loops over `(h + probe) & (CAPACITY - 1)` with two exits, a free entry
and a matching one; `probe` finds the index the loop stops at, and what happens there follows.
-/

namespace NetSum.UserspaceAgg

open NetSum.Lib NetSum.Protocol NetSum.Aggregation

abbrev slotTableCapacity : ℕ := 65536

abbrev jobTableCapacity : ℕ := 256

instance : NeZero slotTableCapacity := ⟨by decide⟩

/-- An index into `g_slots`. -/
abbrev SlotIdx := Fin slotTableCapacity

/-- An index into `g_jobs`. -/
abbrev JobIdx := Fin jobTableCapacity

/-! ## Data -/

/-- `slot_t`. -/
structure Slot where
  inUse : Bool
  jobId : BitVec 32
  round : BitVec 32
  chunkId : BitVec 32
  numWorkersExpected : BitVec 16
  contributionsReceived : BitVec 16
  sum : Fin netsumMaxChunkLen → BitVec 32
  chunkLen : BitVec 16
  seenWorker : Fin maxTrackedWorkers → BitVec 8
  firstSeenMicros : ℤ
  lastTouchedMicros : ℤ

namespace Slot

/-- All bytes zero. -/
def zero : Slot where
  inUse := false
  jobId := 0
  round := 0
  chunkId := 0
  numWorkersExpected := 0
  contributionsReceived := 0
  sum _ := 0
  chunkLen := 0
  seenWorker _ := 0
  firstSeenMicros := 0
  lastTouchedMicros := 0

/-- `memset(s, 0, sizeof(*s))`, then `in_use` and the key. -/
def fresh (k : GradSlotKey) : Slot :=
  { zero with inUse := true, jobId := k.jobId, round := k.round, chunkId := k.chunkId }

def key (s : Slot) : GradSlotKey := ⟨s.jobId, s.round, s.chunkId⟩

/-- What the slot keeps of its round. -/
def tally (s : Slot) : Tally where
  fanIn := s.numWorkersExpected.toNat
  chunkLen := s.chunkLen.toNat
  count := s.contributionsReceived.toNat
  seen w := s.seenWorker w != 0
  sum := s.sum

end Slot

/-- `job_entry_t`. -/
structure JobEntry where
  inUse : Bool
  jobId : BitVec 32
  concurrentSlots : BitVec 32
  admittedCount : BitVec 32
  rejectedCount : BitVec 32
  deriving DecidableEq

namespace JobEntry

def zero : JobEntry := ⟨false, 0, 0, 0, 0⟩

/-- A newly tracked job. -/
def fresh (jobId : BitVec 32) : JobEntry := ⟨true, jobId, 0, 0, 0⟩

/-- `job->rejected_count++`. -/
def reject (j : JobEntry) : JobEntry := { j with rejectedCount := j.rejectedCount + 1 }

/-- `job->concurrent_slots++; job->admitted_count++`. -/
def acquire (j : JobEntry) : JobEntry :=
  { j with concurrentSlots := j.concurrentSlots + 1, admittedCount := j.admittedCount + 1 }

/-- `if (job->concurrent_slots > 0) job->concurrent_slots--`. -/
def release (j : JobEntry) : JobEntry :=
  if 0 < j.concurrentSlots.toNat then { j with concurrentSlots := j.concurrentSlots - 1 } else j

end JobEntry

/-- `g_jobs`. -/
abbrev Jobs := JobIdx → JobEntry

/-- `g_slots` and `g_jobs`. -/
structure Tables where
  gSlots : SlotIdx → Slot
  gJobs : Jobs

/-- Static storage starts out zero. -/
def Tables.zero : Tables := ⟨fun _ => Slot.zero, fun _ => JobEntry.zero⟩

/-! ## Jobs -/

def jobHash (jobId : BitVec 32) : BitVec 32 :=
  let h := jobId
  let h := h ^^^ h >>> 16
  let h := h * 0x85ebca6b#32
  let h := h ^^^ h >>> 13
  let h := h * 0xc2b2ae35#32
  h ^^^ h >>> 16

/-- `(h + probe) & (JOB_TABLE_CAPACITY - 1)`, in `size_t`. -/
def jobSeq (jobId : BitVec 32) (probe : ℕ) : JobIdx :=
  Fin.ofNat jobTableCapacity
    (((jobHash jobId).setWidth 64 + BitVec.ofNat 64 probe) &&& 255#64).toNat

/-- Returns the table and `NULL` when it is full of other jobs. -/
def findOrCreateJob (gJobs : Jobs) (jobId : BitVec 32) : Jobs × Option JobIdx :=
  match probe (jobSeq jobId) fun idx => !(gJobs idx).inUse || (gJobs idx).jobId == jobId with
  | none => (gJobs, none)
  | some idx =>
    if (gJobs idx).inUse then (gJobs, some idx)
    else (Function.update gJobs idx (JobEntry.fresh jobId), some idx)

/-! ## Slots -/

/-- The bytes of `fields[3]`, in host order. -/
def slotKeyBytes (k : GradSlotKey) : List Byte :=
  [k.jobId, k.round, k.chunkId].flatMap fun v => (List.range 4).map (byte32 v)

/-- 64-bit FNV-1a over the three fields. -/
def slotKey (k : GradSlotKey) : BitVec 64 :=
  (slotKeyBytes k).foldl (fun h b => (h ^^^ b.setWidth 64) * 1099511628211#64)
    1469598103934665603#64

/-- `(h + probe) & (SLOT_TABLE_CAPACITY - 1)`. -/
def slotSeq (k : GradSlotKey) (probe : ℕ) : SlotIdx :=
  Fin.ofNat slotTableCapacity ((slotKey k + BitVec.ofNat 64 probe) &&& 65535#64).toNat

/-- Returns the tables and `NULL` when the slot table is full, or when a new slot would exceed
the job's quota. -/
def findOrCreateSlot (gJobQuota : ℤ) (t : Tables) (k : GradSlotKey) : Tables × Option SlotIdx :=
  match probe (slotSeq k) fun idx => !(t.gSlots idx).inUse || (t.gSlots idx).key == k with
  | none => (t, none)
  | some idx =>
    if (t.gSlots idx).inUse then (t, some idx)
    else
      -- about to create a slot: the admission policy applies here and only here
      match findOrCreateJob t.gJobs k.jobId with
      | (gJobs, some job) =>
        if 0 < gJobQuota ∧ (gJobs job).concurrentSlots ≥ BitVec.ofInt 32 gJobQuota then
          (⟨t.gSlots, Function.update gJobs job (gJobs job).reject⟩, none)
        else
          (⟨Function.update t.gSlots idx (Slot.fresh k),
            Function.update gJobs job (gJobs job).acquire⟩, some idx)
      | (gJobs, none) => (⟨Function.update t.gSlots idx (Slot.fresh k), gJobs⟩, some idx)

def freeSlot (t : Tables) (s : SlotIdx) : Tables :=
  let gSlots := Function.update t.gSlots s { t.gSlots s with inUse := false }
  match findOrCreateJob t.gJobs (t.gSlots s).jobId with
  | (gJobs, some job) => ⟨gSlots, Function.update gJobs job (gJobs job).release⟩
  | (gJobs, none) => ⟨gSlots, gJobs⟩

/-! ## The reaper -/

/-- One round of the sweep: evict slot `i` if it has been silent for `ttlMicros`. -/
def reapSlot (ttlMicros now : ℤ) (acc : Tables × List SlotIdx) (i : SlotIdx) :
    Tables × List SlotIdx :=
  let s := acc.1.gSlots i
  if s.inUse ∧ now - s.lastTouchedMicros ≥ ttlMicros then (freeSlot acc.1 i, acc.2 ++ [i])
  else acc

/-- The sweep, and the indices it logged as reaped. -/
def reapExpiredSlots (slotTtlMs now : ℤ) (t : Tables) : Tables × List SlotIdx :=
  (List.finRange slotTableCapacity).foldl (reapSlot (slotTtlMs * 1000) now) (t, [])

end NetSum.UserspaceAgg
