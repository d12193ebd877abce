import NetSum.Aggregation.Round
import NetSum.Lib.BoundedMap
import NetSum.Lib.Loops

/-!
# The XDP program's maps

The data of `xdp_agg/xdp_agg.c`: the four BPF hash maps, their values, the map helpers with
their return codes, and the three functions on a single map, `bump_stat`,
`job_quota_increment` and `job_quota_decrement`. Frames are processed one at a time here, so a
pointer into a map is the map's entry for the key it was looked up with.
-/

namespace NetSum.XdpAgg

open NetSum.Lib NetSum.Protocol NetSum.Aggregation

abbrev maxTrackedWorkersBitmapBytes : ℕ := 32

/-! ## Values -/

/-- `struct grad_slot`, without its lock. -/
structure GradSlot where
  sum : Fin netsumMaxChunkLen → BitVec 32
  chunkLen : BitVec 16
  numWorkersExpected : BitVec 16
  contributionsReceived : BitVec 16
  seenWorker : Fin maxTrackedWorkersBitmapBytes → BitVec 8

instance neZero_six : NeZero 6 := ⟨by decide⟩

/-- `struct netsum_config`; the address and port are in network order, as they go on the wire. -/
structure NetsumConfig where
  psMac : Fin 6 → Byte
  psIp : BitVec 32
  psPort : BitVec 16
  maxSlotsPerJob : BitVec 32

/-- `struct job_quota_entry`. -/
structure JobQuotaEntry where
  concurrentSlots : BitVec 32
  deriving DecidableEq, Repr

/-- The keys of `drop_stats`. -/
abbrev statDroppedNoConfig : BitVec 32 := 0

abbrev statDroppedFairnessQuota : BitVec 32 := 1

namespace GradSlot

/-- `struct grad_slot fresh = {0}` with its chunk length and fan-in. -/
def fresh (chunkLen numWorkers : BitVec 16) : GradSlot where
  sum _ := 0
  chunkLen := chunkLen
  numWorkersExpected := numWorkers
  contributionsReceived := 0
  seenWorker _ := 0

/-- `worker_id / 8`. -/
def byteIdx (workerId : BitVec 16) : Fin maxTrackedWorkersBitmapBytes :=
  Fin.ofNat _ (workerId.toNat / 8)

/-- `(uint8_t)(1 << (worker_id % 8))`. -/
def bitOf (workerId : BitVec 16) : BitVec 8 := 1#8 <<< (workerId.toNat % 8)

/-- `byte & bit`, as a condition. -/
def seen (s : GradSlot) (workerId : BitVec 16) : Bool :=
  s.seenWorker (byteIdx workerId) &&& bitOf workerId != 0

/-- What the slot keeps of its round. -/
def tally (s : GradSlot) : Tally where
  fanIn := s.numWorkersExpected.toNat
  chunkLen := s.chunkLen.toNat
  count := s.contributionsReceived.toNat
  seen w := s.seen (BitVec.ofNat 16 w)
  sum := s.sum

end GradSlot

/-! ## Maps -/

abbrev slotMapEntries : ℕ := 65536

instance : NeZero slotMapEntries := ⟨by decide⟩

abbrev jobQuotaMapEntries : ℕ := 256

/-- The four maps. -/
structure Maps where
  slotMap : BoundedMap GradSlotKey GradSlot slotMapEntries
  configMap : BoundedMap (BitVec 32) NetsumConfig 1
  jobQuotaMap : BoundedMap (BitVec 32) JobQuotaEntry jobQuotaMapEntries
  dropStats : BoundedMap (BitVec 32) (BitVec 64) 4

/-- The maps as they are created. -/
def Maps.empty : Maps := ⟨.empty, .empty, .empty, .empty⟩

/-- `config_map` after the loader stored a configuration. -/
def configured (cfg : NetsumConfig) : BoundedMap (BitVec 32) NetsumConfig 1 :=
  BoundedMap.empty.insert 0 cfg fun _ => by simp

theorem lookup_configured (cfg : NetsumConfig) : (configured cfg).lookup 0 = some cfg :=
  BoundedMap.lookup_insert_self ..

/-- `BPF_ANY`, `BPF_NOEXIST` and `BPF_EXIST`. -/
inductive UpdateFlags where
  | any
  | noexist
  | exist
  deriving DecidableEq

section Helpers

variable {κ ν : Type} [DecidableEq κ] {cap : ℕ}

/-- `bpf_map_update_elem` on a hash map: the map and the return code, `-EEXIST`, `-ENOENT` or
`-E2BIG` when nothing was stored. -/
def bpfMapUpdateElem (m : BoundedMap κ ν cap) (k : κ) (v : ν) (flags : UpdateFlags) :
    BoundedMap κ ν cap × ℤ :=
  match hk : m.lookup k with
  | some _ =>
    if flags = .noexist then (m, -17) else (m.overwrite hk v, 0)
  | none =>
    if flags = .exist then (m, -2)
    else if h : m.size < cap then (m.insert k v fun _ => h, 0)
    else (m, -7)

end Helpers

/-! ## Functions on one map -/

/-- `__sync_fetch_and_add(&jq->concurrent_slots, n)`. -/
def JobQuotaEntry.add (n : BitVec 32) (e : JobQuotaEntry) : JobQuotaEntry :=
  ⟨e.concurrentSlots + n⟩

def bumpStat (m : BoundedMap (BitVec 32) (BitVec 64) 4) (statKey : BitVec 32) :
    BoundedMap (BitVec 32) (BitVec 64) 4 :=
  match m.lookup statKey with
  | some _ => m.modify statKey (· + 1)
  | none => (bpfMapUpdateElem m statKey 1 .any).1

def jobQuotaIncrement (m : BoundedMap (BitVec 32) JobQuotaEntry jobQuotaMapEntries)
    (jobId : BitVec 32) : BoundedMap (BitVec 32) JobQuotaEntry jobQuotaMapEntries :=
  match m.lookup jobId with
  | some _ => m.modify jobId (.add 1)
  | none =>
    match bpfMapUpdateElem m jobId ⟨1⟩ .noexist with
    | (m, 0) => m
    | (m, _) =>
      -- lost a race, or full: add to the entry if there is one now
      m.modify jobId (.add 1)

def jobQuotaDecrement (m : BoundedMap (BitVec 32) JobQuotaEntry jobQuotaMapEntries)
    (jobId : BitVec 32) : BoundedMap (BitVec 32) JobQuotaEntry jobQuotaMapEntries :=
  match m.lookup jobId with
  | some jq => if 0 < jq.concurrentSlots.toNat then m.modify jobId (.add (-1)) else m
  | none => m

end NetSum.XdpAgg
