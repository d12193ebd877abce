import NetSum.Lib.Interleaving
import NetSum.Lib.Pool
import NetSum.XdpAgg.Program

/-!
# `netsum_xdp_aggregate` on several CPUs

The program cut where it touches a map: a map helper call, an atomic add, a read through a
pointer into a map and the section under a slot's lock are one step each (`Pc`). The three
functions on one map are cut the same way (`IncPc`, `DecPc`, `StatPc`).

`slot_map` is preallocated, so a `struct grad_slot *` is an element of its pool: it stays
readable and writable after its key is deleted, and may be linked to another key at once. The
entries of `job_quota_map` and `drop_stats` are never deleted, so a pointer to one is its key.
What the loader stores in `config_map` and which free element a creation gets come from outside
(`CpuInput`).
-/

namespace NetSum.XdpAgg

open NetSum.Lib NetSum.Protocol NetSum.Aggregation

instance neZero_two : NeZero 2 := ⟨by decide⟩

/-! ## Shared data -/

/-- What a `struct grad_slot *` points to. -/
abbrev Elem := Fin slotMapEntries

/-- The maps that the CPUs share. An element keeps its contents when its key is deleted. -/
structure SharedMaps where
  slotMap : Pool GradSlotKey Elem
  slots : Elem → GradSlot
  jobQuotaMap : BoundedMap (BitVec 32) JobQuotaEntry jobQuotaMapEntries
  dropStats : BoundedMap (BitVec 32) (BitVec 64) 4

namespace SharedMaps

/-- The maps as they are created. -/
def empty : SharedMaps := ⟨⊥, fun _ => .fresh 0 0, .empty, .empty⟩

/-- `bpf_map_update_elem(&slot_map, &key, &fresh, BPF_NOEXIST)`, when `slot` is next on the free
list: the maps and the return code. Nothing if `slot` is not free, although the map has room. -/
def createSlot (sh : SharedMaps) (key : GradSlotKey) (fresh : GradSlot) (slot : Elem) :
    Option (SharedMaps × ℤ) :=
  if hk : sh.slotMap key = none then
    if hslot : sh.slotMap.owner slot = none then
      some ({ sh with
        slotMap := sh.slotMap.link key slot hk hslot
        slots := Function.update sh.slots slot fresh }, 0)
    else if ∀ e, sh.slotMap.owner e ≠ none then some (sh, -7)
    else none
  else some (sh, -17)

/-- `bpf_map_delete_elem(&slot_map, &key)`, with its return code. -/
def deleteSlot (sh : SharedMaps) (key : GradSlotKey) : SharedMaps × ℤ :=
  ({ sh with slotMap := sh.slotMap.unlink key }, if (sh.slotMap key).isSome then 0 else -2)

end SharedMaps

/-! ## Functions on one map, step by step -/

/-- Where a CPU is in `job_quota_increment`. -/
inductive IncPc where
  | lookup
  | update
  | relookup
  | add
  deriving DecidableEq, Repr

/-- One step of `job_quota_increment`; `none` when it returns. -/
def IncPc.step (m : BoundedMap (BitVec 32) JobQuotaEntry jobQuotaMapEntries) (jobId : BitVec 32) :
    IncPc → BoundedMap (BitVec 32) JobQuotaEntry jobQuotaMapEntries × Option IncPc
  | lookup => (m, some (if (m.lookup jobId).isSome then add else update))
  | update =>
    let (m, rc) := bpfMapUpdateElem m jobId ⟨1⟩ .noexist
    (m, if rc = 0 then none else some relookup)
  | relookup => (m, if (m.lookup jobId).isSome then some add else none)
  | add => (m.modify jobId (.add 1), none)

/-- Where a CPU is in `job_quota_decrement`. -/
inductive DecPc where
  | lookup
  | read
  | add
  deriving DecidableEq, Repr

/-- One step of `job_quota_decrement`; `none` when it returns. -/
def DecPc.step (m : BoundedMap (BitVec 32) JobQuotaEntry jobQuotaMapEntries) (jobId : BitVec 32) :
    DecPc → BoundedMap (BitVec 32) JobQuotaEntry jobQuotaMapEntries × Option DecPc
  | lookup => (m, if (m.lookup jobId).isSome then some read else none)
  | read =>
    (m, if (m.lookup jobId).any fun jq => decide (0 < jq.concurrentSlots.toNat) then some add
      else none)
  | add => (m.modify jobId (.add (-1)), none)

/-- Where a CPU is in `bump_stat`. -/
inductive StatPc where
  | lookup
  | update
  | add
  deriving DecidableEq, Repr

/-- One step of `bump_stat`; `none` when it returns. -/
def StatPc.step (m : BoundedMap (BitVec 32) (BitVec 64) 4) (statKey : BitVec 32) :
    StatPc → BoundedMap (BitVec 32) (BitVec 64) 4 × Option StatPc
  | lookup => (m, some (if (m.lookup statKey).isSome then add else update))
  | update => ((bpfMapUpdateElem m statKey 1 .any).1, none)
  | add => (m.modify statKey (· + 1), none)

/-! ## A CPU -/

/-- Where a CPU is in the program: ahead of which access to shared data. `cfg` is whether the
configuration was found after completion. -/
inductive Pc where
  | lookup
  | precheck
  | quotaLookup (maxSlotsPerJob : BitVec 32)
  | quotaRead (maxSlotsPerJob : BitVec 32)
  | create
  | relookup (createRc : ℤ)
  | increment (slot : Elem) (pc : IncPc)
  | lock (slot : Elem)
  | config (finalChunkLen : BitVec 16)
  | delete (finalChunkLen : BitVec 16) (cfg : Bool)
  | decrement (finalChunkLen : BitVec 16) (cfg : Bool) (deleteRc : ℤ) (pc : DecPc)
  | rewrite (finalChunkLen : BitVec 16)
  | bump (statKey : BitVec 32) (exit : Exit) (pc : StatPc)
  deriving DecidableEq, Repr

/-- A CPU waits for a frame, or is in the program with its frame and the variables of the header
checks. -/
inductive Cpu where
  | idle
  | busy (frame : Bytes) (p : Parsed) (pc : Pc)

instance : (cpu : Cpu) → Decidable (cpu = .idle)
  | .idle => .isTrue rfl
  | .busy _ _ _ => .isFalse nofun

/-- What a step takes from outside: the frame that arrives, what `config_map` holds, which
element is next on the free list of `slot_map`, and what a pointer to the configuration reads. -/
structure CpuInput where
  frame : Bytes
  configMap : BoundedMap (BitVec 32) NetsumConfig 1
  elem : Elem
  cfg : NetsumConfig

/-- `precheck_cfg ? precheck_cfg->max_slots_per_job : 0`. -/
def CpuInput.maxSlotsPerJob (i : CpuInput) : BitVec 32 :=
  match i.configMap.lookup 0 with
  | some cfg => cfg.maxSlotsPerJob
  | none => 0

/-- What a step shows: the slot it created and the frame it did that for, the slot it locked with
the frame and how the section ended, and what the program returned. -/
structure CpuOutput where
  created : Option (Elem × Bytes) := none
  locked : Option (Elem × Bytes × LockOutcome) := none
  returned : Option (Exit × Bytes) := none

/-- `slot->sum` and the rest after the locked section, and where the CPU goes from there. -/
def lockStep (sh : SharedMaps) (frame : Bytes) (p : Parsed) (slot : Elem) :
    SharedMaps × Cpu × CpuOutput :=
  let (s, frame', outcome) := lockedSection (sh.slots slot) frame p
  let sh := { sh with slots := Function.update sh.slots slot s }
  let locked := some (slot, frame, outcome)
  match outcome with
  | .mismatch => (sh, .idle, { locked, returned := some (.chunkLenMismatch, frame') })
  | .duplicate => (sh, .idle, { locked, returned := some (.duplicate, frame') })
  | .absorbed => (sh, .idle, { locked, returned := some (.absorbed, frame') })
  | .complete finalChunkLen => (sh, .busy frame' p (.config finalChunkLen), { locked })

/-- One step of a CPU in the program. -/
def Pc.step (sh : SharedMaps) (frame : Bytes) (p : Parsed) (i : CpuInput) :
    Pc → SharedMaps × Cpu × CpuOutput
  | lookup =>
    match sh.slotMap p.key with
    | some slot => (sh, .busy frame p (.lock slot), {})
    | none =>
      if p.numWorkers.toNat = 0 ∨ p.numWorkers.toNat > maxTrackedWorkersBitmapBytes * 8 then
        (sh, .idle, { returned := some (.fanInOutOfRange, frame) })
      else (sh, .busy frame p .precheck, {})
  | precheck =>
    (sh, .busy frame p
      (if 0 < i.maxSlotsPerJob.toNat then .quotaLookup i.maxSlotsPerJob else .create), {})
  | quotaLookup max =>
    (sh, .busy frame p
      (if (sh.jobQuotaMap.lookup p.key.jobId).isSome then .quotaRead max else .create), {})
  | quotaRead max =>
    (sh, .busy frame p
      (if (sh.jobQuotaMap.lookup p.key.jobId).any fun jq => decide (jq.concurrentSlots ≥ max) then
        .bump statDroppedFairnessQuota .overQuota .lookup else .create), {})
  | create =>
    match sh.createSlot p.key (.fresh p.chunkLen p.numWorkers) i.elem with
    | some (sh, createRc) =>
      (sh, .busy frame p (.relookup createRc),
        { created := if createRc = 0 then some (i.elem, frame) else none })
    | none => (sh, .busy frame p .create, {})
  | relookup createRc =>
    match sh.slotMap p.key with
    | none => (sh, .idle, { returned := some (.mapFull, frame) })
    | some slot =>
      (sh, .busy frame p (if createRc = 0 then .increment slot .lookup else .lock slot), {})
  | increment slot pc =>
    match pc.step sh.jobQuotaMap p.key.jobId with
    | (jobQuotaMap, some pc) => ({ sh with jobQuotaMap }, .busy frame p (.increment slot pc), {})
    | (jobQuotaMap, none) => ({ sh with jobQuotaMap }, .busy frame p (.lock slot), {})
  | lock slot => lockStep sh frame p slot
  | config finalChunkLen =>
    (sh, .busy frame p (.delete finalChunkLen (i.configMap.lookup 0).isSome), {})
  | delete finalChunkLen cfg =>
    let (sh, deleteRc) := sh.deleteSlot p.key
    (sh, .busy frame p (.decrement finalChunkLen cfg deleteRc .lookup), {})
  | decrement finalChunkLen cfg deleteRc pc =>
    match pc.step sh.jobQuotaMap p.key.jobId with
    | (jobQuotaMap, some pc) =>
      ({ sh with jobQuotaMap }, .busy frame p (.decrement finalChunkLen cfg deleteRc pc), {})
    | (jobQuotaMap, none) =>
      ({ sh with jobQuotaMap }, .busy frame p
        (if cfg then .rewrite finalChunkLen else .bump statDroppedNoConfig .noConfig .lookup), {})
  | rewrite finalChunkLen =>
    (sh, .idle, { returned := some (.complete, rewriteHeaders i.cfg finalChunkLen frame) })
  | bump statKey exit pc =>
    match pc.step sh.dropStats statKey with
    | (dropStats, some pc) => ({ sh with dropStats }, .busy frame p (.bump statKey exit pc), {})
    | (dropStats, none) => ({ sh with dropStats }, .idle, { returned := some (exit, frame) })

/-- One step of a CPU. -/
def Cpu.act (sh : SharedMaps) (cpu : Cpu) (i : CpuInput) : SharedMaps × Cpu × CpuOutput :=
  match cpu with
  | .idle =>
    match parse i.frame with
    | .error exit => (sh, .idle, { returned := some (exit, i.frame) })
    | .ok p => (sh, .busy i.frame p .lookup, {})
  | .busy frame p pc => pc.step sh frame p i

/-! ## All CPUs -/

/-- The maps, and where each CPU is. -/
abbrev CpuSystem (C : Type) := Threads C SharedMaps Cpu

/-- Empty maps, and every CPU waits. -/
def CpuSystem.init (C : Type) : CpuSystem C := ⟨.empty, fun _ => .idle⟩

/-- One CPU takes a step. -/
def cpuStep {C : Type} [DecidableEq C] (s : CpuSystem C) (ev : C × CpuInput) :
    CpuSystem C × CpuOutput :=
  s.step Cpu.act ev

end NetSum.XdpAgg
