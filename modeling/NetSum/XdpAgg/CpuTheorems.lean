import NetSum.XdpAgg.Cpus
import NetSum.XdpAgg.Invariants

/-!
# What a step of a CPU does

Everything a step can do (`Cpu.Acts`), and what follows from it for the slots, which change in
three steps only, a creation, a locked section and a deletion (`SlotMove`), and for the CPU: what
it knows of its frame (`Cpu.Sane`), which key it is about to delete (`Cpu.closing`) and which frame
it is about to transmit (`Cpu.result`).
-/

namespace NetSum.XdpAgg

open NetSum.Lib NetSum.Protocol NetSum.Aggregation

/-! ## Header checks -/

theorem counts_of_parse {frame : Bytes} {p : Parsed} (h : parse frame = .ok p) :
    Counts frame ∧ p = .ofPayload (payload frame) := by
  by_cases hg : IsGradient frame
  · by_cases hs : Sound (payload frame)
    · rw [parse_of_sound hg hs] at h
      exact ⟨⟨hg, hs⟩, (Except.ok.inj h).symm⟩
    · obtain ⟨exit, herr, -⟩ := parse_of_not_sound hg hs
      rw [herr] at h
      cases h
  · obtain ⟨exit, herr, -⟩ := parse_of_not_isGradient hg
    rw [herr] at h
    cases h

theorem action_of_parse_error {frame : Bytes} {exit : Exit} (h : parse frame = .error exit) :
    exit.action ≠ .tx := by
  have herr : ∀ exit', parse frame = .error exit' → exit' = exit := by
    intro exit' h'
    rw [h] at h'
    exact (Except.error.inj h').symm
  by_cases hg : IsGradient frame
  · by_cases hs : Sound (payload frame)
    · rw [parse_of_sound hg hs] at h
      cases h
    · obtain ⟨exit', h', haction⟩ := parse_of_not_sound hg hs
      rw [← herr exit' h', haction]
      decide
  · obtain ⟨exit', h', haction⟩ := parse_of_not_isGradient hg
    rw [← herr exit' h', haction]
    decide

/-! ## The locked section -/

/-- The ways through the locked section, and where the CPU goes. -/
inductive LockMove (sh : SharedMaps) (frame : Bytes) (p : Parsed) (slot : Elem) :
    SharedMaps × Cpu × CpuOutput → Prop
  | rejected {exit : Exit} {v : LockOutcome} (hexit : exit.action = .drop)
    (hv : v = .mismatch ∨ v = .duplicate) :
    LockMove sh frame p slot
      (sh, .idle, { locked := some (slot, frame, v), returned := some (exit, frame) })
  | absorbed (hlen : (sh.slots slot).chunkLen = p.chunkLen)
    (hseen : (sh.slots slot).seen p.workerId = false)
    (hcount : (sh.slots slot).contributionsReceived + 1 ≠ (sh.slots slot).numWorkersExpected) :
    LockMove sh frame p slot
      ({ sh with slots := Function.update sh.slots slot ((sh.slots slot).accumulate frame p) },
        .idle, { locked := some (slot, frame, .absorbed), returned := some (.absorbed, frame) })
  | complete (hlen : (sh.slots slot).chunkLen = p.chunkLen)
    (hseen : (sh.slots slot).seen p.workerId = false)
    (hcount : (sh.slots slot).contributionsReceived + 1 = (sh.slots slot).numWorkersExpected) :
    LockMove sh frame p slot
      ({ sh with slots := Function.update sh.slots slot ((sh.slots slot).accumulate frame p) },
        .busy (writeBack frame ((sh.slots slot).accumulate frame p) (sh.slots slot).chunkLen) p
          (.config (sh.slots slot).chunkLen),
        { locked := some (slot, frame, .complete (sh.slots slot).chunkLen) })

theorem lockStep_move (sh : SharedMaps) (frame : Bytes) (p : Parsed) (slot : Elem) :
    LockMove sh frame p slot (lockStep sh frame p slot) := by
  have hcase := lockedSection_case (sh.slots slot) frame p
  have hkeep : { sh with slots := Function.update sh.slots slot (sh.slots slot) } = sh := by
    rw [Function.update_eq_self]
  unfold lockStep
  generalize lockedSection (sh.slots slot) frame p = r at hcase
  cases hcase with
  | mismatch hlen =>
    simp only [hkeep]
    exact .rejected rfl (.inl rfl)
  | duplicate hlen hseen =>
    simp only [hkeep]
    exact .rejected rfl (.inr rfl)
  | absorbed hlen hseen hcount => exact .absorbed hlen hseen hcount
  | complete hlen hseen hcount => exact .complete hlen hseen hcount

/-! ## The step -/

/-- Creating a slot: done, with return code `0`, or nothing happened. -/
theorem createSlot_cases {sh : SharedMaps} {key : GradSlotKey} {fresh : GradSlot} {slot : Elem}
    {r : SharedMaps × ℤ} (h : sh.createSlot key fresh slot = some r) :
    (∃ hk hslot, r = ({ sh with
        slotMap := sh.slotMap.link key slot hk hslot
        slots := Function.update sh.slots slot fresh }, 0))
      ∨ r.1 = sh ∧ r.2 ≠ 0 := by
  unfold SharedMaps.createSlot at h
  split at h
  · next hk =>
    split at h
    · next hslot => exact .inl ⟨hk, hslot, (Option.some.inj h).symm⟩
    · split at h
      · cases h
        exact .inr ⟨rfl, show (-7 : ℤ) ≠ 0 by decide⟩
      · cases h
  · cases h
    exact .inr ⟨rfl, show (-17 : ℤ) ≠ 0 by decide⟩

/-- Everything a step can do. -/
inductive Cpu.Acts (sh : SharedMaps) (i : CpuInput) : Cpu → SharedMaps × Cpu × CpuOutput → Prop
  | ignore {exit : Exit} (hexit : exit.action ≠ .tx) :
    Acts sh i .idle (sh, .idle, { returned := some (exit, i.frame) })
  | arrive {p : Parsed} (hparse : parse i.frame = .ok p) :
    Acts sh i .idle (sh, .busy i.frame p .lookup, {})
  | found {frame : Bytes} {p : Parsed} {slot : Elem} (hslot : sh.slotMap p.key = some slot) :
    Acts sh i (.busy frame p .lookup) (sh, .busy frame p (.lock slot), {})
  | badFanIn {frame : Bytes} {p : Parsed} :
    Acts sh i (.busy frame p .lookup) (sh, .idle, { returned := some (.fanInOutOfRange, frame) })
  | missing {frame : Bytes} {p : Parsed} (hfan : FanInOk p.numWorkers) :
    Acts sh i (.busy frame p .lookup) (sh, .busy frame p .precheck, {})
  | unlimited {frame : Bytes} {p : Parsed} (hmax : i.maxSlotsPerJob.toNat = 0) :
    Acts sh i (.busy frame p .precheck) (sh, .busy frame p .create, {})
  | limited {frame : Bytes} {p : Parsed} (hmax : 0 < i.maxSlotsPerJob.toNat) :
    Acts sh i (.busy frame p .precheck) (sh, .busy frame p (.quotaLookup i.maxSlotsPerJob), {})
  | noEntry {frame : Bytes} {p : Parsed} {max : BitVec 32}
    (hentry : sh.jobQuotaMap.lookup p.key.jobId = none) :
    Acts sh i (.busy frame p (.quotaLookup max)) (sh, .busy frame p .create, {})
  | entry {frame : Bytes} {p : Parsed} {max : BitVec 32}
    (hentry : (sh.jobQuotaMap.lookup p.key.jobId).isSome) :
    Acts sh i (.busy frame p (.quotaLookup max)) (sh, .busy frame p (.quotaRead max), {})
  | refused {frame : Bytes} {p : Parsed} {max : BitVec 32} :
    Acts sh i (.busy frame p (.quotaRead max))
      (sh, .busy frame p (.bump statDroppedFairnessQuota .overQuota .lookup), {})
  | admitted {frame : Bytes} {p : Parsed} {max : BitVec 32}
    (hlt : ∀ jq, sh.jobQuotaMap.lookup p.key.jobId = some jq → jq.concurrentSlots < max) :
    Acts sh i (.busy frame p (.quotaRead max)) (sh, .busy frame p .create, {})
  | created {frame : Bytes} {p : Parsed} (hk : sh.slotMap p.key = none)
    (hslot : sh.slotMap.owner i.elem = none) :
    Acts sh i (.busy frame p .create)
      ({ sh with
        slotMap := sh.slotMap.link p.key i.elem hk hslot
        slots := Function.update sh.slots i.elem (.fresh p.chunkLen p.numWorkers) },
        .busy frame p (.relookup 0), { created := some (i.elem, frame) })
  | notCreated {frame : Bytes} {p : Parsed} {createRc : ℤ} (hrc : createRc ≠ 0) :
    Acts sh i (.busy frame p .create) (sh, .busy frame p (.relookup createRc), {})
  | notOffered {frame : Bytes} {p : Parsed} :
    Acts sh i (.busy frame p .create) (sh, .busy frame p .create, {})
  | lost {frame : Bytes} {p : Parsed} {createRc : ℤ} (hslot : sh.slotMap p.key = none) :
    Acts sh i (.busy frame p (.relookup createRc))
      (sh, .idle, { returned := some (.mapFull, frame) })
  | creator {frame : Bytes} {p : Parsed} {slot : Elem} (hslot : sh.slotMap p.key = some slot) :
    Acts sh i (.busy frame p (.relookup 0)) (sh, .busy frame p (.increment slot .lookup), {})
  | joined {frame : Bytes} {p : Parsed} {createRc : ℤ} {slot : Elem} (hrc : createRc ≠ 0)
    (hslot : sh.slotMap p.key = some slot) :
    Acts sh i (.busy frame p (.relookup createRc)) (sh, .busy frame p (.lock slot), {})
  | counting {frame : Bytes} {p : Parsed} {slot : Elem} {pc pc' : IncPc}
    {m : BoundedMap (BitVec 32) JobQuotaEntry jobQuotaMapEntries}
    (hpc : pc.step sh.jobQuotaMap p.key.jobId = (m, some pc')) :
    Acts sh i (.busy frame p (.increment slot pc))
      ({ sh with jobQuotaMap := m }, .busy frame p (.increment slot pc'), {})
  | counted {frame : Bytes} {p : Parsed} {slot : Elem} {pc : IncPc}
    {m : BoundedMap (BitVec 32) JobQuotaEntry jobQuotaMapEntries}
    (hpc : pc.step sh.jobQuotaMap p.key.jobId = (m, none)) :
    Acts sh i (.busy frame p (.increment slot pc))
      ({ sh with jobQuotaMap := m }, .busy frame p (.lock slot), {})
  | lock {frame : Bytes} {p : Parsed} {slot : Elem} {r : SharedMaps × Cpu × CpuOutput}
    (hmove : LockMove sh frame p slot r) : Acts sh i (.busy frame p (.lock slot)) r
  | config {frame : Bytes} {p : Parsed} {finalChunkLen : BitVec 16} :
    Acts sh i (.busy frame p (.config finalChunkLen))
      (sh, .busy frame p (.delete finalChunkLen (i.configMap.lookup 0).isSome), {})
  | delete {frame : Bytes} {p : Parsed} {finalChunkLen : BitVec 16} {cfg : Bool} :
    Acts sh i (.busy frame p (.delete finalChunkLen cfg))
      ((sh.deleteSlot p.key).1,
        .busy frame p (.decrement finalChunkLen cfg (sh.deleteSlot p.key).2 .lookup), {})
  | releasing {frame : Bytes} {p : Parsed} {finalChunkLen : BitVec 16} {cfg : Bool} {deleteRc : ℤ}
    {pc pc' : DecPc} {m : BoundedMap (BitVec 32) JobQuotaEntry jobQuotaMapEntries}
    (hpc : pc.step sh.jobQuotaMap p.key.jobId = (m, some pc')) :
    Acts sh i (.busy frame p (.decrement finalChunkLen cfg deleteRc pc))
      ({ sh with jobQuotaMap := m },
        .busy frame p (.decrement finalChunkLen cfg deleteRc pc'), {})
  | released {frame : Bytes} {p : Parsed} {finalChunkLen : BitVec 16} {deleteRc : ℤ}
    {pc : DecPc} {m : BoundedMap (BitVec 32) JobQuotaEntry jobQuotaMapEntries}
    (hpc : pc.step sh.jobQuotaMap p.key.jobId = (m, none)) :
    Acts sh i (.busy frame p (.decrement finalChunkLen true deleteRc pc))
      ({ sh with jobQuotaMap := m }, .busy frame p (.rewrite finalChunkLen), {})
  | unsent {frame : Bytes} {p : Parsed} {finalChunkLen : BitVec 16} {deleteRc : ℤ}
    {pc : DecPc} {m : BoundedMap (BitVec 32) JobQuotaEntry jobQuotaMapEntries}
    (hpc : pc.step sh.jobQuotaMap p.key.jobId = (m, none)) :
    Acts sh i (.busy frame p (.decrement finalChunkLen false deleteRc pc))
      ({ sh with jobQuotaMap := m },
        .busy frame p (.bump statDroppedNoConfig .noConfig .lookup), {})
  | transmit {frame : Bytes} {p : Parsed} {finalChunkLen : BitVec 16} :
    Acts sh i (.busy frame p (.rewrite finalChunkLen))
      (sh, .idle, { returned := some (.complete, rewriteHeaders i.cfg finalChunkLen frame) })
  | bumping {frame : Bytes} {p : Parsed} {statKey : BitVec 32} {exit : Exit} {pc pc' : StatPc}
    {m : BoundedMap (BitVec 32) (BitVec 64) 4}
    (hpc : pc.step sh.dropStats statKey = (m, some pc')) :
    Acts sh i (.busy frame p (.bump statKey exit pc))
      ({ sh with dropStats := m }, .busy frame p (.bump statKey exit pc'), {})
  | bumped {frame : Bytes} {p : Parsed} {statKey : BitVec 32} {exit : Exit} {pc : StatPc}
    {m : BoundedMap (BitVec 32) (BitVec 64) 4}
    (hpc : pc.step sh.dropStats statKey = (m, none)) :
    Acts sh i (.busy frame p (.bump statKey exit pc))
      ({ sh with dropStats := m }, .idle, { returned := some (exit, frame) })

theorem acts (sh : SharedMaps) (cpu : Cpu) (i : CpuInput) : cpu.Acts sh i (cpu.act sh i) := by
  cases cpu with
  | idle =>
    unfold Cpu.act
    cases hparse : parse i.frame with
    | error exit => exact .ignore (action_of_parse_error hparse)
    | ok p => exact .arrive hparse
  | busy frame p pc =>
    rw [Cpu.act]
    cases pc with
    | lookup =>
      rw [Pc.step]
      cases hslot : sh.slotMap p.key with
      | some slot => exact .found hslot
      | none =>
        dsimp only
        split
        · exact .badFanIn
        · next hfan =>
          rw [not_or, not_lt] at hfan
          exact .missing ⟨Nat.pos_of_ne_zero hfan.1, hfan.2⟩
    | precheck =>
      rw [Pc.step]
      split
      · next hmax => exact .limited hmax
      · next hmax => exact .unlimited (Nat.eq_zero_of_not_pos hmax)
    | quotaLookup max =>
      rw [Pc.step]
      split
      · next hentry => exact .entry hentry
      · next hentry => exact .noEntry (Option.not_isSome_iff_eq_none.mp hentry)
    | quotaRead max =>
      rw [Pc.step]
      split
      · exact .refused
      · next hno =>
        refine .admitted fun jq hjq => ?_
        rw [hjq, Option.any_some, decide_eq_true_eq] at hno
        exact BitVec.not_le.mp hno
    | create =>
      rw [Pc.step]
      cases h : sh.createSlot p.key (.fresh p.chunkLen p.numWorkers) i.elem with
      | none => exact .notOffered
      | some r =>
        rcases createSlot_cases h with ⟨hk, hslot, rfl⟩ | ⟨rfl, hrc⟩
        · exact .created hk hslot
        · dsimp only
          rw [if_neg hrc]
          exact .notCreated hrc
    | relookup createRc =>
      rw [Pc.step]
      cases hslot : sh.slotMap p.key with
      | none => exact .lost hslot
      | some slot =>
        dsimp only
        split
        · next hrc =>
          rw [hrc]
          exact .creator hslot
        · next hrc => exact .joined hrc hslot
    | increment slot pc =>
      rw [Pc.step]
      split
      · next m pc' hpc => exact .counting hpc
      · next m hpc => exact .counted hpc
    | lock slot => exact .lock (lockStep_move sh frame p slot)
    | config finalChunkLen => exact .config
    | delete finalChunkLen cfg => exact .delete
    | decrement finalChunkLen cfg deleteRc pc =>
      rw [Pc.step]
      split
      · next m pc' hpc => exact .releasing hpc
      · next m hpc =>
        cases cfg with
        | true => exact .released hpc
        | false => exact .unsent hpc
    | rewrite finalChunkLen => exact .transmit
    | bump statKey exit pc =>
      rw [Pc.step]
      split
      · next m pc' hpc => exact .bumping hpc
      · next m hpc => exact .bumped hpc

/-! ## The slots -/

/-- What a step does to the slots and to their keys. -/
inductive SlotMove (sh : SharedMaps) (i : CpuInput) : Cpu → SharedMaps × Cpu × CpuOutput → Prop
  | stay {cpu : Cpu} {r : SharedMaps × Cpu × CpuOutput} (hmap : r.1.slotMap = sh.slotMap)
    (hslots : r.1.slots = sh.slots) (hcreated : r.2.2.created = none)
    (hlocked : r.2.2.locked = none) : SlotMove sh i cpu r
  | create {frame : Bytes} {p : Parsed} (hk : sh.slotMap p.key = none)
    (hslot : sh.slotMap.owner i.elem = none) :
    SlotMove sh i (.busy frame p .create)
      ({ sh with
        slotMap := sh.slotMap.link p.key i.elem hk hslot
        slots := Function.update sh.slots i.elem (.fresh p.chunkLen p.numWorkers) },
        .busy frame p (.relookup 0), { created := some (i.elem, frame) })
  | lock {frame : Bytes} {p : Parsed} {slot : Elem} {r : SharedMaps × Cpu × CpuOutput}
    (hmove : LockMove sh frame p slot r) : SlotMove sh i (.busy frame p (.lock slot)) r
  | delete {frame : Bytes} {p : Parsed} {finalChunkLen : BitVec 16} {cfg : Bool} {cpu' : Cpu} :
    SlotMove sh i (.busy frame p (.delete finalChunkLen cfg)) ((sh.deleteSlot p.key).1, cpu', {})

theorem Cpu.Acts.slotMove {sh : SharedMaps} {i : CpuInput} {cpu : Cpu}
    {r : SharedMaps × Cpu × CpuOutput} (h : cpu.Acts sh i r) : SlotMove sh i cpu r := by
  cases h with
  | created hk hslot => exact .create hk hslot
  | lock hmove => exact .lock hmove
  | delete => exact .delete
  | _ => exact .stay rfl rfl rfl rfl

/-! ## The CPU -/

/-- What a CPU knows of its frame: until the slot is locked it is the frame that passed the
header checks, and what is counted as dropped is dropped. -/
def Cpu.Sane : Cpu → Prop
  | .idle => True
  | .busy frame p pc =>
    match pc with
    | .config _ | .delete _ _ | .decrement _ _ _ _ | .rewrite _ => True
    | .bump _ exit _ => exit.action = .drop
    | _ => parse frame = .ok p

/-- The key that a CPU has completed and not deleted yet. -/
def Cpu.closing : Cpu → Option GradSlotKey
  | .busy _ p (.config _) => some p.key
  | .busy _ p (.delete _ _) => some p.key
  | _ => none

/-- The frame with the sums that a CPU is about to transmit, and its chunk length. -/
def Cpu.result : Cpu → Option (Bytes × BitVec 16)
  | .busy frame _ (.config finalChunkLen) => some (frame, finalChunkLen)
  | .busy frame _ (.delete finalChunkLen _) => some (frame, finalChunkLen)
  | .busy frame _ (.decrement finalChunkLen _ _ _) => some (frame, finalChunkLen)
  | .busy frame _ (.rewrite finalChunkLen) => some (frame, finalChunkLen)
  | _ => none

section

variable {sh : SharedMaps} {i : CpuInput} {cpu : Cpu} {r : SharedMaps × Cpu × CpuOutput}

theorem Cpu.Acts.sane (h : cpu.Acts sh i r) (hs : cpu.Sane) : r.2.1.Sane := by
  cases h with
  | arrive hparse => exact hparse
  | refused => exact (rfl : Exit.overQuota.action = .drop)
  | unsent => exact (rfl : Exit.noConfig.action = .drop)
  | lock hmove => cases hmove <;> trivial
  | ignore | badFanIn | lost | config | delete | releasing | released | transmit | bumped => trivial
  | found | missing | unlimited | limited | noEntry | entry | admitted | created | notCreated
  | notOffered | creator | joined | counting | counted | bumping => exact hs

/-- A key is on its way to be deleted once a CPU completed it. -/
theorem Cpu.Acts.closing (h : cpu.Acts sh i r)
    (hlock : ∀ frame p slot, cpu ≠ .busy frame p (.lock slot)) {k : GradSlotKey}
    (hk : r.2.1.closing = some k) : r.1 = sh ∧ cpu.closing = some k := by
  cases h with
  | lock => exact absurd rfl (hlock _ _ _)
  | config => exact ⟨rfl, hk⟩
  | _ => cases hk

/-- A frame with the sums in it stays as it is until it is transmitted. -/
theorem Cpu.Acts.result (h : cpu.Acts sh i r)
    (hlock : ∀ frame p slot, cpu ≠ .busy frame p (.lock slot)) {x : Bytes × BitVec 16}
    (hx : r.2.1.result = some x) : cpu.result = some x ∧ r.2.2.returned = none := by
  cases h with
  | lock => exact absurd rfl (hlock _ _ _)
  | config | delete | releasing | released => exact ⟨hx, rfl⟩
  | _ => cases hx

/-- What is transmitted is such a frame. -/
theorem Cpu.Acts.transmits (h : cpu.Acts sh i r) (hs : cpu.Sane) {out : Exit × Bytes}
    (hout : r.2.2.returned = some out) (htx : out.1.action = .tx) :
    ∃ frame finalChunkLen, cpu.result = some (frame, finalChunkLen)
      ∧ out.2 = rewriteHeaders i.cfg finalChunkLen frame := by
  cases h with
  | transmit =>
    cases hout
    exact ⟨_, _, rfl, rfl⟩
  | ignore hexit =>
    cases hout
    exact absurd htx hexit
  | bumped =>
    cases hout
    exact absurd (hs.symm.trans htx) nofun
  | lock hmove =>
    cases hmove with
    | rejected hexit =>
      cases hout
      exact absurd (hexit.symm.trans htx) nofun
    | absorbed =>
      cases hout
      cases htx
    | complete => cases hout
  | badFanIn | lost =>
    cases hout
    cases htx
  | _ => cases hout

end

/-! ## Inputs -/

/-- A step on the frame, with a parameter server and the quota, when element `elem` is next on the
free list. -/
def inputFor (maxSlotsPerJob : BitVec 32) (elem : Elem) (frame : Bytes) : CpuInput :=
  let cfg : NetsumConfig := ⟨fun _ => 0xaa, 0x0200000a, 0x9526, maxSlotsPerJob⟩
  ⟨frame, configured cfg, elem, cfg⟩

end NetSum.XdpAgg
