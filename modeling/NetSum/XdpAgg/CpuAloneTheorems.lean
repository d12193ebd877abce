import NetSum.XdpAgg.CpuTheorems

/-!
# A CPU alone

The program in steps and the program in one go are the same program: a CPU that runs without
others computes `netsumXdpAggregate` (`alone_computes`), so every run on frames one at a time is a
run of the CPUs (`run_of_sequential`). The maps of the two agree (`Agrees`) if every key has the
same slot and the other maps are equal; in which element a slot lies does not matter.
-/

namespace NetSum.XdpAgg

open NetSum.Lib NetSum.Protocol NetSum.Aggregation

/-! ## Returning -/

/-- A CPU that always finds the input `i` returns `out` and leaves the maps `sh'`. -/
inductive Cpu.Returns (i : CpuInput) : SharedMaps → Cpu → SharedMaps → Exit × Bytes → Prop
  | last {sh sh' : SharedMaps} {cpu : Cpu} {o : CpuOutput} {out : Exit × Bytes}
    (h : cpu.act sh i = (sh', .idle, o)) (ho : o.returned = some out) : Returns i sh cpu sh' out
  | next {sh sh' sh'' : SharedMaps} {cpu cpu' : Cpu} {o : CpuOutput} {out : Exit × Bytes}
    (h : cpu.act sh i = (sh', cpu', o)) (ho : o.returned = none)
    (hrest : Returns i sh' cpu' sh'' out) : Returns i sh cpu sh'' out

theorem cpuStep_of_act {C : Type} [DecidableEq C] {s : CpuSystem C} {c : C} {i : CpuInput}
    {sh' : SharedMaps} {cpu' : Cpu} {o : CpuOutput} (h : (s.loc c).act s.mem i = (sh', cpu', o)) :
    (cpuStep s (c, i)).1.mem = sh' ∧ (cpuStep s (c, i)).1.loc c = cpu'
      ∧ (cpuStep s (c, i)).2 = o := by
  have hloc : (cpuStep s (c, i)).1.loc c = ((s.loc c).act s.mem i).2.1 := Threads.step_loc_self
  rw [hloc, h]
  exact ⟨congrArg Prod.fst h, rfl, congrArg (fun r => r.2.2) h⟩

/-- The run of a CPU that returns. -/
theorem Cpu.Returns.run {C : Type} [DecidableEq C] {i : CpuInput} {sh sh' : SharedMaps} {cpu : Cpu}
    {out : Exit × Bytes} (h : cpu.Returns i sh sh' out) {s : CpuSystem C} {c : C}
    (hmem : s.mem = sh) (hloc : s.loc c = cpu) :
    ∃ n, (runState cpuStep s (List.replicate n (c, i))).mem = sh'
      ∧ (runState cpuStep s (List.replicate n (c, i))).loc c = .idle
      ∧ (runOut cpuStep s (List.replicate n (c, i))).filterMap CpuOutput.returned = [out] := by
  induction h generalizing s with
  | last h ho =>
    subst hmem hloc
    obtain ⟨hmem', hloc', hout⟩ := cpuStep_of_act h
    refine ⟨1, hmem', hloc', ?_⟩
    show [(cpuStep s (c, i)).2].filterMap CpuOutput.returned = _
    rw [hout, List.filterMap_cons_some ho]
    rfl
  | next h ho hrest ih =>
    subst hmem hloc
    obtain ⟨hmem', hloc', hout⟩ := cpuStep_of_act h
    obtain ⟨n, h1, h2, h3⟩ := ih hmem' hloc'
    refine ⟨n + 1, h1, h2, ?_⟩
    show ((cpuStep s (c, i)).2 :: _).filterMap CpuOutput.returned = _
    rw [hout, List.filterMap_cons_none ho]
    exact h3

/-- The steps of one CPU leave the others where they are. -/
theorem loc_replicate {C : Type} [DecidableEq C] {s : CpuSystem C} {c d : C} (hd : d ≠ c)
    (i : CpuInput) (n : ℕ) : (runState cpuStep s (List.replicate n (c, i))).loc d = s.loc d := by
  induction n generalizing s with
  | zero => rfl
  | succ n ih =>
    have hstep : (cpuStep s (c, i)).1.loc d = s.loc d := Threads.step_loc_of_ne hd
    rw [List.replicate_succ, runState_cons, ih, hstep]

/-- A step that shows nothing. -/
theorem Cpu.Returns.silent {i : CpuInput} {sh sh' sh'' : SharedMaps} {cpu cpu' : Cpu}
    {out : Exit × Bytes} (hrest : cpu'.Returns i sh' sh'' out)
    (h : cpu.act sh i = (sh', cpu', {})) : cpu.Returns i sh sh'' out := .next h rfl hrest

/-! ## Functions on one map -/

section

variable {i : CpuInput} {sh sh' : SharedMaps} {frame : Bytes} {p : Parsed} {out : Exit × Bytes}

/-- In its steps `job_quota_increment` does what `jobQuotaIncrement` does. -/
theorem returns_increment {slot : Elem}
    (h : (Cpu.busy frame p (.lock slot)).Returns i
      { sh with jobQuotaMap := jobQuotaIncrement sh.jobQuotaMap p.key.jobId } sh' out) :
    (Cpu.busy frame p (.increment slot .lookup)).Returns i sh sh' out := by
  unfold jobQuotaIncrement at h
  cases hlookup : sh.jobQuotaMap.lookup p.key.jobId with
  | some jq =>
    rw [hlookup] at h
    have hadd : (Cpu.busy frame p (.increment slot .add)).Returns i sh sh' out := h.silent rfl
    refine hadd.silent ?_
    rw [Cpu.act, Pc.step, IncPc.step, hlookup]
    rfl
  | none =>
    simp only [hlookup] at h
    have hupdate : (Cpu.busy frame p (.increment slot .update)).Returns i sh sh' out := by
      by_cases hroom : sh.jobQuotaMap.size < jobQuotaMapEntries
      · rw [bpfMapUpdateElem_of_room hlookup hroom] at h
        refine h.silent ?_
        rw [Cpu.act, Pc.step, IncPc.step, bpfMapUpdateElem_of_room hlookup hroom]
        rfl
      · rw [bpfMapUpdateElem_of_full hlookup hroom] at h
        simp only [BoundedMap.modify_of_none hlookup] at h
        have hrelookup : (Cpu.busy frame p (.increment slot .relookup)).Returns i sh sh' out := by
          refine h.silent ?_
          rw [Cpu.act, Pc.step, IncPc.step, hlookup]
          rfl
        refine hrelookup.silent ?_
        rw [Cpu.act, Pc.step, IncPc.step, bpfMapUpdateElem_of_full hlookup hroom]
        rfl
    refine hupdate.silent ?_
    rw [Cpu.act, Pc.step, IncPc.step, hlookup]
    rfl

/-- In its steps `job_quota_decrement` does what `jobQuotaDecrement` does. -/
theorem returns_decrement {L : BitVec 16} {cfg : Bool} {deleteRc : ℤ}
    (h : (Cpu.busy frame p
        (if cfg then .rewrite L else .bump statDroppedNoConfig .noConfig .lookup)).Returns i
      { sh with jobQuotaMap := jobQuotaDecrement sh.jobQuotaMap p.key.jobId } sh' out) :
    (Cpu.busy frame p (.decrement L cfg deleteRc .lookup)).Returns i sh sh' out := by
  unfold jobQuotaDecrement at h
  cases hlookup : sh.jobQuotaMap.lookup p.key.jobId with
  | some jq =>
    simp only [hlookup] at h
    have hread : (Cpu.busy frame p (.decrement L cfg deleteRc .read)).Returns i sh sh' out := by
      by_cases hpos : 0 < jq.concurrentSlots.toNat
      · rw [if_pos hpos] at h
        have hadd : (Cpu.busy frame p (.decrement L cfg deleteRc .add)).Returns i sh sh' out :=
          h.silent rfl
        refine hadd.silent ?_
        rw [Cpu.act, Pc.step, DecPc.step, hlookup, Option.any_some, if_pos (decide_eq_true hpos)]
      · rw [if_neg hpos] at h
        refine h.silent ?_
        rw [Cpu.act, Pc.step, DecPc.step, hlookup, Option.any_some, if_neg (by simpa using hpos)]
    refine hread.silent ?_
    rw [Cpu.act, Pc.step, DecPc.step, hlookup]
    rfl
  | none =>
    rw [hlookup] at h
    refine h.silent ?_
    rw [Cpu.act, Pc.step, DecPc.step, hlookup]
    rfl

/-- In its steps `bump_stat` does what `bumpStat` does, and the program returns. -/
theorem returns_bump (statKey : BitVec 32) (exit : Exit) :
    (Cpu.busy frame p (.bump statKey exit .lookup)).Returns i sh
      { sh with dropStats := bumpStat sh.dropStats statKey } (exit, frame) := by
  unfold bumpStat
  cases hlookup : sh.dropStats.lookup statKey with
  | some n =>
    have hadd : (Cpu.busy frame p (.bump statKey exit .add)).Returns i sh
        { sh with dropStats := sh.dropStats.modify statKey (· + 1) } (exit, frame) := .last rfl rfl
    refine hadd.silent ?_
    rw [Cpu.act, Pc.step, StatPc.step, hlookup]
    rfl
  | none =>
    have hupdate : (Cpu.busy frame p (.bump statKey exit .update)).Returns i sh
        { sh with dropStats := (bpfMapUpdateElem sh.dropStats statKey 1 .any).1 } (exit, frame) :=
      .last rfl rfl
    refine hupdate.silent ?_
    rw [Cpu.act, Pc.step, StatPc.step, hlookup]
    rfl

end

/-! ## The maps -/

/-- The maps of the CPUs and the maps of the program in one go: every key has the same slot. -/
structure Agrees (sh : SharedMaps) (maps : Maps) : Prop where
  slotMap : ∀ k, maps.slotMap.lookup k = (sh.slotMap k).map sh.slots
  jobQuotaMap : maps.jobQuotaMap = sh.jobQuotaMap
  dropStats : maps.dropStats = sh.dropStats

/-- At the start the maps agree. -/
theorem agrees_empty : Agrees .empty .empty := ⟨fun _ => BoundedMap.lookup_empty _, rfl, rfl⟩

namespace Agrees

variable {sh : SharedMaps} {maps : Maps}

theorem lookup_none (h : Agrees sh maps) {k : GradSlotKey} :
    maps.slotMap.lookup k = none ↔ sh.slotMap k = none := by
  rw [h.slotMap, Option.map_eq_none_iff]

/-- There are as many linked elements as keys. -/
theorem size_eq (h : Agrees sh maps) : maps.slotMap.size = sh.slotMap.count fun _ => true := by
  symm
  refine Pool.count_eq_keys_card _ fun k => ?_
  rw [BoundedMap.mem_keys_iff, h.slotMap, Option.isSome_map]

theorem room_of_free (h : Agrees sh maps) {slot : Elem} (hfree : sh.slotMap.owner slot = none) :
    maps.slotMap.size < slotMapEntries := by
  rw [h.size_eq]
  exact (Pool.count_lt_card hfree _).trans_eq (Fintype.card_fin _)

theorem full_of_owned (h : Agrees sh maps) (hfull : ∀ e, sh.slotMap.owner e ≠ none) :
    ¬ maps.slotMap.size < slotMapEntries := by
  have hany : ∀ e, (sh.slotMap.owner e).any (fun _ => true) = true := by
    intro e
    rw [Option.any_true]
    exact Option.isSome_iff_ne_none.mpr (hfull e)
  rw [h.size_eq, Pool.count_eq_card hany, Fintype.card_fin]
  exact Nat.lt_irrefl _

/-- Writing through a pointer is modifying the entry of its key. -/
theorem write (h : Agrees sh maps) {key : GradSlotKey} {slot : Elem}
    (hkey : sh.slotMap key = some slot) (s : GradSlot) :
    Agrees { sh with slots := Function.update sh.slots slot s }
      { maps with slotMap := maps.slotMap.modify key fun _ => s } := by
  refine ⟨fun k => ?_, h.jobQuotaMap, h.dropStats⟩
  show (maps.slotMap.modify key _).lookup k = (sh.slotMap k).map (Function.update sh.slots slot s)
  rw [BoundedMap.lookup_modify, h.slotMap, h.slotMap]
  by_cases hk : k = key
  · rw [if_pos hk, hk, hkey]
    show some s = some (Function.update sh.slots slot s slot)
    rw [Function.update_self]
  · rw [if_neg hk]
    refine Option.map_congr fun e he => ?_
    have hne : e ≠ slot := fun heq => hk (Pool.key_unique he (heq ▸ hkey))
    rw [Function.update_of_ne hne]

/-- Creating with a free element. -/
theorem create (h : Agrees sh maps) {key : GradSlotKey} {slot : Elem}
    (hkey : sh.slotMap key = none) (hfree : sh.slotMap.owner slot = none) (fresh : GradSlot) :
    ∃ sh', sh.createSlot key fresh slot = some (sh', 0)
      ∧ Agrees sh' { maps with
          slotMap := maps.slotMap.insert key fresh fun _ => h.room_of_free hfree }
      ∧ sh'.slotMap key = some slot ∧ sh'.slots slot = fresh := by
  unfold SharedMaps.createSlot
  rw [dif_pos hkey, dif_pos hfree]
  refine ⟨_, rfl, ⟨fun k => ?_, h.jobQuotaMap, h.dropStats⟩, if_pos rfl, Function.update_self ..⟩
  show (maps.slotMap.insert key fresh fun _ => h.room_of_free hfree).lookup k
    = (sh.slotMap.link key slot hkey hfree k).map (Function.update sh.slots slot fresh)
  rw [BoundedMap.lookup_insert, Pool.link_apply, h.slotMap]
  split
  · show some fresh = some (Function.update sh.slots slot fresh slot)
    rw [Function.update_self]
  · refine Option.map_congr fun e he => ?_
    have hne : e ≠ slot := fun heq => Pool.apply_ne_of_owner_none hfree k (heq ▸ he)
    rw [Function.update_of_ne hne]

theorem delete (h : Agrees sh maps) (key : GradSlotKey) :
    Agrees (sh.deleteSlot key).1 { maps with slotMap := maps.slotMap.delete key } := by
  refine ⟨fun k => ?_, h.jobQuotaMap, h.dropStats⟩
  show (maps.slotMap.delete key).lookup k = (sh.slotMap.unlink key k).map sh.slots
  rw [BoundedMap.lookup_delete, Pool.unlink_apply, h.slotMap]
  split
  · rfl
  · rfl

theorem withQuota (h : Agrees sh maps)
    (m : BoundedMap (BitVec 32) JobQuotaEntry jobQuotaMapEntries) :
    Agrees { sh with jobQuotaMap := m } { maps with jobQuotaMap := m } :=
  ⟨h.slotMap, rfl, h.dropStats⟩

theorem withStats (h : Agrees sh maps) (m : BoundedMap (BitVec 32) (BitVec 64) 4) :
    Agrees { sh with dropStats := m } { maps with dropStats := m } :=
  ⟨h.slotMap, h.jobQuotaMap, rfl⟩

end Agrees

/-! ## The program -/

/-- A CPU that always finds `i` returns what `r` has, and the maps it leaves agree. -/
def Cpu.Computes (i : CpuInput) (sh : SharedMaps) (cpu : Cpu) (r : Maps × Exit × Bytes) : Prop :=
  ∃ sh', Agrees sh' r.1 ∧ cpu.Returns i sh sh' r.2

theorem Cpu.Computes.next {i : CpuInput} {sh sh' : SharedMaps} {cpu cpu' : Cpu} {o : CpuOutput}
    {r : Maps × Exit × Bytes} (hrest : cpu'.Computes i sh' r)
    (h : cpu.act sh i = (sh', cpu', o)) (ho : o.returned = none) : cpu.Computes i sh r := by
  obtain ⟨sh'', hagrees, hreturns⟩ := hrest
  exact ⟨sh'', hagrees, .next h ho hreturns⟩

theorem Cpu.Computes.silent {i : CpuInput} {sh sh' : SharedMaps} {cpu cpu' : Cpu}
    {r : Maps × Exit × Bytes} (hrest : cpu'.Computes i sh' r)
    (h : cpu.act sh i = (sh', cpu', {})) : cpu.Computes i sh r := hrest.next h rfl

section

variable {i : CpuInput} {sh : SharedMaps} {maps : Maps} {frame : Bytes} {p : Parsed}
  {r : Maps × Exit × Bytes}

theorem computes_bump (h : Agrees sh maps) (statKey : BitVec 32) (exit : Exit) :
    (Cpu.busy frame p (.bump statKey exit .lookup)).Computes i sh
      ({ maps with dropStats := bumpStat maps.dropStats statKey }, exit, frame) := by
  refine ⟨_, h.withStats (bumpStat maps.dropStats statKey), ?_⟩
  rw [h.dropStats]
  exact returns_bump statKey exit

theorem computes_increment (h : Agrees sh maps) {slot : Elem}
    (hrest : ∀ sh', Agrees sh' { maps with
        jobQuotaMap := jobQuotaIncrement maps.jobQuotaMap p.key.jobId } →
      sh'.slotMap = sh.slotMap → sh'.slots = sh.slots →
      (Cpu.busy frame p (.lock slot)).Computes i sh' r) :
    (Cpu.busy frame p (.increment slot .lookup)).Computes i sh r := by
  obtain ⟨sh', hagrees, hreturns⟩ := hrest _ (h.withQuota _) rfl rfl
  rw [h.jobQuotaMap] at hreturns
  exact ⟨sh', hagrees, returns_increment hreturns⟩

theorem computes_decrement (h : Agrees sh maps) {finalChunkLen : BitVec 16} {cfg : Bool}
    {deleteRc : ℤ}
    (hrest : ∀ sh', Agrees sh' { maps with
        jobQuotaMap := jobQuotaDecrement maps.jobQuotaMap p.key.jobId } →
      (Cpu.busy frame p (if cfg then .rewrite finalChunkLen
        else .bump statDroppedNoConfig .noConfig .lookup)).Computes i sh' r) :
    (Cpu.busy frame p (.decrement finalChunkLen cfg deleteRc .lookup)).Computes i sh r := by
  obtain ⟨sh', hagrees, hreturns⟩ := hrest _ (h.withQuota _)
  rw [h.jobQuotaMap] at hreturns
  exact ⟨sh', hagrees, returns_decrement hreturns⟩

theorem computes_finish (h : Agrees sh maps) (hcfg : i.configMap = maps.configMap)
    (hread : ∀ cfg, maps.configMap.lookup 0 = some cfg → i.cfg = cfg) (finalChunkLen : BitVec 16) :
    (Cpu.busy frame p (.config finalChunkLen)).Computes i sh
      (finish maps p.key frame finalChunkLen) := by
  have hdelete : (Cpu.busy frame p
      (.delete finalChunkLen (i.configMap.lookup 0).isSome)).Computes i sh
      (finish maps p.key frame finalChunkLen) := by
    refine Cpu.Computes.silent (computes_decrement (h.delete p.key) fun sh' hsh' => ?_) rfl
    rw [hcfg]
    unfold finish
    cases hlookup : maps.configMap.lookup 0 with
    | none => exact computes_bump hsh' statDroppedNoConfig .noConfig
    | some cfg =>
      have hrewrite : (Cpu.busy frame p (.rewrite finalChunkLen)).act sh' i
          = (sh', .idle,
            { returned := some (.complete, rewriteHeaders cfg finalChunkLen frame) }) := by
        rw [← hread cfg hlookup]
        rfl
      exact ⟨sh', hsh', .last hrewrite rfl⟩
  exact hdelete.silent rfl

theorem computes_lock (h : Agrees sh maps) (hcfg : i.configMap = maps.configMap)
    (hread : ∀ cfg, maps.configMap.lookup 0 = some cfg → i.cfg = cfg) {slot : Elem}
    (hkey : sh.slotMap p.key = some slot) :
    (Cpu.busy frame p (.lock slot)).Computes i sh (aggregate maps p (sh.slots slot) frame) := by
  have hact : (Cpu.busy frame p (.lock slot)).act sh i = lockStep sh frame p slot := rfl
  unfold lockStep at hact
  unfold aggregate
  have hwrite := h.write hkey (lockedSection (sh.slots slot) frame p).1
  generalize lockedSection (sh.slots slot) frame p = outcome at hact hwrite ⊢
  obtain ⟨s, frame', outcome⟩ := outcome
  cases outcome with
  | mismatch => exact ⟨_, hwrite, .last hact rfl⟩
  | duplicate => exact ⟨_, hwrite, .last hact rfl⟩
  | absorbed => exact ⟨_, hwrite, .last hact rfl⟩
  | complete finalChunkLen =>
    obtain ⟨sh', hagrees, hreturns⟩ := computes_finish hwrite hcfg hread finalChunkLen
    exact ⟨sh', hagrees, .next hact rfl hreturns⟩

/-- The admission check takes the same branch. -/
theorem computes_precheck (h : Agrees sh maps) (hcfg : i.configMap = maps.configMap)
    (hover : overQuota maps p.key.jobId = true →
      (Cpu.busy frame p (.bump statDroppedFairnessQuota .overQuota .lookup)).Computes i sh r)
    (hcreate : overQuota maps p.key.jobId = false → (Cpu.busy frame p .create).Computes i sh r) :
    (Cpu.busy frame p .precheck).Computes i sh r := by
  -- the quota is read from the map that the call runs with
  have hmax : i.maxSlotsPerJob = maxSlotsPerJob maps := by
    unfold CpuInput.maxSlotsPerJob
    rw [hcfg]
    rfl
  unfold overQuota at hover hcreate
  rw [h.jobQuotaMap, ← hmax] at hover hcreate
  by_cases hpos : 0 < i.maxSlotsPerJob.toNat
  · have hlookup : (Cpu.busy frame p (.quotaLookup i.maxSlotsPerJob)).Computes i sh r := by
      cases hjq : sh.jobQuotaMap.lookup p.key.jobId with
      | none =>
        have hnot := hcreate (by rw [hjq, Bool.and_false])
        refine hnot.silent ?_
        rw [Cpu.act, Pc.step, hjq]
        rfl
      | some jq =>
        have hread : (Cpu.busy frame p (.quotaRead i.maxSlotsPerJob)).Computes i sh r := by
          by_cases hge : jq.concurrentSlots ≥ i.maxSlotsPerJob
          · have hbump := hover (by rw [hjq]; simp [hpos, hge])
            refine hbump.silent ?_
            rw [Cpu.act, Pc.step, hjq, Option.any_some, if_pos (decide_eq_true hge)]
          · have hnot := hcreate (by rw [hjq]; simp [hge])
            refine hnot.silent ?_
            rw [Cpu.act, Pc.step, hjq, Option.any_some, if_neg (by simpa using hge)]
        refine hread.silent ?_
        rw [Cpu.act, Pc.step, hjq]
        rfl
    refine hlookup.silent ?_
    rw [Cpu.act, Pc.step, if_pos hpos]
  · have hnot := hcreate (by simp [hpos])
    refine hnot.silent ?_
    rw [Cpu.act, Pc.step, if_neg hpos]

/-- The program after `findOrCreate`. -/
def withSlot (frame : Bytes) (p : Parsed) : Maps × Except Exit GradSlot → Maps × Exit × Bytes
  | (maps, .error exit) => (maps, exit, frame)
  | (maps, .ok slot) => aggregate maps p slot frame

theorem computes_create (h : Agrees sh maps) (hcfg : i.configMap = maps.configMap)
    (hread : ∀ cfg, maps.configMap.lookup 0 = some cfg → i.cfg = cfg)
    (hkey : sh.slotMap p.key = none)
    (hfan : ¬ (p.numWorkers.toNat = 0 ∨ p.numWorkers.toNat > maxTrackedWorkersBitmapBytes * 8))
    (hquota : overQuota maps p.key.jobId = false)
    (helem : sh.slotMap.owner i.elem = none ∨ ∀ e, sh.slotMap.owner e ≠ none) :
    (Cpu.busy frame p .create).Computes i sh (withSlot frame p (findOrCreate maps p)) := by
  have hnone := h.lookup_none.mpr hkey
  unfold findOrCreate
  simp only [hnone, if_neg hfan, hquota, Bool.false_eq_true, if_false]
  by_cases hfree : sh.slotMap.owner i.elem = none
  · obtain ⟨sh', hcreate, hsh', hlinked, hfresh⟩ :=
      h.create hkey hfree (.fresh p.chunkLen p.numWorkers)
    simp only [bpfMapUpdateElem_of_room hnone (h.room_of_free hfree), BoundedMap.lookup_insert,
      if_true]
    have hact : (Cpu.busy frame p .create).act sh i = (sh', .busy frame p (.relookup 0),
        { created := some (i.elem, frame) }) := by
      rw [Cpu.act, Pc.step, hcreate]
      rfl
    have hact' : (Cpu.busy frame p (.relookup 0)).act sh' i
        = (sh', .busy frame p (.increment i.elem .lookup), {}) := by
      rw [Cpu.act, Pc.step, hlinked]
      rfl
    refine Cpu.Computes.next (Cpu.Computes.silent ?_ hact') hact rfl
    refine computes_increment hsh' fun sh'' hsh'' hmap hslots => ?_
    have hlock : (Cpu.busy frame p (.lock i.elem)).Computes i sh''
        (aggregate _ p (sh''.slots i.elem) frame) :=
      computes_lock hsh'' hcfg hread (by rw [hmap, hlinked])
    rw [hslots, hfresh] at hlock
    exact hlock
  · -- without a free element the update fails, and so does the second lookup
    have hfull := helem.resolve_left hfree
    simp only [bpfMapUpdateElem_of_full hnone (h.full_of_owned hfull), hnone]
    have hrelookup : (Cpu.busy frame p (.relookup (-7))).Computes i sh
        (withSlot frame p (maps, .error .mapFull)) := by
      have hact : (Cpu.busy frame p (.relookup (-7))).act sh i
          = (sh, .idle, { returned := some (.mapFull, frame) }) := by
        rw [Cpu.act, Pc.step, hkey]
      exact ⟨sh, h, .last hact rfl⟩
    refine hrelookup.silent ?_
    rw [Cpu.act, Pc.step, SharedMaps.createSlot, dif_pos hkey, dif_neg hfree, if_pos hfull]
    rfl

theorem computes_lookup (h : Agrees sh maps) (hcfg : i.configMap = maps.configMap)
    (hread : ∀ cfg, maps.configMap.lookup 0 = some cfg → i.cfg = cfg)
    (helem : sh.slotMap.owner i.elem = none ∨ ∀ e, sh.slotMap.owner e ≠ none) :
    (Cpu.busy frame p .lookup).Computes i sh (withSlot frame p (findOrCreate maps p)) := by
  cases hkey : sh.slotMap p.key with
  | some slot =>
    have hact : (Cpu.busy frame p .lookup).act sh i = (sh, .busy frame p (.lock slot), {}) := by
      rw [Cpu.act, Pc.step, hkey]
    have hfound : maps.slotMap.lookup p.key = some (sh.slots slot) := by
      rw [h.slotMap, hkey]
      rfl
    unfold findOrCreate
    simp only [hfound]
    exact (computes_lock h hcfg hread hkey).silent hact
  | none =>
    have hnone := h.lookup_none.mpr hkey
    by_cases hfan : p.numWorkers.toNat = 0 ∨ p.numWorkers.toNat > maxTrackedWorkersBitmapBytes * 8
    · have hact : (Cpu.busy frame p .lookup).act sh i
          = (sh, .idle, { returned := some (.fanInOutOfRange, frame) }) := by
        rw [Cpu.act, Pc.step, hkey]
        exact if_pos hfan
      unfold findOrCreate
      simp only [hnone, if_pos hfan]
      exact ⟨sh, h, .last hact rfl⟩
    · have hact : (Cpu.busy frame p .lookup).act sh i = (sh, .busy frame p .precheck, {}) := by
        rw [Cpu.act, Pc.step, hkey]
        exact if_neg hfan
      have hprecheck : (Cpu.busy frame p .precheck).Computes i sh
          (withSlot frame p (findOrCreate maps p)) := by
        refine computes_precheck h hcfg (fun hquota => ?_) fun hquota =>
          computes_create h hcfg hread hkey hfan hquota helem
        unfold findOrCreate
        simp only [hnone, if_neg hfan, hquota, if_true]
        exact computes_bump h statDroppedFairnessQuota .overQuota
      exact hprecheck.silent hact

/-- Every function of the program in steps, put together. -/
theorem computes_idle (h : Agrees sh maps) (hcfg : i.configMap = maps.configMap)
    (hread : ∀ cfg, maps.configMap.lookup 0 = some cfg → i.cfg = cfg)
    (helem : sh.slotMap.owner i.elem = none ∨ ∀ e, sh.slotMap.owner e ≠ none) :
    Cpu.idle.Computes i sh (netsumXdpAggregate maps i.frame) := by
  unfold netsumXdpAggregate
  cases hparse : parse i.frame with
  | error exit =>
    have hact : Cpu.idle.act sh i = (sh, .idle, { returned := some (exit, i.frame) }) := by
      rw [Cpu.act, hparse]
    exact ⟨sh, h, .last hact rfl⟩
  | ok p =>
    have hact : Cpu.idle.act sh i = (sh, .busy i.frame p .lookup, {}) := by rw [Cpu.act, hparse]
    exact (computes_lookup h hcfg hread helem).silent hact

end

/-! ## Runs -/

section

variable {C : Type} [DecidableEq C] {s : CpuSystem C} {maps : Maps}

/-- A CPU that runs without others until it is done computes the program: it returns once, what
the program returns, and the maps agree. -/
theorem alone_computes {c : C} {i : CpuInput} (hidle : s.loc c = .idle) (h : Agrees s.mem maps)
    (hcfg : i.configMap = maps.configMap)
    (hread : ∀ cfg, maps.configMap.lookup 0 = some cfg → i.cfg = cfg)
    (helem : s.mem.slotMap.owner i.elem = none ∨ ∀ e, s.mem.slotMap.owner e ≠ none) :
    ∃ n, (runState cpuStep s (List.replicate n (c, i))).loc c = .idle
      ∧ Agrees (runState cpuStep s (List.replicate n (c, i))).mem
        (netsumXdpAggregate maps i.frame).1
      ∧ (runOut cpuStep s (List.replicate n (c, i))).filterMap CpuOutput.returned
        = [(netsumXdpAggregate maps i.frame).2] := by
  obtain ⟨sh', hagrees, hreturns⟩ := computes_idle h hcfg hread helem
  obtain ⟨n, hmem, hloc, hout⟩ := hreturns.run rfl hidle
  rw [← hmem] at hagrees
  exact ⟨n, hloc, hagrees, hout⟩

/-- What a CPU finds from outside during one call of the program. -/
theorem exists_input (sh : SharedMaps) (ev : XdpEvent) :
    ∃ i : CpuInput, i.frame = ev.frame ∧ i.configMap = ev.configMap
      ∧ (∀ cfg, ev.configMap.lookup 0 = some cfg → i.cfg = cfg)
      ∧ (sh.slotMap.owner i.elem = none ∨ ∀ e, sh.slotMap.owner e ≠ none) := by
  have helem : ∃ elem, sh.slotMap.owner elem = none ∨ ∀ e, sh.slotMap.owner e ≠ none := by
    by_cases hfree : ∃ elem, sh.slotMap.owner elem = none
    · obtain ⟨elem, helem⟩ := hfree
      exact ⟨elem, .inl helem⟩
    · exact ⟨0, .inr (not_exists.mp hfree)⟩
  obtain ⟨elem, helem⟩ := helem
  cases hcfg : ev.configMap.lookup 0 with
  | none => exact ⟨⟨ev.frame, ev.configMap, elem, ⟨fun _ => 0, 0, 0, 0⟩⟩, rfl, rfl, nofun, helem⟩
  | some cfg =>
    exact ⟨⟨ev.frame, ev.configMap, elem, cfg⟩, rfl, rfl, fun cfg' h => Option.some.inj h, helem⟩

/-- **Runs on frames one at a time are runs of the CPUs**, whichever CPU takes which frame: the
program returns the same, frame by frame, and the maps agree in the end. -/
theorem run_of_sequential (hidle : ∀ c, s.loc c = .idle) (h : Agrees s.mem maps)
    (es : List (C × XdpEvent)) :
    ∃ evs, (∀ c, (runState cpuStep s evs).loc c = .idle)
      ∧ Agrees (runState cpuStep s evs).mem (runState xdpStep maps (es.map Prod.snd))
      ∧ (runOut cpuStep s evs).filterMap CpuOutput.returned
        = runOut xdpStep maps (es.map Prod.snd) := by
  induction es generalizing s maps with
  | nil => exact ⟨[], hidle, h, rfl⟩
  | cons e es ih =>
    obtain ⟨c, ev⟩ := e
    -- one CPU runs the call from start to end while the others are idle
    obtain ⟨i, hframe, hcfg, hread, helem⟩ := exists_input s.mem ev
    have hagrees : Agrees s.mem (maps.withConfig ev.configMap) :=
      ⟨h.slotMap, h.jobQuotaMap, h.dropStats⟩
    obtain ⟨n, hloc, hmem, hout⟩ := alone_computes (hidle c) hagrees hcfg hread helem
    rw [hframe] at hmem hout
    have hall : ∀ d, (runState cpuStep s (List.replicate n (c, i))).loc d = .idle := by
      intro d
      by_cases hd : d = c
      · rw [hd, hloc]
      · rw [loc_replicate hd, hidle]
    obtain ⟨evs, hall', hmem', hout'⟩ := ih hall hmem
    refine ⟨List.replicate n (c, i) ++ evs, ?_, ?_, ?_⟩
    · rw [runState_append]
      exact hall'
    · rw [runState_append]
      exact hmem'
    · rw [runOut_append, List.filterMap_append, hout, hout']
      rfl

/-- What the program returns on frames one at a time, the CPUs return in some run. -/
theorem returns_of_sequential (es : List (C × XdpEvent)) :
    ∃ evs, (runOut cpuStep (CpuSystem.init C) evs).filterMap CpuOutput.returned
      = runOut xdpStep Maps.empty (es.map Prod.snd) := by
  have hidle : ∀ c, (CpuSystem.init C).loc c = .idle := fun _ => rfl
  obtain ⟨evs, -, -, hout⟩ := run_of_sequential hidle agrees_empty es
  exact ⟨evs, hout⟩

end

end NetSum.XdpAgg
