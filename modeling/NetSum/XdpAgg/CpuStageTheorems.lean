import NetSum.XdpAgg.CpuTheorems

/-!
# How far a CPU is with its frame

With a parameter server and no quota a CPU takes a frame to the lock of its slot, and if the frame
was the last one of its key it deletes the key and transmits the sums. `Stage` says how far it is,
and `Turn` what a step does to the slots at each stage, for a frame that finds room and that no
worker sent before (`Cpu.turn`).
-/

namespace NetSum.XdpAgg

open NetSum.Lib NetSum.Protocol NetSum.Aggregation

/-! ## How far a CPU is with its frame -/

/-- What a CPU has of a frame: nothing, a frame on its way to the lock of its slot, or the frame
with the sums of a key that it completed, and has still to delete (`closing`) or has deleted
(`leaving`). Without a quota, and with a parameter server, no frame is refused. -/
inductive Stage where
  | idle
  | waiting (frame : Bytes)
  | closing (k : GradSlotKey) (frame : Bytes) (finalChunkLen : BitVec 16)
  | leaving (k : GradSlotKey) (frame : Bytes) (finalChunkLen : BitVec 16)
  | refusing

def Cpu.stage : Cpu → Stage
  | .idle => .idle
  | .busy frame p pc =>
    match pc with
    | .lookup | .precheck | .create | .relookup _ | .increment _ _ | .lock _ => .waiting frame
    | .config finalChunkLen | .delete finalChunkLen true => .closing p.key frame finalChunkLen
    | .decrement finalChunkLen true _ _ | .rewrite finalChunkLen =>
      .leaving p.key frame finalChunkLen
    | .quotaLookup _ | .quotaRead _ | .delete _ false | .decrement _ false _ _ | .bump _ _ _ =>
      .refusing

/-- A CPU on its way to the lock got past the header checks, and what it knows of its key's slot
is so. -/
def Cpu.Points (sh : SharedMaps) : Cpu → Prop
  | .idle => True
  | .busy frame p pc =>
    match pc with
    | .lookup | .precheck | .create => parse frame = .ok p
    | .relookup _ => parse frame = .ok p ∧ (sh.slotMap p.key).isSome
    | .increment slot _ | .lock slot => parse frame = .ok p ∧ sh.slotMap p.key = some slot
    | _ => True

/-- The configuration that a step finds has no quota. -/
def CpuInput.Unlimited (i : CpuInput) : Prop :=
  ∃ cfg, i.configMap.lookup 0 = some cfg ∧ cfg.maxSlotsPerJob = 0

theorem CpuInput.Unlimited.maxSlotsPerJob {i : CpuInput} (h : i.Unlimited) :
    i.maxSlotsPerJob.toNat = 0 := by
  obtain ⟨cfg, hcfg, hmax⟩ := h
  rw [CpuInput.maxSlotsPerJob, hcfg]
  exact congrArg BitVec.toNat hmax

/-! ## One step -/

/-- A creation fails if the key is there, or if no element is free. -/
theorem createSlot_failed {sh : SharedMaps} {key : GradSlotKey} {fresh : GradSlot} {slot : Elem}
    {r : SharedMaps × ℤ} (h : sh.createSlot key fresh slot = some r) (hrc : r.2 ≠ 0) :
    (sh.slotMap key).isSome ∨ ∀ e, sh.slotMap.owner e ≠ none := by
  unfold SharedMaps.createSlot at h
  split at h
  · split at h
    · cases h
      exact absurd rfl hrc
    · split at h
      · next hfull => exact .inr hfull
      · cases h
  · next hk => exact .inl (Option.isSome_iff_ne_none.mpr hk)

/-- What a step does with the frames of such a collection. -/
inductive Turn (sh : SharedMaps) (i : CpuInput) (cpu : Cpu) (r : SharedMaps × Cpu × CpuOutput) :
    Prop
  | ignore (hidle : cpu = .idle) (hnot : ¬ Counts i.frame) (hmem : r.1 = sh)
    (hnext : r.2.1.stage = .idle) (hout : ∀ x, r.2.2.returned = some x → x.1.action ≠ .tx)
  | arrive (hidle : cpu = .idle) (hcounts : Counts i.frame) (hmem : r.1 = sh)
    (hnext : r.2.1.stage = .waiting i.frame) (hout : r.2.2.returned = none)
  | advance {f : Bytes} (hstage : cpu.stage = .waiting f) (hmap : r.1.slotMap = sh.slotMap)
    (hslots : r.1.slots = sh.slots) (hnext : r.2.1.stage = .waiting f)
    (hout : r.2.2.returned = none)
  | create {f : Bytes} (hstage : cpu.stage = .waiting f) (hk : sh.slotMap (keyOf f) = none)
    (hslot : sh.slotMap.owner i.elem = none)
    (hmap : r.1.slotMap = sh.slotMap.link (keyOf f) i.elem hk hslot)
    (hslots : r.1.slots = Function.update sh.slots i.elem
      (.fresh (GradHdr.decode (payload f)).chunkLen (GradHdr.decode (payload f)).numWorkers))
    (hnext : r.2.1.stage = .waiting f) (hout : r.2.2.returned = none)
  | absorb {f : Bytes} {slot : Elem} (hstage : cpu.stage = .waiting f)
    (hk : sh.slotMap (keyOf f) = some slot)
    (hcount : (sh.slots slot).contributionsReceived + 1 ≠ (sh.slots slot).numWorkersExpected)
    (hmap : r.1.slotMap = sh.slotMap)
    (hslots : r.1.slots = Function.update sh.slots slot
      ((sh.slots slot).accumulate f (.ofPayload (payload f))))
    (hnext : r.2.1.stage = .idle) (hout : r.2.2.returned = some (.absorbed, f))
  | complete {f : Bytes} {slot : Elem} (hstage : cpu.stage = .waiting f)
    (hk : sh.slotMap (keyOf f) = some slot)
    (hcount : (sh.slots slot).contributionsReceived + 1 = (sh.slots slot).numWorkersExpected)
    (hmap : r.1.slotMap = sh.slotMap)
    (hslots : r.1.slots = Function.update sh.slots slot
      ((sh.slots slot).accumulate f (.ofPayload (payload f))))
    (hnext : r.2.1.stage = .closing (keyOf f)
      (writeBack f ((sh.slots slot).accumulate f (.ofPayload (payload f)))
        (sh.slots slot).chunkLen) (sh.slots slot).chunkLen)
    (hout : r.2.2.returned = none)
  | carry {k : GradSlotKey} {f : Bytes} {L : BitVec 16}
    (hstage : cpu.stage = .closing k f L ∨ cpu.stage = .leaving k f L)
    (hmap : r.1.slotMap = sh.slotMap) (hslots : r.1.slots = sh.slots)
    (hnext : r.2.1.stage = cpu.stage) (hout : r.2.2.returned = none)
  | delete {k : GradSlotKey} {f : Bytes} {L : BitVec 16} (hstage : cpu.stage = .closing k f L)
    (hmap : r.1.slotMap = sh.slotMap.unlink k) (hslots : r.1.slots = sh.slots)
    (hnext : r.2.1.stage = .leaving k f L) (hout : r.2.2.returned = none)
  | transmit {k : GradSlotKey} {f : Bytes} {L : BitVec 16} (hstage : cpu.stage = .leaving k f L)
    (hmem : r.1 = sh) (hnext : r.2.1.stage = .idle)
    (hout : r.2.2.returned = some (.complete, rewriteHeaders i.cfg L f))

section

variable {sh : SharedMaps} {i : CpuInput} {cpu : Cpu}

/-- The creation of a slot. -/
theorem turn_create {f : Bytes} {p : Parsed} (hparse : parse f = .ok p)
    (hroom : sh.slotMap p.key = none → ∃ e, sh.slotMap.owner e = none) :
    Turn sh i (.busy f p .create) ((Cpu.busy f p .create).act sh i)
      ∧ ((Cpu.busy f p .create).act sh i).2.1.Points ((Cpu.busy f p .create).act sh i).1 := by
  obtain ⟨-, hp⟩ := counts_of_parse hparse
  rw [Cpu.act, Pc.step]
  cases h : sh.createSlot p.key (.fresh p.chunkLen p.numWorkers) i.elem with
  | none => exact ⟨.advance rfl rfl rfl rfl rfl, hparse⟩
  | some r =>
    rcases createSlot_cases h with ⟨hk, hslot, rfl⟩ | ⟨hmem, hrc⟩
    · -- the key is linked to the element
      have hlinked : (sh.slotMap.link p.key i.elem hk hslot) p.key = some i.elem := by
        rw [Pool.link_apply, if_pos rfl]
      have hsome : ((sh.slotMap.link p.key i.elem hk hslot) p.key).isSome := by
        rw [hlinked]
        rfl
      refine ⟨?_, hparse, hsome⟩
      subst hp
      exact .create rfl hk hslot rfl rfl rfl rfl
    · have hsome : (sh.slotMap p.key).isSome := by
        rcases createSlot_failed h hrc with hsome | hfull
        · exact hsome
        · rw [Option.isSome_iff_ne_none]
          intro hnone
          obtain ⟨e, he⟩ := hroom hnone
          exact hfull e he
      obtain ⟨sh', createRc⟩ := r
      obtain rfl : sh' = sh := hmem
      exact ⟨.advance rfl rfl rfl rfl rfl, hparse, hsome⟩

/-- The section under the lock, for a new worker with the slot's chunk length. -/
theorem turn_lock {f : Bytes} {p : Parsed} {slot : Elem} {r : SharedMaps × Cpu × CpuOutput}
    (hmove : LockMove sh f p slot r) (hlocked : sh.slotMap p.key = some slot)
    (hparse : parse f = .ok p)
    (hnew : (sh.slots slot).chunkLen = (GradHdr.decode (payload f)).chunkLen
      ∧ (sh.slots slot).seen (GradHdr.decode (payload f)).workerId = false)
    (hout : r = lockStep sh f p slot) :
    Turn sh i (.busy f p (.lock slot)) r ∧ r.2.1.Points r.1 := by
  obtain ⟨-, rfl⟩ := counts_of_parse hparse
  cases hmove with
  | rejected hexit hv =>
    -- a rejected frame has another chunk length, or is of a worker that was counted
    have hcase := lockedSection_case (sh.slots slot) f (.ofPayload (payload f))
    unfold lockStep at hout
    generalize lockedSection (sh.slots slot) f (.ofPayload (payload f)) = x at hcase hout
    cases hcase with
    | mismatch hlen => exact absurd hnew.1 hlen
    | duplicate hlen hseen => exact absurd hnew.2 (ne_false_of_eq_true hseen)
    | absorbed => rcases hv with rfl | rfl <;> cases congrArg (fun r => r.2.2.locked) hout
    | complete => rcases hv with rfl | rfl <;> cases congrArg (fun r => r.2.2.locked) hout
  | absorbed hlen hseen hcount => exact ⟨.absorb rfl hlocked hcount rfl rfl rfl rfl, trivial⟩
  | complete hlen hseen hcount => exact ⟨.complete rfl hlocked hcount rfl rfl rfl rfl, trivial⟩

/-- **Every step is such a turn**, if the frame has a possible fan-in, the map has room, and the
slot of the frame's key has its chunk length and not its worker. -/
theorem Cpu.turn (hpoints : cpu.Points sh) (hregular : cpu.stage ≠ .refusing)
    (hi : i.Unlimited)
    (hfan : ∀ f, cpu.stage = .waiting f → FanInOk (GradHdr.decode (payload f)).numWorkers)
    (hroom : ∀ f, cpu.stage = .waiting f → sh.slotMap (keyOf f) = none →
      ∃ e, sh.slotMap.owner e = none)
    (hnew : ∀ f slot, cpu.stage = .waiting f → sh.slotMap (keyOf f) = some slot →
      (sh.slots slot).chunkLen = (GradHdr.decode (payload f)).chunkLen
        ∧ (sh.slots slot).seen (GradHdr.decode (payload f)).workerId = false) :
    Turn sh i cpu (cpu.act sh i) ∧ (cpu.act sh i).2.1.Points (cpu.act sh i).1 := by
  cases cpu with
  | idle =>
    unfold Cpu.act
    cases hparse : parse i.frame with
    | error exit =>
      refine ⟨.ignore rfl (fun hcounts => ?_) rfl rfl fun x hx => ?_, trivial⟩
      · rw [parse_of_sound hcounts.1 hcounts.2] at hparse
        cases hparse
      · cases hx
        exact action_of_parse_error hparse
    | ok p => exact ⟨.arrive rfl (counts_of_parse hparse).1 rfl rfl rfl, hparse⟩
  | busy frame p pc =>
    have hcfg : (i.configMap.lookup 0).isSome := by
      obtain ⟨cfg, hcfg, -⟩ := hi
      rw [hcfg]
      rfl
    cases pc with
    | lookup =>
      have hparse : parse frame = .ok p := hpoints
      obtain ⟨-, hp⟩ := counts_of_parse hparse
      have hpos := hfan frame rfl
      rw [Cpu.act, Pc.step]
      cases hslot : sh.slotMap p.key with
      | some slot => exact ⟨.advance rfl rfl rfl rfl rfl, hparse, hslot⟩
      | none =>
        have hok : ¬ (p.numWorkers.toNat = 0
            ∨ p.numWorkers.toNat > maxTrackedWorkersBitmapBytes * 8) := by
          rw [hp, not_or, not_lt]
          exact ⟨Nat.ne_of_gt hpos.1, hpos.2⟩
        dsimp only
        rw [if_neg hok]
        exact ⟨.advance rfl rfl rfl rfl rfl, hparse⟩
    | precheck =>
      rw [Cpu.act, Pc.step, if_neg (by rw [hi.maxSlotsPerJob]; exact Nat.lt_irrefl 0)]
      exact ⟨.advance rfl rfl rfl rfl rfl, hpoints⟩
    | quotaLookup max => exact absurd rfl hregular
    | quotaRead max => exact absurd rfl hregular
    | create =>
      obtain ⟨-, hp⟩ := counts_of_parse hpoints
      refine turn_create hpoints fun hnone => hroom frame rfl ?_
      rw [hp] at hnone
      exact hnone
    | relookup createRc =>
      obtain ⟨hparse, hsome⟩ := hpoints
      obtain ⟨slot, hslot⟩ := Option.isSome_iff_exists.mp hsome
      rw [Cpu.act, Pc.step, hslot]
      dsimp only
      split <;> exact ⟨.advance rfl rfl rfl rfl rfl, hparse, hslot⟩
    | increment slot pc =>
      rw [Cpu.act, Pc.step]
      split <;> exact ⟨.advance rfl rfl rfl rfl rfl, hpoints⟩
    | lock slot =>
      obtain ⟨hparse, hslot⟩ := hpoints
      obtain ⟨-, hp⟩ := counts_of_parse hparse
      refine turn_lock (lockStep_move sh frame p slot) hslot hparse (hnew frame slot rfl ?_) rfl
      rw [hp] at hslot
      exact hslot
    | config finalChunkLen =>
      rw [Cpu.act, Pc.step, hcfg]
      exact ⟨.carry (.inl rfl) rfl rfl rfl rfl, trivial⟩
    | delete finalChunkLen cfg =>
      cases cfg with
      | true => exact ⟨.delete rfl rfl rfl rfl rfl, trivial⟩
      | false => exact absurd rfl hregular
    | decrement finalChunkLen cfg deleteRc pc =>
      cases cfg with
      | true =>
        rw [Cpu.act, Pc.step]
        split <;> exact ⟨.carry (.inr rfl) rfl rfl rfl rfl, trivial⟩
      | false => exact absurd rfl hregular
    | rewrite finalChunkLen => exact ⟨.transmit rfl rfl rfl rfl, trivial⟩
    | bump statKey exit pc => exact absurd rfl hregular

end

end NetSum.XdpAgg
