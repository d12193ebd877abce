import NetSum.Aggregation.Machine
import NetSum.XdpAgg.FrameTheorems

/-!
# What the program does with one key

A sound gradient frame is answered by its key's machine (`netsumXdpAggregate_respond`): the slot
map adds the place where the tally is kept, and `job_quota_map` counts the live keys of each job
that it has an entry for (`Maps.Accounted`). The frame moves its own key and the entry of its
own job (`Moves`); every other frame moves nothing (`netsumXdpAggregate_of_not_sound`).
-/

namespace NetSum.XdpAgg

open NetSum.Lib NetSum.Protocol NetSum.Aggregation

/-! ## The locked section -/

/-- The four ways through the locked section. -/
inductive LockCase (s : GradSlot) (frame : Bytes) (p : Parsed) : GradSlot × Bytes × LockOutcome → Prop
  | mismatch (hlen : s.chunkLen ≠ p.chunkLen) : LockCase s frame p (s, frame, .mismatch)
  | duplicate (hlen : s.chunkLen = p.chunkLen) (hseen : s.seen p.workerId = true) :
    LockCase s frame p (s, frame, .duplicate)
  | absorbed (hlen : s.chunkLen = p.chunkLen) (hseen : s.seen p.workerId = false)
    (hcount : s.contributionsReceived + 1 ≠ s.numWorkersExpected) :
    LockCase s frame p (s.accumulate frame p, frame, .absorbed)
  | complete (hlen : s.chunkLen = p.chunkLen) (hseen : s.seen p.workerId = false)
    (hcount : s.contributionsReceived + 1 = s.numWorkersExpected) :
    LockCase s frame p (s.accumulate frame p,
      writeBack frame (s.accumulate frame p) s.chunkLen, .complete s.chunkLen)

theorem lockedSection_case (s : GradSlot) (frame : Bytes) (p : Parsed) :
    LockCase s frame p (lockedSection s frame p) := by
  unfold lockedSection
  by_cases hlen : s.chunkLen = p.chunkLen
  · rw [if_neg (not_not_intro hlen)]
    cases hseen : s.seen p.workerId with
    | true => exact .duplicate hlen hseen
    | false =>
      by_cases hcount : s.contributionsReceived + 1 = s.numWorkersExpected
      · simp only [Bool.false_eq_true, if_false,
          if_pos (show (s.accumulate frame p).contributionsReceived
            = (s.accumulate frame p).numWorkersExpected from hcount)]
        exact .complete hlen hseen hcount
      · simp only [Bool.false_eq_true, if_false,
          if_neg (show ¬ (s.accumulate frame p).contributionsReceived
            = (s.accumulate frame p).numWorkersExpected from hcount)]
        exact .absorbed hlen hseen hcount
  · rw [if_pos hlen]
    exact .mismatch hlen

/-- The answer of the key's machine, as the locked section gives it. -/
inductive LockAnswer (frame : Bytes) :
    GradSlot × Bytes × LockOutcome → Answer Tally × Option Tally → Prop
  | mismatch (s : GradSlot) : LockAnswer frame (s, frame, .mismatch) (.mismatch, some s.tally)
  | duplicate (s : GradSlot) : LockAnswer frame (s, frame, .duplicate) (.duplicate, some s.tally)
  | absorbed (s : GradSlot) : LockAnswer frame (s, frame, .absorbed) (.absorbed, some s.tally)
  | complete (s : GradSlot) : LockAnswer frame
    (s, writeBack frame s s.chunkLen, .complete s.chunkLen) (.complete s.tally, none)

/-- **On an open slot the locked section computes the answer of the key's machine.** -/
theorem lockedSection_respond {s : GradSlot} (hopen : s.tally.Open) {frame : Bytes}
    (hlen : valuesOff ≤ frame.length) (hs : Sound (payload frame)) (mayOpen : Bool) :
    LockAnswer frame (lockedSection s frame (.ofPayload (payload frame)))
      (respond mayOpen (payload frame) (some s.tally)) := by
  have hcount_lt : s.tally.count < maxTrackedWorkers := hopen.count_lt.trans_le hopen.fanIn_le
  have hseen_eq := s.tally_seen_worker hs
  have htally := GradSlot.tally_accumulate hs hlen hcount_lt
  have hcount_add : (s.contributionsReceived + 1).toNat = s.contributionsReceived.toNat + 1 :=
    congrArg Tally.count htally
  have hcase := lockedSection_case s frame (.ofPayload (payload frame))
  generalize lockedSection s frame (.ofPayload (payload frame)) = r at hcase
  cases hcase with
  | mismatch hne =>
    rw [respond_of_mismatch fun h => hne (BitVec.eq_of_toNat_eq h)]
    exact .mismatch s
  | duplicate heq hseen =>
    rw [respond_of_seen (congrArg BitVec.toNat heq) (hseen_eq.trans hseen)]
    exact .duplicate s
  | absorbed heq hseen hcount =>
    -- the count was below the fan-in, and has not reached it
    have hlt : (s.accumulate frame (.ofPayload (payload frame))).tally.count
        < (s.accumulate frame (.ofPayload (payload frame))).tally.fanIn := by
      refine lt_of_le_of_ne ?_ fun h => hcount (BitVec.eq_of_toNat_eq h)
      show (s.contributionsReceived + 1).toNat ≤ s.numWorkersExpected.toNat
      exact hcount_add.trans_le hopen.count_lt
    rw [respond_of_new (congrArg BitVec.toNat heq) (hseen_eq.trans hseen), ← htally,
      settle_of_lt hlt]
    exact .absorbed _
  | complete heq hseen hcount =>
    rw [respond_of_new (congrArg BitVec.toNat heq) (hseen_eq.trans hseen), ← htally,
      settle_of_le (congrArg BitVec.toNat hcount).ge]
    exact .complete (s.accumulate frame _)

/-! ## The map helpers -/

section Helpers

variable {κ ν : Type} [DecidableEq κ] {cap : ℕ} {m : BoundedMap κ ν cap} {k : κ}

theorem bpfMapUpdateElem_of_room (hk : m.lookup k = none) (hroom : m.size < cap) (v : ν) :
    bpfMapUpdateElem m k v .noexist = (m.insert k v fun _ => hroom, 0) := by
  unfold bpfMapUpdateElem
  split
  · next h => rw [hk] at h; cases h
  · rw [if_neg (by decide), dif_pos hroom]

theorem bpfMapUpdateElem_of_some {w : ν} (hk : m.lookup k = some w) (v : ν) :
    bpfMapUpdateElem m k v .noexist = (m, -17) := by
  unfold bpfMapUpdateElem
  split
  · rw [if_pos rfl]
  · next h => rw [hk] at h; cases h

theorem bpfMapUpdateElem_of_full (hk : m.lookup k = none) (hfull : ¬ m.size < cap) (v : ν) :
    bpfMapUpdateElem m k v .noexist = (m, -7) := by
  unfold bpfMapUpdateElem
  split
  · next h => rw [hk] at h; cases h
  · rw [if_neg (by decide), dif_neg hfull]

theorem bpfMapUpdateElem_any_of_room (hk : m.lookup k = none) (hroom : m.size < cap) (v : ν) :
    bpfMapUpdateElem m k v .any = (m.insert k v fun _ => hroom, 0) := by
  unfold bpfMapUpdateElem
  split
  · next h => rw [hk] at h; cases h
  · rw [if_neg (by decide), dif_pos hroom]

theorem bpfMapUpdateElem_any_of_some {w : ν} (hk : m.lookup k = some w) (v : ν) :
    bpfMapUpdateElem m k v .any = (m.insert k v fun h => absurd (hk.symm.trans h) nofun, 0) := by
  unfold bpfMapUpdateElem
  split
  · rw [if_neg (by decide)]
    rfl
  · next h => rw [hk] at h; cases h

/-- An update removes no key. -/
theorem isSome_bpfMapUpdateElem {a : κ} (h : (m.lookup a).isSome) (v : ν) (flags : UpdateFlags) :
    ((bpfMapUpdateElem m k v flags).1.lookup a).isSome := by
  have hinsert : ∀ hroom, ((m.insert k v hroom).lookup a).isSome := by
    intro hroom
    rw [BoundedMap.lookup_insert]
    split
    · rfl
    · exact h
  unfold bpfMapUpdateElem
  split
  · next w hk =>
    split
    · exact h
    · exact hinsert fun hnone => absurd (hk.symm.trans hnone) (Option.some_ne_none w)
  · split
    · exact h
    · split
      · next hroom => exact hinsert fun _ => hroom
      · exact h

theorem bpfMapUpdateElem_any_of_full (hk : m.lookup k = none) (hfull : ¬ m.size < cap) (v : ν) :
    bpfMapUpdateElem m k v .any = (m, -7) := by
  unfold bpfMapUpdateElem
  split
  · next h => rw [hk] at h; cases h
  · rw [if_neg (by decide), dif_neg hfull]

end Helpers

section JobQuota

theorem JobQuotaEntry.toNat_add_one {e : JobQuotaEntry}
    (h : e.concurrentSlots.toNat + 1 < 2 ^ 32) :
    (e.add 1).concurrentSlots.toNat = e.concurrentSlots.toNat + 1 := by
  show (e.concurrentSlots + 1#32).toNat = _
  rw [BitVec.toNat_add, BitVec.toNat_ofNat]
  omega

theorem JobQuotaEntry.toNat_sub_one {e : JobQuotaEntry} (h : 0 < e.concurrentSlots.toNat) :
    (e.add (-1)).concurrentSlots.toNat = e.concurrentSlots.toNat - 1 := by
  show (e.concurrentSlots + -1#32).toNat = _
  rw [← BitVec.sub_eq_add_neg, BitVec.toNat_sub_of_le (BitVec.le_def.mpr (by simp; omega))]
  rfl

variable {m : BoundedMap (BitVec 32) JobQuotaEntry jobQuotaMapEntries} {jobId : BitVec 32}

/-- The entry of a job that got one slot more. -/
theorem lookup_jobQuotaIncrement (a : BitVec 32) :
    (jobQuotaIncrement m jobId).lookup a =
      if a = jobId then
        match m.lookup jobId with
        | some e => some (e.add 1)
        | none => if m.size < jobQuotaMapEntries then some ⟨1⟩ else none
      else m.lookup a := by
  unfold jobQuotaIncrement
  cases h : m.lookup jobId with
  | some e =>
    show (m.modify jobId _).lookup a = _
    rw [BoundedMap.lookup_modify, h]
    rfl
  | none =>
    by_cases hroom : m.size < jobQuotaMapEntries
    · simp only [bpfMapUpdateElem_of_room h hroom, if_pos hroom]
      exact BoundedMap.lookup_insert m jobId ⟨1⟩ _ a
    · simp only [bpfMapUpdateElem_of_full h hroom, if_neg hroom]
      show (m.modify jobId _).lookup a = _
      rw [BoundedMap.modify_of_none h]
      split
      · next ha => rw [ha, h]
      · rfl

/-- The entry of a job that got one slot less. -/
theorem lookup_jobQuotaDecrement (a : BitVec 32) :
    (jobQuotaDecrement m jobId).lookup a =
      if a = jobId then
        (m.lookup jobId).map fun e => if 0 < e.concurrentSlots.toNat then e.add (-1) else e
      else m.lookup a := by
  unfold jobQuotaDecrement
  split
  · next e h =>
    by_cases hpos : 0 < e.concurrentSlots.toNat
    · rw [if_pos hpos, BoundedMap.lookup_modify, h]
      simp [hpos]
    · simp only [if_neg hpos, h, Option.map_some]
      split
      · next ha => rw [ha, h]
      · rfl
  · next h =>
    rw [h]
    split
    · next ha => rw [ha, h]; rfl
    · rfl

end JobQuota

/-! ## The count of a job -/

/-- The entries of `job_quota_map` after a frame of the job: none is removed, and no other is
touched. -/
structure QuotaMoves (jobId : BitVec 32)
    (m m' : BoundedMap (BitVec 32) JobQuotaEntry jobQuotaMapEntries) : Prop where
  others : ∀ j, j ≠ jobId → m'.lookup j = m.lookup j
  kept : (m.lookup jobId).isSome → (m'.lookup jobId).isSome

namespace QuotaMoves

variable {jobId : BitVec 32} {m m' m'' : BoundedMap (BitVec 32) JobQuotaEntry jobQuotaMapEntries}

protected theorem refl (jobId : BitVec 32)
    (m : BoundedMap (BitVec 32) JobQuotaEntry jobQuotaMapEntries) : QuotaMoves jobId m m :=
  ⟨fun _ _ => rfl, id⟩

protected theorem trans (h : QuotaMoves jobId m m') (h' : QuotaMoves jobId m' m'') :
    QuotaMoves jobId m m'' :=
  ⟨fun j hj => (h'.others j hj).trans (h.others j hj), fun hm => h'.kept (h.kept hm)⟩

theorem increment : QuotaMoves jobId m (jobQuotaIncrement m jobId) := by
  refine ⟨fun j hj => ?_, fun hm => ?_⟩
  · rw [lookup_jobQuotaIncrement, if_neg hj]
  · obtain ⟨e, he⟩ := Option.isSome_iff_exists.mp hm
    rw [lookup_jobQuotaIncrement, if_pos rfl, he]
    rfl

theorem decrement : QuotaMoves jobId m (jobQuotaDecrement m jobId) := by
  refine ⟨fun j hj => ?_, fun hm => ?_⟩
  · rw [lookup_jobQuotaDecrement, if_neg hj]
  · rw [lookup_jobQuotaDecrement, if_pos rfl, Option.isSome_map]
    exact hm

theorem isSome (h : QuotaMoves jobId m m') (j : BitVec 32) (hj : (m.lookup j).isSome) :
    (m'.lookup j).isSome := by
  by_cases hjob : j = jobId
  · exact hjob ▸ h.kept (hjob ▸ hj)
  · rw [h.others j hjob]
    exact hj

theorem size_le (h : QuotaMoves jobId m m') : m.size ≤ m'.size := BoundedMap.size_mono h.isSome

end QuotaMoves

/-- The slots of a job. -/
def slotCount (m : BoundedMap GradSlotKey GradSlot slotMapEntries) (jobId : BitVec 32) : ℕ :=
  m.count fun k => k.jobId = jobId

/-- The entry of a job counts its slots; a job with slots and no entry found the map full. -/
structure Maps.Accounted (maps : Maps) : Prop where
  tracked : ∀ jobId e, maps.jobQuotaMap.lookup jobId = some e →
    e.concurrentSlots.toNat = slotCount maps.slotMap jobId
  untracked : ∀ jobId, maps.jobQuotaMap.lookup jobId = none →
    slotCount maps.slotMap jobId = 0 ∨ maps.jobQuotaMap.size = jobQuotaMapEntries

namespace Maps.Accounted

variable {maps : Maps} {k : GradSlotKey}

theorem full_of_moves {m' : BoundedMap (BitVec 32) JobQuotaEntry jobQuotaMapEntries}
    (hm : QuotaMoves k.jobId maps.jobQuotaMap m')
    (hfull : maps.jobQuotaMap.size = jobQuotaMapEntries) : m'.size = jobQuotaMapEntries :=
  le_antisymm m'.size_le (hfull.symm.trans_le hm.size_le)

/-- A slot is created and counted. -/
theorem create (h : maps.Accounted) (hk : maps.slotMap.lookup k = none)
    (hroom : maps.slotMap.size < slotMapEntries) (s : GradSlot) :
    Maps.Accounted { maps with
      slotMap := maps.slotMap.insert k s fun _ => hroom
      jobQuotaMap := jobQuotaIncrement maps.jobQuotaMap k.jobId } := by
  have hcount : ∀ j, slotCount (maps.slotMap.insert k s fun _ => hroom) j
      = slotCount maps.slotMap j + if k.jobId = j then 1 else 0 :=
    fun j => BoundedMap.count_insert_of_none hk s _ _
  -- the count cannot wrap, since there are fewer slots
  have hlt : slotCount maps.slotMap k.jobId < slotMapEntries :=
    (BoundedMap.count_le_size _ _).trans_lt hroom
  simp only [slotMapEntries] at hlt
  refine ⟨fun j e he => ?_, fun j hj => ?_⟩
  · rw [hcount]
    by_cases hjob : j = k.jobId
    · subst hjob
      rw [if_pos rfl]
      rw [lookup_jobQuotaIncrement, if_pos rfl] at he
      split at he
      · next e' he' =>
        cases he
        rw [← h.tracked _ _ he'] at hlt ⊢
        exact JobQuotaEntry.toNat_add_one (by omega)
      · next hnone =>
        split at he
        · next hroom' =>
          cases he
          rcases h.untracked _ hnone with h0 | hfull
          · rw [h0]
            rfl
          · exact absurd hfull hroom'.ne
        · cases he
    · rw [if_neg (Ne.symm hjob)]
      exact h.tracked j e ((QuotaMoves.increment.others j hjob).symm.trans he)
  · by_cases hjob : j = k.jobId
    · subst hjob
      rw [lookup_jobQuotaIncrement, if_pos rfl] at hj
      split at hj
      · cases hj
      · split at hj
        · cases hj
        · next hfull =>
          exact .inr (full_of_moves .increment (le_antisymm maps.jobQuotaMap.size_le
            (not_lt.mp hfull)))
    · rw [hcount, if_neg (Ne.symm hjob)]
      exact (h.untracked j ((QuotaMoves.increment.others j hjob).symm.trans hj)).imp_right
        (full_of_moves .increment)

/-- A slot is removed and no longer counted. -/
theorem remove (h : maps.Accounted) {s : GradSlot} (hk : maps.slotMap.lookup k = some s) :
    Maps.Accounted { maps with
      slotMap := maps.slotMap.delete k
      jobQuotaMap := jobQuotaDecrement maps.jobQuotaMap k.jobId } := by
  have hcount : ∀ j, slotCount (maps.slotMap.delete k) j + (if k.jobId = j then 1 else 0)
      = slotCount maps.slotMap j := fun j => BoundedMap.count_delete_of_some hk _
  have hzero : ∀ j, slotCount maps.slotMap j = 0 → slotCount (maps.slotMap.delete k) j = 0 :=
    fun j h0 => by have := hcount j; omega
  refine ⟨fun j e he => ?_, fun j hj => ?_⟩
  · have hj := hcount j
    by_cases hjob : j = k.jobId
    · subst hjob
      rw [if_pos rfl] at hj
      rw [lookup_jobQuotaDecrement, if_pos rfl, Option.map_eq_some_iff] at he
      obtain ⟨e', he', rfl⟩ := he
      have htracked := h.tracked _ _ he'
      have hlt := e'.concurrentSlots.isLt
      have hpos : 0 < e'.concurrentSlots.toNat := by omega
      rw [if_pos hpos, JobQuotaEntry.toNat_sub_one hpos, htracked, ← hj]
      rfl
    · rw [if_neg (Ne.symm hjob), Nat.add_zero] at hj
      show _ = slotCount (maps.slotMap.delete k) j
      rw [hj]
      exact h.tracked j e ((QuotaMoves.decrement.others j hjob).symm.trans he)
  · by_cases hjob : j = k.jobId
    · subst hjob
      rw [lookup_jobQuotaDecrement, if_pos rfl, Option.map_eq_none_iff] at hj
      exact (h.untracked _ hj).imp (hzero _) (full_of_moves .decrement)
    · exact (h.untracked j ((QuotaMoves.decrement.others j hjob).symm.trans hj)).imp
        (hzero j) (full_of_moves .decrement)

/-- A slot is rewritten. -/
theorem modify (h : maps.Accounted) (k : GradSlotKey) (f : GradSlot → GradSlot) :
    Maps.Accounted { maps with slotMap := maps.slotMap.modify k f } := by
  have hcount : ∀ j, slotCount (maps.slotMap.modify k f) j = slotCount maps.slotMap j :=
    fun j => BoundedMap.count_modify ..
  refine ⟨fun j e he => ?_, fun j hj => ?_⟩
  · rw [hcount]
    exact h.tracked j e he
  · rw [hcount]
    exact h.untracked j hj

/-- Only the slots and the entries matter. -/
theorem congr {maps' : Maps} (h : maps.Accounted) (hslots : maps'.slotMap = maps.slotMap)
    (hjobs : maps'.jobQuotaMap = maps.jobQuotaMap) : maps'.Accounted :=
  ⟨hslots ▸ hjobs ▸ h.tracked, hslots ▸ hjobs ▸ h.untracked⟩

end Maps.Accounted

theorem accounted_empty : Maps.empty.Accounted :=
  ⟨fun jobId e he => by simp [Maps.empty] at he,
    fun jobId _ => .inl (BoundedMap.count_empty _)⟩

/-! ## One frame -/

/-- The tally of a key, if it is live. -/
def Maps.live (maps : Maps) (k : GradSlotKey) : Option Tally :=
  (maps.slotMap.lookup k).map GradSlot.tally

/-- Every slot is open. -/
def Maps.Ok (maps : Maps) : Prop := ∀ k T, maps.live k = some T → T.Open

/-- The numbers of workers a round can have. -/
def FanInOk (numWorkers : BitVec 16) : Prop :=
  1 ≤ numWorkers.toNat ∧ numWorkers.toNat ≤ maxTrackedWorkers

instance (numWorkers : BitVec 16) : Decidable (FanInOk numWorkers) :=
  inferInstanceAs (Decidable (_ ∧ _))

/-- The check that the program makes on the fan-in. -/
theorem fanIn_outOfRange_iff (numWorkers : BitVec 16) :
    (numWorkers.toNat = 0 ∨ numWorkers.toNat > maxTrackedWorkersBitmapBytes * 8)
      ↔ ¬ FanInOk numWorkers := by
  unfold FanInOk
  simp only [maxTrackedWorkersBitmapBytes, maxTrackedWorkers]
  omega

/-- A key that is not live is opened by the frame. -/
def admits (maps : Maps) (p : Parsed) : Bool :=
  decide (FanInOk p.numWorkers) && !overQuota maps p.key.jobId
    && decide (maps.slotMap.size < slotMapEntries)

/-- How an answer shows: the exit, and the frame the program leaves. -/
inductive Shown (cfg? : Option NetsumConfig) (frame : Bytes) : Answer Tally → Exit → Bytes → Prop
  | refused {exit : Exit} (h : exit = .fanInOutOfRange ∨ exit = .overQuota ∨ exit = .mapFull) :
    Shown cfg? frame .refused exit frame
  | mismatch : Shown cfg? frame .mismatch .chunkLenMismatch frame
  | duplicate : Shown cfg? frame .duplicate .duplicate frame
  | absorbed : Shown cfg? frame .absorbed .absorbed frame
  | noConfig (s : GradSlot) (h : cfg? = none) : Shown cfg? frame (.complete s.tally) .noConfig
    (writeBack frame s s.chunkLen)
  | complete (cfg : NetsumConfig) (s : GradSlot) (h : cfg? = some cfg) :
    Shown cfg? frame (.complete s.tally) .complete
      (rewriteHeaders cfg s.chunkLen (writeBack frame s s.chunkLen))

/-- A completed key is transmitted if there is a configuration. -/
theorem Shown.complete_cases {cfg? : Option NetsumConfig} {frame : Bytes} {T : Tally} {exit : Exit}
    {out : Bytes} (h : Shown cfg? frame (.complete T) exit out) :
    (cfg? = none ∧ exit = .noConfig)
      ∨ ∃ cfg s, cfg? = some cfg ∧ s.tally = T ∧ exit = .complete
        ∧ out = rewriteHeaders cfg s.chunkLen (writeBack frame s s.chunkLen) := by
  generalize ha : Answer.complete T = a at h
  cases h with
  | noConfig s hcfg => exact .inl ⟨hcfg, rfl⟩
  | complete cfg s hcfg =>
    cases ha
    exact .inr ⟨cfg, s, hcfg, rfl, rfl, rfl⟩
  | refused hexit => cases ha
  | mismatch => cases ha
  | duplicate => cases ha
  | absorbed => cases ha

/-- What a frame of key `k` may change: the slot of the key, which becomes `T?`, and the entry of
its job. -/
structure Moves (maps maps' : Maps) (k : GradSlotKey) (T? : Option Tally) : Prop where
  live_eq : maps'.live k = T?
  others : ∀ k', k' ≠ k → maps'.slotMap.lookup k' = maps.slotMap.lookup k'
  config_eq : maps'.configMap = maps.configMap
  quota : QuotaMoves k.jobId maps.jobQuotaMap maps'.jobQuotaMap
  accounted : maps.Accounted → maps'.Accounted

theorem Moves.live_of_ne {maps maps' : Maps} {k k' : GradSlotKey} {T? : Option Tally}
    (h : Moves maps maps' k T?) (hk : k' ≠ k) : maps'.live k' = maps.live k' :=
  congrArg (Option.map GradSlot.tally) (h.others k' hk)

/-- Nothing but a counter changes. -/
theorem Moves.of_stats {maps maps' : Maps} {k : GradSlotKey} {T? : Option Tally}
    (hlive : maps.live k = T?) (hslots : maps'.slotMap = maps.slotMap)
    (hcfg : maps'.configMap = maps.configMap) (hjobs : maps'.jobQuotaMap = maps.jobQuotaMap) :
    Moves maps maps' k T? where
  live_eq := by rw [Maps.live, hslots]; exact hlive
  others k' _ := by rw [hslots]
  config_eq := hcfg
  quota := by rw [hjobs]; exact .refl ..
  accounted h := h.congr hslots hjobs

protected theorem Moves.trans {maps maps' maps'' : Maps} {k : GradSlotKey} {T? T?' : Option Tally}
    (h : Moves maps maps' k T?) (h' : Moves maps' maps'' k T?') : Moves maps maps'' k T?' where
  live_eq := h'.live_eq
  others k' hk := (h'.others k' hk).trans (h.others k' hk)
  config_eq := h'.config_eq.trans h.config_eq
  quota := h.quota.trans h'.quota
  accounted hacct := h'.accounted (h.accounted hacct)

/-- The slot of the key is removed. -/
theorem Moves.of_remove {maps : Maps} {k : GradSlotKey} {s : GradSlot}
    (hk : maps.slotMap.lookup k = some s) (dropStats : BoundedMap (BitVec 32) (BitVec 64) 4) :
    Moves maps { maps with
      slotMap := maps.slotMap.delete k
      jobQuotaMap := jobQuotaDecrement maps.jobQuotaMap k.jobId
      dropStats } k none where
  live_eq := by rw [Maps.live, BoundedMap.lookup_delete, if_pos rfl]; rfl
  others k' hk' := by rw [BoundedMap.lookup_delete, if_neg hk']
  config_eq := rfl
  quota := .decrement
  accounted h := (h.remove hk).congr rfl rfl

/-- A slot for the key is created. -/
theorem Moves.of_create {maps : Maps} {k : GradSlotKey} (hk : maps.slotMap.lookup k = none)
    (hroom : maps.slotMap.size < slotMapEntries) (s : GradSlot) :
    Moves maps { maps with
      slotMap := maps.slotMap.insert k s fun _ => hroom
      jobQuotaMap := jobQuotaIncrement maps.jobQuotaMap k.jobId } k (some s.tally) where
  live_eq := by rw [Maps.live, BoundedMap.lookup_insert, if_pos rfl]; rfl
  others k' hk' := by rw [BoundedMap.lookup_insert, if_neg hk']
  config_eq := rfl
  quota := .increment
  accounted h := h.create hk hroom s

/-- A frame of key `k` is answered with `a`: the result of the program moves the key accordingly,
and shows the answer. -/
structure Answered (maps : Maps) (frame : Bytes) (k : GradSlotKey)
    (a : Answer Tally × Option Tally) (r : Maps × Exit × Bytes) : Prop where
  moves : Moves maps r.1 k a.2
  shown : Shown (maps.configMap.lookup 0) frame a.1 r.2.1 r.2.2

theorem Answered.of_moves {maps maps' : Maps} {frame : Bytes} {k : GradSlotKey} {T? : Option Tally}
    {a : Answer Tally × Option Tally} {r : Maps × Exit × Bytes} (h : Answered maps' frame k a r)
    (hmoves : Moves maps maps' k T?) : Answered maps frame k a r :=
  ⟨hmoves.trans h.moves, hmoves.config_eq ▸ h.shown⟩

/-- What follows the locked section of a completed slot. -/
theorem finish_spec {maps maps' : Maps} {k : GradSlotKey} {s : GradSlot} {T? : Option Tally}
    (hmoves : Moves maps maps' k T?) (hk : maps'.slotMap.lookup k = some s) (frame : Bytes) :
    Answered maps frame k (.complete s.tally, none)
      (finish maps' k (writeBack frame s s.chunkLen) s.chunkLen) := by
  have hcfg_eq := hmoves.config_eq
  cases hcfg : maps'.configMap.lookup 0 with
  | none =>
    simp only [finish, hcfg]
    refine ⟨hmoves.trans (.of_remove hk _), ?_⟩
    rw [← hcfg_eq, hcfg]
    exact .noConfig s rfl
  | some cfg =>
    simp only [finish, hcfg]
    refine ⟨hmoves.trans (.of_remove hk _), ?_⟩
    rw [← hcfg_eq, hcfg]
    dsimp only
    exact .complete cfg s rfl

/-- **The rest of the program after a slot was found.** -/
theorem aggregate_respond {maps : Maps} {frame : Bytes} {s : GradSlot} (hlen : valuesOff ≤ frame.length)
    (hs : Sound (payload frame)) (hopen : s.tally.Open)
    (hk : maps.slotMap.lookup (GradHdr.decode (payload frame)).key = some s) (mayOpen : Bool) :
    Answered maps frame (GradHdr.decode (payload frame)).key
      (respond mayOpen (payload frame) (some s.tally))
      (aggregate maps (.ofPayload (payload frame)) s frame) := by
  have hanswer := lockedSection_respond hopen hlen hs mayOpen
  unfold aggregate
  generalize lockedSection s frame (.ofPayload (payload frame)) = l at hanswer ⊢
  generalize respond mayOpen (payload frame) (some s.tally) = a at hanswer ⊢
  have hmod : ∀ s' : GradSlot, Moves maps
      { maps with slotMap := maps.slotMap.modify (GradHdr.decode (payload frame)).key fun _ => s' }
      (GradHdr.decode (payload frame)).key (some s'.tally) := fun s' =>
    { live_eq := by rw [Maps.live, BoundedMap.lookup_modify, if_pos rfl, hk]; rfl
      others := fun k' hk' => by rw [BoundedMap.lookup_modify, if_neg hk']
      config_eq := rfl
      quota := .refl ..
      accounted := fun h => h.modify _ _ }
  cases hanswer with
  | mismatch s => exact ⟨hmod s, .mismatch⟩
  | duplicate s => exact ⟨hmod s, .duplicate⟩
  | absorbed s => exact ⟨hmod s, .absorbed⟩
  | complete s =>
    have hk' : (maps.slotMap.modify (GradHdr.decode (payload frame)).key fun _ => s).lookup
        (GradHdr.decode (payload frame)).key = some s := by
      rw [BoundedMap.lookup_modify, if_pos rfl, hk]
      rfl
    have hfinish := finish_spec (hmod s) hk' frame
    dsimp only [Parsed.ofPayload]
    exact hfinish

/-! ## Lookup or creation -/

/-- The three ways to a slot, or to none. -/
inductive FoundOrCreated (maps : Maps) (p : Parsed) : Maps × Except Exit GradSlot → Prop
  | found {s : GradSlot} (hk : maps.slotMap.lookup p.key = some s) :
    FoundOrCreated maps p (maps, .ok s)
  | refused {exit : Exit} (dropStats : BoundedMap (BitVec 32) (BitVec 64) 4)
    (hk : maps.slotMap.lookup p.key = none) (hadm : admits maps p = false)
    (hexit : exit = .fanInOutOfRange ∨ exit = .overQuota ∨ exit = .mapFull) :
    FoundOrCreated maps p ({ maps with dropStats }, .error exit)
  | created (hk : maps.slotMap.lookup p.key = none) (hadm : admits maps p = true)
    (hroom : maps.slotMap.size < slotMapEntries) :
    FoundOrCreated maps p ({ maps with
      slotMap := maps.slotMap.insert p.key (.fresh p.chunkLen p.numWorkers) fun _ => hroom
      jobQuotaMap := jobQuotaIncrement maps.jobQuotaMap p.key.jobId },
      .ok (.fresh p.chunkLen p.numWorkers))

theorem findOrCreate_cases (maps : Maps) (p : Parsed) :
    FoundOrCreated maps p (findOrCreate maps p) := by
  have hiff := fanIn_outOfRange_iff p.numWorkers
  cases hk : maps.slotMap.lookup p.key with
  | some s =>
    simp only [findOrCreate, hk]
    exact .found hk
  | none =>
    simp only [findOrCreate, hk]
    by_cases hfan : FanInOk p.numWorkers
    · rw [if_neg (mt hiff.mp (not_not_intro hfan))]
      cases hquota : overQuota maps p.key.jobId with
      | true => exact .refused _ hk (by simp [admits, hquota]) (.inr (.inl rfl))
      | false =>
        by_cases hroom : maps.slotMap.size < slotMapEntries
        · simp only [Bool.false_eq_true, if_false, bpfMapUpdateElem_of_room hk hroom,
            BoundedMap.lookup_insert, if_true]
          exact .created hk (by simp [admits, hfan, hquota, hroom]) hroom
        · simp only [Bool.false_eq_true, if_false, bpfMapUpdateElem_of_full hk hroom, hk]
          exact .refused _ hk (by simp [admits, hroom]) (.inr (.inr rfl))
    · rw [if_pos (hiff.mpr hfan)]
      exact .refused maps.dropStats hk (by simp [admits, hfan]) (.inl rfl)

theorem tally_fresh (chunkLen numWorkers : BitVec 16) :
    (GradSlot.fresh chunkLen numWorkers).tally = .opened numWorkers.toNat chunkLen.toNat := by
  refine Tally.ext rfl rfl rfl (funext fun w => ?_) rfl
  show (GradSlot.fresh chunkLen numWorkers).seen (BitVec.ofNat 16 w) = false
  rw [GradSlot.seen_eq]
  exact BitVec.getLsbD_zero

/-- A new slot waits for contributions. -/
theorem open_fresh (chunkLen : BitVec 16) {numWorkers : BitVec 16} (h : FanInOk numWorkers) :
    (GradSlot.fresh chunkLen numWorkers).tally.Open := by
  rw [tally_fresh]
  exact ⟨h.1, h.2⟩

theorem fanInOk_of_admits {maps : Maps} {p : Parsed} (h : admits maps p = true) :
    FanInOk p.numWorkers := by
  simp only [admits, Bool.and_eq_true, decide_eq_true_eq] at h
  exact h.1.1

theorem live_of_lookup {maps : Maps} {k : GradSlotKey} {s? : Option GradSlot}
    (h : maps.slotMap.lookup k = s?) : maps.live k = s?.map GradSlot.tally :=
  congrArg (Option.map GradSlot.tally) h

/-! ## The whole program -/

/-- A frame that is not gradient traffic is passed, and one that fails a check dropped; neither
leaves a trace. -/
theorem netsumXdpAggregate_of_not_sound (maps : Maps) {frame : Bytes}
    (h : ¬ (IsGradient frame ∧ Sound (payload frame))) :
    ∃ exit, netsumXdpAggregate maps frame = (maps, exit, frame)
      ∧ exit.action = if IsGradient frame then .drop else .pass := by
  have herror : ∃ exit, parse frame = .error exit
      ∧ exit.action = if IsGradient frame then .drop else .pass := by
    by_cases hg : IsGradient frame
    · rw [if_pos hg]
      exact parse_of_not_sound hg fun hs => h ⟨hg, hs⟩
    · rw [if_neg hg]
      exact parse_of_not_isGradient hg
  obtain ⟨exit, hparse, haction⟩ := herror
  exact ⟨exit, by rw [netsumXdpAggregate, hparse], haction⟩

/-- What the program does with a sound gradient frame. -/
inductive SoundCall (maps : Maps) (frame : Bytes) : Maps × Exit × Bytes → Prop
  | found {s : GradSlot}
    (hk : maps.slotMap.lookup (GradHdr.decode (payload frame)).key = some s) :
    SoundCall maps frame (aggregate maps (.ofPayload (payload frame)) s frame)
  | refused {exit : Exit} (dropStats : BoundedMap (BitVec 32) (BitVec 64) 4)
    (hk : maps.slotMap.lookup (GradHdr.decode (payload frame)).key = none)
    (hadm : admits maps (.ofPayload (payload frame)) = false)
    (hexit : exit = .fanInOutOfRange ∨ exit = .overQuota ∨ exit = .mapFull) :
    SoundCall maps frame ({ maps with dropStats }, exit, frame)
  | created (hk : maps.slotMap.lookup (GradHdr.decode (payload frame)).key = none)
    (hadm : admits maps (.ofPayload (payload frame)) = true)
    (hroom : maps.slotMap.size < slotMapEntries) :
    SoundCall maps frame (aggregate { maps with
      slotMap := maps.slotMap.insert (GradHdr.decode (payload frame)).key
        (.fresh (GradHdr.decode (payload frame)).chunkLen
          (GradHdr.decode (payload frame)).numWorkers) fun _ => hroom
      jobQuotaMap := jobQuotaIncrement maps.jobQuotaMap
        (GradHdr.decode (payload frame)).key.jobId } (.ofPayload (payload frame))
      (.fresh (GradHdr.decode (payload frame)).chunkLen
        (GradHdr.decode (payload frame)).numWorkers) frame)

theorem netsumXdpAggregate_cases (maps : Maps) {frame : Bytes} (hg : IsGradient frame)
    (hs : Sound (payload frame)) : SoundCall maps frame (netsumXdpAggregate maps frame) := by
  have hfind := findOrCreate_cases maps (.ofPayload (payload frame))
  rw [netsumXdpAggregate, parse_of_sound hg hs]
  dsimp only
  generalize findOrCreate maps (.ofPayload (payload frame)) = f at hfind ⊢
  cases hfind with
  | found hk => exact .found hk
  | refused dropStats hk hadm hexit => exact .refused dropStats hk hadm hexit
  | created hk hadm hroom => exact .created hk hadm hroom

/-- **A sound gradient frame is answered by its key's machine.** -/
theorem netsumXdpAggregate_respond {maps : Maps} (hok : maps.Ok) {frame : Bytes}
    (hg : IsGradient frame) (hs : Sound (payload frame)) :
    Answered maps frame (GradHdr.decode (payload frame)).key
      (respond (admits maps (.ofPayload (payload frame))) (payload frame)
        (maps.live (GradHdr.decode (payload frame)).key))
      (netsumXdpAggregate maps frame) := by
  have hcall := netsumXdpAggregate_cases maps hg hs
  generalize netsumXdpAggregate maps frame = r at hcall ⊢
  cases hcall with
  | found hk =>
    have hlive := live_of_lookup hk
    rw [hlive]
    exact aggregate_respond hg.length_le hs (hok _ _ hlive) hk _
  | refused dropStats hk hadm hexit =>
    have hlive := live_of_lookup hk
    rw [hlive, hadm]
    exact ⟨.of_stats hlive rfl rfl rfl, .refused hexit⟩
  | created hk hadm hroom =>
    have hlive := live_of_lookup hk
    rw [hlive, hadm, Option.map_none, respond_none true, ← tally_fresh]
    -- the slot is made first and then answered as one that was there
    have hcreate := Moves.of_create hk hroom
      (.fresh (GradHdr.decode (payload frame)).chunkLen (GradHdr.decode (payload frame)).numWorkers)
    have hopen := open_fresh (GradHdr.decode (payload frame)).chunkLen (fanInOk_of_admits hadm)
    refine Answered.of_moves ?_ hcreate
    exact aggregate_respond hg.length_le hs hopen
      (BoundedMap.lookup_insert_self _ _ _ fun _ => hroom) true

end NetSum.XdpAgg
