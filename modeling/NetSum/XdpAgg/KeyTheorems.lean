import NetSum.Aggregation.Retransmission
import NetSum.XdpAgg.Invariants

/-!
# One key of the XDP program over a run

With a configuration and no quota, what becomes of a key is decided by the frames of the key
that land on it (`Lands`): those that get past the header checks and find it live or the slot
map with room. Over a run the key goes through the states of its machine on these frames, and a
frame is transmitted for it at each completion (`live_run`).
-/

namespace NetSum.XdpAgg

open NetSum.Lib NetSum.Protocol NetSum.Aggregation

/-! ## Frames that land -/

/-- `config_map` has a configuration, without a quota. -/
def XdpEvent.Unlimited (ev : XdpEvent) : Prop :=
  ∃ cfg, ev.configMap.lookup 0 = some cfg ∧ cfg.maxSlotsPerJob = 0

/-- A frame of key `k` that gets past the header checks and finds the key live, or a possible
fan-in and room in the slot map. -/
def Lands (k : GradSlotKey) (maps : Maps) (frame : Bytes) : Prop :=
  Counts frame ∧ keyOf frame = k ∧ ((maps.live k).isSome
    ∨ FanInOk (GradHdr.decode (payload frame)).numWorkers ∧ maps.slotMap.size < slotMapEntries)

instance (k : GradSlotKey) (maps : Maps) (frame : Bytes) : Decidable (Lands k maps frame) :=
  inferInstanceAs (Decidable (_ ∧ _))

/-- The frames that land on the key, in order. -/
def landed (k : GradSlotKey) : Maps → List XdpEvent → List Bytes
  | _, [] => []
  | maps, ev :: es =>
    if Lands k maps ev.frame then ev.frame :: landed k (xdpStep maps ev).1 es
    else landed k (xdpStep maps ev).1 es

/-- The frame that a call transmitted. -/
def transmitted (out : Exit × Bytes) : Option Bytes :=
  if out.1.action = .tx then some out.2 else none

/-- The frame of the key that a call transmitted. -/
def transmittedOf (k : GradSlotKey) (out : Exit × Bytes) : Option Bytes :=
  (transmitted out).filter fun frame => keyOf frame = k

/-- A frame that does not count is not transmitted. -/
theorem transmitted_of_not_counts (maps : Maps) {ev : XdpEvent} (h : ¬ Counts ev.frame) :
    transmitted (xdpStep maps ev).2 = none := by
  obtain ⟨exit, hstep, haction⟩ := xdpStep_of_not_counts maps h
  rw [hstep, transmitted, if_neg]
  rw [haction]
  split <;> decide

/-! ## One frame -/

/-- What is transmitted reports the completed tally under the frame's own key. -/
theorem Shown.contents_eq {cfg? : Option NetsumConfig} {frame : Bytes} {a : Answer Tally}
    {exit : Exit} {out : Bytes} (h : Shown cfg? frame a exit out) (hframe : Counts frame)
    (ha : ∀ T, a = .complete T → T.chunkLen = (GradHdr.decode (payload frame)).chunkLen.toNat)
    {p : Bytes} (hp : transmitted (exit, out) = some p) :
    ∃ T, a = .complete T ∧ contents (payload p) = T.contents (keyOf frame) := by
  cases a with
  | refused => cases h with | refused hexit => rcases hexit with rfl | rfl | rfl <;> cases hp
  | mismatch => cases h; cases hp
  | duplicate => cases h; cases hp
  | absorbed => cases h; cases hp
  | complete T =>
    rcases h.complete_cases with ⟨-, rfl⟩ | ⟨cfg, s, -, hs, rfl, rfl⟩
    · cases hp
    · have hlen := ha T rfl
      have hchunk : s.chunkLen = (GradHdr.decode (payload frame)).chunkLen :=
        BitVec.eq_of_toNat_eq ((congrArg Tally.chunkLen hs).trans hlen)
      have hforwards := forwards_rewriteHeaders cfg hframe.1.length_le hframe.2 hchunk
      have hp' : some (rewriteHeaders cfg s.chunkLen (writeBack frame s s.chunkLen)) = some p := hp
      rw [← Option.some.inj hp', hs] at *
      refine ⟨T, rfl, Aggregation.contents_eq ?_ ?_ (hlen ▸ hframe.2.chunkLen_le) fun i hi => ?_⟩
      · rw [hforwards.hdr_eq]
        rfl
      · rw [hforwards.hdr_eq, hlen]
      · exact hforwards.value_eq i (hlen ▸ hi)

/-- What is transmitted has the frame's own key. -/
theorem Shown.keyOf_eq {cfg? : Option NetsumConfig} {frame : Bytes} {a : Answer Tally}
    {exit : Exit} {out : Bytes} (h : Shown cfg? frame a exit out) (hframe : Counts frame)
    (ha : ∀ T, a = .complete T → T.chunkLen = (GradHdr.decode (payload frame)).chunkLen.toNat)
    {p : Bytes} (hp : transmitted (exit, out) = some p) : keyOf p = keyOf frame := by
  obtain ⟨T, -, hcontents⟩ := h.contents_eq hframe ha hp
  exact congrArg Prod.fst hcontents

theorem overQuota_of_unlimited {maps : Maps} {ev : XdpEvent} (hev : ev.Unlimited)
    (jobId : BitVec 32) : overQuota (maps.withConfig ev.configMap) jobId = false := by
  obtain ⟨cfg, hcfg, hmax⟩ := hev
  have hzero : maxSlotsPerJob (maps.withConfig ev.configMap) = 0 := by
    rw [maxSlotsPerJob, show (maps.withConfig ev.configMap).configMap.lookup 0 = _ from hcfg]
    exact hmax
  rw [Bool.eq_false_iff, ne_eq, overQuota_iff, hzero]
  exact fun h => absurd h.1 (lt_irrefl _)

/-- What is not for the key, or refused, leaves it alone. -/
theorem xdpStep_of_not_lands {maps : Maps} (hok : maps.Ok) {k : GradSlotKey} {ev : XdpEvent}
    (h : ¬ Lands k maps ev.frame) :
    (xdpStep maps ev).1.live k = maps.live k ∧ transmittedOf k (xdpStep maps ev).2 = none := by
  by_cases hcounts : Counts ev.frame
  · have hans := xdpStep_respond hok hcounts
    by_cases hkey : keyOf ev.frame = k
    · -- the key is refused
      have hno : ¬ ((maps.live k).isSome ∨ FanInOk (GradHdr.decode (payload ev.frame)).numWorkers
          ∧ maps.slotMap.size < slotMapEntries) := fun h' => h ⟨hcounts, hkey, h'⟩
      rw [not_or, Option.not_isSome_iff_eq_none] at hno
      have hadm : admits (maps.withConfig ev.configMap) (.ofPayload (payload ev.frame)) = false := by
        rw [Bool.eq_false_iff]
        intro hyes
        simp only [admits, Bool.and_eq_true, decide_eq_true_eq] at hyes
        exact hno.2 ⟨hyes.1.1, hyes.2⟩
      rw [hkey, hno.1, hadm] at hans
      refine ⟨hans.moves.live_eq.trans hno.1.symm, ?_⟩
      have hsent : transmitted (xdpStep maps ev).2 = none := by
        by_contra hne
        obtain ⟨p, hp⟩ := Option.ne_none_iff_exists'.mp hne
        obtain ⟨T, hT, -⟩ := hans.shown.contents_eq hcounts (fun T hT => by cases hT) hp
        cases hT
      rw [transmittedOf, hsent]
      rfl
    · refine ⟨hans.moves.live_of_ne (Ne.symm hkey), ?_⟩
      rw [transmittedOf, Option.filter_eq_none_iff]
      intro p hp
      simpa [hans.shown.keyOf_eq hcounts (fun T => chunkLen_of_complete) hp] using hkey
  · obtain ⟨exit, hstep, -⟩ := xdpStep_of_not_counts maps hcounts
    refine ⟨by rw [hstep]; rfl, ?_⟩
    rw [transmittedOf, transmitted_of_not_counts maps hcounts]
    rfl

/-- A frame that lands on the key is answered by its machine. -/
theorem xdpStep_of_lands {maps : Maps} (hok : maps.Ok) {k : GradSlotKey} {ev : XdpEvent}
    (hev : ev.Unlimited) (h : Lands k maps ev.frame) :
    (xdpStep maps ev).1.live k = (keyStep (maps.live k) (payload ev.frame)).1
      ∧ Shown (ev.configMap.lookup 0) ev.frame (keyStep (maps.live k) (payload ev.frame)).2
        (xdpStep maps ev).2.1 (xdpStep maps ev).2.2 := by
  obtain ⟨hcounts, rfl, hcase⟩ := h
  have hans := xdpStep_respond hok hcounts
  have hrespond : respond (admits (maps.withConfig ev.configMap) (.ofPayload (payload ev.frame)))
      (payload ev.frame) (maps.live (keyOf ev.frame))
      = respond true (payload ev.frame) (maps.live (keyOf ev.frame)) := by
    cases hlive : maps.live (keyOf ev.frame) with
    | some T => rfl
    | none =>
      rw [hlive] at hcase
      obtain ⟨hfan, hroom⟩ := hcase.resolve_left (by simp)
      have : admits (maps.withConfig ev.configMap) (.ofPayload (payload ev.frame)) = true := by
        simp only [admits, Bool.and_eq_true, decide_eq_true_eq, Bool.not_eq_true',
          overQuota_of_unlimited hev, and_true]
        exact ⟨hfan, hroom⟩
      rw [this]
  rw [hrespond] at hans
  exact ⟨hans.moves.live_eq, hans.shown⟩

/-- At a completion the key's packet is transmitted. -/
theorem transmittedOf_of_lands {maps : Maps} (hok : maps.Ok) {k : GradSlotKey} {ev : XdpEvent}
    (hev : ev.Unlimited) (h : Lands k maps ev.frame) :
    (transmittedOf k (xdpStep maps ev).2).map (fun p => contents (payload p))
      = (keyStep (maps.live k) (payload ev.frame)).2.completed.map fun T => T.contents k := by
  obtain ⟨-, hshown⟩ := xdpStep_of_lands hok hev h
  obtain ⟨cfg, hcfg, -⟩ := hev
  obtain ⟨hcounts, rfl, -⟩ := h
  cases hsent : transmitted (xdpStep maps ev).2 with
  | some p =>
    obtain ⟨T, hT, hcontents⟩ := hshown.contents_eq hcounts (fun T => chunkLen_of_complete) hsent
    have hkey : keyOf p = keyOf ev.frame := congrArg Prod.fst hcontents
    rw [transmittedOf, hsent, hT, Option.filter_some, if_pos (by simpa using hkey), Option.map_some,
      hcontents]
    rfl
  | none =>
    have hno : (keyStep (maps.live (keyOf ev.frame)) (payload ev.frame)).2.completed = none := by
      generalize (keyStep (maps.live (keyOf ev.frame)) (payload ev.frame)).2 = a at hshown
      cases a with
      | complete T =>
        rcases hshown.complete_cases with ⟨hnone, -⟩ | ⟨cfg', s, -, -, hexit, -⟩
        · rw [hcfg] at hnone
          cases hnone
        · rw [transmitted, hexit] at hsent
          cases hsent
      | refused => rfl
      | mismatch => rfl
      | duplicate => rfl
      | absorbed => rfl
    rw [transmittedOf, hsent, hno]
    rfl

/-! ## Room -/

/-- A frame of the key after which it is not live leaves room, if there was room or the key was
live. -/
theorem xdpStep_hasRoom {maps : Maps} (hok : maps.Ok) {ev : XdpEvent} (h : Counts ev.frame)
    (hlive : (xdpStep maps ev).1.live (keyOf ev.frame) = none)
    (hroom : maps.live (keyOf ev.frame) = none → maps.slotMap.size < slotMapEntries) :
    (xdpStep maps ev).1.slotMap.size < slotMapEntries := by
  have hothers := (xdpStep_respond hok h).moves.others
  rw [Maps.live, Option.map_eq_none_iff] at hlive hroom
  have hsub : ∀ k, ((xdpStep maps ev).1.slotMap.lookup k).isSome → (maps.slotMap.lookup k).isSome := by
    intro k hk
    by_cases hkey : k = keyOf ev.frame
    · rw [hkey, hlive] at hk
      cases hk
    · rwa [hothers k hkey] at hk
  cases hk : maps.slotMap.lookup (keyOf ev.frame) with
  | none => exact (BoundedMap.size_mono hsub).trans_lt (hroom hk)
  | some s =>
    have hlt := BoundedMap.size_lt hsub hlive (by rw [hk]; rfl)
    exact hlt.trans_le maps.slotMap.size_le

/-- With the slot map full, a frame of a key without a slot is refused, and the slot map stays
full. -/
theorem xdpStep_of_full {maps : Maps} (hok : maps.Ok) {ev : XdpEvent} (h : Counts ev.frame)
    (hlive : maps.live (keyOf ev.frame) = none) (hfull : ¬ maps.slotMap.size < slotMapEntries) :
    Shown (ev.configMap.lookup 0) ev.frame .refused (xdpStep maps ev).2.1 (xdpStep maps ev).2.2
      ∧ (xdpStep maps ev).1.live (keyOf ev.frame) = none
      ∧ ¬ (xdpStep maps ev).1.slotMap.size < slotMapEntries := by
  have hans := xdpStep_respond hok h
  have hadm : admits (maps.withConfig ev.configMap) (.ofPayload (payload ev.frame)) = false := by
    rw [Bool.eq_false_iff]
    intro hyes
    simp only [admits, Bool.and_eq_true, decide_eq_true_eq] at hyes
    exact hfull hyes.2
  rw [hadm, hlive] at hans
  have hnone : maps.slotMap.lookup (keyOf ev.frame) = none := by
    rwa [Maps.live, Option.map_eq_none_iff] at hlive
  refine ⟨hans.shown, hans.moves.live_eq, fun hlt => hfull (lt_of_le_of_lt ?_ hlt)⟩
  refine BoundedMap.size_mono fun k hk => ?_
  have hkey : k ≠ keyOf ev.frame := by
    rintro rfl
    rw [hnone] at hk
    cases hk
  rwa [hans.moves.others k hkey]

/-! ## Runs -/

/-- **A key over a run** goes through the states of its machine on the frames that land on it,
and a frame is transmitted for it at each completion. -/
theorem live_run {maps : Maps} (hok : maps.Ok) (k : GradSlotKey) {es : List XdpEvent}
    (hes : ∀ ev ∈ es, ev.Unlimited) :
    (runState xdpStep maps es).live k
        = runState keyStep (maps.live k) ((landed k maps es).map payload)
      ∧ ((runOut xdpStep maps es).filterMap (transmittedOf k)).map (fun p => contents (payload p))
        = ((runOut keyStep (maps.live k) ((landed k maps es).map payload)).filterMap
            Answer.completed).map fun T => T.contents k := by
  induction es generalizing maps with
  | nil => exact ⟨rfl, rfl⟩
  | cons ev es ih =>
    obtain ⟨hlive, hsent⟩ := ih (xdpStep_ok hok ev) fun e he => hes e (List.mem_cons_of_mem _ he)
    rw [runState_cons, runOut_cons, landed]
    by_cases h : Lands k maps ev.frame
    · have hev := hes ev List.mem_cons_self
      have hone := transmittedOf_of_lands hok hev h
      rw [(xdpStep_of_lands hok hev h).1] at hlive hsent
      rw [if_pos h, List.map_cons, runState_cons, runOut_cons]
      refine ⟨hlive, ?_⟩
      rw [List.filterMap_cons, List.filterMap_cons]
      cases ht : transmittedOf k (xdpStep maps ev).2 with
      | none =>
        rw [ht, Option.map_none, eq_comm, Option.map_eq_none_iff] at hone
        rw [hone]
        exact hsent
      | some p =>
        rw [ht, Option.map_some, eq_comm, Option.map_eq_some_iff] at hone
        obtain ⟨T, hT, hcontents⟩ := hone
        rw [hT, List.map_cons, List.map_cons, hsent, hcontents]
    · obtain ⟨hsame, hnone⟩ := xdpStep_of_not_lands hok h
      rw [hsame] at hlive hsent
      rw [if_neg h, List.filterMap_cons, hnone]
      exact ⟨hlive, hsent⟩

end NetSum.XdpAgg
