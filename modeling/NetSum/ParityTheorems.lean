import NetSum.UserspaceAgg.KeyTheorems
import NetSum.XdpAgg.KeyTheorems

/-!
# The two aggregators on one key

The userspace aggregator and the XDP program are fed the same datagrams of one key, the latter as
payloads of frames. Both answer as the machine of the key, so the two stay in correspondence
(`Parallel.step`) and give the same answers, as long as neither table is out of slots when the
other is not (`parity`). What else is in the tables does matter: a table full of other keys
refuses what the other aggregator absorbs (`fullTable_differs`).
-/

namespace NetSum

open NetSum.Lib NetSum.Protocol NetSum.Aggregation UserspaceAgg XdpAgg

/-! ## Correspondence -/

/-- An iteration and a call get the same datagram of key `k`, which passes the stateless admission
check; the program has a configuration without a quota. -/
def Feeds (k : GradSlotKey) (ev : Event) (x : XdpEvent) : Prop :=
  ∃ d, ev.received = some d ∧ (aggParseStateless d).isSome ∧ (GradHdr.decode d).key = k
    ∧ IsGradient x.frame ∧ payload x.frame = d ∧ x.Unlimited

/-- The two slots have the same contents; a byte of `seen_worker` is nonzero exactly when the bit
is set. -/
structure SlotsAgree (s : Slot) (g : GradSlot) : Prop where
  sum_eq : s.sum = g.sum
  contributionsReceived_eq : s.contributionsReceived = g.contributionsReceived
  numWorkersExpected_eq : s.numWorkersExpected = g.numWorkersExpected
  chunkLen_eq : s.chunkLen = g.chunkLen
  seen_iff : ∀ w : Fin maxTrackedWorkers,
    s.seenWorker w ≠ 0 ↔ g.seen (BitVec.ofNat 16 w) = true

/-- What the two aggregators keep of a key: both nothing, or each one slot, which agree. -/
inductive Corresponds (k : GradSlotKey) (t : Tables) (maps : Maps) : Prop
  | absent (habs : ∀ i, t.occ i ≠ some k) (hnone : maps.slotMap.lookup k = none)
  | live (i : SlotIdx) (g : GradSlot) (hocc : t.occ i = some k) (huniq : UniqueAt t.occ k)
    (hlookup : maps.slotMap.lookup k = some g) (hagree : SlotsAgree (t.gSlots i) g)

/-- The same decision, in the words of each. -/
inductive SameDecision : Verdict → Exit → Prop
  | refused {exit : Exit} (h : exit = .fanInOutOfRange ∨ exit = .overQuota ∨ exit = .mapFull) :
    SameDecision .admissionReject exit
  | mismatch : SameDecision .chunkLenMismatch .chunkLenMismatch
  | duplicate : SameDecision .duplicate .duplicate
  | absorbed : SameDecision .absorbed .absorbed
  | complete : SameDecision .complete .complete

/-- The same decision, and the same key, chunk length and values emitted, if any. -/
structure SameAnswer (o : Output) (out : Exit × Bytes) : Prop where
  decision : SameDecision o.verdict out.1
  emitted : o.sent.map contents = (transmitted out).map fun p => contents (payload p)

/-- Slots with the same tally agree. -/
theorem slotsAgree_of_tally {s : Slot} {g : GradSlot} (h : s.tally = g.tally) :
    SlotsAgree s g where
  sum_eq := congrArg Tally.sum h
  contributionsReceived_eq := BitVec.eq_of_toNat_eq (congrArg Tally.count h)
  numWorkersExpected_eq := BitVec.eq_of_toNat_eq (congrArg Tally.fanIn h)
  chunkLen_eq := BitVec.eq_of_toNat_eq (congrArg Tally.chunkLen h)
  seen_iff w := by
    have hw : (s.seenWorker w != 0) = g.seen (BitVec.ofNat 16 w) :=
      congrFun (congrArg Tally.seen h) w
    rw [← hw, bne_iff_ne]

/-- Two tables that show the same tally for a key correspond. -/
theorem corresponds_of_shows {k : GradSlotKey} {t : Tables} {maps : Maps}
    (h : t.Shows k (maps.live k)) : Corresponds k t maps := by
  rw [Maps.live] at h
  cases hk : maps.slotMap.lookup k with
  | none =>
    rw [hk] at h
    cases h with
    | absent habs => exact .absent habs hk
  | some g =>
    rw [hk, Option.map_some] at h
    generalize hT : some g.tally = T? at h
    cases h with
    | absent habs => cases hT
    | live i hocc huniq =>
      exact .live i g hocc huniq hk (slotsAgree_of_tally (Option.some.inj hT).symm)

/-! ## One datagram -/

/-- An answer that both aggregators give is the same answer. -/
theorem sameAnswer_of_shown {k : GradSlotKey} {cfg : NetsumConfig} {frame out : Bytes} {exit : Exit}
    {o : Output} {a : Answer Tally} (hframe : Counts frame) (hkey : keyOf frame = k)
    (ha : ∀ T, a = .complete T → T.chunkLen = (GradHdr.decode (payload frame)).chunkLen.toNat)
    (hv : o.verdict = answerVerdict a) (hsent : SentWith k o.sent a)
    (hshown : Shown (some cfg) frame a exit out) : SameAnswer o (exit, out) := by
  cases a with
  | refused =>
    cases hshown with
    | refused hexit =>
      refine ⟨hv ▸ .refused hexit, ?_⟩
      rw [show o.sent = none from hsent]
      rcases hexit with rfl | rfl | rfl <;> rfl
  | mismatch =>
    cases hshown
    exact ⟨hv ▸ .mismatch, by rw [show o.sent = none from hsent]; rfl⟩
  | duplicate =>
    cases hshown
    exact ⟨hv ▸ .duplicate, by rw [show o.sent = none from hsent]; rfl⟩
  | absorbed =>
    cases hshown
    exact ⟨hv ▸ .absorbed, by rw [show o.sent = none from hsent]; rfl⟩
  | complete T =>
    have hexit : exit = .complete := by
      rcases hshown.complete_cases with ⟨hnone, -⟩ | ⟨-, -, -, -, hexit, -⟩
      · cases hnone
      · exact hexit
    subst hexit
    refine ⟨hv ▸ .complete, ?_⟩
    -- both packets have the contents of the final tally
    obtain ⟨p, hp, hemitted⟩ := hsent
    obtain ⟨T', hT', hcontents⟩ := hshown.contents_eq hframe ha (p := out) rfl
    cases hT'
    have hle : T.chunkLen ≤ netsumMaxChunkLen := (ha T rfl).trans_le hframe.2.chunkLen_le
    have hp' : contents p = T.contents k :=
      contents_eq hemitted.key_eq hemitted.chunkLen_eq hle hemitted.value_eq
    rw [hp, Option.map_some, hp', ← hkey, ← hcontents]
    rfl

/-- The two aggregators keep the same of key `k`. A new slot for it finds a free entry in both
tables or in neither, as `room` says. -/
structure Parallel (k : GradSlotKey) (room : Prop) (st : State) (maps : Maps) : Prop where
  ok : st.tables.Ok
  accounted : st.tables.Accounted
  xdp_ok : maps.Ok
  intact : Intact (slotSeq k) st.tables.occ k
  shows : st.tables.Shows k (maps.live k)
  hasRoom_iff : maps.live k = none → (st.tables.HasRoom ↔ room)
  size_lt_iff : maps.live k = none → (maps.slotMap.size < slotMapEntries ↔ room)
  room_of_live : (maps.live k).isSome → room

section

variable {k : GradSlotKey} {room : Prop} {st : State} {maps : Maps} {args : Args} {ev : Event}
  {x : XdpEvent}

theorem reapPhase_off (h : args.slotTtlMs ≤ 0) (st : State) (ev : Event) :
    reapPhase args st ev = (st, []) := by
  rw [reapPhase, if_neg]
  rintro ⟨hpos, -⟩
  omega

/-- The rest of the program's admission check is in the stateless one. -/
theorem counts_of_feeds (h : Feeds k ev x) : Counts x.frame ∧ keyOf x.frame = k
    ∧ ev.received = some (payload x.frame) ∧ WellFormed (payload x.frame) := by
  obtain ⟨d, hrecv, hparse, hkey, hg, rfl, -⟩ := h
  have hd := (aggParseStateless_isSome _).mp hparse
  exact ⟨⟨hg, sound_of_wellFormed hd⟩, hkey, hrecv, hd⟩

/-- One datagram, when there is room for the key. -/
theorem Parallel.step_of_room (h : Parallel k room st maps) (hroom : room)
    (hquota : args.gJobQuota ≤ 0) (hreap : args.slotTtlMs ≤ 0) (hfeed : Feeds k ev x) :
    Parallel k room (mainStep args st ev).1 (xdpStep maps x).1
      ∧ SameAnswer (mainStep args st ev).2 (xdpStep maps x).2 := by
  obtain ⟨hcounts, rfl, hrecv, hd⟩ := counts_of_feeds hfeed
  obtain ⟨-, -, -, -, -, -, hev⟩ := hfeed
  have heff := mainStep_effect_of_ok args h.ok ev
  rw [reapPhase_off hreap] at heff
  have hlands : Lands (keyOf x.frame) maps x.frame := by
    refine ⟨hcounts, rfl, ?_⟩
    cases hlive : maps.live (keyOf x.frame) with
    | some T => exact .inl rfl
    | none =>
      exact .inr ⟨⟨hd.numWorkers_pos, hd.numWorkers_le⟩, (h.size_lt_iff hlive).mpr hroom⟩
  obtain ⟨hlive', hshown⟩ := xdpStep_of_lands h.xdp_ok hev hlands
  have hadm : true = true ↔ QuotaAdmits args.gJobQuota st.tables (keyOf x.frame).jobId :=
    iff_of_true rfl (.inl hquota)
  obtain ⟨hshow', hv, hsent, -⟩ := heff.respond h.ok h.accounted hrecv hd h.shows h.intact
    (fun hlive => (h.hasRoom_iff hlive).mpr hroom) hadm
  have hshow'' : (mainStep args st ev).1.tables.Shows (keyOf x.frame)
      ((xdpStep maps x).1.live (keyOf x.frame)) := hlive' ▸ hshow'
  obtain ⟨cfg, hcfg, -⟩ := hev
  rw [hcfg] at hshown
  refine ⟨?_, sameAnswer_of_shown hcounts rfl (fun T => chunkLen_of_complete) hv hsent hshown⟩
  refine
    { ok := heff.ok h.ok
      accounted := heff.accounted h.accounted
      xdp_ok := xdpStep_ok h.xdp_ok x
      intact := heff.intact h.ok hrecv h.shows h.intact
      shows := hshow''
      hasRoom_iff := fun hnone => iff_of_true ?_ hroom
      size_lt_iff := fun hnone => iff_of_true ?_ hroom
      room_of_live := fun _ => hroom }
  · -- the slot that was free or the key's own is free now
    have habs : ∀ i, (mainStep args st ev).1.tables.occ i ≠ some (keyOf x.frame) := by
      rw [hnone] at hshow''
      cases hshow'' with
      | absent habs => exact habs
    obtain ⟨i, hi⟩ : ∃ i, st.tables.occ i = none ∨ st.tables.occ i = some (keyOf x.frame) := by
      cases hlive : maps.live (keyOf x.frame) with
      | none =>
        obtain ⟨i, hi⟩ := (h.hasRoom_iff hlive).mpr hroom
        exact ⟨i, .inl hi⟩
      | some T =>
        have hshow := h.shows
        rw [hlive] at hshow
        cases hshow with
        | live i hocc huniq => exact ⟨i, .inr hocc⟩
    exact heff.hasRoom hrecv habs hi
  · exact xdpStep_hasRoom h.xdp_ok hcounts hnone fun hlive => (h.size_lt_iff hlive).mpr hroom

/-- One datagram, when there is no room for the key: both refuse it. -/
theorem Parallel.step_of_full (h : Parallel k room st maps) (hroom : ¬ room)
    (hreap : args.slotTtlMs ≤ 0) (hfeed : Feeds k ev x) :
    Parallel k room (mainStep args st ev).1 (xdpStep maps x).1
      ∧ SameAnswer (mainStep args st ev).2 (xdpStep maps x).2 := by
  obtain ⟨hcounts, rfl, hrecv, hd⟩ := counts_of_feeds hfeed
  obtain ⟨-, -, -, -, -, -, cfg, hcfg, -⟩ := hfeed
  have heff := mainStep_effect_of_ok args h.ok ev
  rw [reapPhase_off hreap] at heff
  -- without room the key is live on neither side
  have hlive : maps.live (keyOf x.frame) = none :=
    Option.not_isSome_iff_eq_none.mp fun hsome => hroom (h.room_of_live hsome)
  have habs : ∀ i, st.tables.occ i ≠ some (keyOf x.frame) := by
    have hshow := h.shows
    rw [hlive] at hshow
    cases hshow with
    | absent habs => exact habs
  have hnoroom : ¬ st.tables.HasRoom := fun hh => hroom ((h.hasRoom_iff hlive).mp hh)
  obtain ⟨htables, hv, hsent⟩ := heff.of_full hrecv hd habs hnoroom
  obtain ⟨hshown, hlive', hfull'⟩ := xdpStep_of_full h.xdp_ok hcounts hlive fun hlt =>
    hroom ((h.size_lt_iff hlive).mp hlt)
  rw [hcfg] at hshown
  refine ⟨?_, sameAnswer_of_shown (a := .refused) hcounts rfl nofun hv hsent hshown⟩
  exact
    { ok := htables ▸ h.ok
      accounted := htables ▸ h.accounted
      xdp_ok := xdpStep_ok h.xdp_ok x
      intact := htables ▸ h.intact
      shows := by rw [htables, hlive']; exact .absent habs
      hasRoom_iff := fun _ => by rw [htables]; exact iff_of_false hnoroom hroom
      size_lt_iff := fun _ => iff_of_false hfull' hroom
      room_of_live := fun hsome => by rw [hlive'] at hsome; cases hsome }

/-- **One datagram.** -/
theorem Parallel.step (h : Parallel k room st maps) (hquota : args.gJobQuota ≤ 0)
    (hreap : args.slotTtlMs ≤ 0) (hfeed : Feeds k ev x) :
    Parallel k room (mainStep args st ev).1 (xdpStep maps x).1
      ∧ SameAnswer (mainStep args st ev).2 (xdpStep maps x).2 := by
  by_cases hroom : room
  · exact h.step_of_room hroom hquota hreap hfeed
  · exact h.step_of_full hroom hreap hfeed

/-- Parallel aggregators answer corresponding runs alike. -/
theorem Parallel.run (h : Parallel k room st maps) (hquota : args.gJobQuota ≤ 0)
    (hreap : args.slotTtlMs ≤ 0) {es : List Event} {xs : List XdpEvent}
    (hfeeds : List.Forall₂ (Feeds k) es xs) :
    (∀ T, Corresponds k (stateAt (mainStep args) st es T).tables (stateAt xdpStep maps xs T))
      ∧ List.Forall₂ SameDecision ((runOut (mainStep args) st es).map Output.verdict)
        ((runOut xdpStep maps xs).map Prod.fst)
      ∧ ((runOut (mainStep args) st es).filterMap Output.sent).map contents
        = ((runOut xdpStep maps xs).filterMap transmitted).map fun p => contents (payload p) := by
  have hstep : ∀ (st : State) maps ev x, Feeds k ev x → Parallel k room st maps →
      Parallel k room (mainStep args st ev).1 (xdpStep maps x).1
        ∧ SameAnswer (mainStep args st ev).2 (xdpStep maps x).2 :=
    fun _ _ _ _ hfeed h => h.step hquota hreap hfeed
  obtain ⟨hstates, houts⟩ := run_lockstep (Parallel k room) hstep h hfeeds
  refine ⟨fun T => corresponds_of_shows (hstates T).shows, ?_, ?_⟩
  · rw [List.forall₂_map_left_iff, List.forall₂_map_right_iff]
    exact houts.imp fun _ _ h => h.decision
  · rw [List.map_filterMap, List.map_filterMap]
    exact filterMap_eq_of_forall₂ (houts.imp fun _ _ h => h.emitted)

/-- Two states without a slot for the key are parallel, if a new slot finds a free entry in both
tables or in neither. -/
theorem parallel_of_absent (hok : st.tables.Ok) (hacct : st.tables.Accounted) (hxdp : maps.Ok)
    (habs : ∀ i, st.tables.occ i ≠ some k) (hnone : maps.slotMap.lookup k = none)
    (hroom : st.tables.HasRoom ↔ maps.slotMap.size < slotMapEntries) :
    Parallel k (maps.slotMap.size < slotMapEntries) st maps := by
  have hlive : maps.live k = none := live_of_lookup hnone
  refine
    { ok := hok
      accounted := hacct
      xdp_ok := hxdp
      intact := intact_of_absent habs
      shows := by rw [hlive]; exact .absent habs
      hasRoom_iff := fun _ => hroom
      size_lt_iff := fun _ => Iff.rfl
      room_of_live := fun hsome => by rw [hlive] at hsome; cases hsome }

end

/-! ## Runs -/

/-- **Parity.** From any reachable states of the two aggregators without a slot for the key, with
a free entry in both tables or in neither, datagrams of the key are answered alike: after each
the slots correspond, each gets the same decision, and the same packets are emitted. -/
theorem parity {args : Args} (hquota : args.gJobQuota ≤ 0) (hreap : args.slotTtlMs ≤ 0)
    (inPacket outPacket : Buffer) (now : ℤ) (es₀ : List Event) (xs₀ : List XdpEvent)
    {k : GradSlotKey} :
    let st := runState (mainStep args) (State.init inPacket outPacket now) es₀
    let maps := runState xdpStep Maps.empty xs₀
    (∀ i, st.tables.occ i ≠ some k) → maps.slotMap.lookup k = none →
    (st.tables.HasRoom ↔ maps.slotMap.size < slotMapEntries) →
    ∀ {es : List Event} {xs : List XdpEvent}, List.Forall₂ (Feeds k) es xs →
      (∀ T, Corresponds k (stateAt (mainStep args) st es T).tables (stateAt xdpStep maps xs T))
      ∧ List.Forall₂ SameDecision ((runOut (mainStep args) st es).map Output.verdict)
        ((runOut xdpStep maps xs).map Prod.fst)
      ∧ ((runOut (mainStep args) st es).filterMap Output.sent).map contents
        = ((runOut xdpStep maps xs).filterMap transmitted).map fun p => contents (payload p) := by
  intro st maps habs hnone hroom es xs hfeeds
  obtain ⟨hok, hacct⟩ : st.tables.Ok ∧ st.tables.Accounted :=
    accounted_init args inPacket outPacket now es₀
  exact (parallel_of_absent hok hacct (ok_run xs₀) habs hnone hroom).run hquota hreap hfeeds

/-- A round of two workers with a copy of the first datagram, one of the wrong length, and a copy of
the last one, which opens the key again. -/
theorem resent_parity :
    let args : Args := ⟨0, 0⟩
    let st := State.init Buffer.zero Buffer.zero 0
    let d := fun (worker chunkLen : BitVec 16) =>
      workerPacket ⟨1, 0, 0, worker, 2, chunkLen, 0⟩ fun _ => 5
    let ds := [d 0 1, d 0 1, d 1 2, d 1 1, d 1 1]
    let es := ds.map Event.deliver
    let xs := ds.map fun d =>
      (⟨configured ⟨fun _ => 0xaa, 0x0200000a, 0x9526, 0⟩, frameWith d⟩ : XdpEvent)
    (runOut (mainStep args) st es).map Output.verdict
        = [.absorbed, .duplicate, .chunkLenMismatch, .complete, .absorbed]
      ∧ (∀ T, Corresponds ⟨1, 0, 0⟩ (stateAt (mainStep args) st es T).tables
        (stateAt xdpStep Maps.empty xs T))
      ∧ List.Forall₂ SameDecision ((runOut (mainStep args) st es).map Output.verdict)
        ((runOut xdpStep Maps.empty xs).map Prod.fst)
      ∧ ((runOut (mainStep args) st es).filterMap Output.sent).map contents
        = ((runOut xdpStep Maps.empty xs).filterMap transmitted).map
          fun p => contents (payload p) := by
  intro args st d ds es xs
  have hds : ∀ d' ∈ ds, (aggParseStateless d').isSome ∧ (GradHdr.decode d').key = ⟨1, 0, 0⟩
      ∧ netsumHdrSize ≤ d'.length := by
    decide +kernel
  have hfeeds : List.Forall₂ (Feeds ⟨1, 0, 0⟩) es xs := by
    refine List.forall₂_map_left_iff.mpr (List.forall₂_map_right_iff.mpr (List.forall₂_same.mpr ?_))
    intro d' hd'
    obtain ⟨hparse, hkey, hlen⟩ := hds d' hd'
    exact ⟨d', rfl, hparse, hkey, isGradient_frameWith hlen, rfl, _, lookup_configured _, rfl⟩
  refine ⟨by decide +kernel, parity (le_refl 0) (le_refl 0) Buffer.zero Buffer.zero 0 [] []
    (fun i => ?_) rfl ?_ hfeeds⟩
  · simp [State.init]
  · exact iff_of_true ⟨0, occ_zero 0⟩ (by simp [Maps.empty])

/-! ## A full table -/

/-- A datagram of job 0, for a key of its own. -/
def filler (n : ℕ) : Bytes := workerPacket ⟨0, 0, BitVec.ofNat 32 n, 0, 2, 1, 0⟩ fun _ => 0

/-- The first `n` of them. -/
def fillers (n : ℕ) : List Event := (List.range n).map fun j => .deliver (filler j)

/-- The userspace aggregator after `n` of them. -/
def filled (n : ℕ) : State :=
  runState (mainStep ⟨0, 0⟩) (State.init Buffer.zero Buffer.zero 0) (fillers n)

theorem filled_succ (n : ℕ) :
    filled (n + 1) = (mainStep ⟨0, 0⟩ (filled n) (.deliver (filler n))).1 := by
  rw [filled, fillers, List.range_succ, List.map_append, runState_append, List.map_singleton,
    runState_cons, runState_nil]
  rfl

theorem decode_filler (n : ℕ) :
    GradHdr.decode (filler n) = ⟨0, 0, BitVec.ofNat 32 n, 0, 2, 1, 0⟩ :=
  (decode_workerPacket (by decide : (1#16).toNat ≤ 64) _).2.1

theorem wellFormed_filler (n : ℕ) : WellFormed (filler n) :=
  wellFormed_workerPacket (by decide : (1#16).toNat ≤ 64) (by decide : (0#16).toNat < 256)
    (by decide : 1 ≤ (2#16).toNat) (by decide : (2#16).toNat ≤ 256) _

/-- The table has `n` slots in use, for the first `n` keys. -/
structure FilledWith (n : ℕ) (t : Tables) : Prop where
  ok : t.Ok
  accounted : t.Accounted
  keys : ∀ i k, t.occ i = some k → ∃ j < n, k = ⟨0, 0, BitVec.ofNat 32 j⟩
  card_eq : (slotsOf t.occ 0).card = n

theorem FilledWith.hasRoom_iff {n : ℕ} {t : Tables} (h : FilledWith n t) :
    t.HasRoom ↔ n < slotTableCapacity := by
  have hall : ∀ i, i ∈ slotsOf t.occ 0 ↔ t.occ i ≠ none := by
    intro i
    rw [slotsOf, mem_held, Option.ne_none_iff_exists']
    constructor
    · rintro ⟨k, hk, -⟩
      exact ⟨k, hk⟩
    · rintro ⟨k, hk⟩
      obtain ⟨j, -, rfl⟩ := h.keys i k hk
      exact ⟨_, hk, rfl⟩
  rw [← h.card_eq, ← Fintype.card_fin slotTableCapacity, Finset.card_lt_iff_ne_univ, ne_eq,
    Finset.eq_univ_iff_forall, not_forall]
  exact exists_congr fun i => by rw [hall, not_not]

/-- One more. -/
theorem FilledWith.step {n : ℕ} {st : State} (h : FilledWith n st.tables)
    (hn : n < slotTableCapacity) :
    FilledWith (n + 1) (mainStep ⟨0, 0⟩ st (.deliver (filler n))).1.tables := by
  have heff := mainStep_effect_of_ok ⟨0, 0⟩ h.ok (.deliver (filler n))
  rw [reapPhase_off (le_refl 0)] at heff
  have hkey : (GradHdr.decode (filler n)).key = ⟨0, 0, BitVec.ofNat 32 n⟩ := by
    rw [decode_filler]
    rfl
  have habs : ∀ i, st.tables.occ i ≠ some (GradHdr.decode (filler n)).key := by
    intro i hi
    rw [hkey] at hi
    obtain ⟨j, hj, heq⟩ := h.keys i _ hi
    have := congrArg (fun k => k.chunkId.toNat) heq
    simp only [BitVec.toNat_ofNat, slotTableCapacity] at this hn
    omega
  have hadm : true = true ↔ QuotaAdmits 0 st.tables (GradHdr.decode (filler n)).jobId :=
    iff_of_true rfl (.inl (le_refl 0))
  obtain ⟨-, -, -, hcard⟩ := heff.respond h.ok h.accounted rfl (wellFormed_filler n)
    (.absent habs) (intact_of_absent habs) (fun _ => h.hasRoom_iff.mpr hn) hadm
  refine ⟨heff.ok h.ok, heff.accounted h.accounted, fun i k hk => ?_, ?_⟩
  · rcases heff.slot_cases i with ⟨hsame, -⟩ | ⟨d, s, g, hrecv, hd, hacc, -, hcase⟩
    · obtain ⟨j, hj, rfl⟩ := h.keys i k ((congrArg Slot.occupant hsame).symm.trans hk)
      exact ⟨j, by omega, rfl⟩
    · obtain rfl : filler n = d := Option.some.inj hrecv
      refine ⟨n, by omega, ?_⟩
      rw [← hkey]
      rcases hcase with ⟨-, hs, -⟩ | ⟨-, hs, -⟩
      · have := (congrArg Slot.occupant hs).symm.trans hk
        exact Option.some.inj (this.symm.trans hacc.occupant.1)
      · have := (congrArg Slot.occupant hs).symm.trans hk
        cases this
  · -- the first of two contributions
    have hsettle : (respond true (filler n) none).2
        = some ((Tally.opened 2 1).absorb (Contribution.ofDatagram (filler n))) := by
      rw [respond, if_pos rfl, decode_filler]
      rfl
    rw [hsettle, decode_filler, liveCount_none, liveCount_some, Nat.add_zero (slotsOf _ _).card,
      h.card_eq] at hcard
    exact hcard

/-- `n` datagrams of as many keys take `n` slots. -/
theorem filledWith_filled (n : ℕ) (hn : n ≤ slotTableCapacity) : FilledWith n (filled n).tables := by
  induction n with
  | zero =>
    refine ⟨State.init_ok _ _ _, Tables.accounted_zero, fun i k hk => ?_, ?_⟩
    · rw [show (filled 0).tables = Tables.zero from rfl, occ_zero] at hk
      cases hk
    · rw [show (filled 0).tables = Tables.zero from rfl, slotsOf_zero]
      rfl
  | succ n ih =>
    rw [filled_succ]
    exact (ih (by omega)).step (by omega)

/-- A datagram of a key that is none of these. -/
def latecomer : Bytes := workerPacket ⟨1, 0, 0, 0, 2, 1, 0⟩ fun _ => 5

/-- It, and the frame that carries it, for a program with a parameter server configured. -/
def latecomerEvent : XdpEvent :=
  ⟨configured ⟨fun _ => 0xaa, 0x0200000a, 0x9526, 0⟩, frameWith latecomer⟩

theorem feeds_latecomer : Feeds ⟨1, 0, 0⟩ (.deliver latecomer) latecomerEvent :=
  ⟨latecomer, rfl, by decide +kernel, by decide +kernel, isGradient_frameWith (by decide), rfl, _,
    lookup_configured _, rfl⟩

/-- A full table refuses what the program, with empty maps, absorbs. -/
theorem FilledWith.differs {st : State} (h : FilledWith slotTableCapacity st.tables) :
    (∀ i, st.tables.occ i ≠ some ⟨1, 0, 0⟩)
      ∧ ¬ List.Forall₂ SameDecision
        ((runOut (mainStep ⟨0, 0⟩) st [.deliver latecomer]).map Output.verdict)
        ((runOut xdpStep Maps.empty [latecomerEvent]).map Prod.fst) := by
  have hkey : (GradHdr.decode latecomer).key = ⟨1, 0, 0⟩ := by decide +kernel
  have habs : ∀ i, st.tables.occ i ≠ some ⟨1, 0, 0⟩ := by
    intro i hi
    obtain ⟨j, -, heq⟩ := h.keys i _ hi
    cases congrArg GradSlotKey.jobId heq
  have heff := mainStep_effect_of_ok ⟨0, 0⟩ h.ok (.deliver latecomer)
  rw [reapPhase_off (le_refl 0)] at heff
  obtain ⟨-, hv, -⟩ := heff.of_full rfl (by decide +kernel) (by rwa [hkey]) fun hroom =>
    absurd (h.hasRoom_iff.mp hroom) (lt_irrefl _)
  have hexit : (xdpStep Maps.empty latecomerEvent).2.1 = .absorbed := by decide +kernel
  refine ⟨habs, fun hsame => ?_⟩
  simp only [runOut_cons, runOut_nil, List.map_cons, List.map_nil, List.forall₂_cons, hv,
    hexit] at hsame
  rcases hsame.1 with ⟨h | h | h⟩ <;> cases h

/-- After a datagram each of 65536 keys, the userspace aggregator refuses a key that the program,
with empty maps, absorbs. -/
theorem fullTable_differs :
    let st := runState (mainStep ⟨0, 0⟩) (State.init Buffer.zero Buffer.zero 0) (fillers 65536)
    Feeds ⟨1, 0, 0⟩ (.deliver latecomer) latecomerEvent
      ∧ (∀ i, st.tables.occ i ≠ some ⟨1, 0, 0⟩) ∧ Maps.empty.slotMap.lookup ⟨1, 0, 0⟩ = none
      ∧ ¬ List.Forall₂ SameDecision
        ((runOut (mainStep ⟨0, 0⟩) st [.deliver latecomer]).map Output.verdict)
        ((runOut xdpStep Maps.empty [latecomerEvent]).map Prod.fst) :=
  have h := (filledWith_filled slotTableCapacity (le_refl _)).differs
  ⟨feeds_latecomer, h.1, rfl, h.2⟩

end NetSum
