import NetSum.Aggregation.Retransmission
import NetSum.FleetTheorems
import NetSum.UserspaceAgg.ContentionTheorems
import NetSum.UserspaceAgg.HomeTheorems

/-!
# A fleet of workers, the userspace aggregator and a parameter server

The benchmark's second configuration end to end, over networks that may lose, double and reorder
the packets on both of their ways. The aggregator sends the sum of a key exactly when datagrams of
all its workers have come, whatever comes twice and in whatever order (`sent_before_iff`). The
first 256 rounds of a job have homes of their own in its slot table, so it has a place for each of
them (`Fleet.findsPlace`), and a fleet's rounds go through (`agg_rounds_complete`).
-/

namespace NetSum

open NetSum.Lib NetSum.Protocol NetSum.Aggregation

/-! ## Collecting a key -/

namespace Workload

/-- What is kept of a key that was not completed: the tally of the workers whose datagrams came. -/
inductive Gathered (W : Workload) (k : GradSlotKey) : Finset ℕ → Option Tally → Prop
  | idle : Gathered W k ∅ none
  | collecting {D : Finset ℕ} (T : Tally)
    (hT : T.Of (W.numWorkers k) (W.chunkLen k) (W.contribution k) D) : Gathered W k D (some T)

/-- The answer completes the key, when the datagrams of all workers came, or gathers them. -/
def Gathers (W : Workload) (k : GradSlotKey) (D : Finset ℕ) (r : Answer Tally × Option Tally) :
    Prop :=
  (D ≠ Finset.range (W.numWorkers k) ∧ r.1.completed = none ∧ W.Gathered k D r.2)
    ∨ (D = Finset.range (W.numWorkers k) ∧ ∃ T, r.1 = .complete T)

variable {W : Workload} {k : GradSlotKey} {d : Bytes} {D : Finset ℕ} {T? : Option Tally}

theorem gathers_settle {T : Tally}
    (hT : T.Of (W.numWorkers k) (W.chunkLen k) (W.contribution k) D)
    (hD : D ⊆ Finset.range (W.numWorkers k)) : W.Gathers k D (settle T) := by
  have hcard := Finset.card_le_card hD
  rw [Finset.card_range] at hcard
  rcases settle_of hT hcard with ⟨hlt, heq⟩ | ⟨hall, heq⟩
  · rw [heq]
    refine .inl ⟨fun hfull => ?_, rfl, .collecting T hT⟩
    rw [hfull, Finset.card_range] at hlt
    exact lt_irrefl _ hlt
  · rw [heq]
    exact .inr ⟨Finset.eq_of_subset_of_card_le hD (by rw [Finset.card_range, hall]), T, rfl⟩

/-- One more datagram. -/
theorem Gathered.step (h : W.Gathered (GradHdr.decode d).key D T?) (hd : W.Sends d)
    (hD : D ⊆ Finset.range (W.numWorkers (GradHdr.decode d).key))
    (hne : D ≠ Finset.range (W.numWorkers (GradHdr.decode d).key)) :
    W.Gathers (GradHdr.decode d).key (insert (GradHdr.decode d).workerId.toNat D)
      (respond true d T?) := by
  have hsub : insert (GradHdr.decode d).workerId.toNat D
      ⊆ Finset.range (W.numWorkers (GradHdr.decode d).key) :=
    Finset.insert_subset (Finset.mem_range.mpr hd.worker_lt) hD
  cases h with
  | idle =>
    rw [respond_of_open, hd.numWorkers_eq, hd.chunkLen_eq]
    have hT := (Tally.of_opened (W.numWorkers (GradHdr.decode d).key)
      (W.chunkLen (GradHdr.decode d).key) _).absorb hd.values_eq (Finset.notMem_empty _)
    rw [hd.worker_eq] at hT
    exact gathers_settle hT hsub
  | collecting T hT =>
    have hlen : T.chunkLen = (GradHdr.decode d).chunkLen.toNat :=
      hT.chunkLen_eq.trans hd.chunkLen_eq.symm
    cases hseen : T.seen (Contribution.ofDatagram d).worker with
    | true =>
      -- a copy
      have hmem := (hT.seen_iff _).mp hseen
      rw [hd.worker_eq] at hmem
      rw [respond_of_seen hlen hseen, Finset.insert_eq_of_mem hmem]
      exact .inl ⟨hne, rfl, .collecting T hT⟩
    | false =>
      have hnew : ((Contribution.ofDatagram d).worker : ℕ) ∉ D := by
        rw [← hT.seen_iff, hseen]
        exact Bool.false_ne_true
      have hT' := hT.absorb hd.values_eq hnew
      rw [hd.worker_eq] at hT'
      rw [respond_of_new hlen hseen]
      exact gathers_settle hT' hsub

end Workload

/-! ## The aggregator -/

namespace UserspaceAgg

open ParamServer (workersIn mem_workersIn workersIn_concat workersIn_subset
  forall_mem_iff_eq_range)

/-- The datagram's key is intact, and if it has no slot there is room for one, which the quota
admits. -/
def FindsPlace (args : Args) (st : State) (ev : Event) : Prop :=
  ∀ d, ev.received = some d → WellFormed d →
    Intact (slotSeq (GradHdr.decode d).key) st.tables.occ (GradHdr.decode d).key
    ∧ ((∀ i, st.tables.occ i ≠ some (GradHdr.decode d).key) →
      st.tables.HasRoom ∧ QuotaAdmits args.gJobQuota st.tables (GradHdr.decode d).jobId)

/-- Something was sent for the key before time `T`. -/
def SentBefore (os : List Output) (k : GradSlotKey) (T : ℕ) : Prop :=
  ∃ T' < T, ∃ p, SentAt os T' p ∧ (GradHdr.decode p).key = k

/-- The key's sum was sent, after the datagrams of all workers; or nothing was, and its slot has
counted the workers `D` whose datagrams came. -/
inductive Collected (W : Workload) (k : GradSlotKey) (sent : Prop) (D : Finset ℕ) (t : Tables) :
    Prop
  | sent (hsent : sent) (hall : D = Finset.range (W.numWorkers k)) : Collected W k sent D t
  | gathering {T? : Option Tally} (hshow : t.Shows k T?) (hgathered : W.Gathered k D T?)
    (hnot : ¬ sent) (hne : D ≠ Finset.range (W.numWorkers k)) : Collected W k sent D t

section

variable {W : Workload} {args : Args} {st : State} {ev : Event} {d : Bytes} {k : GradSlotKey}
  {D : Finset ℕ} {t t' : Tables} {v : Verdict} {slot : Option SlotIdx} {sent : Option Bytes}
  {sentSo sentNow : Prop}

/-- An iteration without a datagram of the key. -/
theorem Collected.frame (h : Collected W k sentSo D t) (hsame : t.SameFor k t')
    (hsent : sentNow ↔ sentSo) : Collected W k sentNow D t' := by
  cases h with
  | sent hs hall => exact .sent (hsent.mpr hs) hall
  | gathering hshow hgathered hnot hne =>
    exact .gathering (hshow.frame hsame) hgathered (fun hs => hnot (hsent.mp hs)) hne

/-- An iteration with a datagram of the key. -/
theorem Collected.receive (h : Collected W (GradHdr.decode d).key sentSo D t)
    (heff : Effect args.gJobQuota ev t t' v slot sent) (hok : t.Ok) (hacct : t.Accounted)
    (hrecv : ev.received = some d) (hd : W.Sends d)
    (hD : D ⊆ Finset.range (W.numWorkers (GradHdr.decode d).key))
    (hint : Intact (slotSeq (GradHdr.decode d).key) t.occ (GradHdr.decode d).key)
    (hplace : (∀ i, t.occ i ≠ some (GradHdr.decode d).key) →
      t.HasRoom ∧ QuotaAdmits args.gJobQuota t (GradHdr.decode d).jobId)
    (hsent : sentNow ↔ sentSo ∨ ∃ p, sent = some p ∧ (GradHdr.decode p).key = (GradHdr.decode d).key) :
    Collected W (GradHdr.decode d).key sentNow (insert (GradHdr.decode d).workerId.toNat D) t' := by
  cases h with
  | sent hs hall =>
    refine .sent (hsent.mpr (.inl hs)) ?_
    rw [hall]
    exact Finset.insert_eq_of_mem (Finset.mem_range.mpr hd.worker_lt)
  | @gathering T? hshow hgathered hnot hne =>
    have hadm : T? = none → t.HasRoom ∧ QuotaAdmits args.gJobQuota t (GradHdr.decode d).jobId := by
      rintro rfl
      cases hshow with
      | absent habs => exact hplace habs
    -- whether the key may be opened matters only when it is not live
    have hrespond : t'.Shows (GradHdr.decode d).key (respond true d T?).2
        ∧ SentWith (GradHdr.decode d).key sent (respond true d T?).1 := by
      classical
      have hopen : decide (QuotaAdmits args.gJobQuota t (GradHdr.decode d).jobId) = true
          ↔ QuotaAdmits args.gJobQuota t (GradHdr.decode d).jobId := decide_eq_true_iff
      have h := heff.respond hok hacct hrecv hd.wellFormed hshow hint (fun hnone => (hadm hnone).1)
        hopen
      have heq : respond (decide (QuotaAdmits args.gJobQuota t (GradHdr.decode d).jobId)) d T?
          = respond true d T? := by
        cases T? with
        | none => rw [decide_eq_true (hadm rfl).2]
        | some T => rfl
      rw [heq] at h
      exact ⟨h.1, h.2.2.1⟩
    obtain ⟨hshow', hwith⟩ := hrespond
    rcases hgathered.step hd hD hne with ⟨hne', hcompleted, hgathered'⟩ | ⟨hall, T, hcomplete⟩
    · refine .gathering hshow' hgathered' (fun hs => ?_) hne'
      rcases hsent.mp hs with hs | ⟨p, hp, -⟩
      · exact hnot hs
      · cases hanswer : (respond true d T?).1 with
        | complete T =>
          rw [hanswer] at hcompleted
          cases hcompleted
        | refused | mismatch | duplicate | absorbed =>
          rw [hanswer] at hwith
          rw [hp] at hwith
          cases hwith
    · rw [hcomplete] at hwith
      obtain ⟨p, hp, hemitted⟩ := hwith
      exact .sent (hsent.mpr (.inr ⟨p, hp, hemitted.key_eq⟩)) hall

end

section

variable {W : Workload} {args : Args} {inPacket outPacket : Buffer} {now : ℤ} {es : List Event}
  {k : GradSlotKey}

theorem workersIn_take_subset (hes : ∀ ev ∈ es, ev.On W) (T : ℕ) (k : GradSlotKey) :
    workersIn (datagramsIn (es.take T)) k ⊆ Finset.range (W.numWorkers k) := by
  apply workersIn_subset
  intro d hd
  obtain ⟨ev, hev, hrecv⟩ := List.mem_filterMap.mp hd
  exact hes ev (List.mem_of_mem_take hev) d hrecv

theorem sentBefore_succ {os : List Output} {T : ℕ} :
    SentBefore os k (T + 1) ↔ SentBefore os k T ∨ ∃ p, SentAt os T p ∧ (GradHdr.decode p).key = k := by
  constructor
  · rintro ⟨T', hT', hsent⟩
    rcases Nat.lt_succ_iff_lt_or_eq.mp hT' with hT' | rfl
    · exact .inl ⟨T', hT', hsent⟩
    · exact .inr hsent
  · rintro (⟨T', hT', hsent⟩ | hsent)
    · exact ⟨T', Nat.lt_succ_of_lt hT', hsent⟩
    · exact ⟨T, Nat.lt_succ_self T, hsent⟩

/-- How far the key has come at every time of a run without reaper. -/
theorem collected_run (hreap : args.slotTtlMs ≤ 0) (hes : ∀ ev ∈ es, ev.On W)
    (hplace : StepsMeet (mainStep args) (FindsPlace args) (State.init inPacket outPacket now) es)
    (hpos : 0 < W.numWorkers k) :
    ∀ T ≤ es.length, Collected W k
      (SentBefore (runOut (mainStep args) (State.init inPacket outPacket now) es) k T)
      (workersIn (datagramsIn (es.take T)) k)
      (stateAt (mainStep args) (State.init inPacket outPacket now) es T).tables := by
  refine stateAt_induction (fun T (st : State) => Collected W k
    (SentBefore (runOut (mainStep args) (State.init inPacket outPacket now) es) k T)
    (workersIn (datagramsIn (es.take T)) k) st.tables) ?_ fun T ev hev h => ?_
  · refine .gathering (.absent fun i => ?_) .idle ?_ fun hempty => ?_
    · simp [State.init]
    · rintro ⟨T', hT', -⟩
      exact absurd hT' (Nat.not_lt_zero T')
    · have hmem := Finset.mem_range.mpr hpos
      rw [← hempty] at hmem
      exact Finset.notMem_empty _ hmem
  · obtain ⟨hok, hacct⟩ := accounted_init args inPacket outPacket now (es.take T)
    have hfinds := stepsMeet_iff.mp hplace T ev hev
    have hsentAt : ∀ p, SentAt (runOut (mainStep args) (State.init inPacket outPacket now) es) T p
        ↔ (mainStep args (stateAt (mainStep args) (State.init inPacket outPacket now) es T)
          ev).2.sent = some p := by
      intro p
      rw [SentAt, runOut_getElem?, hev]
      simp
    rw [sentBefore_succ]
    simp only [hsentAt]
    rw [← stateAt] at hok hacct
    generalize stateAt (mainStep args) (State.init inPacket outPacket now) es T = st
      at hok hacct hfinds h ⊢
    have heff := mainStep_effect_of_ok args hok ev
    rw [reapPhase_of_not_due fun hdue => absurd hdue.1 (not_lt.mpr hreap)] at heff
    have htake : datagramsIn (es.take (T + 1)) = datagramsIn (es.take T) ++ ev.received.toList :=
      filterMap_take_succ Event.received hev
    rw [htake]
    cases hrecv : ev.received with
    | none =>
      obtain ⟨hsame, hother⟩ := heff.frame (k := k) fun d hd => by
        rw [hrecv] at hd
        cases hd
      rw [Option.toList_none, List.append_nil]
      refine h.frame hsame (or_iff_left ?_)
      rintro ⟨p, hp, hkey⟩
      exact hother p hp hkey
    | some d =>
      rw [Option.toList_some, workersIn_concat]
      have hd := hes ev (List.mem_of_getElem? hev) d hrecv
      by_cases hkey : (GradHdr.decode d).key = k
      · subst hkey
        rw [Function.update_self]
        obtain ⟨hint, hopens⟩ := hfinds d hrecv hd.wellFormed
        exact h.receive heff hok hacct hrecv hd (workersIn_take_subset hes T _) hint hopens Iff.rfl
      · rw [Function.update_of_ne (Ne.symm hkey)]
        obtain ⟨hsame, hother⟩ := heff.frame (k := k) fun d' hd' => by
          rw [received_unique hrecv hd']
          exact hkey
        refine h.frame hsame (or_iff_left ?_)
        rintro ⟨p, hp, hkey'⟩
        exact hother p hp hkey'

/-- **A sum is sent when datagrams of all workers have come**, whatever was lost, doubled or
reordered. -/
theorem sent_before_iff (hreap : args.slotTtlMs ≤ 0) (hes : ∀ ev ∈ es, ev.On W)
    (hplace : StepsMeet (mainStep args) (FindsPlace args) (State.init inPacket outPacket now) es)
    (hpos : 0 < W.numWorkers k) (U : ℕ) :
    SentBefore (runOut (mainStep args) (State.init inPacket outPacket now) es) k U
      ↔ ∀ w < W.numWorkers k, w ∈ workersIn (datagramsIn (es.take U)) k := by
  -- nothing happens after the run
  have hmin : SentBefore (runOut (mainStep args) (State.init inPacket outPacket now) es) k U
      ↔ SentBefore (runOut (mainStep args) (State.init inPacket outPacket now) es) k
        (min U es.length) := by
    constructor
    · rintro ⟨T, hT, p, ⟨o, ho, hsent⟩, hkey⟩
      obtain ⟨hlt, -⟩ := List.getElem?_eq_some_iff.mp ho
      rw [length_runOut] at hlt
      exact ⟨T, lt_min hT hlt, p, ⟨o, ho, hsent⟩, hkey⟩
    · rintro ⟨T, hT, hsent⟩
      exact ⟨T, lt_of_lt_of_le hT (min_le_left _ _), hsent⟩
  have htake : es.take U = es.take (min U es.length) := List.take_eq_take_min
  rw [forall_mem_iff_eq_range (workersIn_take_subset hes U k), hmin, htake]
  have hcollected := collected_run hreap hes hplace hpos (min U es.length) (min_le_right _ _)
  cases hcollected with
  | sent hsent hall => exact iff_of_true hsent hall
  | gathering hshow hgathered hnot hne => exact iff_of_false hnot hne

end

end UserspaceAgg

/-! ## The fleet -/

namespace Fleet

open UserspaceAgg

variable {F : Fleet} {args : Args} {es : List Event}

theorem injOn_home_keys (hrounds : F.numRounds ≤ 256) : Set.InjOn home (F.keys : Set GradSlotKey) := by
  refine (injOn_home (firstRounds_apart (BitVec.ofInt 32 F.jobId))).mono fun k hk => ?_
  obtain ⟨r, hr, rfl⟩ := mem_keys.mp hk
  refine ⟨rfl, rfl, ?_⟩
  rw [toNat_round hr]
  exact lt_of_lt_of_le hr hrounds

/-- A job has fewer slots than rounds while one of them has none. -/
theorem card_slotsOf_lt {occ : SlotIdx → Option GradSlotKey}
    (h : Homed (F.keys : Set GradSlotKey) slotSeq occ) {k : GradSlotKey} (hk : k ∈ F.keys)
    (habs : ∀ i, occ i ≠ some k) (jobId : BitVec 32) :
    (slotsOf occ jobId).card < F.numRounds := by
  have hunique : Unique occ := fun k i j hi hj => (h i k hi).2.symm.trans (h j k hj).2
  have hsub : {k' | (k'.jobId == jobId) = true ∧ ∃ i, occ i = some k'}
      ⊂ (F.keys : Set GradSlotKey) := by
    refine ⟨?_, fun hsup => ?_⟩
    · rintro k' ⟨-, i, hi⟩
      exact (h i k' hi).1
    · obtain ⟨-, i, hi⟩ := hsup hk
      exact habs i hi
  have hlt := Set.ncard_lt_ncard hsub
  rw [ncard_keys hunique, Set.ncard_coe_finset] at hlt
  exact hlt.trans_le F.card_keys_le

/-- Every datagram of the fleet finds a place, if there is no quota or it admits all rounds. -/
theorem findsPlace (hrounds : F.numRounds ≤ 256)
    (hquota : args.gJobQuota ≤ 0 ∨ (F.numRounds : ℤ) ≤ args.gJobQuota ∧ args.gJobQuota < 2 ^ 32)
    (inPacket outPacket : Buffer) (now : ℤ)
    (hes : ∀ ev ∈ es, ∀ d, ev.received = some d → F.Sends d) :
    StepsMeet (mainStep args) (FindsPlace args) (State.init inPacket outPacket now) es := by
  have hkeys : ∀ ev ∈ es, ev.Keys F.keys := fun ev hev d hd _ => key_mem_keys (hes ev hev d hd)
  obtain ⟨hhomed, -⟩ := homed_run (injOn_home_keys hrounds) args inPacket outPacket now hkeys
  refine stepsMeet_iff.mpr fun T ev hev d hrecv hd => ⟨(hhomed T).chained _, fun habs => ⟨?_, ?_⟩⟩
  · have hk := hkeys ev (List.mem_of_getElem? hev) d hrecv hd
    -- the search would end at the home, which does not hold the key
    have hstop := (probe_eq_some_iff (covers_slotSeq (GradHdr.decode d).key)).mp
      ((hhomed T).probe_eq (injOn_home_keys hrounds) hk (covers_slotSeq _))
    exact ⟨_, (stopAt_eq_true.mp hstop.1).resolve_right (habs _)⟩
  · rcases hquota with hzero | ⟨hle, hlt⟩
    · exact .inl hzero
    · refine .inr (.inr ?_)
      have hk := hkeys ev (List.mem_of_getElem? hev) d hrecv hd
      have hcard := card_slotsOf_lt (hhomed T) hk habs (GradHdr.decode d).jobId
      rw [Int.emod_eq_of_lt (by omega) hlt]
      omega

end Fleet

open UserspaceAgg in
/-- What the aggregator sends for a fleet has the key of a round. -/
theorem Fleet.key_sent {F : Fleet} {args : Args} {inPacket outPacket : Buffer} {now : ℤ}
    {es : List Event} (hes : ∀ ev ∈ es, ∀ d, ev.received = some d → F.Sends d) {T : ℕ} {p : Bytes}
    (hsent : SentAt (runOut (mainStep args) (.init inPacket outPacket now) es) T p) :
    (GradHdr.decode p).key ∈ F.keys := by
  obtain ⟨o, ho, hsent⟩ := hsent
  rw [runOut_getElem?, Option.map_eq_some_iff] at ho
  obtain ⟨ev, hev, rfl⟩ := ho
  have heff := mainStep_effect_of_ok args
    (ok_stateAt args (State.init_ok inPacket outPacket now) es T) ev
  rw [hsent] at heff
  obtain ⟨d, i, s, g, hrecv, -, -, -, -, -, hemitted⟩ := heff.sent_cases
  rw [hemitted.key_eq]
  exact key_mem_keys (hes ev (List.mem_of_getElem? hev) d hrecv)

open UserspaceAgg ParamServer in
/-- **A round goes through** when a packet of every worker reached the aggregator and the sum
reached the server. Both networks may lose, double and reorder what is sent. -/
theorem agg_rounds_complete (F : Fleet) (hrounds : F.numRounds ≤ 256) {args : Args}
    (hreap : args.slotTtlMs ≤ 0)
    (hquota : args.gJobQuota ≤ 0 ∨ (F.numRounds : ℤ) ≤ args.gJobQuota ∧ args.gJobQuota < 2 ^ 32)
    (inPacket outPacket : Buffer) (now : ℤ) {es : List UserspaceAgg.Event}
    (hes : ∀ ev ∈ es, ∀ d, ev.received = some d → F.Sends d) (packet : Buffer)
    {ps : List ParamServer.Event}
    (hps : ∀ ev ∈ ps, ∀ p, ev.received = some p → ∃ T, SentAt
      (runOut (UserspaceAgg.mainStep args) (.init inPacket outPacket now) es) T p)
    {r : ℕ} (hr : r < F.numRounds) (U : ℕ) :
    ((∃ T < U, ∃ p, SentAt (runOut (UserspaceAgg.mainStep args) (.init inPacket outPacket now) es)
        T p ∧ (GradHdr.decode p).key = F.key r)
      ↔ ∀ w < F.numWorkers, ∃ T < U, ∃ ev, es[T]? = some ev
        ∧ ev.received = some ((F.args w).datagram r))
    ∧ ((∃ T < U, CompletesAt ps (runOut (ParamServer.mainStep .agg) (.init packet) ps) (F.key r) T)
      ↔ ∃ T < U, ∃ ev p, ps[T]? = some ev ∧ ev.received = some p
        ∧ (GradHdr.decode p).key = F.key r)
    ∧ ((∃ T < U, CompletesAt ps (runOut (ParamServer.mainStep .agg) (.init packet) ps) (F.key r) T) →
      F.Recorded (stateAt (ParamServer.mainStep .agg) (.init packet) ps U).gSlots r) := by
  have hon : ∀ ev ∈ es, UserspaceAgg.Event.On F.workload ev :=
    fun ev hev d hd => Fleet.workload_of_sends (hes ev hev d hd)
  refine ⟨?_, F.sums_recorded packet (fun ev hev p hp => ?_) hr U⟩
  · have hbefore := sent_before_iff (k := F.key r) hreap hon
      (F.findsPlace hrounds hquota inPacket outPacket now hes) F.one_le U
    refine hbefore.trans (forall₂_congr fun w hw => ?_)
    rw [datagramsIn, ← mem_filterMap_take]
    apply Fleet.mem_workersIn_iff _ hw hr
    intro d hd
    obtain ⟨ev, hev, hrecv⟩ := List.mem_filterMap.mp hd
    exact hes ev (List.mem_of_mem_take hev) d hrecv
  · obtain ⟨T, hsent⟩ := hps ev hev p hp
    exact ⟨sends_reduced hon hsent, Fleet.key_sent hes hsent⟩

open UserspaceAgg ParamServer in
/-- The packets of the two workers come in the wrong order, and one of them comes twice. The sum
reaches the server, twice, and is recorded. -/
theorem agg_rounds_complete_halves :
    let es := [UserspaceAgg.Event.deliver ((halves.args 1).datagram 0),
      .deliver ((halves.args 1).datagram 0), .deliver ((halves.args 0).datagram 0)]
    let sum := workerPacket ⟨1, 0, 0, 0, 1, 1, 0⟩ fun _ => 65536
    let ps := [ParamServer.Event.deliver sum, .deliver sum]
    (∃ T < 3, ∃ p, SentAt (runOut (UserspaceAgg.mainStep ⟨1, 0⟩) (.init .zero .zero 0) es) T p
        ∧ (GradHdr.decode p).key = halves.key 0)
      ∧ halves.Recorded (stateAt (ParamServer.mainStep .agg) (.init .zero) ps 2).gSlots 0 := by
  intro es sum ps
  have hes : ∀ ev ∈ es, ∀ d, ev.received = some d → halves.Sends d := by
    intro ev hev d hd
    rw [Fleet.sends_iff]
    simp only [es, List.mem_cons, List.not_mem_nil, or_false] at hev
    rcases hev with rfl | rfl | rfl <;> obtain rfl := Option.some.inj hd
    · exact ⟨1, by decide, 0, by decide, rfl⟩
    · exact ⟨1, by decide, 0, by decide, rfl⟩
    · exact ⟨0, by decide, 0, by decide, rfl⟩
  have hps : ∀ ev ∈ ps, ∀ p, ev.received = some p → ∃ T, SentAt
      (runOut (UserspaceAgg.mainStep ⟨1, 0⟩) (.init .zero .zero 0) es) T p := by
    have hsent : SentAt (runOut (UserspaceAgg.mainStep ⟨1, 0⟩) (.init .zero .zero 0) es) 2 sum :=
      ⟨_, rfl, by decide +kernel⟩
    intro ev hev p hp
    rcases List.mem_pair.mp hev with rfl | rfl <;> obtain rfl := Option.some.inj hp
    · exact ⟨2, hsent⟩
    · exact ⟨2, hsent⟩
  have hreap : (⟨1, 0⟩ : UserspaceAgg.Args).slotTtlMs ≤ 0 := le_rfl
  have hquota : (halves.numRounds : ℤ) ≤ 1 ∧ (1 : ℤ) < 2 ^ 32 := by decide
  have hthrough := fun U => agg_rounds_complete halves (by decide) hreap (.inr hquota) .zero .zero 0
    hes .zero hps (r := 0) (by decide) U
  obtain ⟨-, hcompletes, hrecorded⟩ := hthrough 2
  refine ⟨(hthrough 3).1.mpr fun w hw => ?_,
    hrecorded (hcompletes.mpr ⟨0, by decide, _, sum, rfl, rfl, by decide +kernel⟩)⟩
  have hw' : w < 2 := hw
  interval_cases w
  · exact ⟨2, by decide, _, rfl, rfl⟩
  · exact ⟨0, by decide, _, rfl, rfl⟩

end NetSum
