import NetSum.ParamServer.Invariants
import NetSum.UserspaceAgg.EmissionTheorems

/-!
# With and without the aggregator

The two benchmark configurations: workers that send to the parameter server, and workers that send
to the aggregator, which sends to the parameter server. What the aggregator sends for a workload
is a workload itself, of one worker for each key, whose payload is the sum (`sends_reduced`). A
parameter server records the sum of the payloads of a workload (`records_total`), so both
configurations record the same (`pipelines_agree`).
-/

namespace NetSum

open NetSum.Lib NetSum.Protocol NetSum.Aggregation

/-! ## Workloads -/

/-- For each key the number of its workers, its chunk length, and what each of them sends. -/
structure Workload where
  numWorkers : GradSlotKey → ℕ
  chunkLen : GradSlotKey → ℕ
  payload : GradSlotKey → ℕ → ℕ → BitVec 32

namespace Workload

/-- A datagram of the workload. -/
structure Sends (W : Workload) (d : Bytes) : Prop where
  wellFormed : WellFormed d
  numWorkers_eq : (GradHdr.decode d).numWorkers.toNat = W.numWorkers (GradHdr.decode d).key
  chunkLen_eq : (GradHdr.decode d).chunkLen.toNat = W.chunkLen (GradHdr.decode d).key
  worker_lt : (GradHdr.decode d).workerId.toNat < W.numWorkers (GradHdr.decode d).key
  value_eq : ∀ i < W.chunkLen (GradHdr.decode d).key,
    valueAt d i = W.payload (GradHdr.decode d).key (GradHdr.decode d).workerId.toNat i

/-- The sum of what the workers of a key send. -/
def total (W : Workload) (k : GradSlotKey) (i : ℕ) : BitVec 32 :=
  ∑ w ∈ Finset.range (W.numWorkers k), W.payload k w i

/-- The workload of an aggregator: one worker for each key, which sends the sum. -/
def reduced (W : Workload) : Workload where
  numWorkers _ := 1
  chunkLen := W.chunkLen
  payload k _ := W.total k

theorem total_reduced (W : Workload) : W.reduced.total = W.total := by
  funext k i
  show ∑ _w ∈ Finset.range 1, W.total k i = _
  rw [Finset.sum_range_one]

/-- What worker `w` contributes to a round of the key. -/
def contribution (W : Workload) (k : GradSlotKey) (w : ℕ) (i : Fin netsumMaxChunkLen) : BitVec 32 :=
  if (i : ℕ) < W.chunkLen k then W.payload k w i else 0

/-- The tally of contributions of some of the key's workers. -/
def Partial (W : Workload) (k : GradSlotKey) (T : Tally) : Prop :=
  ∃ A ⊆ Finset.range (W.numWorkers k),
    T.Of (W.numWorkers k) (W.chunkLen k) (W.contribution k) A

/-- The tally of the contributions of all of them. -/
def Whole (W : Workload) (k : GradSlotKey) (T : Tally) : Prop :=
  T.Of (W.numWorkers k) (W.chunkLen k) (W.contribution k) (Finset.range (W.numWorkers k))

variable {W : Workload} {d : Bytes} {k : GradSlotKey} {T : Tally}

/-- Bytes behind the values make no difference. -/
theorem sends_take_iff {n : ℕ} (hn : netsumHdrSize + 4 * (GradHdr.decode d).chunkLen.toNat ≤ n) :
    W.Sends (d.take n) ↔ W.Sends d := by
  have hdec : GradHdr.decode (d.take n) = GradHdr.decode d :=
    GradHdr.decode_congr fun _ hi => byteAt_take (by omega)
  have hvalue : ∀ i < (GradHdr.decode d).chunkLen.toNat, valueAt (d.take n) i = valueAt d i :=
    fun i hi => valueAt_congr (fun j hj => byteAt_take (by omega)) hi
  have hwf : WellFormed (d.take n) ↔ WellFormed d := by
    rw [wellFormed_iff, wellFormed_iff, hdec, List.length_take]
    refine and_congr ?_ (and_congr Iff.rfl (and_congr ?_ Iff.rfl))
    · omega
    · omega
  constructor
  · rintro ⟨h, hN, hL, hw, hv⟩
    rw [hdec] at hN hL hw hv
    exact ⟨hwf.mp h, hN, hL, hw, fun i hi => (hvalue i (hi.trans_eq hL.symm)).symm.trans (hv i hi)⟩
  · rintro ⟨h, hN, hL, hw, hv⟩
    refine ⟨hwf.mpr h, ?_, ?_, ?_, fun i hi => ?_⟩
    · rwa [hdec]
    · rwa [hdec]
    · rwa [hdec]
    · rw [hdec] at hi ⊢
      rw [hvalue i (hi.trans_eq hL.symm), hv i hi]

theorem Sends.worker_eq (h : W.Sends d) :
    ((Contribution.ofDatagram d).worker : ℕ) = (GradHdr.decode d).workerId.toNat :=
  Contribution.worker_ofDatagram h.wellFormed

theorem Sends.values_eq (h : W.Sends d) : (Contribution.ofDatagram d).values
    = W.contribution (GradHdr.decode d).key (Contribution.ofDatagram d).worker := by
  funext i
  rw [h.worker_eq]
  show (if (i : ℕ) < (GradHdr.decode d).chunkLen.toNat then valueAt d i else 0)
    = if (i : ℕ) < W.chunkLen (GradHdr.decode d).key then _ else 0
  rw [h.chunkLen_eq]
  split
  · next hi => exact h.value_eq i hi
  · rfl

/-- One more worker of the key. -/
theorem Partial.absorb (hT : W.Partial (GradHdr.decode d).key T) (h : W.Sends d)
    (hnew : T.seen (Contribution.ofDatagram d).worker = false) :
    W.Partial (GradHdr.decode d).key (T.absorb (Contribution.ofDatagram d)) := by
  obtain ⟨A, hA, hof⟩ := hT
  have hmem : ((Contribution.ofDatagram d).worker : ℕ) ∉ A := by
    rw [← hof.seen_iff, hnew]
    nofun
  refine ⟨_, Finset.insert_subset ?_ hA, hof.absorb h.values_eq hmem⟩
  rw [Finset.mem_range, h.worker_eq]
  exact h.worker_lt

theorem partial_opened (W : Workload) (k : GradSlotKey) :
    W.Partial k (.opened (W.numWorkers k) (W.chunkLen k)) :=
  ⟨∅, Finset.empty_subset _, Tally.of_opened ..⟩

/-- As many contributions as workers are those of all of them. -/
theorem Partial.whole (hT : W.Partial k T) (hcount : T.fanIn ≤ T.count) : W.Whole k T := by
  obtain ⟨A, hA, hof⟩ := hT
  rw [hof.fanIn_eq, hof.count_eq] at hcount
  have hall : A = Finset.range (W.numWorkers k) :=
    Finset.eq_of_subset_of_card_le hA (by rwa [Finset.card_range])
  rw [Whole, ← hall]
  exact hof

theorem Whole.seen (hT : W.Whole (GradHdr.decode d).key T) (h : W.Sends d) :
    T.seen (Contribution.ofDatagram d).worker = true := by
  rw [Tally.Of.seen_iff hT, Finset.mem_range, h.worker_eq]
  exact h.worker_lt

theorem Whole.sum_eq (hT : W.Whole k T) {i : Fin netsumMaxChunkLen}
    (hi : (i : ℕ) < W.chunkLen k) : T.sum i = W.total k i := by
  rw [Tally.Of.sum_eq hT, total]
  refine Finset.sum_congr rfl fun w _ => ?_
  rw [contribution, if_pos hi]

end Workload

/-! ## The parameter server on a workload -/

namespace ParamServer

open UserspaceAgg (SlotIdx Buffer)

/-- The key's only entry holds this chunk length and, up to it, these sums. -/
def Records (t : Slots) (k : GradSlotKey) (L : ℕ) (sum : ℕ → BitVec 32) : Prop :=
  ∃ i, Slots.occ t i = some k ∧ (∀ j, Slots.occ t j = some k → j = i)
    ∧ (t i).chunkLen.toNat = L ∧ ∀ j : Fin netsumMaxChunkLen, (j : ℕ) < L → (t i).sum j = sum j

/-- Slots opened for the workload expect its workers. -/
def Mode.Expects (mode : Mode) (W : Workload) : Prop :=
  ∀ d, W.Sends d → mode.fanIn (GradHdr.decode d) = W.numWorkers (GradHdr.decode d).key

theorem expects_noagg (W : Workload) : Mode.noagg.Expects W := fun _ h => h.numWorkers_eq

theorem expects_agg (W : Workload) : Mode.agg.Expects W.reduced := fun _ _ => rfl

/-- Only datagrams of the workload arrive. -/
def Event.On (W : Workload) (ev : Event) : Prop := ∀ d, ev.received = some d → W.Sends d

section

variable {W : Workload} {mode : Mode} {ev : Event} {packet : Buffer} {t t' : Slots} {d : Bytes}
  {i : SlotIdx} {s : Slot} {v : Verdict} {slot : Option SlotIdx} {k : GradSlotKey}

/-- Every slot has counted workers of its key. -/
def Slots.Counting (W : Workload) (t : Slots) : Prop :=
  ∀ i k, Slots.occ t i = some k → W.Partial k (t i).tally

theorem tally_seen_eq_false (hseen : s.seenWorker (Contribution.ofDatagram d).worker = 0) :
    s.tally.seen (Contribution.ofDatagram d).worker = false := by
  show (s.seenWorker _ != 0) = false
  rw [hseen]
  rfl

theorem Accepts.counting (h : Accepts mode ev (bufferValues packet d) t d i s) (ht : Slots.Ok t)
    (hmode : mode.Expects W) (hd : W.Sends d) (hcount : Slots.Counting W t) :
    W.Partial (GradHdr.decode d).key s.tally := by
  have hwhole := contributionOf_of_le packet hd.wellFormed.values_le
  cases h with
  | joined hprobe hocc hseen =>
    have hnew := tally_seen_eq_false hseen
    rw [(tally_joined ht hocc hseen).2, hwhole]
    exact (hcount i _ hocc).absorb hd hnew
  | opened hprobe hocc =>
    rw [tally_opened, hwhole, hmode d hd, hd.chunkLen_eq]
    exact (W.partial_opened _).absorb hd rfl

theorem Effect.counting (h : Effect mode ev packet t t' v slot) (ht : Slots.Ok t)
    (hmode : mode.Expects W) (hev : ev.On W) (hcount : Slots.Counting W t) :
    Slots.Counting W t' := by
  cases h with
  | idle hrecv => exact hcount
  | screened hrecv hscreen => exact hcount
  | full hrecv hd hfull => exact hcount
  | duplicate hrecv hd hprobe hocc hseen => exact hcount
  | @counted d i s hrecv hd hacc =>
    intro j k hj
    rw [occ_update, occupant_settle] at hj
    by_cases hji : j = i
    · subst hji
      rw [Function.update_self, hacc.occupant] at hj
      rw [Function.update_self, tally_settle, ← Option.some.inj hj]
      exact hacc.counting ht hmode (hev d hrecv) hcount
    · rw [Function.update_of_ne hji] at hj ⊢
      exact hcount j k hj

/-- The key's slot has counted all its workers. -/
def Slots.Full (W : Workload) (k : GradSlotKey) (t : Slots) : Prop :=
  ∃ i, Slots.occ t i = some k ∧ W.Whole k (t i).tally

/-- A completion leaves the key's slot full. -/
theorem Effect.full_of_complete (h : Effect mode ev packet t t' .complete slot) (ht : Slots.Ok t)
    (hmode : mode.Expects W) (hev : ev.On W) (hcount : Slots.Counting W t)
    (hrecv : ev.received = some d) : Slots.Full W (GradHdr.decode d).key t' := by
  generalize hv : Verdict.complete = v at h
  cases h with
  | idle hrecv' => cases hv
  | @screened d v hrecv' hscreen =>
    exact absurd (hv ▸ hscreen) (screen_ne_complete d)
  | full hrecv' hd hfull => cases hv
  | duplicate hrecv' hd hprobe hocc hseen => cases hv
  | @counted d' i s hrecv' hd hacc =>
    obtain rfl := Option.some.inj (hrecv.symm.trans hrecv')
    refine ⟨i, ?_, ?_⟩
    · rw [occ_update, Function.update_self, occupant_settle, hacc.occupant]
    · rw [Function.update_self, tally_settle]
      exact (hacc.counting ht hmode (hev d hrecv) hcount).whole
        (congrArg BitVec.toNat (settle_done hv.symm)).ge

/-- A full slot has seen every worker, so it stays as it is. -/
theorem Effect.full_kept (h : Effect mode ev packet t t' v slot) (hev : ev.On W)
    (hfull : Slots.Full W k t) : Slots.Full W k t' := by
  obtain ⟨i, hi, hwhole⟩ := hfull
  refine ⟨i, h.occ_kept hi, ?_⟩
  cases h with
  | idle hrecv => exact hwhole
  | screened hrecv hscreen => exact hwhole
  | full hrecv hd hfull => exact hwhole
  | duplicate hrecv hd hprobe hocc hseen => exact hwhole
  | @counted d j s hrecv hd hacc =>
    by_cases hij : i = j
    · subst hij
      cases hacc with
      -- a slot with all its marks takes no further contribution
      | joined hprobe hocc hseen =>
        obtain rfl := Option.some.inj (hi.symm.trans hocc)
        have hmark : (t i).tally.seen (Contribution.ofDatagram d).worker = true :=
          hwhole.seen (hev d hrecv)
        rw [tally_seen_eq_false hseen] at hmark
        cases hmark
      | opened hprobe hocc =>
        rw [hi] at hocc
        cases hocc
    · rwa [Function.update_of_ne hij]

end

/-- **A completed key records the sum of the payloads**, from its completion on. -/
theorem records_total {W : Workload} {mode : Mode} (hmode : mode.Expects W) {packet : Buffer}
    {es : List Event} (hes : ∀ ev ∈ es, ev.On W) {k : GradSlotKey} {T : ℕ}
    (hT : CompletesAt es (runOut (mainStep mode) (State.init packet) es) k T) {U : ℕ}
    (hU : T < U) :
    Records (stateAt (mainStep mode) (State.init packet) es U).gSlots k (W.chunkLen k)
      (W.total k) := by
  have hmeet : StepsMeet (mainStep mode) (fun _ ev => ev.On W) (State.init packet) es :=
    stepsMeet_iff.mpr fun _ ev he => hes ev (List.mem_of_getElem? he)
  obtain ⟨ev, d, o, hev, hrecv, rfl, ho, hv⟩ := hT
  rw [runOut_getElem?, hev, Option.map_some, Option.some.injEq] at ho
  subst ho
  -- counting up to the completion
  have hcount := stateAt_kept_of_meet (fun st : State => st.Good ∧ Slots.Counting W st.gSlots)
    (fun st ev hon h => ⟨h.1.step mode ev, (h.1.effect mode ev).counting h.1.ok hmode hon h.2⟩)
    hmeet (Nat.zero_le T) ⟨good_init packet, fun i k hi => by cases hi⟩
  have heff := hcount.1.effect mode ev
  rw [hv] at heff
  have hfull := heff.full_of_complete hcount.1.ok hmode (hes ev (List.mem_of_getElem? hev))
    hcount.2 hrecv
  rw [← stateAt_succ hev] at hfull
  -- full from then on
  have hkept := stateAt_kept_of_meet
    (fun st : State => st.Good ∧ Slots.Full W (GradHdr.decode d).key st.gSlots)
    (fun st ev hon h => ⟨h.1.step mode ev, (h.1.effect mode ev).full_kept hon h.2⟩)
    hmeet hU ⟨good_stateAt mode packet es (T + 1), hfull⟩
  obtain ⟨hgood, i, hi, hwhole⟩ := hkept
  exact ⟨i, hi, fun j hj => hgood.keyed.unique _ j i hj hi, Tally.Of.chunkLen_eq hwhole,
    fun j hj => hwhole.sum_eq hj⟩

end ParamServer

/-! ## The aggregator on a workload -/

namespace UserspaceAgg

/-- Only datagrams of the workload arrive. -/
def Event.On (W : Workload) (ev : Event) : Prop := ∀ d, ev.received = some d → W.Sends d

/-- Every slot has counted workers of its key. -/
def Tables.Counting (W : Workload) (t : Tables) : Prop :=
  ∀ i k, t.occ i = some k → W.Partial k (t.gSlots i).tally

section

variable {W : Workload} {q : ℤ} {args : Args} {st : State} {ev : Event} {t t' : Tables} {d : Bytes}
  {i : SlotIdx} {s : Slot} {g : Jobs} {v : Verdict} {slot : Option SlotIdx}
  {sent : Option Bytes} {p : Bytes}

theorem Accepts.counting (h : Accepts q ev t d i s g) (ht : t.Ok) (hd : W.Sends d)
    (hcount : t.Counting W) : W.Partial (GradHdr.decode d).key s.tally := by
  cases h with
  | joined hprobe hocc hlen hseen =>
    obtain ⟨r, hr⟩ := ht i (Slot.occupant_eq_some.mp hocc).1
    have hnew : (t.gSlots i).tally.seen (Contribution.ofDatagram d).worker = false := by
      show ((t.gSlots i).seenWorker _ != 0) = false
      rw [hseen]
      rfl
    rw [tally_accumulate ev.nowTouched hr.count_lt]
    exact (hcount i _ hocc).absorb hd hnew
  | opened hprobe hocc hjobs =>
    rw [tally_opened d, Round.tally_absorb, Round.tally_opened, hd.numWorkers_eq, hd.chunkLen_eq]
    exact (W.partial_opened _).absorb hd rfl

theorem Effect.counting (h : Effect q ev t t' v slot sent) (ht : t.Ok) (hev : ev.On W)
    (hcount : t.Counting W) : t'.Counting W := by
  intro i k hi
  rcases h.slot_cases i with
    ⟨hsame, -⟩ | ⟨d, s, g, hrecv, -, hacc, -, ⟨-, hs, -, -⟩ | ⟨-, hs, -⟩⟩
  · rw [Tables.occ, hsame] at hi
    rw [hsame]
    exact hcount i k hi
  · rw [Tables.occ, hs, hacc.occupant.1] at hi
    rw [hs, ← Option.some.inj hi]
    exact hacc.counting ht (hev d hrecv) hcount
  · rw [Tables.occ, hs, Slot.occupant_eq_none.mpr rfl] at hi
    cases hi

theorem Tables.Counting.freeSlot (h : t.Counting W) (i : SlotIdx) : (freeSlot t i).Counting W := by
  intro j k hj
  rw [Tables.occ, freeSlot_gSlots] at hj
  rw [freeSlot_gSlots]
  by_cases hji : j = i
  · subst hji
    rw [Function.update_self, Slot.occupant_eq_none.mpr rfl] at hj
    cases hj
  · rw [Function.update_of_ne hji] at hj ⊢
    exact h j k hj

theorem reapPhase_counting (h : st.tables.Counting W) (ev : Event) :
    (reapPhase args st ev).1.tables.Counting W :=
  reapPhase_induction (Tables.Counting W) (fun _ i _ ht => ht.freeSlot i) args h ev

theorem mainStep_counting (hok : st.tables.Ok) (hev : ev.On W) (h : st.tables.Counting W) :
    (mainStep args st ev).1.tables.Counting W :=
  (mainStep_effect_of_ok args hok ev).counting (reapPhase_ok hok ev) hev (reapPhase_counting h ev)

/-- What is sent for a workload is a datagram of the reduced one. -/
theorem Effect.sends_reduced (h : Effect q ev t t' v slot (some p)) (ht : t.Ok) (hev : ev.On W)
    (hcount : t.Counting W) : W.reduced.Sends p := by
  obtain ⟨d, i, s, g, hrecv, hd, hacc, -, -, hge, hp⟩ := h.sent_cases
  have hsends := hev d hrecv
  have hwhole := (hacc.counting ht hsends hcount).whole (not_lt.mp hge)
  have hchunk : s.tally.chunkLen = W.chunkLen (GradHdr.decode d).key :=
    Tally.Of.chunkLen_eq hwhole
  have hle : s.tally.chunkLen ≤ netsumMaxChunkLen := by
    rw [hchunk, ← hsends.chunkLen_eq]
    exact hd.chunkLen_le
  have hworker : (GradHdr.decode p).workerId.toNat = 0 := by rw [hp.workerId_eq]; rfl
  have hnum : (GradHdr.decode p).numWorkers.toNat = 1 := by rw [hp.numWorkers_eq]; rfl
  have hlen := hp.chunkLen_eq
  refine ⟨⟨?_, ?_, ?_, ?_, ?_, ?_⟩, hnum, ?_, ?_, fun j hj => ?_⟩
  · rw [hp.length_eq]
    exact Nat.le_add_right _ _
  · rwa [hlen]
  · rw [hlen, hp.length_eq]
  · rw [hworker]
    decide
  · rw [hnum]
  · rw [hnum]
    decide
  · rw [hlen, hchunk, hp.key_eq]
    rfl
  · rw [hworker]
    exact Nat.one_pos
  · -- the packet carries the slot's sums
    have hj' : j < s.tally.chunkLen := by
      rw [hchunk, ← hp.key_eq]
      exact hj
    rw [hp.key_eq]
    have hvalue := hp.value_eq ⟨j, hj'.trans_le hle⟩ hj'
    rw [hchunk] at hj'
    exact hvalue.trans (hwhole.sum_eq hj')

end

/-- Every packet sent for a workload is a datagram of the reduced one. -/
theorem sends_reduced {W : Workload} {args : Args} {inPacket outPacket : Buffer} {now : ℤ}
    {es : List Event} (hes : ∀ ev ∈ es, ev.On W) {T : ℕ} {p : Bytes}
    (hsent : SentAt (runOut (mainStep args) (State.init inPacket outPacket now) es) T p) :
    W.reduced.Sends p := by
  obtain ⟨o, ho, hsent⟩ := hsent
  rw [runOut_getElem?, Option.map_eq_some_iff] at ho
  obtain ⟨ev, hev, rfl⟩ := ho
  have hmeet : StepsMeet (mainStep args) (fun _ ev => ev.On W) (State.init inPacket outPacket now)
      es := stepsMeet_iff.mpr fun _ ev he => hes ev (List.mem_of_getElem? he)
  have hgood := stateAt_kept_of_meet
    (fun st : State => st.tables.Ok ∧ st.tables.Counting W)
    (fun st ev hon h => ⟨mainStep_ok h.1 ev, mainStep_counting h.1 hon h.2⟩) hmeet
    (Nat.zero_le T) ⟨State.init_ok inPacket outPacket now, fun i k hi => by cases hi⟩
  have heff := mainStep_effect_of_ok args hgood.1 ev
  rw [hsent] at heff
  exact heff.sends_reduced (reapPhase_ok hgood.1 ev) (hes ev (List.mem_of_getElem? hev))
    (reapPhase_counting hgood.2 ev)

end UserspaceAgg

/-! ## The two configurations -/

/-- **The two configurations agree.** A key that completes at both parameter servers has the same
chunk length and the same sums at both, from then on. -/
theorem pipelines_agree {W : Workload} {packet packet' : UserspaceAgg.Buffer}
    {es : List ParamServer.Event} (hes : ∀ ev ∈ es, ev.On W)
    {args : UserspaceAgg.Args} {inPacket outPacket : UserspaceAgg.Buffer} {now : ℤ}
    {agg : List UserspaceAgg.Event} (hagg : ∀ ev ∈ agg, ev.On W)
    {es' : List ParamServer.Event}
    (hes' : ∀ ev ∈ es', ∀ p, ev.received = some p → ∃ T, UserspaceAgg.SentAt
      (runOut (UserspaceAgg.mainStep args) (.init inPacket outPacket now) agg) T p)
    {k : GradSlotKey} {T T' : ℕ}
    (hT : ParamServer.CompletesAt es
      (runOut (ParamServer.mainStep .noagg) (.init packet) es) k T)
    (hT' : ParamServer.CompletesAt es'
      (runOut (ParamServer.mainStep .agg) (.init packet') es') k T') {U U' : ℕ}
    (hU : T < U) (hU' : T' < U') :
    ParamServer.Records (stateAt (ParamServer.mainStep .noagg) (.init packet) es U).gSlots k
        (W.chunkLen k) (W.total k)
      ∧ ParamServer.Records (stateAt (ParamServer.mainStep .agg) (.init packet') es' U').gSlots k
        (W.chunkLen k) (W.total k) := by
  -- what the aggregator sends is the workload with one worker
  have hon : ∀ ev ∈ es', ev.On W.reduced := by
    intro ev hev p hp
    obtain ⟨n, hn⟩ := hes' ev hev p hp
    exact UserspaceAgg.sends_reduced hagg hn
  have hrecords' := ParamServer.records_total (ParamServer.expects_agg W) hon hT' hU'
  rw [W.total_reduced] at hrecords'
  exact ⟨ParamServer.records_total (ParamServer.expects_noagg W) hes hT hU, hrecords'⟩

/-- Two workers, each of which sends its number. -/
def twoWorkers : Workload := ⟨fun _ => 2, fun _ => 1, fun _ w _ => BitVec.ofNat 32 w⟩

/-- The datagram of worker `w`. -/
def datagramOf (w : ℕ) : Bytes :=
  workerPacket ⟨1, 0, 0, BitVec.ofNat 16 w, 2, 1, 0⟩ fun _ => BitVec.ofNat 32 w

theorem pipelines_agree_twoWorkers :
    let es := [ParamServer.Event.deliver (datagramOf 0), .deliver (datagramOf 1)]
    let es' := [ParamServer.Event.deliver (workerPacket ⟨1, 0, 0, 0, 1, 1, 0⟩ fun _ => 1)]
    ParamServer.Records (stateAt (ParamServer.mainStep .noagg) (.init .zero) es 2).gSlots
        ⟨1, 0, 0⟩ 1 (twoWorkers.total ⟨1, 0, 0⟩)
      ∧ ParamServer.Records (stateAt (ParamServer.mainStep .agg) (.init .zero) es' 1).gSlots
        ⟨1, 0, 0⟩ 1 (twoWorkers.total ⟨1, 0, 0⟩) := by
  intro es es'
  let agg := [UserspaceAgg.Event.deliver (datagramOf 1), .deliver (datagramOf 0)]
  have hsends : ∀ w < 2, twoWorkers.Sends (datagramOf w) := by
    intro w hw
    interval_cases w
    all_goals exact ⟨by decide +kernel, by decide +kernel, by decide +kernel, by decide +kernel,
      by decide +kernel⟩
  have hes : ∀ ev ∈ es, ev.On twoWorkers := by
    intro ev hev d hd
    rcases List.mem_pair.mp hev with rfl | rfl <;> obtain rfl := Option.some.inj hd
    · exact hsends 0 (by decide)
    · exact hsends 1 (by decide)
  have hagg : ∀ ev ∈ agg, ev.On twoWorkers := by
    intro ev hev d hd
    rcases List.mem_pair.mp hev with rfl | rfl <;> obtain rfl := Option.some.inj hd
    · exact hsends 1 (by decide)
    · exact hsends 0 (by decide)
  have hes' : ∀ ev ∈ es', ∀ p, ev.received = some p → ∃ T, UserspaceAgg.SentAt
      (runOut (UserspaceAgg.mainStep ⟨0, 0⟩) (.init .zero .zero 0) agg) T p := by
    intro ev hev p hp
    obtain rfl := List.mem_singleton.mp hev
    obtain rfl := Option.some.inj hp
    exact ⟨1, _, rfl, by decide +kernel⟩
  have hT : ParamServer.CompletesAt es (runOut (ParamServer.mainStep .noagg) (.init .zero) es)
      ⟨1, 0, 0⟩ 1 := ⟨_, _, _, rfl, rfl, by decide +kernel, rfl, by decide +kernel⟩
  have hT' : ParamServer.CompletesAt es' (runOut (ParamServer.mainStep .agg) (.init .zero) es')
      ⟨1, 0, 0⟩ 0 := ⟨_, _, _, rfl, rfl, by decide +kernel, rfl, by decide +kernel⟩
  exact pipelines_agree hes hagg hes' hT hT' (by decide) (by decide)

end NetSum
