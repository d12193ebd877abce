import NetSum.UserspaceAgg.BookkeepingTheorems
import NetSum.UserspaceAgg.IsolationTheorems
import NetSum.UserspaceAgg.ReaperTheorems

/-!
# The userspace aggregator refines an abstract one

The abstract aggregator has no tables. It keeps, for each live key, the round itself and when it
was last contributed to. A sweep forgets the rounds that were silent for the TTL; a new key is
refused when 65536 keys are live or its job has its quota of them; the rest is `Round.respond`.

As long as every datagram finds its key intact, the main loop is this aggregator, with its reaper
and its quota: it keeps the same rounds, evicts the same keys, gives the same verdicts and sends
the same sums (`loop_represents`).
-/

namespace NetSum.UserspaceAgg

open NetSum.Lib NetSum.Protocol NetSum.Aggregation

/-! ## The abstract aggregator -/

/-- The round of a live key, and when it was last contributed to. -/
structure LiveRound where
  round : Round
  touched : ℤ

/-- The live keys, when the last sweep was, and the numbers of packets in and out. -/
structure Aggregator where
  live : GradSlotKey → Option LiveRound
  lastReap : ℤ
  packetsIn : ℕ
  packetsOut : ℕ

/-- What an iteration shows: the keys that were evicted, its exit, and the round that was sent. -/
structure Ruling where
  evicted : Set GradSlotKey
  verdict : Verdict
  sent : Option (GradSlotKey × Round)

namespace Aggregator

def empty (now : ℤ) : Aggregator := ⟨fun _ => none, now, 0, 0⟩

/-- The live keys of a job. -/
def keysOf (ag : Aggregator) (jobId : BitVec 32) : Set GradSlotKey :=
  {k | k.jobId = jobId ∧ (ag.live k).isSome}

/-- A sweep is due. -/
def Due (args : Args) (ag : Aggregator) (ev : Event) : Prop :=
  0 < args.slotTtlMs ∧ ev.nowLoop - ag.lastReap ≥ args.reapIntervalMicros

instance (args : Args) (ag : Aggregator) (ev : Event) : Decidable (ag.Due args ev) :=
  inferInstanceAs (Decidable (_ ∧ _))

/-- The rounds that were silent for the TTL are forgotten. -/
def sweep (args : Args) (ag : Aggregator) (ev : Event) : Aggregator × Set GradSlotKey :=
  if ag.Due args ev then
    ({ ag with
      live := fun k =>
        (ag.live k).filter fun r => decide (ev.nowReap - r.touched < args.slotTtlMs * 1000)
      lastReap := ev.nowLoop },
      {k | ∃ r, ag.live k = some r ∧ args.slotTtlMs * 1000 ≤ ev.nowReap - r.touched})
  else (ag, ∅)

/-- A new key of the job is admitted while less than 65536 keys are live, and less than `q` keys of
the job; a quota that is not positive is none. -/
def Admits (q : ℤ) (ag : Aggregator) (jobId : BitVec 32) : Prop :=
  Set.ncard {k | (ag.live k).isSome} < slotTableCapacity
    ∧ (q ≤ 0 ∨ ((ag.keysOf jobId).ncard : ℤ) < q)

open Classical in
/-- The answer to a well-formed datagram, and the round that its key is left with. -/
noncomputable def answer (q : ℤ) (ag : Aggregator) (d : Bytes) : Answer Round × Option Round :=
  Round.respond (decide (ag.Admits q (GradHdr.decode d).jobId)) d
    ((ag.live (GradHdr.decode d).key).map LiveRound.round)

end Aggregator

/-- A contribution that is counted is the last one so far; others do not touch the round. -/
def LiveRound.after (now : ℤ) (r? : Option LiveRound) :
    Answer Round × Option Round → Option LiveRound
  | (.absorbed, r) => r.map fun r => ⟨r, now⟩
  | (.complete _, _) => none
  | _ => r?

/-- The round that is sent. -/
def finished : Answer Round → Option Round
  | .complete r => some r
  | _ => none

namespace Aggregator

/-- What is done with the datagram, if any. -/
noncomputable def receive (q : ℤ) (ag : Aggregator) (ev : Event) :
    Aggregator × Verdict × Option (GradSlotKey × Round) :=
  match ev.received with
  | none => (ag, .short, none)
  | some d =>
    match screen d with
    | some v =>
      ({ ag with packetsIn := if d.length < netsumHdrSize then ag.packetsIn else ag.packetsIn + 1 },
        v, none)
    | none =>
      let k := (GradHdr.decode d).key
      let a := ag.answer q d
      ({ ag with
        live := Function.update ag.live k (LiveRound.after ev.nowTouched (ag.live k) a)
        packetsIn := ag.packetsIn + 1
        packetsOut :=
          if (finished a.1).isSome ∧ ev.sendOk then ag.packetsOut + 1 else ag.packetsOut },
        answerVerdict (a.1.map Round.tally), (finished a.1).map fun r => (k, r))

/-- One iteration. -/
noncomputable def step (args : Args) (ag : Aggregator) (ev : Event) : Aggregator × Ruling :=
  let (ag, evicted) := ag.sweep args ev
  let (ag, verdict, sent) := ag.receive args.gJobQuota ev
  (ag, ⟨evicted, verdict, sent⟩)

end Aggregator

/-! ## Representation -/

/-- The tables hold the live keys, each once, with the tally of its round and the time of its last
contribution. -/
structure Tables.Represents (t : Tables) (live : GradSlotKey → Option LiveRound) : Prop where
  shows : ∀ k, t.Shows k ((live k).map fun r => r.round.tally)
  touched : ∀ i k r, t.occ i = some k → live k = some r → (t.gSlots i).lastTouchedMicros = r.touched

/-- The main loop is where the aggregator is. -/
structure Represents (st : State) (ag : Aggregator) : Prop where
  tables : st.tables.Represents ag.live
  lastReap_eq : st.lastReapMicros = ag.lastReap
  packetsIn_eq : st.packetsIn = ag.packetsIn
  packetsOut_eq : st.packetsOut = ag.packetsOut

/-- An iteration shows what was ruled: it reaps the slots of the evicted keys, leaves by the same
exit, and sends the sums of the round. -/
structure Obeys (t : Tables) (o : Output) (ruling : Ruling) : Prop where
  reaped : ∀ k, (∃ i ∈ o.reaped, t.occ i = some k) ↔ k ∈ ruling.evicted
  verdict_eq : o.verdict = ruling.verdict
  sent_none : ruling.sent = none → o.sent = none
  sent_some : ∀ k r, ruling.sent = some (k, r) → ∃ p, o.sent = some p ∧ EmittedFor p k r.tally

section

variable {t : Tables} {live : GradSlotKey → Option LiveRound} {ag : Aggregator} {st : State}
  {args : Args} {ev : Event} {k : GradSlotKey} {q : ℤ}

namespace Tables.Represents

theorem live_of_occ (h : t.Represents live) {i : SlotIdx} (hi : t.occ i = some k) :
    ∃ r, live k = some r ∧ UniqueAt t.occ k ∧ (t.gSlots i).tally = r.round.tally := by
  have hshow := h.shows k
  generalize hT : ((live k).map fun r => r.round.tally) = T? at hshow
  cases hshow with
  | absent habs => exact absurd hi (habs i)
  | live j hocc huniq =>
    obtain ⟨r, hr, htally⟩ := Option.map_eq_some_iff.mp hT
    obtain rfl := huniq j i hocc hi
    exact ⟨r, hr, huniq, htally.symm⟩

theorem isSome_iff (h : t.Represents live) : (live k).isSome ↔ ∃ i, t.occ i = some k := by
  constructor
  · intro hsome
    have hshow := h.shows k
    generalize hT : ((live k).map fun r => r.round.tally) = T? at hshow
    cases hshow with
    | absent habs =>
      rw [Option.map_eq_none_iff] at hT
      rw [hT] at hsome
      cases hsome
    | live i hocc huniq => exact ⟨i, hocc⟩
  · rintro ⟨i, hi⟩
    obtain ⟨r, hr, -⟩ := h.live_of_occ hi
    rw [hr]
    rfl

theorem unique (h : t.Represents live) : Unique t.occ := by
  intro k i j hi hj
  obtain ⟨-, -, huniq, -⟩ := h.live_of_occ hi
  exact huniq i j hi hj

/-- There is a free entry while less than 65536 keys are live. -/
theorem hasRoom_iff (h : t.Represents live) :
    t.HasRoom ↔ Set.ncard {k | (live k).isSome} < slotTableCapacity := by
  rw [Tables.HasRoom, exists_free_iff, ← ncard_keys h.unique]
  simp only [h.isSome_iff, true_and]

/-- A job has as many slots as live keys. -/
theorem card_slotsOf (h : t.Represents ag.live) (jobId : BitVec 32) :
    (slotsOf t.occ jobId).card = (ag.keysOf jobId).ncard := by
  rw [slotsOf, ← ncard_keys h.unique, Aggregator.keysOf]
  simp only [h.isSome_iff, beq_iff_eq]

end Tables.Represents

/-! ## The sweep -/

theorem occ_reapExpiredSlots (slotTtlMs now : ℤ) (t : Tables) (i : SlotIdx) :
    (reapExpiredSlots slotTtlMs now t).1.occ i
      = if (t.gSlots i).Expired (slotTtlMs * 1000) now then none else t.occ i := by
  have hslot := reapExpiredSlots_gSlots slotTtlMs now t i
  generalize (reapExpiredSlots slotTtlMs now t).1 = t' at hslot ⊢
  rw [Tables.occ, hslot]
  split
  · exact Slot.occupant_eq_none.mpr rfl
  · rfl

/-- A slot in use has expired if its key's round was silent for the TTL. -/
theorem Tables.Represents.expired_iff (h : t.Represents live) {i : SlotIdx} {r : LiveRound}
    (hi : t.occ i = some k) (hr : live k = some r) (ttlMicros now : ℤ) :
    (t.gSlots i).Expired ttlMicros now ↔ ttlMicros ≤ now - r.touched := by
  rw [Slot.Expired, ← h.touched i k r hi hr]
  exact and_iff_right (Slot.occupant_eq_some.mp hi).1

/-- **The sweep** forgets the rounds whose slots it clears. -/
theorem Tables.Represents.reap (h : t.Represents live) (slotTtlMs now : ℤ) :
    (reapExpiredSlots slotTtlMs now t).1.Represents fun k =>
      (live k).filter fun r => decide (now - r.touched < slotTtlMs * 1000) := by
  have hocc := occ_reapExpiredSlots slotTtlMs now t
  have hslot := reapExpiredSlots_gSlots slotTtlMs now t
  generalize (reapExpiredSlots slotTtlMs now t).1 = t' at hocc hslot ⊢
  have hbefore : ∀ i k, t'.occ i = some k →
      ¬ (t.gSlots i).Expired (slotTtlMs * 1000) now ∧ t.occ i = some k := by
    intro i k hi
    rw [hocc] at hi
    split at hi
    · cases hi
    · next hexp => exact ⟨hexp, hi⟩
  refine ⟨fun k => ?_, fun i k r hi hr => ?_⟩
  · cases hlive : live k with
    | none =>
      refine .absent fun i hi => ?_
      obtain ⟨r, hr, -⟩ := h.live_of_occ (hbefore i k hi).2
      rw [hlive] at hr
      cases hr
    | some r =>
      obtain ⟨i, hi⟩ := h.isSome_iff.mp (by rw [hlive]; rfl)
      obtain ⟨r', hr', huniq, htally⟩ := h.live_of_occ hi
      obtain rfl := Option.some.inj (hlive.symm.trans hr')
      by_cases hexp : (t.gSlots i).Expired (slotTtlMs * 1000) now
      · have hsilent := (h.expired_iff hi hlive _ _).mp hexp
        rw [Option.filter_some_neg (by simpa using hsilent)]
        refine .absent fun j hj => ?_
        obtain ⟨hkept, hj⟩ := hbefore j k hj
        exact hkept (huniq i j hi hj ▸ hexp)
      · have hsilent := (h.expired_iff hi hlive _ _).not.mp hexp
        rw [Option.filter_some_pos (by simpa using hsilent), Option.map_some, ← htally]
        have hsame : t'.gSlots i = t.gSlots i := (hslot i).trans (if_neg hexp)
        rw [← hsame]
        refine .live i ((hocc i).trans ((if_neg hexp).trans hi)) fun a b ha hb => ?_
        exact huniq a b (hbefore a k ha).2 (hbefore b k hb).2
  · obtain ⟨hkept, hi⟩ := hbefore i k hi
    rw [hslot, if_neg hkept]
    exact h.touched i k r hi (Option.filter_eq_some_iff.mp hr).1

/-- The reaper phase is the sweep. -/
theorem Represents.reapPhase (h : Represents st ag) :
    Represents (reapPhase args st ev).1 (ag.sweep args ev).1
      ∧ ∀ k, (∃ i ∈ (UserspaceAgg.reapPhase args st ev).2, st.tables.occ i = some k)
        ↔ k ∈ (ag.sweep args ev).2 := by
  by_cases hdue : 0 < args.slotTtlMs ∧ ev.nowLoop - st.lastReapMicros ≥ args.reapIntervalMicros
  · have hdue' : ag.Due args ev := by
      rwa [Aggregator.Due, ← h.lastReap_eq]
    obtain ⟨r, hr, hphase⟩ := reapPhase_of_due hdue
    have hmem := mem_reapExpiredSlots args.slotTtlMs ev.nowReap st.tables
    have hrep := h.tables.reap args.slotTtlMs ev.nowReap
    rw [← hr] at hmem hrep
    rw [hphase, Aggregator.sweep, if_pos hdue']
    refine ⟨⟨hrep, rfl, h.packetsIn_eq, h.packetsOut_eq⟩, fun k => ?_⟩
    constructor
    · rintro ⟨i, hi, hk⟩
      obtain ⟨lr, hlr, -⟩ := h.tables.live_of_occ hk
      exact ⟨lr, hlr, (h.tables.expired_iff hk hlr _ _).mp ((hmem i).mp hi)⟩
    · rintro ⟨lr, hlr, hsilent⟩
      obtain ⟨i, hi⟩ := h.tables.isSome_iff.mp (by rw [hlr]; rfl)
      exact ⟨i, (hmem i).mpr ((h.tables.expired_iff hi hlr _ _).mpr hsilent), hi⟩
  · have hdue' : ¬ ag.Due args ev := by
      rwa [Aggregator.Due, ← h.lastReap_eq]
    rw [reapPhase_of_not_due hdue, Aggregator.sweep, if_neg hdue']
    exact ⟨h, fun k => by simp⟩

/-! ## The datagram -/

/-- A slot in use is touched when a datagram is absorbed into it, and only then. -/
theorem Effect.touched {t' : Tables} {v : Verdict} {slot : Option SlotIdx} {sent : Option Bytes}
    (h : Effect q ev t t' v slot sent) {d : Bytes} (hrecv : ev.received = some d) {i : SlotIdx}
    (hi : t'.occ i = some k) :
    (k = (GradHdr.decode d).key ∧ v = .absorbed ∧ slot = some i
      ∧ (t'.gSlots i).lastTouchedMicros = ev.nowTouched)
    ∨ t.occ i = some k ∧ t'.gSlots i = t.gSlots i ∧ ¬ (v = .absorbed ∧ slot = some i) := by
  rcases h.slot_cases i with ⟨hsame, hnot⟩ | ⟨d', s, g, hr, -, hacc, hslot, hcase⟩
  · refine .inr ⟨?_, hsame, fun hv => hnot ⟨hv.2, .inl hv.1⟩⟩
    rwa [Tables.occ, hsame] at hi
  · obtain rfl := received_unique hrecv hr
    rcases hcase with ⟨rfl, hs, -⟩ | ⟨-, hs, -⟩
    · rw [Tables.occ, hs, hacc.occupant.1, Option.some.injEq] at hi
      exact .inl ⟨hi.symm, rfl, hslot, hs ▸ hacc.lastTouched⟩
    · rw [Tables.occ, hs, Slot.occupant_eq_none.mpr rfl] at hi
      cases hi

/-- A datagram that is absorbed leaves its key in use at the slot it was looked up in. -/
theorem Effect.occ_of_absorbed {t' : Tables} {v : Verdict} {slot : Option SlotIdx}
    {sent : Option Bytes} (h : Effect q ev t t' v slot sent) {d : Bytes}
    (hrecv : ev.received = some d) (hv : v = .absorbed) :
    ∃ i, slot = some i ∧ t'.occ i = some (GradHdr.decode d).key := by
  cases h with
  | screened hr hscreen =>
    rcases screen_verdict hscreen with rfl | rfl | rfl | rfl | rfl <;> cases hv
  | @absorbed d' i s g hr hd hacc hlt =>
    obtain rfl := received_unique hrecv hr
    refine ⟨i, rfl, ?_⟩
    rw [occ_update, Function.update_self, hacc.occupant.1]
  | idle | full | refused | mismatch | duplicate | complete => cases hv

theorem answerVerdict_eq_absorbed {a : Answer Tally} :
    answerVerdict a = .absorbed ↔ a = .absorbed := by
  cases a with
  | absorbed => exact iff_of_true rfl rfl
  | refused | mismatch | duplicate | complete => exact iff_of_false nofun nofun

theorem map_eq_absorbed {a : Answer Round} : a.map Round.tally = .absorbed ↔ a = .absorbed := by
  cases a with
  | absorbed => exact iff_of_true rfl rfl
  | refused | mismatch | duplicate | complete => exact iff_of_false nofun nofun

/-- The round that a key is left with. -/
theorem round_after {mayOpen : Bool} {d : Bytes} (now : ℤ) (r? : Option LiveRound) :
    ((LiveRound.after now r? (Round.respond mayOpen d (r?.map LiveRound.round))).map
        LiveRound.round)
      = (Round.respond mayOpen d (r?.map LiveRound.round)).2 := by
  have hsettle : ∀ r : Round, (LiveRound.after now r? r.settle).map LiveRound.round
      = r.settle.2 := by
    intro r
    unfold Round.settle
    split <;> rfl
  cases r? with
  | none =>
    rw [Option.map_none, Round.respond]
    split
    · exact hsettle _
    · rfl
  | some lr =>
    rw [Option.map_some, Round.respond]
    split
    · rfl
    · split
      · rfl
      · exact hsettle _

/-- The time that a key is left with. -/
theorem touched_after {a : Answer Round × Option Round} {now : ℤ} {r? : Option LiveRound}
    {r : LiveRound} (h : LiveRound.after now r? a = some r) :
    a.1 = .absorbed ∧ r.touched = now ∨ a.1 ≠ .absorbed ∧ r? = some r := by
  obtain ⟨a, r'⟩ := a
  cases a with
  | absorbed =>
    obtain ⟨r', rfl, rfl⟩ := Option.map_eq_some_iff.mp h
    exact .inl ⟨rfl, rfl⟩
  | complete => cases h
  | refused | mismatch | duplicate => exact .inr ⟨nofun, h⟩

/-- A new key is admitted when there is room for it and the quota admits it, if its job fits into
the job table. -/
theorem Tables.Represents.admits_iff (h : t.Represents ag.live) (hq : q < 2 ^ 32)
    {jobId : BitVec 32} (hfits : JobFits t.gJobs jobId) :
    ag.Admits q jobId ↔ t.HasRoom ∧ QuotaAdmits q t jobId := by
  rw [Aggregator.Admits, ← h.hasRoom_iff, QuotaAdmits, h.card_slotsOf]
  have hmod : 0 ≤ q → q % 2 ^ 32 = q := fun hpos => Int.emod_eq_of_lt hpos hq
  refine and_congr_right fun _ => ?_
  constructor
  · rintro (hq' | hlt)
    · exact .inl hq'
    · rw [hmod (by omega)]
      exact .inr (.inr hlt)
  · rintro (hq' | hno | hlt)
    · exact .inl hq'
    · exact absurd hfits hno
    · rcases le_or_gt q 0 with hq' | hq'
      · exact .inl hq'
      · rw [hmod hq'.le] at hlt
        exact .inr hlt

/-- A datagram that finds its key intact is answered as by the key's machine, which may open it if
there is room and the quota admits it. -/
theorem Effect.respond_of_admits {t' : Tables} {v : Verdict} {slot : Option SlotIdx}
    {sent : Option Bytes} (heff : Effect q ev t t' v slot sent) (hok : t.Ok) (hacct : t.Accounted)
    {d : Bytes} (hrecv : ev.received = some d) (hd : WellFormed d) {T? : Option Tally}
    (hshow : t.Shows (GradHdr.decode d).key T?)
    (hint : Intact (slotSeq (GradHdr.decode d).key) t.occ (GradHdr.decode d).key) {mayOpen : Bool}
    (hopen : T? = none →
      (mayOpen = true ↔ t.HasRoom ∧ QuotaAdmits q t (GradHdr.decode d).jobId)) :
    t'.Shows (GradHdr.decode d).key (Aggregation.respond mayOpen d T?).2
      ∧ v = answerVerdict (Aggregation.respond mayOpen d T?).1
      ∧ SentWith (GradHdr.decode d).key sent (Aggregation.respond mayOpen d T?).1 := by
  classical
  cases T? with
  | some T =>
    -- whether the key may be opened does not matter
    obtain ⟨hshow', hv, hsent, -⟩ := heff.respond hok hacct hrecv hd hshow hint nofun
      decide_eq_true_iff
    exact ⟨hshow', hv, hsent⟩
  | none =>
    by_cases hroom : t.HasRoom
    · have hadm := (hopen rfl).trans (and_iff_right hroom)
      obtain ⟨hshow', hv, hsent, -⟩ := heff.respond hok hacct hrecv hd hshow hint
        (fun _ => hroom) hadm
      exact ⟨hshow', hv, hsent⟩
    · have hno : mayOpen = false := Bool.eq_false_iff.mpr fun hyes => hroom ((hopen rfl).mp hyes).1
      have habs : ∀ i, t.occ i ≠ some (GradHdr.decode d).key := by
        cases hshow with
        | absent habs => exact habs
      obtain ⟨rfl, rfl, rfl⟩ := heff.of_full hrecv hd habs hroom
      rw [hno]
      exact ⟨.absent habs, rfl, rfl⟩

/-- **A datagram** that finds its key intact is answered as the aggregator answers it. -/
theorem Tables.Represents.respond (h : t.Represents ag.live) (hok : t.Ok) (hacct : t.Accounted)
    (hq : q < 2 ^ 32) {t' : Tables} {v : Verdict} {slot : Option SlotIdx} {sent : Option Bytes}
    (heff : Effect q ev t t' v slot sent) {d : Bytes} (hrecv : ev.received = some d)
    (hd : WellFormed d) (hfits : JobFits t.gJobs (GradHdr.decode d).jobId)
    (hint : Intact (slotSeq (GradHdr.decode d).key) t.occ (GradHdr.decode d).key) :
    t'.Shows (GradHdr.decode d).key ((ag.answer q d).2.map Round.tally)
      ∧ v = answerVerdict ((ag.answer q d).1.map Round.tally)
      ∧ SentWith (GradHdr.decode d).key sent ((ag.answer q d).1.map Round.tally) := by
  classical
  have htally : Aggregation.respond (decide (ag.Admits q (GradHdr.decode d).jobId)) d
        ((ag.live (GradHdr.decode d).key).map fun r => r.round.tally)
      = ((ag.answer q d).1.map Round.tally, (ag.answer q d).2.map Round.tally) :=
    (congrArg _ (Option.map_map _ _ _).symm).trans (Round.respond_tally _ d _)
  have hans := heff.respond_of_admits hok hacct hrecv hd (h.shows _) hint fun _ =>
    decide_eq_true_iff.trans (h.admits_iff hq hfits)
  rwa [htally] at hans

/-- And the tables are left with its rounds. -/
theorem Tables.Represents.receive (h : t.Represents ag.live) (hok : t.Ok) (hacct : t.Accounted)
    (hq : q < 2 ^ 32) {t' : Tables} {v : Verdict} {slot : Option SlotIdx} {sent : Option Bytes}
    (heff : Effect q ev t t' v slot sent) {d : Bytes} (hrecv : ev.received = some d)
    (hd : WellFormed d) (hfits : JobFits t.gJobs (GradHdr.decode d).jobId)
    (hint : Intact (slotSeq (GradHdr.decode d).key) t.occ (GradHdr.decode d).key) :
    t'.Represents (Function.update ag.live (GradHdr.decode d).key
      (LiveRound.after ev.nowTouched (ag.live (GradHdr.decode d).key) (ag.answer q d))) := by
  obtain ⟨hshow, hv, -⟩ := h.respond hok hacct hq heff hrecv hd hfits hint
  have hround : (LiveRound.after ev.nowTouched (ag.live (GradHdr.decode d).key)
      (ag.answer q d)).map LiveRound.round = (ag.answer q d).2 := round_after _ _
  refine ⟨fun k => ?_, fun i k r hi hr => ?_⟩
  · by_cases hk : k = (GradHdr.decode d).key
    · subst hk
      rw [Function.update_self]
      rwa [← hround, Option.map_map] at hshow
    · rw [Function.update_of_ne hk]
      refine (h.shows k).frame (heff.frame fun d' hd' => ?_).1
      rw [received_unique hrecv hd']
      exact Ne.symm hk
  · rcases heff.touched hrecv hi with ⟨rfl, rfl, -, htouched⟩ | ⟨hi', hsame, hnot⟩
    · rw [Function.update_self] at hr
      rcases touched_after hr with ⟨-, hr⟩ | ⟨hne, -⟩
      · rw [htouched, hr]
      · exact absurd (map_eq_absorbed.mp (answerVerdict_eq_absorbed.mp hv.symm)) hne
    · rw [hsame]
      by_cases hk : k = (GradHdr.decode d).key
      · subst hk
        rw [Function.update_self] at hr
        rcases touched_after hr with ⟨habs, -⟩ | ⟨-, hr⟩
        · -- the datagram was absorbed, so this is the slot it was absorbed into
          rw [habs] at hv
          obtain ⟨j, hslot, hj⟩ := heff.occ_of_absorbed hrecv hv
          have hij : i = j := by
            cases hshow' : (ag.answer q d).2.map Round.tally with
            | none =>
              rw [hshow'] at hshow
              cases hshow with
              | absent habs => exact absurd hi (habs i)
            | some T =>
              rw [hshow'] at hshow
              cases hshow with
              | live a hocc huniq => exact huniq i j hi hj
          exact absurd ⟨hv, hij ▸ hslot⟩ hnot
        · exact h.touched i _ r hi' hr
      · rw [Function.update_of_ne hk] at hr
        exact h.touched i k r hi' hr

/-! ## One iteration -/

/-- A packet that is sent is counted. -/
theorem emitPhase_counts (st : State) (ev : Event) (hdr : GradHdr)
    (r : Tables × Verdict × Option SlotIdx) :
    (emitPhase st ev hdr r).1.lastReapMicros = st.lastReapMicros
      ∧ (emitPhase st ev hdr r).1.packetsIn = st.packetsIn
      ∧ (emitPhase st ev hdr r).1.packetsOut
        = if (emitPhase st ev hdr r).2.2.2.isSome ∧ ev.sendOk then st.packetsOut + 1
          else st.packetsOut := by
  unfold emitPhase
  split
  · exact ⟨rfl, rfl, by simp⟩
  · exact ⟨rfl, rfl, (if_neg fun h => Bool.false_ne_true h.1).symm⟩

/-- **The receive phase.** -/
theorem Represents.receivePhase (h : Represents st ag) (hok : st.tables.Ok)
    (hacct : st.tables.Accounted) (hq : args.gJobQuota < 2 ^ 32)
    (hfits : ∀ d, ev.received = some d → WellFormed d →
      JobFits st.tables.gJobs (GradHdr.decode d).jobId)
    (hint : ∀ d, ev.received = some d → WellFormed d →
      Intact (slotSeq (GradHdr.decode d).key) st.tables.occ (GradHdr.decode d).key) :
    let r := UserspaceAgg.receivePhase args st ev
    let a := ag.receive args.gJobQuota ev
    Represents r.1 a.1 ∧ r.2.1 = a.2.1 ∧ (a.2.2 = none → r.2.2.2 = none)
      ∧ ∀ k round, a.2.2 = some (k, round) → ∃ p, r.2.2.2 = some p ∧ EmittedFor p k round.tally := by
  intro r a
  cases hrecv : ev.received with
  | none =>
    have hr : r = (st, .short, none, none) := by
      show UserspaceAgg.receivePhase args st ev = _
      rw [UserspaceAgg.receivePhase, hrecv]
    have ha : a = (ag, .short, none) := by
      show ag.receive args.gJobQuota ev = _
      rw [Aggregator.receive, hrecv]
    rw [hr, ha]
    exact ⟨h, rfl, fun _ => rfl, nofun⟩
  | some d =>
    cases hscreen : screen d with
    | some v =>
      have hr := receivePhase_of_screened args st hrecv hscreen
      have ha : a = ({ ag with packetsIn := if d.length < netsumHdrSize then ag.packetsIn
          else ag.packetsIn + 1 }, v, none) := by
        show ag.receive args.gJobQuota ev = _
        simp only [Aggregator.receive, hrecv, hscreen]
      rw [show r = _ from hr, ha]
      refine ⟨⟨h.tables, h.lastReap_eq, ?_, h.packetsOut_eq⟩, rfl, fun _ => rfl, nofun⟩
      show (if _ then _ else _) = if _ then _ else _
      rw [h.packetsIn_eq]
    | none =>
      have hd := (screen_eq_none d).mp hscreen
      have heff := receivePhase_effect args st ev fun d' _ => hok.started _
      have hcounts := emitPhase_counts
        { st with inPacket := st.inPacket.recvfrom d, packetsIn := st.packetsIn + 1 } ev
        (GradHdr.decode d) (processContribution args.gJobQuota ev st.tables (GradHdr.decode d)
          fun i => ntohl (load32 (st.inPacket.recvfrom d).bytes (netsumHdrSize + 4 * i)))
      have hr := receivePhase_of_wellFormed args st hrecv hd
      rw [slotPhase] at hr
      rw [← hr] at hcounts
      obtain ⟨-, hv, hsent⟩ := h.tables.respond hok hacct hq heff hrecv hd (hfits d hrecv hd)
        (hint d hrecv hd)
      have htables := h.tables.receive hok hacct hq heff hrecv hd (hfits d hrecv hd)
        (hint d hrecv hd)
      have ha : a = ({ ag with
          live := Function.update ag.live (GradHdr.decode d).key (LiveRound.after ev.nowTouched
            (ag.live (GradHdr.decode d).key) (ag.answer args.gJobQuota d))
          packetsIn := ag.packetsIn + 1
          packetsOut :=
            if (finished (ag.answer args.gJobQuota d).1).isSome ∧ ev.sendOk then ag.packetsOut + 1
            else ag.packetsOut },
          answerVerdict ((ag.answer args.gJobQuota d).1.map Round.tally),
          (finished (ag.answer args.gJobQuota d).1).map fun r => ((GradHdr.decode d).key, r)) := by
        show ag.receive args.gJobQuota ev = _
        simp only [Aggregator.receive, hrecv, hscreen]
      -- what is sent is the completed round, if there is one
      have hboth : (finished (ag.answer args.gJobQuota d).1 = none → r.2.2.2 = none)
          ∧ ∀ round, finished (ag.answer args.gJobQuota d).1 = some round →
            ∃ p, r.2.2.2 = some p ∧ EmittedFor p (GradHdr.decode d).key round.tally := by
        cases hans : (ag.answer args.gJobQuota d).1 with
        | complete round =>
          rw [hans] at hsent
          refine ⟨nofun, fun round' hround' => ?_⟩
          obtain rfl := Option.some.inj hround'
          exact hsent
        | refused | mismatch | duplicate | absorbed =>
          rw [hans] at hsent
          exact ⟨fun _ => hsent, nofun⟩
      rw [ha]
      refine ⟨⟨htables, hcounts.1.trans h.lastReap_eq, ?_, ?_⟩, hv, fun hnone => ?_,
        fun k round hround => ?_⟩
      · rw [hcounts.2.1, h.packetsIn_eq]
      · rw [hcounts.2.2, h.packetsOut_eq]
        show (if r.2.2.2.isSome ∧ ev.sendOk then _ else _) = if _ ∧ ev.sendOk then _ else _
        cases hfin : finished (ag.answer args.gJobQuota d).1 with
        | none => rw [hboth.1 hfin]; rfl
        | some round =>
          obtain ⟨p, hp, -⟩ := hboth.2 round hfin
          rw [hp]
          rfl
      · exact hboth.1 (Option.map_eq_none_iff.mp hnone)
      · obtain ⟨round', hround', heq⟩ := Option.map_eq_some_iff.mp hround
        obtain ⟨rfl, rfl⟩ := Prod.mk.inj heq
        exact hboth.2 _ hround'

theorem reapPhase_jobsIn {S : Finset (BitVec 32)} (hacct : st.tables.Accounted)
    (hjobs : st.tables.JobsIn S) : (reapPhase args st ev).1.tables.JobsIn S :=
  (reapPhase_induction (fun t => t.Accounted ∧ t.JobsIn S)
    (fun _ _ hi ht => ⟨ht.1.freeSlot hi, ht.2.freeSlot ht.1 hi⟩) args ⟨hacct, hjobs⟩ ev).2

/-- After the sweep, the datagram finds its key intact. -/
def FindsIntactSwept (args : Args) (st : State) (ev : Event) : Prop :=
  ∀ d, ev.received = some d → WellFormed d →
    Intact (slotSeq (GradHdr.decode d).key) (reapPhase args st ev).1.tables.occ
      (GradHdr.decode d).key

/-- **One iteration.** -/
theorem Represents.step (h : Represents st ag) (hok : st.tables.Ok) (hacct : st.tables.Accounted)
    (hq : args.gJobQuota < 2 ^ 32) {S : Finset (BitVec 32)} (hjobs : st.tables.JobsIn S)
    (hS : S.card ≤ jobTableCapacity)
    (hev : ∀ d, ev.received = some d → netsumHdrSize ≤ d.length → (GradHdr.decode d).jobId ∈ S)
    (hint : FindsIntactSwept args st ev) :
    Represents (mainStep args st ev).1 (ag.step args ev).1
      ∧ Obeys st.tables (mainStep args st ev).2 (ag.step args ev).2 := by
  have hsweep : Represents (UserspaceAgg.reapPhase args st ev).1 (ag.sweep args ev).1 ∧ _ := h.reapPhase
  obtain ⟨hrep, hv, hnone, hsome⟩ := hsweep.1.receivePhase (reapPhase_ok hok ev)
    (reapPhase_accounted args hacct ev) hq
    (fun d hrecv hd => (reapPhase_jobsIn hacct hjobs).jobFits (reapPhase_accounted args hacct ev)
      hS (hev d hrecv hd.hdr_le)) hint
  exact ⟨hrep, hsweep.2, hv, hnone, hsome⟩

/-! ## Counting packets -/

/-- The iteration received a datagram with a header. -/
def Event.HasHeader (ev : Event) : Prop := ∃ d, ev.received = some d ∧ netsumHdrSize ≤ d.length

instance (ev : Event) : Decidable ev.HasHeader :=
  decidable_of_iff (ev.received.any fun d => netsumHdrSize ≤ d.length) (by
    simp [Event.HasHeader, Option.any_eq_true])

/-- A datagram with a header is counted, and so is what it makes the loop send. -/
theorem receivePhase_counts (args : Args) (st : State) (ev : Event) :
    (receivePhase args st ev).1.lastReapMicros = st.lastReapMicros
      ∧ (receivePhase args st ev).1.packetsIn
        = (if ev.HasHeader then st.packetsIn + 1 else st.packetsIn)
      ∧ (receivePhase args st ev).1.packetsOut
        = if (receivePhase args st ev).2.2.2.isSome ∧ ev.sendOk then st.packetsOut + 1
          else st.packetsOut := by
  cases hrecv : ev.received with
  | none =>
    have hno : ¬ ev.HasHeader := by
      rintro ⟨d, hd, -⟩
      rw [hrecv] at hd
      cases hd
    have hr : receivePhase args st ev = (st, .short, none, none) := by
      unfold receivePhase
      rw [hrecv]
    rw [hr, if_neg hno]
    exact ⟨rfl, rfl, (if_neg fun h => Bool.false_ne_true h.1).symm⟩
  | some d =>
    have hheader : ev.HasHeader ↔ netsumHdrSize ≤ d.length := by
      constructor
      · rintro ⟨d', hd', hle⟩
        obtain rfl := Option.some.inj (hrecv.symm.trans hd')
        exact hle
      · exact fun hle => ⟨d, hrecv, hle⟩
    cases hscreen : screen d with
    | some v =>
      rw [receivePhase_of_screened args st hrecv hscreen]
      refine ⟨rfl, ?_, (if_neg fun h => Bool.false_ne_true h.1).symm⟩
      by_cases hshort : d.length < netsumHdrSize
      · rw [if_neg (fun h => not_le.mpr hshort (hheader.mp h))]
        exact if_pos hshort
      · rw [if_pos (hheader.mpr (not_lt.mp hshort))]
        exact if_neg hshort
    | none =>
      have hd := (screen_eq_none d).mp hscreen
      rw [receivePhase_of_wellFormed args st hrecv hd, slotPhase, if_pos (hheader.mpr hd.hdr_le)]
      exact emitPhase_counts _ _ _ _

/-! ## Runs -/

theorem represents_init (inPacket outPacket : Buffer) (now : ℤ) :
    Represents (State.init inPacket outPacket now) (.empty now) := by
  refine ⟨⟨fun k => .absent fun i => ?_, fun i k r _ hr => ?_⟩, rfl, rfl, rfl⟩
  · rw [State.init, occ_zero]
    exact (Option.some_ne_none k).symm
  · cases hr

theorem mainStep_jobsIn {S : Finset (BitVec 32)} (hok : st.tables.Ok)
    (hacct : st.tables.Accounted) (hjobs : st.tables.JobsIn S)
    (hev : ∀ d, ev.received = some d → netsumHdrSize ≤ d.length → (GradHdr.decode d).jobId ∈ S) :
    (mainStep args st ev).1.tables.JobsIn S :=
  (mainStep_effect_of_ok args hok ev).jobsIn (reapPhase_accounted args hacct ev)
    (reapPhase_jobsIn hacct hjobs) hev

end

/-- **The main loop is the abstract aggregator**, reaper and quota included, in every run of at most
256 jobs in which each datagram finds its key intact. A tracked job's counter is the number of its
live keys. -/
theorem loop_represents {args : Args} (hq : args.gJobQuota < 2 ^ 32) (inPacket outPacket : Buffer)
    (now : ℤ) {es : List Event} (hjobs : FewJobs es)
    (hint : StepsMeet (mainStep args) (FindsIntactSwept args) (State.init inPacket outPacket now)
      es) :
    let st := stateAt (mainStep args) (State.init inPacket outPacket now) es
    let ag := stateAt (Aggregator.step args) (.empty now) es
    (∀ T, Represents (st T) (ag T))
    ∧ (∀ T ev, es[T]? = some ev →
      Obeys (st T).tables (mainStep args (st T) ev).2 ((ag T).step args ev).2)
    ∧ ∀ T j, ((st T).tables.gJobs j).inUse = true →
      ((st T).tables.gJobs j).concurrentSlots.toNat
        = ((ag T).keysOf ((st T).tables.gJobs j).jobId).ncard := by
  intro st ag
  obtain ⟨S, hS, hes⟩ := hjobs
  have hsim := run_simulation (mainStep args) (Aggregator.step args)
    (P := fun st ev => FindsIntactSwept args st ev ∧ ∀ d, ev.received = some d →
      netsumHdrSize ≤ d.length → (GradHdr.decode d).jobId ∈ S)
    (fun st ag => st.tables.Ok ∧ st.tables.Accounted ∧ st.tables.JobsIn S ∧ Represents st ag)
    (fun st ag ev hP ⟨hok, hacct, hin, hrep⟩ =>
      ⟨mainStep_ok hok ev,
        (mainStep_effect_of_ok args hok ev).accounted (reapPhase_accounted args hacct ev),
        mainStep_jobsIn hok hacct hin hP.2, (hrep.step hok hacct hq hin hS hP.2 hP.1).1⟩)
    ⟨State.init_ok inPacket outPacket now, Tables.accounted_zero, Tables.jobsIn_zero S,
      represents_init inPacket outPacket now⟩
    (stepsMeet_iff.mpr fun T ev he =>
      ⟨stepsMeet_iff.mp hint T ev he, hes ev (List.mem_of_getElem? he)⟩)
  refine ⟨fun T => (hsim T).2.2.2, fun T ev he => ?_, fun T j hj => ?_⟩
  · obtain ⟨hok, hacct, hin, hrep⟩ := hsim T
    exact (hrep.step hok hacct hq hin hS (hes ev (List.mem_of_getElem? he))
      (stepsMeet_iff.mp hint T ev he)).2
  · obtain ⟨-, hacct, -, hrep⟩ := hsim T
    rw [hacct.count_eq j hj, hrep.tables.card_slotsOf]

/-- A datagram of one worker of two, then silence for longer than the TTL. -/
def silentRun : List Event := [received 1 0 0 5, ⟨100000, 100000, 0, 0, none, true⟩]

theorem silentRun_represents :
    Represents (stateAt (mainStep ⟨1, 40⟩) (State.init .zero .zero 0) silentRun 2)
      (stateAt (Aggregator.step ⟨1, 40⟩) (.empty 0) silentRun 2) := by
  have hint : StepsMeet (mainStep ⟨1, 40⟩) (FindsIntactSwept ⟨1, 40⟩) (State.init .zero .zero 0)
      silentRun := by
    refine ⟨fun d _ _ => ?_, fun d hd => ?_, trivial⟩
    · rw [reapPhase_of_not_due (by decide)]
      exact intact_of_absent fun i => by simp [State.init]
    · cases hd
  exact (loop_represents (by decide) .zero .zero 0
    (fewJobs_of_all {1} (by decide) (by decide +kernel)) hint).1 2

end NetSum.UserspaceAgg
