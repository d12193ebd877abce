import NetSum.UserspaceAgg.MainLoopTheorems

/-!
# Every slot in use holds an open round

The invariant of the slot table. A slot in use is the tally of a round that has started and is
not full (`Slot.Holds`), so its counter never wraps, its fan-in is from 1 to 256 and its worker
marks are the workers counted. Opening, joining, completing, freeing and reaping keep it
(`mainStep_ok`), hence it holds in every state of every run (`ok_stateAt`).
-/

namespace NetSum.UserspaceAgg

open NetSum.Lib NetSum.Protocol NetSum.Aggregation

/-! ## The invariant -/

/-- The slot is the tally of the open round `r`. -/
structure Slot.Holds (s : Slot) (r : Round) : Prop where
  tally_eq : s.tally = r.tally
  started : r.absorbed ≠ []
  not_full : r.absorbed.length < r.fanIn
  fanIn_le : r.fanIn ≤ maxTrackedWorkers
  chunkLen_le : r.chunkLen ≤ netsumMaxChunkLen

/-- Every slot in use holds an open round. -/
def Tables.Ok (t : Tables) : Prop :=
  ∀ i, (t.gSlots i).inUse = true → ∃ r, (t.gSlots i).Holds r

namespace Slot.Holds

variable {s : Slot} {r : Round}

theorem count_eq (h : s.Holds r) : s.contributionsReceived.toNat = r.absorbed.length :=
  congrArg Tally.count h.tally_eq

theorem fanIn_eq (h : s.Holds r) : s.numWorkersExpected.toNat = r.fanIn :=
  congrArg Tally.fanIn h.tally_eq

theorem chunkLen_eq (h : s.Holds r) : s.chunkLen.toNat = r.chunkLen :=
  congrArg Tally.chunkLen h.tally_eq

theorem seen_iff (h : s.Holds r) (w : Fin maxTrackedWorkers) : s.seenWorker w ≠ 0 ↔ r.Has w := by
  have hw : (s.seenWorker w != 0) = decide (r.Has w) :=
    congrFun (congrArg Tally.seen h.tally_eq) w
  rw [← bne_iff_ne, hw, decide_eq_true_iff]

theorem count_ne_zero (h : s.Holds r) : s.contributionsReceived ≠ 0 := by
  intro h0
  have := h.count_eq
  rw [h0] at this
  exact h.started (List.eq_nil_of_length_eq_zero this.symm)

theorem count_lt (h : s.Holds r) : s.contributionsReceived.toNat < maxTrackedWorkers := by
  rw [h.count_eq]
  exact h.not_full.trans_le h.fanIn_le

/-- A round with the same tally is held too. -/
theorem congr_tally (h : s.Holds r) {r' : Round} (htally : s.tally = r'.tally) :
    s.Holds r' := by
  have heq : r.tally = r'.tally := h.tally_eq.symm.trans htally
  have hlen : r.absorbed.length = r'.absorbed.length := congrArg Tally.count heq
  have hfan : r.fanIn = r'.fanIn := congrArg Tally.fanIn heq
  have hchunk : r.chunkLen = r'.chunkLen := congrArg Tally.chunkLen heq
  refine ⟨htally, fun h0 => h.started ?_, ?_, hfan ▸ h.fanIn_le, hchunk ▸ h.chunkLen_le⟩
  · rw [h0] at hlen
    exact List.eq_nil_of_length_eq_zero hlen
  · rw [← hlen, ← hfan]
    exact h.not_full

end Slot.Holds

theorem Tables.ok_zero : Tables.zero.Ok := by
  intro i hi
  cases hi

/-- Something has been counted in every slot in use. -/
theorem Tables.Ok.started {t : Tables} (h : t.Ok) (k : GradSlotKey) : t.Started k := by
  intro i hi
  obtain ⟨r, hr⟩ := h i (Slot.occupant_eq_some.mp hi).1
  exact hr.count_ne_zero

/-! ## Counting a contribution in -/

/-- Joining a slot that holds `r` makes it the tally of `r` with the contribution. -/
theorem tally_joined {s : Slot} {r : Round} (h : s.Holds r) {d : Bytes}
    (hseen : s.seenWorker (Contribution.ofDatagram d).worker = 0) (now : ℤ) :
    ∃ hnot : ¬ r.Has (Contribution.ofDatagram d).worker,
      (s.accumulate (GradHdr.decode d) (valueAt d) now).tally
        = (r.absorb (Contribution.ofDatagram d) hnot).tally := by
  have hnot : ¬ r.Has (Contribution.ofDatagram d).worker := fun hh =>
    (h.seen_iff _).mpr hh hseen
  refine ⟨hnot, ?_⟩
  rw [tally_accumulate now h.count_lt, Round.tally_absorb, h.tally_eq]

/-- A slot just opened is the tally of a round of one contribution. -/
theorem tally_opened (d : Bytes) (now₁ now₂ : ℤ) :
    (((Slot.fresh (GradHdr.decode d).key).latch (GradHdr.decode d) now₁).accumulate
        (GradHdr.decode d) (valueAt d) now₂).tally
      = ((Round.opened (GradHdr.decode d).numWorkers.toNat
          (GradHdr.decode d).chunkLen.toNat).absorb (Contribution.ofDatagram d)
          (Round.not_has_opened _ _ _)).tally := by
  have hzero : ((Slot.fresh (GradHdr.decode d).key).latch (GradHdr.decode d)
      now₁).contributionsReceived = 0 := rfl
  rw [tally_accumulate now₂ (by rw [hzero]; decide), tally_fresh_latch, Round.tally_absorb,
    Round.tally_opened]

/-- The slot a contribution was counted into is the tally of a round that has started and has
no more contributions than its fan-in. -/
theorem Accepts.round {q : ℤ} {ev : Event} {t : Tables} {d : Bytes} {i : SlotIdx} {s : Slot}
    {g : Jobs} (h : Accepts q ev t d i s g) (hd : WellFormed d) (ht : t.Ok) :
    ∃ r : Round, s.tally = r.tally ∧ r.absorbed ≠ [] ∧ r.absorbed.length ≤ r.fanIn
      ∧ r.fanIn ≤ maxTrackedWorkers ∧ r.chunkLen ≤ netsumMaxChunkLen := by
  cases h with
  | joined hprobe hocc hlen hseen =>
    obtain ⟨r, hr⟩ := ht i (Slot.occupant_eq_some.mp hocc).1
    obtain ⟨hnot, htally⟩ := tally_joined hr hseen ev.nowTouched
    refine ⟨_, htally, by simp [Round.absorb], ?_, hr.fanIn_le, hr.chunkLen_le⟩
    have := hr.not_full
    simp only [Round.absorb, List.length_append, List.length_singleton]
    omega
  | opened hprobe hocc hjobs =>
    exact ⟨_, tally_opened d _ _, by simp [Round.absorb], hd.numWorkers_pos, hd.numWorkers_le,
      hd.chunkLen_le⟩

/-! ## One slot across the receive phase -/

/-- Either nothing is counted into slot `i`, and it stays as it is, or a datagram is, and the
slot is left as accumulated or, when that completes it, freed. -/
theorem Effect.slot_cases {q : ℤ} {ev : Event} {t t' : Tables} {v : Verdict}
    {slot : Option SlotIdx} {sent : Option Bytes} (h : Effect q ev t t' v slot sent)
    (i : SlotIdx) :
    (t'.gSlots i = t.gSlots i ∧ ¬ (slot = some i ∧ (v = .absorbed ∨ v = .complete)))
    ∨ ∃ d s g, ev.received = some d ∧ WellFormed d ∧ Accepts q ev t d i s g ∧ slot = some i
      ∧ ((v = .absorbed ∧ t'.gSlots i = s ∧ s.tally.count < s.tally.fanIn ∧ sent = none)
        ∨ (v = .complete ∧ t'.gSlots i = { s with inUse := false }
          ∧ ¬ s.tally.count < s.tally.fanIn
          ∧ ∃ p, sent = some p ∧ EmittedFor p (GradHdr.decode d).key s.tally)) := by
  cases h with
  | idle hrecv => exact .inl ⟨rfl, by simp⟩
  | @screened d v hrecv hscreen => exact .inl ⟨rfl, by simp⟩
  | full hrecv hd hfull => exact .inl ⟨rfl, by simp⟩
  | refused hrecv hd hprobe hocc hfind hquota => exact .inl ⟨rfl, by simp⟩
  | mismatch hrecv hd hprobe hocc hlen => exact .inl ⟨rfl, by simp⟩
  | duplicate hrecv hd hprobe hocc hlen hseen => exact .inl ⟨rfl, by simp⟩
  | @absorbed d i' s g hrecv hd hacc hlt =>
    by_cases hi : i = i'
    · subst hi
      exact .inr ⟨d, s, g, hrecv, hd, hacc, rfl, .inl ⟨rfl, Function.update_self .., hlt, rfl⟩⟩
    · exact .inl ⟨Function.update_of_ne hi .., fun h => hi (Option.some.inj h.1).symm⟩
  | @complete d i' s g p hrecv hd hacc hge hsent =>
    by_cases hi : i = i'
    · subst hi
      refine .inr ⟨d, s, g, hrecv, hd, hacc, rfl, .inr ⟨rfl, ?_, hge, p, rfl, hsent⟩⟩
      -- the entry is written and freed
      rw [freeSlot_update_gSlots, Function.update_self]
    · refine .inl ⟨?_, fun h => hi (Option.some.inj h.1).symm⟩
      rw [freeSlot_update_gSlots, Function.update_of_ne hi]

/-- Whatever is sent is sent by completing the slot the datagram was counted into. -/
theorem Effect.sent_cases {q : ℤ} {ev : Event} {t t' : Tables} {v : Verdict}
    {slot : Option SlotIdx} {p : Bytes} (h : Effect q ev t t' v slot (some p)) :
    ∃ d i s g, ev.received = some d ∧ WellFormed d ∧ Accepts q ev t d i s g ∧ slot = some i
      ∧ v = .complete ∧ ¬ s.tally.count < s.tally.fanIn
      ∧ EmittedFor p (GradHdr.decode d).key s.tally := by
  cases h with
  | complete hrecv hd hacc hge hsent =>
    exact ⟨_, _, _, _, hrecv, hd, hacc, rfl, rfl, hge, hsent⟩

/-- The slots in use for `k` are the same, with the same contents. -/
def Tables.SameFor (k : GradSlotKey) (t t' : Tables) : Prop :=
  ∀ i, (t'.occ i = some k ↔ t.occ i = some k) ∧ (t.occ i = some k → t'.gSlots i = t.gSlots i)

/-- A datagram of another key, or none, leaves the slots of `k` alone and sends nothing for
`k`. -/
theorem Effect.frame {q : ℤ} {ev : Event} {t t' : Tables} {v : Verdict} {slot : Option SlotIdx}
    {sent : Option Bytes} (h : Effect q ev t t' v slot sent) {k : GradSlotKey}
    (hk : ∀ d, ev.received = some d → (GradHdr.decode d).key ≠ k) :
    t.SameFor k t' ∧ ∀ p, sent = some p → (GradHdr.decode p).key ≠ k := by
  refine ⟨fun i => ?_, ?_⟩
  · rcases h.slot_cases i with ⟨hsame, -⟩ | ⟨d, s, g, hrecv, -, hacc, -, hcase⟩
    · simp only [Tables.occ, hsame, implies_true, and_self]
    · -- the slot was free or held the datagram's key, and holds no other afterwards
      have hne := hk d hrecv
      have hbefore : t.occ i ≠ some k := by
        cases hacc with
        | joined hprobe hocc hlen hseen =>
          rw [hocc]
          exact fun heq => hne (Option.some.inj heq)
        | opened hprobe hocc hjobs =>
          rw [hocc]
          exact (Option.some_ne_none k).symm
      have hafter : t'.occ i ≠ some k := by
        rcases hcase with ⟨-, hs, -⟩ | ⟨-, hs, -⟩
        · rw [Tables.occ, hs, hacc.occupant.1]
          exact fun heq => hne (Option.some.inj heq)
        · rw [Tables.occ, hs, Slot.occupant_eq_none.mpr rfl]
          exact (Option.some_ne_none k).symm
      exact ⟨iff_of_false hafter hbefore, fun h => absurd h hbefore⟩
  · rintro p rfl
    obtain ⟨d, i, s, g, hrecv, -, -, -, -, -, hemit⟩ := h.sent_cases
    rw [hemit.key_eq]
    exact hk d hrecv

/-! ## Steps and runs -/

theorem Tables.Ok.update {t : Tables} (ht : t.Ok) {i : SlotIdx} {s : Slot} {g : Jobs}
    (hs : s.inUse = true → ∃ r, s.Holds r) : Tables.Ok ⟨Function.update t.gSlots i s, g⟩ := by
  intro j hj
  by_cases h : j = i
  · subst h
    simp only [Function.update_self] at hj ⊢
    exact hs hj
  · simp only [Function.update_of_ne h] at hj ⊢
    exact ht j hj

theorem Tables.Ok.freeSlot {t : Tables} (ht : t.Ok) (i : SlotIdx) : (freeSlot t i).Ok := by
  have h := Tables.Ok.update ht (i := i) (s := { t.gSlots i with inUse := false })
    (g := (UserspaceAgg.freeSlot t i).gJobs) (fun hi => by cases hi)
  rwa [← freeSlot_gSlots] at h

theorem Effect.ok {q : ℤ} {ev : Event} {t t' : Tables} {v : Verdict} {slot : Option SlotIdx}
    {sent : Option Bytes} (h : Effect q ev t t' v slot sent) (ht : t.Ok) : t'.Ok := by
  cases h with
  | idle hrecv => exact ht
  | screened hrecv hscreen => exact ht
  | full hrecv hd hfull => exact ht
  | refused hrecv hd hprobe hocc hfind hquota => exact ht
  | mismatch hrecv hd hprobe hocc hlen => exact ht
  | duplicate hrecv hd hprobe hocc hlen hseen => exact ht
  | absorbed hrecv hd hacc hlt =>
    refine ht.update fun _ => ?_
    obtain ⟨r, htally, hne, -, hfan, hlen⟩ := hacc.round hd ht
    rw [htally] at hlt
    exact ⟨r, htally, hne, hlt, hfan, hlen⟩
  | @complete d i s g p hrecv hd hacc hge hsent =>
    -- the slot is written and freed at once
    have hfree := ht.update (i := i) (s := { s with inUse := false })
      (g := (UserspaceAgg.freeSlot ⟨Function.update t.gSlots i s, g⟩ i).gJobs)
      (fun hi => by cases hi)
    rwa [← freeSlot_update_gSlots] at hfree

theorem reapPhase_ok {args : Args} {st : State} (h : st.tables.Ok) (ev : Event) :
    (reapPhase args st ev).1.tables.Ok :=
  reapPhase_induction Tables.Ok (fun _ i _ ht => ht.freeSlot i) args h ev

/-- The inversion of an iteration that starts from tables that keep the invariant. -/
theorem mainStep_effect_of_ok (args : Args) {st : State} (h : st.tables.Ok) (ev : Event) :
    Effect args.gJobQuota ev (reapPhase args st ev).1.tables (mainStep args st ev).1.tables
      (mainStep args st ev).2.verdict (mainStep args st ev).2.slot
      (mainStep args st ev).2.sent :=
  mainStep_effect args st ev fun _ _ => (reapPhase_ok h ev).started _

theorem mainStep_ok {args : Args} {st : State} (h : st.tables.Ok) (ev : Event) :
    (mainStep args st ev).1.tables.Ok :=
  (mainStep_effect_of_ok args h ev).ok (reapPhase_ok h ev)

/-- In every state of every run, every slot in use holds an open round. -/
theorem ok_stateAt (args : Args) {st : State} (h : st.tables.Ok) (es : List Event) (T : ℕ) :
    (stateAt (mainStep args) st es T).tables.Ok :=
  runState_invariant_of_forall (fun st : State => st.tables.Ok) (fun _ ev hst => mainStep_ok hst ev)
    (es.take T) h

theorem State.init_ok (inPacket outPacket : Buffer) (now : ℤ) :
    (State.init inPacket outPacket now).tables.Ok := Tables.ok_zero

end NetSum.UserspaceAgg
