import NetSum.ParamServer.ServerTheorems

/-!
# Invariants of the parameter server

A slot in use is the tally of a round that has started (`Slot.Holds`), so it counts every worker
at most once and its counter never wraps. No slot is ever freed, so the probe chains stay
unbroken (`Slots.Keyed`): a key has one entry, every search for it ends there, and the entry
completes at most once (`completes_at_most_once`).
-/

namespace NetSum.ParamServer

open NetSum.Lib NetSum.Protocol NetSum.Aggregation
open UserspaceAgg (SlotIdx slotTableCapacity Buffer covers_slotSeq)

/-! ## Slots hold rounds -/

/-- The slot is the tally of the round `r`, which has started. -/
structure Slot.Holds (s : Slot) (r : Round) : Prop where
  tally_eq : s.tally = r.tally
  started : r.absorbed ≠ []
  chunkLen_le : r.chunkLen ≤ netsumMaxChunkLen

/-- Every slot in use holds a round. -/
def Slots.Ok (t : Slots) : Prop := ∀ i, (t i).inUse = true → ∃ r, (t i).Holds r

theorem Slot.Holds.count_eq {s : Slot} {r : Round} (h : s.Holds r) :
    s.contributionsReceived.toNat = r.absorbed.length := congrArg Tally.count h.tally_eq

theorem Slot.Holds.seen_iff {s : Slot} {r : Round} (h : s.Holds r) (w : Fin maxTrackedWorkers) :
    s.seenWorker w ≠ 0 ↔ r.Has w := by
  have hw : (s.seenWorker w != 0) = decide (r.Has w) :=
    congrFun (congrArg Tally.seen h.tally_eq) w
  rw [← bne_iff_ne, hw, decide_eq_true_iff]

theorem Slots.Ok.started {t : Slots} (h : Slots.Ok t) : Slots.Started t := by
  intro i hi h0
  obtain ⟨r, hr⟩ := h i hi
  have hcount := hr.count_eq
  rw [h0] at hcount
  exact hr.started (List.eq_nil_of_length_eq_zero hcount.symm)

section

variable {mode : Mode} {ev : Event} {values : ℕ → BitVec 32} {packet : Buffer} {t t' : Slots}
  {d : Bytes} {i : SlotIdx} {s : Slot} {v : Verdict} {slot : Option SlotIdx} {k : GradSlotKey}

/-- A slot that was joined, before and after. -/
theorem tally_joined (ht : Slots.Ok t) (hocc : Slots.occ t i = some k)
    (hseen : (t i).seenWorker (contributionOf d values).worker = 0) :
    (t i).contributionsReceived.toNat < maxTrackedWorkers
      ∧ ((t i).accumulate (GradHdr.decode d) values).tally
        = (t i).tally.absorb (contributionOf d values) := by
  obtain ⟨r, hr⟩ := ht i (Slot.occupant_eq_some.mp hocc).1
  have hnot : ¬ r.Has (contributionOf d values).worker := fun hh => (hr.seen_iff _).mpr hh hseen
  have hlt : (t i).contributionsReceived.toNat < maxTrackedWorkers := by
    rw [hr.count_eq]
    exact r.length_lt hnot
  exact ⟨hlt, tally_accumulate values hlt⟩

/-- A slot that was opened, after its first contribution. -/
theorem tally_opened (mode : Mode) (d : Bytes) (values : ℕ → BitVec 32) (now : ℤ) :
    (((Slot.fresh (GradHdr.decode d).key).latch mode (GradHdr.decode d) now).accumulate
        (GradHdr.decode d) values).tally
      = (Tally.opened (mode.fanIn (GradHdr.decode d)) (GradHdr.decode d).chunkLen.toNat).absorb
        (contributionOf d values) := by
  have hzero : ((Slot.fresh (GradHdr.decode d).key).latch mode (GradHdr.decode d)
      now).contributionsReceived.toNat < maxTrackedWorkers := by
    have h0 : ((Slot.fresh (GradHdr.decode d).key).latch mode (GradHdr.decode d)
      now).contributionsReceived = 0 := rfl
    rw [h0]
    decide
  rw [tally_accumulate values hzero, tally_fresh_latch]

/-- The slot a datagram was counted into holds a round. -/
theorem Accepts.holds (h : Accepts mode ev values t d i s) (hd : Readable d) (ht : Slots.Ok t) :
    ∃ r, s.Holds r := by
  cases h with
  | joined hprobe hocc hseen =>
    obtain ⟨r, hr⟩ := ht i (Slot.occupant_eq_some.mp hocc).1
    have hnot : ¬ r.Has (contributionOf d values).worker := fun hh => (hr.seen_iff _).mpr hh hseen
    refine ⟨r.absorb _ hnot, ?_, by simp [Round.absorb], hr.chunkLen_le⟩
    rw [(tally_joined ht hocc hseen).2, hr.tally_eq, Round.tally_absorb]
  | opened hprobe hocc =>
    refine ⟨(Round.opened (mode.fanIn (GradHdr.decode d)) (GradHdr.decode d).chunkLen.toNat).absorb
      (contributionOf d values) (Round.not_has_opened _ _ _), ?_, by simp [Round.absorb],
      hd.chunkLen_le⟩
    rw [tally_opened, Round.tally_absorb, Round.tally_opened]

theorem Effect.ok (h : Effect mode ev packet t t' v slot) (ht : Slots.Ok t) : Slots.Ok t' := by
  cases h with
  | idle hrecv => exact ht
  | screened hrecv hscreen => exact ht
  | full hrecv hd hfull => exact ht
  | duplicate hrecv hd hprobe hocc hseen => exact ht
  | @counted d i s hrecv hd hacc =>
    intro j hj
    by_cases hji : j = i
    · subst hji
      rw [Function.update_self]
      obtain ⟨r, hr⟩ := hacc.holds hd ht
      exact ⟨r, (tally_settle s _).trans hr.tally_eq, hr.started, hr.chunkLen_le⟩
    · rw [Function.update_of_ne hji] at hj ⊢
      exact ht j hj

/-! ## Keys -/

/-- Every key is held once, and no free entry lies ahead of it. -/
structure Slots.Keyed (t : Slots) : Prop where
  chained : Chained slotSeq (Slots.occ t)
  unique : Unique (Slots.occ t)

theorem Effect.keyed (h : Effect mode ev packet t t' v slot) (ht : Slots.Keyed t) :
    Slots.Keyed t' := by
  cases h with
  | idle hrecv => exact ht
  | screened hrecv hscreen => exact ht
  | full hrecv hd hfull => exact ht
  | duplicate hrecv hd hprobe hocc hseen => exact ht
  | @counted d i s hrecv hd hacc =>
    have hocc' : Slots.occ (Function.update t i (s.settle ev.nowCompleted).1)
        = Function.update (Slots.occ t) i (some (GradHdr.decode d).key) := by
      rw [occ_update, occupant_settle, hacc.occupant]
    cases hacc with
    | joined hprobe hocc hseen =>
      rw [← hocc, Function.update_eq_self] at hocc'
      exact ⟨hocc' ▸ ht.chained, hocc' ▸ ht.unique⟩
    | opened hprobe hocc =>
      exact ⟨hocc' ▸ ht.chained.insert (covers_slotSeq _) hprobe,
        hocc' ▸ ht.unique.insert (covers_slotSeq _) (ht.chained _) hprobe hocc⟩

/-- A key keeps its entry. -/
theorem Effect.occ_kept (h : Effect mode ev packet t t' v slot)
    (hi : Slots.occ t i = some k) : Slots.occ t' i = some k := by
  cases h with
  | idle hrecv => exact hi
  | screened hrecv hscreen => exact hi
  | full hrecv hd hfull => exact hi
  | duplicate hrecv hd hprobe hocc hseen => exact hi
  | @counted d j s hrecv hd hacc =>
    rw [occ_update, occupant_settle, hacc.occupant]
    by_cases hij : i = j
    · subst hij
      rw [Function.update_self]
      cases hacc with
      | joined hprobe hocc hseen => exact hocc.symm.trans hi
      | opened hprobe hocc => rw [hocc] at hi; cases hi
    · rwa [Function.update_of_ne hij]

/-- A key that has an entry is found there. -/
theorem Slots.Keyed.find (ht : Slots.Keyed t) (hi : Slots.occ t i = some k) :
    findOrCreateSlot t k = (t, some i) := by
  have hprobe := probe_of_intact (covers_slotSeq k) (ht.chained k) (ht.unique k) hi
  rcases findOrCreateSlot_cases t k with ⟨-, hfull⟩ | ⟨j, hp, ⟨-, h⟩ | ⟨hfree, -⟩⟩
  · exact absurd hi (hfull i).2
  · obtain rfl := Option.some.inj (hprobe.symm.trans hp)
    exact h
  · obtain rfl := Option.some.inj (hprobe.symm.trans hp)
    rw [hi] at hfree
    cases hfree

/-- In a full table a key without an entry is refused. -/
theorem find_of_full (hfull : ∀ i, Slots.occ t i ≠ none) (habs : ∀ i, Slots.occ t i ≠ some k) :
    findOrCreateSlot t k = (t, none) := by
  rcases findOrCreateSlot_cases t k with ⟨h, -⟩ | ⟨j, -, ⟨hocc, -⟩ | ⟨hfree, -⟩⟩
  · exact h
  · exact absurd hocc (habs j)
  · exact absurd hfree (hfull j)

/-! ## Completion -/

/-- The slot has all the contributions it expects. -/
def Slot.Done (s : Slot) : Prop := s.numWorkersExpected.toNat ≤ s.contributionsReceived.toNat

theorem settle_done {s : Slot} {now : ℤ} (h : (s.settle now).2 = .complete) :
    s.contributionsReceived = s.numWorkersExpected := by
  unfold Slot.settle at h
  split at h
  · next hdone => exact hdone.1
  · cases h

@[simp] theorem done_settle (s : Slot) (now : ℤ) : (s.settle now).1.Done ↔ s.Done := by
  obtain ⟨c, h⟩ := settle_fst s now
  rw [h]
  rfl

/-- A done slot that is joined is still done, and not completed. -/
theorem Slot.Done.accumulate {values : ℕ → BitVec 32} (h : (t i).Done) (ht : Slots.Ok t)
    (hocc : Slots.occ t i = some k)
    (hseen : (t i).seenWorker (contributionOf d values).worker = 0) :
    ((t i).accumulate (GradHdr.decode d) values).Done
      ∧ ((t i).accumulate (GradHdr.decode d) values).contributionsReceived
        ≠ ((t i).accumulate (GradHdr.decode d) values).numWorkersExpected := by
  have hcount := congrArg Tally.count (tally_joined ht hocc hseen).2
  have hsucc : ((t i).accumulate (GradHdr.decode d) values).contributionsReceived.toNat
      = (t i).contributionsReceived.toNat + 1 := hcount
  have hfan : ((t i).accumulate (GradHdr.decode d) values).numWorkersExpected
      = (t i).numWorkersExpected := rfl
  unfold Slot.Done at h ⊢
  rw [hsucc, hfan]
  refine ⟨by omega, fun heq => ?_⟩
  have := congrArg BitVec.toNat heq
  omega

/-- The key has a done entry. -/
def Slots.DoneFor (k : GradSlotKey) (t : Slots) : Prop :=
  ∃ i, Slots.occ t i = some k ∧ (t i).Done

theorem Effect.doneFor (h : Effect mode ev packet t t' v slot) (ht : Slots.Ok t)
    (hk : Slots.DoneFor k t) : Slots.DoneFor k t' := by
  obtain ⟨i, hi, hdone⟩ := hk
  refine ⟨i, h.occ_kept hi, ?_⟩
  cases h with
  | idle hrecv => exact hdone
  | screened hrecv hscreen => exact hdone
  | full hrecv hd hfull => exact hdone
  | duplicate hrecv hd hprobe hocc hseen => exact hdone
  | @counted d j s hrecv hd hacc =>
    by_cases hij : i = j
    · subst hij
      rw [Function.update_self, done_settle]
      cases hacc with
      | joined hprobe hocc hseen => exact (hdone.accumulate ht hocc hseen).1
      | opened hprobe hocc => rw [hocc] at hi; cases hi
    · rwa [Function.update_of_ne hij]

/-- A completion is of a key that had no done entry, and gives it one. -/
theorem Effect.complete_cases (h : Effect mode ev packet t t' .complete slot) (ht : Slots.Ok t)
    (hkeyed : Slots.Keyed t) :
    ∃ d, ev.received = some d ∧ ¬ Slots.DoneFor (GradHdr.decode d).key t
      ∧ Slots.DoneFor (GradHdr.decode d).key t' := by
  generalize hv : Verdict.complete = v at h
  cases h with
  | idle hrecv => cases hv
  | @screened d v hrecv hscreen =>
    exact absurd (hv ▸ hscreen) (screen_ne_complete d)
  | full hrecv hd hfull => cases hv
  | duplicate hrecv hd hprobe hocc hseen => cases hv
  | @counted d i s hrecv hd hacc =>
    have heq := settle_done hv.symm
    refine ⟨d, hrecv, ?_, i, ?_, ?_⟩
    · -- a slot that is done counts nothing more
      rintro ⟨j, hj, hdone⟩
      cases hacc with
      | joined hprobe hocc hseen =>
        obtain rfl := hkeyed.unique _ j i hj hocc
        exact (hdone.accumulate ht hocc hseen).2 heq
      | opened hprobe hocc =>
        exact absent_of_probe_free (covers_slotSeq _) (hkeyed.chained _) hprobe hocc j hj
    · rw [occ_update, Function.update_self, occupant_settle, hacc.occupant]
    · rw [Function.update_self, done_settle]
      exact (congrArg BitVec.toNat heq).ge

end

/-! ## Runs -/

/-- What every state keeps. -/
structure State.Good (st : State) : Prop where
  ok : Slots.Ok st.gSlots
  keyed : Slots.Keyed st.gSlots

theorem State.Good.effect {st : State} (h : st.Good) (mode : Mode) (ev : Event) :
    Effect mode ev st.packet st.gSlots (mainStep mode st ev).1.gSlots (mainStep mode st ev).2.verdict
      (mainStep mode st ev).2.slot := mainStep_effect mode st ev h.ok.started

theorem State.Good.step {st : State} (h : st.Good) (mode : Mode) (ev : Event) :
    (mainStep mode st ev).1.Good :=
  ⟨(h.effect mode ev).ok h.ok, (h.effect mode ev).keyed h.keyed⟩

theorem good_init (packet : Buffer) : (State.init packet).Good := by
  have hfree : ∀ i, Slots.occ (State.init packet).gSlots i = none := fun i =>
    Slot.occupant_eq_none.mpr rfl
  have hempty : ∀ i k, Slots.occ (State.init packet).gSlots i ≠ some k := fun i k hi => by
    rw [hfree] at hi
    cases hi
  exact
    { ok := fun i (hi : false = true) => Bool.noConfusion hi
      keyed := ⟨fun k i j hi => absurd hi (hempty i k), fun k i j hi => absurd hi (hempty i k)⟩ }

theorem good_stateAt (mode : Mode) (packet : Buffer) (es : List Event) (T : ℕ) :
    (stateAt (mainStep mode) (State.init packet) es T).Good :=
  runState_invariant_of_forall State.Good (fun _ ev h => h.step mode ev) (es.take T)
    (good_init packet)

/-- Iteration `T` logs the completion of key `k`. -/
def CompletesAt (es : List Event) (os : List Output) (k : GradSlotKey) (T : ℕ) : Prop :=
  ∃ ev d o, es[T]? = some ev ∧ ev.received = some d ∧ (GradHdr.decode d).key = k
    ∧ os[T]? = some o ∧ o.verdict = .complete

/-- Before its completion a key has no done entry, after it it has one. -/
theorem doneFor_of_completesAt {mode : Mode} {packet : Buffer} {es : List Event} {k : GradSlotKey}
    {T : ℕ} (h : CompletesAt es (runOut (mainStep mode) (State.init packet) es) k T) :
    ¬ Slots.DoneFor k (stateAt (mainStep mode) (State.init packet) es T).gSlots
      ∧ Slots.DoneFor k (stateAt (mainStep mode) (State.init packet) es (T + 1)).gSlots := by
  obtain ⟨ev, d, o, hev, hrecv, rfl, ho, hv⟩ := h
  have hgood := good_stateAt mode packet es T
  rw [runOut_getElem?, hev, Option.map_some, Option.some.injEq] at ho
  subst ho
  have heff := hgood.effect mode ev
  rw [hv] at heff
  obtain ⟨d', hrecv', hbefore, hafter⟩ := heff.complete_cases hgood.ok hgood.keyed
  obtain rfl := Option.some.inj (hrecv.symm.trans hrecv')
  rw [stateAt_succ hev]
  exact ⟨hbefore, hafter⟩

/-- **Every key has one entry and completes at most once.** -/
theorem completes_at_most_once (mode : Mode) (packet : Buffer) (es : List Event) :
    let st := stateAt (mainStep mode) (State.init packet) es
    let os := runOut (mainStep mode) (State.init packet) es
    (∀ T, Unique (Slots.occ (st T).gSlots))
      ∧ (∀ T U i k, T ≤ U → Slots.occ (st T).gSlots i = some k →
        findOrCreateSlot (st U).gSlots k = ((st U).gSlots, some i))
      ∧ (∀ T k, (∀ i, Slots.occ (st T).gSlots i ≠ none) → (∀ i, Slots.occ (st T).gSlots i ≠ some k) →
        findOrCreateSlot (st T).gSlots k = ((st T).gSlots, none))
      ∧ ∀ k T U, CompletesAt es os k T → CompletesAt es os k U → T = U := by
  intro st os
  have hgood : ∀ T, (st T).Good := good_stateAt mode packet es
  refine ⟨fun T => (hgood T).keyed.unique, fun T U i k hTU hi => ?_, fun T k => find_of_full, ?_⟩
  · refine (hgood U).keyed.find ?_
    have hkept := stateAt_kept (fun st : State => st.Good ∧ Slots.occ st.gSlots i = some k)
      (fun st ev h => ⟨h.1.step mode ev, (h.1.effect mode ev).occ_kept h.2⟩) hTU ⟨hgood T, hi⟩
    exact hkept.2
  · -- a key that is done stays done, and completes no more
    have honce : ∀ k T U, CompletesAt es os k T → CompletesAt es os k U → ¬ T < U := by
      intro k T U hT hU hlt
      have hkept := stateAt_kept (fun st : State => st.Good ∧ Slots.DoneFor k st.gSlots)
        (fun st ev h => ⟨h.1.step mode ev, (h.1.effect mode ev).doneFor h.1.ok h.2⟩) hlt
        ⟨hgood (T + 1), (doneFor_of_completesAt hT).2⟩
      exact (doneFor_of_completesAt hU).1 hkept.2
    intro k T U hT hU
    have h1 := honce k T U hT hU
    have h2 := honce k U T hU hT
    omega

end NetSum.ParamServer
