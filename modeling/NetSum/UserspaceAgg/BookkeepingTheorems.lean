import NetSum.Aggregation.Bookkeeping
import NetSum.UserspaceAgg.EmissionTheorems
import NetSum.UserspaceAgg.QuotaTheorems

/-!
# The books of the two tables

What the main loop keeps consistent at its head, whatever happens in the loop body. A slot in use
has balanced books (`Tables.Balanced`) and the time of its latest contribution (`TouchedAt`). A
job's entry counts its slots, and what it has admitted is what it has now and what it has had
freed (`Booked`).
-/

namespace NetSum.UserspaceAgg

open NetSum.Lib NetSum.Protocol NetSum.Aggregation

/-! ## What the books say -/

/-- The slot's counters are consistent, and its round is in progress. -/
structure Slot.Consistent (s : Slot) : Prop where
  count_pos : 1 ≤ s.contributionsReceived.toNat
  count_lt : s.contributionsReceived.toNat < s.numWorkersExpected.toNat
  fanIn_le : s.numWorkersExpected.toNat ≤ maxTrackedWorkers
  count_eq : s.contributionsReceived.toNat = (Finset.univ.filter fun w => s.seenWorker w ≠ 0).card
  chunkLen_le : s.chunkLen.toNat ≤ netsumMaxChunkLen
  sum_zero : ∀ j : Fin netsumMaxChunkLen, s.chunkLen.toNat ≤ j → s.sum j = 0

/-- The latest datagram counted into slot `i` before time `T` is of the slot's key, and was
counted at clock time `lastTouchedMicros`. -/
def TouchedAt (es : List Event) (os : List Output) (i : SlotIdx) (T : ℕ) (s : Slot) : Prop :=
  ∃ u < T, ∃ d ev, CountedAt es os i u d ∧ (GradHdr.decode d).key = s.key ∧ es[u]? = some ev
    ∧ ev.nowTouched = s.lastTouchedMicros ∧ ∀ v, u < v → v < T → ∀ d', ¬ CountedAt es os i v d'

/-- How many slots of the job an iteration frees, by eviction and by completion. -/
def freedAt (args : Args) (st : State) (ev : Event) (jobId : BitVec 32) : ℕ :=
  ((mainStep args st ev).2.reaped.filter fun i => (st.tables.gSlots i).jobId = jobId).length
    + if (mainStep args st ev).2.verdict = .complete
        ∧ (ev.received.map fun d => (GradHdr.decode d).jobId) = some jobId then 1 else 0

/-- How many slots of the job a run frees. -/
def freedIn (args : Args) : State → List Event → BitVec 32 → ℕ
  | _, [], _ => 0
  | st, ev :: es, jobId => freedAt args st ev jobId + freedIn args (mainStep args st ev).1 es jobId

theorem freedIn_concat (args : Args) (st : State) (es : List Event) (ev : Event)
    (jobId : BitVec 32) :
    freedIn args st (es ++ [ev]) jobId
      = freedIn args st es jobId + freedAt args (runState (mainStep args) st es) ev jobId := by
  induction es generalizing st with
  | nil => exact Nat.add_comm _ _
  | cons e es ih =>
    show freedAt args st e jobId + freedIn args _ (es ++ [ev]) jobId = _
    rw [ih, ← Nat.add_assoc]
    rfl

/-! ## Slots -/

/-- Every slot in use has balanced books. -/
def Tables.Balanced (t : Tables) : Prop :=
  ∀ i, (t.gSlots i).inUse = true → (t.gSlots i).tally.InProgress

section

variable {q : ℤ} {ev : Event} {t t' : Tables} {d : Bytes} {i : SlotIdx} {s : Slot} {g : Jobs}
  {v : Verdict} {slot : Option SlotIdx} {sent : Option Bytes}

theorem Slot.consistent_of_inProgress (h : s.tally.InProgress) : s.Consistent := by
  refine ⟨h.count_pos, h.count_lt, h.fanIn_le, ?_, h.chunkLen_le, h.sum_zero⟩
  have hcount : s.contributionsReceived.toNat
      = (Finset.univ.filter fun w => s.tally.seen w = true).card := h.count_eq
  rw [hcount]
  refine congrArg Finset.card (Finset.filter_congr fun w _ => ?_)
  show (s.seenWorker w != 0) = true ↔ s.seenWorker w ≠ 0
  exact bne_iff_ne

/-- The slot a datagram was counted into has balanced books. -/
theorem Accepts.balanced (h : Accepts q ev t d i s g) (hd : WellFormed d) (ht : t.Balanced) :
    s.tally.Balanced ∧ 1 ≤ s.tally.count ∧ s.tally.fanIn ≤ maxTrackedWorkers := by
  cases h with
  | joined hprobe hocc hlen hseen =>
    have hi := ht i (Slot.occupant_eq_some.mp hocc).1
    have hlt : (t.gSlots i).contributionsReceived.toNat < maxTrackedWorkers :=
      hi.count_lt.trans_le hi.fanIn_le
    have hnew : (t.gSlots i).tally.seen (Contribution.ofDatagram d).worker = false := by
      simpa [Slot.tally] using hseen
    rw [tally_accumulate ev.nowTouched hlt]
    exact ⟨hi.absorb_datagram (congrArg BitVec.toNat hlen) hnew, Nat.le_add_left _ _, hi.fanIn_le⟩
  | opened hprobe hocc hjobs =>
    rw [tally_opened d, Round.tally_absorb, Round.tally_opened]
    exact ⟨Tally.balanced_opened_absorb hd.chunkLen_le, Nat.le_add_left _ _, hd.numWorkers_le⟩

theorem Effect.balanced (h : Effect q ev t t' v slot sent) (ht : t.Balanced) : t'.Balanced := by
  intro i hi
  rcases h.slot_cases i with
    ⟨hsame, -⟩ | ⟨d, s, g, -, hd, hacc, -, ⟨-, hs, hlt, -⟩ | ⟨-, hs, -⟩⟩
  · rw [hsame] at hi ⊢
    exact ht i hi
  · obtain ⟨hbal, hpos, hfan⟩ := hacc.balanced hd ht
    rw [hs]
    exact { toBalanced := hbal, count_lt := hlt, fanIn_le := hfan, count_pos := hpos }
  · rw [hs] at hi
    cases hi

theorem Tables.Balanced.freeSlot (ht : t.Balanced) (i : SlotIdx) : (freeSlot t i).Balanced := by
  intro j hj
  rw [freeSlot_gSlots] at hj ⊢
  by_cases hji : j = i
  · rw [hji, Function.update_self] at hj
    cases hj
  · rw [Function.update_of_ne hji] at hj ⊢
    exact ht j hj

theorem mainStep_balanced {args : Args} {st : State} (hok : st.tables.Ok) (h : st.tables.Balanced)
    (ev : Event) : (mainStep args st ev).1.tables.Balanced :=
  (mainStep_effect_of_ok args hok ev).balanced
    (reapPhase_induction Tables.Balanced (fun _ i _ ht => ht.freeSlot i) args h ev)

theorem Accepts.lastTouched (h : Accepts q ev t d i s g) : s.lastTouchedMicros = ev.nowTouched := by
  cases h with
  | joined hprobe hocc hlen hseen => rfl
  | opened hprobe hocc hjobs => rfl

/-- One iteration: a slot that is in use afterwards was left alone, or the datagram was counted
into it. -/
theorem touched_mainStep {args : Args} {st : State} {es : List Event} {os : List Output} {T : ℕ}
    (hok : st.tables.Ok) (hev : es[T]? = some ev) (ho : os[T]? = some (mainStep args st ev).2)
    (h : ∀ i, (st.tables.gSlots i).inUse = true → TouchedAt es os i T (st.tables.gSlots i)) :
    ∀ i, ((mainStep args st ev).1.tables.gSlots i).inUse = true →
      TouchedAt es os i (T + 1) ((mainStep args st ev).1.tables.gSlots i) := by
  intro i hi
  have heff := mainStep_effect_of_ok args hok ev
  rcases heff.slot_cases i with
    ⟨hsame, hno⟩ | ⟨d, s, g, hrecv, -, hacc, hslot, ⟨hv, hs, -⟩ | ⟨-, hs, -⟩⟩
  · -- neither counted into nor evicted
    rw [hsame] at hi ⊢
    obtain ⟨hreaped, hkept⟩ := reapPhase_gSlots args st ev i
    have hnot : i ∉ (reapPhase args st ev).2 := fun hmem => by
      rw [(hreaped hmem).2] at hi
      cases hi
    rw [hkept hnot] at hi ⊢
    obtain ⟨u, hu, d, e, hcount, hkey, he, htouch, hlater⟩ := h i hi
    refine ⟨u, Nat.lt_succ_of_lt hu, d, e, hcount, hkey, he, htouch, fun v huv hv d' hd' => ?_⟩
    by_cases hvT : v = T
    · subst hvT
      obtain ⟨-, o, ho', hslot, hverdict⟩ := hd'
      obtain rfl := Option.some.inj (ho.symm.trans ho')
      exact hno ⟨hslot, hverdict⟩
    · exact hlater v huv (by omega) d' hd'
  · rw [hs]
    have hcount : CountedAt es os i T d := ⟨⟨ev, hev, hrecv⟩, _, ho, hslot, .inl hv⟩
    have hkey := (Slot.occupant_eq_some.mp hacc.occupant.1).2
    exact ⟨T, Nat.lt_succ_self T, d, ev, hcount, hkey.symm, hev, hacc.lastTouched.symm,
      fun v h1 h2 => by omega⟩
  · rw [hs] at hi
    cases hi

end

/-! ## Jobs -/

/-- The job table accounts for the slots, and for those freed: what an entry has admitted is what
the job holds and has had freed; a job that could be tracked and is not has had none. -/
structure Booked (occ : SlotIdx → Option GradSlotKey) (g : Jobs) (freed : BitVec 32 → ℕ) :
    Prop where
  accounted : Accounted occ g
  admitted_eq : ∀ j, (g j).inUse = true → (g j).admittedCount
    = BitVec.ofNat 32 ((slotsOf occ (g j).jobId).card + freed (g j).jobId)
  untracked : ∀ jobId, (∀ j, jobOcc g j ≠ some jobId) → (∃ j, jobOcc g j = none) → freed jobId = 0

namespace Booked

variable {occ occ' : SlotIdx → Option GradSlotKey} {g g' : Jobs} {freed freed' : BitVec 32 → ℕ}
  {j : JobIdx} {jobId : BitVec 32} {i : SlotIdx} {k : GradSlotKey}

/-- A job that is added to the table has admitted nothing yet. -/
theorem findOrCreateJob_some (h : Booked occ g freed)
    (hf : findOrCreateJob g jobId = (g', some j)) : Booked occ g' freed := by
  obtain ⟨hacct, -, -⟩ := h.accounted.findOrCreateJob_some hf
  rcases findOrCreateJob_eq_some h.accounted.jobsOk hf with ⟨rfl, -⟩ | ⟨rfl, hfree, habs, -⟩
  · exact h
  · -- a job that had no entry, though there was room, has admitted nothing
    have hroom : ∃ j, jobOcc g j = none := ⟨j, hfree⟩
    refine ⟨hacct, fun a ha => ?_, fun J hJ hroom' => ?_⟩
    · by_cases haj : a = j
      · subst haj
        have hcount := hacct.count_eq a ha
        rw [Function.update_self] at hcount ⊢
        show 0#32 = BitVec.ofNat 32 ((slotsOf occ jobId).card + freed jobId)
        have hzero : (slotsOf occ jobId).card = 0 := hcount.symm
        rw [hzero, h.untracked jobId habs hroom]
      · rw [Function.update_of_ne haj] at ha ⊢
        exact h.admitted_eq a ha
    · refine h.untracked J (fun a ha => hJ a ?_) hroom
      have haj : a ≠ j := by
        rintro rfl
        rw [hfree] at ha
        cases ha
      rw [jobOcc_eq_some] at ha ⊢
      rwa [Function.update_of_ne haj]

/-- Changing the slots of one tracked job along with its entry. -/
theorem update (h : Booked occ g freed) (hj : (g j).inUse = true) {e : JobEntry}
    (hu : e.inUse = true) (hid : e.jobId = (g j).jobId)
    (hacct : Accounted occ' (Function.update g j e))
    (hadm : e.admittedCount
      = BitVec.ofNat 32 ((slotsOf occ' (g j).jobId).card + freed' (g j).jobId))
    (hslots : ∀ J, J ≠ (g j).jobId → (slotsOf occ' J).card = (slotsOf occ J).card)
    (hfreed : ∀ J, J ≠ (g j).jobId → freed' J = freed J) :
    Booked occ' (Function.update g j e) freed' := by
  have hsame := jobOcc_update_of_same (g := g) (hu.trans hj.symm) hid
  refine ⟨hacct, fun a ha => ?_, fun J hJ hroom => ?_⟩
  · by_cases haj : a = j
    · subst haj
      rw [Function.update_self, hid, hadm]
    · rw [Function.update_of_ne haj] at ha ⊢
      have hne : (g a).jobId ≠ (g j).jobId := fun hid' =>
        haj (h.accounted.jobsOk.eq_of_jobId ha hj hid')
      rw [h.admitted_eq a ha, hslots _ hne, hfreed _ hne]
  · rw [hsame] at hJ hroom
    have hne : J ≠ (g j).jobId := by
      rintro rfl
      exact hJ j (jobOcc_eq_some.mpr ⟨hj, rfl⟩)
    rw [hfreed J hne]
    exact h.untracked J hJ hroom

theorem reject (h : Booked occ g freed) (hj : (g j).inUse = true) :
    Booked occ (Function.update g j (g j).reject) freed :=
  h.update hj hj rfl (h.accounted.reject hj) (h.admitted_eq j hj) (fun _ _ => rfl) fun _ _ => rfl

theorem acquire (h : Booked occ g freed) (hj : (g j).inUse = true) (hi : occ i = none)
    (hk : (g j).jobId = k.jobId) :
    Booked (Function.update occ i (some k)) (Function.update g j (g j).acquire) freed := by
  refine h.update hj hj rfl (h.accounted.acquire hj hi hk) ?_ (fun J hJ => ?_) fun _ _ => rfl
  · show (g j).admittedCount + 1#32 = _
    rw [h.admitted_eq j hj, card_slotsOf_fill hi, if_pos hk.symm, ← BitVec.ofNat_add]
    exact congrArg (BitVec.ofNat 32) (by omega)
  · rw [card_slotsOf_fill hi, if_neg (fun h => hJ (h.symm.trans hk.symm)), Nat.add_zero]

theorem acquire_untracked (h : Booked occ g freed) (hi : occ i = none)
    (hfull : ∀ a, jobOcc g a ≠ none ∧ jobOcc g a ≠ some k.jobId) :
    Booked (Function.update occ i (some k)) g freed := by
  refine ⟨h.accounted.acquire_untracked hi hfull, fun a ha => ?_, h.untracked⟩
  have hne : k.jobId ≠ (g a).jobId := fun hk => (hfull a).2 (jobOcc_eq_some.mpr ⟨ha, hk.symm⟩)
  rw [h.admitted_eq a ha, card_slotsOf_fill hi, if_neg hne, Nat.add_zero]

/-- One more slot of the job is freed. -/
def freeOne (freed : BitVec 32 → ℕ) (jobId : BitVec 32) : BitVec 32 → ℕ :=
  fun J => freed J + if jobId = J then 1 else 0

theorem release_admittedCount (e : JobEntry) : e.release.admittedCount = e.admittedCount := by
  unfold JobEntry.release
  split <;> rfl

theorem release (h : Booked occ g freed) (hj : (g j).inUse = true) (hi : occ i = some k)
    (hk : (g j).jobId = k.jobId) :
    Booked (Function.update occ i none) (Function.update g j (g j).release)
      (freeOne freed k.jobId) := by
  refine h.update hj (by rw [release_inUse, hj]) (release_jobId _) (h.accounted.release hj hi hk) ?_
    (fun J hJ => ?_) fun J hJ => ?_
  · have hclear := card_slotsOf_clear hi (g j).jobId
    rw [if_pos hk.symm] at hclear
    rw [release_admittedCount, h.admitted_eq j hj, ← hclear, freeOne, if_pos hk.symm]
    exact congrArg (BitVec.ofNat 32) (by omega)
  · have hclear := card_slotsOf_clear hi J
    rwa [if_neg (fun h => hJ (h.symm.trans hk.symm)), Nat.add_zero] at hclear
  · rw [freeOne, if_neg (fun h => hJ (h.symm.trans hk.symm)), Nat.add_zero]

theorem release_untracked (h : Booked occ g freed) (hi : occ i = some k)
    (hfull : ∀ a, jobOcc g a ≠ none ∧ jobOcc g a ≠ some k.jobId) :
    Booked (Function.update occ i none) g (freeOne freed k.jobId) := by
  refine ⟨h.accounted.release_untracked hi hfull, fun a ha => ?_, fun J _ ⟨a, ha⟩ =>
    absurd ha (hfull a).1⟩
  have hne : k.jobId ≠ (g a).jobId := fun hk => (hfull a).2 (jobOcc_eq_some.mpr ⟨ha, hk.symm⟩)
  have hclear := card_slotsOf_clear hi (g a).jobId
  rw [if_neg hne, Nat.add_zero] at hclear
  rw [h.admitted_eq a ha, hclear, freeOne, if_neg hne, Nat.add_zero]

end Booked

/-! ## Both tables -/

/-- The books of the two tables. -/
def Tables.Booked (t : Tables) (freed : BitVec 32 → ℕ) : Prop :=
  UserspaceAgg.Booked t.occ t.gJobs freed

section

variable {q : ℤ} {ev : Event} {t t' : Tables} {d : Bytes} {i : SlotIdx} {s : Slot} {g : Jobs}
  {v : Verdict} {slot : Option SlotIdx} {sent : Option Bytes} {freed : BitVec 32 → ℕ}

theorem Tables.booked_zero : Tables.zero.Booked fun _ => 0 :=
  UserspaceAgg.Booked.mk Tables.accounted_zero (fun _ (hj : false = true) => Bool.noConfusion hj)
    fun _ _ _ => rfl

theorem Tables.Booked.freeSlot (h : t.Booked freed) (hi : (t.gSlots i).inUse = true) :
    (freeSlot t i).Booked (Booked.freeOne freed (t.gSlots i).jobId) := by
  have hocc : t.occ i = some (t.gSlots i).key := Slot.occupant_eq_some.mpr ⟨hi, rfl⟩
  rw [Tables.Booked, occ_freeSlot]
  unfold UserspaceAgg.freeSlot
  rcases hf : findOrCreateJob t.gJobs (t.gSlots i).jobId with ⟨g, _ | j⟩
  · obtain ⟨rfl, hfull⟩ := UserspaceAgg.Accounted.findOrCreateJob_none h.accounted hf
    exact UserspaceAgg.Booked.release_untracked h hocc hfull
  · obtain ⟨-, hj, hid⟩ := UserspaceAgg.Accounted.findOrCreateJob_some h.accounted hf
    exact (UserspaceAgg.Booked.findOrCreateJob_some h hf).release hj hocc hid

theorem Accepts.booked (h : Accepts q ev t d i s g) (ht : t.Booked freed) :
    Tables.Booked ⟨Function.update t.gSlots i s, g⟩ freed := by
  rw [Tables.Booked, occ_update, h.occupant.1]
  cases h with
  | joined hprobe hocc hlen hseen =>
    rw [← hocc, Function.update_eq_self]
    exact ht
  | opened hprobe hocc hjobs =>
    cases hjobs with
    | tracked hfind hquota =>
      obtain ⟨-, hj, hid⟩ := UserspaceAgg.Accounted.findOrCreateJob_some ht.accounted hfind
      exact (UserspaceAgg.Booked.findOrCreateJob_some ht hfind).acquire hj hocc hid
    | untracked hfind =>
      obtain ⟨rfl, hfull⟩ := UserspaceAgg.Accounted.findOrCreateJob_none ht.accounted hfind
      exact UserspaceAgg.Booked.acquire_untracked ht hocc hfull

/-- The receive phase frees a slot of the datagram's job when it completes it. -/
theorem Effect.booked (h : Effect q ev t t' v slot sent) (ht : t.Booked freed) :
    t'.Booked fun J => freed J + if v = .complete
      ∧ (ev.received.map fun d => (GradHdr.decode d).jobId) = some J then 1 else 0 := by
  have hsame : ∀ {t' : Tables} {v : Verdict}, v ≠ .complete → t'.Booked freed →
      t'.Booked fun J => freed J + if v = .complete
        ∧ (ev.received.map fun d => (GradHdr.decode d).jobId) = some J then 1 else 0 := by
    intro t' v hv ht'
    simpa only [hv, false_and, if_false, Nat.add_zero] using ht'
  cases h with
  | idle hrecv => exact hsame (by decide) ht
  | @screened d v hrecv hscreen =>
    refine hsame ?_ ht
    rcases screen_verdict hscreen with rfl | rfl | rfl | rfl | rfl <;> decide
  | full hrecv hd hfull => exact hsame (by decide) ht
  | refused hrecv hd hprobe hocc hfind hquota =>
    obtain ⟨-, hj, -⟩ := UserspaceAgg.Accounted.findOrCreateJob_some ht.accounted hfind
    exact hsame (by decide) ((UserspaceAgg.Booked.findOrCreateJob_some ht hfind).reject hj)
  | mismatch hrecv hd hprobe hocc hlen => exact hsame (by decide) ht
  | duplicate hrecv hd hprobe hocc hlen hseen => exact hsame (by decide) ht
  | absorbed hrecv hd hacc hlt => exact hsame (by decide) (hacc.booked ht)
  | @complete d i s g p hrecv hd hacc hge hsent =>
    obtain ⟨hinUse, hkey⟩ := Slot.occupant_eq_some.mp hacc.occupant.1
    -- the slot is charged to the job, and freed in the same iteration
    have hfree := (hacc.booked ht).freeSlot (i := i)
      (show (Function.update t.gSlots i s i).inUse = true by rwa [Function.update_self])
    have hjob : (Function.update t.gSlots i s i).jobId = (GradHdr.decode d).jobId := by
      rw [Function.update_self]
      exact congrArg GradSlotKey.jobId hkey
    rw [show (Tables.mk (Function.update t.gSlots i s) g).gSlots i
      = Function.update t.gSlots i s i from rfl, hjob] at hfree
    rw [hrecv, Option.map_some]
    simp only [true_and, Option.some.injEq]
    exact hfree

/-- The reaper phase frees the slots it logs. -/
theorem reapPhase_booked (args : Args) {st : State} (h : st.tables.Booked freed) (ev : Event) :
    (reapPhase args st ev).1.tables.Booked fun J => freed J
      + ((reapPhase args st ev).2.filter fun i => (st.tables.gSlots i).jobId = J).length := by
  have hkept := reapPhase_log_induction
    (fun t log => (∀ i, (t.gSlots i).jobId = (st.tables.gSlots i).jobId)
      ∧ t.Booked fun J => freed J + (log.filter fun i => (st.tables.gSlots i).jobId = J).length)
    (fun t log i hi ⟨hjobs, ht⟩ => ⟨fun j => ?_, ?_⟩) args ⟨fun _ => rfl, h⟩ ev
  · exact hkept.2
  · rw [freeSlot_gSlots]
    by_cases hji : j = i
    · rw [hji, Function.update_self]
      exact hjobs i
    · rw [Function.update_of_ne hji]
      exact hjobs j
  · have hfree := ht.freeSlot hi
    rw [hjobs i] at hfree
    refine cast (congrArg _ (funext fun J => ?_)) hfree
    rw [Booked.freeOne, List.filter_append, List.length_append, Nat.add_assoc]
    by_cases hJ : (st.tables.gSlots i).jobId = J
    · simp [hJ]
    · simp [hJ]

/-- One iteration. -/
theorem mainStep_booked (args : Args) {st : State} (hok : st.tables.Ok)
    (h : st.tables.Booked freed) (ev : Event) :
    (mainStep args st ev).1.tables.Booked fun J => freed J + freedAt args st ev J := by
  have heff := (mainStep_effect_of_ok args hok ev).booked (reapPhase_booked args h ev)
  refine cast (congrArg _ (funext fun J => ?_)) heff
  exact Nat.add_assoc _ _ _

end

/-! ## Runs -/

theorem booked_run (args : Args) {st : State} (hok : st.tables.Ok)
    (h : st.tables.Booked fun _ => 0) (es : List Event) :
    (runState (mainStep args) st es).tables.Booked (freedIn args st es) := by
  induction es using List.reverseRecOn with
  | nil => exact h
  | append_singleton es ev ih =>
    have hok' : (runState (mainStep args) st es).tables.Ok := (accounted_run hok h.accounted es).1
    have hstep := mainStep_booked args hok' ih ev
    rw [runState_append]
    refine cast (congrArg _ (funext fun J => ?_)) hstep
    exact (freedIn_concat args st es ev J).symm

/-- **The books balance** in every state at the head of the main loop. -/
theorem books_balance (args : Args) (inPacket outPacket : Buffer) (now : ℤ) (es : List Event)
    (T : ℕ) (hT : T ≤ es.length) :
    let st₀ := State.init inPacket outPacket now
    let os := runOut (mainStep args) st₀ es
    let t := (stateAt (mainStep args) st₀ es T).tables
    (∀ i, (t.gSlots i).inUse = true →
      (t.gSlots i).Consistent ∧ TouchedAt es os i T (t.gSlots i))
    ∧ (∀ j j', (t.gJobs j).inUse = true → (t.gJobs j').inUse = true →
      (t.gJobs j).jobId = (t.gJobs j').jobId → j = j')
    ∧ ∀ j, (t.gJobs j).inUse = true →
      (t.gJobs j).concurrentSlots.toNat = (slotsOf t.occ (t.gJobs j).jobId).card
      ∧ (t.gJobs j).admittedCount.toNat
        = ((t.gJobs j).concurrentSlots.toNat + freedIn args st₀ (es.take T) (t.gJobs j).jobId)
          % 2 ^ 32
      ∧ ∀ i, (t.gSlots i).inUse = true → (t.gSlots i).jobId = (t.gJobs j).jobId →
        0 < (t.gJobs j).concurrentSlots.toNat := by
  intro st₀ os t
  have hok₀ : st₀.tables.Ok := State.init_ok inPacket outPacket now
  have hbal : t.Balanced :=
    (runState_invariant_of_forall (fun st : State => st.tables.Ok ∧ st.tables.Balanced)
      (fun st ev h => ⟨mainStep_ok h.1 ev, mainStep_balanced h.1 h.2 ev⟩) (es.take T)
      ⟨hok₀, fun i hi => by cases hi⟩).2
  have htouched : ∀ i, (t.gSlots i).inUse = true → TouchedAt es os i T (t.gSlots i) := by
    refine stateAt_induction (fun T (st : State) => ∀ i, (st.tables.gSlots i).inUse = true →
      TouchedAt es os i T (st.tables.gSlots i)) (fun i hi => by cases hi) (fun T ev hev h => ?_) T hT
    have ho : os[T]? = some (mainStep args (stateAt (mainStep args) st₀ es T) ev).2 := by
      rw [runOut_getElem?, hev]
      rfl
    exact touched_mainStep (ok_stateAt args hok₀ es T) hev ho h
  have hbooked : t.Booked (freedIn args st₀ (es.take T)) :=
    booked_run args hok₀ Tables.booked_zero (es.take T)
  have hcount := hbooked.accounted.count_eq
  refine ⟨fun i hi => ⟨Slot.consistent_of_inProgress (hbal i hi), htouched i hi⟩,
    fun j j' hj hj' => hbooked.accounted.jobsOk.eq_of_jobId hj hj', fun j hj => ⟨hcount j hj, ?_, ?_⟩⟩
  · rw [hbooked.admitted_eq j hj, BitVec.toNat_ofNat, hcount j hj]
  · intro i hi hjob
    rw [hcount j hj]
    exact Finset.card_pos.mpr ⟨i, mem_slotsOf.mpr ⟨hi, hjob⟩⟩

/-- Under a quota of two a job opens two rounds, sends a copy, is refused a third round, and completes
the first. -/
theorem books_balance_completed :
    let es := [(0, 0), (1, 0), (0, 0), (2, 0), (0, 1)].map fun x =>
      Event.deliver (workerPacket ⟨1, x.1, 0, x.2, 2, 1, 0⟩ fun _ => 5)
    let st := stateAt (mainStep ⟨2, 0⟩) (State.init Buffer.zero Buffer.zero 0) es 5
    (st.tables.gSlots 9987).inUse = true ∧ (st.tables.gSlots 9987).Consistent
      ∧ (slotsOf st.tables.occ (st.tables.gJobs 183).jobId).card = 1
      ∧ 2 = (1 + freedIn ⟨2, 0⟩ (State.init Buffer.zero Buffer.zero 0) (es.take 5)
        (st.tables.gJobs 183).jobId) % 2 ^ 32 := by
  intro es st
  have hslot : (st.tables.gSlots 9987).inUse = true := by decide +kernel
  have hjob : (st.tables.gJobs 183).inUse = true := by decide +kernel
  have hslots : (st.tables.gJobs 183).concurrentSlots.toNat = 1 := by decide +kernel
  have hadmitted : (st.tables.gJobs 183).admittedCount.toNat = 2 := by decide +kernel
  have hbooks := books_balance ⟨2, 0⟩ Buffer.zero Buffer.zero 0 es 5 (by decide)
  obtain ⟨hcount, hbalance, -⟩ := hbooks.2.2 183 hjob
  refine ⟨hslot, (hbooks.1 9987 hslot).1, hcount.symm.trans hslots, ?_⟩
  exact hadmitted.symm.trans (hbalance.trans (congrArg (fun n => (n + _) % 2 ^ 32) hslots))

end NetSum.UserspaceAgg
