import NetSum.ParamServer.Invariants

/-!
# The results of the parameter server

What a completed slot holds. The server counts whatever passes its three checks, so a result is
the sum of whole contributions, and stays what it is, as long as every datagram counted into a
slot carries the values of the slot and finds it incomplete (`CountsWhole`): then the slot is at
all times the sum of the datagrams counted into it (`Ledger`), and final once it is complete
(`results_final`).
-/

namespace NetSum.ParamServer

open NetSum.Lib NetSum.Protocol NetSum.Aggregation
open UserspaceAgg (SlotIdx slotTableCapacity Buffer)

/-! ## What a result is -/

/-- Iteration `x.1` receives the datagram `x.2` and counts it into slot `i`. -/
def AcceptedAt (es : List Event) (os : List Output) (i : SlotIdx) (x : ℕ × Bytes) : Prop :=
  (∃ ev, es[x.1]? = some ev ∧ ev.received = some x.2)
    ∧ ∃ o, os[x.1]? = some o ∧ o.slot = some i ∧ (o.verdict = .absorbed ∨ o.verdict = .complete)

/-- Iteration `T` completes slot `i`. -/
def CompletedAt (os : List Output) (i : SlotIdx) (T : ℕ) : Prop :=
  ∃ o, os[T]? = some o ∧ o.slot = some i ∧ o.verdict = .complete

/-- The datagram claims and carries `L` values. -/
def Carries (L : ℕ) (d : Bytes) : Prop :=
  L ≤ (GradHdr.decode d).chunkLen.toNat ∧ netsumHdrSize + 4 * L ≤ d.length

instance (L : ℕ) (d : Bytes) : Decidable (Carries L d) := inferInstanceAs (Decidable (_ ∧ _))

/-- The slot is the sum of a batch: of as many datagrams as it expects, counted into it up to
iteration `T`, of its key, from different workers, each with all values. -/
structure ResultOf (es : List Event) (os : List Output) (i : SlotIdx) (T : ℕ) (s : Slot)
    (batch : List (ℕ × Bytes)) : Prop where
  accepted : ∀ x ∈ batch, AcceptedAt es os i x ∧ x.1 ≤ T
  key_eq : ∀ x ∈ batch, (GradHdr.decode x.2).key = s.key
  carries : ∀ x ∈ batch, Carries s.chunkLen.toNat x.2
  nodup : (batch.map fun x => (GradHdr.decode x.2).workerId).Nodup
  length_eq : batch.length = s.numWorkersExpected.toNat
  sum_eq : ∀ j : Fin netsumMaxChunkLen, (j : ℕ) < s.chunkLen.toNat →
    s.sum j = (batch.map fun x => valueAt x.2 j).sum

/-- The slot that iteration `T` completed keeps its chunk length and sums, which are a result. -/
def FinalFrom (es : List Event) (os : List Output) (i : SlotIdx) (T : ℕ) (slotAt : ℕ → Slot) :
    Prop :=
  ∃ batch, ∀ U > T, (slotAt U).chunkLen = (slotAt (T + 1)).chunkLen
    ∧ (slotAt U).sum = (slotAt (T + 1)).sum ∧ ResultOf es os i T (slotAt U) batch

/-- A datagram that opens a slot carries its values; one that is counted into a slot carries the
slot's values, and finds it incomplete. -/
def CountsWhole (t : Slots) (ev : Event) : Prop :=
  ∀ d, ev.received = some d → Readable d →
    ((∀ i, Slots.occ t i ≠ some (GradHdr.decode d).key) → (∃ i, Slots.occ t i = none) →
      Carries (GradHdr.decode d).chunkLen.toNat d)
    ∧ ∀ i, Slots.occ t i = some (GradHdr.decode d).key →
      (t i).seenWorker (Fin.ofNat _ (GradHdr.decode d).workerId.toNat) = 0 →
      Carries (t i).chunkLen.toNat d ∧ (t i).contributionsReceived ≠ (t i).numWorkersExpected

/-! ## The ledger of a slot -/

/-- The batch counted into a slot before iteration `T`. -/
structure Ledger (es : List Event) (os : List Output) (i : SlotIdx) (T : ℕ) (s : Slot)
    (batch : List (ℕ × Bytes)) : Prop where
  accepted : ∀ x ∈ batch, AcceptedAt es os i x ∧ x.1 < T
  key_eq : ∀ x ∈ batch, (GradHdr.decode x.2).key = s.key
  carries : ∀ x ∈ batch, Carries s.chunkLen.toNat x.2
  seen_iff : ∀ w, s.seenWorker w ≠ 0
    ↔ w ∈ batch.map fun x => (Contribution.ofDatagram x.2).worker
  nodup : (batch.map fun x => (Contribution.ofDatagram x.2).worker).Nodup
  length_eq : batch.length = s.contributionsReceived.toNat
  sum_eq : ∀ j : Fin netsumMaxChunkLen, (j : ℕ) < s.chunkLen.toNat →
    s.sum j = (batch.map fun x => valueAt x.2 j).sum

section

variable {es : List Event} {os : List Output} {i : SlotIdx} {T : ℕ} {s s' : Slot}
  {batch : List (ℕ × Bytes)} {d : Bytes} {packet : Buffer} {c : ℤ}

theorem Ledger.succ (h : Ledger es os i T s batch) : Ledger es os i (T + 1) s batch :=
  { h with accepted := fun x hx => ⟨(h.accepted x hx).1, Nat.lt_succ_of_lt (h.accepted x hx).2⟩ }

/-- The completion test does not matter. -/
theorem Ledger.settle (h : Ledger es os i T s batch) (now : ℤ) :
    Ledger es os i T (s.settle now).1 batch := by
  obtain ⟨c, hc⟩ := settle_fst s now
  rw [hc]
  exact ⟨h.accepted, h.key_eq, h.carries, h.seen_iff, h.nodup, h.length_eq, h.sum_eq⟩

/-- What is added at a position the datagram carries. -/
theorem contributionOf_values {L : ℕ} (hd : Carries L d) {j : Fin netsumMaxChunkLen}
    (hj : (j : ℕ) < L) :
    (contributionOf d (bufferValues packet d)).values j = valueAt d j := by
  obtain ⟨hlen, hbytes⟩ := hd
  have hj' : (j : ℕ) < (GradHdr.decode d).chunkLen.toNat := by omega
  show (if (j : ℕ) < (GradHdr.decode d).chunkLen.toNat then _ else _) = _
  rw [if_pos hj']
  exact bufferValues_of_le packet j.isLt (by omega)

/-- A slot with a ledger, after one more contribution. -/
theorem Ledger.concat (h : Ledger es os i T s batch)
    (htally : s'.tally = s.tally.absorb (contributionOf d (bufferValues packet d)))
    (hkey : s'.key = s.key) (hd : Carries s.chunkLen.toNat d)
    (hseen : s.seenWorker (Contribution.ofDatagram d).worker = 0)
    (hdkey : (GradHdr.decode d).key = s.key) (hacc : AcceptedAt es os i (T, d)) :
    Ledger es os i (T + 1) s' (batch ++ [(T, d)]) := by
  have hlen : s'.chunkLen = s.chunkLen := BitVec.eq_of_toNat_eq (congrArg Tally.chunkLen htally)
  -- the slot has marked the workers of the batch, and not this one
  have hnot : (Contribution.ofDatagram d).worker
      ∉ batch.map fun x => (Contribution.ofDatagram x.2).worker :=
    fun hmem => (h.seen_iff _).mpr hmem hseen
  have hmem : ∀ {x}, x ∈ batch ++ [(T, d)] → x ∈ batch ∨ x = (T, d) := by
    intro x hx
    rwa [List.mem_append, List.mem_singleton] at hx
  refine ⟨fun x hx => ?_, fun x hx => ?_, fun x hx => ?_, fun w => ?_, ?_, ?_, fun j hj => ?_⟩
  · rcases hmem hx with hx | rfl
    · exact (h.succ).accepted x hx
    · exact ⟨hacc, Nat.lt_succ_self T⟩
  · rw [hkey]
    rcases hmem hx with hx | rfl
    · exact h.key_eq x hx
    · exact hdkey
  · rw [hlen]
    rcases hmem hx with hx | rfl
    · exact h.carries x hx
    · exact hd
  · have hw : (s'.seenWorker w != 0)
        = Function.update s.tally.seen (Contribution.ofDatagram d).worker true w :=
      congrFun (congrArg Tally.seen htally) w
    rw [← bne_iff_ne, hw, List.map_append, List.mem_append, ← h.seen_iff]
    by_cases hwd : w = (Contribution.ofDatagram d).worker
    · subst hwd
      simp
    · rw [Function.update_of_ne hwd]
      simp [Slot.tally, hwd]
  · exact nodup_map_append_singleton h.nodup hnot
  · have hcount : s'.contributionsReceived.toNat = s.contributionsReceived.toNat + 1 :=
      congrArg Tally.count htally
    rw [List.length_append, List.length_singleton, h.length_eq, hcount]
  · rw [hlen] at hj
    have hsum : s'.sum j = s.sum j + (contributionOf d (bufferValues packet d)).values j :=
      congrFun (congrArg Tally.sum htally) j
    rw [hsum, contributionOf_values hd hj, h.sum_eq j hj]
    simp

/-- A slot that was opened. -/
theorem Ledger.singleton {mode : Mode}
    (htally : s'.tally = (Tally.opened (mode.fanIn (GradHdr.decode d))
      (GradHdr.decode d).chunkLen.toNat).absorb (contributionOf d (bufferValues packet d)))
    (hdkey : (GradHdr.decode d).key = s'.key) (hd : Carries (GradHdr.decode d).chunkLen.toNat d)
    (hacc : AcceptedAt es os i (T, d)) : Ledger es os i (T + 1) s' [(T, d)] := by
  have hlen : s'.chunkLen.toNat = (GradHdr.decode d).chunkLen.toNat :=
    congrArg Tally.chunkLen htally
  refine ⟨fun x hx => ?_, fun x hx => ?_, fun x hx => ?_, fun w => ?_, by simp, ?_, fun j hj => ?_⟩
  · rw [List.mem_singleton] at hx
    subst hx
    exact ⟨hacc, Nat.lt_succ_self T⟩
  · rw [List.mem_singleton] at hx
    subst hx
    exact hdkey
  · rw [List.mem_singleton] at hx
    subst hx
    rwa [hlen]
  · have hw : (s'.seenWorker w != 0)
        = Function.update (fun _ => false) (Contribution.ofDatagram d).worker true w :=
      congrFun (congrArg Tally.seen htally) w
    rw [← bne_iff_ne, hw]
    by_cases hwd : w = (Contribution.ofDatagram d).worker
    · subst hwd
      simp
    · rw [Function.update_of_ne hwd]
      simp [hwd]
  · exact (congrArg Tally.count htally).symm
  · rw [hlen] at hj
    have hsum : s'.sum j = 0 + (contributionOf d (bufferValues packet d)).values j :=
      congrFun (congrArg Tally.sum htally) j
    rw [hsum, contributionOf_values hd hj]
    simp

theorem settle_snd (s : Slot) (now : ℤ) :
    (s.settle now).2 = .absorbed ∨ (s.settle now).2 = .complete := by
  unfold Slot.settle
  split
  · exact .inr rfl
  · exact .inl rfl

variable {mode : Mode} {ev : Event} {t t' : Slots} {v : Verdict} {slot : Option SlotIdx}

/-- An iteration that counts whole contributions keeps the ledgers. -/
theorem Effect.ledger (h : Effect mode ev packet t t' v slot) (ht : Slots.Ok t)
    (hkeyed : Slots.Keyed t) (hwhole : CountsWhole t ev) (hev : es[T]? = some ev)
    (ho : os[T]? = some ⟨v, slot⟩)
    (hled : ∀ i, (t i).inUse = true → ∃ batch, Ledger es os i T (t i) batch) :
    ∀ i, (t' i).inUse = true → ∃ batch, Ledger es os i (T + 1) (t' i) batch := by
  have hsame : ∀ i, (t i).inUse = true → ∃ batch, Ledger es os i (T + 1) (t i) batch := by
    intro i hi
    obtain ⟨batch, hbatch⟩ := hled i hi
    exact ⟨batch, hbatch.succ⟩
  cases h with
  | idle hrecv => exact hsame
  | screened hrecv hscreen => exact hsame
  | full hrecv hd hfull => exact hsame
  | duplicate hrecv hd hprobe hocc hseen => exact hsame
  | @counted d i s hrecv hd hacc =>
    intro j hj
    -- only the slot of the datagram has changed
    by_cases hji : j = i
    swap
    · rw [Function.update_of_ne hji] at hj ⊢
      exact hsame j hj
    subst hji
    rw [Function.update_self]
    have hat : AcceptedAt es os j (T, d) := ⟨⟨ev, hev, hrecv⟩, _, ho, rfl, settle_snd s _⟩
    obtain ⟨hopens, hjoins⟩ := hwhole d hrecv hd
    cases hacc with
    | joined hprobe hocc hseen =>
      obtain ⟨hinUse, hkey⟩ := Slot.occupant_eq_some.mp hocc
      obtain ⟨batch, hbatch⟩ := hled j hinUse
      exact ⟨_, (hbatch.concat (tally_joined ht hocc hseen).2 rfl (hjoins j hocc hseen).1 hseen
        hkey.symm hat).settle _⟩
    | opened hprobe hocc =>
      have habs := absent_of_probe_free (UserspaceAgg.covers_slotSeq _) (hkeyed.chained _) hprobe hocc
      exact ⟨_, (Ledger.singleton (tally_opened mode d _ _) rfl (hopens habs ⟨j, hocc⟩) hat).settle _⟩

/-- An iteration that counts whole contributions leaves a complete slot alone. -/
theorem Effect.complete_kept (h : Effect mode ev packet t t' v slot) (hwhole : CountsWhole t ev)
    (hi : (t i).inUse = true)
    (hdone : (t i).contributionsReceived = (t i).numWorkersExpected) : t' i = t i := by
  cases h with
  | idle hrecv => rfl
  | screened hrecv hscreen => rfl
  | full hrecv hd hfull => rfl
  | duplicate hrecv hd hprobe hocc hseen => rfl
  | @counted d j s hrecv hd hacc =>
    by_cases hij : i = j
    swap
    · exact Function.update_of_ne hij ..
    subst hij
    cases hacc with
    | joined hprobe hocc hseen => exact absurd hdone ((hwhole d hrecv hd).2 i hocc hseen).2
    | opened hprobe hocc =>
      have hfree := Slot.occupant_eq_none.mp hocc
      rw [hi] at hfree
      cases hfree

end

/-! ## Runs -/

/-- The steps of a run count whole contributions. -/
abbrev WholeRun (mode : Mode) (packet : Buffer) (es : List Event) : Prop :=
  StepsMeet (mainStep mode) (fun st ev => CountsWhole st.gSlots ev) (State.init packet) es

/-- Every slot has a ledger. -/
theorem ledger_stateAt {mode : Mode} {packet : Buffer} {es : List Event}
    (hmeet : WholeRun mode packet es) {T : ℕ} (hT : T ≤ es.length) (i : SlotIdx)
    (hi : ((stateAt (mainStep mode) (State.init packet) es T).gSlots i).inUse = true) :
    ∃ batch, Ledger es (runOut (mainStep mode) (State.init packet) es) i T
      ((stateAt (mainStep mode) (State.init packet) es T).gSlots i) batch := by
  refine stateAt_induction (fun T (st : State) => ∀ i, (st.gSlots i).inUse = true →
    ∃ batch, Ledger es (runOut (mainStep mode) (State.init packet) es) i T (st.gSlots i) batch)
    (fun i hi => by cases hi) (fun T ev hev hled => ?_) T hT i hi
  have hgood := good_stateAt mode packet es T
  have ho : (runOut (mainStep mode) (State.init packet) es)[T]?
      = some (mainStep mode (stateAt (mainStep mode) (State.init packet) es T) ev).2 := by
    rw [runOut_getElem?, hev]
    rfl
  exact (hgood.effect mode ev).ledger hgood.ok hgood.keyed (stepsMeet_iff.mp hmeet T ev hev) hev ho
    hled

/-- A slot that an iteration completes has as many contributions as it expects. -/
theorem done_of_completedAt {mode : Mode} {packet : Buffer} {es : List Event} {i : SlotIdx} {T : ℕ}
    (h : CompletedAt (runOut (mainStep mode) (State.init packet) es) i T) :
    T < es.length
      ∧ let s := (stateAt (mainStep mode) (State.init packet) es (T + 1)).gSlots i
        s.inUse = true ∧ s.contributionsReceived = s.numWorkersExpected := by
  obtain ⟨o, ho, hslot, hv⟩ := h
  have hlt : T < es.length := by
    rw [← length_runOut (mainStep mode) (State.init packet) es]
    exact (List.getElem?_eq_some_iff.mp ho).1
  have hev : es[T]? = some es[T] := List.getElem?_eq_getElem hlt
  rw [runOut_getElem?, hev, Option.map_some, Option.some.injEq] at ho
  subst ho
  rw [stateAt_succ hev]
  -- the effect of the completing iteration, its outcome put in
  have heff := (good_stateAt mode packet es T).effect mode es[T]
  generalize (mainStep mode (stateAt (mainStep mode) (State.init packet) es T) es[T]) = r at *
  rw [hv, hslot] at heff
  generalize hvc : Verdict.complete = v at heff
  generalize hsi : some i = slot at heff
  generalize r.1.gSlots = t' at heff ⊢
  refine ⟨hlt, ?_⟩
  cases heff with
  | idle hrecv => cases hvc
  | screened hrecv hscreen => cases hsi
  | full hrecv hd hfull => cases hvc
  | duplicate hrecv hd hprobe hocc hseen => cases hvc
  | @counted d j s hrecv hd hacc =>
    cases hsi
    have hdone := settle_done hvc.symm
    obtain ⟨c, hc⟩ := settle_fst s es[T].nowCompleted
    have hinUse := (Slot.occupant_eq_some.mp hacc.occupant).1
    simp only [Function.update_self, hc]
    exact ⟨hinUse, hdone⟩

/-- **Results are whole and final** in a run that counts whole contributions. -/
theorem results_final {packet : Buffer} {es : List Event} (hmeet : WholeRun .noagg packet es)
    {i : SlotIdx} {T : ℕ}
    (hT : CompletedAt (runOut (mainStep .noagg) (State.init packet) es) i T) :
    FinalFrom es (runOut (mainStep .noagg) (State.init packet) es) i T
      fun U => (stateAt (mainStep .noagg) (State.init packet) es U).gSlots i := by
  obtain ⟨hlt, hinUse, hdone⟩ := done_of_completedAt hT
  obtain ⟨batch, hbatch⟩ := ledger_stateAt hmeet hlt i hinUse
  refine ⟨batch, fun U hU => ?_⟩
  -- the slot never changes again
  have hkept := stateAt_kept_of_meet (fun st : State => st.Good
      ∧ st.gSlots i = (stateAt (mainStep .noagg) (State.init packet) es (T + 1)).gSlots i)
    (fun st ev hwhole h => ⟨h.1.step .noagg ev,
      ((h.1.effect .noagg ev).complete_kept hwhole (by rw [h.2]; exact hinUse)
        (by rw [h.2]; exact hdone)).trans h.2⟩)
    hmeet hU ⟨good_stateAt .noagg packet es (T + 1), rfl⟩
  dsimp only
  rw [hkept.2]
  refine ⟨rfl, rfl, fun x hx => ?_, hbatch.key_eq, hbatch.carries, ?_, ?_, hbatch.sum_eq⟩
  · exact ⟨(hbatch.accepted x hx).1, Nat.le_of_lt_succ (hbatch.accepted x hx).2⟩
  · have hnodup : (batch.map fun x => Fin.ofNat maxTrackedWorkers
        (GradHdr.decode x.2).workerId.toNat).Nodup := hbatch.nodup
    have hmap : (batch.map fun x => Fin.ofNat maxTrackedWorkers
        (GradHdr.decode x.2).workerId.toNat) = (batch.map fun x => (GradHdr.decode x.2).workerId).map
          fun w => Fin.ofNat maxTrackedWorkers w.toNat := by rw [List.map_map]; rfl
    rw [hmap] at hnodup
    exact hnodup.of_map _
  · rw [hbatch.length_eq]
    exact congrArg BitVec.toNat hdone

/-- The search says which slot the datagram is counted into. -/
theorem countsWhole_of_probe {st : State} (h : st.Good) {ev : Event} {d : Bytes} {i : SlotIdx}
    (hrecv : ev.received = some d)
    (hprobe : probe (slotSeq (GradHdr.decode d).key)
      (stopAt (Slots.occ st.gSlots) (GradHdr.decode d).key) = some i)
    (hd : Carries (GradHdr.decode d).chunkLen.toNat d)
    (hjoins : Slots.occ st.gSlots i = some (GradHdr.decode d).key →
      (st.gSlots i).seenWorker (Fin.ofNat _ (GradHdr.decode d).workerId.toNat) = 0 →
      Carries (st.gSlots i).chunkLen.toNat d
        ∧ (st.gSlots i).contributionsReceived ≠ (st.gSlots i).numWorkersExpected) :
    CountsWhole st.gSlots ev := by
  intro d' hd' _
  obtain rfl := Option.some.inj (hrecv.symm.trans hd')
  refine ⟨fun _ _ => hd, fun j hj => ?_⟩
  have hfound := probe_of_intact (UserspaceAgg.covers_slotSeq _) (h.keyed.chained _)
    (h.keyed.unique _) hj
  obtain rfl := Option.some.inj (hprobe.symm.trans hfound)
  exact hjoins hj

/-- After a round of two workers come copies of both datagrams, and the next round. -/
theorem late_copies_final :
    let d := fun (round : BitVec 32) worker =>
      workerPacket ⟨1, round, 0, worker, 2, 1, 0⟩ fun _ => 5
    let es := [d 0 0, d 0 1, d 0 1, d 1 0, d 0 0].map Event.deliver
    FinalFrom es (runOut (mainStep .noagg) (State.init Buffer.zero) es) (slotSeq ⟨1, 0, 0⟩ 0) 1
      fun U => (stateAt (mainStep .noagg) (State.init Buffer.zero) es U).gSlots
        (slotSeq ⟨1, 0, 0⟩ 0) := by
  intro d es
  have hmeet : WholeRun .noagg Buffer.zero es := by
    refine stepsMeet_iff.mpr fun T ev hev => ?_
    have hgood := good_stateAt .noagg Buffer.zero es T
    have hlt : T < 5 := (List.getElem?_eq_some_iff.mp hev).1
    -- the fourth is of the next round
    by_cases hT : T = 3
    · subst hT
      obtain rfl := Option.some.inj hev
      exact countsWhole_of_probe hgood (i := slotSeq ⟨1, 1, 0⟩ 0) rfl (by decide +kernel)
        (by decide +kernel) (by decide +kernel)
    · interval_cases T
      all_goals
        obtain rfl := Option.some.inj hev
        first
        | exact absurd rfl hT
        | exact countsWhole_of_probe hgood (i := slotSeq ⟨1, 0, 0⟩ 0) rfl (by decide +kernel)
            (by decide +kernel) (by decide +kernel)
  exact results_final hmeet ⟨_, rfl, by decide +kernel, by decide +kernel⟩

/-! ## A truncated contribution -/

/-- Worker 1's datagram of a round of two workers, cut after its header. -/
def truncated : Bytes := (workerPacket ⟨1, 0, 0, 1, 2, 1, 0⟩ fun _ => 0).take netsumHdrSize

/-- Worker 0's datagram, and then the truncated one. -/
def truncatedRun : List Event :=
  [.deliver (workerPacket ⟨1, 0, 0, 0, 2, 1, 0⟩ fun _ => 5), .deliver truncated]

/-- The truncated datagram completes the round with a result that is not one. -/
theorem truncatedRun_not_final :
    let os := runOut (mainStep .noagg) (State.init Buffer.zero) truncatedRun
    CompletedAt os (slotSeq ⟨1, 0, 0⟩ 0) 1
      ∧ ¬ FinalFrom truncatedRun os (slotSeq ⟨1, 0, 0⟩ 0) 1
        fun U => (stateAt (mainStep .noagg) (State.init Buffer.zero) truncatedRun U).gSlots
          (slotSeq ⟨1, 0, 0⟩ 0) := by
  intro os
  refine ⟨⟨_, rfl, by decide +kernel, by decide +kernel⟩, ?_⟩
  rintro ⟨batch, hbatch⟩
  obtain ⟨-, -, hresult⟩ := hbatch 2 (by omega)
  dsimp only at hresult
  have hfan : ((stateAt (mainStep .noagg) (State.init Buffer.zero) truncatedRun 2).gSlots
      (slotSeq ⟨1, 0, 0⟩ 0)).numWorkersExpected.toNat = 2 := by decide +kernel
  have hlen : ((stateAt (mainStep .noagg) (State.init Buffer.zero) truncatedRun 2).gSlots
      (slotSeq ⟨1, 0, 0⟩ 0)).chunkLen.toNat = 1 := by decide +kernel
  have hcarries := hresult.carries
  rw [hlen] at hcarries
  -- only worker 0's datagram carries a value
  have hworker : ∀ x ∈ batch, (GradHdr.decode x.2).workerId = 0 := by
    intro x hx
    obtain ⟨⟨⟨ev, hev, hrecv⟩, -⟩, hle⟩ := hresult.accepted x hx
    have hc := hcarries x hx
    obtain ⟨T, d⟩ := x
    match T, hle with
    | 0, _ =>
      obtain rfl := Option.some.inj hev
      obtain rfl := Option.some.inj hrecv
      decide +kernel
    | 1, _ =>
      obtain rfl := Option.some.inj hev
      obtain rfl := Option.some.inj hrecv
      exact absurd hc (by decide +kernel)
  have hsub : batch.map (fun x => (GradHdr.decode x.2).workerId) ⊆ [0] := by
    intro w hw
    obtain ⟨x, hx, rfl⟩ := List.mem_map.mp hw
    exact List.mem_singleton.mpr (hworker x hx)
  have hle := (hresult.nodup.subperm hsub).length_le
  rw [List.length_map, hresult.length_eq, hfan, List.length_singleton] at hle
  omega

end NetSum.ParamServer
