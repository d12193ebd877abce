import NetSum.ParamServer.Invariants

/-!
# Stale bytes in the parameter server

The receive buffer is never cleared, and the loop over the values reads as many as the header
claims. So what a datagram does to the slot table does not depend on what the buffer held exactly
when a datagram that is about to be summed carries the values it claims (`SumsDelivered`), and
the slots after a run of such steps are a function of the delivered datagrams
(`only_delivered_summed_iff`).
-/

namespace NetSum.ParamServer

open NetSum.Lib NetSum.Protocol NetSum.Aggregation
open UserspaceAgg (SlotIdx slotTableCapacity Buffer sumLoop_apply)

/-! ## Timestamps aside -/

/-- The slot without its timestamps. -/
def Slot.untimed (s : Slot) : Slot := { s with firstSeenMicros := 0, completedMicros := 0 }

/-- The same slots, timestamps aside. -/
def Slots.SameButTimes (t t' : Slots) : Prop := ∀ i, (t i).untimed = (t' i).untimed

/-- The datagram is about to be summed: it passes the checks, and the search for its key stops at
a free entry, or at one that has not seen its worker. -/
def Sums (t : Slots) (d : Bytes) : Prop :=
  Readable d ∧ ∃ i,
    probe (slotSeq (GradHdr.decode d).key) (stopAt (Slots.occ t) (GradHdr.decode d).key) = some i
      ∧ (Slots.occ t i = none
        ∨ (t i).seenWorker (Fin.ofNat _ (GradHdr.decode d).workerId.toNat) = 0)

/-- A datagram that is about to be summed carries the values it claims. -/
def SumsDelivered (t : Slots) (ev : Event) : Prop :=
  ∀ d, ev.received = some d → Sums t d →
    netsumHdrSize + 4 * (GradHdr.decode d).chunkLen.toNat ≤ d.length

section

variable {mode : Mode} {ev ev' : Event} {s s' : Slot} {t t' : Slots} {hdr : GradHdr}
  {v v' : ℕ → BitVec 32}

theorem untimed_settle (s : Slot) (now : ℤ) : (s.settle now).1.untimed = s.untimed := by
  obtain ⟨c, h⟩ := settle_fst s now
  rw [h]
  rfl

theorem sumLoop_congr (sum : Fin netsumMaxChunkLen → BitVec 32) {n : ℕ}
    (h : ∀ j < n, v j = v' j) :
    UserspaceAgg.Slot.sumLoop sum n v = UserspaceAgg.Slot.sumLoop sum n v' := by
  funext j
  rw [sumLoop_apply, sumLoop_apply]
  split
  · next hj => rw [h j hj]
  · rfl

theorem untimed_latch (s : Slot) (mode : Mode) (hdr : GradHdr) (now : ℤ) :
    (s.latch mode hdr now).untimed = s.untimed.latch mode hdr 0 := rfl

theorem untimed_accumulate (s : Slot) (hdr : GradHdr) (v : ℕ → BitVec 32) :
    (s.accumulate hdr v).untimed = s.untimed.accumulate hdr v := rfl

/-- Slots that differ in their timestamps only are contributed to alike, if the values that are
summed are the same. -/
theorem untimed_contribute (hs : s.untimed = s'.untimed)
    (hv : s.seenWorker (Fin.ofNat _ hdr.workerId.toNat) = 0 → ∀ j < hdr.chunkLen.toNat, v j = v' j) :
    (s.contribute mode ev hdr v).1.untimed = (s'.contribute mode ev' hdr v').1.untimed := by
  -- the slot that is contributed to, latched if it is new
  obtain ⟨r, hr⟩ : ∃ r, r = if s.contributionsReceived = 0 then s.latch mode hdr ev.nowFirstSeen
      else s := ⟨_, rfl⟩
  obtain ⟨r', hr'⟩ : ∃ r', r' = if s'.contributionsReceived = 0 then s'.latch mode hdr
      ev'.nowFirstSeen else s' := ⟨_, rfl⟩
  have hcount : s.contributionsReceived = s'.contributionsReceived := by
    show s.untimed.contributionsReceived = s'.untimed.contributionsReceived
    rw [hs]
  have hlatched : r.untimed = r'.untimed := by
    rw [hr, hr', ← hcount]
    split
    · rw [untimed_latch, untimed_latch, hs]
    · exact hs
  have hseen_eq : r.seenWorker = r'.seenWorker := by
    show r.untimed.seenWorker = r'.untimed.seenWorker
    rw [hlatched]
  have hseen_s : r.seenWorker = s.seenWorker := by
    rw [hr]
    split <;> rfl
  unfold Slot.contribute
  rw [← hr, ← hr']
  dsimp only
  rw [← hseen_eq]
  by_cases hseen : r.seenWorker (Fin.ofNat _ hdr.workerId.toNat) = 0
  · have hsums := hv (hseen_s ▸ hseen)
    rw [if_neg (not_not_intro hseen), if_neg (not_not_intro hseen), untimed_settle, untimed_settle,
      untimed_accumulate, untimed_accumulate, hlatched]
    simp only [Slot.accumulate, sumLoop_congr _ hsums]
  · rw [if_pos hseen, if_pos hseen]
    exact hlatched

theorem Slots.SameButTimes.occ_eq (h : Slots.SameButTimes t t') : Slots.occ t = Slots.occ t' := by
  funext i
  have hocc : ∀ s : Slot, s.occupant = s.untimed.occupant := fun _ => rfl
  rw [Slots.occ, Slots.occ, hocc, h i, ← hocc]

theorem Slots.SameButTimes.update (h : Slots.SameButTimes t t') (i : SlotIdx)
    (hs : s.untimed = s'.untimed) :
    Slots.SameButTimes (Function.update t i s) (Function.update t' i s') := by
  intro j
  by_cases hj : j = i
  · subst hj
    rw [Function.update_self, Function.update_self, hs]
  · rw [Function.update_of_ne hj, Function.update_of_ne hj]
    exact h j

/-! ## One datagram -/

/-- The slots after the slot phase. -/
theorem slotPhase_gSlots (mode : Mode) (st : State) (ev : Event) (hdr : GradHdr)
    (values : ℕ → BitVec 32) :
    (slotPhase mode st ev hdr values).1.gSlots =
      match probe (slotSeq hdr.key) (stopAt (Slots.occ st.gSlots) hdr.key) with
      | none => st.gSlots
      | some i => Function.update st.gSlots i
        ((if (st.gSlots i).inUse then st.gSlots i else Slot.fresh hdr.key).contribute mode ev hdr
          values).1 := by
  unfold slotPhase findOrCreateSlot
  rw [slotStop_eq]
  cases probe (slotSeq hdr.key) (stopAt (Slots.occ st.gSlots) hdr.key) with
  | none => rfl
  | some i =>
    cases hu : (st.gSlots i).inUse with
    | true => simp [hu]
    | false => simp [hu]

/-- What is summed is a function of the datagram. -/
theorem bufferValues_congr {packet packet' : Buffer} {d : Bytes}
    (hd : (GradHdr.decode d).chunkLen.toNat ≤ netsumMaxChunkLen)
    (hlen : netsumHdrSize + 4 * (GradHdr.decode d).chunkLen.toNat ≤ d.length) :
    ∀ j < (GradHdr.decode d).chunkLen.toNat, bufferValues packet d j = bufferValues packet' d j := by
  intro j hj
  rw [bufferValues_of_le packet (by omega) (by omega),
    bufferValues_of_le packet' (by omega) (by omega)]

/-- Two states that differ in timestamps, buffers and counters, and receive the same. -/
theorem sameButTimes_mainStep (mode : Mode) (st st' : State) (h : SumsDelivered st.gSlots ev)
    (hev : ev'.received = ev.received) (hst : Slots.SameButTimes st.gSlots st'.gSlots) :
    Slots.SameButTimes (mainStep mode st ev).1.gSlots (mainStep mode st' ev').1.gSlots := by
  cases hrecv : ev.received with
  | none =>
    unfold mainStep
    rw [hev, hrecv]
    exact hst
  | some d =>
    have hrecv' : ev'.received = some d := hev.trans hrecv
    by_cases hd : Readable d
    swap
    · rw [(mainStep_of_not_readable mode st hrecv hd).1,
        (mainStep_of_not_readable mode st' hrecv' hd).1]
      exact hst
    rw [mainStep_of_readable mode st hrecv hd, mainStep_of_readable mode st' hrecv' hd,
      slotPhase_gSlots, slotPhase_gSlots]
    dsimp only
    -- the search goes by the keys, which are the same in both
    rw [← hst.occ_eq]
    cases hp : probe (slotSeq (GradHdr.decode d).key)
        (stopAt (Slots.occ st.gSlots) (GradHdr.decode d).key) with
    | none => exact hst
    | some i =>
      have hslot := hst i
      have hinUse : (st.gSlots i).untimed.inUse = (st'.gSlots i).untimed.inUse := by rw [hslot]
      change (st.gSlots i).inUse = (st'.gSlots i).inUse at hinUse
      refine hst.update i (untimed_contribute ?_ fun hseen => ?_)
      · rw [← hinUse]
        split
        · exact hslot
        · rfl
      · refine bufferValues_congr hd.chunkLen_le (h d hrecv ⟨hd, i, hp, ?_⟩)
        cases hu : (st.gSlots i).inUse with
        | true =>
          rw [hu, if_pos rfl] at hseen
          exact .inr hseen
        | false => exact .inl (Slot.occupant_eq_none.mpr hu)

/-! ## The buffer that makes a difference -/

/-- Beyond the datagram the buffer is what it was. -/
theorem byteAt_recvfrom_of_le (buf : Buffer) {d : Bytes} {i : ℕ} (hd : d.length ≤ netsumMaxPacketSize)
    (hi : d.length ≤ i) : byteAt (buf.recvfrom d).bytes i = byteAt buf.bytes i := by
  have hlen : (d.take netsumMaxPacketSize).length = d.length := by
    rw [List.length_take, Nat.min_eq_right hd]
  rw [Buffer.recvfrom, byteAt_append_right (hlen ▸ hi), hlen, byteAt_drop, Nat.add_sub_cancel' hi]

/-- A buffer with one byte set. -/
def Buffer.marked (i : ℕ) : Buffer := ⟨Buffer.zero.bytes.set i 1, by
  rw [List.length_set, Buffer.zero.length_eq]⟩

theorem byteAt_zero (i : ℕ) : byteAt Buffer.zero.bytes i = 0 := by
  simp only [byteAt, Buffer.zero, List.getD_eq_getElem?_getD, List.getElem?_replicate]
  split <;> rfl

theorem byteAt_marked {i : ℕ} (hi : i < netsumMaxPacketSize) :
    byteAt (Buffer.marked i).bytes i = 1 := by
  have hlt : i < Buffer.zero.bytes.length := Buffer.zero.length_eq ▸ hi
  simp [byteAt, Buffer.marked, List.getD_eq_getElem?_getD, hlt]

/-- A value that is not all delivered is what the buffer makes it. -/
theorem bufferValues_ne {d : Bytes} {j : ℕ} (hj : j < netsumMaxChunkLen)
    (hd : d.length < netsumHdrSize + 4 * (j + 1)) :
    bufferValues Buffer.zero d j ≠ bufferValues (Buffer.marked (netsumHdrSize + 4 * j + 3)) d j := by
  have hmax : netsumHdrSize + 4 * j + 3 < netsumMaxPacketSize := by
    simp only [netsumMaxPacketSize, netsumMaxChunkLen, netsumHdrSize] at hj ⊢
    omega
  have hlast : ∀ buf : Buffer, byte32 (bufferValues buf d j) 0
      = byteAt buf.bytes (netsumHdrSize + 4 * j + 3) := fun buf => by
    rw [bufferValues, ntohl, swap32_load32, byte32_be32, byteAt_recvfrom_of_le _ (by omega) (by omega)]
  intro h
  have hbytes := (hlast _).symm.trans ((congrArg (byte32 · 0) h).trans (hlast _))
  rw [byteAt_zero, byteAt_marked hmax] at hbytes
  cases hbytes

/-- What a slot has summed after a contribution of a worker it has not seen. -/
theorem sum_contribute (hseen : s.seenWorker (Fin.ofNat _ hdr.workerId.toNat) = 0)
    {j : Fin netsumMaxChunkLen} (hj : (j : ℕ) < hdr.chunkLen.toNat) :
    (s.contribute mode ev hdr v).1.sum j = s.sum j + v j := by
  have hsettle : ∀ (r : Slot) now, (r.settle now).1.sum = r.sum := fun r now => by
    obtain ⟨c, h⟩ := settle_fst r now
    rw [h]
  unfold Slot.contribute
  by_cases h0 : s.contributionsReceived = 0
  · simp only [if_pos h0, Slot.latch, hseen, ne_eq, not_true_eq_false, if_false, hsettle,
      Slot.accumulate, sumLoop_apply, hj, if_true]
  · simp only [if_neg h0, hseen, ne_eq, not_true_eq_false, if_false, hsettle, Slot.accumulate,
      sumLoop_apply, hj, if_true]

/-- If a datagram that is about to be summed does not carry its values, the buffer matters. -/
theorem not_sameButTimes (mode : Mode) {d : Bytes} (hrecv : ev.received = some d) (hsums : Sums t d)
    (hlen : d.length < netsumHdrSize + 4 * (GradHdr.decode d).chunkLen.toNat) (m n : ℕ) :
    ∃ packet packet', ¬ Slots.SameButTimes (mainStep mode ⟨t, packet, m, n⟩ ev).1.gSlots
      (mainStep mode ⟨t, packet', m, n⟩ ev).1.gSlots := by
  obtain ⟨hd, i, hp, hcase⟩ := hsums
  obtain ⟨j, hj⟩ : ∃ j, (GradHdr.decode d).chunkLen.toNat = j + 1 :=
    Nat.exists_eq_succ_of_ne_zero fun h0 => by have := hd.hdr_le; omega
  have hjmax : j < netsumMaxChunkLen := by have := hd.chunkLen_le; omega
  -- the two buffers differ in the last byte of the last value
  refine ⟨Buffer.zero, Buffer.marked (netsumHdrSize + 4 * j + 3), fun hsame => ?_⟩
  have hslot := hsame i
  rw [mainStep_of_readable mode _ hrecv hd, mainStep_of_readable mode _ hrecv hd, slotPhase_gSlots,
    slotPhase_gSlots, hp] at hslot
  simp only [Function.update_self] at hslot
  have hseen : (if (t i).inUse then t i else Slot.fresh (GradHdr.decode d).key).seenWorker
      (Fin.ofNat _ (GradHdr.decode d).workerId.toNat) = 0 := by
    split
    · next hu =>
      refine hcase.resolve_left ?_
      rw [Slots.occ, Slot.occupant_eq_none, hu]
      exact Bool.noConfusion
    · rfl
  have hsum := congrFun (congrArg Slot.sum hslot) ⟨j, hjmax⟩
  simp only [Slot.untimed] at hsum
  rw [sum_contribute hseen (by show j < _; omega), sum_contribute hseen (by show j < _; omega),
    BitVec.add_right_inj] at hsum
  exact bufferValues_ne hjmax (by omega) hsum

end

/-! ## Only what was delivered -/

/-- **Only delivered bytes are summed** exactly when a datagram that is about to be summed
carries its values: then the slots afterwards are the same, timestamps aside, whatever the buffer
held. The slots after a run of such steps are a function of the delivered datagrams. -/
theorem only_delivered_summed_iff (mode : Mode) :
    (∀ (t : Slots) (ev : Event) (m n : ℕ),
      (∀ packet packet' ev', ev'.received = ev.received →
          Slots.SameButTimes (mainStep mode ⟨t, packet, m, n⟩ ev).1.gSlots
            (mainStep mode ⟨t, packet', m, n⟩ ev').1.gSlots)
        ↔ SumsDelivered t ev)
      ∧ ∀ (packet packet' : Buffer) (es es' : List Event),
        List.Forall₂ (fun ev ev' => ev'.received = ev.received) es es' →
        StepsMeet (mainStep mode) (fun st ev => SumsDelivered st.gSlots ev) (State.init packet) es →
        ∀ T, Slots.SameButTimes (stateAt (mainStep mode) (State.init packet) es T).gSlots
          (stateAt (mainStep mode) (State.init packet') es' T).gSlots := by
  refine ⟨fun t ev m n => ⟨fun h d hrecv hsums => ?_, fun h packet packet' ev' hev => ?_⟩,
    fun packet packet' es es' hes hmeet T => ?_⟩
  · by_contra hlen
    obtain ⟨packet, packet', hne⟩ := not_sameButTimes mode hrecv hsums (not_le.mp hlen) m n
    exact hne (h packet packet' ev rfl)
  · exact sameButTimes_mainStep mode ⟨t, packet, m, n⟩ ⟨t, packet', m, n⟩ h hev fun _ => rfl
  · have hstep : ∀ (st st' : State) (ev ev' : Event), SumsDelivered st.gSlots ev →
        ev'.received = ev.received → Slots.SameButTimes st.gSlots st'.gSlots →
        Slots.SameButTimes (mainStep mode st ev).1.gSlots (mainStep mode st' ev').1.gSlots ∧ True :=
      fun st st' ev ev' hP hev hst => ⟨sameButTimes_mainStep mode st st' hP hev hst, trivial⟩
    have h0 : Slots.SameButTimes (State.init packet).gSlots (State.init packet').gSlots :=
      fun _ => rfl
    exact (run_lockstep_of_meet (O := fun _ _ => True)
      (fun st st' : State => Slots.SameButTimes st.gSlots st'.gSlots) hstep h0 hes hmeet).1 T

/-- A header alone, which claims one value. -/
def headerOnly : Bytes := (workerPacket ⟨1, 0, 0, 1, 2, 1, 0⟩ fun _ => 0).take netsumHdrSize

/-- What the header alone adds is what the buffer held, such as the value of an earlier
datagram. -/
theorem headerOnly_sums_buffer :
    ¬ (∀ packet packet',
        Slots.SameButTimes (mainStep .noagg (State.init packet) (.deliver headerOnly)).1.gSlots
          (mainStep .noagg (State.init packet') (.deliver headerOnly)).1.gSlots)
      ∧ ((runState (mainStep .noagg) (State.init Buffer.zero)
          [.deliver (workerPacket ⟨1, 0, 0, 0, 2, 1, 0⟩ fun _ => 5), .deliver headerOnly]).gSlots
        (slotSeq ⟨1, 0, 0⟩ 0)).sum 0 = 10 := by
  refine ⟨fun h => ?_, by decide +kernel⟩
  have hslot := h Buffer.zero (Buffer.marked (netsumHdrSize + 3)) (slotSeq ⟨1, 0, 0⟩ 0)
  have hsum := congrFun (congrArg Slot.sum hslot) 0
  have hzero : ((mainStep .noagg (State.init Buffer.zero) (.deliver headerOnly)).1.gSlots
      (slotSeq ⟨1, 0, 0⟩ 0)).untimed.sum 0 = 0 := by decide +kernel
  have hone : ((mainStep .noagg (State.init (Buffer.marked (netsumHdrSize + 3)))
      (.deliver headerOnly)).1.gSlots (slotSeq ⟨1, 0, 0⟩ 0)).untimed.sum 0 = 1 := by decide +kernel
  rw [hzero, hone] at hsum
  cases hsum

end NetSum.ParamServer
