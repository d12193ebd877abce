import NetSum.UserspaceAgg.MainLoopTheorems

/-!
# Stale bytes in the userspace aggregator

Both buffers are reused and never cleared. The length check lets a datagram through only if it
carries the values it claims, and a packet is cut to the values its slot has, which are all
written. So what the buffers held before influences nothing, in any state of the tables
(`stale_bytes_unused`).
-/

namespace NetSum.UserspaceAgg

open NetSum.Lib NetSum.Protocol NetSum.Aggregation

/-- The same state, but for what the two buffers hold. -/
structure State.SameButBuffers (st st' : State) : Prop where
  tables_eq : st'.tables = st.tables
  packetsIn_eq : st'.packetsIn = st.packetsIn
  packetsOut_eq : st'.packetsOut = st.packetsOut
  lastReap_eq : st'.lastReapMicros = st.lastReapMicros

/-! ## The slot phase -/

section

variable {q : ℤ} {ev : Event} {t : Tables} {hdr : GradHdr} {v w : ℕ → BitVec 32}

/-- Only the values that the header claims are read. -/
theorem contribute_congr (h : ∀ i < hdr.chunkLen.toNat, v i = w i) (i : SlotIdx) :
    contribute ev t i hdr v = contribute ev t i hdr w := by
  have hacc : ∀ s : Slot, accumulateInto t i s hdr v ev.nowTouched
      = accumulateInto t i s hdr w ev.nowTouched := fun s => by
    rw [accumulateInto, accumulateInto, accumulate_congr s hdr _ h]
  simp only [contribute, hacc]

theorem processContribution_congr (h : ∀ i < hdr.chunkLen.toNat, v i = w i) :
    processContribution q ev t hdr v = processContribution q ev t hdr w := by
  unfold processContribution
  split
  · rfl
  · exact contribute_congr h _

/-- The slot that is completed has the chunk length of the datagram. -/
theorem chunkLen_of_contribute {t' : Tables} {i j : SlotIdx}
    (h : contribute ev t i hdr v = (t', .complete, some j)) :
    (t'.gSlots j).chunkLen = hdr.chunkLen := by
  have hacc : ∀ s : Slot, s.chunkLen = hdr.chunkLen →
      accumulateInto t i s hdr v ev.nowTouched = (t', .complete, some j) →
      (t'.gSlots j).chunkLen = hdr.chunkLen := by
    intro s hs hr
    unfold accumulateInto at hr
    dsimp only at hr
    split at hr
    · cases hr
    · cases hr
      simp only [Function.update_self]
      exact hs
  unfold contribute at h
  dsimp only at h
  -- the first contribution latches the length, a later one must agree with it
  by_cases h0 : (t.gSlots i).contributionsReceived = 0
  · rw [if_neg fun hne => hne.1 h0, if_pos h0] at h
    split at h
    · cases h
    · exact hacc _ rfl h
  · by_cases hlen : (t.gSlots i).chunkLen = hdr.chunkLen
    · rw [if_neg fun hne => hne.2 hlen, if_neg h0] at h
      split at h
      · cases h
      · exact hacc _ hlen h
    · rw [if_pos ⟨h0, hlen⟩] at h
      cases h

theorem chunkLen_of_processContribution {t' : Tables} {j : SlotIdx}
    (h : processContribution q ev t hdr v = (t', .complete, some j)) :
    (t'.gSlots j).chunkLen = hdr.chunkLen := by
  unfold processContribution at h
  split at h
  · cases h
  · exact chunkLen_of_contribute h

end

/-- What is sent does not depend on what the buffer held. -/
theorem sent_congr (out out' : Buffer) (k : GradSlotKey) {s : Slot}
    (hlen : s.chunkLen.toNat ≤ netsumMaxChunkLen) :
    (out.writeOutPacket k s).bytes.take (netsumHdrSize + 4 * s.chunkLen.toNat)
      = (out'.writeOutPacket k s).bytes.take (netsumHdrSize + 4 * s.chunkLen.toNat) :=
  (emittedFor_writeOutPacket out k s hlen).unique (emittedFor_writeOutPacket out' k s hlen) hlen

/-- The slot phase of a datagram whose claimed values are read alike. -/
theorem slotPhase_congr (args : Args) {st st' : State} (hst : st.SameButBuffers st') (ev : Event)
    {hdr : GradHdr} (hlen : hdr.chunkLen.toNat ≤ netsumMaxChunkLen) {v w : ℕ → BitVec 32}
    (hv : ∀ i < hdr.chunkLen.toNat, v i = w i) :
    (slotPhase args st ev hdr v).1.SameButBuffers (slotPhase args st' ev hdr w).1
      ∧ (slotPhase args st' ev hdr w).2 = (slotPhase args st ev hdr v).2 := by
  unfold slotPhase
  rw [hst.tables_eq, ← processContribution_congr hv]
  rcases hr : processContribution args.gJobQuota ev st.tables hdr v with ⟨t, verdict, slot⟩
  have hother : (emitPhase st ev hdr (t, verdict, slot) = ({ st with tables := t }, verdict, slot, none)
      ∧ emitPhase st' ev hdr (t, verdict, slot) = ({ st' with tables := t }, verdict, slot, none)) →
      (emitPhase st ev hdr (t, verdict, slot)).1.SameButBuffers (emitPhase st' ev hdr (t, verdict, slot)).1
        ∧ (emitPhase st' ev hdr (t, verdict, slot)).2 = (emitPhase st ev hdr (t, verdict, slot)).2 := by
    rintro ⟨h, h'⟩
    rw [h, h']
    exact ⟨⟨rfl, hst.packetsIn_eq, hst.packetsOut_eq, hst.lastReap_eq⟩, rfl⟩
  by_cases hc : verdict = .complete ∧ slot.isSome
  · obtain ⟨rfl, hsome⟩ := hc
    obtain ⟨i, rfl⟩ := Option.isSome_iff_exists.mp hsome
    have hchunk := chunkLen_of_processContribution hr
    have hsent := sent_congr st.outPacket st'.outPacket hdr.key (s := t.gSlots i) (hchunk ▸ hlen)
    simp only [emitPhase, hsent, hst.packetsOut_eq]
    exact ⟨⟨rfl, hst.packetsIn_eq, rfl, hst.lastReap_eq⟩, trivial⟩
  · refine hother ?_
    cases verdict <;> cases slot <;> first | exact ⟨rfl, rfl⟩ | exact absurd ⟨rfl, rfl⟩ hc

/-! ## One iteration -/

theorem receivePhase_congr (args : Args) {st st' : State} (hst : st.SameButBuffers st')
    (ev : Event) :
    (receivePhase args st ev).1.SameButBuffers (receivePhase args st' ev).1
      ∧ (receivePhase args st' ev).2 = (receivePhase args st ev).2 := by
  cases hrecv : ev.received with
  | none =>
    unfold receivePhase
    rw [hrecv]
    exact ⟨hst, rfl⟩
  | some d =>
    cases hscreen : screen d with
    | some v =>
      rw [receivePhase_of_screened args st hrecv hscreen,
        receivePhase_of_screened args st' hrecv hscreen]
      refine ⟨⟨hst.tables_eq, ?_, hst.packetsOut_eq, hst.lastReap_eq⟩, rfl⟩
      dsimp only
      rw [hst.packetsIn_eq]
    | none =>
      -- what is summed is read from the datagram alone
      have hd := (screen_eq_none d).mp hscreen
      rw [receivePhase_of_wellFormed args st hrecv hd, receivePhase_of_wellFormed args st' hrecv hd]
      refine slotPhase_congr args ?_ ev hd.chunkLen_le fun i hi => ?_
      · exact ⟨hst.tables_eq, congrArg (· + 1) hst.packetsIn_eq, hst.packetsOut_eq, hst.lastReap_eq⟩
      · rw [valueAt_recvfrom st.inPacket hd hi, valueAt_recvfrom st'.inPacket hd hi]

theorem reapPhase_congr (args : Args) {st st' : State} (hst : st.SameButBuffers st') (ev : Event) :
    (reapPhase args st ev).1.SameButBuffers (reapPhase args st' ev).1
      ∧ (reapPhase args st' ev).2 = (reapPhase args st ev).2 := by
  have hiff : (0 < args.slotTtlMs ∧ ev.nowLoop - st.lastReapMicros ≥ args.reapIntervalMicros)
      ↔ (0 < args.slotTtlMs ∧ ev.nowLoop - st'.lastReapMicros ≥ args.reapIntervalMicros) := by
    rw [hst.lastReap_eq]
  by_cases hdue : 0 < args.slotTtlMs ∧ ev.nowLoop - st.lastReapMicros ≥ args.reapIntervalMicros
  · obtain ⟨r, hr, hphase⟩ := reapPhase_of_due hdue
    obtain ⟨r', hr', hphase'⟩ := reapPhase_of_due (hiff.mp hdue)
    rw [hst.tables_eq, ← hr] at hr'
    rw [hphase, hphase', hr']
    exact ⟨⟨rfl, hst.packetsIn_eq, hst.packetsOut_eq, rfl⟩, rfl⟩
  · rw [reapPhase_of_not_due hdue, reapPhase_of_not_due (mt hiff.mpr hdue)]
    exact ⟨hst, rfl⟩

/-- States that differ in their buffers only go on alike. -/
theorem mainStep_congr (args : Args) {st st' : State} (hst : st.SameButBuffers st') (ev : Event) :
    (mainStep args st ev).1.SameButBuffers (mainStep args st' ev).1
      ∧ (mainStep args st' ev).2 = (mainStep args st ev).2 := by
  obtain ⟨hreap, hreaped⟩ := reapPhase_congr args hst ev
  obtain ⟨hrecv, hout⟩ := receivePhase_congr args hreap ev
  exact ⟨hrecv, congrArg₂ (fun reaped (o : Verdict × Option SlotIdx × Option Bytes) =>
    (⟨reaped, o.1, o.2.1, o.2.2⟩ : Output)) hreaped hout⟩

/-! ## Only what was delivered -/

/-- **Stale bytes influence nothing.** From any tables, the tables afterwards, the verdict and
the packet sent do not depend on what the buffers held; over a run, whatever is answered is a
function of the datagrams and the clock. -/
theorem stale_bytes_unused (args : Args) :
    (∀ t inPacket inPacket' outPacket outPacket' packetsIn packetsOut last ev,
      let r := mainStep args ⟨t, inPacket, outPacket, packetsIn, packetsOut, last⟩ ev
      let r' := mainStep args ⟨t, inPacket', outPacket', packetsIn, packetsOut, last⟩ ev
      r'.1.tables = r.1.tables ∧ r'.2.verdict = r.2.verdict ∧ r'.2.sent = r.2.sent)
    ∧ ∀ inPacket inPacket' outPacket outPacket' now es,
      runOut (mainStep args) (State.init inPacket' outPacket' now) es
        = runOut (mainStep args) (State.init inPacket outPacket now) es := by
  refine ⟨fun t inPacket inPacket' outPacket outPacket' packetsIn packetsOut last ev => ?_,
    fun inPacket inPacket' outPacket outPacket' now es => ?_⟩
  · obtain ⟨hst, hout⟩ := mainStep_congr args
      (show State.SameButBuffers ⟨t, inPacket, outPacket, packetsIn, packetsOut, last⟩
        ⟨t, inPacket', outPacket', packetsIn, packetsOut, last⟩ from ⟨rfl, rfl, rfl, rfl⟩) ev
    exact ⟨hst.tables_eq, by rw [hout], by rw [hout]⟩
  · -- the two runs go in lockstep, with different buffers
    have hstep : ∀ (st st' : State) (ev ev' : Event), ev = ev' → st.SameButBuffers st' →
        (mainStep args st ev).1.SameButBuffers (mainStep args st' ev').1
          ∧ (mainStep args st' ev').2 = (mainStep args st ev).2 := by
      rintro st st' ev _ rfl hst
      exact mainStep_congr args hst ev
    have h0 : (State.init inPacket outPacket now).SameButBuffers
        (State.init inPacket' outPacket' now) := ⟨rfl, rfl, rfl, rfl⟩
    have houts := (run_lockstep (O := fun o o' => o' = o) State.SameButBuffers hstep h0
      (List.forall₂_eq_eq_eq ▸ rfl : List.Forall₂ (· = ·) es es)).2
    exact List.forall₂_eq_eq_eq ▸ houts.flip

end NetSum.UserspaceAgg
