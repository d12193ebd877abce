import NetSum.Lib.Runs
import NetSum.ParamServer.Server
import NetSum.UserspaceAgg.MainLoopTheorems

/-!
# What an iteration of the parameter server does

One inversion of `mainStep`: an iteration has one of five effects on the slot table (`Effect`,
`mainStep_effect`). What is counted is what the receive buffer holds (`bufferValues`); the values
that were delivered are the datagram's (`bufferValues_of_le`). Every slot in use is the tally of
the contributions counted into it (`Slots.Ok`), and keys are held once, on unbroken chains
(`Slots.Keyed`).
-/

namespace NetSum.ParamServer

open NetSum.Lib NetSum.Protocol NetSum.Aggregation
open UserspaceAgg (SlotIdx slotTableCapacity Buffer decode_recvfrom valueAt_recvfrom_of_le
  covers_slotSeq sumLoop_apply)

/-! ## Which key an entry holds -/

/-- The key a slot holds, if it is in use. -/
def Slot.occupant (s : Slot) : Option GradSlotKey := if s.inUse then some s.key else none

/-- The keys of the slot table. -/
def Slots.occ (t : Slots) (i : SlotIdx) : Option GradSlotKey := (t i).occupant

theorem Slot.occupant_eq_none {s : Slot} : s.occupant = none ↔ s.inUse = false := by
  unfold Slot.occupant
  cases s.inUse <;> simp

theorem Slot.occupant_eq_some {s : Slot} {k : GradSlotKey} :
    s.occupant = some k ↔ s.inUse = true ∧ s.key = k := by
  unfold Slot.occupant
  cases s.inUse <;> simp

theorem occ_update (t : Slots) (i : SlotIdx) (s : Slot) :
    Slots.occ (Function.update t i s) = Function.update (Slots.occ t) i s.occupant := by
  funext j
  by_cases h : j = i
  · subst h
    simp [Slots.occ]
  · simp [Slots.occ, h]

theorem slotStop_eq (t : Slots) (k : GradSlotKey) :
    (fun idx => !(t idx).inUse || (t idx).key == k) = stopAt (Slots.occ t) k := by
  funext i
  rw [Bool.eq_iff_iff, stopAt_eq_true, Slots.occ, Slot.occupant_eq_none, Slot.occupant_eq_some]
  cases (t i).inUse <;> simp

/-- What `find_or_create_slot` returns. -/
theorem findOrCreateSlot_cases (t : Slots) (k : GradSlotKey) :
    (findOrCreateSlot t k = (t, none) ∧ ∀ i, Slots.occ t i ≠ none ∧ Slots.occ t i ≠ some k)
    ∨ ∃ i, probe (slotSeq k) (stopAt (Slots.occ t) k) = some i
      ∧ (Slots.occ t i = some k ∧ findOrCreateSlot t k = (t, some i)
        ∨ Slots.occ t i = none
          ∧ findOrCreateSlot t k = (Function.update t i (Slot.fresh k), some i)) := by
  unfold findOrCreateSlot
  rw [slotStop_eq]
  cases hp : probe (slotSeq k) (stopAt (Slots.occ t) k) with
  | none =>
    exact .inl ⟨rfl, fun i =>
      stopAt_eq_false.mp ((probe_eq_none_iff (covers_slotSeq k)).mp hp i)⟩
  | some i =>
    refine .inr ⟨i, rfl, ?_⟩
    cases hu : (t i).inUse with
    | true =>
      have hstop := stopAt_eq_true.mp ((probe_eq_some_iff (covers_slotSeq k)).mp hp).1
      have hocc : Slots.occ t i ≠ none := by
        rw [Slots.occ, Ne, Slot.occupant_eq_none, hu]
        exact Bool.noConfusion
      exact .inl ⟨hstop.resolve_left hocc, by simp [hu]⟩
    | false => exact .inr ⟨Slot.occupant_eq_none.mpr hu, by simp [hu]⟩

/-! ## Reading through the reused buffer -/

/-- The values the loop reads: those of the datagram, and beyond it what the buffer held. -/
def bufferValues (packet : Buffer) (d : Bytes) (i : ℕ) : BitVec 32 :=
  ntohl (load32 (packet.recvfrom d).bytes (netsumHdrSize + 4 * i))

theorem bufferValues_of_le (packet : Buffer) {d : Bytes} {i : ℕ} (hi : i < netsumMaxChunkLen)
    (hd : netsumHdrSize + 4 * (i + 1) ≤ d.length) : bufferValues packet d i = valueAt d i :=
  valueAt_recvfrom_of_le packet hi hd

/-- What a datagram is counted as, when `values` is read for it. -/
def contributionOf (d : Bytes) (values : ℕ → BitVec 32) : Contribution where
  worker := Fin.ofNat maxTrackedWorkers (GradHdr.decode d).workerId.toNat
  values i := if (i : ℕ) < (GradHdr.decode d).chunkLen.toNat then values i else 0

/-- A datagram that carries all its values is counted as its own contribution. -/
theorem contributionOf_of_le (packet : Buffer) {d : Bytes}
    (hlen : netsumHdrSize + 4 * (GradHdr.decode d).chunkLen.toNat ≤ d.length) :
    contributionOf d (bufferValues packet d) = .ofDatagram d := by
  refine congrArg (Contribution.mk _) (funext fun i => ?_)
  split
  · next hi => exact bufferValues_of_le packet i.isLt (by omega)
  · rfl

/-! ## The checks on the datagram alone -/

/-- The exit taken before the slot table is looked at, if any. -/
def screen (d : Bytes) : Option Verdict :=
  if d.length < netsumHdrSize then some .short
  else if (GradHdr.decode d).chunkLen.toNat > netsumMaxChunkLen then some .malformed
  else if (GradHdr.decode d).workerId.toNat ≥ maxTrackedWorkers then some .workerOutOfRange
  else none

/-- A whole header, at most 64 values claimed, a trackable worker id: all that is checked. -/
structure Readable (d : Bytes) : Prop where
  hdr_le : netsumHdrSize ≤ d.length
  chunkLen_le : (GradHdr.decode d).chunkLen.toNat ≤ netsumMaxChunkLen
  workerId_lt : (GradHdr.decode d).workerId.toNat < maxTrackedWorkers

theorem screen_eq_none (d : Bytes) : screen d = none ↔ Readable d := by
  have hiff : Readable d ↔ netsumHdrSize ≤ d.length
      ∧ (GradHdr.decode d).chunkLen.toNat ≤ netsumMaxChunkLen
      ∧ (GradHdr.decode d).workerId.toNat < maxTrackedWorkers :=
    ⟨fun ⟨h1, h2, h3⟩ => ⟨h1, h2, h3⟩, fun ⟨h1, h2, h3⟩ => ⟨h1, h2, h3⟩⟩
  rw [hiff]
  unfold screen
  split_ifs <;> simp <;> omega

instance (d : Bytes) : Decidable (Readable d) := decidable_of_iff _ (screen_eq_none d)

/-- A datagram that is not looked up completes nothing. -/
theorem screen_ne_complete (d : Bytes) : screen d ≠ some .complete := by
  unfold screen
  split_ifs <;> nofun

/-! ## Slots -/

/-- The completion test writes a timestamp only. -/
theorem settle_fst (s : Slot) (now : ℤ) : ∃ c, (s.settle now).1 = { s with completedMicros := c } := by
  unfold Slot.settle
  split
  · exact ⟨now, rfl⟩
  · exact ⟨s.completedMicros, rfl⟩

@[simp] theorem occupant_settle (s : Slot) (now : ℤ) : (s.settle now).1.occupant = s.occupant := by
  obtain ⟨c, h⟩ := settle_fst s now
  rw [h]
  rfl

@[simp] theorem tally_settle (s : Slot) (now : ℤ) : (s.settle now).1.tally = s.tally := by
  obtain ⟨c, h⟩ := settle_fst s now
  rw [h]
  rfl

/-- The fan-in a slot opened by the datagram expects. -/
def Mode.fanIn (mode : Mode) (hdr : GradHdr) : ℕ :=
  match mode with
  | .agg => 1
  | .noagg => hdr.numWorkers.toNat

theorem tally_fresh_latch (k : GradSlotKey) (mode : Mode) (hdr : GradHdr) (now : ℤ) :
    ((Slot.fresh k).latch mode hdr now).tally
      = Tally.opened (mode.fanIn hdr) hdr.chunkLen.toNat := by
  cases mode <;> rfl

/-- Accumulating counts the contribution in, as long as the counter has room. -/
theorem tally_accumulate {s : Slot} {d : Bytes} (values : ℕ → BitVec 32)
    (hcount : s.contributionsReceived.toNat < maxTrackedWorkers) :
    (s.accumulate (GradHdr.decode d) values).tally = s.tally.absorb (contributionOf d values) := by
  refine Tally.ext rfl rfl ?_ (funext fun w => ?_) (funext fun j => ?_)
  · show (s.contributionsReceived + 1).toNat = s.contributionsReceived.toNat + 1
    rw [BitVec.toNat_add]
    simp only [maxTrackedWorkers] at hcount
    show (_ + 1) % 65536 = _
    omega
  · simp only [Slot.tally, Slot.accumulate, Tally.absorb]
    by_cases hw : w = Fin.ofNat maxTrackedWorkers (GradHdr.decode d).workerId.toNat
    · subst hw
      rw [Function.update_self]
      simp [contributionOf]
    · rw [Function.update_of_ne hw]
      simp only [contributionOf, Function.update_of_ne hw]
  · simp only [Slot.tally, Slot.accumulate, Tally.absorb, sumLoop_apply, contributionOf]
    split
    · rfl
    · exact (add_zero _).symm

/-! ## The effect of one datagram -/

/-- Datagram `d`, of which `values` is read, is counted into slot `i`, which becomes `s` before
the completion test: a slot found in use for its key, or one opened for it. -/
inductive Accepts (mode : Mode) (ev : Event) (values : ℕ → BitVec 32) (t : Slots) (d : Bytes) :
    SlotIdx → Slot → Prop
  | joined {i}
      (hprobe : probe (slotSeq (GradHdr.decode d).key) (stopAt (Slots.occ t) (GradHdr.decode d).key)
        = some i)
      (hocc : Slots.occ t i = some (GradHdr.decode d).key)
      (hseen : (t i).seenWorker (Fin.ofNat _ (GradHdr.decode d).workerId.toNat) = 0) :
      Accepts mode ev values t d i ((t i).accumulate (GradHdr.decode d) values)
  | opened {i}
      (hprobe : probe (slotSeq (GradHdr.decode d).key) (stopAt (Slots.occ t) (GradHdr.decode d).key)
        = some i)
      (hocc : Slots.occ t i = none) :
      Accepts mode ev values t d i
        (((Slot.fresh (GradHdr.decode d).key).latch mode (GradHdr.decode d)
          ev.nowFirstSeen).accumulate (GradHdr.decode d) values)

theorem Accepts.occupant {mode : Mode} {ev : Event} {values : ℕ → BitVec 32} {t : Slots} {d : Bytes}
    {i : SlotIdx} {s : Slot} (h : Accepts mode ev values t d i s) :
    s.occupant = some (GradHdr.decode d).key := by
  cases h with
  | joined hprobe hocc hseen => exact hocc
  | opened hprobe hocc => rfl

theorem Accepts.probe_eq {mode : Mode} {ev : Event} {values : ℕ → BitVec 32} {t : Slots} {d : Bytes}
    {i : SlotIdx} {s : Slot} (h : Accepts mode ev values t d i s) :
    probe (slotSeq (GradHdr.decode d).key) (stopAt (Slots.occ t) (GradHdr.decode d).key) = some i := by
  cases h with
  | joined hprobe hocc hseen => exact hprobe
  | opened hprobe hocc => exact hprobe

/-- What an iteration that finds `packet` in the buffer does to the slot table, with its verdict
and the slot its datagram was looked up in. -/
inductive Effect (mode : Mode) (ev : Event) (packet : Buffer) (t : Slots) :
    Slots → Verdict → Option SlotIdx → Prop
  | idle (hrecv : ev.received = none) : Effect mode ev packet t t .short none
  | screened {d v} (hrecv : ev.received = some d) (hscreen : screen d = some v) :
      Effect mode ev packet t t v none
  | full {d} (hrecv : ev.received = some d) (hd : Readable d)
      (hfull : ∀ i, Slots.occ t i ≠ none ∧ Slots.occ t i ≠ some (GradHdr.decode d).key) :
      Effect mode ev packet t t .tableFull none
  | duplicate {d i} (hrecv : ev.received = some d) (hd : Readable d)
      (hprobe : probe (slotSeq (GradHdr.decode d).key) (stopAt (Slots.occ t) (GradHdr.decode d).key)
        = some i)
      (hocc : Slots.occ t i = some (GradHdr.decode d).key)
      (hseen : (t i).seenWorker (Fin.ofNat _ (GradHdr.decode d).workerId.toNat) ≠ 0) :
      Effect mode ev packet t t .duplicate (some i)
  | counted {d i s} (hrecv : ev.received = some d) (hd : Readable d)
      (hacc : Accepts mode ev (bufferValues packet d) t d i s) :
      Effect mode ev packet t (Function.update t i (s.settle ev.nowCompleted).1)
        (s.settle ev.nowCompleted).2 (some i)

/-- In every slot in use something has been counted. -/
def Slots.Started (t : Slots) : Prop :=
  ∀ i, (t i).inUse = true → (t i).contributionsReceived ≠ 0

/-- The slot phase of a readable datagram. -/
theorem slotPhase_effect (mode : Mode) (st : State) {ev : Event} {d : Bytes} (packet : Buffer)
    (hrecv : ev.received = some d) (hd : Readable d) (hstart : Slots.Started st.gSlots) :
    let r := slotPhase mode st ev (GradHdr.decode d) (bufferValues packet d)
    Effect mode ev packet st.gSlots r.1.gSlots r.2.verdict r.2.slot := by
  unfold slotPhase
  rcases findOrCreateSlot_cases st.gSlots (GradHdr.decode d).key with
    ⟨h, hfull⟩ | ⟨i, hp, ⟨hocc, h⟩ | ⟨hocc, h⟩⟩
  · rw [h]
    exact .full hrecv hd hfull
  · -- found in use
    rw [h]
    have hne := hstart i (Slot.occupant_eq_some.mp hocc).1
    simp only [Slot.contribute, if_neg hne]
    by_cases hseen : (st.gSlots i).seenWorker
        (Fin.ofNat _ (GradHdr.decode d).workerId.toNat) = 0
    · rw [if_neg (not_not_intro hseen)]
      exact .counted hrecv hd (.joined hp hocc hseen)
    · rw [if_pos hseen, Function.update_eq_self]
      exact .duplicate hrecv hd hp hocc hseen
  · -- opened
    rw [h]
    have hfresh : (Slot.fresh (GradHdr.decode d).key).contribute mode ev (GradHdr.decode d)
        (bufferValues packet d)
        = (((Slot.fresh (GradHdr.decode d).key).latch mode (GradHdr.decode d)
            ev.nowFirstSeen).accumulate (GradHdr.decode d) (bufferValues packet d)).settle
            ev.nowCompleted := rfl
    simp only [Function.update_self, hfresh, Function.update_idem]
    exact .counted hrecv hd (.opened hp hocc)

/-- A datagram that fails a check leaves no trace in the slot table. -/
theorem mainStep_of_not_readable (mode : Mode) (st : State) {ev : Event} {d : Bytes}
    (hrecv : ev.received = some d) (hd : ¬ Readable d) :
    (mainStep mode st ev).1.gSlots = st.gSlots
      ∧ ∃ v, screen d = some v ∧ (mainStep mode st ev).2 = ⟨v, none⟩ := by
  unfold mainStep
  simp only [hrecv]
  by_cases hshort : d.length < netsumHdrSize
  · have hmin : min d.length netsumMaxPacketSize < netsumHdrSize := by omega
    rw [if_pos hmin, screen, if_pos hshort]
    exact ⟨rfl, _, rfl, rfl⟩
  have hmin : ¬ min d.length netsumMaxPacketSize < netsumHdrSize := by
    simp only [netsumMaxPacketSize, netsumMaxChunkLen, netsumHdrSize] at hshort ⊢
    omega
  rw [if_neg hmin, decode_recvfrom st.packet (Nat.le_of_not_lt hshort), screen, if_neg hshort]
  by_cases hlen : (GradHdr.decode d).chunkLen.toNat > netsumMaxChunkLen
  · rw [if_pos hlen, if_pos hlen]
    exact ⟨rfl, _, rfl, rfl⟩
  rw [if_neg hlen, if_neg hlen]
  by_cases hw : (GradHdr.decode d).workerId.toNat ≥ maxTrackedWorkers
  · rw [if_pos hw, if_pos hw]
    exact ⟨rfl, _, rfl, rfl⟩
  · exact absurd ⟨by omega, by omega, by omega⟩ hd

/-- A readable datagram reaches the slot phase. -/
theorem mainStep_of_readable (mode : Mode) (st : State) {ev : Event} {d : Bytes}
    (hrecv : ev.received = some d) (hd : Readable d) :
    mainStep mode st ev
      = slotPhase mode ⟨st.gSlots, st.packet.recvfrom d, st.packetsSeen + 1, st.slotsCompleted⟩ ev
        (GradHdr.decode d) (bufferValues st.packet d) := by
  have hle := hd.hdr_le
  have hmin : ¬ min d.length netsumMaxPacketSize < netsumHdrSize := by
    simp only [netsumMaxPacketSize, netsumMaxChunkLen, netsumHdrSize] at hle ⊢
    omega
  unfold mainStep
  simp only [hrecv, decode_recvfrom st.packet hle]
  rw [if_neg hmin, if_neg (not_lt.mpr hd.chunkLen_le), if_neg (not_le.mpr hd.workerId_lt)]
  rfl

/-- **An iteration has one of the five effects.** -/
theorem mainStep_effect (mode : Mode) (st : State) (ev : Event) (hstart : Slots.Started st.gSlots) :
    Effect mode ev st.packet st.gSlots (mainStep mode st ev).1.gSlots (mainStep mode st ev).2.verdict
      (mainStep mode st ev).2.slot := by
  cases hrecv : ev.received with
  | none =>
    unfold mainStep
    rw [hrecv]
    exact .idle hrecv
  | some d =>
    by_cases hd : Readable d
    · rw [mainStep_of_readable mode st hrecv hd]
      exact slotPhase_effect mode
        ⟨st.gSlots, st.packet.recvfrom d, st.packetsSeen + 1, st.slotsCompleted⟩ st.packet hrecv hd
        hstart
    · obtain ⟨hslots, v, hscreen, hout⟩ := mainStep_of_not_readable mode st hrecv hd
      rw [hslots, hout]
      exact .screened hrecv hscreen

end NetSum.ParamServer
