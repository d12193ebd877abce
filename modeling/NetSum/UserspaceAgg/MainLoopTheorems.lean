import NetSum.UserspaceAgg.MainLoop
import NetSum.UserspaceAgg.TableTheorems

/-!
# What an iteration of the main loop does

`mainStep` reads a datagram through a reused buffer and changes the tables in several places.
Everything later proved about it goes through one inversion: the tables after the reaper phase
differ from those before by the evicted slots (`reapPhase_gSlots`), and the receive phase has
one of eight effects on them (`Effect`, `receivePhase_effect`), each stated in terms of the
delivered datagram alone. `EmittedFor` says what a sent packet contains.
-/

namespace NetSum.UserspaceAgg

open NetSum.Lib NetSum.Protocol NetSum.Aggregation

/-! ## Reading through the reused buffer -/

/-- What the datagram covers of the buffer is the datagram. -/
theorem byteAt_recvfrom (buf : Buffer) {d : Bytes} {i : ℕ} (hd : i < d.length)
    (hi : i < netsumMaxPacketSize) : byteAt (buf.recvfrom d).bytes i = byteAt d i := by
  rw [Buffer.recvfrom, byteAt_append_left (by rw [List.length_take]; omega), byteAt_take hi]

theorem decode_recvfrom (buf : Buffer) {d : Bytes} (hd : netsumHdrSize ≤ d.length) :
    (GradHdr.overlay (buf.recvfrom d).bytes 0).convert ntohs ntohl = GradHdr.decode d := by
  rw [GradHdr.decode_eq_ntoh, List.drop_zero]
  exact GradHdr.decode_congr fun i hi =>
    byteAt_recvfrom buf (by omega) (hi.trans (by decide))

/-- A value that was delivered is read from the datagram. -/
theorem valueAt_recvfrom_of_le (buf : Buffer) {d : Bytes} {i : ℕ} (hi : i < netsumMaxChunkLen)
    (hd : netsumHdrSize + 4 * (i + 1) ≤ d.length) :
    ntohl (load32 (buf.recvfrom d).bytes (netsumHdrSize + 4 * i)) = valueAt d i := by
  rw [ntohl, swap32_load32]
  refine valueAt_congr (m := i + 1) (fun j hj => byteAt_recvfrom buf (by omega) ?_) (by omega)
  simp only [netsumMaxPacketSize, netsumMaxChunkLen, netsumHdrSize] at hj hi ⊢
  omega

/-- The values a well-formed datagram claims are all read from it. -/
theorem valueAt_recvfrom (buf : Buffer) {d : Bytes} (hd : WellFormed d) {i : ℕ}
    (hi : i < (GradHdr.decode d).chunkLen.toNat) :
    ntohl (load32 (buf.recvfrom d).bytes (netsumHdrSize + 4 * i)) = valueAt d i := by
  have h1 := hd.values_le
  have h2 := hd.chunkLen_le
  exact valueAt_recvfrom_of_le buf (by omega) (by omega)

/-! ## The checks on the datagram alone -/

/-- The exit taken before the slot table is looked at, if any. -/
def screen (d : Bytes) : Option Verdict :=
  if d.length < netsumHdrSize then some .short
  else if (GradHdr.decode d).chunkLen.toNat > netsumMaxChunkLen then some .malformed
  else if d.length < netsumHdrSize + (GradHdr.decode d).chunkLen.toNat * 4 then some .truncated
  else if (GradHdr.decode d).workerId.toNat ≥ maxTrackedWorkers then some .workerOutOfRange
  else if (GradHdr.decode d).numWorkers.toNat = 0
      ∨ (GradHdr.decode d).numWorkers.toNat > maxTrackedWorkers then some .fanInOutOfRange
  else none

/-- The loop body looks a datagram up exactly when it is well formed. -/
theorem screen_eq_none (d : Bytes) : screen d = none ↔ WellFormed d := by
  rw [wellFormed_iff]
  unfold screen
  split_ifs <;> simp <;> omega

theorem screen_of_wellFormed {d : Bytes} (h : WellFormed d) : screen d = none :=
  (screen_eq_none d).mpr h

/-- The verdicts on a datagram that is not looked up. -/
theorem screen_verdict {d : Bytes} {v : Verdict} (h : screen d = some v) :
    v = .short ∨ v = .malformed ∨ v = .truncated ∨ v = .workerOutOfRange
      ∨ v = .fanInOutOfRange := by
  unfold screen at h
  split_ifs at h
  all_goals
    cases h
    simp

/-! ## Slots -/

@[simp] theorem sumLoop_apply (sum : Fin netsumMaxChunkLen → BitVec 32) (chunkLen : ℕ)
    (values : ℕ → BitVec 32) (j : Fin netsumMaxChunkLen) :
    Slot.sumLoop sum chunkLen values j
      = if (j : ℕ) < chunkLen then sum j + values j else sum j := by
  unfold Slot.sumLoop
  rw [foldl_range_update (fun i x => x + values i) sum (Nat.min_le_right _ _) j]
  have hj := j.isLt
  by_cases h : (j : ℕ) < chunkLen
  · rw [if_pos h, if_pos (by omega)]
  · rw [if_neg h, if_neg (by omega)]

/-- Only the first `chunk_len` values are read. -/
theorem accumulate_congr (s : Slot) (hdr : GradHdr) {v w : ℕ → BitVec 32} (now : ℤ)
    (h : ∀ i < hdr.chunkLen.toNat, v i = w i) :
    s.accumulate hdr v now = s.accumulate hdr w now := by
  have : Slot.sumLoop s.sum hdr.chunkLen.toNat v = Slot.sumLoop s.sum hdr.chunkLen.toNat w := by
    funext j
    rw [sumLoop_apply, sumLoop_apply]
    split
    · next hj => rw [h j hj]
    · rfl
  simp only [Slot.accumulate, this]

/-- A slot just latched keeps the tally of an empty round. -/
theorem tally_fresh_latch (k : GradSlotKey) (hdr : GradHdr) (now : ℤ) :
    ((Slot.fresh k).latch hdr now).tally
      = Tally.opened hdr.numWorkers.toNat hdr.chunkLen.toNat := rfl

/-- Accumulating counts the datagram's contribution in, as long as the counter has room. -/
theorem tally_accumulate {s : Slot} {d : Bytes} (now : ℤ)
    (hcount : s.contributionsReceived.toNat < maxTrackedWorkers) :
    (s.accumulate (GradHdr.decode d) (valueAt d) now).tally
      = s.tally.absorb (Contribution.ofDatagram d) := by
  refine Tally.ext rfl rfl ?_ (funext fun w => ?_) (funext fun j => ?_)
  · show (s.contributionsReceived + 1).toNat = s.contributionsReceived.toNat + 1
    rw [BitVec.toNat_add]
    simp only [maxTrackedWorkers] at hcount
    show (_ + 1) % 65536 = _
    omega
  · simp only [Slot.tally, Slot.accumulate, Tally.absorb]
    by_cases hw : w = Fin.ofNat maxTrackedWorkers (GradHdr.decode d).workerId.toNat
    · subst hw
      rw [Function.update_self]
      simp [Contribution.ofDatagram]
    · rw [Function.update_of_ne hw]
      simp only [Contribution.ofDatagram, Function.update_of_ne hw]
  · simp only [Slot.tally, Slot.accumulate, Tally.absorb, sumLoop_apply,
      Contribution.ofDatagram]
    split
    · rfl
    · exact (add_zero _).symm

/-! ## Emission -/

/-- The packet carries the key, worker id 0, fan-in 1, the slot's chunk length and its sums. -/
structure EmittedFor (p : Bytes) (k : GradSlotKey) (T : Tally) : Prop where
  length_eq : p.length = netsumHdrSize + 4 * T.chunkLen
  key_eq : (GradHdr.decode p).key = k
  workerId_eq : (GradHdr.decode p).workerId = 0
  numWorkers_eq : (GradHdr.decode p).numWorkers = 1
  chunkLen_eq : (GradHdr.decode p).chunkLen.toNat = T.chunkLen
  flags_eq : (GradHdr.decode p).flags = 0
  value_eq : ∀ i : Fin netsumMaxChunkLen, (i : ℕ) < T.chunkLen → valueAt p i = T.sum i

theorem emittedFor_writeOutPacket (out : Buffer) (k : GradSlotKey) (s : Slot)
    (hlen : s.chunkLen.toNat ≤ netsumMaxChunkLen) :
    EmittedFor ((out.writeOutPacket k s).bytes.take (netsumHdrSize + 4 * s.chunkLen.toNat)) k
      s.tally := by
  have hout : netsumHdrSize + 4 * (outHdr k s).chunkLen.toNat ≤ out.bytes.length := by
    rw [out.length_eq]
    show netsumHdrSize + 4 * s.chunkLen.toNat ≤ netsumHdrSize + netsumMaxChunkLen * 4
    omega
  obtain ⟨h1, h2, h3⟩ := decode_packet (outHdr k s) (fun i => s.sum (Fin.ofNat _ i)) hout
  change EmittedFor (packet out.bytes (outHdr k s) fun i => s.sum (Fin.ofNat _ i)) k s.tally
  refine ⟨h1, by rw [h2]; rfl, by rw [h2]; rfl, by rw [h2]; rfl, by rw [h2]; rfl,
    by rw [h2]; rfl, fun i hi => ?_⟩
  rw [h3 i hi, show (Fin.ofNat netsumMaxChunkLen (i : ℕ)) = i from
    Fin.ext (Nat.mod_eq_of_lt i.isLt)]
  rfl

/-- A packet is determined by its key and the tally it reports. -/
theorem EmittedFor.unique {p p' : Bytes} {k : GradSlotKey} {T : Tally} (h : EmittedFor p k T)
    (h' : EmittedFor p' k T) (hlen : T.chunkLen ≤ netsumMaxChunkLen) : p = p' := by
  refine datagram_ext h.length_eq h'.length_eq ?_ fun i hi => ?_
  · have hkey := h.key_eq.trans h'.key_eq.symm
    simp only [GradHdr.key, GradSlotKey.mk.injEq] at hkey
    rw [GradHdr.ext_iff]
    exact ⟨hkey.1, hkey.2.1, hkey.2.2, h.workerId_eq.trans h'.workerId_eq.symm,
      h.numWorkers_eq.trans h'.numWorkers_eq.symm,
      BitVec.eq_of_toNat_eq (h.chunkLen_eq.trans h'.chunkLen_eq.symm),
      h.flags_eq.trans h'.flags_eq.symm⟩
  · exact (h.value_eq ⟨i, by omega⟩ hi).trans (h'.value_eq ⟨i, by omega⟩ hi).symm

/-! ## The effect of one datagram -/

/-- The quota refuses a new slot to a job with this entry. -/
def OverQuota (gJobQuota : ℤ) (e : JobEntry) : Prop :=
  0 < gJobQuota ∧ e.concurrentSlots ≥ BitVec.ofInt 32 gJobQuota

/-- The job table after a new slot of `jobId` was admitted. A job that does not fit into the
table is admitted without being counted. -/
inductive Admits (gJobQuota : ℤ) (g : Jobs) (jobId : BitVec 32) : Jobs → Prop
  | tracked {g' j} (hfind : findOrCreateJob g jobId = (g', some j))
      (hquota : ¬ OverQuota gJobQuota (g' j)) :
      Admits gJobQuota g jobId (Function.update g' j (g' j).acquire)
  | untracked {g'} (hfind : findOrCreateJob g jobId = (g', none)) : Admits gJobQuota g jobId g'

/-- Datagram `d` is counted into slot `i`, which becomes `s`: a slot found in use for its key,
or one opened for it. -/
inductive Accepts (gJobQuota : ℤ) (ev : Event) (t : Tables) (d : Bytes) :
    SlotIdx → Slot → Jobs → Prop
  | joined {i}
      (hprobe : probe (slotSeq (GradHdr.decode d).key) (stopAt t.occ (GradHdr.decode d).key)
        = some i)
      (hocc : t.occ i = some (GradHdr.decode d).key)
      (hlen : (t.gSlots i).chunkLen = (GradHdr.decode d).chunkLen)
      (hseen : (t.gSlots i).seenWorker (Contribution.ofDatagram d).worker = 0) :
      Accepts gJobQuota ev t d i
        ((t.gSlots i).accumulate (GradHdr.decode d) (valueAt d) ev.nowTouched) t.gJobs
  | opened {i g}
      (hprobe : probe (slotSeq (GradHdr.decode d).key) (stopAt t.occ (GradHdr.decode d).key)
        = some i)
      (hocc : t.occ i = none)
      (hjobs : Admits gJobQuota t.gJobs (GradHdr.decode d).jobId g) :
      Accepts gJobQuota ev t d i
        (((Slot.fresh (GradHdr.decode d).key).latch (GradHdr.decode d) ev.nowFirstSeen).accumulate
          (GradHdr.decode d) (valueAt d) ev.nowTouched) g

theorem Accepts.probe_eq {q : ℤ} {ev : Event} {t : Tables} {d : Bytes} {i : SlotIdx} {s : Slot}
    {g : Jobs} (h : Accepts q ev t d i s g) :
    probe (slotSeq (GradHdr.decode d).key) (stopAt t.occ (GradHdr.decode d).key) = some i := by
  cases h with
  | joined hprobe hocc hlen hseen => exact hprobe
  | opened hprobe hocc hjobs => exact hprobe

/-- The slot a contribution was counted into is in use for the datagram's key, and its chunk
length is the datagram's. -/
theorem Accepts.occupant {q : ℤ} {ev : Event} {t : Tables} {d : Bytes} {i : SlotIdx} {s : Slot}
    {g : Jobs} (h : Accepts q ev t d i s g) :
    s.occupant = some (GradHdr.decode d).key ∧ s.chunkLen = (GradHdr.decode d).chunkLen := by
  cases h with
  | joined hprobe hocc hlen hseen =>
    have hk := Slot.occupant_eq_some.mp hocc
    exact ⟨Slot.occupant_eq_some.mpr ⟨hk.1, hk.2⟩, hlen⟩
  | opened hprobe hocc hjobs => exact ⟨rfl, rfl⟩

/-- What the receive phase does to the tables, with its verdict, the slot its datagram was
looked up in and the packet it sent. -/
inductive Effect (gJobQuota : ℤ) (ev : Event) (t : Tables) :
    Tables → Verdict → Option SlotIdx → Option Bytes → Prop
  | idle (hrecv : ev.received = none) : Effect gJobQuota ev t t .short none none
  | screened {d v} (hrecv : ev.received = some d) (hscreen : screen d = some v) :
      Effect gJobQuota ev t t v none none
  | full {d} (hrecv : ev.received = some d) (hd : WellFormed d)
      (hfull : ∀ i, t.occ i ≠ none ∧ t.occ i ≠ some (GradHdr.decode d).key) :
      Effect gJobQuota ev t t .admissionReject none none
  | refused {d i g j} (hrecv : ev.received = some d) (hd : WellFormed d)
      (hprobe : probe (slotSeq (GradHdr.decode d).key) (stopAt t.occ (GradHdr.decode d).key)
        = some i)
      (hocc : t.occ i = none)
      (hfind : findOrCreateJob t.gJobs (GradHdr.decode d).jobId = (g, some j))
      (hquota : OverQuota gJobQuota (g j)) :
      Effect gJobQuota ev t ⟨t.gSlots, Function.update g j (g j).reject⟩ .admissionReject none
        none
  | mismatch {d i} (hrecv : ev.received = some d) (hd : WellFormed d)
      (hprobe : probe (slotSeq (GradHdr.decode d).key) (stopAt t.occ (GradHdr.decode d).key)
        = some i)
      (hocc : t.occ i = some (GradHdr.decode d).key)
      (hlen : (t.gSlots i).chunkLen ≠ (GradHdr.decode d).chunkLen) :
      Effect gJobQuota ev t t .chunkLenMismatch (some i) none
  | duplicate {d i} (hrecv : ev.received = some d) (hd : WellFormed d)
      (hprobe : probe (slotSeq (GradHdr.decode d).key) (stopAt t.occ (GradHdr.decode d).key)
        = some i)
      (hocc : t.occ i = some (GradHdr.decode d).key)
      (hlen : (t.gSlots i).chunkLen = (GradHdr.decode d).chunkLen)
      (hseen : (t.gSlots i).seenWorker (Contribution.ofDatagram d).worker ≠ 0) :
      Effect gJobQuota ev t t .duplicate (some i) none
  | absorbed {d i s g} (hrecv : ev.received = some d) (hd : WellFormed d)
      (hacc : Accepts gJobQuota ev t d i s g) (hlt : s.tally.count < s.tally.fanIn) :
      Effect gJobQuota ev t ⟨Function.update t.gSlots i s, g⟩ .absorbed (some i) none
  | complete {d i s g p} (hrecv : ev.received = some d) (hd : WellFormed d)
      (hacc : Accepts gJobQuota ev t d i s g) (hge : ¬ s.tally.count < s.tally.fanIn)
      (hsent : EmittedFor p (GradHdr.decode d).key s.tally) :
      Effect gJobQuota ev t (freeSlot ⟨Function.update t.gSlots i s, g⟩ i) .complete (some i)
        (some p)

/-- One datagram is received at most. -/
theorem received_unique {ev : Event} {d d' : Bytes} (h : ev.received = some d)
    (h' : ev.received = some d') : d' = d := Option.some.inj (h'.symm.trans h)

/-- A datagram that is not well formed is answered by the checks on it alone. -/
theorem Effect.of_not_wellFormed {gJobQuota : ℤ} {ev : Event} {t t' : Tables} {v : Verdict}
    {slot : Option SlotIdx} {sent : Option Bytes} (h : Effect gJobQuota ev t t' v slot sent)
    {d : Bytes} (hrecv : ev.received = some d) (hd : ¬ WellFormed d) :
    t' = t ∧ screen d = some v ∧ sent = none := by
  cases h with
  | idle hr => rw [hrecv] at hr; cases hr
  | screened hr hscreen => exact ⟨rfl, received_unique hrecv hr ▸ hscreen, rfl⟩
  | full hr hd' => exact absurd (received_unique hrecv hr ▸ hd') hd
  | refused hr hd' => exact absurd (received_unique hrecv hr ▸ hd') hd
  | mismatch hr hd' => exact absurd (received_unique hrecv hr ▸ hd') hd
  | duplicate hr hd' => exact absurd (received_unique hrecv hr ▸ hd') hd
  | absorbed hr hd' => exact absurd (received_unique hrecv hr ▸ hd') hd
  | complete hr hd' => exact absurd (received_unique hrecv hr ▸ hd') hd

/-- An iteration without a datagram leaves the tables as they were. -/
theorem Effect.tables_of_idle {q : ℤ} {ev : Event} {t t' : Tables} {v : Verdict}
    {slot : Option SlotIdx} {sent : Option Bytes} (h : Effect q ev t t' v slot sent)
    (hrecv : ev.received = none) : t' = t := by
  cases h with
  | idle hr => rfl
  | screened hr => exact absurd (hr.symm.trans hrecv) (Option.some_ne_none _)
  | full hr => exact absurd (hr.symm.trans hrecv) (Option.some_ne_none _)
  | refused hr => exact absurd (hr.symm.trans hrecv) (Option.some_ne_none _)
  | mismatch hr => exact absurd (hr.symm.trans hrecv) (Option.some_ne_none _)
  | duplicate hr => exact absurd (hr.symm.trans hrecv) (Option.some_ne_none _)
  | absorbed hr => exact absurd (hr.symm.trans hrecv) (Option.some_ne_none _)
  | complete hr => exact absurd (hr.symm.trans hrecv) (Option.some_ne_none _)

/-- In every slot in use for `k` something has been counted. -/
def Tables.Started (t : Tables) (k : GradSlotKey) : Prop :=
  ∀ i, t.occ i = some k → (t.gSlots i).contributionsReceived ≠ 0

/-- What `find_or_create_slot` returns. -/
theorem findOrCreateSlot_cases (gJobQuota : ℤ) (t : Tables) (k : GradSlotKey) :
    (findOrCreateSlot gJobQuota t k = (t, none) ∧ ∀ i, t.occ i ≠ none ∧ t.occ i ≠ some k)
    ∨ ∃ i, probe (slotSeq k) (stopAt t.occ k) = some i
      ∧ (t.occ i = some k ∧ findOrCreateSlot gJobQuota t k = (t, some i)
        ∨ t.occ i = none
          ∧ ((∃ g j, findOrCreateJob t.gJobs k.jobId = (g, some j) ∧ OverQuota gJobQuota (g j)
              ∧ findOrCreateSlot gJobQuota t k
                = (⟨t.gSlots, Function.update g j (g j).reject⟩, none))
            ∨ ∃ g, Admits gJobQuota t.gJobs k.jobId g
              ∧ findOrCreateSlot gJobQuota t k
                = (⟨Function.update t.gSlots i (Slot.fresh k), g⟩, some i))) := by
  unfold findOrCreateSlot
  rw [slotStop_eq]
  cases hp : probe (slotSeq k) (stopAt t.occ k) with
  | none =>
    exact .inl ⟨rfl, fun i =>
      stopAt_eq_false.mp ((probe_eq_none_iff (covers_slotSeq k)).mp hp i)⟩
  | some i =>
    refine .inr ⟨i, rfl, ?_⟩
    cases hu : (t.gSlots i).inUse with
    | true =>
      have hocc : t.occ i ≠ none := by
        rw [Tables.occ, Ne, Slot.occupant_eq_none, hu]
        exact Bool.noConfusion
      exact .inl ⟨(occ_of_probe hp).resolve_left hocc, by simp [hu]⟩
    | false =>
      refine .inr ⟨Slot.occupant_eq_none.mpr hu, ?_⟩
      simp only [hu, Bool.false_eq_true, if_false]
      -- a job that has no entry is not held to the quota
      rcases hf : findOrCreateJob t.gJobs k.jobId with ⟨g, _ | j⟩
      · exact .inr ⟨g, .untracked hf, rfl⟩
      · by_cases hq : OverQuota gJobQuota (g j)
        · exact .inl ⟨g, j, rfl, hq, if_pos hq⟩
        · exact .inr ⟨_, .tracked hf hq, if_neg hq⟩

/-- A slot just opened accepts the contribution it was opened for. -/
theorem contribute_fresh {t : Tables} {i : SlotIdx} {k : GradSlotKey}
    (h : t.gSlots i = Slot.fresh k) (ev : Event) (hdr : GradHdr) (values : ℕ → BitVec 32) :
    contribute ev t i hdr values
      = accumulateInto t i ((Slot.fresh k).latch hdr ev.nowFirstSeen) hdr values ev.nowTouched := by
  unfold contribute
  rw [h]
  rfl

/-- The slot phase of a well-formed datagram that is counted into slot `i`. -/
theorem emitPhase_accumulateInto {q : ℤ} {st : State} {ev : Event} {d : Bytes} {t : Tables}
    {i : SlotIdx} {s : Slot} {values : ℕ → BitVec 32} (hrecv : ev.received = some d)
    (hd : WellFormed d) (hvalues : ∀ j < (GradHdr.decode d).chunkLen.toNat, values j = valueAt d j)
    (hslots : ∀ s', Function.update t.gSlots i s' = Function.update st.tables.gSlots i s')
    (hacc : Accepts q ev st.tables d i (s.accumulate (GradHdr.decode d) (valueAt d) ev.nowTouched)
      t.gJobs) :
    let r := emitPhase st ev (GradHdr.decode d)
      (accumulateInto t i s (GradHdr.decode d) values ev.nowTouched)
    Effect q ev st.tables r.1.tables r.2.1 r.2.2.1 r.2.2.2 := by
  simp only [accumulateInto, accumulate_congr s _ _ hvalues, hslots]
  set s' := s.accumulate (GradHdr.decode d) (valueAt d) ev.nowTouched
  by_cases hlt : s'.contributionsReceived < s'.numWorkersExpected
  · simp only [if_pos hlt]
    exact .absorbed hrecv hd hacc hlt
  · simp only [if_neg hlt, emitPhase]
    refine .complete hrecv hd hacc hlt ?_
    simp only [Function.update_self]
    refine emittedFor_writeOutPacket _ _ s' ?_
    rw [hacc.occupant.2]
    exact hd.chunkLen_le

/-- The slot phase of a well-formed datagram, whatever `values` reads beyond its values. -/
theorem slotPhase_effect (args : Args) (st : State) {ev : Event} {d : Bytes}
    {values : ℕ → BitVec 32} (hrecv : ev.received = some d) (hd : WellFormed d)
    (hvalues : ∀ i < (GradHdr.decode d).chunkLen.toNat, values i = valueAt d i)
    (hstart : st.tables.Started (GradHdr.decode d).key) :
    let r := slotPhase args st ev (GradHdr.decode d) values
    Effect args.gJobQuota ev st.tables r.1.tables r.2.1 r.2.2.1 r.2.2.2 := by
  unfold slotPhase processContribution
  rcases findOrCreateSlot_cases args.gJobQuota st.tables (GradHdr.decode d).key with
    ⟨h, hfull⟩ | ⟨i, hp, ⟨hocc, h⟩ | ⟨hocc, ⟨g, j, hf, hq, h⟩ | ⟨g, hadm, h⟩⟩⟩
  · rw [h]
    exact .full hrecv hd hfull
  · -- found in use
    rw [h]
    simp only [contribute]
    have hne := hstart i hocc
    by_cases hlen : (st.tables.gSlots i).chunkLen = (GradHdr.decode d).chunkLen
    · rw [if_neg fun h => h.2 hlen, if_neg hne]
      by_cases hseen : (st.tables.gSlots i).seenWorker
          (Fin.ofNat _ (GradHdr.decode d).workerId.toNat) = 0
      · rw [if_neg (not_not_intro hseen)]
        exact emitPhase_accumulateInto hrecv hd hvalues (fun _ => rfl)
          (.joined hp hocc hlen hseen)
      · rw [if_pos hseen, Function.update_eq_self]
        exact .duplicate hrecv hd hp hocc hlen hseen
    · rw [if_pos ⟨hne, hlen⟩]
      exact .mismatch hrecv hd hp hocc hlen
  · rw [h]
    exact .refused hrecv hd hp hocc hf hq
  · -- opened
    rw [h]
    simp only
    rw [contribute_fresh (Function.update_self ..)]
    exact emitPhase_accumulateInto hrecv hd hvalues (fun _ => Function.update_idem ..)
      (.opened hp hocc hadm)

/-- A datagram that fails a check is counted, if it has a header, and leaves no other trace. -/
theorem receivePhase_of_screened (args : Args) (st : State) {ev : Event} {d : Bytes} {v : Verdict}
    (hrecv : ev.received = some d) (hscreen : screen d = some v) :
    receivePhase args st ev = ({ st with
      inPacket := st.inPacket.recvfrom d
      packetsIn := if d.length < netsumHdrSize then st.packetsIn else st.packetsIn + 1 },
      v, none, none) := by
  unfold receivePhase
  simp only [hrecv]
  unfold screen at hscreen
  by_cases hshort : d.length < netsumHdrSize
  · have hmin : min d.length netsumMaxPacketSize < netsumHdrSize := by omega
    rw [if_pos hshort, Option.some.injEq] at hscreen
    rw [if_pos hmin, if_pos hshort, hscreen]
  have hmin : ¬ min d.length netsumMaxPacketSize < netsumHdrSize := by
    simp only [netsumMaxPacketSize, netsumMaxChunkLen, netsumHdrSize] at hshort ⊢
    omega
  rw [if_neg hshort] at hscreen
  rw [if_neg hmin, if_neg hshort, decode_recvfrom st.inPacket (Nat.le_of_not_lt hshort)]
  by_cases hlen : (GradHdr.decode d).chunkLen.toNat > netsumMaxChunkLen
  · rw [if_pos hlen, Option.some.injEq] at hscreen
    rw [if_pos hlen, hscreen]
  rw [if_neg hlen] at hscreen
  rw [if_neg hlen]
  -- a cut datagram still has room for every value a header may claim
  have hcut : min d.length netsumMaxPacketSize
        < netsumHdrSize + (GradHdr.decode d).chunkLen.toNat * 4
      ↔ d.length < netsumHdrSize + (GradHdr.decode d).chunkLen.toNat * 4 := by
    simp only [netsumMaxPacketSize, netsumMaxChunkLen, netsumHdrSize] at hlen ⊢
    omega
  rw [if_congr hcut rfl rfl]
  by_cases htrunc : d.length < netsumHdrSize + (GradHdr.decode d).chunkLen.toNat * 4
  · rw [if_pos htrunc, Option.some.injEq] at hscreen
    rw [if_pos htrunc, hscreen]
  rw [if_neg htrunc] at hscreen
  rw [if_neg htrunc]
  by_cases hw : (GradHdr.decode d).workerId.toNat ≥ maxTrackedWorkers
  · rw [if_pos hw, Option.some.injEq] at hscreen
    rw [if_pos hw, hscreen]
  rw [if_neg hw] at hscreen
  rw [if_neg hw]
  by_cases hn : (GradHdr.decode d).numWorkers.toNat = 0
      ∨ (GradHdr.decode d).numWorkers.toNat > maxTrackedWorkers
  · rw [if_pos hn, Option.some.injEq] at hscreen
    rw [if_pos hn, hscreen]
  · rw [if_neg hn] at hscreen
    cases hscreen

/-- A well-formed datagram reaches the slot phase. -/
theorem receivePhase_of_wellFormed (args : Args) (st : State) {ev : Event} {d : Bytes}
    (hrecv : ev.received = some d) (hd : WellFormed d) :
    receivePhase args st ev
      = slotPhase args
        { st with inPacket := st.inPacket.recvfrom d, packetsIn := st.packetsIn + 1 } ev
        (GradHdr.decode d)
        (fun i => ntohl (load32 (st.inPacket.recvfrom d).bytes (netsumHdrSize + 4 * i))) := by
  have hhdr := hd.hdr_le
  have hlen := hd.chunkLen_le
  have hvalues := hd.values_le
  -- the buffer holds a header with 64 values, so a long datagram is cut behind them
  have hmin : ¬ min d.length netsumMaxPacketSize < netsumHdrSize := by
    simp only [netsumMaxPacketSize, netsumMaxChunkLen, netsumHdrSize] at hhdr ⊢
    omega
  have hcut : ¬ min d.length netsumMaxPacketSize
      < netsumHdrSize + (GradHdr.decode d).chunkLen.toNat * 4 := by
    simp only [netsumMaxPacketSize, netsumMaxChunkLen, netsumHdrSize] at hlen hvalues ⊢
    omega
  have hfan : ¬ ((GradHdr.decode d).numWorkers.toNat = 0
      ∨ (GradHdr.decode d).numWorkers.toNat > maxTrackedWorkers) := by
    have h1 := hd.numWorkers_pos
    have h2 := hd.numWorkers_le
    omega
  unfold receivePhase
  simp only [hrecv, decode_recvfrom st.inPacket hhdr]
  rw [if_neg hmin, if_neg (not_lt.mpr hlen), if_neg hcut, if_neg (not_le.mpr hd.workerId_lt),
    if_neg hfan]

/-- **The receive phase has one of the eight effects.** -/
theorem receivePhase_effect (args : Args) (st : State) (ev : Event)
    (hstart : ∀ d, ev.received = some d → st.tables.Started (GradHdr.decode d).key) :
    let r := receivePhase args st ev
    Effect args.gJobQuota ev st.tables r.1.tables r.2.1 r.2.2.1 r.2.2.2 := by
  cases hrecv : ev.received with
  | none =>
    unfold receivePhase
    rw [hrecv]
    exact .idle hrecv
  | some d =>
    cases hscreen : screen d with
    | some v =>
      rw [receivePhase_of_screened args st hrecv hscreen]
      exact .screened hrecv hscreen
    | none =>
      have hd := (screen_eq_none d).mp hscreen
      rw [receivePhase_of_wellFormed args st hrecv hd]
      exact slotPhase_effect args
        { st with inPacket := st.inPacket.recvfrom d, packetsIn := st.packetsIn + 1 } hrecv hd
        (fun i hi => valueAt_recvfrom st.inPacket hd hi) (hstart d hrecv)

/-! ## The reaper phase -/

/-- When the sweep is due, the phase is the sweep. -/
theorem reapPhase_of_due {args : Args} {st : State} {ev : Event}
    (h : 0 < args.slotTtlMs ∧ ev.nowLoop - st.lastReapMicros ≥ args.reapIntervalMicros) :
    ∃ r, r = reapExpiredSlots args.slotTtlMs ev.nowReap st.tables
      ∧ reapPhase args st ev
        = ({ st with tables := r.1, lastReapMicros := ev.nowLoop }, r.2) := by
  unfold reapPhase
  generalize reapExpiredSlots args.slotTtlMs ev.nowReap st.tables = r
  exact ⟨r, rfl, if_pos h⟩

theorem reapPhase_of_not_due {args : Args} {st : State} {ev : Event}
    (h : ¬ (0 < args.slotTtlMs ∧ ev.nowLoop - st.lastReapMicros ≥ args.reapIntervalMicros)) :
    reapPhase args st ev = (st, []) := by
  unfold reapPhase
  rw [if_neg h]

/-- The reaper phase clears exactly the slots it logs, and they were in use. -/
theorem reapPhase_gSlots (args : Args) (st : State) (ev : Event) (i : SlotIdx) :
    (i ∈ (reapPhase args st ev).2 → (st.tables.gSlots i).inUse = true
      ∧ (reapPhase args st ev).1.tables.gSlots i
        = { st.tables.gSlots i with inUse := false })
    ∧ (i ∉ (reapPhase args st ev).2 →
      (reapPhase args st ev).1.tables.gSlots i = st.tables.gSlots i) := by
  by_cases h : 0 < args.slotTtlMs ∧ ev.nowLoop - st.lastReapMicros ≥ args.reapIntervalMicros
  · obtain ⟨r, hr, hphase⟩ := reapPhase_of_due h
    have hmem : i ∈ r.2 ↔ _ :=
      hr ▸ mem_reapExpiredSlots args.slotTtlMs ev.nowReap st.tables i
    have hslot : r.1.gSlots i = _ :=
      hr ▸ reapExpiredSlots_gSlots args.slotTtlMs ev.nowReap st.tables i
    rw [hphase]
    refine ⟨fun hi => ?_, fun hi => ?_⟩
    · have he := hmem.mp hi
      exact ⟨he.1, hslot.trans (if_pos he)⟩
    · exact hslot.trans (if_neg fun he => hi (hmem.mpr he))
  · rw [reapPhase_of_not_due h]
    simp

/-- What freeing an in-use slot and logging it keeps, the reaper phase keeps. -/
theorem reapPhase_log_induction (P : Tables → List SlotIdx → Prop)
    (hfree : ∀ t log i, (t.gSlots i).inUse = true → P t log → P (freeSlot t i) (log ++ [i]))
    (args : Args) {st : State} (h0 : P st.tables []) (ev : Event) :
    P (reapPhase args st ev).1.tables (reapPhase args st ev).2 := by
  by_cases h : 0 < args.slotTtlMs ∧ ev.nowLoop - st.lastReapMicros ≥ args.reapIntervalMicros
  · obtain ⟨r, hr, hphase⟩ := reapPhase_of_due h
    have hkeep : P r.1 r.2 :=
      hr ▸ reapExpiredSlots_log_induction P hfree h0 args.slotTtlMs ev.nowReap
    rw [hphase]
    exact hkeep
  · rw [reapPhase_of_not_due h]
    exact h0

/-- What freeing an in-use slot keeps, the reaper phase keeps. -/
theorem reapPhase_induction (P : Tables → Prop)
    (hfree : ∀ t i, (t.gSlots i).inUse = true → P t → P (freeSlot t i)) (args : Args)
    {st : State} (h0 : P st.tables) (ev : Event) : P (reapPhase args st ev).1.tables :=
  reapPhase_log_induction (fun t _ => P t) (fun t _ i => hfree t i) args h0 ev

/-- With the reaper off the reaper phase does nothing. -/
theorem reapPhase_of_ttl_zero {args : Args} (h : args.slotTtlMs = 0) (st : State) (ev : Event) :
    reapPhase args st ev = (st, []) :=
  reapPhase_of_not_due fun hdue => by omega

/-! ## One iteration -/

/-- **One iteration**: the reaper phase, then one of the eight effects. -/
theorem mainStep_effect (args : Args) (st : State) (ev : Event)
    (hstart : ∀ d, ev.received = some d →
      (reapPhase args st ev).1.tables.Started (GradHdr.decode d).key) :
    Effect args.gJobQuota ev (reapPhase args st ev).1.tables (mainStep args st ev).1.tables
      (mainStep args st ev).2.verdict (mainStep args st ev).2.slot
      (mainStep args st ev).2.sent :=
  receivePhase_effect args (reapPhase args st ev).1 ev hstart

end NetSum.UserspaceAgg
