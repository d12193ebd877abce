import NetSum.UserspaceAgg.DeliveryTheorems
import NetSum.UserspaceAgg.EmissionTheorems

/-!
# Who a packet is the sum of

A slot is completed by a count: as many different worker ids as the fan-in its first datagram
declared. The ids are only checked against 256, and the fan-in of a later datagram against
nothing, so the count can be reached without one of the workers `0, …, N-1`
(`strangerRun_not_from_every_worker`). As long as every datagram that is counted is from a worker
its slot expects (`CountsExpected`), a packet is the sum of exactly those
(`from_every_worker_of_expected`). What a slot shows of the datagrams counted into it is the
invariant (`Marked`).
-/

namespace NetSum.UserspaceAgg

open NetSum.Lib NetSum.Protocol NetSum.Aggregation

/-! ## The datagrams of a packet -/

/-- Datagram `x` is summed in the packet that slot `i` sends at time `T`: it was counted into the
slot, which has not been freed since. -/
structure SummedIn (es : List Event) (os : List Output) (i : SlotIdx) (T : ℕ) (x : ℕ × Bytes) :
    Prop where
  counted : CountedAt es os i x.1 x.2
  le : x.1 ≤ T
  same : SameIncarnation os i x.1 T

/-- Packet `p` of slot `i` is the sum of one datagram from each of the workers `0, …, N-1` and no
others, all of which declare `N` workers. -/
def FromEveryWorker (es : List Event) (os : List Output) (i : SlotIdx) (T : ℕ) (p : Bytes)
    (N : ℕ) : Prop :=
  ∃ batch : List (ℕ × Bytes), (∀ x, x ∈ batch ↔ SummedIn es os i T x) ∧ Reports p batch
    ∧ (batch.map fun x => workerOf x.2).Perm (List.range N)
    ∧ ∀ x ∈ batch, (GradHdr.decode x.2).numWorkers.toNat = N

/-- The datagram of the iteration, if it is counted, is from a worker its slot expects: one that
opens a slot has an id below its own fan-in, one that joins a slot declares the slot's fan-in and
has an id below it. -/
def CountsExpected (args : Args) (st : State) (ev : Event) : Prop :=
  let t := (reapPhase args st ev).1.tables
  ∀ d, ev.received = some d → WellFormed d → ∀ i,
    probe (slotSeq (GradHdr.decode d).key) (stopAt t.occ (GradHdr.decode d).key) = some i →
    (t.occ i = none → (∃ g, Admits args.gJobQuota t.gJobs (GradHdr.decode d).jobId g) →
      workerOf d < (GradHdr.decode d).numWorkers.toNat)
    ∧ (t.occ i = some (GradHdr.decode d).key →
      (t.gSlots i).chunkLen = (GradHdr.decode d).chunkLen →
      (t.gSlots i).seenWorker (Contribution.ofDatagram d).worker = 0 →
      (t.gSlots i).numWorkersExpected = (GradHdr.decode d).numWorkers
        ∧ workerOf d < (GradHdr.decode d).numWorkers.toNat)

/-! ## What a slot shows of a datagram -/

/-- The slot is in use, has marked the datagram's worker, and expects as many workers as the
datagram declares, its own among them. -/
structure Slot.Marks (s : Slot) (d : Bytes) : Prop where
  inUse : s.inUse = true
  seen : s.seenWorker (Contribution.ofDatagram d).worker ≠ 0
  fanIn_eq : s.numWorkersExpected = (GradHdr.decode d).numWorkers
  worker_lt : workerOf d < (GradHdr.decode d).numWorkers.toNat

section

variable {q : ℤ} {ev : Event} {t : Tables} {d : Bytes} {i : SlotIdx} {s : Slot} {g : Jobs}

theorem seenWorker_accumulate_self (s : Slot) (d : Bytes) (values : ℕ → BitVec 32) (now : ℤ) :
    (s.accumulate (GradHdr.decode d) values now).seenWorker (Contribution.ofDatagram d).worker
      ≠ 0 := by
  show Function.update s.seenWorker (Contribution.ofDatagram d).worker 1 _ ≠ 0
  rw [Function.update_self]
  decide

/-- A mark is never taken back. -/
theorem seenWorker_accumulate (s : Slot) (hdr : GradHdr) (values : ℕ → BitVec 32) (now : ℤ)
    {w : Fin maxTrackedWorkers} (h : s.seenWorker w ≠ 0) :
    (s.accumulate hdr values now).seenWorker w ≠ 0 := by
  show Function.update s.seenWorker _ 1 w ≠ 0
  by_cases hw : w = Fin.ofNat _ hdr.workerId.toNat
  · rw [hw, Function.update_self]
    decide
  · rw [Function.update_of_ne hw]
    exact h

/-- A datagram that is counted is marked, and so are those that were. -/
theorem Accepts.marks {args : Args} {st : State} (hexp : CountsExpected args st ev)
    (hrecv : ev.received = some d) (hd : WellFormed d)
    (h : Accepts args.gJobQuota ev (reapPhase args st ev).1.tables d i s g) :
    s.Marks d ∧ ∀ d', ((reapPhase args st ev).1.tables.gSlots i).Marks d' → s.Marks d' := by
  obtain ⟨hopen, hjoin⟩ := hexp d hrecv hd i h.probe_eq
  cases h with
  | joined hprobe hocc hlen hseen =>
    obtain ⟨hfan, hlt⟩ := hjoin hocc hlen hseen
    have hinUse := (Slot.occupant_eq_some.mp hocc).1
    refine ⟨⟨hinUse, seenWorker_accumulate_self _ d _ _, hfan, hlt⟩, fun d' hd' => ?_⟩
    exact ⟨hinUse, seenWorker_accumulate _ _ _ _ hd'.seen, hd'.fanIn_eq, hd'.worker_lt⟩
  | opened hprobe hocc hjobs =>
    have hlt := hopen hocc ⟨g, hjobs⟩
    refine ⟨⟨rfl, seenWorker_accumulate_self _ d _ _, rfl, hlt⟩, fun d' hd' => ?_⟩
    -- a free slot marks nothing
    have hfree := Slot.occupant_eq_none.mp hocc
    rw [hd'.inUse] at hfree
    cases hfree

/-- A worker that a slot has marked is not counted again. -/
theorem Accepts.not_marks (h : Accepts q ev t d i s g) {d' : Bytes} (hd' : (t.gSlots i).Marks d') :
    workerOf d' ≠ workerOf d := by
  intro heq
  cases h with
  | joined hprobe hocc hlen hseen =>
    have hworker : (Contribution.ofDatagram d').worker = (Contribution.ofDatagram d).worker :=
      congrArg (Fin.ofNat maxTrackedWorkers) heq
    exact hd'.seen (hworker ▸ hseen)
  | opened hprobe hocc hjobs =>
    have hfree := Slot.occupant_eq_none.mp hocc
    rw [hd'.inUse] at hfree
    cases hfree

end

/-! ## The invariant -/

section

variable {args : Args} {st₀ : State} {es : List Event}

/-- Every datagram counted before time `T` into a slot that has not been freed since is marked
by the slot. -/
def Marked (args : Args) (st₀ : State) (es : List Event) (T : ℕ) (st : State) : Prop :=
  ∀ i x, CountedAt es (runOut (mainStep args) st₀ es) i x.1 x.2 →
    KeptUntil (runOut (mainStep args) st₀ es) i T [x] → (st.tables.gSlots i).Marks x.2

/-- The reaper phase leaves a slot it does not evict with its marks. -/
theorem Marked.reapPhase {T : ℕ} {ev : Event} (he : es[T]? = some ev)
    (h : Marked args st₀ es T (stateAt (mainStep args) st₀ es T)) {i : SlotIdx} {x : ℕ × Bytes}
    (hx : CountedAt es (runOut (mainStep args) st₀ es) i x.1 x.2) (hlt : x.1 < T)
    (hsame : SameIncarnation (runOut (mainStep args) st₀ es) i x.1 T) :
    ((reapPhase args (stateAt (mainStep args) st₀ es T) ev).1.tables.gSlots i).Marks x.2 := by
  have hnot : i ∉ (UserspaceAgg.reapPhase args (stateAt (mainStep args) st₀ es T) ev).2 :=
    fun hmem => hsame.1 T hlt le_rfl ⟨_, outAt_eq args st₀ he, hmem⟩
  rw [(reapPhase_gSlots args _ ev i).2 hnot]
  refine h i x hx fun y hy => ?_
  obtain rfl := List.mem_singleton.mp hy
  exact ⟨hlt, fun v h1 h2 => hsame.1 v h1 h2.le, hsame.2⟩

/-- The slot that the datagram of this time is counted into marks it, and all that is summed in
the slot so far. -/
theorem Marked.accepts {T : ℕ} {ev : Event} (he : es[T]? = some ev)
    (hexp : CountsExpected args (stateAt (mainStep args) st₀ es T) ev)
    (h : Marked args st₀ es T (stateAt (mainStep args) st₀ es T)) {d : Bytes} {i : SlotIdx}
    {s : Slot} {g : Jobs} (hrecv : ev.received = some d) (hd : WellFormed d)
    (hacc : Accepts args.gJobQuota ev
      (UserspaceAgg.reapPhase args (stateAt (mainStep args) st₀ es T) ev).1.tables d i s g)
    {x : ℕ × Bytes} (hx : SummedIn es (runOut (mainStep args) st₀ es) i T x) : s.Marks x.2 := by
  obtain ⟨hnew, hold⟩ := hacc.marks hexp hrecv hd
  rcases Nat.eq_or_lt_of_le hx.le with hT | hT
  · -- the datagram of this time
    obtain ⟨⟨ev', hev', hrecv'⟩, -⟩ := hx.counted
    rw [hT, he, Option.some.injEq] at hev'
    subst hev'
    obtain rfl := received_unique hrecv' hrecv
    exact hnew
  · exact hold _ (h.reapPhase he hx.counted hT hx.same)

/-- One iteration: the slot of the datagram marks what is summed in it so far, and every other
slot is as it was. -/
theorem Marked.step {T : ℕ} {ev : Event} (he : es[T]? = some ev)
    (hok : (stateAt (mainStep args) st₀ es T).tables.Ok)
    (hexp : CountsExpected args (stateAt (mainStep args) st₀ es T) ev)
    (h : Marked args st₀ es T (stateAt (mainStep args) st₀ es T)) :
    Marked args st₀ es (T + 1) (mainStep args (stateAt (mainStep args) st₀ es T) ev).1 := by
  intro i x hx hkept
  obtain ⟨hlt, hreap, hcomplete⟩ := hkept x (List.mem_singleton_self x)
  have hout := outAt_eq args st₀ he
  have hsame : SameIncarnation (runOut (mainStep args) st₀ es) i x.1 T :=
    ⟨fun v h1 h2 => hreap v h1 (by omega), fun v h1 h2 => hcomplete v h1 (by omega)⟩
  rcases (mainStep_effect_of_ok args hok ev).slot_cases i with
    ⟨hsl, hno⟩ | ⟨d, s, g, hrecv, hd, hacc, hslot, ⟨-, hs, -⟩ | ⟨hv, -⟩⟩
  · rw [hsl]
    refine h.reapPhase he hx (lt_of_le_of_ne (Nat.le_of_lt_succ hlt) fun hT => ?_) hsame
    -- a datagram of this time was counted into the slot
    obtain ⟨-, o, ho, hi, hverdict⟩ := hx
    rw [hT, hout, Option.some.injEq] at ho
    subst ho
    exact hno ⟨hi, hverdict⟩
  · rw [hs]
    exact h.accepts he hexp hrecv hd hacc ⟨hx, Nat.le_of_lt_succ hlt, hsame⟩
  · exact absurd ⟨_, hout, hslot, hv⟩ (hcomplete T (by omega) (by omega))

theorem marked_stateAt (hok : st₀.tables.Ok)
    (hmeet : StepsMeet (mainStep args) (CountsExpected args) st₀ es) :
    ∀ T ≤ es.length, Marked args st₀ es T (stateAt (mainStep args) st₀ es T) := by
  refine stateAt_induction (Marked args st₀ es) (fun i x _ hkept => ?_) fun T ev he h => ?_
  · have := (hkept x (List.mem_singleton_self x)).1
    omega
  · exact h.step he (ok_stateAt args hok es T) (stepsMeet_iff.mp hmeet T ev he)

end

/-! ## The packets -/

/-- A batch that ends at the time of its packet is summed in it. -/
theorem Batch.summedIn {es : List Event} {os : List Output} {i : SlotIdx} {k : GradSlotKey}
    {L N T : ℕ} {batch : List (ℕ × Bytes)} {d : Bytes} (h : Batch es os i k L N batch)
    (hlast : batch.getLast? = some (T, d)) {x : ℕ × Bytes} (hx : x ∈ batch) :
    SummedIn es os i T x := by
  have hcount := h.counted x hx
  obtain ⟨pre, rfl⟩ := List.getLast?_eq_some_iff.mp hlast
  rcases List.mem_append.mp hx with hpre | hx'
  · have hlater := (List.pairwise_append.mp h.ordered).2.2 x hpre (T, d) (by simp)
    exact ⟨hcount, hlater.1.le, hlater.2⟩
  · obtain rfl := List.mem_singleton.mp hx'
    exact ⟨hcount, le_rfl, sameIncarnation_refl os i T⟩

/-- As many different ids below `n` as `n` are all of them. -/
theorem Batch.perm_range {es : List Event} {os : List Output} {i : SlotIdx} {k : GradSlotKey}
    {L N n : ℕ} {batch : List (ℕ × Bytes)} (h : Batch es os i k L N batch)
    (hlength : batch.length = n) (hlt : ∀ x ∈ batch, workerOf x.2 < n) :
    (batch.map fun x => workerOf x.2).Perm (List.range n) := by
  have hnodup : (batch.map fun x => workerOf x.2).Nodup := by
    have hinj : Function.Injective (BitVec.toNat (w := 16)) := fun a b h => BitVec.eq_of_toNat_eq h
    have hworkers := h.workers.map hinj
    rwa [List.map_map] at hworkers
  have hsub : (batch.map fun x => workerOf x.2) ⊆ List.range n := by
    intro w hw
    obtain ⟨x, hx, rfl⟩ := List.mem_map.mp hw
    exact List.mem_range.mpr (hlt x hx)
  apply (hnodup.subperm hsub).perm_of_length_le
  rw [List.length_range, List.length_map, hlength]

section

variable {args : Args} {st₀ : State} {es : List Event} {T : ℕ} {i : SlotIdx}

/-- The slot that sends a packet has marked all that is summed in it. -/
theorem SummedIn.marks (hok : st₀.tables.Ok)
    (hmeet : StepsMeet (mainStep args) (CountsExpected args) st₀ es)
    (hcomplete : CompletedAt (runOut (mainStep args) st₀ es) i T) :
    ∃ s : Slot, (stateAt (mainStep args) st₀ es (T + 1)).tables.gSlots i = { s with inUse := false }
      ∧ ∀ x, SummedIn es (runOut (mainStep args) st₀ es) i T x → s.Marks x.2 := by
  obtain ⟨o, ho, hslot, hv⟩ := hcomplete
  obtain ⟨ev, he⟩ := exists_event_of_out ho
  have hout := outAt_eq args st₀ he
  obtain rfl := Option.some.inj (hout.symm.trans ho)
  have hokT := ok_stateAt args hok es T
  have hexp := stepsMeet_iff.mp hmeet T ev he
  have hmarked := marked_stateAt hok hmeet T (List.getElem?_eq_some_iff.mp he).1.le
  rw [stateAt_succ he]
  rcases (mainStep_effect_of_ok args hokT ev).slot_cases i with
    ⟨-, hno⟩ | ⟨d, s, g, hrecv, hd, hacc, -, ⟨hv', -⟩ | ⟨-, hs, -⟩⟩
  · exact absurd ⟨hslot, .inr hv⟩ hno
  · rw [hv] at hv'
    cases hv'
  · exact ⟨s, hs, fun x hx => hmarked.accepts he hexp hrecv hd hacc hx⟩

/-- No worker is summed twice. -/
theorem SummedIn.eq_of_worker (hok : st₀.tables.Ok)
    (hmeet : StepsMeet (mainStep args) (CountsExpected args) st₀ es) {x y : ℕ × Bytes}
    (hx : SummedIn es (runOut (mainStep args) st₀ es) i T x)
    (hy : SummedIn es (runOut (mainStep args) st₀ es) i T y)
    (hworker : workerOf x.2 = workerOf y.2) : x = y := by
  -- the slot had marked the earlier one when it counted the later one
  have hne : ∀ {x y : ℕ × Bytes}, SummedIn es (runOut (mainStep args) st₀ es) i T x →
      SummedIn es (runOut (mainStep args) st₀ es) i T y → x.1 < y.1 →
      workerOf x.2 ≠ workerOf y.2 := by
    intro x y hx hy hlt
    obtain ⟨⟨ev, he, hrecv⟩, o, ho, hslot, hverdict⟩ := hy.counted
    have hout := outAt_eq args st₀ he
    obtain rfl := Option.some.inj (hout.symm.trans ho)
    have hsame : SameIncarnation (runOut (mainStep args) st₀ es) i x.1 y.1 :=
      ⟨fun v h1 h2 => hx.same.1 v h1 (h2.trans hy.le),
        fun v h1 h2 => hx.same.2 v h1 (lt_of_lt_of_le h2 hy.le)⟩
    have hmarks := (marked_stateAt hok hmeet y.1 (List.getElem?_eq_some_iff.mp he).1.le).reapPhase
      he hx.counted hlt hsame
    rcases (mainStep_effect_of_ok args (ok_stateAt args hok es y.1) ev).slot_cases i with
      ⟨-, hno⟩ | ⟨d, s, g, hrecv', -, hacc, -⟩
    · exact absurd ⟨hslot, hverdict⟩ hno
    · obtain rfl := received_unique hrecv hrecv'
      exact hacc.not_marks hmarks
  rcases Nat.lt_trichotomy x.1 y.1 with hlt | heq | hgt
  · exact absurd hworker (hne hx hy hlt)
  · obtain ⟨⟨ev, he, hrecv⟩, -⟩ := hx.counted
    obtain ⟨⟨ev', he', hrecv'⟩, -⟩ := hy.counted
    rw [← heq, he, Option.some.injEq] at he'
    subst he'
    exact Prod.ext heq (received_unique hrecv' hrecv)
  · exact absurd hworker.symm (hne hy hx hgt)

end

/-- **Completion means every expected worker**, as long as only expected workers are counted: a
packet is the sum of one datagram from each of the workers `0, …, N-1`, where `N` is the fan-in
its slot has latched, and all of them declare `N` workers. -/
theorem from_every_worker_of_expected (args : Args) (inPacket outPacket : Buffer) (now : ℤ)
    (es : List Event)
    (hmeet : StepsMeet (mainStep args) (CountsExpected args)
      (State.init inPacket outPacket now) es) :
    let st₀ := State.init inPacket outPacket now
    let os := runOut (mainStep args) st₀ es
    ∀ T p i, SentAt os T p → CompletedAt os i T →
      FromEveryWorker es os i T p
        ((stateAt (mainStep args) st₀ es (T + 1)).tables.gSlots i).numWorkersExpected.toNat := by
  intro st₀ os T p i hsent hcomplete
  have hok : st₀.tables.Ok := State.init_ok inPacket outPacket now
  obtain ⟨j, batch, hbatch, ⟨d, hlast⟩, -, hcomplete', hpos, -, hreports⟩ :=
    batch_of_sent (ledgered_init inPacket outPacket now) hok hsent
  -- an iteration completes one slot
  obtain rfl : j = i := by
    obtain ⟨o, ho, hj, -⟩ := hcomplete'
    obtain ⟨o', ho', hi, -⟩ := hcomplete
    obtain rfl := Option.some.inj (ho.symm.trans ho')
    exact Option.some.inj (hj.symm.trans hi)
  obtain ⟨s, hs, hmarks⟩ := SummedIn.marks hok hmeet hcomplete
  have hsummed : ∀ x ∈ batch, SummedIn es os j T x := fun x hx => hbatch.summedIn hlast hx
  have hdeclared : ∀ x ∈ batch, (GradHdr.decode x.2).numWorkers.toNat
      = s.numWorkersExpected.toNat := fun x hx =>
    congrArg BitVec.toNat (hmarks x (hsummed x hx)).fanIn_eq.symm
  have hlength : batch.length = s.numWorkersExpected.toNat := by
    obtain ⟨x, hx, hN⟩ := hbatch.fanIn_eq
    rw [← hN, hdeclared x (List.mem_of_mem_head? hx)]
  have hlt : ∀ x, SummedIn es os j T x → workerOf x.2 < s.numWorkersExpected.toNat := by
    intro x hx
    rw [(hmarks x hx).fanIn_eq]
    exact (hmarks x hx).worker_lt
  have hperm : (batch.map fun x => workerOf x.2).Perm (List.range s.numWorkersExpected.toNat) :=
    hbatch.perm_range hlength fun x hx => hlt x (hsummed x hx)
  rw [hs]
  refine ⟨batch, fun x => ⟨hsummed x, fun hx => ?_⟩, hreports, hperm, hdeclared⟩
  -- its worker is in the batch, and no worker is summed twice
  have hmem : workerOf x.2 ∈ batch.map fun x => workerOf x.2 := by
    rw [hperm.mem_iff, List.mem_range]
    exact hlt x hx
  obtain ⟨y, hy, hxy⟩ := List.mem_map.mp hmem
  rw [← SummedIn.eq_of_worker hok hmeet (hsummed y hy) hx hxy]
  exact hy

theorem sentAt_of_isSome {os : List Output} {T : ℕ}
    (h : (os[T]?.bind Output.sent).isSome = true) : ∃ p, SentAt os T p := by
  obtain ⟨p, hp⟩ := Option.isSome_iff_exists.mp h
  obtain ⟨o, ho, hsent⟩ := Option.bind_eq_some_iff.mp hp
  exact ⟨p, o, ho, hsent⟩

theorem completedAt_of_map {os : List Output} {T : ℕ} {i : SlotIdx}
    (h : os[T]?.map (fun o => (o.slot, o.verdict)) = some (some i, .complete)) :
    CompletedAt os i T := by
  obtain ⟨o, ho, hov⟩ := Option.map_eq_some_iff.mp h
  exact ⟨o, ho, congrArg Prod.fst hov, congrArg Prod.snd hov⟩

/-- Two datagrams of one key, from the two workers it expects. -/
def expectedRun : List Event := [received 1 0 0 5, received 1 0 1 7]

theorem expectedRun_expected :
    StepsMeet (mainStep ⟨0, 0⟩) (CountsExpected ⟨0, 0⟩) (State.init Buffer.zero Buffer.zero 0)
      expectedRun := by
  have hmeet : ∀ {st : State} {w : BitVec 16} {v : BitVec 32},
      w.toNat < 2 → workerOf (workerPacket ⟨1, 0, 0, w, 2, 1, 0⟩ fun _ => v) = w.toNat →
      (GradHdr.decode (workerPacket ⟨1, 0, 0, w, 2, 1, 0⟩ fun _ => v)).numWorkers = 2 →
      (∀ i, probe (slotSeq (GradHdr.decode (workerPacket ⟨1, 0, 0, w, 2, 1, 0⟩ fun _ => v)).key)
        (stopAt st.tables.occ
          (GradHdr.decode (workerPacket ⟨1, 0, 0, w, 2, 1, 0⟩ fun _ => v)).key) = some i →
        st.tables.occ i ≠ none → (st.tables.gSlots i).numWorkersExpected = 2) →
      CountsExpected ⟨0, 0⟩ st (received 1 0 w v) := by
    intro st w v hw hworker hfan hslot d hrecv hd i hprobe
    rw [reapPhase_of_ttl_zero rfl] at hprobe ⊢
    obtain rfl := Option.some.inj hrecv
    rw [hworker, hfan]
    exact ⟨fun _ _ => hw, fun hocc _ _ => ⟨hslot i hprobe (by rw [hocc]; nofun), hw⟩⟩
  refine ⟨hmeet (by decide) (by decide +kernel) (by decide +kernel) (fun i hprobe hocc => ?_),
    hmeet (by decide) (by decide +kernel) (by decide +kernel) (fun i hprobe _ => ?_), trivial⟩
  · exact absurd (occ_zero i) hocc
  · -- the slot the first datagram opened
    have hfirst : probe (slotSeq ⟨1, 0, 0⟩) (stopAt (mainStep ⟨0, 0⟩
        (State.init Buffer.zero Buffer.zero 0) (received 1 0 0 5)).1.tables.occ ⟨1, 0, 0⟩)
        = some 56546 := by decide +kernel
    have hkey : (GradHdr.decode (workerPacket ⟨1, 0, 0, 1, 2, 1, 0⟩ fun _ => 7)).key
        = ⟨1, 0, 0⟩ := by decide +kernel
    rw [hkey, hfirst] at hprobe
    obtain rfl := Option.some.inj hprobe
    decide +kernel

/-- Its packet is the sum of both. -/
theorem expectedRun_from_every_worker :
    let os := runOut (mainStep ⟨0, 0⟩) (State.init Buffer.zero Buffer.zero 0) expectedRun
    ∃ p, SentAt os 1 p ∧ CompletedAt os 56546 1 ∧ FromEveryWorker expectedRun os 56546 1 p 2 := by
  intro os
  obtain ⟨p, hsent⟩ : ∃ p, SentAt os 1 p := sentAt_of_isSome (by decide +kernel)
  have hcomplete : CompletedAt os 56546 1 := completedAt_of_map (by decide +kernel)
  have hfrom := from_every_worker_of_expected ⟨0, 0⟩ Buffer.zero Buffer.zero 0 expectedRun
    expectedRun_expected 1 p 56546 hsent hcomplete
  have hfan : ((stateAt (mainStep ⟨0, 0⟩) (State.init Buffer.zero Buffer.zero 0) expectedRun
      2).tables.gSlots 56546).numWorkersExpected.toNat = 2 := by decide +kernel
  exact ⟨p, hsent, hcomplete, hfan ▸ hfrom⟩

/-- Two datagrams of one key, from one of the two workers it expects and from another. -/
def strangerRun : List Event := [received 1 0 0 5, received 1 0 5 7]

/-- Its packet is sent without a datagram of worker 1. -/
theorem strangerRun_not_from_every_worker :
    let st₀ := State.init Buffer.zero Buffer.zero 0
    let os := runOut (mainStep ⟨0, 0⟩) st₀ strangerRun
    ∃ p, SentAt os 1 p ∧ CompletedAt os 56546 1
      ∧ ¬ FromEveryWorker strangerRun os 56546 1 p
        ((stateAt (mainStep ⟨0, 0⟩) st₀ strangerRun 2).tables.gSlots
          56546).numWorkersExpected.toNat := by
  intro st₀ os
  obtain ⟨p, hsent⟩ : ∃ p, SentAt os 1 p := sentAt_of_isSome (by decide +kernel)
  have hfan : ((stateAt (mainStep ⟨0, 0⟩) st₀ strangerRun 2).tables.gSlots
      56546).numWorkersExpected.toNat = 2 := by decide +kernel
  refine ⟨p, hsent, completedAt_of_map (by decide +kernel), fun hfrom => ?_⟩
  rw [hfan] at hfrom
  obtain ⟨batch, hsummed, -, hperm, -⟩ := hfrom
  have hmem : 1 ∈ batch.map fun x => workerOf x.2 := hperm.mem_iff.mpr (by decide)
  obtain ⟨x, hx, hworker⟩ := List.mem_map.mp hmem
  obtain ⟨⟨ev, hev, hrecv⟩, -⟩ := ((hsummed x).mp hx).counted
  -- the workers of the two datagrams are 0 and 5
  have hworkers : ∀ ev ∈ strangerRun, ev.received.map workerOf ≠ some 1 := by decide +kernel
  exact hworkers ev (List.mem_of_getElem? hev) (by rw [hrecv, Option.map_some, hworker])

end NetSum.UserspaceAgg
