import NetSum.UserspaceAgg.Invariants

/-!
# Emission integrity

Which datagrams an emitted packet is the sum of. A `Batch` is a list of datagrams, with their
times of delivery, that were counted one after the other into one incarnation of one slot. The
invariant (`Ledger`) ties every slot in use to the batch it holds; the packet sent on
completion is the sum of the batch and of the datagram that completed it
(`batch_of_sent`), and the batches of two packets have no datagram in common
(`Batch.disjoint_of_lt`).
-/

namespace NetSum.UserspaceAgg

open NetSum.Lib NetSum.Protocol NetSum.Aggregation

/-! ## What the outputs of a run say -/

/-- Datagram `d` was delivered at time `T` and counted into slot `i`. -/
def CountedAt (es : List Event) (os : List Output) (i : SlotIdx) (T : ℕ) (d : Bytes) : Prop :=
  (∃ ev, es[T]? = some ev ∧ ev.received = some d)
    ∧ ∃ o, os[T]? = some o ∧ o.slot = some i ∧ (o.verdict = .absorbed ∨ o.verdict = .complete)

/-- Slot `i` was evicted at time `T`, ahead of the datagram of that time. -/
def ReapedAt (os : List Output) (i : SlotIdx) (T : ℕ) : Prop :=
  ∃ o, os[T]? = some o ∧ i ∈ o.reaped

/-- The datagram of time `T` completed slot `i`. -/
def CompletedAt (os : List Output) (i : SlotIdx) (T : ℕ) : Prop :=
  ∃ o, os[T]? = some o ∧ o.slot = some i ∧ o.verdict = .complete

/-- Packet `p` was sent at time `T`. -/
def SentAt (os : List Output) (T : ℕ) (p : Bytes) : Prop :=
  ∃ o, os[T]? = some o ∧ o.sent = some p

/-- Slot `i` is not freed between the datagram of time `u` and that of time `T`. -/
def SameIncarnation (os : List Output) (i : SlotIdx) (u T : ℕ) : Prop :=
  (∀ v, u < v → v ≤ T → ¬ ReapedAt os i v) ∧ ∀ v, u ≤ v → v < T → ¬ CompletedAt os i v

/-- Datagrams of key `k` and chunk length `L`, from different workers and with the fan-in of
the first, counted one after the other into one incarnation of slot `i`. -/
structure Batch (es : List Event) (os : List Output) (i : SlotIdx) (k : GradSlotKey) (L N : ℕ)
    (batch : List (ℕ × Bytes)) : Prop where
  counted : ∀ x ∈ batch, CountedAt es os i x.1 x.2
  wellFormed : ∀ x ∈ batch, WellFormed x.2
  key_eq : ∀ x ∈ batch, (GradHdr.decode x.2).key = k
  chunkLen_eq : ∀ x ∈ batch, (GradHdr.decode x.2).chunkLen.toNat = L
  fanIn_eq : ∃ x, batch.head? = some x ∧ (GradHdr.decode x.2).numWorkers.toNat = N
  workers : (batch.map fun x => (GradHdr.decode x.2).workerId).Nodup
  ordered : batch.Pairwise fun x y => x.1 < y.1 ∧ SameIncarnation os i x.1 y.1

/-- The packet reports the sum of the batch. -/
structure Reports (p : Bytes) (batch : List (ℕ × Bytes)) : Prop where
  length_eq : p.length = netsumHdrSize + 4 * (GradHdr.decode p).chunkLen.toNat
  workerId_eq : (GradHdr.decode p).workerId = 0
  numWorkers_eq : (GradHdr.decode p).numWorkers = 1
  chunkLen_le : (GradHdr.decode p).chunkLen.toNat ≤ netsumMaxChunkLen
  value_eq : ∀ j < (GradHdr.decode p).chunkLen.toNat,
    valueAt p j = (batch.map fun x => valueAt x.2 j).sum

/-! ## Batches -/

/-- The round a batch makes up. -/
def contributions (batch : List (ℕ × Bytes)) : List Contribution :=
  batch.map fun x => Contribution.ofDatagram x.2

/-- A datagram alone is a batch. -/
theorem Batch.singleton {es : List Event} {os : List Output} {i : SlotIdx} {T : ℕ} {d : Bytes}
    (hcount : CountedAt es os i T d) (hd : WellFormed d) :
    Batch es os i (GradHdr.decode d).key (GradHdr.decode d).chunkLen.toNat
      (GradHdr.decode d).numWorkers.toNat [(T, d)] where
  counted := by simpa using hcount
  wellFormed := by simpa using hd
  key_eq := by simp
  chunkLen_eq := by simp
  fanIn_eq := ⟨_, rfl, rfl⟩
  workers := by simp
  ordered := by simp

/-- A datagram counted into the same incarnation, from a new worker, extends a batch. -/
theorem Batch.concat {es : List Event} {os : List Output} {i : SlotIdx} {L N T : ℕ}
    {batch : List (ℕ × Bytes)} {d : Bytes}
    (h : Batch es os i (GradHdr.decode d).key L N batch)
    (hcount : CountedAt es os i T d) (hd : WellFormed d)
    (hlen : (GradHdr.decode d).chunkLen.toNat = L)
    (hnew : (GradHdr.decode d).workerId ∉ batch.map fun x => (GradHdr.decode x.2).workerId)
    (hlater : ∀ x ∈ batch, x.1 < T ∧ SameIncarnation os i x.1 T) :
    Batch es os i (GradHdr.decode d).key L N (batch ++ [(T, d)]) where
  counted := by
    simp only [List.mem_append, List.mem_singleton]
    rintro x (hx | rfl)
    · exact h.counted x hx
    · exact hcount
  wellFormed := by
    simp only [List.mem_append, List.mem_singleton]
    rintro x (hx | rfl)
    · exact h.wellFormed x hx
    · exact hd
  key_eq := by
    simp only [List.mem_append, List.mem_singleton]
    rintro x (hx | rfl)
    · exact h.key_eq x hx
    · rfl
  chunkLen_eq := by
    simp only [List.mem_append, List.mem_singleton]
    rintro x (hx | rfl)
    · exact h.chunkLen_eq x hx
    · exact hlen
  fanIn_eq := by
    obtain ⟨x, hx, hN⟩ := h.fanIn_eq
    exact ⟨x, by rw [List.head?_append, hx]; rfl, hN⟩
  workers := nodup_map_append_singleton h.workers hnew
  ordered := by
    rw [List.pairwise_append]
    refine ⟨h.ordered, by simp, fun x hx y hy => ?_⟩
    obtain rfl := List.mem_singleton.mp hy
    exact hlater x hx

/-- A batch of one slot, completed at time `T`, has no datagram in common with a batch that
ends later. -/
theorem Batch.disjoint_of_lt {es : List Event} {os : List Output} {i i' : SlotIdx}
    {k k' : GradSlotKey} {L L' N N' T T' : ℕ} {batch batch' : List (ℕ × Bytes)} {d' : Bytes}
    (h : Batch es os i k L N batch) (h' : Batch es os i' k' L' N' batch')
    (hT : ∀ x ∈ batch, x.1 ≤ T) (hcomplete : CompletedAt os i T)
    (hlast : batch'.getLast? = some (T', d')) (hlt : T < T') {x y : ℕ × Bytes}
    (hx : x ∈ batch) (hy : y ∈ batch') : x.1 ≠ y.1 := by
  intro hxy
  -- the two were counted into the same slot
  obtain ⟨-, o, ho, hi, -⟩ := h.counted x hx
  obtain ⟨-, o', ho', hi', -⟩ := h'.counted y hy
  rw [hxy] at ho
  obtain rfl : o = o' := Option.some.inj (ho.symm.trans ho')
  obtain rfl : i = i' := Option.some.inj (hi.symm.trans hi')
  -- and the slot was completed in between
  obtain ⟨pre, rfl⟩ := List.getLast?_eq_some_iff.mp hlast
  have hle := hT x hx
  rcases List.mem_append.mp hy with hy | hy
  · have hsame := (List.pairwise_append.mp h'.ordered).2.2 y hy (T', d') (by simp)
    exact hsame.2.2 T (by omega) hlt hcomplete
  · obtain rfl := List.mem_singleton.mp hy
    simp only at hxy
    omega

/-! ## The invariant -/

/-- The slot is the tally of the batch. -/
structure Ledger (es : List Event) (os : List Output) (i : SlotIdx) (s : Slot)
    (batch : List (ℕ × Bytes)) : Prop where
  isBatch : Batch es os i s.key s.chunkLen.toNat s.numWorkersExpected.toNat batch
  tally : ∃ r : Round, s.tally = r.tally ∧ r.absorbed = contributions batch

/-- Before time `T`: slot `i` has not been freed since each datagram of the batch. -/
def KeptUntil (os : List Output) (i : SlotIdx) (T : ℕ) (batch : List (ℕ × Bytes)) : Prop :=
  ∀ x ∈ batch, x.1 < T ∧ (∀ v, x.1 < v → v < T → ¬ ReapedAt os i v)
    ∧ ∀ v, x.1 ≤ v → v < T → ¬ CompletedAt os i v

theorem KeptUntil.sameIncarnation {os : List Output} {i : SlotIdx} {T : ℕ}
    {batch : List (ℕ × Bytes)} (h : KeptUntil os i T batch) (hreap : ¬ ReapedAt os i T) :
    ∀ x ∈ batch, x.1 < T ∧ SameIncarnation os i x.1 T := by
  intro x hx
  obtain ⟨hlt, hr, hc⟩ := h x hx
  refine ⟨hlt, fun v hv hvT => ?_, hc⟩
  rcases Nat.eq_or_lt_of_le hvT with rfl | hvT
  · exact hreap
  · exact hr v hv hvT

/-- One more iteration that neither evicts nor completes the slot. -/
theorem KeptUntil.succ {os : List Output} {i : SlotIdx} {T : ℕ} {batch : List (ℕ × Bytes)}
    (h : ∀ x ∈ batch, x.1 ≤ T ∧ SameIncarnation os i x.1 T)
    (hcomplete : ¬ CompletedAt os i T) : KeptUntil os i (T + 1) batch := by
  intro x hx
  obtain ⟨hle, hr, hc⟩ := h x hx
  refine ⟨by omega, fun v hv hvT => hr v hv (by omega), fun v hv hvT => ?_⟩
  rcases Nat.eq_or_lt_of_le (Nat.le_of_lt_succ hvT) with rfl | hvT
  · exact hcomplete
  · exact hc v hv hvT

theorem sameIncarnation_refl (os : List Output) (i : SlotIdx) (T : ℕ) :
    SameIncarnation os i T T :=
  ⟨fun v h1 h2 => by omega, fun v h1 h2 => by omega⟩

/-- Counting a datagram in at time `T` extends the slot's batch, or starts one. -/
theorem Accepts.ledger {es : List Event} {os : List Output} {q : ℤ} {ev : Event} {t : Tables}
    {d : Bytes} {i : SlotIdx} {s : Slot} {g : Jobs} {T : ℕ} (h : Accepts q ev t d i s g)
    (hd : WellFormed d) (hcount : CountedAt es os i T d) (ht : t.Ok)
    (hold : (t.gSlots i).inUse = true → ∃ batch, Ledger es os i (t.gSlots i) batch
      ∧ ∀ x ∈ batch, x.1 < T ∧ SameIncarnation os i x.1 T) :
    ∃ batch, Ledger es os i s batch ∧ batch.getLast? = some (T, d)
      ∧ ∀ x ∈ batch, x.1 ≤ T ∧ SameIncarnation os i x.1 T := by
  cases h with
  | joined hprobe hocc hlen hseen =>
    obtain ⟨hu, hkey⟩ := Slot.occupant_eq_some.mp hocc
    obtain ⟨batch, ⟨hbatch, r, htally, habs⟩, hlater⟩ := hold hu
    obtain ⟨r', hr'⟩ := ht i hu
    have hr := hr'.congr_tally htally
    obtain ⟨hnot, htally'⟩ := tally_joined hr hseen ev.nowTouched
    refine ⟨batch ++ [(T, d)], ⟨?_, _, htally', ?_⟩, by simp, ?_⟩
    · -- a worker id already in the batch would have been marked
      have hnew : (GradHdr.decode d).workerId
          ∉ batch.map fun x => (GradHdr.decode x.2).workerId := by
        intro hmem
        obtain ⟨x, hx, hw⟩ := List.mem_map.mp hmem
        refine hnot ?_
        rw [Round.Has, habs, contributions, List.map_map]
        refine List.mem_map.mpr ⟨x, hx, ?_⟩
        simp only [Function.comp, Contribution.ofDatagram, hw]
      have hb := Batch.concat (hkey ▸ hbatch) hcount hd (by rw [hlen]) hnew hlater
      rwa [← hkey] at hb
    · simp only [Round.absorb, habs, contributions, List.map_append, List.map_cons, List.map_nil]
    · simp only [List.mem_append, List.mem_singleton]
      rintro x (hx | rfl)
      · exact ⟨(hlater x hx).1.le, (hlater x hx).2⟩
      · exact ⟨le_rfl, sameIncarnation_refl os i T⟩
  | opened hprobe hocc hjobs =>
    refine ⟨[(T, d)], ⟨Batch.singleton hcount hd, _, tally_opened d _ _, rfl⟩, rfl, ?_⟩
    simp only [List.mem_singleton]
    rintro x rfl
    exact ⟨le_rfl, sameIncarnation_refl os i T⟩

/-! ## Over a run -/

section

variable (args : Args) (st₀ : State) (es : List Event)

/-- Every slot in use is the tally of a batch, and has not been freed since. -/
def Ledgered (T : ℕ) (st : State) : Prop :=
  ∀ i, (st.tables.gSlots i).inUse = true →
    ∃ batch, Ledger es (runOut (mainStep args) st₀ es) i (st.tables.gSlots i) batch
      ∧ KeptUntil (runOut (mainStep args) st₀ es) i T batch

variable {args st₀ es}

variable (args st₀) in
theorem outAt_eq {T : ℕ} {ev : Event} (he : es[T]? = some ev) :
    (runOut (mainStep args) st₀ es)[T]?
      = some (mainStep args (stateAt (mainStep args) st₀ es T) ev).2 := by
  rw [runOut_getElem?, he]
  rfl

/-- At the start no slot is in use. -/
theorem ledgered_init (inPacket outPacket : Buffer) (now : ℤ) :
    Ledgered args (State.init inPacket outPacket now) es 0 (State.init inPacket outPacket now) :=
  fun i hi => by cases hi

/-- A slot in use after the reaper phase was in use before it, unchanged and not evicted. -/
theorem Ledgered.reapPhase {T : ℕ} {ev : Event} (he : es[T]? = some ev)
    (h : Ledgered args st₀ es T (stateAt (mainStep args) st₀ es T)) (i : SlotIdx) :
    let t := (reapPhase args (stateAt (mainStep args) st₀ es T) ev).1.tables
    (t.gSlots i).inUse = true →
      ∃ batch, Ledger es (runOut (mainStep args) st₀ es) i (t.gSlots i) batch
        ∧ ∀ x ∈ batch, x.1 < T ∧ SameIncarnation (runOut (mainStep args) st₀ es) i x.1 T := by
  intro t hu
  obtain ⟨hreaped, hnot⟩ := reapPhase_gSlots args (stateAt (mainStep args) st₀ es T) ev i
  by_cases hi : i ∈ (UserspaceAgg.reapPhase args (stateAt (mainStep args) st₀ es T) ev).2
  · have hslot : (t.gSlots i).inUse = false := by rw [(hreaped hi).2]
    rw [hslot] at hu
    cases hu
  · have hslot : t.gSlots i = _ := hnot hi
    rw [hslot] at hu ⊢
    obtain ⟨batch, hled, hkept⟩ := h i hu
    refine ⟨batch, hled, hkept.sameIncarnation ?_⟩
    rintro ⟨o, ho, hio⟩
    rw [outAt_eq args st₀ he, Option.some.injEq] at ho
    subst ho
    exact hi hio

theorem ledgered_stateAt (h₀ : Ledgered args st₀ es 0 st₀) (hok : st₀.tables.Ok) :
    ∀ T ≤ es.length, Ledgered args st₀ es T (stateAt (mainStep args) st₀ es T) := by
  refine stateAt_induction (Ledgered args st₀ es) h₀ fun T ev he hled i hu => ?_
  set st := stateAt (mainStep args) st₀ es T
  have hst : st.tables.Ok := ok_stateAt args hok es T
  have hold := hled.reapPhase he i
  have hout := outAt_eq args st₀ he
  rcases (mainStep_effect_of_ok args hst ev).slot_cases i with
    ⟨hsame, hnot⟩ | ⟨d, s, g, hrecv, hd, hacc, hslot, ⟨hv, hs, -, -⟩ | ⟨-, hs, -⟩⟩
  · -- nothing counted in
    rw [hsame] at hu ⊢
    obtain ⟨batch, hbatch, hlater⟩ := hold hu
    refine ⟨batch, hbatch, KeptUntil.succ (fun x hx => ⟨(hlater x hx).1.le, (hlater x hx).2⟩) ?_⟩
    rintro ⟨o, ho, hi, hv⟩
    rw [hout, Option.some.injEq] at ho
    subst ho
    exact hnot ⟨hi, .inr hv⟩
  · -- one more datagram
    have hcount : CountedAt es (runOut (mainStep args) st₀ es) i T d :=
      ⟨⟨ev, he, hrecv⟩, _, hout, hslot, .inl hv⟩
    obtain ⟨batch, hbatch, -, hlater⟩ := hacc.ledger hd hcount (reapPhase_ok hst ev) hold
    rw [hs]
    refine ⟨batch, hbatch, KeptUntil.succ hlater ?_⟩
    rintro ⟨o, ho, -, hv'⟩
    rw [hout, Option.some.injEq] at ho
    subst ho
    rw [hv] at hv'
    cases hv'
  · rw [hs] at hu
    cases hu

/-- A packet is the sum of a batch that ends with the datagram it was sent for. -/
theorem batch_of_sent (h₀ : Ledgered args st₀ es 0 st₀) (hok : st₀.tables.Ok) {T : ℕ} {p : Bytes}
    (hsent : SentAt (runOut (mainStep args) st₀ es) T p) :
    ∃ i batch, Batch es (runOut (mainStep args) st₀ es) i (GradHdr.decode p).key
        (GradHdr.decode p).chunkLen.toNat batch.length batch
      ∧ (∃ d, batch.getLast? = some (T, d)) ∧ (∀ x ∈ batch, x.1 ≤ T)
      ∧ CompletedAt (runOut (mainStep args) st₀ es) i T
      ∧ 1 ≤ batch.length ∧ batch.length ≤ maxTrackedWorkers ∧ Reports p batch := by
  obtain ⟨o, ho, hsent⟩ := hsent
  obtain ⟨ev, he⟩ := exists_event_of_out ho
  have hout := outAt_eq args st₀ he
  obtain rfl := Option.some.inj (hout.symm.trans ho)
  set st := stateAt (mainStep args) st₀ es T
  have hst : st.tables.Ok := ok_stateAt args hok es T
  have hled := ledgered_stateAt h₀ hok T
    (List.getElem?_eq_some_iff.mp he).1.le
  have heff := mainStep_effect_of_ok args hst ev
  rw [hsent] at heff
  obtain ⟨d, i, s, g, hrecv, hd, hacc, hslot, hv, hge, hp⟩ := heff.sent_cases
  have hcount : CountedAt es (runOut (mainStep args) st₀ es) i T d :=
    ⟨⟨ev, he, hrecv⟩, _, hout, hslot, .inr hv⟩
  obtain ⟨batch, ⟨hbatch, r, htally, habs⟩, hlast, hlater⟩ :=
    hacc.ledger hd hcount (reapPhase_ok hst ev) (hled.reapPhase he i)
  obtain ⟨r', htally', -, hfull, hfan, hlen⟩ := hacc.round hd (reapPhase_ok hst ev)
  -- the counter has reached the fan-in
  have hcountEq : s.tally.count = batch.length := by
    rw [htally]
    simp only [Round.tally, habs, contributions, List.length_map]
  have hfanEq : s.tally.count = s.tally.fanIn := by
    rw [htally'] at hge ⊢
    exact Nat.le_antisymm hfull (Nat.le_of_not_lt hge)
  have hfanLe : s.tally.fanIn ≤ maxTrackedWorkers := by rw [htally']; exact hfan
  have hlenLe : s.tally.chunkLen ≤ netsumMaxChunkLen := by rw [htally']; exact hlen
  have hL : (GradHdr.decode p).chunkLen.toNat = s.chunkLen.toNat := hp.chunkLen_eq
  have hN : s.numWorkersExpected.toNat = batch.length := hfanEq.symm.trans hcountEq
  have hkey : s.key = (GradHdr.decode p).key :=
    (Slot.occupant_eq_some.mp hacc.occupant.1).2.trans hp.key_eq.symm
  rw [hkey, ← hL, hN] at hbatch
  refine ⟨i, batch, hbatch, ⟨d, hlast⟩, fun x hx => (hlater x hx).1, ⟨_, hout, hslot, hv⟩, ?_, ?_,
    ⟨?_, hp.workerId_eq, hp.numWorkers_eq, ?_, fun j hj => ?_⟩⟩
  · exact List.length_pos_iff.mpr fun h0 => by rw [h0] at hlast; cases hlast
  · omega
  · rw [hp.length_eq, hp.chunkLen_eq]
  · rw [hp.chunkLen_eq]
    exact hlenLe
  · -- the slot's sum is the sum of the batch
    have hj' : j < netsumMaxChunkLen := by rw [hp.chunkLen_eq] at hj; omega
    rw [hp.value_eq ⟨j, hj'⟩ (by rwa [hp.chunkLen_eq] at hj), htally]
    simp only [Round.tally, Round.sum, habs, contributions, List.map_map]
    refine congrArg List.sum (List.map_congr_left fun x hx => ?_)
    simp only [Function.comp, Contribution.ofDatagram]
    rw [if_pos (by rw [hbatch.chunkLen_eq x hx]; exact hj)]

end

/-- **Emission integrity.** In every run from empty tables, every packet sent is the sum of a
batch of as many datagrams as the fan-in of its first, which ends with the datagram the packet
was sent for, and no datagram is in the batches of two packets. -/
theorem emission_integrity (args : Args) (inPacket outPacket : Buffer) (now : ℤ)
    (es : List Event) :
    let os := runOut (mainStep args) (State.init inPacket outPacket now) es
    ∃ batch : ℕ → List (ℕ × Bytes),
      (∀ T p, SentAt os T p →
        (∃ i, Batch es os i (GradHdr.decode p).key (GradHdr.decode p).chunkLen.toNat
          (batch T).length (batch T))
        ∧ (∃ d, (batch T).getLast? = some (T, d))
        ∧ 1 ≤ (batch T).length ∧ (batch T).length ≤ maxTrackedWorkers
        ∧ Reports p (batch T))
      ∧ ∀ T T' p p', SentAt os T p → SentAt os T' p' → T ≠ T' →
        ∀ x ∈ batch T, ∀ y ∈ batch T', x.1 ≠ y.1 := by
  intro os
  have hsome : ∀ T, ∃ batch : List (ℕ × Bytes), ∀ p, SentAt os T p →
      ∃ i, Batch es os i (GradHdr.decode p).key (GradHdr.decode p).chunkLen.toNat batch.length
          batch
        ∧ (∃ d, batch.getLast? = some (T, d)) ∧ (∀ x ∈ batch, x.1 ≤ T) ∧ CompletedAt os i T
        ∧ 1 ≤ batch.length ∧ batch.length ≤ maxTrackedWorkers ∧ Reports p batch := by
    intro T
    by_cases h : ∃ p, SentAt os T p
    · obtain ⟨p, hp⟩ := h
      obtain ⟨i, batch, hbatch⟩ := batch_of_sent (ledgered_init inPacket outPacket now)
        (State.init_ok inPacket outPacket now) hp
      refine ⟨batch, fun p' hp' => ⟨i, ?_⟩⟩
      -- a step sends at most one packet
      obtain ⟨o, ho, hop⟩ := hp
      obtain ⟨o', ho', hop'⟩ := hp'
      obtain rfl := Option.some.inj (ho.symm.trans ho')
      obtain rfl := Option.some.inj (hop.symm.trans hop')
      exact hbatch
    · exact ⟨[], fun p hp => absurd ⟨p, hp⟩ h⟩
  choose batch hbatch using hsome
  refine ⟨batch, fun T p hp => ?_, fun T T' p p' hp hp' hne x hx y hy => ?_⟩
  · obtain ⟨i, h1, h2, -, -, h3, h4, h5⟩ := hbatch T p hp
    exact ⟨⟨i, h1⟩, h2, h3, h4, h5⟩
  · obtain ⟨i, h, ⟨d, hlast⟩, hle, hcomplete, -⟩ := hbatch T p hp
    obtain ⟨i', h', ⟨d', hlast'⟩, hle', hcomplete', -⟩ := hbatch T' p' hp'
    rcases Nat.lt_or_gt_of_ne hne with hlt | hgt
    · exact h.disjoint_of_lt h' hle hcomplete hlast' hlt hx hy
    · exact (h'.disjoint_of_lt h hle' hcomplete' hlast hgt hy hx).symm

end NetSum.UserspaceAgg
