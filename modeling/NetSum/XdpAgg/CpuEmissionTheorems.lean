import NetSum.XdpAgg.CpuTheorems

/-!
# Emission under concurrency

Which frames a transmitted frame is the sum of, when several CPUs run the program. A CPU takes the
slot's pointer before the lock and does not look at the key again, so it may count its frame into
a slot that was completed, deleted and created for another key in between
(`staleRun_not_safe`). As long as no frame is counted into another key's slot
(`PointerCurrent`), every slot that waits for contributions belongs to one key and holds a batch
of frames of that key (`Tracked`), and every transmitted frame is the sum of one batch
(`emission_of_current`).
-/

namespace NetSum.XdpAgg

open NetSum.Lib NetSum.Protocol NetSum.Aggregation

/-! ## What the outputs of a run say -/

/-- The frame was counted. -/
def LockOutcome.counts : LockOutcome → Bool
  | .absorbed | .complete _ => true
  | .mismatch | .duplicate => false

/-- At time `T` a slot was created at element `e` for frame `f`. -/
def CreatedAt (os : List CpuOutput) (e : Elem) (T : ℕ) (f : Bytes) : Prop :=
  ∃ o, os[T]? = some o ∧ o.created = some (e, f)

/-- At time `T` frame `f` was counted into the slot at element `e`. -/
def CountedAt (os : List CpuOutput) (e : Elem) (T : ℕ) (f : Bytes) : Prop :=
  ∃ o v, os[T]? = some o ∧ o.locked = some (e, f, v) ∧ v.counts = true

/-- At time `T` the slot at element `e` was completed. -/
def CompletedAt (os : List CpuOutput) (e : Elem) (T : ℕ) : Prop :=
  ∃ o f finalChunkLen, os[T]? = some o ∧ o.locked = some (e, f, .complete finalChunkLen)

/-- At time `T` frame `out` was returned with `XDP_TX`. -/
def TransmittedAt (os : List CpuOutput) (T : ℕ) (out : Bytes) : Prop :=
  ∃ o exit, os[T]? = some o ∧ o.returned = some (exit, out) ∧ exit.action = .tx

/-- Between the times `u` and `T` no slot was created or completed at element `e`. -/
def Undisturbed (os : List CpuOutput) (e : Elem) (u T : ℕ) : Prop :=
  ∀ v, u < v → v < T → (∀ f, ¬ CreatedAt os e v f) ∧ ¬ CompletedAt os e v

/-- Frames of key `k` and chunk length `L`, from different workers, that were counted by time `T`
into one slot, created at element `e` by a frame of the key for `N` workers. -/
structure Batch (os : List CpuOutput) (e : Elem) (k : GradSlotKey) (L : BitVec 16) (N T : ℕ)
    (batch : List (ℕ × Bytes)) : Prop where
  opened : ∃ u f, u < T ∧ CreatedAt os e u f ∧ keyOf f = k
    ∧ (GradHdr.decode (payload f)).numWorkers.toNat = N ∧ Undisturbed os e u T
    ∧ ∀ x ∈ batch, u < x.1 ∧ x.1 ≤ T
  counted : ∀ x ∈ batch, CountedAt os e x.1 x.2
  counts : ∀ x ∈ batch, Counts x.2
  key_eq : ∀ x ∈ batch, keyOf x.2 = k
  chunkLen_eq : ∀ x ∈ batch, (GradHdr.decode (payload x.2)).chunkLen = L
  workers : (batch.map fun x => (GradHdr.decode (payload x.2)).workerId).Nodup

/-- The frame reports the sum of the batch. -/
structure Reports (out : Bytes) (batch : List (ℕ × Bytes)) : Prop where
  workerId_eq : (GradHdr.decode (payload out)).workerId = 0
  numWorkers_eq : (GradHdr.decode (payload out)).numWorkers = 1
  chunkLen_le : (GradHdr.decode (payload out)).chunkLen.toNat ≤ netsumMaxChunkLen
  value_eq : ∀ j < (GradHdr.decode (payload out)).chunkLen.toNat,
    valueAt (payload out) j = (batch.map fun x => valueAt (payload x.2) j).sum

/-- Every transmitted frame is the sum of a batch of its own key, of as many frames as the slot
was created for, and no frame was counted into two of them. -/
def EmissionSafe (os : List CpuOutput) : Prop :=
  ∃ batch : ℕ → List (ℕ × Bytes),
    (∀ T out, TransmittedAt os T out →
      (∃ e U, U < T ∧ Batch os e (keyOf out) (GradHdr.decode (payload out)).chunkLen
        (batch T).length U (batch T))
      ∧ 1 ≤ (batch T).length ∧ Reports out (batch T))
    ∧ ∀ T T' out out', TransmittedAt os T out → TransmittedAt os T' out' → T ≠ T' →
      ∀ x ∈ batch T, ∀ y ∈ batch T', x.1 ≠ y.1

/-! ## Batches -/

/-- The round a batch makes up. -/
def contributions (batch : List (ℕ × Bytes)) : List Contribution :=
  batch.map fun x => Contribution.ofDatagram (payload x.2)

section

variable {os : List CpuOutput} {e : Elem} {k : GradSlotKey} {L : BitVec 16} {N T : ℕ}
  {batch : List (ℕ × Bytes)}

/-- A frame of a new worker extends a batch. -/
theorem Batch.concat {f : Bytes} (h : Batch os e (keyOf f) L N T batch)
    (hcount : CountedAt os e T f) (hf : Counts f)
    (hlen : (GradHdr.decode (payload f)).chunkLen = L)
    (hnew : (GradHdr.decode (payload f)).workerId
      ∉ batch.map fun x => (GradHdr.decode (payload x.2)).workerId) :
    Batch os e (keyOf f) L N T (batch ++ [(T, f)]) := by
  have hall : ∀ {P : ℕ × Bytes → Prop}, (∀ x ∈ batch, P x) → P (T, f) →
      ∀ x ∈ batch ++ [(T, f)], P x := by
    intro P h1 h2 x hx
    rcases List.mem_append.mp hx with hx | hx
    · exact h1 x hx
    · rw [List.mem_singleton.mp hx]
      exact h2
  obtain ⟨u, f₀, hu, hcreated, hkey, hN, hundisturbed, hlater⟩ := h.opened
  refine ⟨⟨u, f₀, hu, hcreated, hkey, hN, hundisturbed, hall hlater ⟨hu, le_rfl⟩⟩,
    hall h.counted hcount, hall h.counts hf, hall h.key_eq rfl, hall h.chunkLen_eq hlen, ?_⟩
  exact nodup_map_append_singleton h.workers hnew

/-- A step that neither creates nor completes a slot at the element. -/
theorem Batch.succ (h : Batch os e k L N T batch) (hcreated : ∀ f, ¬ CreatedAt os e T f)
    (hcompleted : ¬ CompletedAt os e T) : Batch os e k L N (T + 1) batch := by
  obtain ⟨u, f₀, hu, hcreated₀, hkey, hN, hundisturbed, hlater⟩ := h.opened
  refine ⟨⟨u, f₀, by omega, hcreated₀, hkey, hN, fun v hv hvT => ?_,
    fun x hx => ⟨(hlater x hx).1, by have := (hlater x hx).2; omega⟩⟩,
    h.counted, h.counts, h.key_eq, h.chunkLen_eq, h.workers⟩
  rcases Nat.eq_or_lt_of_le (Nat.le_of_lt_succ hvT) with rfl | hvT
  · exact ⟨hcreated, hcompleted⟩
  · exact hundisturbed v hv hvT

/-- A batch completed at time `T` has no frame in common with one that was completed later. -/
theorem Batch.disjoint_of_lt {e' : Elem} {k' : GradSlotKey} {L' : BitVec 16} {N' T' : ℕ}
    {batch' : List (ℕ × Bytes)} (h : Batch os e k L N T batch)
    (h' : Batch os e' k' L' N' T' batch') (hcompleted : CompletedAt os e T) (hlt : T < T')
    {x y : ℕ × Bytes} (hx : x ∈ batch) (hy : y ∈ batch') : x.1 ≠ y.1 := by
  intro hxy
  -- the two were counted into the same element
  obtain ⟨o, v, ho, hlocked, -⟩ := h.counted x hx
  obtain ⟨o', v', ho', hlocked', -⟩ := h'.counted y hy
  rw [hxy] at ho
  obtain rfl : o = o' := Option.some.inj (ho.symm.trans ho')
  obtain rfl : e = e' := congrArg Prod.fst (Option.some.inj (hlocked.symm.trans hlocked'))
  -- and it was completed after the second slot was created
  obtain ⟨u, f, -, -, -, -, -, hlater⟩ := h.opened
  obtain ⟨u', f', -, -, -, -, hundisturbed, hlater'⟩ := h'.opened
  have h1 := (hlater x hx).2
  have h2 := (hlater' y hy).1
  exact (hundisturbed T (by omega) hlt).2 hcompleted

end

/-! ## Slots -/

/-- The slot has nothing left to wait for. -/
def GradSlot.Settled (s : GradSlot) : Prop :=
  s.numWorkersExpected.toNat ≤ s.contributionsReceived.toNat

instance (s : GradSlot) : Decidable s.Settled := inferInstanceAs (Decidable (_ ≤ _))

/-- A frame counted into the tally of a round is one contribution more to the round. -/
theorem accumulate_round {s : GradSlot} {r : Round} (hr : s.tally = r.tally) {f : Bytes}
    (hf : Counts f) (hseen : s.seen (GradHdr.decode (payload f)).workerId = false) :
    (s.contributionsReceived + 1).toNat = s.contributionsReceived.toNat + 1
      ∧ ∃ r' : Round, (s.accumulate f (.ofPayload (payload f))).tally = r'.tally
        ∧ r'.absorbed = r.absorbed ++ [Contribution.ofDatagram (payload f)]
        ∧ ¬ r.Has (Contribution.ofDatagram (payload f)).worker := by
  have hnew : ¬ r.Has (Contribution.ofDatagram (payload f)).worker := by
    rw [← Round.seen_tally, ← hr, s.tally_seen_worker hf.2, hseen]
    exact Bool.false_ne_true
  have hlt : s.tally.count < maxTrackedWorkers := by
    rw [hr]
    exact r.length_lt hnew
  have htally := GradSlot.tally_accumulate hf.2 hf.1.length_le hlt
  refine ⟨congrArg Tally.count htally, r.absorb _ hnew, ?_, rfl, hnew⟩
  rw [htally, hr, Round.tally_absorb]

/-- What the section under the lock does to any slot that holds the tally of a round. -/
theorem LockMove.kept {sh : SharedMaps} {f : Bytes} {p : Parsed} {slot : Elem}
    {r : SharedMaps × Cpu × CpuOutput} (h : LockMove sh f p slot r) (hparse : parse f = .ok p)
    {e : Elem} (hround : ∃ r : Round, (sh.slots e).tally = r.tally) :
    (∃ r' : Round, (r.1.slots e).tally = r'.tally)
      ∧ ((sh.slots e).Settled → (r.1.slots e).Settled) := by
  obtain ⟨hf, rfl⟩ := counts_of_parse hparse
  -- a contribution that is counted, whether or not it is the last
  have hcounted : ∀ s', s' = (sh.slots slot).accumulate f (.ofPayload (payload f)) →
      (sh.slots slot).seen (GradHdr.decode (payload f)).workerId = false →
      (∃ r' : Round, (Function.update sh.slots slot s' e).tally = r'.tally)
        ∧ ((sh.slots e).Settled → (Function.update sh.slots slot s' e).Settled) := by
    intro s' hs' hseen
    by_cases he : e = slot
    · subst he
      obtain ⟨r₀, hr₀⟩ := hround
      obtain ⟨hcount, r', hr', -⟩ := accumulate_round hr₀ hf hseen
      rw [Function.update_self, hs']
      refine ⟨⟨r', hr'⟩, fun hsettled => ?_⟩
      show _ ≤ ((sh.slots e).contributionsReceived + 1).toNat
      rw [hcount]
      exact Nat.le_succ_of_le hsettled
    · rw [Function.update_of_ne he]
      exact ⟨hround, id⟩
  cases h with
  | rejected => exact ⟨hround, id⟩
  | absorbed hlen hseen hcount => exact hcounted _ rfl hseen
  | complete hlen hseen hcount => exact hcounted _ rfl hseen

/-- Before time `T`: the slot at element `e` is linked to key `k` and holds the batch. -/
structure Ledger (os : List CpuOutput) (sh : SharedMaps) (e : Elem) (T : ℕ) (k : GradSlotKey)
    (batch : List (ℕ × Bytes)) : Prop where
  linked : sh.slotMap k = some e
  isBatch : Batch os e k (sh.slots e).chunkLen (sh.slots e).numWorkersExpected.toNat T batch
  before : ∀ x ∈ batch, x.1 < T
  tally : ∃ r : Round, (sh.slots e).tally = r.tally ∧ r.absorbed = contributions batch

/-- Before time `T`: element `e` holds the tally of a round, and if that waits for contributions
it is the round of a linked key. -/
structure Tracked (os : List CpuOutput) (sh : SharedMaps) (T : ℕ) (e : Elem) : Prop where
  round : ∃ r : Round, (sh.slots e).tally = r.tally
  ledger : ¬ (sh.slots e).Settled → ∃ k batch, Ledger os sh e T k batch

section

variable {os : List CpuOutput} {sh sh' : SharedMaps} {e : Elem} {T : ℕ}

/-- A step that leaves the element alone. -/
theorem Tracked.keep (h : Tracked os sh T e) (hslot : sh'.slots e = sh.slots e)
    (hlink : ¬ (sh.slots e).Settled → ∀ k, sh.slotMap k = some e → sh'.slotMap k = some e)
    (hcreated : ∀ f, ¬ CreatedAt os e T f) (hcompleted : ¬ CompletedAt os e T) :
    Tracked os sh' (T + 1) e := by
  refine ⟨hslot ▸ h.round, fun hopen => ?_⟩
  rw [hslot] at hopen
  obtain ⟨k, batch, hled⟩ := h.ledger hopen
  refine ⟨k, batch, hlink hopen k hled.linked, ?_, fun x hx => ?_, hslot ▸ hled.tally⟩
  · rw [hslot]
    exact hled.isBatch.succ hcreated hcompleted
  · have := hled.before x hx
    omega

/-- A frame of the slot's own key is counted into a slot that waits for contributions. -/
theorem Ledger.count {f : Bytes} {batch : List (ℕ × Bytes)} {slot : Elem}
    (h : Ledger os sh slot T (keyOf f) batch) (hcount : CountedAt os slot T f) (hf : Counts f)
    (hlen : (sh.slots slot).chunkLen = (GradHdr.decode (payload f)).chunkLen)
    (hseen : (sh.slots slot).seen (GradHdr.decode (payload f)).workerId = false) :
    Batch os slot (keyOf f) (sh.slots slot).chunkLen (sh.slots slot).numWorkersExpected.toNat T
        (batch ++ [(T, f)])
      ∧ ∃ r : Round, ((sh.slots slot).accumulate f (.ofPayload (payload f))).tally = r.tally
        ∧ r.absorbed = contributions (batch ++ [(T, f)]) := by
  obtain ⟨r, hr, habs⟩ := h.tally
  obtain ⟨-, r', hr', habs', hnot⟩ := accumulate_round hr hf hseen
  -- a worker id already in the batch would have been marked
  have hnew : (GradHdr.decode (payload f)).workerId
      ∉ batch.map fun x => (GradHdr.decode (payload x.2)).workerId := by
    intro hmem
    obtain ⟨x, hx, hw⟩ := List.mem_map.mp hmem
    refine hnot ?_
    rw [Round.Has, habs, contributions, List.map_map]
    refine List.mem_map.mpr ⟨x, hx, ?_⟩
    simp only [Function.comp, Contribution.ofDatagram, hw]
  refine ⟨h.isBatch.concat hcount hf hlen.symm hnew, r', hr', ?_⟩
  rw [habs', habs, contributions, contributions, List.map_append]
  rfl

/-- A frame counted into a slot that waits for contributions and is linked to the frame's key
extends its batch. -/
theorem Tracked.count {f : Bytes} {p : Parsed} {slot : Elem} (h : Tracked os sh T slot)
    (hparse : parse f = .ok p) (hcount : CountedAt os slot T f)
    (hlen : (sh.slots slot).chunkLen = p.chunkLen)
    (hseen : (sh.slots slot).seen p.workerId = false) (hopen : ¬ (sh.slots slot).Settled)
    (hlink : sh.slotMap p.key = some slot) :
    ∃ batch, Batch os slot (keyOf f) (sh.slots slot).chunkLen
        (sh.slots slot).numWorkersExpected.toNat T (batch ++ [(T, f)])
      ∧ ∃ r : Round, ((sh.slots slot).accumulate f p).tally = r.tally
        ∧ r.absorbed = contributions (batch ++ [(T, f)]) := by
  obtain ⟨hf, rfl⟩ := counts_of_parse hparse
  obtain ⟨k, batch, hled⟩ := h.ledger hopen
  obtain rfl : k = keyOf f := Pool.key_unique hled.linked hlink
  exact ⟨batch, hled.count hcount hf hlen hseen⟩

end

/-! ## The invariant -/

section

variable {C : Type}

/-- If the CPU is about to count its frame into a slot which waits for contributions, it is the
slot of the frame's own key. -/
def Cpu.Current (sh : SharedMaps) : Cpu → Prop
  | .busy _ p (.lock slot) =>
    (sh.slots slot).chunkLen = p.chunkLen → (sh.slots slot).seen p.workerId = false →
      ¬ (sh.slots slot).Settled → sh.slotMap p.key = some slot
  | _ => True

instance (sh : SharedMaps) : (cpu : Cpu) → Decidable (cpu.Current sh)
  | .busy _ _ (.lock _) => inferInstanceAs (Decidable (_ → _ → ¬ _ → _))
  | .idle | .busy _ _ .lookup | .busy _ _ .precheck | .busy _ _ (.quotaLookup _)
  | .busy _ _ (.quotaRead _) | .busy _ _ .create | .busy _ _ (.relookup _)
  | .busy _ _ (.increment _ _) | .busy _ _ (.config _) | .busy _ _ (.delete _ _)
  | .busy _ _ (.decrement _ _ _ _) | .busy _ _ (.rewrite _) | .busy _ _ (.bump _ _ _) =>
    .isTrue trivial

/-- The CPU that acts does not hold a stale pointer. -/
def PointerCurrent (s : CpuSystem C) (ev : C × CpuInput) : Prop := (s.loc ev.1).Current s.mem

instance (s : CpuSystem C) (ev : C × CpuInput) : Decidable (PointerCurrent s ev) :=
  inferInstanceAs (Decidable ((s.loc ev.1).Current s.mem))

/-- Before time `T`: `frame` is the frame with which CPU `c` completed the batch at time `U`, with
the sums written into it, and the CPU has not returned since. -/
structure Summed (es : List (C × CpuInput)) (os : List CpuOutput) (c : C) (T : ℕ) (frame : Bytes)
    (L : BitVec 16) (U : ℕ) (e : Elem) (batch : List (ℕ × Bytes)) : Prop where
  lt : U < T
  acted : ∃ i, es[U]? = some (c, i)
  completed : CompletedAt os e U
  unreturned : ∀ v i o, U ≤ v → v < T → es[v]? = some (c, i) → os[v]? = some o → o.returned = none
  sums : ∃ f s, Counts f ∧ Batch os e (keyOf f) L batch.length U batch ∧ 1 ≤ batch.length
    ∧ L = (GradHdr.decode (payload f)).chunkLen ∧ s.chunkLen = L ∧ frame = writeBack f s L
    ∧ ∃ r : Round, s.tally = r.tally ∧ r.absorbed = contributions batch

/-- Before time `T`: what CPU `c` relies on. -/
structure Knows (es : List (C × CpuInput)) (os : List CpuOutput) (T : ℕ) (c : C) (sh : SharedMaps)
    (cpu : Cpu) : Prop where
  sane : cpu.Sane
  closing : ∀ k, cpu.closing = some k → ∃ e, sh.slotMap k = some e ∧ (sh.slots e).Settled
  result : ∀ x, cpu.result = some x → ∃ U e batch, Summed es os c T x.1 x.2 U e batch

/-- No two CPUs are about to delete the same key. -/
def Apart (cpu cpu' : Cpu) : Prop := ∀ k, cpu.closing = some k → cpu'.closing ≠ some k

theorem Apart.symm {cpu cpu' : Cpu} (h : Apart cpu cpu') : Apart cpu' cpu :=
  fun k hk hk' => h k hk' hk

/-- A step at which the CPU does not return. -/
theorem Summed.succ {es : List (C × CpuInput)} {os : List CpuOutput} {c : C} {T U : ℕ}
    {frame : Bytes} {L : BitVec 16} {e : Elem} {batch : List (ℕ × Bytes)}
    (h : Summed es os c T frame L U e batch)
    (hreturned : ∀ i o, es[T]? = some (c, i) → os[T]? = some o → o.returned = none) :
    Summed es os c (T + 1) frame L U e batch := by
  refine ⟨by have := h.lt; omega, h.acted, h.completed, fun v i o hv hvT hi ho => ?_, h.sums⟩
  rcases Nat.eq_or_lt_of_le (Nat.le_of_lt_succ hvT) with rfl | hvT
  · exact hreturned i o hi ho
  · exact h.unreturned v i o hv hvT hi ho

end

/-! ## One step -/

section

variable {os : List CpuOutput} {sh : SharedMaps} {T : ℕ} {i : CpuInput} {cpu : Cpu}
  {r : SharedMaps × Cpu × CpuOutput}

theorem not_createdAt (ho : os[T]? = some r.2.2) {e : Elem}
    (h : ∀ f, r.2.2.created ≠ some (e, f)) (f : Bytes) : ¬ CreatedAt os e T f := by
  rintro ⟨o, ho', hcreated⟩
  obtain rfl := Option.some.inj (ho.symm.trans ho')
  exact h f hcreated

theorem not_completedAt (ho : os[T]? = some r.2.2) {e : Elem}
    (h : ∀ f L, r.2.2.locked ≠ some (e, f, .complete L)) : ¬ CompletedAt os e T := by
  rintro ⟨o, f, L, ho', hlocked⟩
  obtain rfl := Option.some.inj (ho.symm.trans ho')
  exact h f L hlocked

/-- A key that a CPU is about to delete stays where it is, completed, while the others act. -/
theorem SlotMove.closing (h : SlotMove sh i cpu r) (hs : cpu.Sane)
    (htracked : ∀ e, Tracked os sh T e) {k : GradSlotKey} {e : Elem}
    (hk : sh.slotMap k = some e) (hsettled : (sh.slots e).Settled) (hne : cpu.closing ≠ some k) :
    r.1.slotMap k = some e ∧ (r.1.slots e).Settled := by
  cases h with
  | stay hmap hslots => exact ⟨hmap ▸ hk, hslots ▸ hsettled⟩
  | create hfree hslot =>
    -- a new slot is made in an element of its own
    have hne : e ≠ i.elem := by
      rintro rfl
      exact Pool.apply_ne_of_owner_none hslot k hk
    refine ⟨Pool.link_apply_of_some hfree hslot hk, ?_⟩
    show (Function.update sh.slots i.elem _ e).Settled
    rw [Function.update_of_ne hne]
    exact hsettled
  | lock hmove =>
    have hkept := hmove.kept hs (htracked e).round
    cases hmove with
    | rejected => exact ⟨hk, hsettled⟩
    | absorbed => exact ⟨hk, hkept.2 hsettled⟩
    | complete => exact ⟨hk, hkept.2 hsettled⟩
  | delete =>
    have hother := Pool.unlink_apply_of_ne (m := sh.slotMap) fun heq => hne (congrArg some heq.symm)
    exact ⟨hother.trans hk, hsettled⟩

theorem tracked_fresh {e : Elem} {p : Parsed} {f : Bytes} (hparse : parse f = .ok p)
    (hslot : sh.slots e = .fresh p.chunkLen p.numWorkers) (hlink : sh.slotMap p.key = some e)
    (hcreated : CreatedAt os e T f) : Tracked os sh (T + 1) e := by
  obtain ⟨hf, rfl⟩ := counts_of_parse hparse
  have hround : (sh.slots e).tally = (Round.opened (GradHdr.decode (payload f)).numWorkers.toNat
      (GradHdr.decode (payload f)).chunkLen.toNat).tally := by
    rw [hslot, tally_fresh, Round.tally_opened]
    rfl
  refine ⟨⟨_, hround⟩, fun _ => ⟨_, [], hlink, ⟨⟨T, f, by omega, hcreated, rfl, ?_, ?_, nofun⟩,
    nofun, nofun, nofun, nofun, List.nodup_nil⟩, nofun, _, hround, rfl⟩⟩
  · rw [hslot]
    rfl
  · intro v hv hvT
    omega

/-- The locked section changes no other element, and no link. -/
theorem LockMove.elsewhere {frame : Bytes} {p : Parsed} {slot e : Elem}
    (h : LockMove sh frame p slot r) (he : e ≠ slot) :
    r.1.slots e = sh.slots e ∧ r.1.slotMap = sh.slotMap ∧ r.2.2.created = none
      ∧ ∀ f L, r.2.2.locked ≠ some (e, f, .complete L) := by
  have hlocked : ∀ {v v' : Bytes × LockOutcome}, some (slot, v) ≠ some (e, v') :=
    fun heq => he (congrArg Prod.fst (Option.some.inj heq)).symm
  cases h with
  | rejected => exact ⟨rfl, rfl, rfl, fun _ _ => hlocked⟩
  | absorbed => exact ⟨Function.update_of_ne he .., rfl, rfl, fun _ _ => hlocked⟩
  | complete => exact ⟨Function.update_of_ne he .., rfl, rfl, fun _ _ => hlocked⟩

/-- What the locked element holds afterwards. -/
theorem LockMove.tracked {frame : Bytes} {p : Parsed} {slot : Elem}
    (h : LockMove sh frame p slot r) (hparse : parse frame = .ok p)
    (hcurrent : Cpu.Current sh (.busy frame p (.lock slot))) (ho : os[T]? = some r.2.2)
    (htracked : Tracked os sh T slot) : Tracked os r.1 (T + 1) slot := by
  have hkept := h.kept hparse htracked.round
  refine ⟨hkept.1, fun hopen => ?_⟩
  have hopen' := mt hkept.2 hopen
  cases h with
  | rejected hexit hv =>
    refine Tracked.ledger (htracked.keep rfl (fun _ _ hk => hk) ?_ ?_) hopen
    · exact not_createdAt ho fun _ => nofun
    · refine not_completedAt ho fun f L hf => ?_
      cases hf
      rcases hv with hv | hv <;> cases hv
  | absorbed hlen hseen hcount =>
    have hlink := hcurrent hlen hseen hopen'
    obtain ⟨batch, hbatch, hsum⟩ :=
      htracked.count hparse ⟨_, _, ho, rfl, rfl⟩ hlen hseen hopen' hlink
    obtain ⟨u, f₀, -, -, -, -, -, hlater⟩ := hbatch.opened
    have hkey : keyOf frame = p.key := by rw [(counts_of_parse hparse).2]; rfl
    refine ⟨keyOf frame, _, hkey ▸ hlink, ?_, fun x hx => Nat.lt_succ_of_le (hlater x hx).2, ?_⟩
    · show Batch os slot _ (Function.update sh.slots slot _ slot).chunkLen
        (Function.update sh.slots slot _ slot).numWorkersExpected.toNat _ _
      rw [Function.update_self]
      refine hbatch.succ (not_createdAt ho fun _ => nofun) (not_completedAt ho fun f L hf => ?_)
      cases hf
    · show ∃ r : Round, (Function.update sh.slots slot _ slot).tally = r.tally ∧ _
      rw [Function.update_self]
      exact hsum
  | complete hlen hseen hcount =>
    -- nothing is left to wait for
    refine absurd ?_ hopen
    show (Function.update sh.slots slot _ slot).Settled
    rw [Function.update_self]
    exact (congrArg BitVec.toNat hcount).ge

/-- **What every element holds is kept by a step.** -/
theorem SlotMove.tracked (h : SlotMove sh i cpu r) (hs : cpu.Sane) (hcurrent : cpu.Current sh)
    (ho : os[T]? = some r.2.2) (htracked : ∀ e, Tracked os sh T e)
    (hclosing : ∀ k, cpu.closing = some k → ∃ e, sh.slotMap k = some e ∧ (sh.slots e).Settled)
    (e : Elem) : Tracked os r.1 (T + 1) e := by
  cases h with
  | stay hmap hslots hcreated hlocked =>
    refine (htracked e).keep (congrFun hslots e) (fun _ k hk => hmap ▸ hk) ?_ ?_
    · exact not_createdAt ho (by rw [hcreated]; exact fun _ => nofun)
    · exact not_completedAt ho (by rw [hlocked]; exact fun _ _ => nofun)
  | create hfree hslot =>
    by_cases he : e = i.elem
    · subst he
      refine tracked_fresh hs (Function.update_self ..) ?_ ⟨_, ho, rfl⟩
      show sh.slotMap.link _ _ hfree hslot _ = some i.elem
      rw [Pool.link_apply, if_pos rfl]
    · refine (htracked e).keep (Function.update_of_ne he ..) (fun _ k hk => ?_) ?_ ?_
      · exact Pool.link_apply_of_some hfree hslot hk
      · refine not_createdAt ho fun f hf => he ?_
        exact (congrArg Prod.fst (Option.some.inj hf)).symm
      · exact not_completedAt ho fun _ _ => nofun
  | @lock frame p slot r hmove =>
    by_cases he : e = slot
    · subst he
      exact hmove.tracked hs hcurrent ho (htracked e)
    · obtain ⟨hslot, hmap, hcreated, hlocked⟩ := hmove.elsewhere he
      refine (htracked e).keep hslot (fun _ k hk => hmap ▸ hk) ?_ (not_completedAt ho hlocked)
      exact not_createdAt ho (by rw [hcreated]; exact fun _ => nofun)
  | delete =>
    refine (htracked e).keep rfl (fun hopen k hk => ?_) ?_ ?_
    · -- the deleted key's slot has nothing left to wait for
      obtain ⟨e', hk', hsettled⟩ := hclosing _ rfl
      refine (Pool.unlink_apply_of_ne ?_).trans hk
      rintro rfl
      rw [hk] at hk'
      cases hk'
      exact hopen hsettled
    · exact not_createdAt ho fun _ => nofun
    · exact not_completedAt ho fun _ _ => nofun

/-- A slot that is completed was waiting for the frame, and is the frame's own. -/
theorem complete_open {frame : Bytes} {p : Parsed} {slot : Elem}
    (hlen : (sh.slots slot).chunkLen = p.chunkLen)
    (hseen : (sh.slots slot).seen p.workerId = false)
    (hcount : (sh.slots slot).contributionsReceived + 1 = (sh.slots slot).numWorkersExpected)
    (hparse : parse frame = .ok p) (hcurrent : (Cpu.busy frame p (.lock slot)).Current sh)
    (hround : ∃ r : Round, (sh.slots slot).tally = r.tally) :
    ¬ (sh.slots slot).Settled ∧ sh.slotMap p.key = some slot := by
  obtain ⟨hf, rfl⟩ := counts_of_parse hparse
  obtain ⟨r₀, hr₀⟩ := hround
  have hadd := (accumulate_round hr₀ hf hseen).1
  have hopen : ¬ (sh.slots slot).Settled := by
    intro hsettled
    unfold GradSlot.Settled at hsettled
    rw [← hcount, hadd] at hsettled
    omega
  exact ⟨hopen, hcurrent hlen hseen hopen⟩

variable {C : Type} {es : List (C × CpuInput)} {c d : C}

/-- **The CPU that acts.** -/
theorem Knows.own (hk : Knows es os T c sh cpu) (h : cpu.Acts sh i r) (hcurrent : cpu.Current sh)
    (hi : es[T]? = some (c, i)) (ho : os[T]? = some r.2.2) (htracked : ∀ e, Tracked os sh T e) :
    Knows es os (T + 1) c r.1 r.2.1 := by
  by_cases hlock : ∃ frame p slot, cpu = .busy frame p (.lock slot)
  · obtain ⟨frame, p, slot, rfl⟩ := hlock
    cases h with
    | lock hmove =>
      cases hmove with
      | rejected => exact ⟨trivial, nofun, nofun⟩
      | absorbed => exact ⟨trivial, nofun, nofun⟩
      | complete hlen hseen hcount =>
        obtain ⟨hopen, hlink⟩ := complete_open hlen hseen hcount hk.sane hcurrent
          (htracked slot).round
        have hcounted : CountedAt os slot T frame := ⟨_, _, ho, rfl, rfl⟩
        obtain ⟨batch, hbatch, r', hr', habs⟩ :=
          (htracked slot).count hk.sane hcounted hlen hseen hopen hlink
        obtain ⟨hf, hp⟩ := counts_of_parse hk.sane
        -- the counter has reached the fan-in
        have hN : (sh.slots slot).numWorkersExpected.toNat = (batch ++ [(T, frame)]).length := by
          have hcount' := congrArg Tally.count hr'
          rw [← hcount]
          refine hcount'.trans ?_
          show r'.absorbed.length = _
          rw [habs, contributions, List.length_map]
        rw [hN] at hbatch
        refine ⟨trivial, fun k hk' => ?_, fun x hx => ?_⟩
        · cases hk'
          refine ⟨slot, hlink, ?_⟩
          show (Function.update sh.slots slot _ slot).Settled
          rw [Function.update_self]
          exact (congrArg BitVec.toNat hcount).ge
        · cases hx
          refine ⟨T, slot, _, by omega, ⟨i, hi⟩, ⟨_, _, _, ho, rfl⟩, ?_, frame,
            (sh.slots slot).accumulate frame p, hf, hbatch, by simp, ?_, rfl, rfl, r', hr', habs⟩
          · intro v i' o hv hvT _ ho'
            obtain rfl : v = T := by omega
            obtain rfl := Option.some.inj (ho.symm.trans ho')
            rfl
          · rw [hlen, hp]
            rfl
  · have hnot : ∀ frame p slot, cpu ≠ .busy frame p (.lock slot) :=
      fun frame p slot heq => hlock ⟨frame, p, slot, heq⟩
    refine ⟨h.sane hk.sane, fun k hk' => ?_, fun x hx => ?_⟩
    · obtain ⟨hsame, hclosing⟩ := h.closing hnot hk'
      rw [hsame]
      exact hk.closing k hclosing
    · obtain ⟨hresult, hreturned⟩ := h.result hnot hx
      obtain ⟨U, e, batch, hsummed⟩ := hk.result x hresult
      refine ⟨U, e, batch, hsummed.succ fun i' o _ ho' => ?_⟩
      obtain rfl := Option.some.inj (ho.symm.trans ho')
      exact hreturned

/-- **The CPUs that do not act.** -/
theorem Knows.other {cpu' : Cpu} (hk' : Knows es os T d sh cpu') (hne : d ≠ c)
    (hk : Knows es os T c sh cpu) (h : cpu.Acts sh i r) (hcurrent : cpu.Current sh)
    (hi : es[T]? = some (c, i)) (htracked : ∀ e, Tracked os sh T e) (hapart : Apart cpu cpu') :
    Knows es os (T + 1) d r.1 cpu' ∧ Apart r.2.1 cpu' := by
  refine ⟨⟨hk'.sane, fun k hclosing => ?_, fun x hx => ?_⟩, fun k hclosing hclosing' => ?_⟩
  · obtain ⟨e, hlink, hsettled⟩ := hk'.closing k hclosing
    exact ⟨e, h.slotMove.closing hk.sane htracked hlink hsettled fun hkc => hapart k hkc hclosing⟩
  · obtain ⟨U, e, batch, hsummed⟩ := hk'.result x hx
    refine ⟨U, e, batch, hsummed.succ fun i' o hi' _ => ?_⟩
    rw [hi] at hi'
    exact absurd (congrArg Prod.fst (Option.some.inj hi')).symm hne
  · by_cases hlock : ∃ frame p slot, cpu = .busy frame p (.lock slot)
    · -- a slot that is completed now was not completed before
      obtain ⟨frame, p, slot, rfl⟩ := hlock
      cases h with
      | lock hmove =>
        cases hmove with
        | rejected => cases hclosing
        | absorbed => cases hclosing
        | complete hlen hseen hcount =>
          cases hclosing
          obtain ⟨hopen, hlink⟩ := complete_open hlen hseen hcount hk.sane hcurrent
            (htracked slot).round
          obtain ⟨e, hlink', hsettled⟩ := hk'.closing _ hclosing'
          rw [hlink] at hlink'
          cases hlink'
          exact hopen hsettled
    · exact hapart k (h.closing (fun frame p slot heq => hlock ⟨frame, p, slot, heq⟩) hclosing).2
        hclosing'

end

/-! ## Runs -/

theorem keeps_init {C : Type} (es : List (C × CpuInput)) (os : List CpuOutput) :
    (CpuSystem.init C).Keeps (fun sh => ∀ e, Tracked os sh 0 e) (Knows es os 0) Apart := by
  refine ⟨fun e => ⟨⟨Round.opened 0 0, ?_⟩, fun hopen => ?_⟩, fun c => ⟨trivial, nofun, nofun⟩,
    fun c d _ => nofun⟩
  · show (GradSlot.fresh 0 0).tally = _
    rw [tally_fresh, Round.tally_opened]
    rfl
  · exact absurd (Nat.le_refl 0) hopen

section

variable {C : Type} [DecidableEq C] {es : List (C × CpuInput)}

theorem cpuOut_eq {T : ℕ} {c : C} {i : CpuInput} (he : es[T]? = some (c, i)) :
    (runOut cpuStep (CpuSystem.init C) es)[T]?
      = some (((stateAt cpuStep (CpuSystem.init C) es T).loc c).act
          (stateAt cpuStep (CpuSystem.init C) es T).mem i).2.2 := by
  rw [runOut_getElem?, he]
  rfl

/-- In a run without stale pointers the invariant holds at every time. -/
theorem keeps_stateAt (h : StepsMeet cpuStep PointerCurrent (CpuSystem.init C) es) :
    ∀ T ≤ es.length, (stateAt cpuStep (CpuSystem.init C) es T).Keeps
      (fun sh => ∀ e, Tracked (runOut cpuStep (CpuSystem.init C) es) sh T e)
      (Knows es (runOut cpuStep (CpuSystem.init C) es) T) Apart := by
  rw [stepsMeet_iff] at h
  refine stateAt_induction (fun T (s : CpuSystem C) => s.Keeps
    (fun sh => ∀ e, Tracked (runOut cpuStep (CpuSystem.init C) es) sh T e)
    (Knows es (runOut cpuStep (CpuSystem.init C) es) T) Apart) (keeps_init es _) ?_
  rintro T ⟨c, i⟩ he hkeeps
  have ho := cpuOut_eq he
  have hcurrent := h T _ he
  have hknows := hkeeps.loc c
  have hacts := acts (stateAt cpuStep (CpuSystem.init C) es T).mem
    ((stateAt cpuStep (CpuSystem.init C) es T).loc c) i
  refine hkeeps.step (fun _ _ => Apart.symm) ?_ ?_ fun d hne hd hapart => ?_
  · exact hacts.slotMove.tracked hknows.sane hcurrent ho hkeeps.mem hknows.closing
  · exact hknows.own hacts hcurrent he ho hkeeps.mem
  · exact hd.other hne hknows hacts hcurrent he hkeeps.mem hapart

/-- What is transmitted is a frame with the sums of a batch written into it. -/
theorem summed_of_transmitted (h : StepsMeet cpuStep PointerCurrent (CpuSystem.init C) es) {T : ℕ}
    {out : Bytes} (htx : TransmittedAt (runOut cpuStep (CpuSystem.init C) es) T out) :
    ∃ c i frame L U e batch, es[T]? = some (c, i) ∧ out = rewriteHeaders i.cfg L frame
      ∧ Summed es (runOut cpuStep (CpuSystem.init C) es) c T frame L U e batch := by
  obtain ⟨o, exit, ho, hreturned, htx⟩ := htx
  obtain ⟨⟨c, i⟩, he⟩ := exists_event_of_out ho
  obtain rfl := Option.some.inj ((cpuOut_eq he).symm.trans ho)
  have hknows := (keeps_stateAt h T (List.getElem?_eq_some_iff.mp he).1.le).loc c
  obtain ⟨frame, L, hresult, hout⟩ := (acts _ _ i).transmits hknows.sane hreturned htx
  obtain ⟨U, e, batch, hsummed⟩ := hknows.result _ hresult
  exact ⟨c, i, frame, L, U, e, batch, he, hout, hsummed⟩

omit [DecidableEq C] in
/-- The transmitted frame reports the batch. -/
theorem Summed.reports {os : List CpuOutput} {c : C} {T U : ℕ} {frame : Bytes} {L : BitVec 16}
    {e : Elem} {batch : List (ℕ × Bytes)} (h : Summed es os c T frame L U e batch)
    {cfg : NetsumConfig} {out : Bytes} (hout : out = rewriteHeaders cfg L frame) :
    Batch os e (keyOf out) (GradHdr.decode (payload out)).chunkLen batch.length U batch
      ∧ 1 ≤ batch.length ∧ Reports out batch := by
  obtain ⟨f, s, hf, hbatch, hpos, hL, hs, rfl, r, hr, habs⟩ := h.sums
  subst hs
  have hforwards := forwards_rewriteHeaders cfg hf.1.length_le hf.2 hL
  rw [← hout] at hforwards
  have hkey : keyOf out = keyOf f := by
    rw [keyOf, hforwards.hdr_eq]
    rfl
  have hlen : (GradHdr.decode (payload out)).chunkLen = s.chunkLen := by
    rw [hforwards.hdr_eq, hL]
  have hle : s.chunkLen.toNat ≤ netsumMaxChunkLen := by
    rw [hL]
    exact hf.2.chunkLen_le
  rw [hkey, hlen]
  refine ⟨hbatch, hpos, ⟨?_, ?_, hlen ▸ hle, fun j hj => ?_⟩⟩
  · rw [hforwards.hdr_eq]
  · rw [hforwards.hdr_eq]
  · -- the slot's sum is the sum of the batch
    rw [hlen] at hj
    rw [hforwards.value_eq ⟨j, hj.trans_le hle⟩ (hL ▸ hj), hr]
    simp only [Round.tally, Round.sum, habs, contributions, List.map_map]
    refine congrArg List.sum (List.map_congr_left fun x hx => ?_)
    simp only [Function.comp, Contribution.ofDatagram]
    rw [if_pos (by rw [hbatch.chunkLen_eq x hx]; exact hj)]

/-- **Emission under concurrency.** In a run in which no frame is counted into a slot of another
key, every transmitted frame is the sum of a batch of its own key. -/
theorem emission_of_current (h : StepsMeet cpuStep PointerCurrent (CpuSystem.init C) es) :
    EmissionSafe (runOut cpuStep (CpuSystem.init C) es) := by
  set os := runOut cpuStep (CpuSystem.init C) es with hos
  have hsome : ∀ T, ∃ batch : List (ℕ × Bytes), ∀ out, TransmittedAt os T out →
      ∃ c i frame L U e, es[T]? = some (c, i) ∧ out = rewriteHeaders i.cfg L frame
        ∧ Summed es os c T frame L U e batch := by
    intro T
    by_cases htx : ∃ out, TransmittedAt os T out
    · obtain ⟨out, htx⟩ := htx
      obtain ⟨c, i, frame, L, U, e, batch, he, hout, hsummed⟩ := summed_of_transmitted h htx
      refine ⟨batch, fun out' htx' => ⟨c, i, frame, L, U, e, he, ?_, hsummed⟩⟩
      -- a step returns at most one frame
      obtain ⟨o, exit, ho, hreturned, -⟩ := htx
      obtain ⟨o', exit', ho', hreturned', -⟩ := htx'
      obtain rfl := Option.some.inj (ho.symm.trans ho')
      exact (congrArg Prod.snd (Option.some.inj (hreturned'.symm.trans hreturned))).trans hout
    · exact ⟨[], fun out htx' => absurd ⟨out, htx'⟩ htx⟩
  choose batch hbatch using hsome
  refine ⟨batch, fun T out htx => ?_, ?_⟩
  · obtain ⟨c, i, frame, L, U, e, -, hout, hsummed⟩ := hbatch T out htx
    obtain ⟨h1, h2, h3⟩ := hsummed.reports hout
    exact ⟨⟨e, U, hsummed.lt, h1⟩, h2, h3⟩
  · -- it is enough to look at two frames in the order in which they were returned
    have hlt : ∀ T T' out out', TransmittedAt os T out → TransmittedAt os T' out' → T < T' →
        ∀ x ∈ batch T, ∀ y ∈ batch T', x.1 ≠ y.1 := by
      intro T T' out out' htx htx' hlt x hx y hy
      obtain ⟨c, i, frame, L, U, e, he, hout, hsummed⟩ := hbatch T out htx
      obtain ⟨c', i', frame', L', U', e', -, hout', hsummed'⟩ := hbatch T' out' htx'
      have h1 := (hsummed.reports hout).1
      have h2 := (hsummed'.reports hout').1
      rcases Nat.lt_trichotomy U U' with hU | rfl | hU
      · exact h1.disjoint_of_lt h2 hsummed.completed hU hx hy
      · -- one completion would be the same CPU's, which has returned since
        obtain ⟨i₁, hi₁⟩ := hsummed.acted
        obtain ⟨i₂, hi₂⟩ := hsummed'.acted
        obtain rfl : c = c' := congrArg Prod.fst (Option.some.inj (hi₁.symm.trans hi₂))
        obtain ⟨o, exit, ho, hreturned, -⟩ := htx
        have hnone := hsummed'.unreturned T i o hsummed.lt.le hlt he ho
        rw [hnone] at hreturned
        cases hreturned
      · exact (h2.disjoint_of_lt h1 hsummed'.completed hU hy hx).symm
    intro T T' out out' htx htx' hne x hx y hy
    rcases Nat.lt_or_gt_of_ne hne with hT | hT
    · exact hlt T T' out out' htx htx' hT x hx y hy
    · exact (hlt T' T out' out htx' htx hT y hy x hx).symm

end

/-! ## A stale pointer -/

/-- Two CPUs look up the same key, and the second adds its frame once the first has added its
own. -/
def joinedRun : List (Fin 2 × CpuInput) :=
  let frame := fun worker =>
    inputFor 0 0 (wholeFrame (workerPacket ⟨1, 0, 0, worker, 2, 1, 0⟩ fun _ => 5))
  List.replicate 7 (0, frame 0) ++ List.replicate 2 (1, frame 1) ++ List.replicate 1 (0, frame 0)
    ++ List.replicate 7 (1, frame 1)

theorem joinedRun_safe : EmissionSafe (runOut cpuStep (CpuSystem.init (Fin 2)) joinedRun) :=
  emission_of_current (by decide +kernel)

/-- CPU 0 opens key `(1, 0, 0)`; CPU 1 looks it up and gets no further than the lock. CPU 0
completes the key, and opens key `(1, 1, 0)` at the same element. CPU 1 goes on, adds its frame of
the first key to the second key's sum, and completes it. -/
def staleRun : List (Fin 2 × CpuInput) :=
  let first := inputFor 0 0 (frameWith (workerPacket ⟨1, 0, 0, 0, 1, 1, 0⟩ fun _ => 0))
  let second := inputFor 0 0 (frameWith (workerPacket ⟨1, 1, 0, 1, 2, 1, 0⟩ fun _ => 1))
  List.replicate 7 (0, first) ++ List.replicate 2 (1, first) ++ List.replicate 7 (0, first)
    ++ List.replicate 8 (0, second) ++ List.replicate 7 (1, first)

theorem staleRun_not_safe :
    ¬ EmissionSafe (runOut cpuStep (CpuSystem.init (Fin 2)) staleRun) := by
  -- every frame of the first key that is counted has the value 0, and one is transmitted with 1
  have hsent : ((runOut cpuStep (CpuSystem.init (Fin 2)) staleRun)[30]?.bind
      CpuOutput.returned).any (fun x => decide (x.1.action = .tx ∧ keyOf x.2 = ⟨1, 0, 0⟩
        ∧ 0 < (GradHdr.decode (payload x.2)).chunkLen.toNat ∧ valueAt (payload x.2) 0 = 1))
      = true := by decide +kernel
  have hcounted : (runOut cpuStep (CpuSystem.init (Fin 2)) staleRun).all (fun o =>
      o.locked.all fun x => decide (keyOf x.2.1 = ⟨1, 0, 0⟩ → valueAt (payload x.2.1) 0 = 0))
      = true := by decide +kernel
  rintro ⟨batch, hsum, -⟩
  rw [Option.any_eq_true] at hsent
  obtain ⟨⟨exit, out⟩, hout, hdec⟩ := hsent
  obtain ⟨o, ho, hreturned⟩ := Option.bind_eq_some_iff.mp hout
  obtain ⟨htx, hkey, hlen, hvalue⟩ := of_decide_eq_true hdec
  obtain ⟨⟨e, U, -, hbatch⟩, -, hreports⟩ := hsum 30 out ⟨o, exit, ho, hreturned, htx⟩
  have hzero : ∀ v ∈ (batch 30).map (fun x => valueAt (payload x.2) 0), v = 0 := by
    intro v hv
    obtain ⟨x, hx, rfl⟩ := List.mem_map.mp hv
    obtain ⟨o', v', ho', hlocked, -⟩ := hbatch.counted x hx
    have hall := List.all_eq_true.mp hcounted o' (List.mem_of_getElem? ho')
    rw [hlocked, Option.all_some] at hall
    exact of_decide_eq_true hall ((hbatch.key_eq x hx).trans hkey)
  rw [hreports.value_eq 0 hlen, List.sum_eq_zero hzero] at hvalue
  cases hvalue

end NetSum.XdpAgg
