import NetSum.PipelineTheorems

/-!
# When a key completes

The parameter server on a workload, when datagrams get lost, arrive more than once and overtake
each other. As long as the keys fit into its table, a key's slot has counted exactly the workers
whose datagrams arrived (`Slots.Delivered`), whatever the order. So a key completes with the first
datagram of the last worker, and at no other time, and it is recorded from then on
(`recorded_when_arrived`).
-/

namespace NetSum.ParamServer

open NetSum.Lib NetSum.Protocol NetSum.Aggregation
open UserspaceAgg (SlotIdx slotTableCapacity Buffer covers_slotSeq)

/-! ## What has arrived -/

/-- The datagrams that were received. -/
def received (es : List Event) : List Bytes := es.filterMap Event.received

/-- The workers of the key whose datagrams are among these. -/
def workersIn (ds : List Bytes) (k : GradSlotKey) : Finset ℕ :=
  ((ds.filter fun d => (GradHdr.decode d).key = k).map fun d =>
    (GradHdr.decode d).workerId.toNat).toFinset

/-- The keys of these datagrams. -/
def keysIn (ds : List Bytes) : Finset GradSlotKey :=
  (ds.map fun d => (GradHdr.decode d).key).toFinset

section

variable {ds : List Bytes} {d : Bytes} {k : GradSlotKey} {w : ℕ}

theorem mem_workersIn : w ∈ workersIn ds k
    ↔ ∃ d ∈ ds, (GradHdr.decode d).key = k ∧ (GradHdr.decode d).workerId.toNat = w := by
  simp only [workersIn, List.mem_toFinset, List.mem_map, List.mem_filter, decide_eq_true_eq,
    and_assoc]

theorem workersIn_concat (ds : List Bytes) (d : Bytes) :
    workersIn (ds ++ [d]) = Function.update (workersIn ds) (GradHdr.decode d).key
      (insert (GradHdr.decode d).workerId.toNat (workersIn ds (GradHdr.decode d).key)) := by
  funext k
  ext w
  by_cases hk : k = (GradHdr.decode d).key
  · subst hk
    rw [Function.update_self, Finset.mem_insert, mem_workersIn, mem_workersIn]
    constructor
    · rintro ⟨d', hd', hkey, rfl⟩
      rcases List.mem_append.mp hd' with hd' | hd'
      · exact .inr ⟨d', hd', hkey, rfl⟩
      · rw [List.mem_singleton.mp hd']
        exact .inl rfl
    · rintro (rfl | ⟨d', hd', hkey, rfl⟩)
      · exact ⟨d, List.mem_append_right _ List.mem_cons_self, rfl, rfl⟩
      · exact ⟨d', List.mem_append_left _ hd', hkey, rfl⟩
  · rw [Function.update_of_ne hk, mem_workersIn, mem_workersIn]
    constructor
    · rintro ⟨d', hd', hkey, rfl⟩
      rcases List.mem_append.mp hd' with hd' | hd'
      · exact ⟨d', hd', hkey, rfl⟩
      · rw [List.mem_singleton.mp hd'] at hkey
        exact absurd hkey.symm hk
    · rintro ⟨d', hd', hkey, rfl⟩
      exact ⟨d', List.mem_append_left _ hd', hkey, rfl⟩

theorem key_mem_keysIn (hw : w ∈ workersIn ds k) : k ∈ keysIn ds := by
  obtain ⟨d, hd, rfl, -⟩ := mem_workersIn.mp hw
  exact List.mem_toFinset.mpr (List.mem_map_of_mem hd)

/-- Only workers of the workload are among those of a key. -/
theorem workersIn_subset {W : Workload} (hds : ∀ d ∈ ds, W.Sends d) (k : GradSlotKey) :
    workersIn ds k ⊆ Finset.range (W.numWorkers k) := by
  intro w hw
  obtain ⟨d, hd, rfl, rfl⟩ := mem_workersIn.mp hw
  exact Finset.mem_range.mpr (hds d hd).worker_lt

theorem forall_mem_iff_eq_range {N : ℕ} {D : Finset ℕ} (hD : D ⊆ Finset.range N) :
    (∀ w < N, w ∈ D) ↔ D = Finset.range N := by
  constructor
  · intro h
    exact Finset.Subset.antisymm hD fun w hw => h w (Finset.mem_range.mp hw)
  · intro h w hw
    rw [h]
    exact Finset.mem_range.mpr hw

end

/-! ## The slot table -/

/-- A key has an entry if a datagram of it was received, and the entry has counted the workers
`D k` whose datagrams were. -/
structure Slots.Delivered (W : Workload) (D : GradSlotKey → Finset ℕ) (t : Slots) : Prop where
  absent : ∀ k, D k = ∅ → ∀ i, Slots.occ t i ≠ some k
  present : ∀ k i, Slots.occ t i = some k →
    (t i).tally.Of (W.numWorkers k) (W.chunkLen k) (W.contribution k) (D k)
      ∧ ((D k).card < W.numWorkers k → (t i).completedMicros = 0)
  found : ∀ k, (D k).Nonempty → ∃ i, Slots.occ t i = some k

section

variable {W : Workload} {mode : Mode} {ev : Event} {packet : Buffer} {t t' : Slots} {d : Bytes}
  {i : SlotIdx} {s : Slot} {v : Verdict} {slot : Option SlotIdx} {k : GradSlotKey}
  {D : GradSlotKey → Finset ℕ}

/-- The keys that a table holds fit into it, with one to spare for a key it does not hold. -/
theorem Slots.Delivered.exists_free (h : Slots.Delivered W D t) (hkeyed : Slots.Keyed t)
    {K : Finset GradSlotKey} (hD : ∀ k, (D k).Nonempty → k ∈ K) (hk : k ∈ K) (hnew : D k = ∅)
    (hcard : K.card ≤ slotTableCapacity) : ∃ i, Slots.occ t i = none := by
  by_contra hfull
  push Not at hfull
  choose key hkey using fun i => Option.ne_none_iff_exists'.mp (hfull i)
  -- the table's keys are as many as its entries, and `k` is another one
  have hinj : Function.Injective key := fun i j hij =>
    hkeyed.unique (key i) i j (hkey i) (hij ▸ hkey j)
  have hsub : Finset.univ.image key ⊆ K.erase k := by
    intro k' hk'
    obtain ⟨i, -, rfl⟩ := Finset.mem_image.mp hk'
    have hne : (D (key i)).Nonempty := by
      rw [Finset.nonempty_iff_ne_empty]
      exact fun hempty => h.absent _ hempty i (hkey i)
    refine Finset.mem_erase.mpr ⟨?_, hD _ hne⟩
    rintro rfl
    rw [hnew] at hne
    exact Finset.not_nonempty_empty hne
  have hle := Finset.card_le_card hsub
  rw [Finset.card_image_of_injective _ hinj, Finset.card_univ, Fintype.card_fin,
    Finset.card_erase_of_mem hk] at hle
  have hpos : 0 < K.card := Finset.card_pos.mpr ⟨k, hk⟩
  omega

/-- How an iteration that receives a datagram of the workload ends. -/
def verdictOf (W : Workload) (D : GradSlotKey → Finset ℕ) (d : Bytes) : Verdict :=
  if (GradHdr.decode d).workerId.toNat ∈ D (GradHdr.decode d).key then .duplicate
  else if (D (GradHdr.decode d).key).card + 1 = W.numWorkers (GradHdr.decode d).key then .complete
  else .absorbed

/-- The workers `D`, and the one of the datagram. -/
abbrev withWorkerOf (D : GradSlotKey → Finset ℕ) (d : Bytes) : GradSlotKey → Finset ℕ :=
  Function.update D (GradHdr.decode d).key
    (insert (GradHdr.decode d).workerId.toNat (D (GradHdr.decode d).key))

/-- The slot that counts a new worker, before the completion test. -/
theorem Accepts.delivered (h : Accepts mode ev (bufferValues packet d) t d i s)
    (ht : Slots.Ok t) (hkeyed : Slots.Keyed t) (hmode : mode.Expects W) (hd : W.Sends d)
    (hD : Slots.Delivered W D t)
    (hsub : D (GradHdr.decode d).key ⊆ Finset.range (W.numWorkers (GradHdr.decode d).key)) :
    (GradHdr.decode d).workerId.toNat ∉ D (GradHdr.decode d).key
      ∧ s.tally.Of (W.numWorkers (GradHdr.decode d).key) (W.chunkLen (GradHdr.decode d).key)
        (W.contribution (GradHdr.decode d).key)
        (insert (GradHdr.decode d).workerId.toNat (D (GradHdr.decode d).key))
      ∧ s.completedMicros = 0 := by
  have hwhole := contributionOf_of_le packet hd.wellFormed.values_le
  cases h with
  | joined hprobe hocc hseen =>
    obtain ⟨hT, hcompleted⟩ := hD.present _ i hocc
    have hnew : (GradHdr.decode d).workerId.toNat ∉ D (GradHdr.decode d).key := by
      have hmark := tally_seen_eq_false hseen
      rw [← Bool.not_eq_true, hT.seen_iff, hd.worker_eq] at hmark
      exact hmark
    refine ⟨hnew, ?_, hcompleted ?_⟩
    · rw [(tally_joined ht hocc hseen).2, hwhole, ← hd.worker_eq]
      exact hT.absorb hd.values_eq (by rwa [hd.worker_eq])
    · -- the datagram's own worker is missing
      have hlt := Finset.card_lt_card (Finset.ssubset_iff_subset_ne.mpr ⟨hsub, fun heq => hnew ?_⟩)
      · rwa [Finset.card_range] at hlt
      · rw [heq]
        exact Finset.mem_range.mpr hd.worker_lt
  | opened hprobe hocc =>
    have hempty : D (GradHdr.decode d).key = ∅ := by
      rw [← Finset.not_nonempty_iff_eq_empty]
      intro hne
      obtain ⟨j, hj⟩ := hD.found _ hne
      exact absent_of_probe_free (covers_slotSeq _) (hkeyed.chained _) hprobe hocc j hj
    rw [hempty]
    refine ⟨Finset.notMem_empty _, ?_, rfl⟩
    rw [tally_opened, hwhole, hmode d hd, hd.chunkLen_eq, ← hd.worker_eq]
    exact (Tally.of_opened _ _ _).absorb hd.values_eq (Finset.notMem_empty _)

/-- The completion test of a slot that has counted its workers. -/
theorem settle_of_tally {N : ℕ} {A : Finset ℕ} {L : ℕ}
    {c : ℕ → Fin netsumMaxChunkLen → BitVec 32} (hT : s.tally.Of N L c A)
    (hcompleted : s.completedMicros = 0) (now : ℤ) :
    (s.settle now).2 = (if A.card = N then .complete else .absorbed)
      ∧ (A.card ≠ N → (s.settle now).1.completedMicros = 0) := by
  have hcount : s.contributionsReceived = s.numWorkersExpected ↔ A.card = N := by
    rw [← hT.count_eq, ← hT.fanIn_eq]
    exact BitVec.toNat_inj.symm
  unfold Slot.settle
  by_cases hfull : A.card = N
  · rw [if_pos ⟨hcount.mpr hfull, hcompleted⟩, if_pos hfull]
    exact ⟨rfl, fun hne => absurd hfull hne⟩
  · rw [if_neg fun h => hfull (hcount.mp h.1), if_neg hfull]
    exact ⟨rfl, fun _ => hcompleted⟩

/-- **One datagram of the workload.** -/
theorem Effect.delivered (h : Effect mode ev packet t t' v slot) (ht : Slots.Ok t)
    (hkeyed : Slots.Keyed t) (hmode : mode.Expects W) (hrecv : ev.received = some d)
    (hd : W.Sends d) (hD : Slots.Delivered W D t)
    (hsub : D (GradHdr.decode d).key ⊆ Finset.range (W.numWorkers (GradHdr.decode d).key))
    (hroom : D (GradHdr.decode d).key = ∅ → ∃ i, Slots.occ t i = none) :
    Slots.Delivered W (withWorkerOf D d) t' ∧ v = verdictOf W D d := by
  have hwf := hd.wellFormed
  cases h with
  | idle hrecv' =>
    rw [hrecv] at hrecv'
    cases hrecv'
  | screened hrecv' hscreen =>
    obtain rfl := Option.some.inj (hrecv.symm.trans hrecv')
    rw [(screen_eq_none d).mpr ⟨hwf.hdr_le, hwf.chunkLen_le, hwf.workerId_lt⟩] at hscreen
    cases hscreen
  | full hrecv' hd' hfull =>
    obtain rfl := Option.some.inj (hrecv.symm.trans hrecv')
    rcases Finset.eq_empty_or_nonempty (D (GradHdr.decode d).key) with hempty | hne
    · obtain ⟨i, hi⟩ := hroom hempty
      exact absurd hi (hfull i).1
    · obtain ⟨i, hi⟩ := hD.found _ hne
      exact absurd hi (hfull i).2
  | @duplicate d' i hrecv' hd' hprobe hocc hseen =>
    obtain rfl := Option.some.inj (hrecv.symm.trans hrecv')
    -- the slot has marked the worker
    have hmem : (GradHdr.decode d).workerId.toNat ∈ D (GradHdr.decode d).key := by
      rw [← hd.worker_eq, ← (hD.present _ i hocc).1.seen_iff]
      exact bne_iff_ne.mpr hseen
    refine ⟨?_, by rw [verdictOf, if_pos hmem]⟩
    rw [withWorkerOf, Finset.insert_eq_of_mem hmem, Function.update_eq_self]
    exact hD
  | @counted d' i s hrecv' hd' hacc =>
    obtain rfl := Option.some.inj (hrecv.symm.trans hrecv')
    obtain ⟨hnew, hT, hcompleted⟩ := hacc.delivered ht hkeyed hmode hd hD hsub
    obtain ⟨hv, hkept⟩ := settle_of_tally hT hcompleted ev.nowCompleted
    have hcard := Finset.card_insert_of_notMem hnew
    have hocc : ∀ j, Slots.occ (Function.update t i (s.settle ev.nowCompleted).1) j
        = if j = i then some (GradHdr.decode d).key else Slots.occ t j := by
      intro j
      rw [occ_update, occupant_settle, hacc.occupant, Function.update_apply]
    -- another entry holds another key
    have hother : ∀ j, j ≠ i → Slots.occ t j ≠ some (GradHdr.decode d).key := by
      intro j hji hj
      cases hacc with
      | joined hprobe hocc' hseen => exact hji (hkeyed.unique _ j i hj hocc')
      | opened hprobe hocc' =>
        exact absent_of_probe_free (covers_slotSeq _) (hkeyed.chained _) hprobe hocc' j hj
    refine ⟨⟨fun k hk j hj => ?_, fun k j hj => ?_, fun k hk => ?_⟩, ?_⟩
    · have hkey : k ≠ (GradHdr.decode d).key := by
        rintro rfl
        rw [withWorkerOf, Function.update_self] at hk
        exact Finset.insert_ne_empty _ _ hk
      rw [withWorkerOf, Function.update_of_ne hkey] at hk
      rw [hocc] at hj
      split at hj
      · exact hkey (Option.some.inj hj).symm
      · exact hD.absent k hk j hj
    · rw [hocc] at hj
      by_cases hji : j = i
      · rw [if_pos hji] at hj
        obtain rfl := Option.some.inj hj
        rw [hji, withWorkerOf, Function.update_self, Function.update_self, tally_settle]
        exact ⟨hT, fun hlt => hkept (Nat.ne_of_lt hlt)⟩
      · rw [if_neg hji] at hj
        have hkey : k ≠ (GradHdr.decode d).key := by
          rintro rfl
          exact hother j hji hj
        rw [withWorkerOf, Function.update_of_ne hkey, Function.update_of_ne hji]
        exact hD.present k j hj
    · by_cases hkey : k = (GradHdr.decode d).key
      · exact ⟨i, by rw [hocc, if_pos rfl, hkey]⟩
      · rw [withWorkerOf, Function.update_of_ne hkey] at hk
        obtain ⟨j, hj⟩ := hD.found k hk
        refine ⟨j, ?_⟩
        rw [hocc, if_neg, hj]
        rintro rfl
        -- the entry that was found for the datagram held its key, or nothing
        cases hacc with
        | joined hprobe hocc' hseen =>
          rw [hocc'] at hj
          exact hkey (Option.some.inj hj).symm
        | opened hprobe hocc' =>
          rw [hocc'] at hj
          cases hj
    · rw [hv, verdictOf, if_neg hnew, hcard]

/-- An iteration that receives nothing. -/
theorem Effect.delivered_of_none (h : Effect mode ev packet t t' v slot)
    (hrecv : ev.received = none) (hD : Slots.Delivered W D t) :
    Slots.Delivered W D t' ∧ v = .short := by
  cases h with
  | idle => exact ⟨hD, rfl⟩
  | screened hrecv' | full hrecv' | duplicate hrecv' | counted hrecv' =>
    rw [hrecv] at hrecv'
    cases hrecv'

end

/-! ## Runs -/

section

variable {W : Workload} {mode : Mode} {packet : Buffer} {es : List Event}

/-- What was received before time `U`. -/
theorem mem_received_take {d : Bytes} {U : ℕ} : d ∈ received (es.take U)
    ↔ ∃ T < U, ∃ ev, es[T]? = some ev ∧ ev.received = some d :=
  mem_filterMap_take

theorem sends_of_received (hes : ∀ ev ∈ es, ev.On W) (T : ℕ) :
    ∀ d ∈ received (es.take T), W.Sends d := by
  intro d hd
  obtain ⟨ev, hev, hrecv⟩ := List.mem_filterMap.mp hd
  exact hes ev (List.mem_of_mem_take hev) d hrecv

/-- The keys received so far are among all that are. -/
theorem keysIn_take_subset (T : ℕ) : keysIn (received (es.take T)) ⊆ keysIn (received es) := by
  intro k hk
  rw [keysIn, List.mem_toFinset] at hk ⊢
  exact ((List.take_sublist T es).filterMap _).map _ |>.subset hk

/-- There is room for the datagram received next, if its key is new. -/
theorem exists_free_at (hroom : (keysIn (received es)).card ≤ slotTableCapacity) {T : ℕ} {ev : Event}
    {d : Bytes} (hev : es[T]? = some ev) (hrecv : ev.received = some d) {t : Slots}
    (hkeyed : Slots.Keyed t) (hD : Slots.Delivered W (workersIn (received (es.take T))) t)
    (hempty : workersIn (received (es.take T)) (GradHdr.decode d).key = ∅) :
    ∃ i, Slots.occ t i = none := by
  refine hD.exists_free hkeyed (fun k ⟨w, hw⟩ => ?_) ?_ hempty hroom
  · exact keysIn_take_subset T (key_mem_keysIn hw)
  · refine List.mem_toFinset.mpr (List.mem_map_of_mem ?_)
    exact List.mem_filterMap.mpr ⟨ev, List.mem_of_getElem? hev, hrecv⟩

/-- **Every state** has counted what was received. -/
theorem delivered_stateAt (hmode : mode.Expects W) (hes : ∀ ev ∈ es, ev.On W)
    (hroom : (keysIn (received es)).card ≤ slotTableCapacity) :
    ∀ T ≤ es.length, Slots.Delivered W (workersIn (received (es.take T)))
      (stateAt (mainStep mode) (State.init packet) es T).gSlots := by
  refine stateAt_induction (fun T (st : State) =>
    Slots.Delivered W (workersIn (received (es.take T))) st.gSlots) ?_ fun T ev hev hD => ?_
  · refine ⟨fun k _ i hi => ?_, fun k i hi => ?_, fun k hk => absurd hk ?_⟩
    · cases hi
    · cases hi
    · exact Finset.not_nonempty_empty
  · have hgood := good_stateAt mode packet es T
    have heff := hgood.effect mode ev
    rw [received, filterMap_take_succ _ hev]
    cases hrecv : ev.received with
    | none =>
      rw [Option.toList_none, List.append_nil]
      exact (heff.delivered_of_none hrecv hD).1
    | some d =>
      rw [Option.toList_some, workersIn_concat]
      exact (heff.delivered hgood.ok hgood.keyed hmode hrecv
        (hes ev (List.mem_of_getElem? hev) d hrecv) hD
        (workersIn_subset (sends_of_received hes T) _)
        (exists_free_at hroom hev hrecv hgood.keyed hD)).1

/-- How iteration `T` ends. -/
theorem verdict_at (hmode : mode.Expects W) (hes : ∀ ev ∈ es, ev.On W)
    (hroom : (keysIn (received es)).card ≤ slotTableCapacity) {T : ℕ} {ev : Event} {d : Bytes}
    (hev : es[T]? = some ev) (hrecv : ev.received = some d) :
    (mainStep mode (stateAt (mainStep mode) (State.init packet) es T) ev).2.verdict
      = verdictOf W (workersIn (received (es.take T))) d := by
  have hgood := good_stateAt mode packet es T
  have hD : Slots.Delivered W (workersIn (received (es.take T)))
      (stateAt (mainStep mode) (State.init packet) es T).gSlots :=
    delivered_stateAt hmode hes hroom T (List.getElem?_eq_some_iff.mp hev).1.le
  exact ((hgood.effect mode ev).delivered hgood.ok hgood.keyed hmode hrecv
    (hes ev (List.mem_of_getElem? hev) d hrecv) hD (workersIn_subset (sends_of_received hes T) _)
    (exists_free_at hroom hev hrecv hgood.keyed hD)).2

/-- The last of `N` workers is the one that makes them complete. -/
theorem insert_eq_range_iff {A : Finset ℕ} {w N : ℕ} (hsub : insert w A ⊆ Finset.range N) :
    (w ∉ A ∧ A.card + 1 = N) ↔ A ≠ Finset.range N ∧ insert w A = Finset.range N := by
  constructor
  · rintro ⟨hnew, hcard⟩
    refine ⟨?_, Finset.eq_of_subset_of_card_le hsub ?_⟩
    · rintro rfl
      exact hnew (hsub (Finset.mem_insert_self _ _))
    · rw [Finset.card_range, Finset.card_insert_of_notMem hnew, hcard]
  · rintro ⟨hne, hall⟩
    have hnew : w ∉ A := by
      intro hmem
      rw [Finset.insert_eq_of_mem hmem] at hall
      exact hne hall
    refine ⟨hnew, ?_⟩
    rw [← Finset.card_insert_of_notMem hnew, hall, Finset.card_range]

theorem verdictOf_eq_complete {D : GradSlotKey → Finset ℕ} {d : Bytes} :
    verdictOf W D d = .complete ↔ (GradHdr.decode d).workerId.toNat ∉ D (GradHdr.decode d).key
      ∧ (D (GradHdr.decode d).key).card + 1 = W.numWorkers (GradHdr.decode d).key := by
  unfold verdictOf
  split
  · next hmem => exact iff_of_false nofun fun h => h.1 hmem
  · next hnew =>
    split
    · next hcard => exact iff_of_true rfl ⟨hnew, hcard⟩
    · next hcard => exact iff_of_false nofun fun h => hcard h.2

/-- A key completes with the first datagram of the last worker, and at no other time. -/
theorem completesAt_iff (hmode : mode.Expects W) (hes : ∀ ev ∈ es, ev.On W)
    (hroom : (keysIn (received es)).card ≤ slotTableCapacity) (k : GradSlotKey) (T : ℕ) :
    CompletesAt es (runOut (mainStep mode) (State.init packet) es) k T
      ↔ workersIn (received (es.take T)) k ≠ Finset.range (W.numWorkers k)
        ∧ workersIn (received (es.take (T + 1))) k = Finset.range (W.numWorkers k) := by
  -- nothing changes but for the key of the datagram that is received
  have hsame : received (es.take (T + 1)) = received (es.take T) → ¬ (
      workersIn (received (es.take T)) k ≠ Finset.range (W.numWorkers k)
        ∧ workersIn (received (es.take (T + 1))) k = Finset.range (W.numWorkers k)) := by
    intro heq h
    rw [heq] at h
    exact h.1 h.2
  cases hev : es[T]? with
  | none =>
    refine iff_of_false ?_ (hsame ?_)
    · rintro ⟨ev, d, o, hev', -⟩
      rw [hev] at hev'
      cases hev'
    · rw [List.take_add_one, hev, Option.toList_none, List.append_nil]
  | some ev =>
    have htake : received (es.take (T + 1)) = received (es.take T) ++ ev.received.toList :=
      filterMap_take_succ Event.received hev
    cases hrecv : ev.received with
    | none =>
      rw [hrecv, Option.toList_none, List.append_nil] at htake
      refine iff_of_false ?_ (hsame htake)
      rintro ⟨ev', d, o, hev', hrecv', -⟩
      obtain rfl := Option.some.inj (hev.symm.trans hev')
      rw [hrecv] at hrecv'
      cases hrecv'
    | some d =>
      rw [hrecv, Option.toList_some] at htake
      have hcompletes : CompletesAt es (runOut (mainStep mode) (State.init packet) es) k T
          ↔ (GradHdr.decode d).key = k
            ∧ verdictOf W (workersIn (received (es.take T))) d = .complete := by
        rw [← verdict_at hmode hes hroom hev hrecv]
        constructor
        · rintro ⟨ev', d', o, hev', hrecv', hkey, ho, hv⟩
          obtain rfl := Option.some.inj (hev.symm.trans hev')
          obtain rfl := Option.some.inj (hrecv.symm.trans hrecv')
          rw [runOut_getElem?, hev, Option.map_some, Option.some.injEq] at ho
          exact ⟨hkey, ho ▸ hv⟩
        · rintro ⟨hkey, hv⟩
          refine ⟨ev, d, _, hev, hrecv, hkey, ?_, hv⟩
          rw [runOut_getElem?, hev]
          rfl
      rw [hcompletes, verdictOf_eq_complete, htake, workersIn_concat]
      by_cases hkey : (GradHdr.decode d).key = k
      · subst hkey
        rw [Function.update_self, ← insert_eq_range_iff]
        · exact and_iff_right rfl
        · have hsub := workersIn_subset (sends_of_received hes (T + 1)) (GradHdr.decode d).key
          rwa [htake, workersIn_concat, Function.update_self] at hsub
      · rw [Function.update_of_ne (Ne.symm hkey)]
        exact iff_of_false (fun h => hkey h.1) fun h => h.1 h.2

/-- By time `U` the key has completed, if the datagrams of all its workers were received. -/
theorem completed_before_iff (hmode : mode.Expects W) (hes : ∀ ev ∈ es, ev.On W)
    (hroom : (keysIn (received es)).card ≤ slotTableCapacity) {k : GradSlotKey}
    (hpos : 0 < W.numWorkers k) (U : ℕ) :
    (∃ T < U, CompletesAt es (runOut (mainStep mode) (State.init packet) es) k T)
      ↔ ∀ w < W.numWorkers k, w ∈ workersIn (received (es.take U)) k := by
  rw [forall_mem_iff_eq_range (workersIn_subset (sends_of_received hes U) k)]
  simp only [completesAt_iff hmode hes hroom]
  induction U with
  | zero =>
    refine iff_of_false ?_ ?_
    · rintro ⟨T, hT, -⟩
      exact absurd hT (Nat.not_lt_zero T)
    · intro h
      rw [List.take_zero] at h
      have hmem := Finset.mem_range.mpr hpos
      rw [← h] at hmem
      exact Finset.notMem_empty _ hmem
  | succ U ih =>
    -- what was complete stays complete
    have hkept : workersIn (received (es.take U)) k = Finset.range (W.numWorkers k) →
        workersIn (received (es.take (U + 1))) k = Finset.range (W.numWorkers k) := by
      intro h
      apply Finset.Subset.antisymm (workersIn_subset (sends_of_received hes (U + 1)) k)
      rw [← h]
      intro w hw
      obtain ⟨d, hd, hkey⟩ := mem_workersIn.mp hw
      refine mem_workersIn.mpr ⟨d, ?_, hkey⟩
      exact ((List.take_sublist_take_left (Nat.le_succ U)).filterMap _).subset hd
    constructor
    · rintro ⟨T, hT, hne, hfull⟩
      rcases Nat.lt_succ_iff_lt_or_eq.mp hT with hT | rfl
      · exact hkept (ih.mp ⟨T, hT, hne, hfull⟩)
      · exact hfull
    · intro hfull
      by_cases hbefore : workersIn (received (es.take U)) k = Finset.range (W.numWorkers k)
      · obtain ⟨T, hT, hcomplete⟩ := ih.mpr hbefore
        exact ⟨T, Nat.lt_succ_of_lt hT, hcomplete⟩
      · exact ⟨U, Nat.lt_succ_self U, hbefore, hfull⟩

/-- **A key completes with the first datagram of the last worker**, and at no other time, whatever
was lost, doubled or reordered. As soon as all have arrived, their sums are recorded. -/
theorem recorded_when_arrived (hmode : mode.Expects W) (hes : ∀ ev ∈ es, ev.On W)
    (hroom : (keysIn (received es)).card ≤ slotTableCapacity) {k : GradSlotKey}
    (hpos : 0 < W.numWorkers k) :
    (∀ T, CompletesAt es (runOut (mainStep mode) (State.init packet) es) k T
      ↔ workersIn (received (es.take T)) k ≠ Finset.range (W.numWorkers k)
        ∧ workersIn (received (es.take (T + 1))) k = Finset.range (W.numWorkers k))
    ∧ ∀ U, (∀ w < W.numWorkers k, w ∈ workersIn (received (es.take U)) k) →
      Records (stateAt (mainStep mode) (State.init packet) es U).gSlots k (W.chunkLen k)
        (W.total k) := by
  refine ⟨completesAt_iff hmode hes hroom k, fun U hall => ?_⟩
  obtain ⟨T, hT, hcompletes⟩ := (completed_before_iff hmode hes hroom hpos U).mpr hall
  exact records_total hmode hes hcompletes hT

end

/-- The datagram of the second worker arrives twice, and ahead of that of the first. -/
theorem recorded_when_arrived_twoWorkers :
    let es := [Event.deliver (datagramOf 1), .deliver (datagramOf 1), .deliver (datagramOf 0)]
    Records (stateAt (mainStep .noagg) (.init .zero) es 3).gSlots ⟨1, 0, 0⟩ 1
      (twoWorkers.total ⟨1, 0, 0⟩) := by
  intro es
  have hsends : ∀ w < 2, twoWorkers.Sends (datagramOf w) := by
    intro w hw
    interval_cases w
    all_goals exact ⟨by decide +kernel, by decide +kernel, by decide +kernel, by decide +kernel,
      by decide +kernel⟩
  have hes : ∀ ev ∈ es, ev.On twoWorkers := by
    intro ev hev d hd
    simp only [es, List.mem_cons, List.not_mem_nil, or_false] at hev
    rcases hev with rfl | rfl | rfl <;> obtain rfl := Option.some.inj hd
    · exact hsends 1 (by decide)
    · exact hsends 1 (by decide)
    · exact hsends 0 (by decide)
  refine (recorded_when_arrived (expects_noagg _) hes (by decide +kernel) (by decide)).2 3 ?_
  show ∀ w < 2, _
  decide +kernel

end NetSum.ParamServer
