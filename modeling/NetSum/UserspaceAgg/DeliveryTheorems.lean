import NetSum.UserspaceAgg.Invariants

/-!
# Delivery of a key's round

A key whose `N` workers deliver one datagram each ought to be emitted once and leave no slot
behind. A free entry ahead of the key's slot breaks this: the search stops there, a second slot
is opened, and neither collects `N` contributions any more. Freeing another key's slot is what
puts a free entry there.

`Healthy` and `Broken` are the two kinds of states a run passes through; a datagram of the key
that finds it intact keeps the run healthy (`Healthy.step`), one that does not breaks it
(`Healthy.break`), and nothing repairs it (`Broken.step`). So the key is delivered exactly when
each of its datagrams finds it intact (`delivered_iff`).
-/

namespace NetSum.UserspaceAgg

open NetSum.Lib NetSum.Protocol NetSum.Aggregation

/-! ## The traffic of a key -/

/-- The datagram of key `k` that an iteration received. -/
def Event.datagramOf (k : GradSlotKey) (ev : Event) : Option Bytes :=
  ev.received.filter fun d => (GradHdr.decode d).key = k

/-- The datagrams of key `k`, in order. -/
def datagramsOf (k : GradSlotKey) (es : List Event) : List Bytes :=
  es.filterMap (Event.datagramOf k)

/-- The packet of key `k` that an iteration sent. -/
def Output.packetOf (k : GradSlotKey) (o : Output) : Option Bytes :=
  o.sent.filter fun p => (GradHdr.decode p).key = k

/-- The packets of key `k`, in order. -/
def packetsOf (k : GradSlotKey) (os : List Output) : List Bytes :=
  os.filterMap (Output.packetOf k)

theorem Event.datagramOf_eq_some {k : GradSlotKey} {ev : Event} {d : Bytes} :
    ev.datagramOf k = some d ↔ ev.received = some d ∧ (GradHdr.decode d).key = k := by
  simp [Event.datagramOf, Option.filter_eq_some_iff]

theorem Event.datagramOf_eq_none {k : GradSlotKey} {ev : Event} :
    ev.datagramOf k = none ↔ ∀ d, ev.received = some d → (GradHdr.decode d).key ≠ k := by
  simp [Event.datagramOf, Option.filter_eq_none_iff]

/-- The worker a datagram is from. -/
def workerOf (d : Bytes) : ℕ := (GradHdr.decode d).workerId.toNat

/-- Every datagram of the run is well formed, and each of the `N` workers of key `k` delivers
exactly one, of chunk length `L`. -/
structure DeliversOnce (k : GradSlotKey) (N L : ℕ) (es : List Event) : Prop where
  wellFormed : ∀ ev ∈ es, ∀ d, ev.received = some d → WellFormed d
  workers : ((datagramsOf k es).map workerOf).Perm (List.range N)
  fanIn_eq : ∀ d ∈ datagramsOf k es, (GradHdr.decode d).numWorkers.toNat = N
  chunkLen_eq : ∀ d ∈ datagramsOf k es, (GradHdr.decode d).chunkLen.toNat = L

/-! ## The slots of the key -/

/-- Every slot of the key is one the workers `ws` may have left. -/
def Tables.Own (t : Tables) (k : GradSlotKey) (N L : ℕ) (ws : List ℕ) : Prop :=
  ∀ i, t.occ i = some k → (t.gSlots i).tally.Within N L ws

/-- The slot that a datagram of the key is counted into. -/
theorem Accepts.within {q : ℤ} {ev : Event} {t : Tables} {d : Bytes} {i : SlotIdx} {s : Slot}
    {g : Jobs} {N L : ℕ} {ws : List ℕ} (h : Accepts q ev t d i s g) (hd : WellFormed d)
    (ht : t.Ok) (hown : t.Own (GradHdr.decode d).key N L ws)
    (hN : (GradHdr.decode d).numWorkers.toNat = N) (hL : (GradHdr.decode d).chunkLen.toNat = L) :
    s.tally.Within N L (ws ++ [workerOf d])
      ∧ (t.occ i = some (GradHdr.decode d).key ∧ s.tally.count = (t.gSlots i).tally.count + 1
        ∨ t.occ i = none ∧ s.tally.count = 1) := by
  have hw : ((Contribution.ofDatagram d).worker : ℕ) = workerOf d :=
    Contribution.worker_ofDatagram hd
  cases h with
  | joined hprobe hocc hlen hseen =>
    obtain ⟨r, hr⟩ := ht i (Slot.occupant_eq_some.mp hocc).1
    rw [tally_accumulate ev.nowTouched hr.count_lt, ← hw]
    exact ⟨(hown i hocc).absorb _, .inl ⟨hocc, rfl⟩⟩
  | opened hprobe hocc hjobs =>
    rw [tally_opened d ev.nowFirstSeen ev.nowTouched, Round.tally_absorb, Round.tally_opened, hN,
      hL, ← hw]
    exact ⟨Tally.within_opened_absorb N L ws _, .inr ⟨hocc, rfl⟩⟩

/-- A datagram of key `k` is counted into slot `i`, which becomes `s`, and is freed and emitted
if that makes `N`. -/
structure Counted (k : GradSlotKey) (N : ℕ) (t t' : Tables) (sent : Option Bytes) (i : SlotIdx)
    (s : Slot) : Prop where
  probe_eq : probe (slotSeq k) (stopAt t.occ k) = some i
  count_eq : t.occ i = some k ∧ s.tally.count = (t.gSlots i).tally.count + 1
    ∨ t.occ i = none ∧ s.tally.count = 1
  occupant_eq : s.occupant = some k
  others : ∀ j, j ≠ i → t'.gSlots j = t.gSlots j
  absorbed : s.tally.count < N → t'.gSlots i = s ∧ sent = none
  complete : N ≤ s.tally.count → t'.occ i = none
    ∧ ∃ p, sent = some p ∧ (GradHdr.decode p).key = k

/-- With room in the table, no quota and no worker twice, a datagram of the key is counted
into some slot. -/
theorem Effect.counted {ev : Event} {t t' : Tables} {v : Verdict} {slot : Option SlotIdx}
    {sent : Option Bytes} (h : Effect 0 ev t t' v slot sent) {d : Bytes}
    (hrecv : ev.received = some d) (hd : WellFormed d) (ht : t.Ok) (hroom : t.HasRoom)
    {N L : ℕ} {ws : List ℕ} (hown : t.Own (GradHdr.decode d).key N L ws)
    (hN : (GradHdr.decode d).numWorkers.toNat = N) (hL : (GradHdr.decode d).chunkLen.toNat = L)
    (hnew : workerOf d ∉ ws) :
    ∃ i s, Counted (GradHdr.decode d).key N t t' sent i s
      ∧ s.tally.Within N L (ws ++ [workerOf d]) := by
  -- with room, no quota and a new worker, no drop is left
  cases h with
  | idle hr => rw [hrecv] at hr; cases hr
  | screened hr hscreen =>
    rw [received_unique hrecv hr, screen_of_wellFormed hd] at hscreen
    cases hscreen
  | full hr hd' hfull =>
    obtain ⟨i, hi⟩ := hroom
    exact absurd hi (hfull i).1
  | refused hr hd' hprobe hocc hfind hquota => exact absurd hquota.1 (lt_irrefl _)
  | mismatch hr hd' hprobe hocc hlen =>
    obtain rfl := received_unique hrecv hr
    exact absurd (BitVec.eq_of_toNat_eq ((hown _ hocc).chunkLen_eq.trans hL.symm)) hlen
  | duplicate hr hd' hprobe hocc hlen hseen =>
    obtain rfl := received_unique hrecv hr
    have := (hown _ hocc).seen _ (bne_iff_ne.mpr hseen)
    rw [Contribution.worker_ofDatagram hd] at this
    exact absurd this hnew
  | @absorbed d' i s g hr hd' hacc hlt =>
    obtain rfl := received_unique hrecv hr
    obtain ⟨hwithin, hcount⟩ := hacc.within hd ht hown hN hL
    rw [hwithin.fanIn_eq] at hlt
    refine ⟨i, s, ⟨hacc.probe_eq, hcount, hacc.occupant.1, fun j hj => Function.update_of_ne hj ..,
      fun _ => ⟨Function.update_self .., rfl⟩, fun hle => absurd hlt (Nat.not_lt.mpr hle)⟩, hwithin⟩
  | @complete d' i s g p hr hd' hacc hge hsent =>
    obtain rfl := received_unique hrecv hr
    obtain ⟨hwithin, hcount⟩ := hacc.within hd ht hown hN hL
    rw [hwithin.fanIn_eq] at hge
    refine ⟨i, s, ⟨hacc.probe_eq, hcount, hacc.occupant.1, fun j hj => ?_,
      fun hlt => absurd hlt hge, fun _ => ⟨?_, p, rfl, hsent.key_eq⟩⟩, hwithin⟩
    · rw [freeSlot_update_gSlots, Function.update_of_ne hj]
    · rw [Tables.occ, freeSlot_update_gSlots, Function.update_self]
      exact Slot.occupant_eq_none.mpr rfl

/-! ## Healthy and broken runs -/

/-- `c` of the key's `N` workers have delivered and `n` packets were sent for it: all is as it
should be. -/
inductive Healthy (k : GradSlotKey) (N : ℕ) (t : Tables) : ℕ → ℕ → Prop
  | idle (habs : ∀ i, t.occ i ≠ some k) : Healthy k N t 0 0
  | filling {c i} (hocc : t.occ i = some k) (huniq : UniqueAt t.occ k)
      (hcount : (t.gSlots i).tally.count = c) (hpos : 1 ≤ c) (hlt : c < N) : Healthy k N t c 0
  | done (habs : ∀ i, t.occ i ≠ some k) : Healthy k N t N 1

/-- `c` workers have delivered, but no slot has all their contributions. -/
structure Broken (k : GradSlotKey) (t : Tables) (c : ℕ) : Prop where
  live : ∃ i, t.occ i = some k
  short : ∀ i, t.occ i = some k → (t.gSlots i).tally.count + 1 ≤ c

/-- The number of packets sent for `k`, none or one. -/
def sentFor (k : GradSlotKey) (sent : Option Bytes) : ℕ :=
  (sent.filter fun p => (GradHdr.decode p).key = k).toList.length

theorem sentFor_some {k : GradSlotKey} {p : Bytes} (h : (GradHdr.decode p).key = k) :
    sentFor k (some p) = 1 := by simp [sentFor, h]

section

variable {k : GradSlotKey} {N L : ℕ} {t t' : Tables} {sent : Option Bytes} {i : SlotIdx} {s : Slot}

theorem Counted.occ_of_ne (h : Counted k N t t' sent i s) {j : SlotIdx} (hj : j ≠ i) :
    t'.occ j = t.occ j := by
  rw [Tables.occ, Tables.occ, h.others j hj]

theorem Counted.own (h : Counted k N t t' sent i s) {ws : List ℕ} {w : ℕ}
    (hown : t.Own k N L ws) (hwithin : s.tally.Within N L (ws ++ [w])) :
    t'.Own k N L (ws ++ [w]) := by
  intro j hj
  by_cases hji : j = i
  · subst hji
    by_cases hlt : s.tally.count < N
    · rw [(h.absorbed hlt).1]
      exact hwithin
    · rw [(h.complete (Nat.le_of_not_lt hlt)).1] at hj
      cases hj
  · rw [h.occ_of_ne hji] at hj
    rw [h.others j hji]
    exact (hown j hj).append [w]

/-- The search for an intact key goes on where the round was. -/
theorem Healthy.step (h : Counted k N t t' sent i s) {c n : ℕ} (hh : Healthy k N t c n)
    (hint : Intact (slotSeq k) t.occ k) (hc : c < N) :
    Healthy k N t' (c + 1) (n + sentFor k sent) := by
  -- the slot now holds every contribution, and no other slot is the key's
  have hslot : s.tally.count = c + 1 ∧ ∀ j, j ≠ i → t.occ j ≠ some k := by
    cases hh with
    | idle habs =>
      refine ⟨?_, fun j _ => habs j⟩
      rcases h.count_eq with ⟨hocc, -⟩ | ⟨-, hcount⟩
      · exact absurd hocc (habs i)
      · exact hcount
    | @filling c i' hocc huniq hcount hpos hlt =>
      have hp := probe_of_intact (covers_slotSeq k) hint huniq hocc
      obtain rfl := Option.some.inj (hp.symm.trans h.probe_eq)
      refine ⟨?_, fun j hj hj' => hj (huniq j i' hj' hocc)⟩
      rcases h.count_eq with ⟨-, hcount'⟩ | ⟨hnone, -⟩
      · rw [hcount', hcount]
      · rw [hocc] at hnone
        cases hnone
    | done habs => omega
  have hn : n = 0 := by
    cases hh with
    | idle habs => rfl
    | filling hocc huniq hcount hpos hlt => rfl
    | done habs => omega
  obtain ⟨hcount, hothers⟩ := hslot
  subst hn
  have habs' : ∀ j, j ≠ i → t'.occ j ≠ some k := fun j hj => by
    rw [h.occ_of_ne hj]
    exact hothers j hj
  rcases Nat.lt_or_ge (c + 1) N with hlt | hge
  · obtain ⟨hs, rfl⟩ := h.absorbed (hcount ▸ hlt)
    have hocc' : t'.occ i = some k := by rw [Tables.occ, hs, h.occupant_eq]
    refine .filling hocc' (fun a b ha hb => ?_) (by rw [hs, hcount]) (by omega) hlt
    by_contra hab
    rcases ne_or_eq a i with ha' | rfl
    · exact habs' a ha' ha
    · exact habs' b (Ne.symm hab) hb
  · obtain ⟨hfree, p, rfl, hp⟩ := h.complete (by omega)
    have hcN : c + 1 = N := by omega
    rw [hcN, sentFor_some hp]
    refine .done fun j => ?_
    by_cases hj : j = i
    · rw [hj, hfree]
      exact (Option.some_ne_none k).symm
    · exact habs' j hj

/-- The search for a key that is not intact opens a second slot. -/
theorem Healthy.break (h : Counted k N t t' sent i s) {c n : ℕ} (hh : Healthy k N t c n)
    (hint : ¬ Intact (slotSeq k) t.occ k) (hc : c < N) :
    Broken k t' (c + 1) ∧ n + sentFor k sent = 0 := by
  cases hh with
  | idle habs => exact absurd (fun i j hi => absurd hi (habs i)) hint
  | done habs => exact absurd hc (lt_irrefl _)
  | @filling c i' hocc huniq hcount hpos hlt =>
    -- the search does not reach the key's slot
    have hi : i ≠ i' := by
      rintro rfl
      refine hint fun a j ha hj => ?_
      rw [huniq a i ha hocc] at hj
      exact occupied_of_before_probe (covers_slotSeq k) h.probe_eq hj
    have hs : s.tally.count = 1 := by
      rcases h.count_eq with ⟨hocc', -⟩ | ⟨-, hs⟩
      · exact absurd (huniq i i' hocc' hocc) hi
      · exact hs
    obtain ⟨hs', rfl⟩ := h.absorbed (by omega)
    refine ⟨⟨⟨i, by rw [Tables.occ, hs', h.occupant_eq]⟩, fun j hj => ?_⟩, rfl⟩
    by_cases hji : j = i
    · rw [hji, hs', hs]
      omega
    · rw [h.occ_of_ne hji] at hj
      rw [h.others j hji, huniq j i' hj hocc, hcount]

/-- No slot of a broken round is ever completed. -/
theorem Broken.step (h : Counted k N t t' sent i s) {c : ℕ} (hb : Broken k t c)
    {ws : List ℕ} (hown : t.Own k N L ws) (hc : c < N) :
    Broken k t' (c + 1) ∧ sentFor k sent = 0 := by
  obtain ⟨i', hi'⟩ := hb.live
  have hcount : s.tally.count ≤ c := by
    rcases h.count_eq with ⟨hocc, hs⟩ | ⟨-, hs⟩
    · rw [hs]
      exact hb.short i hocc
    · have h1 := (hown i' hi').count_pos
      have h2 := hb.short i' hi'
      omega
  obtain ⟨hs', rfl⟩ := h.absorbed (by omega)
  refine ⟨⟨⟨i, by rw [Tables.occ, hs', h.occupant_eq]⟩, fun j hj => ?_⟩, rfl⟩
  by_cases hji : j = i
  · rw [hji, hs']
    omega
  · rw [h.occ_of_ne hji] at hj
    rw [h.others j hji]
    exact (hb.short j hj).trans (by omega)

theorem Tables.Own.frame {ws : List ℕ} (hown : t.Own k N L ws) (h : t.SameFor k t') :
    t'.Own k N L ws := by
  intro i hi
  have hi' := (h i).1.mp hi
  rw [(h i).2 hi']
  exact hown i hi'

theorem Healthy.frame {c n : ℕ} (hh : Healthy k N t c n) (h : t.SameFor k t') :
    Healthy k N t' c n := by
  cases hh with
  | idle habs => exact .idle fun i hi => habs i ((h i).1.mp hi)
  | filling hocc huniq hcount hpos hlt =>
    refine .filling ((h _).1.mpr hocc) (fun a b ha hb => ?_) ?_ hpos hlt
    · exact huniq a b ((h a).1.mp ha) ((h b).1.mp hb)
    · rw [(h _).2 hocc, hcount]
  | done habs => exact .done fun i hi => habs i ((h i).1.mp hi)

theorem Broken.frame {c : ℕ} (hb : Broken k t c) (h : t.SameFor k t') : Broken k t' c := by
  obtain ⟨i, hi⟩ := hb.live
  refine ⟨⟨i, (h i).1.mpr hi⟩, fun j hj => ?_⟩
  have hj' := (h j).1.mp hj
  rw [(h j).2 hj']
  exact hb.short j hj'

end

/-- Healthy if `P`, broken and silent if not. -/
def Phase (P : Prop) (k : GradSlotKey) (N : ℕ) (t : Tables) (c n : ℕ) : Prop :=
  (P → Healthy k N t c n) ∧ (¬ P → Broken k t c ∧ n = 0)

/-! ## Runs -/

/-- A datagram of the key finds it intact. -/
def FindsIntact (k : GradSlotKey) (st : State) (ev : Event) : Prop :=
  (ev.datagramOf k).isSome → Intact (slotSeq k) st.tables.occ k

/-- What the rest of a run delivers for the key, when the workers `ws` have delivered. -/
structure Remaining (k : GradSlotKey) (N L : ℕ) (ws : List ℕ) (es : List Event) : Prop where
  wellFormed : ∀ ev ∈ es, ∀ d, ev.received = some d → WellFormed d
  fanIn_eq : ∀ d ∈ datagramsOf k es, (GradHdr.decode d).numWorkers.toNat = N
  chunkLen_eq : ∀ d ∈ datagramsOf k es, (GradHdr.decode d).chunkLen.toNat = L
  nodup : (ws ++ (datagramsOf k es).map workerOf).Nodup
  length_le : ws.length + (datagramsOf k es).length ≤ N

theorem datagramsOf_cons (k : GradSlotKey) (ev : Event) (es : List Event) :
    datagramsOf k (ev :: es) = (ev.datagramOf k).toList ++ datagramsOf k es := by
  unfold datagramsOf
  rw [List.filterMap_cons]
  cases ev.datagramOf k <;> rfl

theorem length_packetsOf_cons (k : GradSlotKey) (o : Output) (os : List Output) :
    (packetsOf k (o :: os)).length = sentFor k o.sent + (packetsOf k os).length := by
  unfold packetsOf
  rw [List.filterMap_cons]
  cases h : o.packetOf k with
  | none =>
    rw [Output.packetOf] at h
    simp [sentFor, h]
  | some p =>
    rw [Output.packetOf] at h
    simp only [sentFor, h, Option.toList_some, List.length_cons, List.length_nil]
    omega

theorem Remaining.tail {k : GradSlotKey} {N L : ℕ} {ws : List ℕ} {ev : Event} {es : List Event}
    (h : Remaining k N L ws (ev :: es)) :
    Remaining k N L (ws ++ (ev.datagramOf k).toList.map workerOf) es := by
  refine ⟨fun e he => h.wellFormed e (List.mem_cons_of_mem _ he), fun d hd => h.fanIn_eq d ?_,
    fun d hd => h.chunkLen_eq d ?_, ?_, ?_⟩
  · rw [datagramsOf_cons]
    exact List.mem_append_right _ hd
  · rw [datagramsOf_cons]
    exact List.mem_append_right _ hd
  · have := h.nodup
    rwa [datagramsOf_cons, List.map_append, ← List.append_assoc] at this
  · have := h.length_le
    rw [datagramsOf_cons, List.length_append] at this
    rw [List.length_append, List.length_map]
    omega

/-- One iteration, with the quota and the reaper off. -/
theorem Phase.step {args : Args} (hquota : args.gJobQuota = 0) (httl : args.slotTtlMs = 0)
    {k : GradSlotKey} {N L : ℕ} {ws : List ℕ} {ev : Event} {es : List Event} {st : State}
    (hrem : Remaining k N L ws (ev :: es)) (hok : st.tables.Ok) (hroom : st.tables.HasRoom)
    (hown : st.tables.Own k N L ws) {P : Prop} {n : ℕ} (hph : Phase P k N st.tables ws.length n) :
    let ws' := ws ++ (ev.datagramOf k).toList.map workerOf
    (mainStep args st ev).1.tables.Own k N L ws'
      ∧ Phase (P ∧ FindsIntact k st ev) k N (mainStep args st ev).1.tables ws'.length
        (n + sentFor k (mainStep args st ev).2.sent) := by
  have heff := mainStep_effect_of_ok args hok ev
  rw [reapPhase_of_ttl_zero httl, hquota] at heff
  cases hdat : ev.datagramOf k with
  | none =>
    -- the key's slots do not move
    obtain ⟨hsame, hsent⟩ := heff.frame (Event.datagramOf_eq_none.mp hdat)
    have hzero : sentFor k (mainStep args st ev).2.sent = 0 := by
      cases hs : (mainStep args st ev).2.sent with
      | none => rfl
      | some p => simp [sentFor, hsent p hs]
    have hfind : FindsIntact k st ev := fun hsome => by rw [hdat] at hsome; cases hsome
    rw [hzero]
    simp only [Option.toList_none, List.map_nil, List.append_nil, Nat.add_zero]
    refine ⟨hown.frame hsame, fun hP => (hph.1 hP.1).frame hsame, fun hP => ?_⟩
    obtain ⟨hb, hn⟩ := hph.2 fun h => hP ⟨h, hfind⟩
    exact ⟨hb.frame hsame, hn⟩
  | some d =>
    obtain ⟨hrecv, rfl⟩ := Event.datagramOf_eq_some.mp hdat
    have hd := hrem.wellFormed ev List.mem_cons_self d hrecv
    have hmem : d ∈ datagramsOf (GradHdr.decode d).key (ev :: es) := by
      rw [datagramsOf_cons, hdat]
      exact List.mem_append_left _ (List.mem_singleton_self d)
    have hlen := hrem.length_le
    have hnodup := hrem.nodup
    rw [datagramsOf_cons, hdat] at hlen hnodup
    simp only [Option.toList_some, List.singleton_append, List.length_cons,
      List.map_cons] at hlen hnodup
    have hnew : workerOf d ∉ ws := fun hmem =>
      (List.nodup_append.mp hnodup).2.2 _ hmem _ List.mem_cons_self rfl
    obtain ⟨i, s, hcount, hwithin⟩ := heff.counted hrecv hd hok hroom hown
      (hrem.fanIn_eq d hmem) (hrem.chunkLen_eq d hmem) hnew
    simp only [Option.toList_some, List.map_cons, List.map_nil, List.length_append,
      List.length_singleton]
    refine ⟨hcount.own hown hwithin, fun hP => ?_, fun hP => ?_⟩
    · exact (hph.1 hP.1).step hcount (hP.2 (by rw [hdat]; rfl)) (by omega)
    · by_cases hhp : P
      · refine (hph.1 hhp).break hcount (fun hint => hP ⟨hhp, fun _ => hint⟩) (by omega)
      · obtain ⟨hb, rfl⟩ := hph.2 hhp
        obtain ⟨hb', hs⟩ := hb.step hcount hown (by omega)
        exact ⟨hb', by rw [hs]⟩

/-- A whole run: healthy to its end exactly when every datagram of the key found it intact. -/
theorem Phase.run {args : Args} (hquota : args.gJobQuota = 0) (httl : args.slotTtlMs = 0)
    {k : GradSlotKey} {N L : ℕ} {es : List Event} :
    ∀ {ws : List ℕ} {st : State} {P : Prop} {n : ℕ}, Remaining k N L ws es → st.tables.Ok →
      StepsMeet (mainStep args) (fun st _ => st.tables.HasRoom) st es →
      st.tables.Own k N L ws → Phase P k N st.tables ws.length n →
      Phase (P ∧ StepsMeet (mainStep args) (FindsIntact k) st es) k N
        (runState (mainStep args) st es).tables (ws.length + (datagramsOf k es).length)
        (n + (packetsOf k (runOut (mainStep args) st es)).length) := by
  induction es with
  | nil =>
    intro ws st P n _ _ _ _ hph
    simpa [StepsMeet, datagramsOf, packetsOf] using hph
  | cons ev es ih =>
    intro ws st P n hrem hok hroom hown hph
    obtain ⟨hown', hph'⟩ := Phase.step hquota httl hrem hok hroom.1 hown hph
    have h := ih hrem.tail (mainStep_ok hok ev) hroom.2 hown' hph'
    rw [datagramsOf_cons, runOut_cons, length_packetsOf_cons, List.length_append]
    simp only [List.length_append, List.length_map, Nat.add_assoc, and_assoc] at h
    exact h

/-- **Delivery.** With the quota and the reaper off, room in the table and one datagram from
each of the key's `N` workers: exactly one packet is sent for the key and no slot is in use for
it at the end, if and only if every datagram of the key finds no free entry ahead of the key's
slot. -/
theorem delivered_iff {args : Args} (hquota : args.gJobQuota = 0) (httl : args.slotTtlMs = 0)
    (inPacket outPacket : Buffer) (now : ℤ) {es : List Event} {k : GradSlotKey} {N L : ℕ}
    (hN : 1 ≤ N) (hround : DeliversOnce k N L es)
    (hroom : StepsMeet (mainStep args) (fun st _ => st.tables.HasRoom)
      (State.init inPacket outPacket now) es) :
    ((packetsOf k (runOut (mainStep args) (State.init inPacket outPacket now) es)).length = 1
      ∧ ∀ i, (runState (mainStep args) (State.init inPacket outPacket now) es).tables.occ i
        ≠ some k)
    ↔ StepsMeet (mainStep args) (FindsIntact k) (State.init inPacket outPacket now) es := by
  have hlen : (datagramsOf k es).length = N := by
    have := hround.workers.length_eq
    rwa [List.length_map, List.length_range] at this
  have hrem : Remaining k N L [] es :=
    ⟨hround.wellFormed, hround.fanIn_eq, hround.chunkLen_eq,
      hround.workers.nodup_iff.mpr List.nodup_range, by simp [hlen]⟩
  have hinit : ∀ i, (State.init inPacket outPacket now).tables.occ i ≠ some k := by
    intro i
    rw [State.init, occ_zero]
    nofun
  -- the phase in which the run ends tells the two sides apart
  have hph := Phase.run hquota httl hrem (State.init_ok inPacket outPacket now) hroom
    (fun i hi => absurd hi (hinit i)) (P := True) (n := 0)
    ⟨fun _ => .idle hinit, fun h => absurd trivial h⟩
  rw [hlen] at hph
  simp only [List.length_nil, Nat.zero_add, true_and] at hph
  constructor
  · rintro ⟨-, habs⟩
    by_contra hbroken
    obtain ⟨⟨⟨i, hi⟩, -⟩, -⟩ := hph.2 hbroken
    exact habs i hi
  · intro hintact
    have hh := hph.1 hintact
    generalize (packetsOf k _).length = n at hh ⊢
    cases hh with
    | idle habs => omega
    | filling hocc huniq hcount hpos hlt => omega
    | done habs => exact ⟨rfl, habs⟩

/-! ## A run that breaks a round

Keys `(1, 0, 0)` and `(2, 46657, 0)` have the same home position. The first is opened there and
the second behind it; then the first completes and frees its slot. -/

/-- One iteration that receives a datagram of one value from a worker of two. -/
def received (jobId round : BitVec 32) (workerId : BitVec 16) (value : BitVec 32) : Event :=
  .deliver (workerPacket ⟨jobId, round, 0, workerId, 2, 1, 0⟩ fun _ => value)

def collidingRun : List Event :=
  [received 1 0 0 5, received 2 46657 0 7, received 1 0 1 5, received 2 46657 1 7]

theorem deliversOnce_collidingRun : DeliversOnce ⟨2, 46657, 0⟩ 2 1 collidingRun where
  wellFormed := by
    have h : collidingRun.all fun ev => ev.received.all fun d => decide (WellFormed d) := by
      decide +kernel
    intro ev hev d hd
    have := List.all_eq_true.mp h ev hev
    rw [hd] at this
    exact of_decide_eq_true this
  workers := by decide +kernel
  fanIn_eq := by decide +kernel
  chunkLen_eq := by decide +kernel

theorem hasRoom_collidingRun :
    StepsMeet (mainStep ⟨0, 0⟩) (fun st _ => st.tables.HasRoom)
      (State.init Buffer.zero Buffer.zero 0) collidingRun :=
  ⟨⟨0, by decide +kernel⟩, ⟨0, by decide +kernel⟩, ⟨0, by decide +kernel⟩,
    ⟨0, by decide +kernel⟩, trivial⟩

theorem packetsOf_collidingRun :
    packetsOf ⟨2, 46657, 0⟩
      (runOut (mainStep ⟨0, 0⟩) (State.init Buffer.zero Buffer.zero 0) collidingRun) = [] := by
  decide +kernel

/-- The run delivers both of the key's datagrams in a table with room, sends nothing for the
key, and leaves two slots in use for it. -/
theorem collidingRun_not_delivered :
    DeliversOnce ⟨2, 46657, 0⟩ 2 1 collidingRun
      ∧ StepsMeet (mainStep ⟨0, 0⟩) (fun st _ => st.tables.HasRoom)
        (State.init Buffer.zero Buffer.zero 0) collidingRun
      ∧ packetsOf ⟨2, 46657, 0⟩
        (runOut (mainStep ⟨0, 0⟩) (State.init Buffer.zero Buffer.zero 0) collidingRun) = []
      ∧ (runState (mainStep ⟨0, 0⟩) (State.init Buffer.zero Buffer.zero 0)
          collidingRun).tables.occ 56546 = some ⟨2, 46657, 0⟩
      ∧ (runState (mainStep ⟨0, 0⟩) (State.init Buffer.zero Buffer.zero 0)
          collidingRun).tables.occ 56547 = some ⟨2, 46657, 0⟩ :=
  ⟨deliversOnce_collidingRun, hasRoom_collidingRun, packetsOf_collidingRun,
    by decide +kernel, by decide +kernel⟩

/-- In it the key's last datagram does not find the key intact. -/
theorem collidingRun_not_intact :
    ¬ StepsMeet (mainStep ⟨0, 0⟩) (FindsIntact ⟨2, 46657, 0⟩)
      (State.init Buffer.zero Buffer.zero 0) collidingRun := by
  intro h
  have hdel := (delivered_iff rfl rfl Buffer.zero Buffer.zero 0 (by decide)
    deliversOnce_collidingRun hasRoom_collidingRun).mpr h
  rw [packetsOf_collidingRun] at hdel
  cases hdel.1

end NetSum.UserspaceAgg
