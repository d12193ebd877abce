import NetSum.Lib.Conservation
import NetSum.UserspaceAgg.RefinementTheorems

/-!
# No contribution is lost or made up

What is measured of a round may be the number of its contributions or the sum of their values; a
contribution adds its own part (`Tally.Measured`). An iteration evicts some slots, and counts at
most one datagram in; if that completes its slot, it hands what the slot then holds to `sendto`. So
over a run, whatever the keys, what was accepted is what was sent, what a failing `sendto` lost,
what was evicted and what the slots still hold (`contributions_conserved`). And with a fan-in of at
least `N`, at most one packet leaves for `N` that come in (`uplink_reduced`).
-/

namespace NetSum.UserspaceAgg

open NetSum.Lib NetSum.Protocol NetSum.Aggregation

/-! ## Measures -/

/-- `w` measures a round, and `v` the part of a contribution in it. -/
structure Measured {M : Type} [AddMonoid M] (w : Tally → M) (v : Contribution → M) : Prop where
  opened : ∀ N L, w (.opened N L) = 0
  absorb : ∀ T c, w (T.absorb c) = w T + v c

theorem measured_sum : Measured Tally.sum Contribution.values where
  opened _ _ := rfl
  absorb _ _ := rfl

theorem measured_count : Measured Tally.count fun _ => 1 where
  opened _ _ := rfl
  absorb _ _ := rfl

/-- What a datagram counted into entry `i` makes of it. -/
def Tables.counted (t : Tables) (i : SlotIdx) (d : Bytes) : Tally :=
  (if (t.gSlots i).inUse then (t.gSlots i).tally
    else .opened (GradHdr.decode d).numWorkers.toNat (GradHdr.decode d).chunkLen.toNat).absorb
    (Contribution.ofDatagram d)

section

variable {M : Type} [AddCancelCommMonoid M]

/-- What the slots of the keys that satisfy `p` hold. -/
def Tables.stock (t : Tables) (w : Tally → M) (p : GradSlotKey → Bool) : M :=
  Lib.stock t.occ (fun i => w (t.gSlots i).tally) p

/-- What slot `i` holds, if its key satisfies `p`. -/
def Tables.share (t : Tables) (w : Tally → M) (p : GradSlotKey → Bool) (i : SlotIdx) : M :=
  Lib.share t.occ (fun i => w (t.gSlots i).tally) p i

/-- The part of a datagram that was accepted. -/
def accepted (v : Contribution → M) (p : GradSlotKey → Bool) (ev : Event) (verdict : Verdict) : M :=
  match ev.received with
  | none => 0
  | some d =>
    if verdict.Admitted ∧ p (GradHdr.decode d).key then v (Contribution.ofDatagram d) else 0

/-- What the slot held that a datagram has completed. -/
def Tables.finished (t : Tables) (w : Tally → M) (p : GradSlotKey → Bool) (ev : Event)
    (verdict : Verdict) (slot : Option SlotIdx) : M :=
  match slot with
  | none => 0
  | some i =>
    match ev.received with
    | none => 0
    | some d => if verdict = .complete ∧ p (GradHdr.decode d).key then w (t.counted i d) else 0

variable {w : Tally → M} {v : Contribution → M} {p : GradSlotKey → Bool} {q : ℤ} {ev : Event}
  {t t' : Tables} {verdict : Verdict} {slot : Option SlotIdx} {sent : Option Bytes} {d : Bytes}
  {i : SlotIdx} {s : Slot} {g : Jobs}

theorem Accepts.tally_eq (h : Accepts q ev t d i s g) (hok : t.Ok) : s.tally = t.counted i d := by
  cases h with
  | joined hprobe hocc hlen hseen =>
    have hused := (Slot.occupant_eq_some.mp hocc).1
    obtain ⟨r, hr⟩ := hok i hused
    rw [tally_accumulate ev.nowTouched hr.count_lt, Tables.counted, if_pos hused]
  | opened hprobe hocc hjobs =>
    have hfree := Slot.occupant_eq_none.mp hocc
    rw [tally_opened d, Round.tally_absorb, Round.tally_opened, Tables.counted, hfree]
    rfl

/-- The datagram's part is added to what the entry holds. -/
theorem Accepts.share_eq (h : Accepts q ev t d i s g) (hw : Measured w v) (hok : t.Ok) :
    (if p (GradHdr.decode d).key then w s.tally else 0)
      = t.share w p i
        + if p (GradHdr.decode d).key then v (Contribution.ofDatagram d) else 0 := by
  rw [h.tally_eq hok, Tables.counted, hw.absorb]
  cases h with
  | joined hprobe hocc hlen hseen =>
    rw [Tables.share, share_of_held hocc, if_pos (Slot.occupant_eq_some.mp hocc).1]
    split
    · rfl
    · exact (add_zero 0).symm
  | opened hprobe hocc hjobs =>
    rw [Tables.share, share_of_free hocc, zero_add, Slot.occupant_eq_none.mp hocc,
      if_neg Bool.false_ne_true, hw.opened, zero_add]

/-- Entry `i` is written. -/
theorem stock_update (t : Tables) (i : SlotIdx) (s : Slot) (g : Jobs) :
    Tables.stock ⟨Function.update t.gSlots i s, g⟩ w p + t.share w p i
      = t.stock w p + Tables.share ⟨Function.update t.gSlots i s, g⟩ w p i := by
  have hoff : ∀ j ≠ i, (Function.update t.gSlots i s) j = t.gSlots j :=
    fun j hj => Function.update_of_ne hj _ _
  refine stock_change (fun j hj => ?_) (fun j hj => ?_)
  · exact congrArg Slot.occupant (hoff j hj)
  · exact congrArg (fun s => w s.tally) (hoff j hj)

theorem accepted_of_not_admitted (h : ¬ verdict.Admitted) : accepted v p ev verdict = 0 := by
  rw [accepted]
  split
  · rfl
  · exact if_neg fun hadm => h hadm.1

theorem finished_of_ne (h : verdict ≠ .complete) : t.finished w p ev verdict slot = 0 := by
  unfold Tables.finished
  split
  · rfl
  · split
    · rfl
    · exact if_neg fun hcomplete => h hcomplete.1

/-- A datagram that is accepted. -/
theorem accepted_of_admitted (hr : ev.received = some d) (h : verdict.Admitted) :
    accepted v p ev verdict
      = if p (GradHdr.decode d).key then v (Contribution.ofDatagram d) else 0 := by
  rw [accepted, hr]
  exact if_congr (and_iff_right h) rfl rfl

/-- A datagram that completes its slot. -/
theorem finished_of_complete (hr : ev.received = some d) :
    t.finished w p ev .complete (some i)
      = if p (GradHdr.decode d).key then w (t.counted i d) else 0 := by
  simp only [Tables.finished, hr, true_and]

theorem Tables.stock_congr (h : t'.gSlots = t.gSlots) : t'.stock w p = t.stock w p := by
  have hocc : t'.occ = t.occ := funext fun i => congrArg (fun slots => (slots i).occupant) h
  rw [Tables.stock, Tables.stock, hocc, h]

theorem Effect.stock_of_rejected (h : ¬ verdict.Admitted) (hsame : t'.gSlots = t.gSlots) :
    t'.stock w p + t.finished w p ev verdict slot = t.stock w p + accepted v p ev verdict := by
  rw [accepted_of_not_admitted h, finished_of_ne fun hc => h (.inr hc),
    Tables.stock_congr hsame]

/-- What the entry holds that a datagram was counted into. -/
theorem share_update (h : Accepts q ev t d i s g) :
    Tables.share ⟨Function.update t.gSlots i s, g⟩ w p i
      = if p (GradHdr.decode d).key then w s.tally else 0 := by
  have hocc : Tables.occ ⟨Function.update t.gSlots i s, g⟩ i = some (GradHdr.decode d).key := by
    rw [occ_update, Function.update_self, h.occupant.1]
  rw [Tables.share, share_of_held hocc]
  exact if_congr Iff.rfl (congrArg (fun s : Slot => w s.tally) (Function.update_self ..)) rfl

/-- **The receive phase**: what is accepted stays in the slots, or leaves with a slot that is
completed. -/
theorem Effect.stock_eq (h : Effect q ev t t' verdict slot sent) (hw : Measured w v) (hok : t.Ok) :
    t'.stock w p + t.finished w p ev verdict slot = t.stock w p + accepted v p ev verdict := by
  cases h with
  | idle hr => exact Effect.stock_of_rejected (by decide) rfl
  | screened hr hscreen =>
    refine Effect.stock_of_rejected ?_ rfl
    rcases screen_verdict hscreen with rfl | rfl | rfl | rfl | rfl <;> decide
  | full hr hd' hfull => exact Effect.stock_of_rejected (by decide) rfl
  | refused hr hd' hprobe hocc hfind hquota => exact Effect.stock_of_rejected (by decide) rfl
  | mismatch hr hd' hprobe hocc hlen => exact Effect.stock_of_rejected (by decide) rfl
  | duplicate hr hd' hprobe hocc hlen hseen => exact Effect.stock_of_rejected (by decide) rfl
  | @absorbed d i s g hr hd hacc hlt =>
    have hshare : Tables.share ⟨Function.update t.gSlots i s, g⟩ w p i = _ :=
      (share_update hacc).trans (hacc.share_eq hw hok)
    have hstock := stock_update (p := p) (w := w) t i s g
    rw [finished_of_ne (by decide), accepted_of_admitted hr (.inl rfl), add_zero]
    rw [hshare, ← add_assoc, add_right_comm] at hstock
    exact add_right_cancel hstock
  | @complete d i s g pkt hr hd hacc hge hsent =>
    -- the slot is written and freed at once
    have hfree : (freeSlot ⟨Function.update t.gSlots i s, g⟩ i).stock w p + t.share w p i
        = t.stock w p := by
      have hstock := stock_update (p := p) (w := w) t i { s with inUse := false } g
      have hshare : Tables.share ⟨Function.update t.gSlots i { s with inUse := false }, g⟩ w p i
          = 0 := by
        refine share_of_free ?_
        rw [occ_update, Function.update_self]
        exact Slot.occupant_eq_none.mpr rfl
      have hsame : (freeSlot ⟨Function.update t.gSlots i s, g⟩ i).stock w p
          = Tables.stock ⟨Function.update t.gSlots i { s with inUse := false }, g⟩ w p :=
        Tables.stock_congr (freeSlot_update_gSlots t.gSlots i s g)
      rw [hsame, hstock, hshare, add_zero]
    rw [finished_of_complete hr, accepted_of_admitted hr (.inr rfl), ← hacc.tally_eq hok,
      hacc.share_eq hw hok, ← add_assoc, hfree]

/-- What the evicted slots held. -/
def evicted (w : Tally → M) (p : GradSlotKey → Bool) (t : Tables) (reaped : List SlotIdx) : M :=
  ∑ i ∈ reaped.toFinset, t.share w p i

/-- **The sweep** takes what the slots held that it clears. -/
theorem reapPhase_stock (args : Args) (st : State) (ev : Event) :
    (reapPhase args st ev).1.tables.stock w p + evicted w p st.tables (reapPhase args st ev).2
      = st.tables.stock w p := by
  refine stock_clear (fun i hi => ?_) fun i hi => ?_
  · have hslot := ((reapPhase_gSlots args st ev i).1 (List.mem_toFinset.mp hi)).2
    rw [Tables.occ, hslot]
    exact Slot.occupant_eq_none.mpr rfl
  · have hslot := (reapPhase_gSlots args st ev i).2 fun hmem => hi (List.mem_toFinset.mpr hmem)
    exact ⟨congrArg Slot.occupant hslot, congrArg (fun s : Slot => w s.tally) hslot⟩

/-- **One iteration.** -/
theorem mainStep_stock (hw : Measured w v) (args : Args) {st : State} (hok : st.tables.Ok)
    (ev : Event) :
    let o := (mainStep args st ev).2
    (mainStep args st ev).1.tables.stock w p
        + ((reapPhase args st ev).1.tables.finished w p ev o.verdict o.slot
          + evicted w p st.tables o.reaped)
      = st.tables.stock w p + accepted v p ev o.verdict := by
  intro o
  have hreceive := (mainStep_effect_of_ok args hok ev).stock_eq (p := p) hw (reapPhase_ok hok ev)
  rw [← add_assoc, hreceive, add_right_comm]
  exact congrArg (· + _) (reapPhase_stock args st ev)

end

/-! ## Values -/

theorem stock_init {M : Type} [AddCancelCommMonoid M] (w : Tally → M) (p : GradSlotKey → Bool)
    (inPacket outPacket : Buffer) (now : ℤ) :
    (State.init inPacket outPacket now).tables.stock w p = 0 := stock_of_free occ_zero

section

variable {p : GradSlotKey → Bool} {q : ℤ} {ev : Event} {t t' : Tables} {verdict : Verdict}
  {slot : Option SlotIdx} {sent : Option Bytes}

/-- The values of a packet that is handed to `sendto`. -/
def sentValues (p : GradSlotKey → Bool) : Option Bytes → Fin netsumMaxChunkLen → BitVec 32
  | none => 0
  | some pkt => if p (GradHdr.decode pkt).key then (Contribution.ofDatagram pkt).values else 0

/-- The same, if `sendto` then succeeds (`ok`) or if it fails. -/
def sentValuesIf (ok : Bool) (p : GradSlotKey → Bool) (ev : Event) (o : Output) :
    Fin netsumMaxChunkLen → BitVec 32 :=
  if ev.sendOk = ok then sentValues p o.sent else 0

/-- It succeeds or it fails. -/
theorem sentValuesIf_add (p : GradSlotKey → Bool) (ev : Event) (o : Output) :
    sentValuesIf true p ev o + sentValuesIf false p ev o = sentValues p o.sent := by
  unfold sentValuesIf
  cases ev.sendOk
  · exact zero_add _
  · exact add_zero _

/-- A packet has the sums of the tally it reports. -/
theorem EmittedFor.values_eq {pkt : Bytes} {k : GradSlotKey} {T : Tally}
    (h : EmittedFor pkt k T) (hT : T.Balanced) : (Contribution.ofDatagram pkt).values = T.sum := by
  funext j
  rw [Contribution.ofDatagram, h.chunkLen_eq]
  dsimp only
  split
  · next hj => exact h.value_eq j hj
  · next hj => exact (hT.sum_zero j (not_lt.mp hj)).symm

/-- What a completed slot held is sent. -/
theorem Effect.finished_eq (h : Effect q ev t t' verdict slot sent) (hok : t.Ok)
    (hbal : t.Balanced) : t.finished Tally.sum p ev verdict slot = sentValues p sent := by
  cases h with
  | complete hr hd hacc hge hsent =>
    obtain ⟨hT, -⟩ := hacc.balanced hd hbal
    rw [finished_of_complete hr, ← hacc.tally_eq hok, sentValues, hsent.key_eq,
      hsent.values_eq hT]
  | screened hr hscreen =>
    refine finished_of_ne ?_
    rcases screen_verdict hscreen with rfl | rfl | rfl | rfl | rfl <;> decide
  | idle | full | refused | mismatch | duplicate | absorbed => exact finished_of_ne (by decide)

end

/-- **No contribution is lost or made up.** In every run, and for every set of keys, such as those
of one job, the values of the datagrams that were accepted add up to those of the packets sent, of
the packets that a failing `sendto` lost, of the slots evicted and of the slots still in use. -/
theorem contributions_conserved (args : Args) (inPacket outPacket : Buffer) (now : ℤ)
    (es : List Event) (p : GradSlotKey → Bool) :
    let st₀ := State.init inPacket outPacket now
    (runState (mainStep args) st₀ es).tables.stock Tally.sum p
        + (flow (mainStep args) (fun st ev => sentValuesIf true p ev (mainStep args st ev).2) st₀ es
          + flow (mainStep args) (fun st ev => sentValuesIf false p ev (mainStep args st ev).2) st₀ es
          + flow (mainStep args) (fun st ev =>
            evicted Tally.sum p st.tables (mainStep args st ev).2.reaped) st₀ es)
      = flow (mainStep args) (fun st ev =>
          accepted Contribution.values p ev (mainStep args st ev).2.verdict) st₀ es := by
  intro st₀
  have hrun := conserved_run (fun st : State => st.tables.stock Tally.sum p)
    (fun st ev => accepted Contribution.values p ev (mainStep args st ev).2.verdict)
    (fun st ev => sentValuesIf true p ev (mainStep args st ev).2
      + sentValuesIf false p ev (mainStep args st ev).2
      + evicted Tally.sum p st.tables (mainStep args st ev).2.reaped)
    (fun st => st.tables.Ok ∧ st.tables.Balanced)
    (fun st ev h => ⟨mainStep_ok h.1 ev, mainStep_balanced h.1 h.2 ev⟩)
    (fun st ev h => by
      have hbal := reapPhase_induction Tables.Balanced (fun _ i _ ht => ht.freeSlot i) args h.2 ev
      rw [sentValuesIf_add,
        ← (mainStep_effect_of_ok args h.1 ev).finished_eq (reapPhase_ok h.1 ev) hbal]
      exact mainStep_stock measured_sum args h.1 ev)
    (s := st₀) ⟨State.init_ok _ _ _, fun i hi => by cases hi⟩ es
  rw [flow_add, flow_add, stock_init, zero_add] at hrun
  exact hrun

/-! ## Packets -/

/-- Every slot in use waits for at least `N` workers. -/
def Tables.Wide (N : ℕ) (t : Tables) : Prop :=
  ∀ i, (t.gSlots i).inUse = true → N ≤ (t.gSlots i).numWorkersExpected.toNat

section

variable {N : ℕ} {q : ℤ} {ev : Event} {t t' : Tables} {verdict : Verdict} {slot : Option SlotIdx}
  {sent : Option Bytes} {d : Bytes} {i : SlotIdx} {s : Slot} {g : Jobs}

theorem Accepts.wide (h : Accepts q ev t d i s g) (ht : t.Wide N)
    (hd : N ≤ (GradHdr.decode d).numWorkers.toNat) : N ≤ s.numWorkersExpected.toNat := by
  cases h with
  | joined hprobe hocc hlen hseen => exact ht i (Slot.occupant_eq_some.mp hocc).1
  | opened hprobe hocc hjobs => exact hd

theorem Effect.wide (h : Effect q ev t t' verdict slot sent) (ht : t.Wide N)
    (hev : ∀ d, ev.received = some d → WellFormed d → N ≤ (GradHdr.decode d).numWorkers.toNat) :
    t'.Wide N := by
  intro i hi
  rcases h.slot_cases i with
    ⟨hsame, -⟩ | ⟨d, s, g, hr, hd, hacc, -, ⟨-, hs, -⟩ | ⟨-, hs, -⟩⟩
  · rw [hsame] at hi ⊢
    exact ht i hi
  · rw [hs]
    exact hacc.wide ht (hev d hr hd)
  · rw [hs] at hi
    cases hi

theorem Tables.Wide.freeSlot (ht : t.Wide N) (i : SlotIdx) : (freeSlot t i).Wide N := by
  intro j hj
  rw [freeSlot_gSlots] at hj ⊢
  by_cases hji : j = i
  · rw [hji, Function.update_self] at hj
    cases hj
  · rw [Function.update_of_ne hji] at hj ⊢
    exact ht j hj

/-- A packet takes at least `N` contributions with it. -/
theorem Effect.finished_ge (h : Effect q ev t t' verdict slot sent) (hok : t.Ok) (ht : t.Wide N)
    (hev : ∀ d, ev.received = some d → WellFormed d → N ≤ (GradHdr.decode d).numWorkers.toNat) :
    (if sent.isSome then N else 0) ≤ t.finished Tally.count (fun _ => true) ev verdict slot := by
  cases h with
  | complete hr hd hacc hge hsent =>
    rw [finished_of_complete hr, ← hacc.tally_eq hok]
    exact (hacc.wide ht (hev _ hr hd)).trans (not_lt.mp hge)
  | idle | screened | full | refused | mismatch | duplicate | absorbed => exact Nat.zero_le _

/-- One datagram at most is accepted, and it has a header. -/
theorem Effect.accepted_le (h : Effect q ev t t' verdict slot sent) :
    accepted (fun _ => 1) (fun _ => true) ev verdict ≤ if ev.HasHeader then 1 else 0 := by
  by_cases hadm : verdict.Admitted
  · have hheader : ∃ d, ev.received = some d ∧ WellFormed d := by
      cases h with
      | screened hr hscreen =>
        rcases screen_verdict hscreen with rfl | rfl | rfl | rfl | rfl <;> exact absurd hadm (by decide)
      | idle | full | refused | mismatch | duplicate => exact absurd hadm (by decide)
      | absorbed hr hd hacc hlt => exact ⟨_, hr, hd⟩
      | complete hr hd hacc hge hsent => exact ⟨_, hr, hd⟩
    obtain ⟨d, hr, hd⟩ := hheader
    rw [accepted_of_admitted hr hadm, if_pos rfl, if_pos ⟨d, hr, hd.hdr_le⟩]
  · rw [accepted_of_not_admitted hadm]
    exact Nat.zero_le _

end

theorem reapPhase_counts (args : Args) (st : State) (ev : Event) :
    (reapPhase args st ev).1.packetsIn = st.packetsIn
      ∧ (reapPhase args st ev).1.packetsOut = st.packetsOut := by
  by_cases hdue : 0 < args.slotTtlMs ∧ ev.nowLoop - st.lastReapMicros ≥ args.reapIntervalMicros
  · obtain ⟨r, -, hphase⟩ := reapPhase_of_due hdue
    rw [hphase]
    exact ⟨rfl, rfl⟩
  · rw [reapPhase_of_not_due hdue]
    exact ⟨rfl, rfl⟩

/-- The arithmetic of an iteration: `held` contributions are in the slots, and those of one
packet are `finished`. -/
theorem reduced_step {N held held' finished evicted accepted packetsIn packetsOut : ℕ}
    {sends receives : Prop} [Decidable sends] [Decidable receives]
    (hstock : held' + (finished + evicted) = held + accepted)
    (hfinished : (if sends then N else 0) ≤ finished)
    (haccepted : accepted ≤ if receives then 1 else 0) (h : N * packetsOut + held ≤ packetsIn) :
    N * (if sends then packetsOut + 1 else packetsOut) + held'
      ≤ if receives then packetsIn + 1 else packetsIn := by
  have hout : N * (if sends then packetsOut + 1 else packetsOut)
      = N * packetsOut + if sends then N else 0 := by
    split
    · rw [Nat.mul_add, Nat.mul_one]
    · rfl
  rw [hout]
  split at haccepted <;> simp only [*, if_true, if_false] <;> omega

section

variable {N : ℕ} {st : State} {ev : Event}

/-- **One iteration.** -/
theorem mainStep_reduced (args : Args) (hok : st.tables.Ok) (hwide : st.tables.Wide N)
    (hev : ∀ d, ev.received = some d → WellFormed d → N ≤ (GradHdr.decode d).numWorkers.toNat)
    (h : N * st.packetsOut + st.tables.stock Tally.count (fun _ => true) ≤ st.packetsIn) :
    (mainStep args st ev).1.tables.Wide N
      ∧ N * (mainStep args st ev).1.packetsOut
          + (mainStep args st ev).1.tables.stock Tally.count (fun _ => true)
        ≤ (mainStep args st ev).1.packetsIn := by
  have hswept : (reapPhase args st ev).1.tables.Wide N :=
    reapPhase_induction (Tables.Wide N) (fun _ i _ ht => ht.freeSlot i) args hwide ev
  have heff := mainStep_effect_of_ok args hok ev
  have hstock := mainStep_stock (p := fun _ => true) measured_count args hok ev
  have hfinished := heff.finished_ge (reapPhase_ok hok ev) hswept hev
  obtain ⟨hin, hout⟩ := reapPhase_counts args st ev
  obtain ⟨-, hin', hout'⟩ := receivePhase_counts args (reapPhase args st ev).1 ev
  have hin'' : (mainStep args st ev).1.packetsIn
      = if ev.HasHeader then st.packetsIn + 1 else st.packetsIn := hin ▸ hin'
  have hout'' : (mainStep args st ev).1.packetsOut
      = if (mainStep args st ev).2.sent.isSome ∧ ev.sendOk then st.packetsOut + 1
        else st.packetsOut :=
    hout ▸ hout'
  -- a packet that is not sent makes room all the same
  have hfinished' : (if (mainStep args st ev).2.sent.isSome ∧ ev.sendOk then N else 0)
      ≤ (reapPhase args st ev).1.tables.finished Tally.count (fun _ => true) ev
        (mainStep args st ev).2.verdict (mainStep args st ev).2.slot := by
    split
    · next h => exact (if_pos h.1).symm.trans_le hfinished
    · exact Nat.zero_le _
  rw [hin'', hout'']
  exact ⟨heff.wide hswept hev, reduced_step hstock hfinished' heff.accepted_le h⟩

end

/-- **The uplink carries less.** If every well-formed datagram asks for at least `N` workers, then
in every run, whatever is lost, repeated, refused or evicted, at most one packet is sent for `N`
received that are no longer in the slots. -/
theorem uplink_reduced {N : ℕ} (args : Args) (inPacket outPacket : Buffer) (now : ℤ)
    {es : List Event} (hes : ∀ ev ∈ es, ∀ d, ev.received = some d → WellFormed d →
      N ≤ (GradHdr.decode d).numWorkers.toNat) :
    let st := runState (mainStep args) (State.init inPacket outPacket now) es
    N * st.packetsOut + st.tables.stock Tally.count (fun _ => true) ≤ st.packetsIn := by
  intro st
  have hzero : N * (State.init inPacket outPacket now).packetsOut
      + (State.init inPacket outPacket now).tables.stock Tally.count (fun _ => true)
      ≤ (State.init inPacket outPacket now).packetsIn := by
    rw [stock_init]
    exact le_rfl
  have hrun := runState_invariant (P := fun _ ev => ∀ d,
      ev.received = some d → WellFormed d → N ≤ (GradHdr.decode d).numWorkers.toNat)
    (fun st : State => st.tables.Ok ∧ st.tables.Wide N
      ∧ N * st.packetsOut + st.tables.stock Tally.count (fun _ => true) ≤ st.packetsIn)
    (fun st ev hP h => ⟨mainStep_ok h.1 ev, mainStep_reduced args h.1 h.2.1 hP h.2.2⟩)
    ⟨State.init_ok inPacket outPacket now, (fun i hi => by cases hi), hzero⟩
    (stepsMeet_iff.mpr fun T ev he => hes ev (List.mem_of_getElem? he))
  exact hrun.2.2

/-- Both datagrams of a round of two workers are in, and its sum is out. -/
theorem uplink_reduced_pair :
    let es := [Event.deliver (workerPacket ⟨1, 0, 0, 0, 2, 1, 0⟩ fun _ => 5),
      Event.deliver (workerPacket ⟨1, 0, 0, 1, 2, 1, 0⟩ fun _ => 7)]
    let st := runState (mainStep ⟨0, 0⟩) (State.init Buffer.zero Buffer.zero 0) es
    st.packetsOut = 1
      ∧ 2 * st.packetsOut + st.tables.stock Tally.count (fun _ => true) ≤ st.packetsIn := by
  intro es st
  have hfanIn : ∀ ev ∈ es, ∀ d, ev.received = some d → WellFormed d →
      2 ≤ (GradHdr.decode d).numWorkers.toNat := by
    have hall : es.all fun ev => ev.received.all fun d =>
        decide (2 ≤ (GradHdr.decode d).numWorkers.toNat) := by decide +kernel
    intro ev hev d hd _
    have := List.all_eq_true.mp hall ev hev
    rw [hd] at this
    exact of_decide_eq_true this
  have hout : st.packetsOut = 1 := by decide +kernel
  exact ⟨hout, uplink_reduced ⟨0, 0⟩ Buffer.zero Buffer.zero 0 hfanIn⟩

end NetSum.UserspaceAgg
