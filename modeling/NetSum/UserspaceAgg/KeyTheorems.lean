import NetSum.Aggregation.Machine
import NetSum.UserspaceAgg.QuotaTheorems

/-!
# What the main loop does with one key

A key that is intact and held once is answered as by `respond` (`Effect.respond`): the slot
table adds nothing to the abstract machine of the key but the place where its tally is kept.
-/

namespace NetSum.UserspaceAgg

open NetSum.Lib NetSum.Protocol NetSum.Aggregation

/-! ## The tally of a key -/

/-- The table holds the key at most once, and `T?` is its tally. -/
inductive Tables.Shows (t : Tables) (k : GradSlotKey) : Option Tally → Prop
  | absent (habs : ∀ i, t.occ i ≠ some k) : Shows t k none
  | live (i : SlotIdx) (hocc : t.occ i = some k) (huniq : UniqueAt t.occ k) :
    Shows t k (some (t.gSlots i).tally)

theorem Tables.Shows.frame {t t' : Tables} {k : GradSlotKey} {T? : Option Tally}
    (h : t.Shows k T?) (hsame : t.SameFor k t') : t'.Shows k T? := by
  cases h with
  | absent habs => exact .absent fun i hi => habs i ((hsame i).1.mp hi)
  | live i hocc huniq =>
    have hslot := (hsame i).2 hocc
    rw [← hslot]
    exact .live i ((hsame i).1.mpr hocc) fun a b ha hb =>
      huniq a b ((hsame a).1.mp ha) ((hsame b).1.mp hb)

/-- The verdict an answer is given with. -/
def answerVerdict : Answer Tally → Verdict
  | .refused => .admissionReject
  | .mismatch => .chunkLenMismatch
  | .duplicate => .duplicate
  | .absorbed => .absorbed
  | .complete _ => .complete

/-- What is sent with an answer: the final tally of a completed key, and nothing else. -/
def SentWith (k : GradSlotKey) (sent : Option Bytes) : Answer Tally → Prop
  | .complete T => ∃ p, sent = some p ∧ EmittedFor p k T
  | _ => sent = none

/-! ## Counting a datagram in -/

/-- The entry of a key's slot. -/
def keyAt (k : GradSlotKey) (T? : Option Tally) : Option GradSlotKey := T?.map fun _ => k

/-- A datagram that is counted in is answered with the tally of its slot, if the key may be opened;
the slot was the key's or is new, and no other slot is the key's. -/
theorem Accepts.respond_eq {q : ℤ} {ev : Event} {t : Tables} {d : Bytes} {i : SlotIdx} {s : Slot}
    {g : Jobs} {T? : Option Tally} (h : Accepts q ev t d i s g) (hok : t.Ok)
    (hshow : t.Shows (GradHdr.decode d).key T?)
    (hint : Intact (slotSeq (GradHdr.decode d).key) t.occ (GradHdr.decode d).key) :
    (∀ j, j ≠ i → t.occ j ≠ some (GradHdr.decode d).key)
    ∧ t.occ i = keyAt (GradHdr.decode d).key T?
    ∧ ∀ mayOpen, (T? = none → mayOpen = true) → respond mayOpen d T? = settle s.tally := by
  cases h with
  | joined hprobe hocc hlen hseen =>
    cases hshow with
    | absent habs => exact absurd hocc (habs i)
    | live i' hocc' huniq =>
      -- the entry found is the one that shows the tally
      obtain rfl := huniq i' i hocc' hocc
      obtain ⟨r, hr⟩ := hok i' (Slot.occupant_eq_some.mp hocc).1
      have hseen' : (t.gSlots i').tally.seen (Contribution.ofDatagram d).worker = false := by
        simpa [Slot.tally] using hseen
      refine ⟨fun j hj hj' => hj (huniq j i' hj' hocc), hocc, fun mayOpen _ => ?_⟩
      rw [respond_of_new (congrArg BitVec.toNat hlen) hseen',
        tally_accumulate ev.nowTouched hr.count_lt]
  | opened hprobe hocc hjobs =>
    have habs := absent_of_probe_free (covers_slotSeq _) hint hprobe hocc
    cases hshow with
    | absent _ =>
      refine ⟨fun j _ => habs j, hocc, fun mayOpen hyes => ?_⟩
      rw [hyes rfl, respond_of_open, tally_opened d, Round.tally_absorb, Round.tally_opened]
    | live i' hocc' huniq => exact absurd hocc' (habs i')

/-- The slots of the job, when a slot of the key becomes one of what `T?'` says. -/
theorem card_slotsOf_update {occ : SlotIdx → Option GradSlotKey} {i : SlotIdx} {k : GradSlotKey}
    {T? : Option Tally} (hi : occ i = keyAt k T?) (T?' : Option Tally) :
    (slotsOf (Function.update occ i (keyAt k T?')) k.jobId).card + liveCount T?
      = (slotsOf occ k.jobId).card + liveCount T?' := by
  cases T? with
  | none =>
    cases T?' with
    | none =>
      rw [show keyAt k none = occ i from hi.symm, Function.update_eq_self]
    | some T' =>
      have hfill := card_slotsOf_fill hi k k.jobId
      rw [if_pos rfl] at hfill
      rw [keyAt, Option.map_some, hfill, liveCount_none, liveCount_some, Nat.add_zero]
  | some T =>
    cases T?' with
    | none =>
      have hclear := card_slotsOf_clear hi k.jobId
      rw [if_pos rfl] at hclear
      rw [keyAt, Option.map_none, ← hclear, liveCount_none, liveCount_some, Nat.add_zero]
    | some T' =>
      rw [show keyAt k (some T') = occ i from hi.symm, Function.update_eq_self]
      rfl

/-- Writing the key's slot, which stays in use. -/
theorem shows_update {t : Tables} {i : SlotIdx} {s : Slot} {g : Jobs} {k : GradSlotKey}
    (hs : s.occupant = some k) (hothers : ∀ j, j ≠ i → t.occ j ≠ some k) :
    Tables.Shows ⟨Function.update t.gSlots i s, g⟩ k (some s.tally) := by
  have hocc := occ_update t i s g
  rw [hs] at hocc
  have h : Tables.Shows ⟨Function.update t.gSlots i s, g⟩ k
      (some (Function.update t.gSlots i s i).tally) := by
    have hi : ∀ j, Function.update t.occ i (some k) j = some k → j = i := by
      intro j hj
      by_contra hne
      rw [Function.update_of_ne hne] at hj
      exact hothers j hne hj
    refine .live i ?_ fun a b ha hb => ?_
    · rw [hocc, Function.update_self]
    · rw [hocc] at ha hb
      rw [hi a ha, hi b hb]
  rwa [Function.update_self] at h

/-- Freeing the key's slot. -/
theorem shows_freeSlot {t : Tables} {i : SlotIdx} {k : GradSlotKey}
    (hothers : ∀ j, j ≠ i → t.occ j ≠ some k) : (freeSlot t i).Shows k none := by
  refine .absent fun j => ?_
  rw [occ_freeSlot]
  by_cases hj : j = i
  · rw [hj, Function.update_self]
    nofun
  · rw [Function.update_of_ne hj]
    exact hothers j hj

/-! ## Answering a datagram -/

/-- **The main loop answers a datagram of an intact key as its machine does**, and counts one
slot of the job more or less as the key becomes live or is completed. -/
theorem Effect.respond {q : ℤ} {ev : Event} {t t' : Tables} {v : Verdict} {slot : Option SlotIdx}
    {sent : Option Bytes} (h : Effect q ev t t' v slot sent) (hok : t.Ok) (hacct : t.Accounted)
    {d : Bytes} (hrecv : ev.received = some d) (hd : WellFormed d) {T? : Option Tally}
    (hshow : t.Shows (GradHdr.decode d).key T?)
    (hint : Intact (slotSeq (GradHdr.decode d).key) t.occ (GradHdr.decode d).key)
    (hroom : T? = none → t.HasRoom) {mayOpen : Bool}
    (hopen : mayOpen = true ↔ QuotaAdmits q t (GradHdr.decode d).jobId) :
    t'.Shows (GradHdr.decode d).key (respond mayOpen d T?).2
      ∧ v = answerVerdict (respond mayOpen d T?).1
      ∧ SentWith (GradHdr.decode d).key sent (respond mayOpen d T?).1
      ∧ (slotsOf t'.occ (GradHdr.decode d).jobId).card + liveCount T?
        = (slotsOf t.occ (GradHdr.decode d).jobId).card + liveCount (respond mayOpen d T?).2 := by
  -- what is admitted is admitted by the quota
  have hadm : T? = none → (v.Admitted ↔ mayOpen = true) := by
    rintro rfl
    cases hshow with
    | absent habs =>
      rw [hopen]
      exact h.admitted_iff hacct hrecv hd
        (probe_of_absent (covers_slotSeq _) habs (hroom rfl))
  cases h with
  | idle hr => rw [hrecv] at hr; cases hr
  | screened hr hscreen =>
    rw [received_unique hrecv hr, screen_of_wellFormed hd] at hscreen
    cases hscreen
  | full hr hd' hfull =>
    obtain rfl := received_unique hrecv hr
    cases hshow with
    | absent habs =>
      obtain ⟨i, hi⟩ := hroom rfl
      exact absurd hi (hfull i).1
    | live i hocc huniq => exact absurd hocc (hfull i).2
  | refused hr hd' hprobe hocc hfind hquota =>
    obtain rfl := received_unique hrecv hr
    cases hshow with
    | absent habs =>
      have hno : mayOpen = false := Bool.eq_false_iff.mpr fun hyes => by
        rcases (hadm rfl).mpr hyes with h | h <;> cases h
      rw [hno]
      exact ⟨.absent habs, rfl, rfl, rfl⟩
    | live i' hocc' huniq =>
      exact absurd hocc' (absent_of_probe_free (covers_slotSeq _) hint hprobe hocc i')
  | mismatch hr hd' hprobe hocc hlen =>
    obtain rfl := received_unique hrecv hr
    cases hshow with
    | absent habs => exact absurd hocc (habs _)
    | live i' hocc' huniq =>
      obtain rfl := huniq _ i' hocc hocc'
      have hne : (t.gSlots _).tally.chunkLen ≠ (GradHdr.decode _).chunkLen.toNat :=
        fun h => hlen (BitVec.eq_of_toNat_eq h)
      rw [respond_of_mismatch hne]
      exact ⟨.live _ hocc huniq, rfl, rfl, rfl⟩
  | duplicate hr hd' hprobe hocc hlen hseen =>
    obtain rfl := received_unique hrecv hr
    cases hshow with
    | absent habs => exact absurd hocc (habs _)
    | live i' hocc' huniq =>
      obtain rfl := huniq _ i' hocc hocc'
      have heq : (t.gSlots _).tally.chunkLen = (GradHdr.decode _).chunkLen.toNat :=
        congrArg BitVec.toNat hlen
      have hs : (t.gSlots _).tally.seen (Contribution.ofDatagram _).worker = true :=
        bne_iff_ne.mpr hseen
      rw [respond_of_seen heq hs]
      exact ⟨.live _ hocc huniq, rfl, rfl, rfl⟩
  | @absorbed d' i s g hr hd' hacc hlt =>
    obtain rfl := received_unique hrecv hr
    obtain ⟨hothers, hocc, hrespond⟩ := hacc.respond_eq hok hshow hint
    have hshow' := shows_update (g := g) hacc.occupant.1 hothers
    have hcount := card_slotsOf_update hocc (some s.tally)
    rw [hrespond mayOpen fun hnone => (hadm hnone).mp (.inl rfl), settle_of_lt hlt, occ_update,
      hacc.occupant.1]
    exact ⟨hshow', rfl, rfl, hcount⟩
  | @complete d' i s g p hr hd' hacc hge hsent =>
    obtain rfl := received_unique hrecv hr
    obtain ⟨hothers, hocc, hrespond⟩ := hacc.respond_eq hok hshow hint
    have hothers' : ∀ j, j ≠ i → Tables.occ ⟨Function.update t.gSlots i s, g⟩ j
        ≠ some (GradHdr.decode d').key := by
      intro j hj
      rw [occ_update, Function.update_of_ne hj]
      exact hothers j hj
    have hshow' := shows_freeSlot hothers'
    have hcount := card_slotsOf_update hocc none
    rw [hrespond mayOpen fun hnone => (hadm hnone).mp (.inr rfl), settle_of_le (not_lt.mp hge),
      occ_freeSlot, occ_update, Function.update_idem]
    exact ⟨hshow', rfl, ⟨p, rfl, hsent⟩, hcount⟩

/-! ## A key on its own -/

/-- A key stays intact under its own datagrams. -/
theorem Effect.intact {q : ℤ} {ev : Event} {t t' : Tables} {v : Verdict} {slot : Option SlotIdx}
    {sent : Option Bytes} (h : Effect q ev t t' v slot sent) (hok : t.Ok) {d : Bytes}
    (hrecv : ev.received = some d) {T? : Option Tally} (hshow : t.Shows (GradHdr.decode d).key T?)
    (hint : Intact (slotSeq (GradHdr.decode d).key) t.occ (GradHdr.decode d).key) :
    Intact (slotSeq (GradHdr.decode d).key) t'.occ (GradHdr.decode d).key := by
  cases h with
  | idle hr => exact hint
  | screened hr hscreen => exact hint
  | full hr hd hfull => exact hint
  | refused hr hd hprobe hocc hfind hquota => exact hint
  | mismatch hr hd hprobe hocc hlen => exact hint
  | duplicate hr hd hprobe hocc hlen hseen => exact hint
  | @absorbed d' i s g hr hd hacc hlt =>
    obtain rfl := received_unique hrecv hr
    rw [occ_update, hacc.occupant.1]
    exact intact_of_probe (covers_slotSeq _) hacc.probe_eq (hacc.respond_eq hok hshow hint).1
  | @complete d' i s g p hr hd hacc hge hsent =>
    obtain rfl := received_unique hrecv hr
    -- the key is gone, so its chain has no end to reach
    refine intact_of_absent fun j => ?_
    rw [occ_freeSlot, occ_update, Function.update_idem]
    by_cases hj : j = i
    · rw [hj, Function.update_self]
      nofun
    · rw [Function.update_of_ne hj]
      exact (hacc.respond_eq hok hshow hint).1 j hj

/-- A key that is not in use after its own datagram leaves the table with room, if there was
room or the key had a slot. -/
theorem Effect.hasRoom {q : ℤ} {ev : Event} {t t' : Tables} {v : Verdict} {slot : Option SlotIdx}
    {sent : Option Bytes} (h : Effect q ev t t' v slot sent) {d : Bytes}
    (hrecv : ev.received = some d) (habs : ∀ i, t'.occ i ≠ some (GradHdr.decode d).key)
    {i : SlotIdx} (hi : t.occ i = none ∨ t.occ i = some (GradHdr.decode d).key) : t'.HasRoom := by
  refine ⟨i, ?_⟩
  rcases h.slot_cases i with ⟨hsame, -⟩ | ⟨d', s, g, hr, hd, hacc, -, hcase⟩
  · have hocc : t'.occ i = t.occ i := congrArg Slot.occupant hsame
    rcases hi with hi | hi
    · rw [hocc, hi]
    · exact absurd (hocc.trans hi) (habs i)
  · obtain rfl := Option.some.inj (hr.symm.trans hrecv)
    rcases hcase with ⟨-, hs, -⟩ | ⟨-, hs, -⟩
    · exact absurd ((congrArg Slot.occupant hs).trans hacc.occupant.1) (habs i)
    · exact (congrArg Slot.occupant hs).trans (Slot.occupant_eq_none.mpr rfl)

/-- In a full table a key without a slot is refused. -/
theorem Effect.of_full {q : ℤ} {ev : Event} {t t' : Tables} {v : Verdict} {slot : Option SlotIdx}
    {sent : Option Bytes} (h : Effect q ev t t' v slot sent) {d : Bytes}
    (hrecv : ev.received = some d) (hd : WellFormed d)
    (habs : ∀ i, t.occ i ≠ some (GradHdr.decode d).key) (hfull : ¬ t.HasRoom) :
    t' = t ∧ v = .admissionReject ∧ sent = none := by
  -- a datagram is counted into its key's entry or a free one, and there is neither
  have haccepts : ∀ {i s g}, ¬ Accepts q ev t d i s g := by
    intro i s g hacc
    cases hacc with
    | joined hprobe hocc hlen hseen => exact habs i hocc
    | opened hprobe hocc hjobs => exact hfull ⟨i, hocc⟩
  cases h with
  | idle hr => rw [hrecv] at hr; cases hr
  | screened hr hscreen =>
    rw [received_unique hrecv hr, screen_of_wellFormed hd] at hscreen
    cases hscreen
  | full hr hd' h => exact ⟨rfl, rfl, rfl⟩
  | refused hr hd' hprobe hocc hfind hquota => exact absurd ⟨_, hocc⟩ hfull
  | mismatch hr hd' hprobe hocc hlen => exact absurd (received_unique hrecv hr ▸ hocc) (habs _)
  | duplicate hr hd' hprobe hocc hlen hseen => exact absurd (received_unique hrecv hr ▸ hocc) (habs _)
  | absorbed hr hd' hacc hlt => exact absurd (received_unique hrecv hr ▸ hacc) haccepts
  | complete hr hd' hacc hge hsent => exact absurd (received_unique hrecv hr ▸ hacc) haccepts

end NetSum.UserspaceAgg
