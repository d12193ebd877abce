import NetSum.UserspaceAgg.RefinementTheorems

/-!
# What the quota guarantees a job

With a quota and few enough jobs the slot table never fills, however the jobs behave and whatever
the probing forgets: no job holds more slots than the quota. So a job is only ever refused a slot
for its own sake, when it holds as many as the quota allows (`refused_at_quota_only`).
-/

namespace NetSum.UserspaceAgg

open NetSum.Lib NetSum.Protocol NetSum.Aggregation

section

variable {q : ℤ} {ev : Event} {t t' : Tables} {d : Bytes} {v : Verdict} {slot : Option SlotIdx}
  {sent : Option Bytes} {S : Finset (BitVec 32)} {args : Args} {st : State}

/-- With room in the table, a refusal is that of a new slot. -/
theorem Effect.rejected_iff (h : Effect q ev t t' v slot sent) (hroom : t.HasRoom)
    (hrecv : ev.received = some d) (hd : WellFormed d) :
    v = .admissionReject ↔ t.NeedsSlot (GradHdr.decode d).key ∧ ¬ v.Admitted := by
  have hfound : ∀ {i}, probe (slotSeq (GradHdr.decode d).key)
      (stopAt t.occ (GradHdr.decode d).key) = some i → t.occ i = some (GradHdr.decode d).key →
      ¬ t.NeedsSlot (GradHdr.decode d).key := by
    rintro i hprobe hocc ⟨i', hprobe', hfree⟩
    obtain rfl := Option.some.inj (hprobe.symm.trans hprobe')
    rw [hocc] at hfree
    cases hfree
  cases h with
  | idle hr => rw [hrecv] at hr; cases hr
  | screened hr hscreen =>
    rw [received_unique hrecv hr, screen_of_wellFormed hd] at hscreen
    cases hscreen
  | full hr hd' hfull =>
    obtain ⟨i, hi⟩ := hroom
    exact absurd hi (hfull i).1
  | refused hr hd' hprobe hocc hfind hquota =>
    obtain rfl := received_unique hrecv hr
    refine iff_of_true rfl ⟨⟨_, hprobe, hocc⟩, ?_⟩
    rintro (h | h) <;> cases h
  | mismatch hr hd' hprobe hocc hlen =>
    obtain rfl := received_unique hrecv hr
    apply iff_of_false (by decide)
    exact fun h => hfound hprobe hocc h.1
  | duplicate hr hd' hprobe hocc hlen hseen =>
    obtain rfl := received_unique hrecv hr
    apply iff_of_false (by decide)
    exact fun h => hfound hprobe hocc h.1
  | absorbed hr hd' hacc hlt => exact iff_of_false (by decide) fun h => h.2 (.inl rfl)
  | complete hr hd' hacc hge hsent => exact iff_of_false (by decide) fun h => h.2 (.inr rfl)

/-- The quotas of all jobs together bound the slots in use. -/
theorem Tables.Within.hasRoom (h : t.Within q) (hjobs : t.JobsIn S)
    (hroom : q * S.card < slotTableCapacity) : t.HasRoom := by
  have hq : 0 ≤ q := (Int.natCast_nonneg _).trans (h 0)
  obtain ⟨m, rfl⟩ := Int.eq_ofNat_of_zero_le hq
  rw [Tables.HasRoom, exists_free_iff]
  calc (held t.occ fun _ => true).card
      ≤ m * S.card := card_held_le_mul hjobs.slots fun jobId => Int.ofNat_le.mp (h jobId)
    _ < slotTableCapacity := by exact_mod_cast hroom

/-- A quota that leaves room for the jobs there are fits into 32 bits. -/
theorem quota_lt_of_room (hroom : q * S.card < slotTableCapacity) {jobId : BitVec 32}
    (hjob : jobId ∈ S) : q < 2 ^ 32 := by
  have hpos : (1 : ℤ) ≤ S.card := by exact_mod_cast Finset.card_pos.mpr ⟨jobId, hjob⟩
  by_contra hge
  have hle : q * 1 ≤ q * S.card := Int.mul_le_mul_of_nonneg_left hpos (by omega)
  rw [slotTableCapacity] at hroom
  omega

/-- The jobs of the datagrams are all in `S`. -/
def JobsFrom (S : Finset (BitVec 32)) (ev : Event) : Prop :=
  ∀ d, ev.received = some d → netsumHdrSize ≤ d.length → (GradHdr.decode d).jobId ∈ S

/-- What a run of the jobs `S` keeps. -/
structure Rationed (S : Finset (BitVec 32)) (q : ℤ) (t : Tables) : Prop where
  ok : t.Ok
  accounted : t.Accounted
  jobsIn : t.JobsIn S
  within : t.Within q

theorem Rationed.reapPhase (h : Rationed S q st.tables) (args : Args) (ev : Event) :
    Rationed S q (reapPhase args st ev).1.tables where
  ok := reapPhase_ok h.ok ev
  accounted := reapPhase_accounted args h.accounted ev
  jobsIn := reapPhase_jobsIn h.accounted h.jobsIn
  within := reapPhase_induction (Tables.Within q) (fun _ _ hi ht => ht.freeSlot hi) args h.within ev

/-- Of 256 jobs and a quota of 32 bits, the quota rule is the quota. -/
theorem Rationed.quotaAdmits_iff (h : Rationed S q t) (hS : S.card ≤ jobTableCapacity)
    (hq : 0 < q) (hlt : q < 2 ^ 32) {jobId : BitVec 32} (hjob : jobId ∈ S) :
    QuotaAdmits q t jobId ↔ ((slotsOf t.occ jobId).card : ℤ) < q := by
  have hfits := h.jobsIn.jobFits h.accounted hS hjob
  have hexact := (admitted_exact_iff (Iff.refl (QuotaAdmits q t jobId))).mpr
    (.inr (.inl ⟨hfits, .inl hlt⟩))
  rw [hexact, or_iff_right (by omega)]

theorem Rationed.mainStep (h : Rationed S args.gJobQuota st.tables)
    (hS : S.card ≤ jobTableCapacity) (hq : 0 < args.gJobQuota)
    (hroom : args.gJobQuota * S.card < slotTableCapacity) (hev : JobsFrom S ev) :
    Rationed S args.gJobQuota (mainStep args st ev).1.tables where
  ok := mainStep_ok h.ok ev
  accounted := (mainStep_effect_of_ok args h.ok ev).accounted (h.reapPhase args ev).accounted
  jobsIn := mainStep_jobsIn h.ok h.accounted h.jobsIn hev
  within := by
    refine mainStep_within h.ok h.accounted hq (fun d hrecv hd _ => ?_) h.within
    have hjob := hev d hrecv hd.hdr_le
    have hswept := h.reapPhase args ev
    exact .inr (.inl ⟨hswept.jobsIn.jobFits hswept.accounted hS hjob,
      .inl (quota_lt_of_room hroom hjob)⟩)

/-- **One iteration.** A well-formed datagram is refused if it needs a slot and its job has used
up the quota. -/
theorem Rationed.refused_iff (h : Rationed S args.gJobQuota st.tables)
    (hS : S.card ≤ jobTableCapacity) (hq : 0 < args.gJobQuota)
    (hroom : args.gJobQuota * S.card < slotTableCapacity) (hev : JobsFrom S ev)
    (hrecv : ev.received = some d) (hd : WellFormed d) :
    let t := (UserspaceAgg.reapPhase args st ev).1.tables
    (UserspaceAgg.mainStep args st ev).2.verdict = .admissionReject
      ↔ t.NeedsSlot (GradHdr.decode d).key
        ∧ ((slotsOf t.occ (GradHdr.decode d).jobId).card : ℤ) = args.gJobQuota := by
  intro t
  have hswept := h.reapPhase args ev
  have heff := mainStep_effect_of_ok args h.ok ev
  have hjob := hev d hrecv hd.hdr_le
  rw [heff.rejected_iff (hswept.within.hasRoom hswept.jobsIn hroom) hrecv hd]
  refine and_congr_right fun hneeds => ?_
  rw [heff.admitted_iff hswept.accounted hrecv hd hneeds,
    hswept.quotaAdmits_iff hS hq (quota_lt_of_room hroom hjob) hjob]
  rw [not_lt]
  exact ⟨fun hge => le_antisymm (hswept.within _) hge, fun heq => heq.ge⟩

end

/-- **A job starves only itself.** If at most 256 jobs send, and the quota times their number is
less than 65536, then in every run there is always a free entry, no job ever has more slots than
the quota, and a well-formed datagram is refused exactly when the search for its key stops at a
free entry and its own job has as many slots as the quota. -/
theorem refused_at_quota_only {args : Args} (hq : 0 < args.gJobQuota) {S : Finset (BitVec 32)}
    (hS : S.card ≤ jobTableCapacity) (hroom : args.gJobQuota * S.card < slotTableCapacity)
    (inPacket outPacket : Buffer) (now : ℤ) {es : List Event} (hes : ∀ ev ∈ es, JobsFrom S ev) :
    let st := stateAt (mainStep args) (State.init inPacket outPacket now) es
    ∀ T ev, es[T]? = some ev →
      let t := (reapPhase args (st T) ev).1.tables
      t.HasRoom ∧ (∀ jobId, ((slotsOf t.occ jobId).card : ℤ) ≤ args.gJobQuota)
        ∧ ∀ d, ev.received = some d → WellFormed d →
          ((mainStep args (st T) ev).2.verdict = .admissionReject
            ↔ t.NeedsSlot (GradHdr.decode d).key
              ∧ ((slotsOf t.occ (GradHdr.decode d).jobId).card : ℤ) = args.gJobQuota) := by
  intro st T ev hev t
  have hzero : Rationed S args.gJobQuota (State.init inPacket outPacket now).tables := by
    refine ⟨State.init_ok inPacket outPacket now, Tables.accounted_zero, Tables.jobsIn_zero S, ?_⟩
    intro jobId
    rw [State.init, slotsOf_zero]
    exact hq.le
  have hst : Rationed S args.gJobQuota (st T).tables := by
    refine runState_invariant (fun st : State => Rationed S args.gJobQuota st.tables)
      (P := fun _ ev => JobsFrom S ev) (fun st ev hP h => h.mainStep hS hq hroom hP) hzero ?_
    exact (stepsMeet_iff.mpr fun T ev he => hes ev (List.mem_of_getElem? he)).take T
  have hswept := hst.reapPhase args ev
  exact ⟨hswept.within.hasRoom hswept.jobsIn hroom, hswept.within, fun d hrecv hd =>
    hst.refused_iff hS hq hroom (hes ev (List.mem_of_getElem? hev)) hrecv hd⟩

/-- With a quota of one slot, the second job's last datagram in `collidingRun`, whose slot the
search has lost, is refused: the job has that slot. -/
theorem refused_at_quota_only_lost :
    let st := stateAt (mainStep ⟨1, 0⟩) (State.init .zero .zero 0) collidingRun 3
    let t := (reapPhase ⟨1, 0⟩ st (received 2 46657 1 7)).1.tables
    t.HasRoom ∧ t.NeedsSlot ⟨2, 46657, 0⟩ ∧ ((slotsOf t.occ 2).card : ℤ) = 1 := by
  intro st t
  have hjobs : ∀ ev ∈ collidingRun, JobsFrom {1, 2} ev := by
    have hall : collidingRun.all fun ev => ev.received.all fun d =>
        decide ((GradHdr.decode d).jobId ∈ ({1, 2} : Finset (BitVec 32))) := by decide +kernel
    intro ev hev d hd _
    have := List.all_eq_true.mp hall ev hev
    rw [hd] at this
    exact of_decide_eq_true this
  have hrefused : (mainStep ⟨1, 0⟩ (stateAt (mainStep ⟨1, 0⟩) (State.init .zero .zero 0)
      collidingRun 3) (received 2 46657 1 7)).2.verdict = .admissionReject := by
    decide +kernel
  have hquota : 0 < (⟨1, 0⟩ : Args).gJobQuota := by decide
  obtain ⟨hroom, -, hiff⟩ := refused_at_quota_only hquota (S := {1, 2}) (by decide)
    (by decide) .zero .zero 0 hjobs 3 (received 2 46657 1 7) rfl
  exact ⟨hroom, (hiff _ rfl (by decide +kernel)).mp hrefused⟩

end NetSum.UserspaceAgg
