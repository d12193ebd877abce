import NetSum.UserspaceAgg.DeliveryTheorems
import NetSum.UserspaceAgg.KeyTheorems

/-!
# Isolation of jobs

What a job sees of the main loop, the verdicts on its datagrams and its packets, when the
datagrams of the other jobs change. The keys of a job are answered as by their own machines
(`Effect.respond`) as long as they are intact and the table has room, and the quota looks at
the job's own slots as long as the job fits into the job table; so two states that show the job
the same tallies (`SameView`) cannot be told apart by it (`tenant_isolation`). Other jobs'
completions can leave a free entry ahead of a slot of the job, and then they can.
-/

namespace NetSum.UserspaceAgg

open NetSum.Lib NetSum.Protocol NetSum.Aggregation

/-! ## The traffic of a job -/

/-- The datagram of the job that an iteration received; a datagram without a whole header is
nobody's. -/
def Event.ofJob (jobId : BitVec 32) (ev : Event) : Option Bytes :=
  ev.received.filter fun d =>
    netsumHdrSize ≤ d.length ∧ (GradHdr.decode d).jobId = jobId

/-- The packet of the job that an iteration sent. -/
def Output.ofJob (jobId : BitVec 32) (o : Output) : Option Bytes :=
  o.sent.filter fun p => (GradHdr.decode p).jobId = jobId

theorem Event.ofJob_eq_some {jobId : BitVec 32} {ev : Event} {d : Bytes} :
    ev.ofJob jobId = some d ↔ ev.received = some d ∧ netsumHdrSize ≤ d.length
      ∧ (GradHdr.decode d).jobId = jobId := by
  simp [Event.ofJob, Option.filter_eq_some_iff]

theorem Event.ofJob_eq_none {jobId : BitVec 32} {ev : Event} :
    ev.ofJob jobId = none ↔ ∀ d, ev.received = some d → netsumHdrSize ≤ d.length →
      (GradHdr.decode d).jobId ≠ jobId := by
  simp [Event.ofJob, Option.filter_eq_none_iff]

/-- At most 256 job ids appear in the run. -/
def FewJobs (es : List Event) : Prop :=
  ∃ S : Finset (BitVec 32), S.card ≤ jobTableCapacity ∧ ∀ ev ∈ es, ∀ d, ev.received = some d →
    netsumHdrSize ≤ d.length → (GradHdr.decode d).jobId ∈ S

/-- A datagram of the job finds its key intact. -/
def FindsJobIntact (jobId : BitVec 32) (st : State) (ev : Event) : Prop :=
  ∀ d, ev.ofJob jobId = some d →
    Intact (slotSeq (GradHdr.decode d).key) st.tables.occ (GradHdr.decode d).key

/-! ## The jobs in the tables -/

/-- Every job that has a slot or an entry is in `S`. -/
structure Tables.JobsIn (S : Finset (BitVec 32)) (t : Tables) : Prop where
  slots : ∀ i k, t.occ i = some k → k.jobId ∈ S
  entries : ∀ j jobId, jobOcc t.gJobs j = some jobId → jobId ∈ S

theorem Tables.jobsIn_zero (S : Finset (BitVec 32)) : Tables.zero.JobsIn S := by
  refine ⟨fun i k hk => ?_, fun j jobId hj => ?_⟩
  · rw [occ_zero] at hk
    cases hk
  · rw [jobOcc_eq_some] at hj
    cases hj.1

/-- `find_or_create_job` adds no job but the one it is called for. -/
theorem findOrCreateJob_entries {g g' : Jobs} {r : Option JobIdx} {jobId : BitVec 32}
    (hg : JobsOk g) (hf : findOrCreateJob g jobId = (g', r)) {S : Finset (BitVec 32)}
    (hS : ∀ j a, jobOcc g j = some a → a ∈ S) (hjob : jobId ∈ S) {j : JobIdx} {a : BitVec 32}
    (hj : jobOcc g' j = some a) : a ∈ S := by
  rcases findOrCreateJob_cases hg jobId with ⟨j', hf', -⟩ | ⟨j', hf', -⟩ | ⟨hf', -⟩
  · rw [hf', Prod.mk.injEq] at hf
    exact hS j a (hf.1 ▸ hj)
  · rw [hf', Prod.mk.injEq] at hf
    rw [← hf.1, jobOcc_eq_some] at hj
    by_cases hjj : j = j'
    · subst hjj
      rw [Function.update_self] at hj
      exact hj.2 ▸ hjob
    · rw [Function.update_of_ne hjj, ← jobOcc_eq_some] at hj
      exact hS j a hj
  · rw [hf', Prod.mk.injEq] at hf
    exact hS j a (hf.1 ▸ hj)

theorem Accepts.jobsIn {q : ℤ} {ev : Event} {t : Tables} {d : Bytes} {i : SlotIdx} {s : Slot}
    {g : Jobs} (h : Accepts q ev t d i s g) (hacct : t.Accounted) {S : Finset (BitVec 32)}
    (ht : t.JobsIn S) (hd : (GradHdr.decode d).jobId ∈ S) :
    Tables.JobsIn S ⟨Function.update t.gSlots i s, g⟩ := by
  refine ⟨fun i' k hk => ?_, ?_⟩
  · rw [occ_update, h.occupant.1] at hk
    by_cases hi : i' = i
    · rw [hi, Function.update_self, Option.some.injEq] at hk
      rw [← hk]
      exact hd
    · rw [Function.update_of_ne hi] at hk
      exact ht.slots i' k hk
  · -- only opening a slot touches the job table
    cases h with
    | joined hprobe hocc hlen hseen => exact ht.entries
    | opened hprobe hocc hjobs =>
      cases hjobs with
      | tracked hfind hquota =>
        intro j a hj
        rw [jobOcc_update_of_same (acquire_inUse _) (acquire_jobId _)] at hj
        exact findOrCreateJob_entries hacct.jobsOk hfind ht.entries hd hj
      | untracked hfind =>
        exact fun j a hj => findOrCreateJob_entries hacct.jobsOk hfind ht.entries hd hj

theorem Tables.JobsIn.freeSlot {t : Tables} (hacct : t.Accounted) {S : Finset (BitVec 32)}
    (ht : t.JobsIn S) {i : SlotIdx} (hi : (t.gSlots i).inUse = true) :
    (freeSlot t i).JobsIn S := by
  refine ⟨fun i' k hk => ?_, fun j a hj => ?_⟩
  · rw [occ_freeSlot] at hk
    by_cases hii : i' = i
    · rw [hii, Function.update_self] at hk
      cases hk
    · rw [Function.update_of_ne hii] at hk
      exact ht.slots i' k hk
  · have hjob : (t.gSlots i).jobId ∈ S :=
      ht.slots i (t.gSlots i).key (Slot.occupant_eq_some.mpr ⟨hi, rfl⟩)
    unfold UserspaceAgg.freeSlot at hj
    rcases hf : findOrCreateJob t.gJobs (t.gSlots i).jobId with ⟨g, _ | j'⟩
    · rw [hf] at hj
      exact findOrCreateJob_entries hacct.jobsOk hf ht.entries hjob hj
    · rw [hf] at hj
      dsimp only at hj
      rw [jobOcc_update_of_same (release_inUse _) (release_jobId _)] at hj
      exact findOrCreateJob_entries hacct.jobsOk hf ht.entries hjob hj

theorem Effect.jobsIn {q : ℤ} {ev : Event} {t t' : Tables} {v : Verdict} {slot : Option SlotIdx}
    {sent : Option Bytes} (h : Effect q ev t t' v slot sent) (hacct : t.Accounted)
    {S : Finset (BitVec 32)} (ht : t.JobsIn S)
    (hev : ∀ d, ev.received = some d → netsumHdrSize ≤ d.length → (GradHdr.decode d).jobId ∈ S) :
    t'.JobsIn S := by
  cases h with
  | idle hrecv => exact ht
  | screened hrecv hscreen => exact ht
  | full hrecv hd hfull => exact ht
  | refused hrecv hd hprobe hocc hfind hquota =>
    refine ⟨ht.slots, fun j a hj => ?_⟩
    dsimp only at hj
    rw [jobOcc_update_of_same (reject_inUse _) (reject_jobId _)] at hj
    exact findOrCreateJob_entries hacct.jobsOk hfind ht.entries (hev _ hrecv hd.hdr_le) hj
  | mismatch hrecv hd hprobe hocc hlen => exact ht
  | duplicate hrecv hd hprobe hocc hlen hseen => exact ht
  | absorbed hrecv hd hacc hlt => exact hacc.jobsIn hacct ht (hev _ hrecv hd.hdr_le)
  | complete hrecv hd hacc hge hsent =>
    refine (hacc.jobsIn hacct ht (hev _ hrecv hd.hdr_le)).freeSlot (hacc.accounted hacct) ?_
    simp only [Function.update_self]
    exact (Slot.occupant_eq_some.mp hacc.occupant.1).1

/-- Of 256 jobs each fits into the job table. -/
theorem Tables.JobsIn.jobFits {t : Tables} {S : Finset (BitVec 32)} (ht : t.JobsIn S)
    (hacct : t.Accounted) (hS : S.card ≤ jobTableCapacity) {jobId : BitVec 32}
    (hjob : jobId ∈ S) : JobFits t.gJobs jobId := by
  by_contra hno
  have hfull : ∀ j, (t.gJobs j).inUse = true ∧ (t.gJobs j).jobId ∈ S.erase jobId := by
    intro j
    have hj : (t.gJobs j).inUse = true := by
      by_contra hj
      exact hno ⟨j, .inl (jobOcc_eq_none.mpr (Bool.eq_false_iff.mpr hj))⟩
    refine ⟨hj, Finset.mem_erase.mpr ⟨fun heq => ?_, ?_⟩⟩
    · exact hno ⟨j, .inr (jobOcc_eq_some.mpr ⟨hj, heq⟩)⟩
    · exact ht.entries j _ (jobOcc_eq_some.mpr ⟨hj, rfl⟩)
  -- 256 entries for 255 other jobs
  have hcard := Finset.card_le_card_of_injOn (s := Finset.univ) (t := S.erase jobId)
    (fun j => (t.gJobs j).jobId) (fun j _ => (hfull j).2)
    (fun a _ b _ hab => hacct.jobsOk.eq_of_jobId (hfull a).1 (hfull b).1 hab)
  rw [Finset.card_univ, Fintype.card_fin, Finset.card_erase_of_mem hjob] at hcard
  have : 0 < S.card := Finset.card_pos.mpr ⟨jobId, hjob⟩
  simp only [jobTableCapacity] at hcard hS
  omega

/-! ## What a job sees -/

/-- The two tables show the job the same tallies, and count as many slots for it. -/
structure SameView (jobId : BitVec 32) (t t' : Tables) : Prop where
  shows : ∀ k, k.jobId = jobId → ∃ T?, t.Shows k T? ∧ t'.Shows k T?
  card_eq : (slotsOf t.occ jobId).card = (slotsOf t'.occ jobId).card

theorem SameView.symm {jobId : BitVec 32} {t t' : Tables} (h : SameView jobId t t') :
    SameView jobId t' t :=
  ⟨fun k hk => (h.shows k hk).imp fun _ hT => ⟨hT.2, hT.1⟩, h.card_eq.symm⟩

/-- What holds in the states of a run in which the job can be isolated. -/
structure Tame (jobId : BitVec 32) (st : State) (ev : Event) : Prop where
  ok : st.tables.Ok
  accounted : st.tables.Accounted
  room : st.tables.HasRoom
  fits : (ev.ofJob jobId).isSome → JobFits st.tables.gJobs jobId
  intact : FindsJobIntact jobId st ev

/-- Iterations that are not about the job leave its slots alone and send nothing for it. -/
theorem Effect.frame_job {q : ℤ} {ev : Event} {t t' : Tables} {v : Verdict}
    {slot : Option SlotIdx} {sent : Option Bytes} (h : Effect q ev t t' v slot sent)
    {jobId : BitVec 32} (hev : ev.ofJob jobId = none) :
    (∀ k, k.jobId = jobId → t.SameFor k t')
      ∧ ∀ p, sent = some p → (GradHdr.decode p).jobId ≠ jobId := by
  rw [Event.ofJob_eq_none] at hev
  cases hrecv : ev.received with
  | none =>
    have hother : ∀ k d, ev.received = some d → (GradHdr.decode d).key ≠ k := by
      intro k d hd
      rw [hrecv] at hd
      cases hd
    exact ⟨fun k _ => (h.frame (hother k)).1,
      fun p hp => absurd rfl ((h.frame (hother _)).2 p hp)⟩
  | some d =>
    by_cases hhdr : netsumHdrSize ≤ d.length
    · have hjob := hev d hrecv hhdr
      have hother : ∀ k : GradSlotKey, k.jobId = jobId →
          ∀ d', ev.received = some d' → (GradHdr.decode d').key ≠ k := by
        rintro k hk d' hd' rfl
        obtain rfl := received_unique hd' hrecv
        exact hjob hk
      exact ⟨fun k hk => (h.frame (hother k hk)).1,
        fun p hp hpj => (h.frame (hother _ hpj)).2 p hp rfl⟩
    · -- too short for a header
      obtain ⟨rfl, -, rfl⟩ := h.of_not_wellFormed hrecv fun hd => hhdr hd.hdr_le
      exact ⟨fun k _ i => ⟨Iff.rfl, fun _ => rfl⟩, by simp⟩

theorem slotsOf_congr {t t' : Tables} {jobId : BitVec 32}
    (h : ∀ k, k.jobId = jobId → t.SameFor k t') : slotsOf t'.occ jobId = slotsOf t.occ jobId := by
  ext i
  rw [slotsOf, slotsOf, mem_held, mem_held]
  constructor
  · rintro ⟨k, hk, hj⟩
    exact ⟨k, (h k (beq_iff_eq.mp hj) i).1.mp hk, hj⟩
  · rintro ⟨k, hk, hj⟩
    exact ⟨k, (h k (beq_iff_eq.mp hj) i).1.mpr hk, hj⟩

theorem SameView.frame {jobId : BitVec 32} {t t' t₁ : Tables} (h : SameView jobId t t₁)
    (hsame : ∀ k, k.jobId = jobId → t.SameFor k t') : SameView jobId t' t₁ := by
  refine ⟨fun k hk => ?_, ?_⟩
  · obtain ⟨T?, hT, hT'⟩ := h.shows k hk
    exact ⟨T?, hT.frame (hsame k hk), hT'⟩
  · rw [slotsOf_congr hsame]
    exact h.card_eq

theorem SentWith.unique {k : GradSlotKey} {sent sent' : Option Bytes} {a : Answer Tally}
    (h : SentWith k sent a) (h' : SentWith k sent' a)
    (hlen : ∀ T, a = .complete T → T.chunkLen ≤ netsumMaxChunkLen) : sent = sent' := by
  cases a with
  | complete T =>
    obtain ⟨p, rfl, hp⟩ := h
    obtain ⟨p', rfl, hp'⟩ := h'
    rw [hp.unique hp' (hlen T rfl)]
  | refused => exact Eq.trans h (Eq.symm h')
  | mismatch => exact Eq.trans h (Eq.symm h')
  | duplicate => exact Eq.trans h (Eq.symm h')
  | absorbed => exact Eq.trans h (Eq.symm h')

/-- Two iterations on the same datagram of the job, from tables that show it the same, answer
the same and show it the same. -/
theorem SameView.step {q : ℤ} {ev ev₁ : Event} {t t' t₁ t₁' : Tables} {v v₁ : Verdict}
    {slot slot₁ : Option SlotIdx} {sent sent₁ : Option Bytes} {d : Bytes}
    (h : SameView (GradHdr.decode d).jobId t t₁)
    (he : Effect q ev t t' v slot sent) (he₁ : Effect q ev₁ t₁ t₁' v₁ slot₁ sent₁)
    (hrecv : ev.received = some d) (hrecv₁ : ev₁.received = some d)
    (hok : t.Ok) (hok₁ : t₁.Ok) (hacct : t.Accounted) (hacct₁ : t₁.Accounted)
    (hroom : t.HasRoom) (hroom₁ : t₁.HasRoom)
    (hfits : JobFits t.gJobs (GradHdr.decode d).jobId)
    (hfits₁ : JobFits t₁.gJobs (GradHdr.decode d).jobId)
    (hint : Intact (slotSeq (GradHdr.decode d).key) t.occ (GradHdr.decode d).key)
    (hint₁ : Intact (slotSeq (GradHdr.decode d).key) t₁.occ (GradHdr.decode d).key) :
    SameView (GradHdr.decode d).jobId t' t₁' ∧ v = v₁ ∧ sent = sent₁ := by
  classical
  by_cases hd : WellFormed d
  · obtain ⟨T?, hT, hT₁⟩ := h.shows (GradHdr.decode d).key rfl
    have hadm : decide (QuotaAdmits q t (GradHdr.decode d).jobId) = true
        ↔ QuotaAdmits q t₁ (GradHdr.decode d).jobId := by
      rw [decide_eq_true_iff]
      simp only [QuotaAdmits, hfits, hfits₁, h.card_eq]
    obtain ⟨hshow, hv, hsent, hcard⟩ := he.respond hok hacct hrecv hd hT hint (fun _ => hroom)
      decide_eq_true_iff
    obtain ⟨hshow₁, hv₁, hsent₁, hcard₁⟩ := he₁.respond hok₁ hacct₁ hrecv₁ hd hT₁ hint₁
      (fun _ => hroom₁) hadm
    refine ⟨⟨fun k hk => ?_, ?_⟩, hv.trans hv₁.symm, hsent.unique hsent₁ fun T hT => ?_⟩
    · by_cases hkey : (GradHdr.decode d).key = k
      · exact hkey ▸ ⟨_, hshow, hshow₁⟩
      · -- the job's other keys are left alone
        have hother : ∀ {e : Event}, e.received = some d →
            ∀ d', e.received = some d' → (GradHdr.decode d').key ≠ k := by
          intro e hr d' hr'
          rw [← Option.some.inj (hr.symm.trans hr')]
          exact hkey
        obtain ⟨T?', hT', hT₁'⟩ := h.shows k hk
        exact ⟨T?', hT'.frame (he.frame (hother hrecv)).1, hT₁'.frame (he₁.frame (hother hrecv₁)).1⟩
    · have hcard_eq := h.card_eq
      omega
    · rw [chunkLen_of_complete hT]
      exact hd.chunkLen_le
  · obtain ⟨rfl, hv, rfl⟩ := he.of_not_wellFormed hrecv hd
    obtain ⟨rfl, hv₁, rfl⟩ := he₁.of_not_wellFormed hrecv₁ hd
    exact ⟨h, Option.some.inj (hv.symm.trans hv₁), rfl⟩

/-! ## Two runs -/

/-- In a run with few jobs and room in the table, in which the job's datagrams find their keys
intact, every step is tame. -/
theorem tame_of_run {args : Args} (httl : args.slotTtlMs = 0) {st : State} {es : List Event}
    (hst : st.tables.Ok) (hacct : st.tables.Accounted) {S : Finset (BitVec 32)}
    (hjobs : st.tables.JobsIn S) (hS : S.card ≤ jobTableCapacity)
    (hes : ∀ ev ∈ es, ∀ d, ev.received = some d → netsumHdrSize ≤ d.length →
      (GradHdr.decode d).jobId ∈ S) {jobId : BitVec 32}
    (hroom : StepsMeet (mainStep args) (fun st _ => st.tables.HasRoom) st es)
    (hint : StepsMeet (mainStep args) (FindsJobIntact jobId) st es) :
    StepsMeet (mainStep args) (Tame jobId) st es := by
  induction es generalizing st with
  | nil => trivial
  | cons ev es ih =>
    have hev := hes ev List.mem_cons_self
    have heff := mainStep_effect_of_ok args hst ev
    rw [reapPhase_of_ttl_zero httl] at heff
    refine ⟨⟨hst, hacct, hroom.1, fun hsome => ?_, hint.1⟩, ?_⟩
    · obtain ⟨d, hd⟩ := Option.isSome_iff_exists.mp hsome
      obtain ⟨hrecv, hhdr, rfl⟩ := Event.ofJob_eq_some.mp hd
      exact hjobs.jobFits hacct hS (hev d hrecv hhdr)
    · exact ih (mainStep_ok hst ev) (heff.accounted hacct) (heff.jobsIn hacct hjobs hev)
        (fun e he => hes e (List.mem_cons_of_mem _ he)) hroom.2 hint.2

/-- Tame runs that agree on the job's datagrams show it the same answers. -/
theorem observed_of_tame {args : Args} (httl : args.slotTtlMs = 0) {jobId : BitVec 32}
    {st st₁ : State} {es es₁ : List Event} (h : SameView jobId st.tables st₁.tables)
    (hsame : es.filterMap (Event.ofJob jobId) = es₁.filterMap (Event.ofJob jobId))
    (ht : StepsMeet (mainStep args) (Tame jobId) st es)
    (ht₁ : StepsMeet (mainStep args) (Tame jobId) st₁ es₁) :
    observed (mainStep args) (Event.ofJob jobId) (fun o => (o.verdict, o.sent)) st es
      = observed (mainStep args) (Event.ofJob jobId) (fun o => (o.verdict, o.sent)) st₁ es₁ := by
  -- what is of another job does not show, and what is of the job shows alike
  refine run_unwinding (fun st st₁ : State => SameView jobId st.tables st₁.tables)
    (fun _ _ h => h.symm) (fun st st₁ ev hev htame h => ?_)
    (fun st st₁ ev ev₁ d hev hev₁ htame htame₁ h => ?_) h hsame ht ht₁
  · have heff := mainStep_effect_of_ok args htame.ok ev
    rw [reapPhase_of_ttl_zero httl] at heff
    exact h.frame (heff.frame_job hev).1
  · have heff := mainStep_effect_of_ok args htame.ok ev
    have heff₁ := mainStep_effect_of_ok args htame₁.ok ev₁
    rw [reapPhase_of_ttl_zero httl] at heff heff₁
    have hfits := htame.fits (by rw [hev]; rfl)
    have hfits₁ := htame₁.fits (by rw [hev₁]; rfl)
    have hint := htame.intact d hev
    have hint₁ := htame₁.intact d hev₁
    obtain ⟨hrecv, -, rfl⟩ := Event.ofJob_eq_some.mp hev
    obtain ⟨hrecv₁, -, -⟩ := Event.ofJob_eq_some.mp hev₁
    obtain ⟨hview, hv, hs⟩ := SameView.step h heff heff₁ hrecv hrecv₁ htame.ok htame₁.ok
      htame.accounted htame₁.accounted htame.room htame₁.room hfits hfits₁ hint hint₁
    exact ⟨hview, by rw [hv, hs]⟩

/-- The packets of the job are the answers to its datagrams. -/
theorem packets_eq_observed {args : Args} (httl : args.slotTtlMs = 0) {jobId : BitVec 32}
    {st : State} {es : List Event} (ht : StepsMeet (mainStep args) (Tame jobId) st es) :
    (runOut (mainStep args) st es).filterMap (Output.ofJob jobId)
      = (observed (mainStep args) (Event.ofJob jobId) (fun o => (o.verdict, o.sent)) st es).filterMap
        fun x => x.2.filter fun p => (GradHdr.decode p).jobId = jobId := by
  have hquiet : StepsMeet (mainStep args) (fun st ev => ev.ofJob jobId = none →
      (mainStep args st ev).2.ofJob jobId = none) st es := by
    refine ht.mono fun st ev htame hev => ?_
    have heff := mainStep_effect_of_ok args htame.ok ev
    rw [Output.ofJob, Option.filter_eq_none_iff]
    rw [reapPhase_of_ttl_zero httl] at heff
    intro p hp
    simpa using (heff.frame_job hev).2 p hp
  have hmap := observed_map (mainStep args) (Event.ofJob jobId) id
    (fun o : Output => (o.verdict, o.sent)) st es
  simp only [id_eq] at hmap
  rw [filterMap_runOut hquiet, hmap, List.filterMap_map]
  rfl

/-- **Isolation.** With the reaper off, take two runs from empty tables that agree on the
job's datagrams, in which the slot table never becomes full and at most 256 job ids appear. If
in both every datagram of the job finds its key intact, the job's datagrams get the same
verdicts and the same packets are sent for it, whatever the other jobs do. -/
theorem tenant_isolation {args : Args} (httl : args.slotTtlMs = 0) {jobId : BitVec 32}
    (inPacket outPacket inPacket₁ outPacket₁ : Buffer) (now now₁ : ℤ) {es es₁ : List Event}
    (hsame : es.filterMap (Event.ofJob jobId) = es₁.filterMap (Event.ofJob jobId))
    (hjobs : FewJobs es) (hjobs₁ : FewJobs es₁)
    (hroom : StepsMeet (mainStep args) (fun st _ => st.tables.HasRoom)
      (State.init inPacket outPacket now) es)
    (hroom₁ : StepsMeet (mainStep args) (fun st _ => st.tables.HasRoom)
      (State.init inPacket₁ outPacket₁ now₁) es₁)
    (hint : StepsMeet (mainStep args) (FindsJobIntact jobId)
      (State.init inPacket outPacket now) es)
    (hint₁ : StepsMeet (mainStep args) (FindsJobIntact jobId)
      (State.init inPacket₁ outPacket₁ now₁) es₁) :
    observed (mainStep args) (Event.ofJob jobId) Output.verdict
        (State.init inPacket outPacket now) es
      = observed (mainStep args) (Event.ofJob jobId) Output.verdict
        (State.init inPacket₁ outPacket₁ now₁) es₁
    ∧ (runOut (mainStep args) (State.init inPacket outPacket now) es).filterMap
        (Output.ofJob jobId)
      = (runOut (mainStep args) (State.init inPacket₁ outPacket₁ now₁) es₁).filterMap
        (Output.ofJob jobId) := by
  obtain ⟨S, hS, hes⟩ := hjobs
  obtain ⟨S₁, hS₁, hes₁⟩ := hjobs₁
  have ht := tame_of_run httl (State.init_ok inPacket outPacket now) Tables.accounted_zero
    (Tables.jobsIn_zero S) hS hes hroom hint
  have ht₁ := tame_of_run httl (State.init_ok inPacket₁ outPacket₁ now₁) Tables.accounted_zero
    (Tables.jobsIn_zero S₁) hS₁ hes₁ hroom₁ hint₁
  -- the job has nothing in either table at the start
  have hview : SameView jobId (State.init inPacket outPacket now).tables
      (State.init inPacket₁ outPacket₁ now₁).tables :=
    ⟨fun k _ => ⟨none, .absent fun i => by simp [State.init], .absent fun i => by simp [State.init]⟩,
      rfl⟩
  have hobs := observed_of_tame httl hview hsame ht ht₁
  refine ⟨?_, ?_⟩
  · have hverdict := congrArg (List.map Prod.fst) hobs
    rwa [← observed_map, ← observed_map] at hverdict
  · rw [packets_eq_observed httl ht, packets_eq_observed httl ht₁, hobs]

/-! ## A job that notices its neighbour -/

theorem fewJobs_of_all {es : List Event} (S : Finset (BitVec 32)) (hS : S.card ≤ jobTableCapacity)
    (h : (es.all fun ev => ev.received.all fun d => (GradHdr.decode d).jobId ∈ S) = true) :
    FewJobs es := by
  refine ⟨S, hS, fun ev hev d hd _ => ?_⟩
  have := List.all_eq_true.mp h ev hev
  rw [hd] at this
  exact of_decide_eq_true this

/-- Job 2 sends one datagram, alone or behind a datagram of job 1. -/
theorem isolated_first_datagram :
    observed (mainStep ⟨0, 0⟩) (Event.ofJob 2) Output.verdict
        (State.init Buffer.zero Buffer.zero 0) [received 2 46657 0 7]
      = observed (mainStep ⟨0, 0⟩) (Event.ofJob 2) Output.verdict
        (State.init Buffer.zero Buffer.zero 0) [received 1 0 0 5, received 2 46657 0 7]
    ∧ (runOut (mainStep ⟨0, 0⟩) (State.init Buffer.zero Buffer.zero 0)
          [received 2 46657 0 7]).filterMap (Output.ofJob 2)
      = (runOut (mainStep ⟨0, 0⟩) (State.init Buffer.zero Buffer.zero 0)
          [received 1 0 0 5, received 2 46657 0 7]).filterMap (Output.ofJob 2) := by
  have hzero : ∀ (k : GradSlotKey) i, Tables.zero.occ i ≠ some k := fun k i => by simp
  have hother : (received 1 0 0 5).ofJob 2 = none := by decide +kernel
  have heff := mainStep_effect_of_ok ⟨0, 0⟩ (State.init_ok Buffer.zero Buffer.zero 0)
    (received 1 0 0 5)
  rw [reapPhase_of_ttl_zero rfl] at heff
  refine tenant_isolation rfl Buffer.zero Buffer.zero Buffer.zero Buffer.zero 0 0
    (by decide +kernel) (fewJobs_of_all {2} (by decide) (by decide +kernel))
    (fewJobs_of_all {1, 2} (by decide) (by decide +kernel)) ⟨⟨0, by decide +kernel⟩, trivial⟩
    ⟨⟨0, by decide +kernel⟩, ⟨0, by decide +kernel⟩, trivial⟩
    ⟨fun d _ => intact_of_absent (hzero _), trivial⟩
    ⟨fun d hd => ?_, fun d hd => intact_of_absent fun i hi => ?_, trivial⟩
  · rw [hother] at hd
    cases hd
  · obtain ⟨-, -, hjob⟩ := Event.ofJob_eq_some.mp hd
    exact hzero _ i (((heff.frame_job hother).1 _ hjob i).1.mp hi)

/-- Job 2 without its neighbour in `collidingRun`. -/
def aloneRun : List Event := [received 2 46657 0 7, received 2 46657 1 7]

/-- Alone, job 2's second datagram completes its key; with job 1 around, it does not. -/
theorem collidingRun_not_isolated :
    aloneRun.filterMap (Event.ofJob 2) = collidingRun.filterMap (Event.ofJob 2)
      ∧ FewJobs aloneRun ∧ FewJobs collidingRun
      ∧ StepsMeet (mainStep ⟨0, 0⟩) (fun st _ => st.tables.HasRoom)
        (State.init Buffer.zero Buffer.zero 0) aloneRun
      ∧ StepsMeet (mainStep ⟨0, 0⟩) (fun st _ => st.tables.HasRoom)
        (State.init Buffer.zero Buffer.zero 0) collidingRun
      ∧ observed (mainStep ⟨0, 0⟩) (Event.ofJob 2) Output.verdict
        (State.init Buffer.zero Buffer.zero 0) aloneRun = [.absorbed, .complete]
      ∧ observed (mainStep ⟨0, 0⟩) (Event.ofJob 2) Output.verdict
        (State.init Buffer.zero Buffer.zero 0) collidingRun = [.absorbed, .absorbed] :=
  ⟨by decide +kernel, fewJobs_of_all {2} (by decide) (by decide +kernel),
    fewJobs_of_all {1, 2} (by decide) (by decide +kernel),
    ⟨⟨0, by decide +kernel⟩, ⟨0, by decide +kernel⟩, trivial⟩, hasRoom_collidingRun,
    by decide +kernel, by decide +kernel⟩

end NetSum.UserspaceAgg
