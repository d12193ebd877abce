import Mathlib.Algebra.Order.BigOperators.Group.Finset
import NetSum.UserspaceAgg.IsolationTheorems

/-!
# Contended admission

Jobs compete for slots with rounds that never complete: each datagram is the first and only one of
its key. A job then holds as many slots as it asked for, up to the quota, and everything beyond is
refused and counted, whatever the interleaving and wherever the keys and the jobs collide in the
two tables (`Contended`). The counter of refusals has 32 bits, so this is what it shows as long as
no job has `2 ^ 32` refusals (`contended_admission_iff`).
-/

namespace NetSum.UserspaceAgg

open NetSum.Lib NetSum.Protocol NetSum.Aggregation

/-! ## The traffic -/

/-- The datagrams that the iterations received. -/
def datagramsIn (es : List Event) : List Bytes := es.filterMap Event.received

/-- How many of the datagrams are of the job. -/
def demand (ds : List Bytes) (jobId : BitVec 32) : ℕ :=
  ds.countP fun d => (GradHdr.decode d).jobId = jobId

/-- The jobs that sent any. -/
def jobsIn (ds : List Bytes) : Finset (BitVec 32) :=
  (ds.map fun d => (GradHdr.decode d).jobId).toFinset

/-- The traffic of at most 256 jobs, each datagram from worker 0 of two and of a key of its own,
under a quota that leaves room in the slot table. -/
structure Contention (q : ℕ) (ds : List Bytes) : Prop where
  wellFormed : ∀ d ∈ ds, WellFormed d
  workerId_eq : ∀ d ∈ ds, (GradHdr.decode d).workerId = 0
  numWorkers_eq : ∀ d ∈ ds, (GradHdr.decode d).numWorkers = 2
  distinct : (ds.map fun d => (GradHdr.decode d).key).Nodup
  jobs_le : (jobsIn ds).card ≤ jobTableCapacity
  room : ∑ jobId ∈ jobsIn ds, min (demand ds jobId) q < slotTableCapacity

theorem mem_jobsIn {ds : List Bytes} {jobId : BitVec 32} :
    jobId ∈ jobsIn ds ↔ 0 < demand ds jobId := by
  simp [jobsIn, demand, List.countP_pos_iff]

theorem demand_concat (ds : List Bytes) (d : Bytes) :
    demand (ds ++ [d]) = Function.update (demand ds) (GradHdr.decode d).jobId
      (demand ds (GradHdr.decode d).jobId + 1) := by
  funext jobId
  rw [demand, List.countP_append, List.countP_singleton]
  by_cases hjob : jobId = (GradHdr.decode d).jobId
  · subst hjob
    simp [demand]
  · simp [demand, Ne.symm hjob, hjob]

theorem demand_le_concat (ds : List Bytes) (d : Bytes) (jobId : BitVec 32) :
    demand ds jobId ≤ demand (ds ++ [d]) jobId := by
  rw [demand, demand, List.countP_append]
  omega

theorem jobsIn_subset_concat (ds : List Bytes) (d : Bytes) : jobsIn ds ⊆ jobsIn (ds ++ [d]) := by
  intro jobId hjob
  have hle := demand_le_concat ds d jobId
  rw [mem_jobsIn] at hjob ⊢
  omega

/-- With room for the jobs' shares at the end, there is room for them at any time before. -/
theorem Contention.room_concat {q : ℕ} {ds : List Bytes} {d : Bytes}
    (h : Contention q (ds ++ [d])) :
    ∑ jobId ∈ jobsIn (ds ++ [d]), min (demand ds jobId) q < slotTableCapacity := by
  refine lt_of_le_of_lt (Finset.sum_le_sum fun jobId _ => ?_) h.room
  have hle := demand_le_concat ds d jobId
  omega

theorem Contention.of_concat {q : ℕ} {ds : List Bytes} {d : Bytes} (h : Contention q (ds ++ [d])) :
    Contention q ds where
  wellFormed d' hd := h.wellFormed d' (List.mem_append_left _ hd)
  workerId_eq d' hd := h.workerId_eq d' (List.mem_append_left _ hd)
  numWorkers_eq d' hd := h.numWorkers_eq d' (List.mem_append_left _ hd)
  distinct := by
    have hdistinct := h.distinct
    rw [List.map_append] at hdistinct
    exact (List.nodup_append.mp hdistinct).1
  jobs_le := (Finset.card_le_card (jobsIn_subset_concat ds d)).trans h.jobs_le
  room := (Finset.sum_le_sum_of_subset (jobsIn_subset_concat ds d)).trans_lt h.room_concat

/-! ## The job table -/

/-- The counters of a job that asked for `n` slots. -/
structure Counts (q n : ℕ) (e : JobEntry) : Prop where
  admitted_eq : e.admittedCount = BitVec.ofNat 32 (min n q)
  rejected_eq : e.rejectedCount = BitVec.ofNat 32 (n - min n q)

/-- Every job that asked for slots has an entry with its counts, and no other job has one. -/
structure Settled (q : ℕ) (demand : BitVec 32 → ℕ) (g : Jobs) : Prop where
  tracked : ∀ jobId, 0 < demand jobId → ∃ j, jobOcc g j = some jobId
  counts : ∀ j jobId, jobOcc g j = some jobId → 0 < demand jobId ∧ Counts q (demand jobId) (g j)

section

variable {q n : ℕ} {e e' : JobEntry} {demand : BitVec 32 → ℕ} {g g' : Jobs} {j : JobIdx}
  {jobId : BitVec 32}

theorem counts_fresh (q : ℕ) (jobId : BitVec 32) : Counts q 0 (JobEntry.fresh jobId) :=
  ⟨by rw [Nat.zero_min]; rfl, by rw [Nat.zero_sub]; rfl⟩

/-- One more slot, below the quota. -/
theorem Counts.acquire (h : Counts q n e) (hlt : n < q) : Counts q (n + 1) e.acquire where
  admitted_eq := by
    show e.admittedCount + 1#32 = _
    rw [h.admitted_eq, ← BitVec.ofNat_add]
    exact congrArg (BitVec.ofNat 32) (by omega)
  rejected_eq := by
    show e.rejectedCount = _
    rw [h.rejected_eq]
    exact congrArg (BitVec.ofNat 32) (by omega)

/-- One more refusal, at the quota. -/
theorem Counts.reject (h : Counts q n e) (hle : q ≤ n) : Counts q (n + 1) e.reject where
  admitted_eq := by
    show e.admittedCount = _
    rw [h.admitted_eq]
    exact congrArg (BitVec.ofNat 32) (by omega)
  rejected_eq := by
    show e.rejectedCount + 1#32 = _
    rw [h.rejected_eq, ← BitVec.ofNat_add]
    exact congrArg (BitVec.ofNat 32) (by omega)

theorem settled_zero (q : ℕ) : Settled q (fun _ => 0) Tables.zero.gJobs := by
  refine ⟨fun jobId hpos => absurd hpos (lt_irrefl 0), fun j jobId hj => ?_⟩
  cases (jobOcc_eq_some.mp hj).1

/-- The entry that `find_or_create_job` returns has the job's counts. -/
theorem Settled.found (h : Settled q demand g) (hg : JobsOk g)
    (hfind : findOrCreateJob g jobId = (g', some j)) : Counts q (demand jobId) (g' j) := by
  rcases findOrCreateJob_eq_some hg hfind with ⟨rfl, hj⟩ | ⟨rfl, -, habs, -⟩
  · exact (h.counts j jobId hj).2
  · -- a job without an entry has not asked for anything
    have hzero : demand jobId = 0 := by
      by_contra hpos
      obtain ⟨a, ha⟩ := h.tracked jobId (Nat.pos_of_ne_zero hpos)
      exact habs a ha
    rw [Function.update_self, hzero]
    exact counts_fresh q jobId

/-- The entry that is found is the job's. -/
theorem jobOcc_of_found (hg : JobsOk g) (hfind : findOrCreateJob g jobId = (g', some j)) :
    JobsOk g' ∧ jobOcc g' j = some jobId := by
  rcases findOrCreateJob_eq_some hg hfind with ⟨rfl, hj⟩ | ⟨rfl, -, -, hok⟩
  · exact ⟨hg, hj⟩
  · refine ⟨hok, ?_⟩
    rw [jobOcc_eq_some, Function.update_self]
    exact ⟨rfl, rfl⟩

/-- The other entries are as they were. -/
theorem jobOcc_found {a : JobIdx} {jobId' : BitVec 32} (hg : JobsOk g)
    (hfind : findOrCreateJob g jobId = (g', some j)) (hne : jobId' ≠ jobId) :
    (jobOcc g' a = some jobId' ↔ jobOcc g a = some jobId')
      ∧ (jobOcc g a = some jobId' → g' a = g a) := by
  rcases findOrCreateJob_eq_some hg hfind with ⟨rfl, -⟩ | ⟨rfl, hfree, -, -⟩
  · exact ⟨Iff.rfl, fun _ => rfl⟩
  · by_cases ha : a = j
    · subst ha
      rw [hfree, jobOcc_eq_some, Function.update_self]
      exact ⟨iff_of_false (fun h => hne h.2.symm) nofun, nofun⟩
    · rw [jobOcc, Function.update_of_ne ha]
      exact ⟨Iff.rfl, fun _ => rfl⟩

/-- When the entry that is found is rewritten and stays the job's, every other job has the entry it
had, as it was. -/
theorem jobOcc_rewrite {a : JobIdx} {jobId' : BitVec 32} (hg : JobsOk g)
    (hfind : findOrCreateJob g jobId = (g', some j)) (hu : e.inUse = (g' j).inUse)
    (hid : e.jobId = (g' j).jobId) (ha : jobOcc (Function.update g' j e) a = some jobId') :
    jobId' = jobId ∧ a = j
      ∨ jobId' ≠ jobId ∧ jobOcc g a = some jobId' ∧ Function.update g' j e a = g a := by
  obtain ⟨hg', hj⟩ := jobOcc_of_found hg hfind
  rw [jobOcc_update_of_same hu hid] at ha
  by_cases hjob : jobId' = jobId
  · exact .inl ⟨hjob, hg'.unique jobId a j (hjob ▸ ha) hj⟩
  · obtain ⟨hiff, heq⟩ := jobOcc_found (a := a) hg hfind hjob
    have haj : a ≠ j := by
      rintro rfl
      exact hjob (Option.some.inj (ha.symm.trans hj))
    have hbefore := hiff.mp ha
    exact .inr ⟨hjob, hbefore, (Function.update_of_ne haj _ _).trans (heq hbefore)⟩

/-- The job asks for one slot more, and its entry is rewritten to say so. -/
theorem Settled.step (h : Settled q demand g) (hg : JobsOk g)
    (hfind : findOrCreateJob g jobId = (g', some j)) (hj : jobOcc g' j = some jobId)
    (hu : e.inUse = true) (hid : e.jobId = jobId) (hcounts : Counts q (demand jobId + 1) e) :
    Settled q (Function.update demand jobId (demand jobId + 1)) (Function.update g' j e) := by
  obtain ⟨hju, hjid⟩ := jobOcc_eq_some.mp hj
  have hsameUse := hu.trans hju.symm
  have hsameId := hid.trans hjid.symm
  refine ⟨fun J hJ => ?_, fun a J ha => ?_⟩
  · rw [jobOcc_update_of_same hsameUse hsameId]
    by_cases hJj : J = jobId
    · exact ⟨j, hJj ▸ hj⟩
    · rw [Function.update_of_ne hJj] at hJ
      obtain ⟨a, ha⟩ := h.tracked J hJ
      exact ⟨a, (jobOcc_found hg hfind hJj).1.mpr ha⟩
  · rcases jobOcc_rewrite hg hfind hsameUse hsameId ha with ⟨rfl, rfl⟩ | ⟨hJj, hocc, heq⟩
    · rw [Function.update_self, Function.update_self]
      exact ⟨Nat.succ_pos _, hcounts⟩
    · rw [Function.update_of_ne hJj, heq]
      exact h.counts a J hocc

end

/-! ## Both tables -/

/-- The tables after the datagrams `ds`: every slot in use is of one of their keys, every job holds
its share, and the job table says so. -/
structure Contended (q : ℕ) (ds : List Bytes) (t : Tables) : Prop where
  keys : ∀ i k, t.occ i = some k → k ∈ ds.map fun d => (GradHdr.decode d).key
  held : ∀ jobId, (slotsOf t.occ jobId).card = min (demand ds jobId) q
  jobs : Settled q (demand ds) t.gJobs

/-- What the entry shows of a job that asked for `n` slots. -/
structure JobEntry.Shows (q n : ℕ) (e : JobEntry) : Prop where
  concurrentSlots_eq : e.concurrentSlots.toNat = min n q
  admittedCount_eq : e.admittedCount.toNat = min n q
  rejectedCount_eq : e.rejectedCount.toNat = n - min n q

theorem contended_zero (q : ℕ) : Contended q [] Tables.zero := by
  refine ⟨fun i k hk => ?_, fun jobId => ?_, settled_zero q⟩
  · rw [occ_zero] at hk
    cases hk
  · rw [slotsOf_zero, Finset.card_empty]
    exact (Nat.zero_min q).symm

section

variable {q : ℤ} {n : ℕ} {ev : Event} {t t' : Tables} {v : Verdict} {slot : Option SlotIdx}
  {sent : Option Bytes} {d : Bytes} {ds : List Bytes} {i : SlotIdx} {s : Slot} {g : Jobs} {j : JobIdx}

theorem Contended.jobsIn (h : Contended n ds t) : t.JobsIn (jobsIn ds) := by
  refine ⟨fun i k hk => ?_, fun j jobId hj => mem_jobsIn.mpr (h.jobs.counts j jobId hj).1⟩
  obtain ⟨d, hd, rfl⟩ := List.mem_map.mp (h.keys i k hk)
  exact List.mem_toFinset.mpr (List.mem_map_of_mem hd)

/-- While the shares leave room, some slot is free. -/
theorem Contended.hasRoom (h : Contended n ds t) {S : Finset (BitVec 32)}
    (hS : UserspaceAgg.jobsIn ds ⊆ S)
    (hroom : ∑ jobId ∈ S, min (demand ds jobId) n < slotTableCapacity) : t.HasRoom := by
  by_contra hfull
  have hused : ∀ i, ∃ k, t.occ i = some k := by
    intro i
    cases hocc : t.occ i with
    | none => exact absurd ⟨i, hocc⟩ hfull
    | some k => exact ⟨k, rfl⟩
  -- every slot belongs to one of the jobs
  have hcard := Finset.card_eq_sum_card_fiberwise (s := (Finset.univ : Finset SlotIdx)) (t := S)
    (f := fun i => (t.gSlots i).jobId) fun i _ => by
      obtain ⟨k, hk⟩ := hused i
      obtain ⟨-, rfl⟩ := Slot.occupant_eq_some.mp hk
      exact hS (h.jobsIn.slots i _ hk)
  have hfiber : ∀ jobId ∈ S, (Finset.univ.filter fun i => (t.gSlots i).jobId = jobId).card
      = min (demand ds jobId) n := by
    intro jobId _
    rw [← h.held jobId]
    refine congrArg Finset.card (Finset.ext fun i => ?_)
    obtain ⟨k, hk⟩ := hused i
    rw [Finset.mem_filter, mem_slotsOf]
    simp [(Slot.occupant_eq_some.mp hk).1]
  rw [Finset.sum_congr rfl hfiber, Finset.card_univ, Fintype.card_fin] at hcard
  omega

/-- 256 jobs all fit into the job table. -/
theorem Contended.jobFits (h : Contended n ds t) (ht : t.Accounted)
    (hds : Contention n (ds ++ [d])) : JobFits t.gJobs (GradHdr.decode d).jobId := by
  have hS := h.jobsIn
  have hsub := jobsIn_subset_concat ds d
  have hin : t.JobsIn (UserspaceAgg.jobsIn (ds ++ [d])) :=
    ⟨fun i k hk => hsub (hS.slots i k hk), fun j a hj => hsub (hS.entries j a hj)⟩
  apply hin.jobFits ht hds.jobs_le
  exact List.mem_toFinset.mpr (List.mem_map_of_mem (List.mem_append_right _ (List.mem_singleton_self d)))

/-- No slot is in use for the key of the next datagram. -/
theorem Contended.absent (h : Contended n ds t) (hds : Contention n (ds ++ [d])) (i : SlotIdx) :
    t.occ i ≠ some (GradHdr.decode d).key := by
  intro hi
  have hdistinct := hds.distinct
  rw [List.map_append, List.map_singleton, List.nodup_append] at hdistinct
  exact hdistinct.2.2 _ (h.keys i _ hi) _ (List.mem_singleton_self _) rfl

theorem Contended.keys_concat (h : Contended n ds t) (d : Bytes) (i : SlotIdx) {k : GradSlotKey}
    (hk : t.occ i = some k) : k ∈ (ds ++ [d]).map fun d => (GradHdr.decode d).key := by
  rw [List.map_append]
  exact List.mem_append_left _ (h.keys i k hk)

/-- The entry that is found for a job has the job's counts, and is over the quota exactly if the job
has asked for that many slots. -/
theorem Contended.found (h : Contended q.toNat ds t) (ht : t.Accounted) (hq : 0 < q)
    (hq32 : q < 2 ^ 32) {jobId : BitVec 32} (hfind : findOrCreateJob t.gJobs jobId = (g, some j)) :
    jobOcc g j = some jobId ∧ Counts q.toNat (demand ds jobId) (g j)
      ∧ (OverQuota q (g j) ↔ q.toNat ≤ demand ds jobId) := by
  obtain ⟨hg, hj, hid⟩ := ht.findOrCreateJob_some hfind
  have hmod : q % 2 ^ 32 = q := Int.emod_eq_of_lt hq.le hq32
  refine ⟨jobOcc_eq_some.mpr ⟨hj, hid⟩, h.jobs.found ht.jobsOk hfind, ?_⟩
  rw [overQuota_iff hg hj, hid, h.held, hmod]
  omega

/-- A slot just opened for two workers lacks one. -/
theorem lt_fanIn_of_opened (hn : (GradHdr.decode d).numWorkers = 2) (now₁ now₂ : ℤ) :
    let s := ((Slot.fresh (GradHdr.decode d).key).latch (GradHdr.decode d) now₁).accumulate
      (GradHdr.decode d) (valueAt d) now₂
    s.tally.count < s.tally.fanIn := by
  intro s
  have hfan : s.tally.fanIn = (GradHdr.decode d).numWorkers.toNat := rfl
  have hcount : s.tally.count = 1 := rfl
  rw [hfan, hcount, hn]
  decide

/-- Below the quota the datagram takes a slot. -/
theorem Contended.fill (h : Contended n ds t) (hfree : t.occ i = none)
    (hs : s.occupant = some (GradHdr.decode d).key) (hlt : demand ds (GradHdr.decode d).jobId < n)
    (hjobs : Settled n (Function.update (demand ds) (GradHdr.decode d).jobId
      (demand ds (GradHdr.decode d).jobId + 1)) g) :
    Contended n (ds ++ [d]) ⟨Function.update t.gSlots i s, g⟩ := by
  rw [← demand_concat] at hjobs
  refine ⟨fun a k hk => ?_, fun jobId => ?_, hjobs⟩
  · rw [occ_update, hs] at hk
    by_cases ha : a = i
    · rw [ha, Function.update_self, Option.some.injEq] at hk
      rw [← hk]
      exact List.mem_map_of_mem (List.mem_append_right _ (List.mem_singleton_self d))
    · rw [Function.update_of_ne ha] at hk
      exact h.keys_concat d a hk
  · rw [occ_update, hs, card_slotsOf_fill hfree, h.held, demand_concat, GradHdr.jobId_key]
    by_cases hjob : jobId = (GradHdr.decode d).jobId
    · rw [hjob, Function.update_self, if_pos rfl]
      omega
    · rw [Function.update_of_ne hjob, if_neg (Ne.symm hjob), Nat.add_zero]

/-- At the quota it takes none. -/
theorem Contended.refuse (h : Contended n ds t) (hle : n ≤ demand ds (GradHdr.decode d).jobId)
    (hjobs : Settled n (Function.update (demand ds) (GradHdr.decode d).jobId
      (demand ds (GradHdr.decode d).jobId + 1)) g) :
    Contended n (ds ++ [d]) ⟨t.gSlots, g⟩ := by
  rw [← demand_concat] at hjobs
  refine ⟨fun a k hk => h.keys_concat d a hk, fun jobId => ?_, hjobs⟩
  apply (h.held jobId).trans
  rw [demand_concat]
  by_cases hjob : jobId = (GradHdr.decode d).jobId
  · rw [hjob, Function.update_self]
    omega
  · rw [Function.update_of_ne hjob]

/-- An accepted datagram opens a slot, which another worker has still to fill. -/
theorem Accepts.contended (hacc : Accepts q ev t d i s g) (ht : t.Accounted) (hq : 0 < q)
    (hq32 : q < 2 ^ 32) (hc : Contended q.toNat ds t) (hds : Contention q.toNat (ds ++ [d])) :
    Contended q.toNat (ds ++ [d]) ⟨Function.update t.gSlots i s, g⟩
      ∧ s.tally.count < s.tally.fanIn := by
  have hoccupant := hacc.occupant.1
  cases hacc with
  | joined hprobe hocc hlen hseen => exact absurd hocc (hc.absent hds _)
  | opened hprobe hocc hjobs =>
    have hn := hds.numWorkers_eq d (List.mem_append_right _ (List.mem_singleton_self d))
    refine ⟨?_, lt_fanIn_of_opened hn _ _⟩
    cases hjobs with
    | untracked hfind =>
      have hfull := (ht.findOrCreateJob_none hfind).2
      obtain ⟨j, hj | hj⟩ := hc.jobFits ht hds
      · exact absurd hj (hfull j).1
      · exact absurd hj (hfull j).2
    | tracked hfind hquota =>
      obtain ⟨hj, hcounts, hover⟩ := hc.found ht hq hq32 hfind
      rw [hover, not_le] at hquota
      have hentry := jobOcc_eq_some.mp hj
      exact hc.fill hocc hoccupant hquota
        (hc.jobs.step ht.jobsOk hfind hj hentry.1 hentry.2 (hcounts.acquire hquota))

/-- The next datagram is admitted below the quota and refused at it. -/
theorem Effect.contended (h : Effect q ev t t' v slot sent) (ht : t.Accounted)
    (hrecv : ev.received = some d) (hq : 0 < q) (hq32 : q < 2 ^ 32)
    (hc : Contended q.toNat ds t) (hds : Contention q.toNat (ds ++ [d])) :
    Contended q.toNat (ds ++ [d]) t' := by
  have hd := hds.wellFormed d (List.mem_append_right _ (List.mem_singleton_self d))
  cases h with
  | idle hr => rw [hrecv] at hr; cases hr
  | screened hr hscreen =>
    rw [received_unique hrecv hr, screen_of_wellFormed hd] at hscreen
    cases hscreen
  | full hr hd' hfull =>
    obtain ⟨i, hi⟩ := hc.hasRoom (jobsIn_subset_concat ds d) hds.room_concat
    exact absurd hi (hfull i).1
  | mismatch hr hd' hprobe hocc hlen =>
    obtain rfl := (received_unique hrecv hr).symm
    exact absurd hocc (hc.absent hds _)
  | duplicate hr hd' hprobe hocc hlen hseen =>
    obtain rfl := (received_unique hrecv hr).symm
    exact absurd hocc (hc.absent hds _)
  | absorbed hr hd' hacc hlt =>
    obtain rfl := (received_unique hrecv hr).symm
    exact (hacc.contended ht hq hq32 hc hds).1
  | complete hr hd' hacc hge hsent =>
    obtain rfl := (received_unique hrecv hr).symm
    exact absurd (hacc.contended ht hq hq32 hc hds).2 hge
  | refused hr hd' hprobe hocc hfind hquota =>
    obtain rfl := (received_unique hrecv hr).symm
    obtain ⟨hj, hcounts, hover⟩ := hc.found ht hq hq32 hfind
    have hle := hover.mp hquota
    have hentry := jobOcc_eq_some.mp hj
    exact hc.refuse hle
      (hc.jobs.step ht.jobsOk hfind hj hentry.1 hentry.2 (hcounts.reject hle))

end

theorem Contended.concurrentSlots_eq {n : ℕ} {ds : List Bytes} {t : Tables} (h : Contended n ds t)
    (ht : t.Accounted) {j : JobIdx} {jobId : BitVec 32} (hj : jobOcc t.gJobs j = some jobId) :
    (t.gJobs j).concurrentSlots.toNat = min (demand ds jobId) n := by
  obtain ⟨hu, hid⟩ := jobOcc_eq_some.mp hj
  rw [ht.count_eq j hu, hid, h.held]

/-- The entry of a job shows its share, unless the refusals wrap around. -/
theorem Contended.shows_iff {n : ℕ} {ds : List Bytes} {t : Tables} (h : Contended n ds t)
    (ht : t.Accounted) (hds : Contention n ds) {j : JobIdx} {jobId : BitVec 32}
    (hj : jobOcc t.gJobs j = some jobId) :
    (t.gJobs j).Shows n (demand ds jobId)
      ↔ demand ds jobId - min (demand ds jobId) n < 2 ^ 32 := by
  obtain ⟨hpos, hcounts⟩ := h.jobs.counts j jobId hj
  -- a share is less than the slot table
  have hshare : min (demand ds jobId) n < slotTableCapacity :=
    (Finset.single_le_sum (f := fun J => min (demand ds J) n) (fun _ _ => Nat.zero_le _)
      (mem_jobsIn.mpr hpos)).trans_lt hds.room
  have hadmitted : (t.gJobs j).admittedCount.toNat = min (demand ds jobId) n := by
    rw [hcounts.admitted_eq, BitVec.toNat_ofNat]
    simp only [slotTableCapacity] at hshare
    omega
  have hrejected : (t.gJobs j).rejectedCount.toNat
      = (demand ds jobId - min (demand ds jobId) n) % 2 ^ 32 := by
    rw [hcounts.rejected_eq, BitVec.toNat_ofNat]
  constructor
  · intro hshows
    have hlt := (t.gJobs j).rejectedCount.isLt
    rwa [hshows.rejectedCount_eq] at hlt
  · intro hlt
    exact ⟨h.concurrentSlots_eq ht hj, hadmitted, hrejected.trans (Nat.mod_eq_of_lt hlt)⟩

/-! ## Runs -/

theorem datagramsIn_concat (es : List Event) (ev : Event) :
    datagramsIn (es ++ [ev]) = datagramsIn es ++ ev.received.toList := by
  rw [datagramsIn, List.filterMap_append]
  cases h : ev.received with
  | none => simp [h, datagramsIn]
  | some d => simp [h, datagramsIn]

/-- One iteration, with the reaper off. -/
theorem Contended.mainStep {args : Args} {st : State} {ds : List Bytes} (hq : 0 < args.gJobQuota)
    (hq32 : args.gJobQuota < 2 ^ 32) (httl : args.slotTtlMs = 0) (hok : st.tables.Ok)
    (hacct : st.tables.Accounted) (h : Contended args.gJobQuota.toNat ds st.tables) (ev : Event)
    (hds : Contention args.gJobQuota.toNat (ds ++ ev.received.toList)) :
    Contended args.gJobQuota.toNat (ds ++ ev.received.toList)
      (UserspaceAgg.mainStep args st ev).1.tables := by
  have heff := mainStep_effect_of_ok args hok ev
  rw [reapPhase_of_ttl_zero httl] at heff
  cases hrecv : ev.received with
  | none =>
    -- an idle iteration
    rw [Option.toList_none, List.append_nil, heff.tables_of_idle hrecv]
    exact h
  | some d =>
    rw [hrecv] at hds
    exact heff.contended hacct hrecv hq hq32 h hds

theorem contended_run (args : Args) (hq : 0 < args.gJobQuota) (hq32 : args.gJobQuota < 2 ^ 32)
    (httl : args.slotTtlMs = 0) (inPacket outPacket : Buffer) (now : ℤ) {es : List Event}
    (hds : Contention args.gJobQuota.toNat (datagramsIn es)) :
    Contended args.gJobQuota.toNat (datagramsIn es)
      (runState (mainStep args) (State.init inPacket outPacket now) es).tables := by
  induction es using List.reverseRecOn with
  | nil => exact contended_zero _
  | append_singleton es ev ih =>
    have hprefix : Contention args.gJobQuota.toNat (datagramsIn es) := by
      rw [datagramsIn_concat] at hds
      cases hrecv : ev.received with
      | none => rwa [hrecv, Option.toList_none, List.append_nil] at hds
      | some d =>
        rw [hrecv] at hds
        exact hds.of_concat
    obtain ⟨hok, hacct⟩ := accounted_init args inPacket outPacket now es
    rw [datagramsIn_concat] at hds ⊢
    rw [runState_append]
    exact (ih hprefix).mainStep hq hq32 httl hok hacct ev hds

/-- **Contended admission.** With a quota and the reaper off, after every interleaving of the jobs'
first datagrams, every job that sent any has exactly one entry, which shows its share of slots as
held and admitted and the rest as rejected, if and only if no job had `2 ^ 32` refusals. -/
theorem contended_admission_iff (args : Args) (hq : 0 < args.gJobQuota)
    (hq32 : args.gJobQuota < 2 ^ 32) (httl : args.slotTtlMs = 0) (inPacket outPacket : Buffer)
    (now : ℤ) (es : List Event) :
    let q := args.gJobQuota.toNat
    let ds := datagramsIn es
    let g := (runState (mainStep args) (State.init inPacket outPacket now) es).tables.gJobs
    Contention q ds →
    ((∀ jobId ∈ jobsIn ds, ∃ j, (∀ a, jobOcc g a = some jobId ↔ a = j)
        ∧ (g j).Shows q (demand ds jobId))
      ↔ ∀ jobId ∈ jobsIn ds, demand ds jobId - min (demand ds jobId) q < 2 ^ 32) := by
  intro q ds g hds
  have hrun := contended_run args hq hq32 httl inPacket outPacket now hds
  have hacct := (accounted_init args inPacket outPacket now es).2
  apply forall₂_congr
  intro jobId hjob
  constructor
  · rintro ⟨j, hentry, hshows⟩
    exact (hrun.shows_iff hacct hds ((hentry j).mpr rfl)).mp hshows
  · intro hlt
    obtain ⟨j, hj⟩ := hrun.jobs.tracked jobId (mem_jobsIn.mp hjob)
    refine ⟨j, fun a => ⟨fun ha => ?_, fun ha => ha ▸ hj⟩,
      (hrun.shows_iff hacct hds hj).mpr hlt⟩
    exact hacct.jobsOk.unique jobId a j ha hj

/-! ## One job alone -/

/-- The first datagram of the `n`-th key of job 1. -/
def opener (n : ℕ) : Bytes :=
  workerPacket ⟨1, BitVec.ofNat 32 (n / 2 ^ 32), BitVec.ofNat 32 n, 0, 2, 1, 0⟩ fun _ => 0

/-- The first `n` of them. -/
def flood (n : ℕ) : List Event := (List.range n).map fun i => .deliver (opener i)

theorem decode_opener (n : ℕ) : GradHdr.decode (opener n)
    = ⟨1, BitVec.ofNat 32 (n / 2 ^ 32), BitVec.ofNat 32 n, 0, 2, 1, 0⟩ :=
  (decode_workerPacket (by decide : (1#16).toNat ≤ 64) _).2.1

theorem wellFormed_opener (n : ℕ) : WellFormed (opener n) :=
  wellFormed_workerPacket (by decide : (1#16).toNat ≤ 64) (by decide : (0#16).toNat < 256)
    (by decide : 1 ≤ (2#16).toNat) (by decide : (2#16).toNat ≤ 256) _

theorem datagramsIn_flood (n : ℕ) : datagramsIn (flood n) = (List.range n).map opener := by
  rw [datagramsIn, flood, List.filterMap_map]
  exact congrFun (List.filterMap_eq_map (f := opener)) _

theorem demand_flood (n : ℕ) : demand (datagramsIn (flood n)) 1 = n := by
  rw [datagramsIn_flood, demand, List.countP_map, List.countP_eq_length.mpr, List.length_range]
  intro i hi
  simp [decode_opener]

theorem jobsIn_flood (n : ℕ) : jobsIn (datagramsIn (flood n)) ⊆ {1} := by
  intro jobId hjob
  rw [datagramsIn_flood, jobsIn, List.map_map, List.mem_toFinset, List.mem_map] at hjob
  obtain ⟨i, -, rfl⟩ := hjob
  rw [Function.comp_apply, decode_opener]
  exact Finset.mem_singleton_self _

theorem contention_flood {q n : ℕ} (hn : n ≤ 2 ^ 64) (hroom : min n q < slotTableCapacity) :
    Contention q (datagramsIn (flood n)) := by
  have hmem : ∀ d ∈ datagramsIn (flood n), ∃ i, opener i = d := by
    intro d hd
    rw [datagramsIn_flood, List.mem_map] at hd
    obtain ⟨i, -, hi⟩ := hd
    exact ⟨i, hi⟩
  refine ⟨fun d hd => ?_, fun d hd => ?_, fun d hd => ?_, ?_, ?_, ?_⟩
  · obtain ⟨i, rfl⟩ := hmem d hd
    exact wellFormed_opener i
  · obtain ⟨i, rfl⟩ := hmem d hd
    rw [decode_opener]
  · obtain ⟨i, rfl⟩ := hmem d hd
    rw [decode_opener]
  · rw [datagramsIn_flood, List.map_map]
    apply List.Nodup.map_on _ List.nodup_range
    intro a ha b hb hab
    rw [List.mem_range] at ha hb
    -- the round and the chunk are the two halves of the index
    simp only [Function.comp_apply, decode_opener] at hab
    have hround := congrArg (fun k : GradSlotKey => k.round.toNat) hab
    have hchunk := congrArg (fun k : GradSlotKey => k.chunkId.toNat) hab
    simp only [GradHdr.key, BitVec.toNat_ofNat] at hround hchunk
    omega
  · exact (Finset.card_le_card (jobsIn_flood n)).trans (by decide)
  · refine (Finset.sum_le_sum_of_subset (jobsIn_flood n)).trans_lt ?_
    rw [Finset.sum_singleton, demand_flood]
    exact hroom

/-- Two datagrams, and room for one. -/
theorem flood_two_shown :
    let g := (runState (mainStep ⟨1, 0⟩) (State.init Buffer.zero Buffer.zero 0)
      (flood 2)).tables.gJobs
    ∀ jobId ∈ jobsIn (datagramsIn (flood 2)), ∃ j, (∀ a, jobOcc g a = some jobId ↔ a = j)
      ∧ (g j).Shows 1 (demand (datagramsIn (flood 2)) jobId) := by
  refine (contended_admission_iff ⟨1, 0⟩ (by decide) (by decide) rfl Buffer.zero Buffer.zero 0
    (flood 2) (contention_flood (by decide) (by decide))).mpr fun jobId hjob => ?_
  obtain rfl := Finset.mem_singleton.mp (jobsIn_flood 2 hjob)
  rw [demand_flood]
  decide

/-- With quota 1 and `2 ^ 32` refusals, the counter shows none. -/
theorem flood_unshown {n : ℕ} (hn : n ≤ 2 ^ 64) (hrefused : n - min n 1 = 2 ^ 32) :
    let ds := datagramsIn (flood n)
    let g := (runState (mainStep ⟨1, 0⟩) (State.init Buffer.zero Buffer.zero 0)
      (flood n)).tables.gJobs
    Contention 1 ds ∧ demand ds 1 = n ∧ (∃ j, jobOcc g j = some 1 ∧ (g j).rejectedCount = 0)
      ∧ ¬ ∀ jobId ∈ jobsIn ds, ∃ j, (∀ a, jobOcc g a = some jobId ↔ a = j)
        ∧ (g j).Shows 1 (demand ds jobId) := by
  intro ds g
  have hdemand : demand ds 1 = n := demand_flood n
  have hds : Contention 1 ds :=
    contention_flood hn (lt_of_le_of_lt (min_le_right n 1) (by decide))
  have hrun : Contended 1 ds _ :=
    contended_run ⟨1, 0⟩ (by decide) (by decide) rfl Buffer.zero Buffer.zero 0 hds
  have hpos : 0 < demand ds 1 := by omega
  obtain ⟨j, hj⟩ := hrun.jobs.tracked 1 hpos
  have hzero : (g j).rejectedCount = 0 := by
    refine (hrun.jobs.counts j 1 hj).2.rejected_eq.trans ?_
    rw [hdemand, hrefused]
    rfl
  refine ⟨hds, hdemand, ⟨j, hj, hzero⟩, fun h => ?_⟩
  obtain ⟨a, hentry, hshows⟩ := h 1 (mem_jobsIn.mpr hpos)
  have hrej := hshows.rejectedCount_eq
  rw [← (hentry j).mp hj, hzero, hdemand, hrefused] at hrej
  exact absurd hrej (by decide)

/-- **A wrapped count.** With quota 1, after `2 ^ 32 + 1` first datagrams of one job the counter of
the `2 ^ 32` refusals shows none. -/
theorem flood_wraps :
    let ds := datagramsIn (flood (2 ^ 32 + 1))
    let g := (runState (mainStep ⟨1, 0⟩) (State.init Buffer.zero Buffer.zero 0)
      (flood (2 ^ 32 + 1))).tables.gJobs
    Contention 1 ds ∧ demand ds 1 = 2 ^ 32 + 1
      ∧ (∃ j, jobOcc g j = some 1 ∧ (g j).rejectedCount = 0)
      ∧ ¬ ∀ jobId ∈ jobsIn ds, ∃ j, (∀ a, jobOcc g a = some jobId ↔ a = j)
        ∧ (g j).Shows 1 (demand ds jobId) :=
  flood_unshown (by norm_num) (by norm_num)

end NetSum.UserspaceAgg
