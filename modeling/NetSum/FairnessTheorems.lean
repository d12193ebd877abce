import NetSum.Scripts.FairnessSweep
import NetSum.UserspaceAgg.ContentionTheorems

/-!
# The fairness sweep

`scripts/fairness_sweep.py` lets jobs contend for slots, reads from the lines of `dump_job_stats` how
many slots each job holds, and rates the outcome by Jain's index. What it reads are the jobs'
demands up to the quota (`trialIndex_contended`). So in whatever order the datagrams arrive, a lower
quota never rates worse than a higher one or none (`trialIndex_antitone`).
-/

namespace NetSum

open NetSum.Lib NetSum.Protocol UserspaceAgg Scripts

/-- The lines that `dump_job_stats` prints. -/
def UserspaceAgg.dumpJobStats (g : Jobs) : List JobEntry :=
  ((List.finRange jobTableCapacity).map g).filter fun e => e.inUse

/-- `found[job_id]["concurrent_slots"]`. Of two lines for one job the later one counts. -/
def Scripts.foundSlots (stats : List JobEntry) (jobId : BitVec 32) : Option ℕ :=
  (stats.reverse.find? fun e => e.jobId = jobId).map fun e => e.concurrentSlots.toNat

/-- The index of a trial; `none` is the `RuntimeError` for a job without a line. -/
def Scripts.trialIndex (g : Jobs) (jobs : List (BitVec 32)) : Option ℚ :=
  (jobs.mapM (foundSlots (dumpJobStats g))).map jainsIndex

theorem mem_dumpJobStats {g : Jobs} {e : JobEntry} :
    e ∈ dumpJobStats g ↔ e.inUse = true ∧ ∃ j, g j = e := by
  simp [dumpJobStats, and_comm]

/-- An entry has its line, and no other job's line is taken for it. -/
theorem find_dumpJobStats {g : Jobs} (hg : JobsOk g) {jobId : BitVec 32} {e : JobEntry} :
    ((dumpJobStats g).reverse.find? fun e => e.jobId = jobId) = some e
      ↔ ∃ j, jobOcc g j = some jobId ∧ g j = e := by
  have hsound : ∀ e, ((dumpJobStats g).reverse.find? fun e => e.jobId = jobId) = some e →
      ∃ j, jobOcc g j = some jobId ∧ g j = e := by
    intro e hfind
    have hid : e.jobId = jobId :=
      of_decide_eq_true (List.find?_some (p := fun e : JobEntry => e.jobId = jobId) hfind)
    have hmem := List.mem_reverse.mp (List.mem_of_find?_eq_some hfind)
    obtain ⟨hu, j, rfl⟩ := mem_dumpJobStats.mp hmem
    exact ⟨j, jobOcc_eq_some.mpr ⟨hu, hid⟩, rfl⟩
  refine ⟨hsound e, ?_⟩
  rintro ⟨j, hj, rfl⟩
  obtain ⟨hu, hid⟩ := jobOcc_eq_some.mp hj
  cases hfind : (dumpJobStats g).reverse.find? fun e => e.jobId = jobId with
  | none =>
    rw [List.find?_eq_none] at hfind
    have hmem := List.mem_reverse.mpr (mem_dumpJobStats.mpr ⟨hu, j, rfl⟩)
    exact absurd (decide_eq_true hid) (hfind (g j) hmem)
  | some e =>
    obtain ⟨a, ha, rfl⟩ := hsound e hfind
    rw [hg.unique jobId a j ha hj]

theorem foundSlots_dumpJobStats {g : Jobs} (hg : JobsOk g) {j : JobIdx} {jobId : BitVec 32}
    (hj : jobOcc g j = some jobId) :
    foundSlots (dumpJobStats g) jobId = some (g j).concurrentSlots.toNat := by
  rw [foundSlots, (find_dumpJobStats hg).mpr ⟨j, hj, rfl⟩]
  rfl

theorem mapM_eq_some {α β : Type} {f : α → Option β} {g : α → β} {l : List α}
    (h : ∀ a ∈ l, f a = some (g a)) : l.mapM f = some (l.map g) := by
  induction l with
  | nil => rfl
  | cons a l ih =>
    rw [List.mapM_cons, h a List.mem_cons_self, ih fun b hb => h b (List.mem_cons_of_mem a hb)]
    rfl

section

variable {args args₁ args₂ : Args} {es es₁ es₂ : List Event} {jobs : List (BitVec 32)}

/-- What a trial reads and rates, when every job on its list has sent something. -/
theorem trialIndex_contended (hq : 0 < args.gJobQuota) (hq32 : args.gJobQuota < 2 ^ 32)
    (httl : args.slotTtlMs = 0) (inPacket outPacket : Buffer) (now : ℤ)
    (hds : Contention args.gJobQuota.toNat (datagramsIn es))
    (hjobs : ∀ jobId ∈ jobs, jobId ∈ jobsIn (datagramsIn es)) :
    trialIndex (runState (mainStep args) (State.init inPacket outPacket now) es).tables.gJobs jobs
      = some (jainsIndex ((jobs.map (demand (datagramsIn es))).map fun v =>
        min v args.gJobQuota.toNat)) := by
  have hrun := contended_run args hq hq32 httl inPacket outPacket now hds
  have hacct := (accounted_init args inPacket outPacket now es).2
  have hfound : ∀ jobId ∈ jobs, foundSlots (dumpJobStats
      (runState (mainStep args) (State.init inPacket outPacket now) es).tables.gJobs) jobId
        = some (min (demand (datagramsIn es) jobId) args.gJobQuota.toNat) := by
    intro jobId hjob
    obtain ⟨j, hj⟩ := hrun.jobs.tracked jobId (mem_jobsIn.mp (hjobs jobId hjob))
    rw [foundSlots_dumpJobStats hacct.jobsOk hj, hrun.concurrentSlots_eq hacct hj]
  rw [trialIndex, mapM_eq_some hfound, List.map_map]
  rfl

/-- **Fairness of the quota.** Of two trials of the same demands, the one with the lower quota rates
no worse, and both rate no worse than the demands themselves. -/
theorem trialIndex_antitone (hq : 0 < args₁.gJobQuota) (hle : args₁.gJobQuota ≤ args₂.gJobQuota)
    (hq32 : args₂.gJobQuota < 2 ^ 32) (httl₁ : args₁.slotTtlMs = 0) (httl₂ : args₂.slotTtlMs = 0)
    (inPacket outPacket : Buffer) (now : ℤ)
    (hds₁ : Contention args₁.gJobQuota.toNat (datagramsIn es₁))
    (hds₂ : Contention args₂.gJobQuota.toNat (datagramsIn es₂))
    (hsame : ∀ jobId ∈ jobs, demand (datagramsIn es₁) jobId = demand (datagramsIn es₂) jobId)
    (hne : jobs ≠ []) (hjobs : ∀ jobId ∈ jobs, 0 < demand (datagramsIn es₁) jobId) :
    let g₁ := (runState (mainStep args₁) (State.init inPacket outPacket now) es₁).tables.gJobs
    let g₂ := (runState (mainStep args₂) (State.init inPacket outPacket now) es₂).tables.gJobs
    ∃ r₁ r₂, trialIndex g₁ jobs = some r₁ ∧ trialIndex g₂ jobs = some r₂ ∧ r₂ ≤ r₁
      ∧ jainsIndex (jobs.map (demand (datagramsIn es₁))) ≤ r₂ := by
  have htrial₁ := trialIndex_contended hq (hle.trans_lt hq32) httl₁ inPacket outPacket now hds₁
    fun jobId hjob => mem_jobsIn.mpr (hjobs jobId hjob)
  have htrial₂ := trialIndex_contended (hq.trans_le hle) hq32 httl₂ inPacket outPacket now hds₂
    fun jobId hjob => mem_jobsIn.mpr (hsame jobId hjob ▸ hjobs jobId hjob)
  rw [← List.map_congr_left hsame] at htrial₂
  have hd : NotAllZero (jobs.map (demand (datagramsIn es₁))) := by
    obtain ⟨jobId, hjob⟩ := List.exists_mem_of_ne_nil jobs hne
    exact ⟨_, List.mem_map_of_mem hjob, (hjobs jobId hjob).ne'⟩
  exact ⟨_, _, htrial₁, htrial₂, jainsIndex_min_antitone hd (by omega) (by omega),
    jainsIndex_le_of_quota hd (by omega)⟩

end

end NetSum
