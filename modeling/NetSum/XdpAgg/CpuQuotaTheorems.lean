import NetSum.XdpAgg.CpuTheorems

/-!
# Quotas under concurrency

What `concurrent_slots` counts when several CPUs run the program. A slot is created and counted in
two steps, and deleted and uncounted in two steps, so the counter differs from the number of slots
by what CPUs have still to count and to uncount (`Balanced`). It is off for good if a CPU never
counts the slot it created, or uncounts what was not counted (`uncountedRun_undercounts`); as long
as neither happens (`CountedOnce`), it is exact whenever no CPU is in the program
(`accounted_of_countedOnce`).

The admission check reads the counter before the slot is created, so two CPUs may both be let past
it (`racedRun_exceeds`). A quota is kept as long as a CPU is let past the check for a key only while
fewer other keys of the job than the quota have a slot or are about to get one
(`quota_of_admittedBelow`). That is so if the counter that the CPU reads counts them all
(`CounterCurrent.admittedBelow`), or if the job has no more keys (`KeysWithin.admittedBelow`).
-/

namespace NetSum.XdpAgg

open NetSum.Lib NetSum.Protocol NetSum.Aggregation

/-! ## Counts -/

/-- The slots of a job. -/
def SharedMaps.slotCount (sh : SharedMaps) (jobId : BitVec 32) : ℕ :=
  sh.slotMap.count fun k => decide (k.jobId = jobId)

theorem SharedMaps.slotCount_link (sh : SharedMaps) {key : GradSlotKey} {slot : Elem}
    (hk : sh.slotMap key = none) (hslot : sh.slotMap.owner slot = none) (slots : Elem → GradSlot)
    (jobId : BitVec 32) :
    SharedMaps.slotCount { sh with slotMap := sh.slotMap.link key slot hk hslot, slots } jobId
      = sh.slotCount jobId + if key.jobId = jobId then 1 else 0 := by
  unfold SharedMaps.slotCount
  rw [Pool.count_link]
  simp only [decide_eq_true_eq]

/-- A deletion that finds the key, and only that, frees a slot of its job. -/
theorem SharedMaps.slotCount_deleteSlot (sh : SharedMaps) (key : GradSlotKey) (jobId : BitVec 32) :
    (sh.deleteSlot key).1.slotCount jobId
        + (if (sh.deleteSlot key).2 = 0 ∧ key.jobId = jobId then 1 else 0)
      = sh.slotCount jobId := by
  unfold SharedMaps.slotCount SharedMaps.deleteSlot
  cases hk : sh.slotMap key with
  | none => simp [Pool.unlink_of_none hk]
  | some e =>
    rw [← Pool.count_unlink hk]
    simp only [Option.isSome_some, if_true, true_and, decide_eq_true_eq]

/-- The number of slots that `job_quota_map` has for a job, `0` without an entry. -/
def quotaCount (m : BoundedMap (BitVec 32) JobQuotaEntry jobQuotaMapEntries) (jobId : BitVec 32) :
    BitVec 32 :=
  match m.lookup jobId with
  | some jq => jq.concurrentSlots
  | none => 0

/-- Whether a CPU has created a slot of the job and not counted it yet. -/
def Cpu.uncounted (jobId : BitVec 32) : Cpu → ℕ
  | .busy _ p (.relookup createRc) => if createRc = 0 ∧ p.key.jobId = jobId then 1 else 0
  | .busy _ p (.increment _ _) => if p.key.jobId = jobId then 1 else 0
  | _ => 0

/-- Whether a CPU has deleted a slot of the job and not uncounted it yet. -/
def Cpu.unreleased (jobId : BitVec 32) : Cpu → ℕ
  | .busy _ p (.decrement _ _ deleteRc _) => if deleteRc = 0 ∧ p.key.jobId = jobId then 1 else 0
  | _ => 0

/-! ## The two functions on a counter -/

section

variable {m m' : BoundedMap (BitVec 32) JobQuotaEntry jobQuotaMapEntries} {jobId : BitVec 32}

theorem quotaCount_of_some {jq : JobQuotaEntry} (h : m.lookup jobId = some jq) :
    quotaCount m jobId = jq.concurrentSlots := by
  rw [quotaCount, h]

theorem quotaCount_of_none (h : m.lookup jobId = none) : quotaCount m jobId = 0 := by
  rw [quotaCount, h]

/-- An atomic add to an entry that is there. -/
theorem quotaCount_modify {n : BitVec 32} (h : (m.lookup jobId).isSome) (a : BitVec 32) :
    quotaCount (m.modify jobId (.add n)) a = quotaCount m a + if a = jobId then n else 0 := by
  obtain ⟨jq, hjq⟩ := Option.isSome_iff_exists.mp h
  by_cases ha : a = jobId
  · subst ha
    rw [if_pos rfl, quotaCount_of_some hjq]
    refine (quotaCount_of_some ?_ : _ = (jq.add n).concurrentSlots)
    rw [BoundedMap.lookup_modify, if_pos rfl, hjq]
    rfl
  · rw [if_neg ha, add_zero, quotaCount, quotaCount, BoundedMap.lookup_modify, if_neg ha]

/-- A step of `job_quota_increment` that is not its last one. -/
theorem IncPc.step_some {pc pc' : IncPc} (h : pc.step m jobId = (m', some pc')) :
    m' = m ∧ (pc' = .add → (m.lookup jobId).isSome)
      ∧ (pc' = .relookup → m.size < jobQuotaMapEntries → (m.lookup jobId).isSome) := by
  cases pc with
  | lookup =>
    rw [IncPc.step, Prod.mk.injEq, Option.some.injEq] at h
    obtain ⟨rfl, rfl⟩ := h
    refine ⟨rfl, fun hadd => ?_, fun hre => ?_⟩
    · by_contra hnone
      rw [if_neg hnone] at hadd
      cases hadd
    · split at hre <;> cases hre
  | update =>
    rw [IncPc.step] at h
    -- an update that fails found an entry or a full map
    cases hlookup : m.lookup jobId with
    | some jq =>
      rw [bpfMapUpdateElem_of_some hlookup] at h
      cases h
      exact ⟨rfl, nofun, fun _ _ => rfl⟩
    | none =>
      by_cases hroom : m.size < jobQuotaMapEntries
      · rw [bpfMapUpdateElem_of_room hlookup hroom] at h
        cases h
      · rw [bpfMapUpdateElem_of_full hlookup hroom] at h
        cases h
        exact ⟨rfl, nofun, fun _ hlt => absurd hlt hroom⟩
  | relookup =>
    rw [IncPc.step, Prod.mk.injEq] at h
    obtain ⟨rfl, h⟩ := h
    split at h
    · next hsome => exact ⟨rfl, fun _ => hsome, fun _ _ => hsome⟩
    · cases h
  | add =>
    rw [IncPc.step, Prod.mk.injEq] at h
    cases h.2

/-- The last step of `job_quota_increment` counts the slot, if the entry that was looked up is
there. -/
theorem IncPc.step_none {pc : IncPc} (h : pc.step m jobId = (m', none))
    (hentry : pc = .relookup ∨ pc = .add → (m.lookup jobId).isSome) (a : BitVec 32) :
    quotaCount m' a = quotaCount m a + (if a = jobId then 1 else 0)
      ∧ ((m'.lookup a).isSome ↔ (m.lookup a).isSome ∨ a = jobId) := by
  cases pc with
  | lookup =>
    rw [IncPc.step, Prod.mk.injEq] at h
    cases h.2
  | update =>
    rw [IncPc.step] at h
    cases hlookup : m.lookup jobId with
    | some jq =>
      rw [bpfMapUpdateElem_of_some hlookup] at h
      cases h
    | none =>
      by_cases hroom : m.size < jobQuotaMapEntries
      · rw [bpfMapUpdateElem_of_room hlookup hroom] at h
        cases h
        by_cases ha : a = jobId
        · subst ha
          rw [if_pos rfl, quotaCount_of_none hlookup,
            quotaCount_of_some (BoundedMap.lookup_insert_self _ _ _ fun _ => hroom),
            BoundedMap.lookup_insert_self]
          exact ⟨rfl, iff_of_true rfl (.inr rfl)⟩
        · rw [if_neg ha, add_zero, quotaCount, quotaCount, BoundedMap.lookup_insert, if_neg ha]
          exact ⟨rfl, (or_iff_left ha).symm⟩
      · rw [bpfMapUpdateElem_of_full hlookup hroom] at h
        cases h
  | relookup =>
    rw [IncPc.step, if_pos (hentry (.inl rfl)), Prod.mk.injEq] at h
    cases h.2
  | add =>
    rw [IncPc.step, Prod.mk.injEq] at h
    obtain ⟨rfl, -⟩ := h
    have hsome := hentry (.inr rfl)
    refine ⟨quotaCount_modify hsome a, ?_⟩
    rw [BoundedMap.isSome_lookup_modify]
    exact ⟨.inl, fun h => h.elim id fun ha => ha ▸ hsome⟩

/-- A step of `job_quota_decrement` that is not its last one. -/
theorem DecPc.step_some {pc pc' : DecPc} (h : pc.step m jobId = (m', some pc')) :
    m' = m ∧ (m.lookup jobId).isSome
      ∧ (pc = .lookup ∧ pc' = .read ∨ pc = .read ∧ pc' = .add ∧ 0 < (quotaCount m jobId).toNat) := by
  cases pc with
  | lookup =>
    rw [DecPc.step, Prod.mk.injEq] at h
    obtain ⟨rfl, h⟩ := h
    split at h
    · next hsome =>
      cases h
      exact ⟨rfl, hsome, .inl ⟨rfl, rfl⟩⟩
    · cases h
  | read =>
    rw [DecPc.step, Prod.mk.injEq] at h
    obtain ⟨rfl, h⟩ := h
    split at h
    · next hany =>
      cases h
      obtain ⟨jq, hjq, hpos⟩ := (Option.any_eq_true _ _).mp hany
      refine ⟨rfl, Option.isSome_iff_exists.mpr ⟨jq, hjq⟩, .inr ⟨rfl, rfl, ?_⟩⟩
      rw [quotaCount_of_some hjq]
      exact of_decide_eq_true hpos
    · cases h
  | add =>
    rw [DecPc.step, Prod.mk.injEq] at h
    cases h.2

/-- The last step of `job_quota_decrement`: there was nothing to uncount, or one is uncounted. -/
theorem DecPc.step_none {pc : DecPc} (h : pc.step m jobId = (m', none)) :
    (m' = m ∧ (pc = .lookup ∧ m.lookup jobId = none
        ∨ pc = .read ∧ (quotaCount m jobId).toNat = 0))
      ∨ pc = .add ∧ m' = m.modify jobId (.add (-1)) := by
  cases pc with
  | lookup =>
    rw [DecPc.step, Prod.mk.injEq] at h
    obtain ⟨rfl, h⟩ := h
    split at h
    · cases h
    · next hnone => exact .inl ⟨rfl, .inl ⟨rfl, Option.not_isSome_iff_eq_none.mp hnone⟩⟩
  | read =>
    rw [DecPc.step, Prod.mk.injEq] at h
    obtain ⟨rfl, h⟩ := h
    split at h
    · cases h
    · next hany =>
      refine .inl ⟨rfl, .inr ⟨rfl, ?_⟩⟩
      cases hjq : m.lookup jobId with
      | none => rw [quotaCount_of_none hjq]; rfl
      | some jq =>
        rw [hjq, Option.any_some, decide_eq_true_eq] at hany
        rw [quotaCount_of_some hjq]
        exact Nat.eq_zero_of_not_pos hany
  | add =>
    rw [DecPc.step, Prod.mk.injEq] at h
    exact .inr ⟨rfl, h.1.symm⟩

end

/-! ## One step -/

/-- The CPU is not about to lose count: a slot it created is still there when it looks it up again,
and it uncounts a slot exactly if it deleted one. -/
def Cpu.CountsOnce (sh : SharedMaps) : Cpu → Prop
  | .busy _ p (.relookup createRc) => createRc = 0 → (sh.slotMap p.key).isSome
  | .busy _ p (.decrement _ _ deleteRc .lookup) =>
    sh.jobQuotaMap.lookup p.key.jobId = none → deleteRc ≠ 0
  | .busy _ p (.decrement _ _ deleteRc .read) =>
    0 < (quotaCount sh.jobQuotaMap p.key.jobId).toNat ↔ deleteRc = 0
  | _ => True

instance (sh : SharedMaps) : (cpu : Cpu) → Decidable (cpu.CountsOnce sh)
  | .busy _ _ (.relookup _) => inferInstanceAs (Decidable (_ → _))
  | .busy _ _ (.decrement _ _ _ .lookup) => inferInstanceAs (Decidable (_ → _))
  | .busy _ _ (.decrement _ _ _ .read) => inferInstanceAs (Decidable (_ ↔ _))
  | .idle | .busy _ _ .lookup | .busy _ _ .precheck | .busy _ _ (.quotaLookup _)
  | .busy _ _ (.quotaRead _) | .busy _ _ .create | .busy _ _ (.increment _ _)
  | .busy _ _ (.lock _) | .busy _ _ (.config _) | .busy _ _ (.delete _ _)
  | .busy _ _ (.decrement _ _ _ .add) | .busy _ _ (.rewrite _) | .busy _ _ (.bump _ _ _) =>
    .isTrue trivial

/-- What a CPU relies on in the two functions: its frame's job is in `S`, the entry it found is
there, and if it uncounts a slot it deleted one. -/
def Cpu.Covered (S : Finset (BitVec 32)) (sh : SharedMaps) : Cpu → Prop
  | .idle => True
  | .busy _ p pc =>
    p.key.jobId ∈ S ∧
      match pc with
      | .increment _ .relookup | .increment _ .add | .decrement _ _ _ .read =>
        (sh.jobQuotaMap.lookup p.key.jobId).isSome
      | .decrement _ _ deleteRc .add =>
        (sh.jobQuotaMap.lookup p.key.jobId).isSome ∧ deleteRc = 0
      | _ => True

section

variable {S : Finset (BitVec 32)} {sh : SharedMaps} {i : CpuInput} {cpu : Cpu}
  {r : SharedMaps × Cpu × CpuOutput}

/-- A step removes no entry, and adds one for a job in `S`. -/
theorem Cpu.Acts.entries (h : cpu.Acts sh i r) (hcov : cpu.Covered S sh) (a : BitVec 32) :
    ((sh.jobQuotaMap.lookup a).isSome → (r.1.jobQuotaMap.lookup a).isSome)
      ∧ ((r.1.jobQuotaMap.lookup a).isSome → (sh.jobQuotaMap.lookup a).isSome ∨ a ∈ S) := by
  have hsame : ∀ {m}, m = sh.jobQuotaMap →
      ((sh.jobQuotaMap.lookup a).isSome → (m.lookup a).isSome)
        ∧ ((m.lookup a).isSome → (sh.jobQuotaMap.lookup a).isSome ∨ a ∈ S) := by
    rintro m rfl
    exact ⟨id, .inl⟩
  have hdec : ∀ {m jobId} {pc : DecPc}, pc.step sh.jobQuotaMap jobId = (m, none) →
      ((sh.jobQuotaMap.lookup a).isSome → (m.lookup a).isSome)
        ∧ ((m.lookup a).isSome → (sh.jobQuotaMap.lookup a).isSome ∨ a ∈ S) := by
    intro m jobId pc hpc
    rcases DecPc.step_none hpc with ⟨hm, -⟩ | ⟨-, rfl⟩
    · exact hsame hm
    · rw [BoundedMap.isSome_lookup_modify]
      exact ⟨id, .inl⟩
  cases h with
  | counting hpc => exact hsame (IncPc.step_some hpc).1
  | @counted frame p slot pc m hpc =>
    -- an increment that is under way has its entry
    have hentry : pc = .relookup ∨ pc = .add → (sh.jobQuotaMap.lookup p.key.jobId).isSome := by
      rintro (rfl | rfl)
      · exact hcov.2
      · exact hcov.2
    obtain ⟨-, hiff⟩ := IncPc.step_none hpc hentry a
    refine ⟨fun ha => hiff.mpr (.inl ha), fun ha => (hiff.mp ha).imp_right fun ha => ?_⟩
    rw [ha]
    exact hcov.1
  | releasing hpc => exact hsame (DecPc.step_some hpc).1
  | released hpc => exact hdec hpc
  | unsent hpc => exact hdec hpc
  | lock hmove => cases hmove <;> exact hsame rfl
  | _ => exact hsame rfl

/-- The CPU that acts goes on to rely on what it found. -/
theorem Cpu.Acts.covered (h : cpu.Acts sh i r) (hcov : cpu.Covered S sh)
    (honce : cpu.CountsOnce sh) (hS : S.card ≤ jobQuotaMapEntries)
    (hentries : ∀ a, (sh.jobQuotaMap.lookup a).isSome → a ∈ S) (hjob : JobIn S i.frame) :
    r.2.1.Covered S r.1 := by
  cases h with
  | arrive hparse =>
    obtain ⟨hcounts, rfl⟩ := counts_of_parse hparse
    exact ⟨hjob hcounts.1, trivial⟩
  | @counting frame p slot pc pc' m hpc =>
    obtain ⟨rfl, hadd, hrelookup⟩ := IncPc.step_some hpc
    refine ⟨hcov.1, ?_⟩
    cases pc' with
    | lookup => trivial
    | update => trivial
    | relookup =>
      by_contra hnone
      have hlt := BoundedMap.size_lt_card sh.jobQuotaMap S hentries
        (Option.not_isSome_iff_eq_none.mp hnone) hcov.1
      exact hnone (hrelookup rfl (hlt.trans_le hS))
    | add => exact hadd rfl
  | @releasing frame p L cfg deleteRc pc pc' m hpc =>
    obtain ⟨rfl, hsome, ⟨rfl, rfl⟩ | ⟨rfl, rfl, hpos⟩⟩ := DecPc.step_some hpc
    · exact ⟨hcov.1, hsome⟩
    · exact ⟨hcov.1, hsome, honce.mp hpos⟩
  | lock hmove =>
    cases hmove with
    | rejected => trivial
    | absorbed => trivial
    | complete => exact ⟨hcov.1, trivial⟩
  | ignore | badFanIn | lost | transmit | bumped => trivial
  | _ => exact ⟨hcov.1, trivial⟩

/-- What a CPU relies on stays while the others act. -/
theorem Cpu.Covered.keep {sh' : SharedMaps} (h : cpu.Covered S sh)
    (hkept : ∀ a, (sh.jobQuotaMap.lookup a).isSome → (sh'.jobQuotaMap.lookup a).isSome) :
    cpu.Covered S sh' := by
  cases cpu with
  | idle => trivial
  | busy frame p pc =>
    obtain ⟨hS, h⟩ := h
    refine ⟨hS, ?_⟩
    cases pc with
    | increment slot pc =>
      cases pc with
      | relookup => exact hkept _ h
      | add => exact hkept _ h
      | _ => trivial
    | decrement L cfg deleteRc pc =>
      cases pc with
      | read => exact hkept _ h
      | add => exact ⟨hkept _ h.1, h.2⟩
      | lookup => trivial
    | _ => trivial

/-- The last step of `job_quota_increment` counts a slot of the job. -/
theorem quotaCount_counted {frame : Bytes} {p : Parsed} {slot : Elem} {pc : IncPc}
    {m : BoundedMap (BitVec 32) JobQuotaEntry jobQuotaMapEntries}
    (hcov : Cpu.Covered S sh (.busy frame p (.increment slot pc)))
    (hpc : pc.step sh.jobQuotaMap p.key.jobId = (m, none)) (jobId : BitVec 32) :
    ((quotaCount sh.jobQuotaMap jobId).toNat + if p.key.jobId = jobId then 1 else 0) % 2 ^ 32
      = (quotaCount m jobId).toNat := by
  have hentry : pc = .relookup ∨ pc = .add → (sh.jobQuotaMap.lookup p.key.jobId).isSome := by
    rintro (rfl | rfl)
    · exact hcov.2
    · exact hcov.2
  rw [(IncPc.step_none hpc hentry jobId).1, BitVec.toNat_add]
  by_cases ha : p.key.jobId = jobId
  · rw [if_pos ha, if_pos ha.symm, show (1 : BitVec 32).toNat = 1 from rfl]
  · rw [if_neg ha, if_neg (Ne.symm ha), show (0 : BitVec 32).toNat = 0 from rfl]

/-- The last step of `job_quota_decrement` uncounts a slot of the job, if one was deleted. -/
theorem quotaCount_released {frame : Bytes} {p : Parsed} {L : BitVec 16} {cfg : Bool} {deleteRc : ℤ}
    {pc : DecPc} {m : BoundedMap (BitVec 32) JobQuotaEntry jobQuotaMapEntries}
    (hcov : Cpu.Covered S sh (.busy frame p (.decrement L cfg deleteRc pc)))
    (honce : Cpu.CountsOnce sh (.busy frame p (.decrement L cfg deleteRc pc)))
    (hpc : pc.step sh.jobQuotaMap p.key.jobId = (m, none)) (jobId : BitVec 32) :
    (quotaCount sh.jobQuotaMap jobId).toNat % 2 ^ 32
      = ((quotaCount m jobId).toNat + if deleteRc = 0 ∧ p.key.jobId = jobId then 1 else 0)
        % 2 ^ 32 := by
  rcases DecPc.step_none hpc with ⟨rfl, ⟨rfl, hnone⟩ | ⟨rfl, hzero⟩⟩ | ⟨rfl, rfl⟩
  · rw [if_neg fun h => honce hnone h.1, Nat.add_zero]
  · rw [if_neg fun h => absurd (honce.mpr h.1) (by omega), Nat.add_zero]
  · obtain ⟨-, hsome, rfl⟩ := hcov
    rw [quotaCount_modify hsome, BitVec.toNat_add]
    simp only [true_and]
    by_cases ha : p.key.jobId = jobId
    · rw [if_pos ha, if_pos ha.symm, show (-1 : BitVec 32).toNat = 4294967295 from rfl]
      omega
    · rw [if_neg ha, if_neg (Ne.symm ha), show (0 : BitVec 32).toNat = 0 from rfl]
      omega

/-- **The balance of a job.** A step moves the counter, and what the CPU has still to count and to
uncount, as it moves the number of slots. -/
theorem Cpu.Acts.balance (h : cpu.Acts sh i r) (hcov : cpu.Covered S sh)
    (honce : cpu.CountsOnce sh) (jobId : BitVec 32) :
    (r.1.slotCount jobId + r.2.1.unreleased jobId
        + (quotaCount sh.jobQuotaMap jobId).toNat + cpu.uncounted jobId) % 2 ^ 32
      = (sh.slotCount jobId + cpu.unreleased jobId
        + (quotaCount r.1.jobQuotaMap jobId).toNat + r.2.1.uncounted jobId) % 2 ^ 32 := by
  cases h with
  | @created frame p hk hslot =>
    -- one slot more, and one increment owed
    have hlink := sh.slotCount_link hk hslot
      (Function.update sh.slots i.elem (.fresh p.chunkLen p.numWorkers)) jobId
    show (_ + 0 + (quotaCount sh.jobQuotaMap jobId).toNat + 0) % 2 ^ 32
      = (sh.slotCount jobId + 0 + (quotaCount sh.jobQuotaMap jobId).toNat
        + if (0 : ℤ) = 0 ∧ p.key.jobId = jobId then 1 else 0) % 2 ^ 32
    rw [hlink]
    simp only [true_and]
    omega
  | notCreated hrc =>
    show _ = (_ + _ + _ + if _ = (0 : ℤ) ∧ _ then 1 else 0) % 2 ^ 32
    rw [if_neg fun h => hrc h.1]
    rfl
  | lost hslot =>
    show (_ + _ + _ + if _ = (0 : ℤ) ∧ _ then 1 else 0) % 2 ^ 32 = _
    rw [if_neg]
    · rfl
    · intro h
      have hsome := honce h.1
      rw [hslot] at hsome
      cases hsome
  | @creator frame p slot hslot =>
    show (_ + _ + _ + if (0 : ℤ) = 0 ∧ p.key.jobId = jobId then 1 else 0) % 2 ^ 32
      = (_ + _ + _ + if p.key.jobId = jobId then 1 else 0) % 2 ^ 32
    simp only [true_and]
    rfl
  | joined hrc =>
    show (_ + _ + _ + if _ = (0 : ℤ) ∧ _ then 1 else 0) % 2 ^ 32 = _
    rw [if_neg fun h => hrc h.1]
    rfl
  | counting hpc =>
    obtain ⟨rfl, -⟩ := IncPc.step_some hpc
    rfl
  | @counted frame p slot pc m hpc =>
    -- the increment is made and no longer owed
    have hcounted := quotaCount_counted hcov hpc jobId
    show (sh.slotCount jobId + 0 + (quotaCount sh.jobQuotaMap jobId).toNat
        + if p.key.jobId = jobId then 1 else 0) % 2 ^ 32
      = (sh.slotCount jobId + 0 + (quotaCount m jobId).toNat + 0) % 2 ^ 32
    omega
  | lock hmove => cases hmove <;> rfl
  | @delete frame p L cfg =>
    -- one slot less, and one decrement owed
    have hdelete := sh.slotCount_deleteSlot p.key jobId
    show ((sh.deleteSlot p.key).1.slotCount jobId
        + (if (sh.deleteSlot p.key).2 = 0 ∧ p.key.jobId = jobId then 1 else 0)
        + (quotaCount sh.jobQuotaMap jobId).toNat + 0) % 2 ^ 32
      = (sh.slotCount jobId + 0 + (quotaCount sh.jobQuotaMap jobId).toNat + 0) % 2 ^ 32
    rw [hdelete, Nat.add_zero (sh.slotCount jobId)]
  | releasing hpc =>
    obtain ⟨rfl, -⟩ := DecPc.step_some hpc
    rfl
  | @released frame p L deleteRc pc m hpc =>
    have hreleased := quotaCount_released hcov honce hpc jobId
    show (sh.slotCount jobId + 0 + (quotaCount sh.jobQuotaMap jobId).toNat + 0) % 2 ^ 32
      = (sh.slotCount jobId + (if deleteRc = 0 ∧ p.key.jobId = jobId then 1 else 0)
        + (quotaCount m jobId).toNat + 0) % 2 ^ 32
    omega
  | @unsent frame p L deleteRc pc m hpc =>
    have hreleased := quotaCount_released hcov honce hpc jobId
    show (sh.slotCount jobId + 0 + (quotaCount sh.jobQuotaMap jobId).toNat + 0) % 2 ^ 32
      = (sh.slotCount jobId + (if deleteRc = 0 ∧ p.key.jobId = jobId then 1 else 0)
        + (quotaCount m jobId).toNat + 0) % 2 ^ 32
    omega
  | _ => rfl

end

/-! ## Runs -/

/-- The frames of a run name at most 256 jobs. -/
def FewJobIds {C : Type} (es : List (C × CpuInput)) : Prop :=
  ∃ S : Finset (BitVec 32), S.card ≤ jobQuotaMapEntries ∧ ∀ ev ∈ es, JobIn S ev.2.frame

/-- The CPU that acts is not about to lose count. -/
def CountedOnce {C : Type} (s : CpuSystem C) (ev : C × CpuInput) : Prop :=
  (s.loc ev.1).CountsOnce s.mem

instance {C : Type} (s : CpuSystem C) (ev : C × CpuInput) : Decidable (CountedOnce s ev) :=
  inferInstanceAs (Decidable ((s.loc ev.1).CountsOnce s.mem))

/-- When no CPU is in the program, the counter of every job is the number of its slots. -/
def QuotaExact {C : Type} (s : CpuSystem C) : Prop :=
  (∀ c, s.loc c = .idle) →
    ∀ jobId, (quotaCount s.mem.jobQuotaMap jobId).toNat = s.mem.slotCount jobId

section

variable {C : Type} [Fintype C]

/-- The counter of a job and what is still to be counted are its slots and what is still to be
uncounted. -/
structure Balanced (S : Finset (BitVec 32)) (s : CpuSystem C) : Prop where
  keeps : s.Keeps (fun sh => ∀ a, (sh.jobQuotaMap.lookup a).isSome → a ∈ S)
    (fun _ sh cpu => cpu.Covered S sh) fun _ _ => True
  balance : ∀ jobId, (s.mem.slotCount jobId + s.total (Cpu.unreleased jobId)) % 2 ^ 32
    = ((quotaCount s.mem.jobQuotaMap jobId).toNat + s.total (Cpu.uncounted jobId)) % 2 ^ 32

theorem balanced_init (S : Finset (BitVec 32)) : Balanced S (CpuSystem.init C) := by
  refine ⟨⟨fun a ha => ?_, fun _ => trivial, fun _ _ _ => trivial⟩, fun jobId => ?_⟩
  · simp [CpuSystem.init, SharedMaps.empty] at ha
  · have hslots : (CpuSystem.init C).mem.slotCount jobId = 0 := Pool.count_bot _
    have hcount : quotaCount (CpuSystem.init C).mem.jobQuotaMap jobId = 0 :=
      quotaCount_of_none (BoundedMap.lookup_empty jobId)
    rw [hslots, hcount, Threads.total_eq_zero fun _ => rfl, Threads.total_eq_zero fun _ => rfl]
    rfl

variable [DecidableEq C]

theorem Balanced.step {S : Finset (BitVec 32)} {s : CpuSystem C} (h : Balanced S s)
    (hS : S.card ≤ jobQuotaMapEntries) {ev : C × CpuInput} (honce : CountedOnce s ev)
    (hjob : JobIn S ev.2.frame) : Balanced S (cpuStep s ev).1 := by
  obtain ⟨c, i⟩ := ev
  have hacts := acts s.mem (s.loc c) i
  have hcov := h.keeps.loc c
  have hentries := hacts.entries hcov
  refine ⟨h.keeps.step (fun _ _ _ => trivial) (fun a ha => ?_) ?_ fun d _ hd _ => ?_,
    fun jobId => ?_⟩
  · exact ((hentries a).2 ha).elim (h.keeps.mem a) id
  · exact hacts.covered hcov honce hS h.keeps.mem hjob
  · exact ⟨hd.keep fun a => (hentries a).1, trivial⟩
  · have hbalance := h.balance jobId
    have hstep := hacts.balance hcov honce jobId
    have huncounted := Threads.total_step (Cpu.uncounted jobId) Cpu.act s c i
    have hunreleased := Threads.total_step (Cpu.unreleased jobId) Cpu.act s c i
    show (((s.loc c).act s.mem i).1.slotCount jobId
        + (Threads.step Cpu.act s (c, i)).1.total (Cpu.unreleased jobId)) % 2 ^ 32
      = ((quotaCount ((s.loc c).act s.mem i).1.jobQuotaMap jobId).toNat
        + (Threads.step Cpu.act s (c, i)).1.total (Cpu.uncounted jobId)) % 2 ^ 32
    omega

theorem balanced_stateAt {S : Finset (BitVec 32)} (hS : S.card ≤ jobQuotaMapEntries)
    {es : List (C × CpuInput)} (hjobs : ∀ ev ∈ es, JobIn S ev.2.frame)
    (h : StepsMeet cpuStep CountedOnce (CpuSystem.init C) es) (T : ℕ) :
    Balanced S (stateAt cpuStep (CpuSystem.init C) es T) := by
  have hmeet : StepsMeet cpuStep (fun s ev => CountedOnce s ev ∧ JobIn S ev.2.frame)
      (CpuSystem.init C) es := by
    rw [stepsMeet_iff] at h ⊢
    exact fun U ev he => ⟨h U ev he, hjobs ev (List.mem_of_getElem? he)⟩
  refine stateAt_kept_of_meet (Balanced S) (fun s ev hev hs => hs.step hS hev.1 hev.2) hmeet
    (Nat.zero_le T) ?_
  rw [stateAt_zero]
  exact balanced_init S

/-- A job has at most as many slots as the map has elements. -/
theorem SharedMaps.slotCount_le (sh : SharedMaps) (jobId : BitVec 32) :
    sh.slotCount jobId ≤ slotMapEntries :=
  (Pool.count_le_card _ _).trans_eq (Fintype.card_fin _)

/-- **Accounting under concurrency.** In a run in which every created slot is counted and a slot is
uncounted exactly if one was deleted, the counters are exact whenever no CPU is in the program. -/
theorem accounted_of_countedOnce {es : List (C × CpuInput)} (hjobs : FewJobIds es)
    (h : StepsMeet cpuStep CountedOnce (CpuSystem.init C) es) (T : ℕ) :
    QuotaExact (stateAt cpuStep (CpuSystem.init C) es T) := by
  obtain ⟨S, hS, hjobs⟩ := hjobs
  intro hidle jobId
  have hbalance := (balanced_stateAt hS hjobs h T).balance jobId
  have hnone : ∀ f : Cpu → ℕ, f .idle = 0 →
      (stateAt cpuStep (CpuSystem.init C) es T).total f = 0 := by
    intro f hf
    refine Threads.total_eq_zero fun c => ?_
    rw [hidle c, hf]
  rw [hnone _ rfl, hnone _ rfl] at hbalance
  have hle := (stateAt cpuStep (CpuSystem.init C) es T).mem.slotCount_le jobId
  have hlt := (quotaCount (stateAt cpuStep (CpuSystem.init C) es T).mem.jobQuotaMap jobId).isLt
  simp only [slotMapEntries] at hle
  omega

end

/-! ## A slot that is never counted -/

/-- Two CPUs race for one key, turn by turn: both find no slot, CPU 0 creates it and CPU 1 comes too
late. CPU 0 counts the slot, and CPU 1 completes it. -/
def countedRun : List (Fin 2 × CpuInput) :=
  let frame := fun worker =>
    inputFor 0 0 (frameWith (workerPacket ⟨1, 0, 0, worker, 2, 1, 0⟩ fun _ => 5))
  (List.replicate 5 [(0, frame 0), (1, frame 1)]).flatten ++ List.replicate 3 (0, frame 0)
    ++ List.replicate 7 (1, frame 1)

theorem countedRun_exact :
    QuotaExact (stateAt cpuStep (CpuSystem.init (Fin 2)) countedRun countedRun.length) :=
  accounted_of_countedOnce ⟨{1}, by decide, by decide +kernel⟩ (by decide +kernel) _

/-- CPU 0 opens key `(1, 1, 0)` and counts it, then creates key `(1, 0, 0)`. Before it looks that up
again, CPU 1 completes the key, deletes it and takes one off the counter. CPU 0 finds no slot and
returns. -/
def uncountedRun : List (Fin 2 × CpuInput) :=
  let kept := inputFor 0 0 (frameWith (workerPacket ⟨1, 1, 0, 0, 2, 1, 0⟩ fun _ => 5))
  let lost := inputFor 0 1 (frameWith (workerPacket ⟨1, 0, 0, 0, 1, 1, 0⟩ fun _ => 5))
  List.replicate 8 (0, kept) ++ List.replicate 4 (0, lost) ++ List.replicate 9 (1, lost)
    ++ List.replicate 1 (0, lost)

theorem uncountedRun_undercounts :
    FewJobIds uncountedRun
      ∧ ¬ QuotaExact (stateAt cpuStep (CpuSystem.init (Fin 2)) uncountedRun
        uncountedRun.length) := by
  refine ⟨⟨{1}, by decide, by decide +kernel⟩, fun hexact => ?_⟩
  have hidle : ∀ c, (stateAt cpuStep (CpuSystem.init (Fin 2)) uncountedRun
      uncountedRun.length).loc c = .idle := by decide +kernel
  have hcounter : (quotaCount (stateAt cpuStep (CpuSystem.init (Fin 2)) uncountedRun
      uncountedRun.length).mem.jobQuotaMap 1).toNat = 0 := by decide +kernel
  have hslot : (stateAt cpuStep (CpuSystem.init (Fin 2)) uncountedRun
      uncountedRun.length).mem.slotMap ⟨1, 1, 0⟩ = some 0 := by decide +kernel
  have hpos : 0 < SharedMaps.slotCount _ 1 := Pool.count_pos hslot rfl
  rw [← hexact hidle 1, hcounter] at hpos
  exact lt_irrefl 0 hpos

/-! ## The quota -/

/-- The key for which a CPU has been let past the admission check and has not gone through the
creation yet. -/
def Cpu.admitted : Cpu → Option GradSlotKey
  | .busy _ p .create => some p.key
  | _ => none

/-- The key for which a CPU is let past the admission check by its next step. -/
def Cpu.passes (sh : SharedMaps) : Cpu → Option GradSlotKey
  | .busy _ p (.quotaLookup _) =>
    if (sh.jobQuotaMap.lookup p.key.jobId).isSome then none else some p.key
  | .busy _ p (.quotaRead max) =>
    if (sh.jobQuotaMap.lookup p.key.jobId).any fun jq => decide (jq.concurrentSlots ≥ max) then none
    else some p.key
  | _ => none

/-- The quota that a CPU compares a counter with. -/
def Cpu.comparesWith : Cpu → Option (BitVec 32)
  | .busy _ _ (.quotaRead max) => some max
  | _ => none

/-- Every step finds a configuration with quota `q`. -/
def QuotaInForce {C : Type} (q : BitVec 32) (es : List (C × CpuInput)) : Prop :=
  ∀ ev ∈ es, (ev.2.configMap.lookup 0).map NetsumConfig.maxSlotsPerJob = some q

instance {C : Type} (q : BitVec 32) (es : List (C × CpuInput)) : Decidable (QuotaInForce q es) :=
  inferInstanceAs (Decidable (∀ ev ∈ es, _))

theorem QuotaInForce.maxSlotsPerJob {C : Type} {q : BitVec 32} {es : List (C × CpuInput)}
    (h : QuotaInForce q es) {ev : C × CpuInput} (hev : ev ∈ es) : ev.2.maxSlotsPerJob = q := by
  obtain ⟨cfg, hcfg, hq⟩ := Option.map_eq_some_iff.mp (h ev hev)
  rw [CpuInput.maxSlotsPerJob, hcfg]
  exact hq

/-- Under a quota, a step gives slots and admissions to no other key than the one that the CPU is let
past the check for. -/
theorem Cpu.Acts.admission {sh : SharedMaps} {i : CpuInput} {cpu : Cpu}
    {r : SharedMaps × Cpu × CpuOutput} (h : cpu.Acts sh i r) (hmax : 0 < i.maxSlotsPerJob.toNat)
    {k : GradSlotKey} :
    ((r.1.slotMap k).isSome → (sh.slotMap k).isSome ∨ cpu.admitted = some k)
      ∧ (r.2.1.admitted = some k → cpu.admitted = some k ∨ cpu.passes sh = some k) := by
  cases h with
  | unlimited hzero => omega
  | @noEntry frame p max hentry =>
    refine ⟨.inl, fun hk => .inr ?_⟩
    rw [Cpu.passes, hentry]
    exact hk
  | @admitted frame p max hlt =>
    refine ⟨.inl, fun hk => .inr ?_⟩
    rw [Cpu.passes, if_neg]
    · exact hk
    · intro hany
      obtain ⟨jq, hjq, hge⟩ := (Option.any_eq_true _ _).mp hany
      exact absurd (hlt jq hjq) (BitVec.not_lt.mpr (of_decide_eq_true hge))
  | @created frame p hk hslot =>
    refine ⟨fun hsome => ?_, nofun⟩
    rw [Pool.link_apply] at hsome
    split at hsome
    · next heq => exact .inr (congrArg some heq.symm)
    · exact .inl hsome
  | @delete frame p =>
    refine ⟨fun hsome => .inl ?_, nofun⟩
    change (sh.slotMap.unlink p.key k).isSome at hsome
    rw [Pool.unlink_apply] at hsome
    split at hsome
    · cases hsome
    · exact hsome
  | lock hmove => cases hmove <;> exact ⟨.inl, nofun⟩
  | notOffered => exact ⟨.inl, .inl⟩
  | _ => exact ⟨.inl, nofun⟩

section

variable {C : Type} [Fintype C]

/-- The keys of a job that have a slot, or for which a CPU past the admission check is to create
one. CPUs that race for one key count once. -/
def CpuSystem.keysOf (s : CpuSystem C) (jobId : BitVec 32) : Finset GradSlotKey :=
  (Finset.univ.image s.mem.slotMap.owner
    ∪ Finset.univ.image fun c => (s.loc c).admitted).eraseNone.filter fun k => k.jobId = jobId

theorem CpuSystem.mem_keysOf {s : CpuSystem C} {jobId : BitVec 32} {k : GradSlotKey} :
    k ∈ s.keysOf jobId
      ↔ ((s.mem.slotMap k).isSome ∨ ∃ c, (s.loc c).admitted = some k) ∧ k.jobId = jobId := by
  have hslot : (s.mem.slotMap k).isSome ↔ ∃ e, s.mem.slotMap.owner e = some k := by
    rw [Option.isSome_iff_exists]
    exact exists_congr fun e => Pool.owner_eq_some_iff.symm
  rw [keysOf, Finset.mem_filter, Finset.mem_eraseNone, Finset.mem_union, Finset.mem_image,
    Finset.mem_image, hslot]
  simp only [Finset.mem_univ, true_and]

/-- Every slot of the job is of one of its keys. -/
theorem CpuSystem.slotCount_le_card_keysOf (s : CpuSystem C) (jobId : BitVec 32) :
    s.mem.slotCount jobId ≤ (s.keysOf jobId).card :=
  Pool.count_le_card_of_subset fun _ _ hk hjob =>
    mem_keysOf.mpr ⟨.inl (Option.isSome_iff_exists.mpr ⟨_, hk⟩), of_decide_eq_true hjob⟩

/-- A CPU is let past the admission check for a key only while fewer than `q` other keys of its job
have a slot or are about to get one. -/
def AdmittedBelow (q : ℕ) (s : CpuSystem C) (ev : C × CpuInput) : Prop :=
  ∀ k, (s.loc ev.1).passes s.mem = some k → ((s.keysOf k.jobId).erase k).card < q

/-- The counter that a CPU is let past the check with is not stale: it counts every other key of the
job that has a slot or is about to get one. -/
def CounterCurrent (s : CpuSystem C) (ev : C × CpuInput) : Prop :=
  ∀ k, (s.loc ev.1).passes s.mem = some k →
    ((s.keysOf k.jobId).erase k).card ≤ (quotaCount s.mem.jobQuotaMap k.jobId).toNat

/-- The check is right about a counter that is not stale. -/
theorem CounterCurrent.admittedBelow {s : CpuSystem C} {ev : C × CpuInput}
    (h : CounterCurrent s ev) {q : ℕ} (hq : 0 < q)
    (hmax : ∀ max, (s.loc ev.1).comparesWith = some max → max.toNat ≤ q) :
    AdmittedBelow q s ev := by
  intro k hpass
  refine (h k hpass).trans_lt ?_
  cases hloc : s.loc ev.1 with
  | idle =>
    rw [hloc] at hpass
    cases hpass
  | busy frame p pc =>
    rw [hloc] at hpass hmax
    cases pc with
    | quotaLookup max =>
      rw [Cpu.passes] at hpass
      split at hpass
      · cases hpass
      · next hentry =>
        cases hpass
        rw [quotaCount_of_none (Option.not_isSome_iff_eq_none.mp hentry)]
        exact hq
    | quotaRead max =>
      rw [Cpu.passes] at hpass
      split at hpass
      · cases hpass
      · next hany =>
        cases hpass
        cases hjq : s.mem.jobQuotaMap.lookup p.key.jobId with
        | none =>
          rw [quotaCount_of_none hjq]
          exact hq
        | some jq =>
          rw [hjq, Option.any_some, decide_eq_true_eq, ge_iff_le, BitVec.not_le] at hany
          rw [quotaCount_of_some hjq]
          exact (BitVec.lt_def.mp hany).trans_le (hmax max rfl)
    | _ => cases hpass

variable [DecidableEq C]

omit [DecidableEq C] in
/-- Without another CPU in the program the counter is current: it is the number of slots. -/
theorem Balanced.counterCurrent {S : Finset (BitVec 32)} {s : CpuSystem C} (hs : Balanced S s)
    {c : C} {i : CpuInput} (hidle : ∀ d, d ≠ c → s.loc d = .idle) : CounterCurrent s (c, i) := by
  intro k hpass
  have hloc : ∃ frame p pc, s.loc c = .busy frame p pc
      ∧ ((∃ max, pc = .quotaLookup max) ∨ ∃ max, pc = .quotaRead max) := by
    cases hloc : s.loc c with
    | idle =>
      rw [hloc] at hpass
      cases hpass
    | busy frame p pc =>
      rw [hloc] at hpass
      cases pc with
      | quotaLookup max => exact ⟨frame, p, _, rfl, .inl ⟨max, rfl⟩⟩
      | quotaRead max => exact ⟨frame, p, _, rfl, .inr ⟨max, rfl⟩⟩
      | _ => cases hpass
  obtain ⟨frame, p, pc, hloc, hpc⟩ := hloc
  -- nothing is owed or admitted by the CPU at the check, nor by the others
  have hown : (s.loc c).admitted = none ∧ (s.loc c).unreleased k.jobId = 0
      ∧ (s.loc c).uncounted k.jobId = 0 := by
    rw [hloc]
    rcases hpc with ⟨max, rfl⟩ | ⟨max, rfl⟩ <;> exact ⟨rfl, rfl, rfl⟩
  have hnone : ∀ f : Cpu → ℕ, f .idle = 0 → f (s.loc c) = 0 → s.total f = 0 := by
    intro f hf hc
    refine Threads.total_eq_zero fun d => ?_
    by_cases hd : d = c
    · rw [hd, hc]
    · rw [hidle d hd, hf]
  have hadmitted : ∀ d, (s.loc d).admitted = none := by
    intro d
    by_cases hd : d = c
    · rw [hd, hown.1]
    · rw [hidle d hd]
      rfl
  have hkeys : ((s.keysOf k.jobId).erase k).card ≤ s.mem.slotCount k.jobId := by
    refine Pool.card_le_count fun k' hk' => ?_
    obtain ⟨hslot | ⟨d, hd⟩, hjob⟩ := CpuSystem.mem_keysOf.mp (Finset.mem_of_mem_erase hk')
    · exact ⟨hslot, decide_eq_true hjob⟩
    · rw [hadmitted d] at hd
      cases hd
  have hbalance := hs.balance k.jobId
  rw [hnone _ rfl hown.2.1, hnone _ rfl hown.2.2] at hbalance
  have hle := s.mem.slotCount_le k.jobId
  have hlt := (quotaCount s.mem.jobQuotaMap k.jobId).isLt
  simp only [slotMapEntries] at hle
  omega

/-- A step adds to the keys of a job at most the one that the CPU is let past the check for. -/
theorem keysOf_step {s : CpuSystem C} {c : C} {i : CpuInput} (hmax : 0 < i.maxSlotsPerJob.toNat)
    {jobId : BitVec 32} {k : GradSlotKey} (hk : k ∈ (cpuStep s (c, i)).1.keysOf jobId) :
    k ∈ s.keysOf jobId ∨ (s.loc c).passes s.mem = some k ∧ k.jobId = jobId := by
  obtain ⟨hkey, hjob⟩ := CpuSystem.mem_keysOf.mp hk
  obtain ⟨hslot, hadmitted⟩ := (acts s.mem (s.loc c) i).admission hmax (k := k)
  have hbefore : ∀ d, (s.loc d).admitted = some k → k ∈ s.keysOf jobId :=
    fun d hd => CpuSystem.mem_keysOf.mpr ⟨.inr ⟨d, hd⟩, hjob⟩
  rcases hkey with hsome | ⟨d, hd⟩
  · rcases hslot hsome with hsome' | hown
    · exact .inl (CpuSystem.mem_keysOf.mpr ⟨.inl hsome', hjob⟩)
    · exact .inl (hbefore c hown)
  · by_cases hdc : d = c
    · subst hdc
      rw [cpuStep, Threads.step_loc_self] at hd
      rcases hadmitted hd with hown | hpass
      · exact .inl (hbefore d hown)
      · exact .inr ⟨hpass, hjob⟩
    · rw [cpuStep, Threads.step_loc_of_ne hdc] at hd
      exact .inl (hbefore d hd)

/-- **Quotas under concurrency.** Under a quota `q`, in a run in which every admission finds room,
no job ever has more than `q` slots. -/
theorem quota_of_admittedBelow {q : BitVec 32} (hq : 0 < q.toNat) {es : List (C × CpuInput)}
    (hconfig : QuotaInForce q es)
    (h : StepsMeet cpuStep (AdmittedBelow q.toNat) (CpuSystem.init C) es) (T : ℕ)
    (jobId : BitVec 32) :
    (stateAt cpuStep (CpuSystem.init C) es T).mem.slotCount jobId ≤ q.toNat := by
  have hmeet : StepsMeet cpuStep (fun s ev => AdmittedBelow q.toNat s ev
      ∧ ev.2.maxSlotsPerJob = q) (CpuSystem.init C) es := by
    rw [stepsMeet_iff] at h ⊢
    exact fun U ev he => ⟨h U ev he, hconfig.maxSlotsPerJob (List.mem_of_getElem? he)⟩
  refine ((stateAt cpuStep _ es T).slotCount_le_card_keysOf jobId).trans ?_
  -- the keys that are about to get a slot are within the quota as well
  refine stateAt_kept_of_meet (fun s : CpuSystem C => (s.keysOf jobId).card ≤ q.toNat) ?_ hmeet
    (Nat.zero_le T) ?_
  · rintro s ⟨c, i⟩ ⟨hbelow, hmax⟩ hle
    have hstep : ∀ k ∈ (cpuStep s (c, i)).1.keysOf jobId,
        k ∈ s.keysOf jobId ∨ (s.loc c).passes s.mem = some k ∧ k.jobId = jobId :=
      fun k => keysOf_step (hmax ▸ hq)
    by_cases hpass : ∃ k, (s.loc c).passes s.mem = some k ∧ k.jobId = jobId
    · obtain ⟨k, hk, rfl⟩ := hpass
      have hsub : (cpuStep s (c, i)).1.keysOf k.jobId ⊆ insert k ((s.keysOf k.jobId).erase k) := by
        intro k' hk'
        rw [Finset.mem_insert, Finset.mem_erase]
        by_cases heq : k' = k
        · exact .inl heq
        · refine .inr ⟨heq, (hstep k' hk').resolve_right fun hnew => heq ?_⟩
          exact Option.some.inj (hnew.1.symm.trans hk)
      have hcard := (Finset.card_le_card hsub).trans (Finset.card_insert_le _ _)
      have hroom := hbelow k hk
      omega
    · refine (Finset.card_le_card fun k hk => ?_).trans hle
      exact (hstep k hk).resolve_right fun hnew => hpass ⟨k, hnew⟩
  · have hempty : (stateAt cpuStep (CpuSystem.init C) es 0).keysOf jobId = ∅ := by
      refine Finset.eq_empty_of_forall_notMem fun k hk => ?_
      obtain ⟨hslot | ⟨c, hc⟩, -⟩ := CpuSystem.mem_keysOf.mp hk
      · cases hslot
      · cases hc
    rw [hempty, Finset.card_empty]
    exact Nat.zero_le _

end

/-! ## Runs over few keys -/

/-- The key of the frame that a CPU has in the program. -/
def Cpu.key : Cpu → Option GradSlotKey
  | .idle => none
  | .busy _ p _ => some p.key

/-- Every slot, and every frame in the program, is of a key of the set. -/
structure KeysWithin {C : Type} (K : Finset GradSlotKey) (s : CpuSystem C) : Prop where
  slots : ∀ k, (s.mem.slotMap k).isSome → k ∈ K
  frames : ∀ c k, (s.loc c).key = some k → k ∈ K

/-- A step links no other key than the CPU's, and the CPU keeps its key until it is idle. -/
theorem Cpu.Acts.keysWithin {K : Finset GradSlotKey} {sh : SharedMaps} {i : CpuInput} {cpu : Cpu}
    {r : SharedMaps × Cpu × CpuOutput} (h : cpu.Acts sh i r)
    (hslots : ∀ k, (sh.slotMap k).isSome → k ∈ K) (hcpu : ∀ k, cpu.key = some k → k ∈ K)
    (hi : ∀ p, parse i.frame = .ok p → p.key ∈ K) :
    (∀ k, (r.1.slotMap k).isSome → k ∈ K) ∧ ∀ k, r.2.1.key = some k → k ∈ K := by
  cases h with
  | arrive hparse => exact ⟨hslots, fun k hk => Option.some.inj hk ▸ hi _ hparse⟩
  | @created frame p hk hslot =>
    refine ⟨fun k hsome => ?_, hcpu⟩
    rw [Pool.link_apply] at hsome
    split at hsome
    · next heq => exact heq ▸ hcpu p.key rfl
    · exact hslots k hsome
  | @delete frame p =>
    refine ⟨fun k hsome => hslots k ?_, hcpu⟩
    change (sh.slotMap.unlink p.key k).isSome at hsome
    rw [Pool.unlink_apply] at hsome
    split at hsome
    · cases hsome
    · exact hsome
  | lock hmove =>
    cases hmove with
    | complete => exact ⟨hslots, hcpu⟩
    | _ => exact ⟨hslots, nofun⟩
  | ignore | badFanIn | lost | transmit | bumped => exact ⟨hslots, nofun⟩
  | _ => exact ⟨hslots, hcpu⟩

section

variable {C : Type} [DecidableEq C] {K : Finset GradSlotKey} {es : List (C × CpuInput)}

theorem keysWithin_run (hes : ∀ ev ∈ es, ∀ p, parse ev.2.frame = .ok p → p.key ∈ K) (T : ℕ) :
    KeysWithin K (stateAt cpuStep (CpuSystem.init C) es T) := by
  have hmeet : StepsMeet cpuStep (fun (_ : CpuSystem C) ev =>
      ∀ p, parse ev.2.frame = .ok p → p.key ∈ K) (CpuSystem.init C) es :=
    stepsMeet_iff.mpr fun U ev he => hes ev (List.mem_of_getElem? he)
  refine stateAt_kept_of_meet (KeysWithin K) ?_ hmeet (Nat.zero_le T) ⟨nofun, nofun⟩
  rintro s ⟨c, i⟩ hi hs
  obtain ⟨hslots, hframes⟩ := (acts s.mem (s.loc c) i).keysWithin hs.slots (hs.frames c) hi
  refine ⟨hslots, fun d k hd => ?_⟩
  by_cases hdc : d = c
  · subst hdc
    rw [cpuStep, Threads.step_loc_self] at hd
    exact hframes k hd
  · rw [cpuStep, Threads.step_loc_of_ne hdc] at hd
    exact hs.frames d k hd

theorem Cpu.key_of_admitted {cpu : Cpu} {k : GradSlotKey} (h : cpu.admitted = some k) :
    cpu.key = some k := by
  cases cpu with
  | idle => cases h
  | busy frame p pc =>
    cases pc with
    | create => exact h
    | _ => cases h

theorem Cpu.key_of_passes {sh : SharedMaps} {cpu : Cpu} {k : GradSlotKey}
    (h : cpu.passes sh = some k) : cpu.key = some k := by
  cases cpu with
  | idle => cases h
  | busy frame p pc =>
    cases pc with
    | quotaLookup max | quotaRead max =>
      rw [Cpu.passes] at h
      split at h
      · cases h
      · exact h
    | _ => cases h

omit [DecidableEq C] in
/-- A job of no more keys than its quota is never held up, however the CPUs race. -/
theorem KeysWithin.admittedBelow [Fintype C] {s : CpuSystem C} (hs : KeysWithin K s) {q : ℕ}
    (hK : ∀ jobId, (K.filter fun k => k.jobId = jobId).card ≤ q) (ev : C × CpuInput) :
    AdmittedBelow q s ev := by
  intro k hpass
  have hsub : s.keysOf k.jobId ⊆ K.filter fun k' => k'.jobId = k.jobId := by
    intro k' hk'
    obtain ⟨hkey, hjob⟩ := CpuSystem.mem_keysOf.mp hk'
    refine Finset.mem_filter.mpr ⟨?_, hjob⟩
    exact hkey.elim (hs.slots k') fun ⟨c, hc⟩ => hs.frames c k' (Cpu.key_of_admitted hc)
  have hk : k ∈ K.filter fun k' => k'.jobId = k.jobId :=
    Finset.mem_filter.mpr ⟨hs.frames ev.1 k (Cpu.key_of_passes hpass), rfl⟩
  have hcard := Finset.card_le_card (Finset.erase_subset_erase k hsub)
  exact hcard.trans_lt ((Finset.card_erase_lt_of_mem hk).trans_le (hK k.jobId))

end

/-! ## Two admissions at once -/

/-- Under a quota of one slot, two CPUs race for one key of a job: both are let past the check, and
one of them creates the slot. -/
def sharedKeyRun : List (Fin 2 × CpuInput) :=
  let frame := fun worker =>
    inputFor 1 0 (frameWith (workerPacket ⟨1, 0, 0, worker, 3, 1, 0⟩ fun _ => 5))
  List.replicate 4 (0, frame 0) ++ List.replicate 4 (1, frame 1) ++ List.replicate 5 (0, frame 0)
    ++ List.replicate 3 (1, frame 1)

/-- The second key of the job that follows is refused. -/
def servedRun : List (Fin 2 × CpuInput) :=
  sharedKeyRun ++ List.replicate 6 (1,
    inputFor 1 1 (frameWith (workerPacket ⟨1, 1, 0, 0, 3, 1, 0⟩ fun _ => 5)))

theorem servedRun_bounded :
    (stateAt cpuStep (CpuSystem.init (Fin 2)) servedRun servedRun.length).mem.slotCount 1
      ≤ (1 : BitVec 32).toNat := by
  refine quota_of_admittedBelow (by decide) (by decide +kernel)
    (stepsMeet_iff.mpr fun T ev he => ?_) _ 1
  have hT := (List.getElem?_eq_some_iff.mp he).1
  by_cases hshared : T ≤ sharedKeyRun.length
  · -- only one key has been seen
    have hkeys : KeysWithin {⟨1, 0, 0⟩}
        (stateAt cpuStep (CpuSystem.init (Fin 2)) sharedKeyRun T) := by
      refine keysWithin_run (fun ev hev p hp => ?_) T
      have hall : ∀ ev ∈ sharedKeyRun, keyOf ev.2.frame = ⟨1, 0, 0⟩ := by decide +kernel
      obtain ⟨-, rfl⟩ := parse_eq_ok_iff.mp hp
      exact Finset.mem_singleton.mpr (hall ev hev)
    rw [stateAt, ← List.take_append_of_le_length hshared] at hkeys
    exact hkeys.admittedBelow (fun jobId => Finset.card_filter_le _ _) ev
  · -- the other CPU has left the program
    have hbalanced : Balanced {1} (stateAt cpuStep (CpuSystem.init (Fin 2)) servedRun T) :=
      balanced_stateAt (by decide) (by decide +kernel) (by decide +kernel) T
    have halone : ∀ T < servedRun.length, sharedKeyRun.length < T →
        (stateAt cpuStep (CpuSystem.init (Fin 2)) servedRun T).loc 0 = .idle
          ∧ ((stateAt cpuStep (CpuSystem.init (Fin 2)) servedRun T).loc 1).comparesWith.all
            (fun max => decide (max.toNat ≤ 1)) = true := by decide +kernel
    obtain ⟨hidle, hmax⟩ := halone T hT (not_le.mp hshared)
    have hev : ∀ ev ∈ servedRun.drop sharedKeyRun.length, ev.1 = 1 := by decide +kernel
    have hone : ev.1 = 1 := by
      refine hev ev (List.mem_of_getElem? (i := T - sharedKeyRun.length) ?_)
      rw [List.getElem?_drop, Nat.add_sub_cancel' (not_le.mp hshared).le]
      exact he
    obtain ⟨c, i⟩ := ev
    obtain rfl : c = 1 := hone
    have hother : ∀ d : Fin 2, d ≠ 1 → d = 0 := by decide
    have hcurrent := hbalanced.counterCurrent (i := i) fun d hd => (hother d hd).symm ▸ hidle
    refine hcurrent.admittedBelow Nat.one_pos fun max hcompare => ?_
    rw [hcompare, Option.all_some] at hmax
    exact of_decide_eq_true hmax

/-- Under a quota of one slot, two CPUs on two keys of a job both find no entry for it, and then
both create their slot. -/
def racedRun : List (Fin 2 × CpuInput) :=
  let first := inputFor 1 0 (frameWith (workerPacket ⟨1, 0, 0, 0, 2, 1, 0⟩ fun _ => 5))
  let second := inputFor 1 1 (frameWith (workerPacket ⟨1, 1, 0, 0, 2, 1, 0⟩ fun _ => 5))
  List.replicate 4 (0, first) ++ List.replicate 4 (1, second) ++ [(0, first), (1, second)]

theorem racedRun_exceeds :
    FewJobIds racedRun ∧ QuotaInForce 1 racedRun
      ∧ (1 : BitVec 32).toNat
        < (stateAt cpuStep (CpuSystem.init (Fin 2)) racedRun racedRun.length).mem.slotCount 1 := by
  refine ⟨⟨{1}, by decide, by decide +kernel⟩, by decide +kernel, ?_⟩
  · have hfirst : (stateAt cpuStep (CpuSystem.init (Fin 2)) racedRun
        racedRun.length).mem.slotMap ⟨1, 0, 0⟩ = some 0 := by decide +kernel
    have hsecond : (stateAt cpuStep (CpuSystem.init (Fin 2)) racedRun
        racedRun.length).mem.slotMap ⟨1, 1, 0⟩ = some 1 := by decide +kernel
    exact Pool.one_lt_count hfirst hsecond rfl rfl (by decide)

end NetSum.XdpAgg
