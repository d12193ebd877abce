import NetSum.XdpAgg.CpuCountTheorems
import NetSum.XdpAgg.CpuEmissionTheorems

/-!
# One frame for each worker, on several CPUs

Several CPUs run the program on a collection of frames, one for each worker of a key, with a
parameter server and no quota. A key is deleted once all its workers are counted, and then no CPU
is on its way to the key's slot, so no CPU holds a pointer to a slot that was deleted
(`current_of_collection`). Every frame is counted in the step in which its CPU holds the lock, and
a key is transmitted by the CPU that counted its last worker. So whatever the interleaving, the
CPUs leave what the program leaves when it takes the frames one at a time, and transmit the same
(`serializable`).
-/

namespace NetSum.XdpAgg

open NetSum.Lib NetSum.Protocol NetSum.Aggregation

/-! ## Progress -/

/-- One if the CPU has a frame of the key on its way to the lock. -/
def Stage.waitsFor (k : GradSlotKey) : Stage → ℕ
  | .waiting frame => if keyOf frame = k then 1 else 0
  | _ => 0

/-- One if the CPU is about to delete the key. -/
def Stage.closes (k : GradSlotKey) : Stage → ℕ
  | .closing k' _ _ => if k' = k then 1 else 0
  | _ => 0

/-- One if the CPU is about to transmit the sums of the key. -/
def Stage.sends (k : GradSlotKey) : Stage → ℕ
  | .closing k' _ _ | .leaving k' _ _ => if k' = k then 1 else 0
  | _ => 0

/-- One if all workers of the key are counted. -/
def Rounds.done (R : Rounds) (A : GradSlotKey → Finset ℕ) (k : GradSlotKey) : ℕ :=
  if (A k).Nonempty ∧ (A k).card = R.fanIn k then 1 else 0

/-- One if all workers of the key are counted and it is linked. -/
def Rounds.due (R : Rounds) (A : GradSlotKey → Finset ℕ) (sh : SharedMaps) (k : GradSlotKey) : ℕ :=
  if (sh.slotMap k).isSome then R.done A k else 0

/-- What the CPUs transmitted for the key. -/
def sentFor (k : GradSlotKey) (os : List CpuOutput) : List (GradSlotKey × ℕ × List (BitVec 32)) :=
  (os.filterMap fun o => o.returned.bind (transmittedOf k)).map fun p => contents (payload p)

theorem sentFor_append (k : GradSlotKey) (os os' : List CpuOutput) :
    sentFor k (os ++ os') = sentFor k os ++ sentFor k os' := by
  rw [sentFor, List.filterMap_append, List.map_append, ← sentFor, ← sentFor]

theorem sentFor_singleton (k : GradSlotKey) (o : CpuOutput) : sentFor k [o]
    = ((o.returned.bind (transmittedOf k)).map fun p => contents (payload p)).toList := by
  rw [sentFor, List.filterMap_cons]
  cases o.returned.bind (transmittedOf k) <;> rfl

/-- A step that transmits nothing. -/
theorem sentFor_of_not_tx {k : GradSlotKey} {o : CpuOutput}
    (h : ∀ x, o.returned = some x → x.1.action ≠ .tx) : sentFor k [o] = [] := by
  have hnone : o.returned.bind (transmittedOf k) = none := by
    cases hx : o.returned with
    | none => rfl
    | some x =>
      rw [Option.bind_some, transmittedOf, transmitted, if_neg (h x hx)]
      rfl
  rw [sentFor_singleton, hnone]
  rfl

theorem sentFor_of_none {k : GradSlotKey} {o : CpuOutput} (h : o.returned = none) :
    sentFor k [o] = [] := by
  apply sentFor_of_not_tx
  intro x hx
  rw [h] at hx
  cases hx

/-- A step that transmits a frame of key `k`. -/
theorem sentFor_of_tx {k : GradSlotKey} {o : CpuOutput} {out : Bytes}
    (h : o.returned = some (.complete, out)) (hkey : keyOf out = k) (k' : GradSlotKey) :
    sentFor k' [o] = if k = k' then [contents (payload out)] else [] := by
  have hout : o.returned.bind (transmittedOf k') = if k = k' then some out else none := by
    rw [h, Option.bind_some, ← hkey]
    by_cases hk : keyOf out = k'
    · rw [if_pos hk]
      exact Option.filter_eq_some_iff.mpr ⟨rfl, decide_eq_true hk⟩
    · rw [if_neg hk]
      exact Option.filter_some_neg (by simpa using hk)
  rw [sentFor_singleton, hout]
  split <;> rfl

/-- One step on: after it the workers `A'` are counted. The numbers of frames, of keys to be
deleted and of sums to be transmitted stay in balance. -/
structure Advances (R : Rounds) (ds ds' : List Bytes) (A A' : GradSlotKey → Finset ℕ)
    (sh : SharedMaps) (cpu : Cpu) (r : SharedMaps × Cpu × CpuOutput) : Prop where
  counted : Counted R ds' A' r.1
  own : Relies R ds' A' r.1 r.2.1
  other : ∀ cpu', Relies R ds A sh cpu' → Distinct cpu cpu' →
    Relies R ds' A' r.1 cpu' ∧ Distinct r.2.1 cpu'
  waits : ∀ k, (A' k).card + r.2.1.stage.waitsFor k + (workersOf k ds).length
    = (A k).card + cpu.stage.waitsFor k + (workersOf k ds').length
  closes : ∀ k, r.2.1.stage.closes k + R.due A sh k = cpu.stage.closes k + R.due A' r.1 k
  sends : ∀ k, (sentFor k [r.2.2]).length + r.2.1.stage.sends k + R.done A k
    = cpu.stage.sends k + R.done A' k
  reports : ∀ k, ∀ c ∈ sentFor k [r.2.2], ∃ T, R.Tallies k (A' k) T ∧ c = T.contents k
  kept : ∀ k, (A k).card = R.fanIn k → A' k = A k

section

variable {R : Rounds} {ds : List Bytes} {A : GradSlotKey → Finset ℕ} {sh : SharedMaps}
  {i : CpuInput} {cpu : Cpu} {r : SharedMaps × Cpu × CpuOutput}

/-- A step that leaves the slots and the CPU's stage alone. -/
theorem Advances.of_still (hcounted : Counted R ds A sh) (hrelies : Relies R ds A sh cpu)
    (hpoints : r.2.1.Points r.1) (hmap : r.1.slotMap = sh.slotMap) (hslots : r.1.slots = sh.slots)
    (hstage : r.2.1.stage = cpu.stage)
    (hout : ∀ x, r.2.2.returned = some x → x.1.action ≠ .tx) :
    Advances R ds ds A A sh cpu r := by
  have hkeep : ∀ cpu', Relies R ds A sh cpu' → Relies R ds A r.1 cpu' := by
    intro cpu' h
    refine h.keep (fun _ => id) (fun f e _ he => ?_) (fun f hf => (h.waiting f hf).2)
      (fun k f L _ => ?_) fun _ _ => rfl
    · rw [hmap]
      exact he
    · rw [hmap]
  have hcounted' := hcounted.keep hmap hslots []
  rw [List.append_nil] at hcounted'
  refine ⟨hcounted', (hkeep cpu hrelies).of_stage hstage hpoints,
    fun cpu' h hdistinct => ⟨hkeep cpu' h, hdistinct.of_stage hstage⟩, fun k => ?_, fun k => ?_,
    fun k => ?_, fun k c hc => ?_, fun _ _ => rfl⟩
  · rw [hstage]
  · rw [hstage, Rounds.due, Rounds.due, hmap]
  · rw [hstage, sentFor_of_not_tx hout, List.length_nil, Nat.zero_add]
  · rw [sentFor_of_not_tx hout] at hc
    exact absurd hc List.not_mem_nil

theorem workersOf_concat (k : GradSlotKey) (frame : Bytes) :
    (workersOf k (ds ++ [frame])).length
      = (workersOf k ds).length + if keyOf frame = k then 1 else 0 := by
  rw [workersOf, workersOf, List.filter_append, List.map_append, List.length_append]
  by_cases hkey : keyOf frame = k
  · rw [List.filter_cons_of_pos (by simpa using hkey), if_pos hkey]
    rfl
  · rw [List.filter_cons_of_neg (by simpa using hkey), if_neg hkey]
    rfl

/-- A frame of a collection is of another worker than those that arrived before it. -/
theorem Collection.workerOf_ne {frame frame' : Bytes} (h : Collection (ds ++ [frame']))
    (hf : frame ∈ ds) (hkey : keyOf frame = keyOf frame') : workerOf frame ≠ workerOf frame' := by
  intro hworker
  have honce := h.once
  rw [List.map_append, List.nodup_append] at honce
  exact honce.2.2 _ (List.mem_map_of_mem hf) _ (List.mem_map_of_mem List.mem_cons_self)
    (Prod.ext hkey hworker)

/-- A frame arrives. -/
theorem Advances.of_arrive (hcounted : Counted R ds A sh)
    (hcollection : Collection (ds ++ [i.frame])) (hidle : cpu.stage = .idle)
    (hpoints : r.2.1.Points r.1) (hmem : r.1 = sh) (hstage : r.2.1.stage = .waiting i.frame)
    (hout : r.2.2.returned = none) : Advances R ds (ds ++ [i.frame]) A A sh cpu r := by
  have hnew : workerOf i.frame ∉ A (keyOf i.frame) := by
    intro hmemA
    obtain ⟨frame, hframe, hkey, hworker⟩ := mem_workersOf.mp (hcounted.subset _ _ hmemA)
    exact hcollection.workerOf_ne hframe hkey hworker
  have hkeep : ∀ cpu', Relies R ds A sh cpu' → Relies R (ds ++ [i.frame]) A r.1 cpu' := by
    intro cpu' h
    rw [hmem]
    exact h.keep (fun _ => List.mem_append_left _) (fun _ _ _ => id)
      (fun f hf => (h.waiting f hf).2) (fun _ _ _ _ => rfl) fun _ _ => rfl
  refine ⟨hcounted.keep (by rw [hmem]) (by rw [hmem]) [i.frame],
    .of_waiting hstage hpoints (List.mem_append_right _ List.mem_cons_self) hnew,
    fun cpu' h _ => ⟨hkeep cpu' h, ?_, ?_⟩, fun k => ?_, fun k => ?_, fun k => ?_,
    fun k c hc => ?_, fun _ _ => rfl⟩
  · -- the CPUs that wait have frames that arrived before
    intro f f' hf hf' hkey
    rw [hstage] at hf
    obtain rfl : i.frame = f := by injection hf
    exact (hcollection.workerOf_ne (h.waiting f' hf').1 hkey.symm).symm
  · intro k f L f' L' hf
    rw [hstage] at hf
    cases hf
  · rw [hstage, hidle, workersOf_concat]
    simp only [Stage.waitsFor]
    omega
  · rw [hstage, hidle, hmem]
    rfl
  · rw [hstage, hidle, sentFor_of_none hout]
    simp only [Stage.sends, List.length_nil]
  · rw [sentFor_of_none hout] at hc
    exact absurd hc List.not_mem_nil

/-- A slot is created. -/
theorem Advances.of_create (hcounted : Counted R ds A sh) (hrelies : Relies R ds A sh cpu)
    (hR : ∀ frame ∈ ds, R.Sends frame) (hpoints : r.2.1.Points r.1) {f : Bytes}
    (hstage : cpu.stage = .waiting f) (hk : sh.slotMap (keyOf f) = none)
    (hslot : sh.slotMap.owner i.elem = none)
    (hmap : r.1.slotMap = sh.slotMap.link (keyOf f) i.elem hk hslot)
    (hslots : r.1.slots = Function.update sh.slots i.elem
      (.fresh (GradHdr.decode (payload f)).chunkLen (GradHdr.decode (payload f)).numWorkers))
    (hnext : r.2.1.stage = .waiting f) (hout : r.2.2.returned = none) :
    Advances R ds ds A A sh cpu r := by
  obtain ⟨hf, hnew⟩ := hrelies.waiting f hstage
  have hsame : r.2.1.stage = cpu.stage := hnext.trans hstage.symm
  have hkeep : ∀ cpu', Relies R ds A sh cpu' → Relies R ds A r.1 cpu' := by
    intro cpu' h
    refine h.keep (fun _ => id) (fun f' e _ he => ?_) (fun f' hf' => (h.waiting f' hf').2)
      (fun k f' L hclosing => ?_) fun _ _ => rfl
    · rw [hmap]
      exact Pool.link_apply_of_some hk hslot he
    · rw [hmap, Pool.link_apply, if_neg]
      rintro rfl
      have hsome := h.closing _ f' L hclosing
      rw [hk] at hsome
      cases hsome
  refine ⟨hcounted.create hR hf hnew hk hslot hmap hslots, .of_waiting hnext hpoints hf hnew,
    fun cpu' h hdistinct => ⟨hkeep cpu' h, hdistinct.of_stage hsame⟩, fun k => ?_, fun k => ?_,
    fun k => ?_, fun k c hc => ?_, fun _ _ => rfl⟩
  · rw [hsame]
  · -- the key that is linked now is not complete
    rw [hsame]
    have hdue : R.due A r.1 k = R.due A sh k := by
      rw [Rounds.due, Rounds.due, hmap, Pool.link_apply]
      by_cases hkey : k = keyOf f
      · have hlt := (hcounted.card_lt hR hf hnew).2
        rw [if_pos hkey, hkey, hk]
        show R.done A (keyOf f) = 0
        exact if_neg fun h => absurd h.2 (Nat.ne_of_lt hlt)
      · rw [if_neg hkey]
    rw [hdue]
  · rw [hsame, sentFor_of_none hout, List.length_nil, Nat.zero_add]
  · rw [sentFor_of_none hout] at hc
    exact absurd hc List.not_mem_nil

/-- A complete key is deleted. -/
theorem Advances.of_delete (hcounted : Counted R ds A sh) (hrelies : Relies R ds A sh cpu)
    (hR : ∀ frame ∈ ds, R.Sends frame) (hpoints : r.2.1.Points r.1) {k : GradSlotKey} {f : Bytes}
    {L : BitVec 16} (hstage : cpu.stage = .closing k f L)
    (hmap : r.1.slotMap = sh.slotMap.unlink k) (hslots : r.1.slots = sh.slots)
    (hnext : r.2.1.stage = .leaving k f L) (hout : r.2.2.returned = none) :
    Advances R ds ds A A sh cpu r := by
  have hsum := hrelies.summed k f L (.inl hstage)
  have hlinked := hrelies.closing k f L hstage
  have hkeep : ∀ cpu', Relies R ds A sh cpu' → Distinct cpu cpu' → Relies R ds A r.1 cpu' := by
    intro cpu' h hdistinct
    refine h.keep (fun _ => id) (fun f' e hf' he => ?_) (fun f' hf' => (h.waiting f' hf').2)
      (fun k' f' L' hclosing => ?_) fun _ _ => rfl
    · -- a CPU that waits has a worker that is missing, so its key is another
      obtain ⟨hmem', hnew'⟩ := h.waiting f' hf'
      rw [hmap, Pool.unlink_apply_of_ne, he]
      intro hkey
      have hlt := (hcounted.card_lt hR hmem' hnew').2
      rw [hkey, hsum.2.1] at hlt
      exact absurd hlt (Nat.lt_irrefl _)
    · rw [hmap, Pool.unlink_apply_of_ne]
      rintro rfl
      exact hdistinct.closing k' f L f' L' hstage hclosing
  refine ⟨hcounted.delete hsum.2.1 hmap hslots,
    .of_result (.inr hnext) hpoints (fun h => ?_) hsum,
    fun cpu' h hdistinct => ⟨hkeep cpu' h hdistinct, .of_free (fun f' => ?_) fun k' f' L' => ?_⟩,
    fun k' => ?_, fun k' => ?_, fun k' => ?_, fun k' c hc => ?_, fun _ _ => rfl⟩
  · rw [hnext] at h
    cases h
  · rw [hnext]
    nofun
  · rw [hnext]
    nofun
  · rw [hnext, hstage]
    rfl
  · rw [hnext, hstage, Rounds.due, Rounds.due, hmap, Pool.unlink_apply]
    simp only [Stage.closes]
    by_cases hkey : k = k'
    · subst hkey
      rw [if_pos hlinked, if_pos rfl, if_pos rfl, Rounds.done, if_pos ⟨hsum.1, hsum.2.1⟩]
      rfl
    · rw [if_neg hkey, if_neg (Ne.symm hkey)]
  · rw [hnext, hstage, sentFor_of_none hout]
    simp only [Stage.sends, List.length_nil, Nat.zero_add]
  · rw [sentFor_of_none hout] at hc
    exact absurd hc List.not_mem_nil

/-- What a frame that is about to be transmitted says. -/
theorem Completed.contents_eq {k : GradSlotKey} {frame : Bytes} {L : BitVec 16}
    (h : Completed R A k frame L) (cfg : NetsumConfig) :
    ∃ T, R.Tallies k (A k) T ∧ keyOf (rewriteHeaders cfg L frame) = k
      ∧ contents (payload (rewriteHeaders cfg L frame)) = T.contents k := by
  obtain ⟨-, -, f, s, hf, hkey, rfl, hs, hL, hT⟩ := h
  subst hs
  have hforwards := forwards_rewriteHeaders cfg hf.1.length_le hf.2 hL
  have hkey' : (GradHdr.decode (payload (rewriteHeaders cfg s.chunkLen
      (writeBack f s s.chunkLen)))).key = k := by
    rw [hforwards.hdr_eq]
    exact hkey
  have hlen : (GradHdr.decode (payload (rewriteHeaders cfg s.chunkLen
      (writeBack f s s.chunkLen)))).chunkLen.toNat = s.tally.chunkLen := by
    rw [hforwards.hdr_eq, ← hL]
    rfl
  refine ⟨s.tally, hT, hkey', Aggregation.contents_eq hkey' hlen ?_ fun j hj => ?_⟩
  · show s.chunkLen.toNat ≤ netsumMaxChunkLen
    rw [hL]
    exact hf.2.chunkLen_le
  · exact hforwards.value_eq j (by rw [← hL]; exact hj)

/-- The sums of a key are transmitted. -/
theorem Advances.of_transmit (hcounted : Counted R ds A sh) (hrelies : Relies R ds A sh cpu)
    (hpoints : r.2.1.Points r.1) {k : GradSlotKey} {f : Bytes} {L : BitVec 16}
    (hstage : cpu.stage = .leaving k f L) (hmem : r.1 = sh) (hnext : r.2.1.stage = .idle)
    (hout : r.2.2.returned = some (.complete, rewriteHeaders i.cfg L f)) :
    Advances R ds ds A A sh cpu r := by
  have hsum := hrelies.summed k f L (.inr hstage)
  obtain ⟨T, hT, hkey, hcontents⟩ := hsum.contents_eq i.cfg
  have hsent := sentFor_of_tx hout hkey
  rw [hcontents] at hsent
  refine ⟨hmem ▸ hcounted, .of_idle hnext hpoints,
    fun cpu' h hdistinct => ⟨hmem ▸ h, .of_free (fun f' => ?_) fun k' f' L' => ?_⟩,
    fun k' => ?_, fun k' => ?_, fun k' => ?_, fun k' c hc => ?_, fun _ _ => rfl⟩
  · rw [hnext]
    nofun
  · rw [hnext]
    nofun
  · rw [hnext, hstage]
    rfl
  · rw [hnext, hstage, hmem]
    rfl
  · rw [hnext, hstage, hsent]
    simp only [Stage.sends]
    split <;> rfl
  · rw [hsent] at hc
    split at hc
    · next hk =>
      subst hk
      exact ⟨T, hT, List.mem_singleton.mp hc⟩
    · exact absurd hc List.not_mem_nil

/-- A frame is counted: its CPU is done with it, or has the sums if it was the last one. -/
theorem Advances.of_count (hcounted : Counted R ds A sh) (hrelies : Relies R ds A sh cpu)
    (hR : ∀ frame ∈ ds, R.Sends frame) (hcollection : Collection ds) {f : Bytes} {slot : Elem}
    (hstage : cpu.stage = .waiting f) (hk : sh.slotMap (keyOf f) = some slot)
    (hmap : r.1.slotMap = sh.slotMap)
    (hslots : r.1.slots = Function.update sh.slots slot
      ((sh.slots slot).accumulate f (.ofPayload (payload f))))
    (hout : ∀ x, r.2.2.returned = some x → x.1.action ≠ .tx) (hpoints : r.2.1.Points r.1)
    (hnext : (sh.slots slot).contributionsReceived + 1 ≠ (sh.slots slot).numWorkersExpected
        ∧ r.2.1.stage = .idle
      ∨ (sh.slots slot).contributionsReceived + 1 = (sh.slots slot).numWorkersExpected
        ∧ r.2.1.stage = .closing (keyOf f)
          (writeBack f ((sh.slots slot).accumulate f (.ofPayload (payload f)))
            (sh.slots slot).chunkLen) (sh.slots slot).chunkLen) :
    Advances R ds ds A (withWorker A f) sh cpu r := by
  obtain ⟨hf, hnew⟩ := hrelies.waiting f hstage
  have hcounts := hcollection.counts hf
  obtain ⟨hlen, -, hT⟩ := hcounted.fits hR hf hcounts hnew hk
  have hlt := (hcounted.card_lt hR hf hnew).2
  have hself : withWorker A f (keyOf f) = insert (workerOf f) (A (keyOf f)) :=
    Function.update_self ..
  have hother : ∀ k, k ≠ keyOf f → withWorker A f k = A k := fun k hk => Function.update_of_ne hk ..
  have hcard : (withWorker A f (keyOf f)).card = (A (keyOf f)).card + 1 := by
    rw [hself, Finset.card_insert_of_notMem hnew]
  -- the counter says whether all workers are in
  have hfull : (sh.slots slot).contributionsReceived + 1 = (sh.slots slot).numWorkersExpected
      ↔ (withWorker A f (keyOf f)).card = R.fanIn (keyOf f) := by
    rw [hself, ← hT.count_eq, ← hT.fanIn_eq]
    exact BitVec.toNat_inj.symm
  have hkept : ∀ k, (A k).card = R.fanIn k → withWorker A f k = A k := by
    intro k hcardk
    apply hother
    rintro rfl
    exact absurd hcardk (Nat.ne_of_lt hlt)
  have hnone : R.done A (keyOf f) = 0 := if_neg fun h => absurd h.2 (Nat.ne_of_lt hlt)
  have hdone : R.done (withWorker A f) (keyOf f)
      = if (withWorker A f (keyOf f)).card = R.fanIn (keyOf f) then 1 else 0 := by
    have hne : (withWorker A f (keyOf f)).Nonempty := by
      rw [hself]
      exact Finset.insert_nonempty ..
    rw [Rounds.done]
    simp only [hne, true_and]
  have hdone_of_ne : ∀ k, k ≠ keyOf f → R.done (withWorker A f) k = R.done A k := by
    intro k hk
    rw [Rounds.done, Rounds.done, hother k hk]
  -- the CPU's own numbers
  have hstages : (∀ k, r.2.1.stage.waitsFor k = 0)
      ∧ (∀ k, r.2.1.stage.closes k
        = if keyOf f = k then R.done (withWorker A f) (keyOf f) else 0)
      ∧ ∀ k, r.2.1.stage.sends k
        = if keyOf f = k then R.done (withWorker A f) (keyOf f) else 0 := by
    rcases hnext with ⟨hcount, hnext⟩ | ⟨hcount, hnext⟩
    · rw [hnext, hdone, if_neg fun h => hcount (hfull.mpr h)]
      refine ⟨fun k => rfl, fun k => ?_, fun k => ?_⟩ <;> rw [ite_self] <;> rfl
    · rw [hnext, hdone, if_pos (hfull.mp hcount)]
      exact ⟨fun k => rfl, fun k => rfl, fun k => rfl⟩
  obtain ⟨hwaits, hcloses, hsends⟩ := hstages
  have hwaiting : ∀ f', r.2.1.stage ≠ .waiting f' := by
    intro f' h
    have := hwaits (keyOf f')
    rw [h, Stage.waitsFor, if_pos rfl] at this
    cases this
  refine ⟨hcounted.count hR hf hcounts hnew hk hmap hslots, ?_, fun cpu' h hdistinct => ⟨?_, ?_⟩,
    fun k => ?_, fun k => ?_, fun k => ?_, fun k c hc => ?_, hkept⟩
  · rcases hnext with ⟨hcount, hnext⟩ | ⟨hcount, hnext⟩
    · exact .of_idle hnext hpoints
    · refine .of_result (.inl hnext) hpoints (fun _ => ?_) ⟨?_, hfull.mp hcount, f, _, hcounts, rfl,
        rfl, rfl, hlen, hself ▸ hT⟩
      · rw [hmap, hk]
        rfl
      · rw [hself]
        exact Finset.insert_nonempty ..
  · refine h.keep (fun _ => id) (fun f' e _ he => ?_) (fun f' hf' => ?_) (fun k f' L _ => ?_) hkept
    · rw [hmap]
      exact he
    · by_cases hkey : keyOf f' = keyOf f
      · rw [hkey, hself, Finset.mem_insert, not_or, ← hkey]
        exact ⟨(hdistinct.waiting f f' hstage hf' hkey.symm).symm, (h.waiting f' hf').2⟩
      · rw [hother _ hkey]
        exact (h.waiting f' hf').2
    · rw [hmap]
  · -- a key that another CPU is about to delete was complete before
    refine ⟨fun f' _ hf' => absurd hf' (hwaiting f'), fun k f' L f'' L' hf' hf'' => ?_⟩
    rcases hnext with ⟨-, hnext⟩ | ⟨-, hnext⟩
    · rw [hnext] at hf'
      cases hf'
    · rw [hnext] at hf'
      obtain rfl : keyOf f = k := by injection hf'
      have hfull' := (h.summed _ _ _ (.inl hf'')).2.1
      exact absurd hfull' (Nat.ne_of_lt hlt)
  · rw [hwaits, hstage]
    simp only [Stage.waitsFor]
    by_cases hkey : keyOf f = k
    · subst hkey
      rw [hcard, if_pos rfl]
    · rw [hother k (Ne.symm hkey), if_neg hkey]
  · rw [hcloses, hstage, Rounds.due, Rounds.due, hmap]
    simp only [Stage.closes]
    by_cases hkey : keyOf f = k
    · subst hkey
      rw [if_pos rfl, hnone, hk, ite_self, Nat.zero_add, Nat.add_zero]
      rfl
    · rw [if_neg hkey, hdone_of_ne k (Ne.symm hkey)]
  · rw [hsends, hstage, sentFor_of_not_tx hout]
    simp only [Stage.sends, List.length_nil]
    by_cases hkey : keyOf f = k
    · subst hkey
      rw [if_pos rfl, hnone]
      omega
    · rw [if_neg hkey, hdone_of_ne k (Ne.symm hkey)]
  · rw [sentFor_of_not_tx hout] at hc
    exact absurd hc List.not_mem_nil

/-- The map has room for the keys of a collection. -/
theorem Counted.exists_free (h : Counted R ds A sh) (hcollection : Collection ds) :
    ∃ e, sh.slotMap.owner e = none := by
  by_contra hfull
  push Not at hfull
  have hcount : sh.slotMap.count (fun _ => true) = Fintype.card Elem := by
    apply Pool.count_eq_card
    intro e
    obtain ⟨k, hk⟩ := Option.ne_none_iff_exists'.mp (hfull e)
    rw [hk]
    rfl
  have hkeys : sh.slotMap.count (fun _ => true)
      = ((ds.map keyOf).toFinset.filter fun k => (sh.slotMap k).isSome).card := by
    apply Pool.count_eq_keys_card
    intro k
    rw [Finset.mem_filter, List.mem_toFinset]
    refine ⟨And.right, fun hk => ⟨?_, hk⟩⟩
    obtain ⟨e, he⟩ := Option.isSome_iff_exists.mp hk
    exact (h.linked k e he).2
  have hle := (Finset.card_filter_le (ds.map keyOf).toFinset
    fun k => (sh.slotMap k).isSome).trans_lt hcollection.keys_lt
  rw [← hkeys, hcount, Fintype.card_fin] at hle
  exact absurd hle (Nat.lt_irrefl _)

/-- The frame that a CPU takes in, if it counts. -/
def arrived (cpu : Cpu) (i : CpuInput) : List Bytes :=
  if cpu = .idle ∧ Counts i.frame then [i.frame] else []

theorem arrived_of_stage (h : cpu.stage ≠ .idle) : arrived cpu i = [] := by
  apply if_neg
  rintro ⟨rfl, -⟩
  exact h rfl

/-- **One step** of a CPU that does its part. -/
theorem exists_advances (hcollection : Collection (ds ++ arrived cpu i))
    (hR : ∀ frame ∈ ds, R.Sends frame) (hcounted : Counted R ds A sh)
    (hrelies : Relies R ds A sh cpu) (hi : i.Unlimited) :
    ∃ A', Advances R ds (ds ++ arrived cpu i) A A' sh cpu (cpu.act sh i) := by
  have hds := hcollection.of_append
  obtain ⟨hturn, hpoints⟩ := Cpu.turn hrelies.points hrelies.regular hi
    (fun f hf => hds.fanInOk (hrelies.waiting f hf).1)
    (fun f _ _ => hcounted.exists_free hds) fun f slot hf hslot => by
      obtain ⟨hmem, hnew⟩ := hrelies.waiting f hf
      obtain ⟨hlen, hseen, -⟩ := hcounted.fits hR hmem (hds.counts hmem) hnew hslot
      exact ⟨hlen, hseen⟩
  have hnone : ∀ {x : Stage}, cpu.stage = x → x ≠ .idle → ds ++ arrived cpu i = ds := by
    intro x hx hne
    rw [arrived_of_stage (hx ▸ hne), List.append_nil]
  generalize cpu.act sh i = r at hturn hpoints ⊢
  cases hturn with
  | ignore hidle hnot hmem hnext hout =>
    have harrived : arrived cpu i = [] := if_neg fun h => hnot h.2
    rw [harrived, List.append_nil]
    refine ⟨A, .of_still hcounted hrelies hpoints (by rw [hmem]) (by rw [hmem]) ?_ hout⟩
    rw [hnext, hidle]
    rfl
  | arrive hidle hcounts hmem hnext hout =>
    have harrived : arrived cpu i = [i.frame] := if_pos ⟨hidle, hcounts⟩
    rw [harrived] at hcollection ⊢
    refine ⟨A, .of_arrive hcounted hcollection ?_ hpoints hmem hnext hout⟩
    rw [hidle]
    rfl
  | advance hstage hmap hslots hnext hout =>
    rw [hnone hstage nofun]
    refine ⟨A, .of_still hcounted hrelies hpoints hmap hslots (hnext.trans hstage.symm) ?_⟩
    intro x hx
    rw [hout] at hx
    cases hx
  | create hstage hk hslot hmap hslots hnext hout =>
    rw [hnone hstage nofun]
    exact ⟨A, .of_create hcounted hrelies hR hpoints hstage hk hslot hmap hslots hnext hout⟩
  | absorb hstage hk hcount hmap hslots hnext hout =>
    rw [hnone hstage nofun]
    refine ⟨_, .of_count hcounted hrelies hR hds hstage hk hmap hslots ?_ hpoints
      (.inl ⟨hcount, hnext⟩)⟩
    intro x hx
    rw [hout] at hx
    cases hx
    exact (nofun : XdpAction.drop ≠ .tx)
  | complete hstage hk hcount hmap hslots hnext hout =>
    rw [hnone hstage nofun]
    refine ⟨_, .of_count hcounted hrelies hR hds hstage hk hmap hslots ?_ hpoints
      (.inr ⟨hcount, hnext⟩)⟩
    intro x hx
    rw [hout] at hx
    cases hx
  | carry hstage hmap hslots hnext hout =>
    have hne : ds ++ arrived cpu i = ds := by
      rcases hstage with hstage | hstage <;> exact hnone hstage nofun
    rw [hne]
    refine ⟨A, .of_still hcounted hrelies hpoints hmap hslots hnext ?_⟩
    intro x hx
    rw [hout] at hx
    cases hx
  | delete hstage hmap hslots hnext hout =>
    rw [hnone hstage nofun]
    exact ⟨A, .of_delete hcounted hrelies hR hpoints hstage hmap hslots hnext hout⟩
  | transmit hstage hmem hnext hout =>
    rw [hnone hstage nofun]
    exact ⟨A, .of_transmit hcounted hrelies hpoints hstage hmem hnext hout⟩

end

/-! ## Runs -/

section

variable {C : Type} [DecidableEq C]

/-- The frames that the CPUs take in and that count, in the order in which they do. -/
def arrivals : CpuSystem C → List (C × CpuInput) → List Bytes
  | _, [] => []
  | s, ev :: es => arrived (s.loc ev.1) ev.2 ++ arrivals (cpuStep s ev).1 es

theorem arrivals_append (s : CpuSystem C) (es fs : List (C × CpuInput)) :
    arrivals s (es ++ fs) = arrivals s es ++ arrivals (runState cpuStep s es) fs := by
  induction es generalizing s with
  | nil => rfl
  | cons ev es ih =>
    rw [List.cons_append, arrivals, arrivals, ih, List.append_assoc]
    rfl

/-- A frame that counts arrives at a CPU that waits. -/
theorem mem_arrivals {es : List (C × CpuInput)} {T : ℕ} {ev : C × CpuInput}
    (hev : es[T]? = some ev)
    (hidle : (stateAt cpuStep (CpuSystem.init C) es T).loc ev.1 = .idle)
    (hcounts : Counts ev.2.frame) : ev.2.frame ∈ arrivals (CpuSystem.init C) es := by
  have hsplit : es = es.take T ++ (ev :: es.drop (T + 1)) := by
    rw [← List.getElem?_eq_some_iff.mp hev |>.2, ← List.drop_eq_getElem_cons, List.take_append_drop]
  rw [hsplit, arrivals_append, arrivals, ← stateAt, arrived, if_pos ⟨hidle, hcounts⟩]
  exact List.mem_append_right _ (List.mem_append_left _ List.mem_cons_self)

theorem counts_of_mem_arrivals {s : CpuSystem C} {es : List (C × CpuInput)} {frame : Bytes}
    (h : frame ∈ arrivals s es) : Counts frame := by
  induction es generalizing s with
  | nil => exact absurd h List.not_mem_nil
  | cons ev es ih =>
    rcases List.mem_append.mp h with h | h
    · unfold arrived at h
      split at h
      · next hcounts =>
        rw [List.mem_singleton.mp h]
        exact hcounts.2
      · exact absurd h List.not_mem_nil
    · exact ih h

variable [Fintype C] {R : Rounds} {es : List (C × CpuInput)}

/-- What holds after the frames `ds` arrived and the workers `A` are counted. -/
structure Progress (R : Rounds) (ds : List Bytes) (A : GradSlotKey → Finset ℕ) (s : CpuSystem C)
    (os : List CpuOutput) : Prop where
  keeps : s.Keeps (Counted R ds A) (fun _ => Relies R ds A) Distinct
  waits : ∀ k, (A k).card + s.total (fun cpu => cpu.stage.waitsFor k) = (workersOf k ds).length
  closes : ∀ k, s.total (fun cpu => cpu.stage.closes k) = R.due A s.mem k
  sends : ∀ k, (sentFor k os).length + s.total (fun cpu => cpu.stage.sends k) = R.done A k
  reports : ∀ k, ∀ c ∈ sentFor k os, ∃ T, R.Tallies k (A k) T ∧ c = T.contents k

omit [DecidableEq C] in
theorem progress_init : Progress R [] (fun _ => ∅) (CpuSystem.init C) [] := by
  have htotal : ∀ f : Cpu → ℕ, f .idle = 0 → (CpuSystem.init C).total f = 0 := by
    intro f hf
    apply Threads.total_eq_zero
    intro c
    exact hf
  have hdone : ∀ k, R.done (fun _ => ∅) k = 0 := by
    intro k
    apply if_neg
    rintro ⟨hne, -⟩
    exact Finset.not_nonempty_empty hne
  refine ⟨⟨⟨fun k w hw => absurd hw (Finset.notMem_empty w), fun k e he => ?_, fun k _ => .inl rfl⟩,
    fun c => .of_idle rfl trivial, fun c d _ => .of_free (fun f => nofun) fun k f L => nofun⟩,
    fun k => ?_, fun k => ?_, fun k => ?_, fun k c hc => absurd hc List.not_mem_nil⟩
  · cases he
  · rw [htotal _ rfl]
    rfl
  · rw [htotal _ rfl]
    rfl
  · rw [htotal _ rfl, hdone]
    rfl

/-- A step keeps it. -/
theorem Progress.step {ds : List Bytes} {A : GradSlotKey → Finset ℕ} {s : CpuSystem C}
    {os : List CpuOutput} (h : Progress R ds A s os) {c : C} {i : CpuInput}
    (hcollection : Collection (ds ++ arrived (s.loc c) i)) (hR : ∀ frame ∈ ds, R.Sends frame)
    (hi : i.Unlimited) :
    ∃ A', Progress R (ds ++ arrived (s.loc c) i) A' (cpuStep s (c, i)).1
      (os ++ [(cpuStep s (c, i)).2]) := by
  obtain ⟨A', hadv⟩ := exists_advances hcollection hR h.keeps.mem (h.keeps.loc c) hi
  have hwaits := fun k => Threads.total_step (fun cpu => cpu.stage.waitsFor k) Cpu.act s c i
  have hcloses := fun k => Threads.total_step (fun cpu => cpu.stage.closes k) Cpu.act s c i
  have hsends := fun k => Threads.total_step (fun cpu => cpu.stage.sends k) Cpu.act s c i
  refine ⟨A', h.keeps.step (fun _ _ => Distinct.symm) hadv.counted hadv.own
    fun d _ hd hdistinct => hadv.other _ hd hdistinct, fun k => ?_, fun k => ?_, fun k => ?_,
    fun k c' hc' => ?_⟩
  · have h1 := h.waits k
    have h2 := hadv.waits k
    have h3 := hwaits k
    simp only [cpuStep] at h3 ⊢
    omega
  · have h1 := h.closes k
    have h2 := hadv.closes k
    have h3 := hcloses k
    simp only [cpuStep, Threads.step_mem] at h3 ⊢
    omega
  · have h1 := h.sends k
    have h2 := hadv.sends k
    have h3 := hsends k
    rw [sentFor_append, List.length_append]
    simp only [cpuStep] at h3 ⊢
    change (sentFor k [(Threads.step Cpu.act s (c, i)).2]).length + _ + _ = _ at h2
    omega
  · rw [sentFor_append] at hc'
    rcases List.mem_append.mp hc' with hc' | hc'
    · -- a key that was transmitted was complete
      have hdone : R.done A k ≠ 0 := by
        have := List.length_pos_of_mem hc'
        have := h.sends k
        omega
      have hfull : (A k).card = R.fanIn k := by
        by_contra hne
        exact hdone (if_neg fun hd => hne hd.2)
      rw [hadv.kept k hfull]
      exact h.reports k c' hc'
    · exact hadv.reports k c' hc'

/-- **Every run** of a collection keeps it. -/
theorem exists_progress (hcollection : Collection (arrivals (CpuSystem.init C) es))
    (hR : ∀ frame ∈ arrivals (CpuSystem.init C) es, R.Sends frame)
    (hes : ∀ ev ∈ es, ev.2.Unlimited) :
    ∃ A, Progress R (arrivals (CpuSystem.init C) es) A (runState cpuStep (CpuSystem.init C) es)
      (runOut cpuStep (CpuSystem.init C) es) := by
  induction es using List.reverseRecOn with
  | nil => exact ⟨_, progress_init⟩
  | append_singleton es ev ih =>
    have hsplit : arrivals (CpuSystem.init C) (es ++ [ev]) = arrivals (CpuSystem.init C) es
        ++ arrived ((runState cpuStep (CpuSystem.init C) es).loc ev.1) ev.2 := by
      rw [arrivals_append, arrivals, arrivals, List.append_nil]
    rw [hsplit] at hcollection hR ⊢
    have hpre : ∀ frame ∈ arrivals (CpuSystem.init C) es, R.Sends frame :=
      fun frame hf => hR frame (List.mem_append_left _ hf)
    obtain ⟨A, hA⟩ := ih hcollection.of_append hpre fun e he => hes e (List.mem_append_left _ he)
    rw [runState_append, runOut_append]
    exact hA.step hcollection hpre (hes ev (List.mem_append_right _ List.mem_cons_self))

omit [DecidableEq C] in
/-- At any time a key that was transmitted was transmitted once. -/
theorem Progress.length_sentFor_le {ds : List Bytes} {A : GradSlotKey → Finset ℕ}
    {s : CpuSystem C} {os : List CpuOutput} (h : Progress R ds A s os) (k : GradSlotKey) :
    (sentFor k os).length ≤ 1 := by
  have hsends := h.sends k
  unfold Rounds.done at hsends
  split at hsends <;> omega

omit [DecidableEq C] in
/-- When all CPUs wait, the workers that arrived are counted, and what is complete is gone. -/
theorem Progress.of_idle {ds : List Bytes} {A : GradSlotKey → Finset ℕ} {s : CpuSystem C}
    {os : List CpuOutput} (h : Progress R ds A s os)
    (hidle : ∀ c, s.loc c = .idle) (k : GradSlotKey) :
    A k = (workersOf k ds).toFinset ∧ R.due A s.mem k = 0
      ∧ (sentFor k os).length = R.done A k := by
  have htotal : ∀ f : Cpu → ℕ, f .idle = 0 → s.total f = 0 := by
    intro f hf
    apply Threads.total_eq_zero
    intro c
    rw [hidle, hf]
  have hwaits := h.waits k
  have hcloses := h.closes k
  have hsends := h.sends k
  rw [htotal _ rfl, Nat.add_zero] at hwaits hsends
  rw [htotal _ rfl] at hcloses
  refine ⟨?_, hcloses.symm, hsends⟩
  apply Finset.eq_of_subset_of_card_le
  · intro w hw
    exact List.mem_toFinset.mpr (h.keeps.mem.subset k w hw)
  · rw [hwaits]
    exact List.toFinset_card_le _

/-- **Serializability.** Once all CPUs wait, the maps hold for every key what they hold after the
program took the frames one at a time, in any order, and the same was transmitted. -/
theorem serializable {xs : List XdpEvent} (h : Collection (arrivals (CpuSystem.init C) es))
    (hes : ∀ ev ∈ es, ev.2.Unlimited)
    (hidle : ∀ c, (runState cpuStep (CpuSystem.init C) es).loc c = .idle)
    (hperm : (arrivals (CpuSystem.init C) es).Perm (xs.map XdpEvent.frame))
    (hxs : ∀ ev ∈ xs, ev.Unlimited) (k : GradSlotKey) :
    ((runState cpuStep (CpuSystem.init C) es).mem.slotMap k).map
        (runState cpuStep (CpuSystem.init C) es).mem.slots
      = (runState xdpStep Maps.empty xs).slotMap.lookup k
    ∧ sentFor k (runOut cpuStep (CpuSystem.init C) es) = reports k xs := by
  obtain ⟨R, hR⟩ := h.exists_rounds
  obtain ⟨A, hA⟩ := exists_progress h hR hes
  obtain ⟨hAk, hdue, hlen⟩ := hA.of_idle hidle k
  have hcounted := hA.keeps.mem
  have hreports := hA.reports k
  generalize runState cpuStep (CpuSystem.init C) es = s at hdue hcounted ⊢
  generalize sentFor k (runOut cpuStep (CpuSystem.init C) es) = sent at hlen hreports ⊢
  -- the program on one frame after another
  have hworkers : (workersOf k (arrivals (CpuSystem.init C) es)).Perm
      (workersOf k (xs.map XdpEvent.frame)) := (hperm.filter _).map _
  have hxR : ∀ frame ∈ xs.map XdpEvent.frame, keyOf frame = k →
      SendsOne (R.fanIn k) (R.chunkLen k) (R.datagram k) (workerOf frame)
        ∧ R.datagram k (workerOf frame) = payload frame := by
    rintro frame hframe rfl
    exact hR frame (hperm.mem_iff.mpr hframe)
  obtain ⟨hsends, hlive, hsequential⟩ := (h.perm hperm).round_run hxs hxR
  have hseq : (runState xdpStep Maps.empty xs).slotMap.lookup k = (s.mem.slotMap k).map s.mem.slots
      ↔ (runState xdpStep Maps.empty xs).live k
        = ((s.mem.slotMap k).map s.mem.slots).map GradSlot.tally :=
    (Option.map_injective fun _ _ => GradSlot.tally_injective).eq_iff.symm
  rw [eq_comm, hseq, hlive, hsequential]
  by_cases hne : workersOf k (xs.map XdpEvent.frame) = []
  · -- no frame of the key arrived
    have hempty : A k = ∅ := by
      rw [hAk, List.toFinset_eq_of_perm _ _ hworkers, hne]
      rfl
    have hunlinked : s.mem.slotMap k = none := by
      cases he : s.mem.slotMap k with
      | none => rfl
      | some e =>
        obtain ⟨frame, hframe, hkey⟩ := List.mem_map.mp (hcounted.linked k e he).2
        have hmem : workerOf frame ∈ workersOf k (arrivals (CpuSystem.init C) es) :=
          mem_workersOf.mpr ⟨frame, hframe, hkey, rfl⟩
        rw [hworkers.mem_iff, hne] at hmem
        exact absurd hmem List.not_mem_nil
    have hsent : sent = [] := by
      apply List.eq_nil_of_length_eq_zero
      rw [hlen]
      apply if_neg
      rintro ⟨hnonempty, -⟩
      rw [hempty] at hnonempty
      exact Finset.not_nonempty_empty hnonempty
    rw [hne, hunlinked, hsent]
    exact ⟨rfl, rfl⟩
  · obtain ⟨T, hT, hphase⟩ := (phase_run hsends).of_nodup
      (hworkers.nodup_iff.mp (h.workersOf_nodup k)) hne fun w hw => (hsends w hw).worker_lt
    rw [← List.toFinset_eq_of_perm _ _ hworkers, ← hAk] at hT
    have hnonempty : (A k).Nonempty := by
      rw [hAk, List.toFinset_eq_of_perm _ _ hworkers, List.toFinset_nonempty_iff]
      exact hne
    by_cases hlt : T.count < R.fanIn k
    · -- a worker is missing: the slot is still there
      have hcard : (A k).card ≠ R.fanIn k := by
        rw [← hT.count_eq]
        exact Nat.ne_of_lt hlt
      have hsent : sent = [] := by
        apply List.eq_nil_of_length_eq_zero
        rw [hlen]
        exact if_neg fun hd => hcard hd.2
      rw [if_pos hlt] at hphase
      obtain ⟨hstate, hout⟩ := Prod.mk.inj hphase
      rw [hstate, hout, hsent]
      refine ⟨?_, rfl⟩
      cases he : s.mem.slotMap k with
      | none =>
        rcases hcounted.unlinked k he with hempty | hfull
        · rw [hempty] at hnonempty
          exact absurd hnonempty Finset.not_nonempty_empty
        · exact absurd hfull hcard
      | some e => exact congrArg some (hT.unique (hcounted.linked k e he).1)
    · -- all workers are in: the slot is gone and the sums are out
      have hcard : (A k).card = R.fanIn k := by
        have hle : T.count ≤ R.fanIn k := by
          rw [hT.count_eq, hAk, List.toFinset_eq_of_perm _ _ hworkers]
          exact length_le_of_subset_range fun w hw => (hsends w hw).worker_lt
        rw [← hT.count_eq]
        omega
      have hdone : R.done A k = 1 := if_pos ⟨hnonempty, hcard⟩
      rw [hdone] at hlen
      obtain ⟨c, rfl⟩ := List.length_eq_one_iff.mp hlen
      obtain ⟨T', hT', rfl⟩ := hreports c List.mem_cons_self
      obtain rfl := hT.unique hT'
      rw [if_neg hlt] at hphase
      obtain ⟨hstate, hout⟩ := Prod.mk.inj hphase
      rw [hstate, hout]
      refine ⟨?_, rfl⟩
      cases he : s.mem.slotMap k with
      | none => rfl
      | some e =>
        rw [Rounds.due, he, hdone] at hdue
        cases hdue

/-- The slot pointer that a CPU holds, and the key that it looked up. -/
def Cpu.held : Cpu → Option (GradSlotKey × Elem)
  | .busy _ p (.increment slot _) => some (p.key, slot)
  | .busy _ p (.lock slot) => some (p.key, slot)
  | _ => none

omit [DecidableEq C] [Fintype C] in
theorem Cpu.Points.linked_of_held {sh : SharedMaps} {cpu : Cpu} (h : cpu.Points sh)
    {k : GradSlotKey} {slot : Elem} (hheld : cpu.held = some (k, slot)) :
    sh.slotMap k = some slot := by
  cases cpu with
  | idle => cases hheld
  | busy frame p pc =>
    cases pc with
    | increment | lock =>
      cases hheld
      exact h.2
    | lookup | precheck | quotaLookup | quotaRead | create | relookup | config | delete | decrement
    | rewrite | bump => cases hheld

omit [DecidableEq C] in
/-- A CPU on its way to the lock of a linked slot holds no stale pointer. -/
theorem Cpu.Points.current {sh : SharedMaps} {cpu : Cpu} (h : cpu.Points sh) : cpu.Current sh := by
  cases cpu with
  | idle => trivial
  | busy frame p pc =>
    cases pc with
    | lock slot => exact fun _ _ _ => h.2
    | _ => trivial

/-- While CPUs work on a collection, each knows where its key's slot is. -/
theorem points_of_collection (h : Collection (arrivals (CpuSystem.init C) es))
    (hes : ∀ ev ∈ es, ev.2.Unlimited) (T : ℕ) (c : C) :
    ((stateAt cpuStep (CpuSystem.init C) es T).loc c).Points
      (stateAt cpuStep (CpuSystem.init C) es T).mem := by
  obtain ⟨R, hR⟩ := h.exists_rounds
  -- the frames that arrived by then are a collection too
  rw [← List.take_append_drop T es, arrivals_append] at h hR
  obtain ⟨A, hA⟩ := exists_progress h.of_append
    (fun frame hf => hR frame (List.mem_append_left _ hf)) fun e he => hes e (List.mem_of_mem_take he)
  exact (hA.keeps.loc c).points

/-- So a CPU that counts its frame counts it into a slot of its own key. -/
theorem stepsMeet_current (h : Collection (arrivals (CpuSystem.init C) es))
    (hes : ∀ ev ∈ es, ev.2.Unlimited) :
    StepsMeet cpuStep PointerCurrent (CpuSystem.init C) es :=
  stepsMeet_iff.mpr fun T ev _ => (points_of_collection h hes T ev.1).current

/-- **No stale pointer.** At any time, the slot pointer that a CPU holds is that of the slot which
`slot_map` has for the key, and no key was transmitted twice. -/
theorem current_of_collection (h : Collection (arrivals (CpuSystem.init C) es))
    (hes : ∀ ev ∈ es, ev.2.Unlimited) :
    (∀ T c k slot, ((stateAt cpuStep (CpuSystem.init C) es T).loc c).held = some (k, slot) →
      (stateAt cpuStep (CpuSystem.init C) es T).mem.slotMap k = some slot)
      ∧ ∀ k, (sentFor k (runOut cpuStep (CpuSystem.init C) es)).length ≤ 1 := by
  obtain ⟨R, hR⟩ := h.exists_rounds
  obtain ⟨A, hA⟩ := exists_progress h hR hes
  exact ⟨fun T c k slot => (points_of_collection h hes T c).linked_of_held, hA.length_sentFor_le⟩

end

/-! ## An interleaved round -/

theorem inputFor_unlimited (elem : Elem) (frame : Bytes) : (inputFor 0 elem frame).Unlimited :=
  ⟨_, lookup_configured _, rfl⟩

theorem joinedRun_unlimited : ∀ ev ∈ joinedRun, ev.2.Unlimited := by
  intro ev hev
  simp only [joinedRun, List.mem_append, List.mem_replicate] at hev
  rcases hev with ((⟨-, rfl⟩ | ⟨-, rfl⟩) | ⟨-, rfl⟩) | ⟨-, rfl⟩ <;> exact inputFor_unlimited _ _

theorem collection_joinedRun : Collection (arrivals (CpuSystem.init (Fin 2)) joinedRun) := by
  have harrivals : arrivals (CpuSystem.init (Fin 2)) joinedRun
      = [0, 1].map fun worker => wholeFrame (workerPacket ⟨1, 0, 0, worker, 2, 1, 0⟩ fun _ => 5) := by
    decide +kernel
  rw [harrivals]
  exact ⟨by decide +kernel, by decide +kernel, by decide +kernel, by decide +kernel,
    by decide +kernel, by decide +kernel, by decide +kernel⟩

/-- Both CPUs hold a pointer to the slot while neither has counted its frame. -/
theorem joinedRun_sentFor_le :
    let s := stateAt cpuStep (CpuSystem.init (Fin 2)) joinedRun 9
    (∀ c, (s.loc c).held.isSome)
      ∧ (∀ c k slot, (s.loc c).held = some (k, slot) → s.mem.slotMap k = some slot)
      ∧ (sentFor ⟨1, 0, 0⟩ (runOut cpuStep (CpuSystem.init (Fin 2)) joinedRun)).length ≤ 1 := by
  intro s
  obtain ⟨hheld, hsent⟩ := current_of_collection collection_joinedRun joinedRun_unlimited
  exact ⟨by decide +kernel, hheld 9, hsent ⟨1, 0, 0⟩⟩

/-- The two CPUs transmit what one frame after the other makes the program transmit. -/
theorem joinedRun_serializable : sentFor ⟨1, 0, 0⟩
      (runOut cpuStep (CpuSystem.init (Fin 2)) joinedRun)
    = reports ⟨1, 0, 0⟩ ((arrivals (CpuSystem.init (Fin 2)) joinedRun).map fun frame =>
      ⟨(inputFor 0 0 frame).configMap, frame⟩) := by
  refine (serializable collection_joinedRun joinedRun_unlimited (by decide +kernel) ?_ ?_ _).2
  · rw [List.map_map]
    exact (List.map_id _).symm ▸ List.Perm.refl _
  · intro ev hev
    obtain ⟨frame, -, rfl⟩ := List.mem_map.mp hev
    exact inputFor_unlimited 0 frame

end NetSum.XdpAgg
