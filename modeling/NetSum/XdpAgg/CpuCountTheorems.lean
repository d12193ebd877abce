import NetSum.XdpAgg.CpuStageTheorems
import NetSum.XdpAgg.OrderTheorems

/-!
# Counting the frames of a collection on several CPUs

What the slots hold while several CPUs work on a collection of frames, one for each worker of a
key: the tally of the workers counted so far (`Counted`). What a CPU relies on while others step
(`Relies`), and that no two CPUs have frames of one worker (`Distinct`).
-/

namespace NetSum.XdpAgg

open NetSum.Lib NetSum.Protocol NetSum.Aggregation

/-! ## The rounds of a collection -/

/-- For each key its fan-in, its chunk length and the datagram of each worker. -/
structure Rounds where
  fanIn : GradSlotKey → ℕ
  chunkLen : GradSlotKey → ℕ
  datagram : GradSlotKey → ℕ → Bytes

namespace Rounds

/-- The frame is that of its worker in its key's round. -/
def Sends (R : Rounds) (frame : Bytes) : Prop :=
  SendsOne (R.fanIn (keyOf frame)) (R.chunkLen (keyOf frame)) (R.datagram (keyOf frame))
      (workerOf frame)
    ∧ R.datagram (keyOf frame) (workerOf frame) = payload frame

/-- The tally of the key's workers `A`. -/
abbrev Tallies (R : Rounds) (k : GradSlotKey) (A : Finset ℕ) (T : Tally) : Prop :=
  T.Of (R.fanIn k) (R.chunkLen k) (values (R.datagram k)) A

end Rounds

theorem Collection.exists_rounds {frames : List Bytes} (h : Collection frames) :
    ∃ R : Rounds, ∀ frame ∈ frames, R.Sends frame := by
  choose N L f hf using h.exists_round
  exact ⟨⟨N, L, f⟩, fun frame hframe => hf (keyOf frame) frame hframe rfl⟩

/-- A collection is one up to every frame. -/
theorem Collection.of_append {frames frames' : List Bytes} (h : Collection (frames ++ frames')) :
    Collection frames where
  isGradient frame hf := h.isGradient frame (List.mem_append_left _ hf)
  wellFormed frame hf := h.wellFormed frame (List.mem_append_left _ hf)
  worker_lt frame hf := h.worker_lt frame (List.mem_append_left _ hf)
  agree frame hf frame' hf' :=
    h.agree frame (List.mem_append_left _ hf) frame' (List.mem_append_left _ hf')
  once := by
    have honce := h.once
    rw [List.map_append] at honce
    exact honce.of_append_left
  keys_lt := by
    refine (Finset.card_le_card fun k hk => ?_).trans_lt h.keys_lt
    rw [List.mem_toFinset] at hk ⊢
    rw [List.map_append]
    exact List.mem_append_left _ hk
  jobs_le := by
    refine (Finset.card_le_card fun k hk => ?_).trans h.jobs_le
    rw [List.mem_toFinset] at hk ⊢
    rw [List.map_append]
    exact List.mem_append_left _ hk

/-! ## What the slots hold -/

/-- When the frames `ds` have arrived, those of the workers `A k` of every key `k` are counted: a
key that is linked has their tally, and one that is not has none of them, or all. -/
structure Counted (R : Rounds) (ds : List Bytes) (A : GradSlotKey → Finset ℕ) (sh : SharedMaps) :
    Prop where
  subset : ∀ k, ∀ w ∈ A k, w ∈ workersOf k ds
  linked : ∀ k e, sh.slotMap k = some e →
    R.Tallies k (A k) (sh.slots e).tally ∧ k ∈ ds.map keyOf
  unlinked : ∀ k, sh.slotMap k = none → A k = ∅ ∨ (A k).card = R.fanIn k

/-- The frame holds the sums of all workers of the key. -/
def Completed (R : Rounds) (A : GradSlotKey → Finset ℕ) (k : GradSlotKey) (frame : Bytes)
    (finalChunkLen : BitVec 16) : Prop :=
  (A k).Nonempty ∧ (A k).card = R.fanIn k
    ∧ ∃ f s, Counts f ∧ keyOf f = k ∧ frame = writeBack f s finalChunkLen
      ∧ s.chunkLen = finalChunkLen ∧ finalChunkLen = (GradHdr.decode (payload f)).chunkLen
      ∧ R.Tallies k (A k) s.tally

/-- What a CPU relies on: its frame arrived and is not counted, the key it is about to delete is
linked, and the frame it is about to transmit holds the sums. -/
structure Relies (R : Rounds) (ds : List Bytes) (A : GradSlotKey → Finset ℕ) (sh : SharedMaps)
    (cpu : Cpu) : Prop where
  points : cpu.Points sh
  regular : cpu.stage ≠ .refusing
  waiting : ∀ f, cpu.stage = .waiting f → f ∈ ds ∧ workerOf f ∉ A (keyOf f)
  closing : ∀ k f L, cpu.stage = .closing k f L → (sh.slotMap k).isSome
  summed : ∀ k f L, cpu.stage = .closing k f L ∨ cpu.stage = .leaving k f L →
    Completed R A k f L

/-- No two CPUs have frames of one worker, or are about to delete the same key. -/
structure Distinct (cpu cpu' : Cpu) : Prop where
  waiting : ∀ f f', cpu.stage = .waiting f → cpu'.stage = .waiting f' → keyOf f = keyOf f' →
    workerOf f ≠ workerOf f'
  closing : ∀ k f L f' L', cpu.stage = .closing k f L → cpu'.stage ≠ .closing k f' L'

theorem Distinct.symm {cpu cpu' : Cpu} (h : Distinct cpu cpu') : Distinct cpu' cpu where
  waiting f f' hf hf' hkey := (h.waiting f' f hf' hf hkey.symm).symm
  closing k f L f' L' hf hf' := h.closing k f' L' f L hf' hf

/-- The workers counted after frame `f` is. -/
def withWorker (A : GradSlotKey → Finset ℕ) (f : Bytes) : GradSlotKey → Finset ℕ :=
  Function.update A (keyOf f) (insert (workerOf f) (A (keyOf f)))

section

variable {R : Rounds} {ds : List Bytes} {A : GradSlotKey → Finset ℕ} {sh sh' : SharedMaps}
  {f : Bytes}

theorem mem_workersOf {k : GradSlotKey} {w : ℕ} :
    w ∈ workersOf k ds ↔ ∃ frame ∈ ds, keyOf frame = k ∧ workerOf frame = w := by
  rw [workersOf, List.mem_map]
  simp only [List.mem_filter, decide_eq_true_iff, and_assoc]

/-- Of `n` workers fewer are counted while one that arrived is missing. -/
theorem Counted.card_lt_of (h : Counted R ds A sh) {n : ℕ}
    (hn : ∀ frame ∈ ds, keyOf frame = keyOf f → workerOf frame < n) (hf : f ∈ ds)
    (hnew : workerOf f ∉ A (keyOf f)) :
    (insert (workerOf f) (A (keyOf f))).card ≤ n ∧ (A (keyOf f)).card < n := by
  have hsub : insert (workerOf f) (A (keyOf f)) ⊆ Finset.range n := by
    intro w hw
    rw [Finset.mem_range]
    rcases Finset.mem_insert.mp hw with rfl | hw
    · exact hn f hf rfl
    · obtain ⟨frame, hframe, hkey, rfl⟩ := mem_workersOf.mp (h.subset _ w hw)
      exact hn frame hframe hkey
  have hle := Finset.card_le_card hsub
  rw [Finset.card_range] at hle
  refine ⟨hle, ?_⟩
  rw [Finset.card_insert_of_notMem hnew] at hle
  omega

/-- While a worker is missing its key is not complete. -/
theorem Counted.card_lt (h : Counted R ds A sh) (hR : ∀ frame ∈ ds, R.Sends frame)
    (hf : f ∈ ds) (hnew : workerOf f ∉ A (keyOf f)) :
    (insert (workerOf f) (A (keyOf f))).card ≤ R.fanIn (keyOf f)
      ∧ (A (keyOf f)).card < R.fanIn (keyOf f) := by
  apply h.card_lt_of _ hf hnew
  intro frame hframe hkey
  rw [← hkey]
  exact (hR frame hframe).1.worker_lt

/-- The slot that a frame is about to be counted into. -/
theorem Counted.fits (h : Counted R ds A sh) (hR : ∀ frame ∈ ds, R.Sends frame)
    (hf : f ∈ ds) (hcounts : Counts f) (hnew : workerOf f ∉ A (keyOf f)) {slot : Elem}
    (hslot : sh.slotMap (keyOf f) = some slot) :
    (sh.slots slot).chunkLen = (GradHdr.decode (payload f)).chunkLen
      ∧ (sh.slots slot).seen (GradHdr.decode (payload f)).workerId = false
      ∧ R.Tallies (keyOf f) (insert (workerOf f) (A (keyOf f)))
        ((sh.slots slot).accumulate f (.ofPayload (payload f))).tally := by
  obtain ⟨hT, -⟩ := h.linked _ _ hslot
  obtain ⟨hsends, hdatagram⟩ := hR f hf
  have hworker : ((Contribution.ofDatagram (payload f)).worker : ℕ) = workerOf f :=
    Nat.mod_eq_of_lt hsends.workerId_lt
  have hseen : (sh.slots slot).tally.seen (Contribution.ofDatagram (payload f)).worker = false := by
    rw [← Bool.not_eq_true, hT.seen_iff, hworker]
    exact hnew
  have hlt : (sh.slots slot).tally.count < maxTrackedWorkers := by
    rw [hT.count_eq]
    exact (h.card_lt_of (fun frame hframe _ => (hR frame hframe).1.workerId_lt) hf hnew).2
  refine ⟨?_, ?_, ?_⟩
  · apply BitVec.eq_of_toNat_eq
    rw [← hdatagram, hsends.chunkLen_eq]
    exact hT.chunkLen_eq
  · rw [← hseen, (sh.slots slot).tally_seen_worker hcounts.2]
  · rw [GradSlot.tally_accumulate hcounts.2 hcounts.1.length_le hlt, ← hworker]
    refine hT.absorb ?_ (by rwa [hworker])
    rw [hworker, values, hdatagram]

/-! ### What a step leaves of it -/

/-- A step that leaves the slots alone, and frames that arrive. -/
theorem Counted.keep (h : Counted R ds A sh) (hmap : sh'.slotMap = sh.slotMap)
    (hslots : sh'.slots = sh.slots) (fs : List Bytes) : Counted R (ds ++ fs) A sh' where
  subset k w hw := by
    obtain ⟨frame, hframe, hk⟩ := mem_workersOf.mp (h.subset k w hw)
    exact mem_workersOf.mpr ⟨frame, List.mem_append_left _ hframe, hk⟩
  linked k e he := by
    rw [hmap] at he
    obtain ⟨hT, hk⟩ := h.linked k e he
    rw [hslots, List.map_append]
    exact ⟨hT, List.mem_append_left _ hk⟩
  unlinked k hk := by
    rw [hmap] at hk
    exact h.unlinked k hk

/-- The key of a frame that arrived gets a slot. -/
theorem Counted.create (h : Counted R ds A sh) (hR : ∀ frame ∈ ds, R.Sends frame) (hf : f ∈ ds)
    (hnew : workerOf f ∉ A (keyOf f)) {slot : Elem} (hk : sh.slotMap (keyOf f) = none)
    (hslot : sh.slotMap.owner slot = none)
    (hmap : sh'.slotMap = sh.slotMap.link (keyOf f) slot hk hslot)
    (hslots : sh'.slots = Function.update sh.slots slot
      (.fresh (GradHdr.decode (payload f)).chunkLen (GradHdr.decode (payload f)).numWorkers)) :
    Counted R ds A sh' := by
  refine ⟨h.subset, fun k e he => ?_, fun k he => ?_⟩
  · rw [hmap, Pool.link_apply] at he
    by_cases hkey : k = keyOf f
    · -- nobody was counted for the key so far
      rw [if_pos hkey] at he
      obtain rfl := Option.some.inj he
      have hempty : A (keyOf f) = ∅ := by
        refine (h.unlinked _ hk).resolve_right fun hfull => ?_
        exact absurd hfull (Nat.ne_of_lt (h.card_lt hR hf hnew).2)
      obtain ⟨hsends, hdatagram⟩ := hR f hf
      have hN := hsends.numWorkers_eq
      have hL := hsends.chunkLen_eq
      rw [hdatagram] at hN hL
      rw [hslots, Function.update_self, hkey, hempty, tally_fresh, hN, hL]
      exact ⟨Tally.of_opened _ _ _, List.mem_map_of_mem hf⟩
    · rw [if_neg hkey] at he
      have hne : e ≠ slot := by
        rintro rfl
        exact Pool.apply_ne_of_owner_none hslot k he
      rw [hslots, Function.update_of_ne hne]
      exact h.linked k e he
  · rw [hmap, Pool.link_apply] at he
    split at he
    · cases he
    · exact h.unlinked k he

/-- A frame is counted into its key's slot. -/
theorem Counted.count (h : Counted R ds A sh) (hR : ∀ frame ∈ ds, R.Sends frame) (hf : f ∈ ds)
    (hcounts : Counts f) (hnew : workerOf f ∉ A (keyOf f)) {slot : Elem}
    (hk : sh.slotMap (keyOf f) = some slot) (hmap : sh'.slotMap = sh.slotMap)
    (hslots : sh'.slots = Function.update sh.slots slot
      ((sh.slots slot).accumulate f (.ofPayload (payload f)))) :
    Counted R ds (withWorker A f) sh' := by
  refine ⟨fun k w hw => ?_, fun k e he => ?_, fun k he => ?_⟩
  · by_cases hkey : k = keyOf f
    · rw [hkey, withWorker, Function.update_self] at hw
      rcases Finset.mem_insert.mp hw with rfl | hw
      · exact mem_workersOf.mpr ⟨f, hf, hkey.symm, rfl⟩
      · rw [hkey]
        exact h.subset _ w hw
    · rw [withWorker, Function.update_of_ne hkey] at hw
      exact h.subset k w hw
  · rw [hmap] at he
    by_cases hkey : k = keyOf f
    · subst hkey
      obtain rfl := Option.some.inj (hk.symm.trans he)
      rw [hslots, Function.update_self, withWorker, Function.update_self]
      exact ⟨(h.fits hR hf hcounts hnew hk).2.2, (h.linked _ _ hk).2⟩
    · have hne : e ≠ slot := by
        rintro rfl
        exact hkey (Pool.key_unique he hk)
      rw [hslots, Function.update_of_ne hne, withWorker, Function.update_of_ne hkey]
      exact h.linked k e he
  · rw [hmap] at he
    have hkey : k ≠ keyOf f := by
      rintro rfl
      rw [hk] at he
      cases he
    rw [withWorker, Function.update_of_ne hkey]
    exact h.unlinked k he

/-- A complete key is deleted. -/
theorem Counted.delete (h : Counted R ds A sh) {k : GradSlotKey} (hfull : (A k).card = R.fanIn k)
    (hmap : sh'.slotMap = sh.slotMap.unlink k) (hslots : sh'.slots = sh.slots) :
    Counted R ds A sh' := by
  refine ⟨h.subset, fun k' e he => ?_, fun k' he => ?_⟩
  · rw [hmap, Pool.unlink_apply] at he
    split at he
    · cases he
    · rw [hslots]
      exact h.linked k' e he
  · rw [hmap, Pool.unlink_apply] at he
    split at he
    · next hkey =>
      rw [hkey]
      exact .inr hfull
    · exact h.unlinked k' he

variable {cpu cpu' : Cpu} {ds' : List Bytes} {A' : GradSlotKey → Finset ℕ}

/-- What a CPU knows of its key's slot stays so while the key stays linked. -/
theorem Cpu.Points.keep (h : cpu.Points sh)
    (hlink : ∀ f e, cpu.stage = .waiting f → sh.slotMap (keyOf f) = some e →
      sh'.slotMap (keyOf f) = some e) : cpu.Points sh' := by
  cases cpu with
  | idle => trivial
  | busy frame p pc =>
    have hlink' : ∀ e, (Cpu.busy frame p pc).stage = .waiting frame → parse frame = .ok p →
        sh.slotMap p.key = some e → sh'.slotMap p.key = some e := by
      intro e hstage hparse
      obtain ⟨-, rfl⟩ := counts_of_parse hparse
      exact hlink frame e hstage
    cases pc with
    | lookup | precheck | create => exact h
    | relookup rc =>
      obtain ⟨hparse, hsome⟩ := h
      obtain ⟨e, he⟩ := Option.isSome_iff_exists.mp hsome
      refine ⟨hparse, ?_⟩
      rw [hlink' e rfl hparse he]
      rfl
    | increment slot pc | lock slot => exact ⟨h.1, hlink' slot rfl h.1 h.2⟩
    | _ => trivial

/-- What a CPU relies on, after a step of another one. -/
theorem Relies.keep (h : Relies R ds A sh cpu) (hds : ∀ f ∈ ds, f ∈ ds')
    (hlink : ∀ f e, cpu.stage = .waiting f → sh.slotMap (keyOf f) = some e →
      sh'.slotMap (keyOf f) = some e)
    (hnew : ∀ f, cpu.stage = .waiting f → workerOf f ∉ A' (keyOf f))
    (hclosing : ∀ k f L, cpu.stage = .closing k f L → sh'.slotMap k = sh.slotMap k)
    (hfull : ∀ k, (A k).card = R.fanIn k → A' k = A k) : Relies R ds' A' sh' cpu where
  points := h.points.keep hlink
  regular := h.regular
  waiting f hf := ⟨hds f (h.waiting f hf).1, hnew f hf⟩
  closing k f L hk := by
    rw [hclosing k f L hk]
    exact h.closing k f L hk
  summed k f L hk := by
    obtain ⟨hne, hcard, hsum⟩ := h.summed k f L hk
    rw [Completed, hfull k hcard]
    exact ⟨hne, hcard, hsum⟩

theorem Relies.of_idle (hstage : cpu.stage = .idle) (hpoints : cpu.Points sh) :
    Relies R ds A sh cpu := by
  refine ⟨hpoints, ?_, fun f hf => ?_, fun k f L hk => ?_, fun k f L hk => ?_⟩
  · rw [hstage]
    nofun
  · rw [hstage] at hf
    cases hf
  · rw [hstage] at hk
    cases hk
  · rw [hstage] at hk
    rcases hk with hk | hk <;> cases hk

theorem Relies.of_waiting (hstage : cpu.stage = .waiting f) (hpoints : cpu.Points sh)
    (hf : f ∈ ds) (hnew : workerOf f ∉ A (keyOf f)) : Relies R ds A sh cpu := by
  refine ⟨hpoints, ?_, fun f' hf' => ?_, fun k f' L hk => ?_, fun k f' L hk => ?_⟩
  · rw [hstage]
    nofun
  · rw [hstage] at hf'
    obtain rfl : f = f' := by injection hf'
    exact ⟨hf, hnew⟩
  · rw [hstage] at hk
    cases hk
  · rw [hstage] at hk
    rcases hk with hk | hk <;> cases hk

theorem Relies.of_result {k : GradSlotKey} {frame : Bytes} {L : BitVec 16}
    (hstage : cpu.stage = .closing k frame L ∨ cpu.stage = .leaving k frame L)
    (hpoints : cpu.Points sh) (hlinked : cpu.stage = .closing k frame L → (sh.slotMap k).isSome)
    (hsum : Completed R A k frame L) : Relies R ds A sh cpu := by
  refine ⟨hpoints, ?_, fun f' hf' => ?_, fun k' f' L' hk => ?_, fun k' f' L' hk => ?_⟩
  · rcases hstage with hstage | hstage <;> rw [hstage] <;> nofun
  · rcases hstage with hstage | hstage <;> rw [hstage] at hf' <;> cases hf'
  · rcases hstage with hstage | hstage
    · rw [hstage] at hk
      cases hk
      exact hlinked hstage
    · rw [hstage] at hk
      cases hk
  · rcases hstage with hstage | hstage <;> rw [hstage] at hk <;> rcases hk with hk | hk <;>
      cases hk <;> exact hsum

theorem Distinct.of_stage (h : Distinct cpu cpu') {cpu₂ : Cpu} (hstage : cpu₂.stage = cpu.stage) :
    Distinct cpu₂ cpu' where
  waiting f f' hf := h.waiting f f' (hstage ▸ hf)
  closing k f L f' L' hf := h.closing k f L f' L' (hstage ▸ hf)

theorem Distinct.of_free (hwaiting : ∀ f, cpu.stage ≠ .waiting f)
    (hclosing : ∀ k f L, cpu.stage ≠ .closing k f L) : Distinct cpu cpu' where
  waiting f _ hf := absurd hf (hwaiting f)
  closing k f L _ _ hf := absurd hf (hclosing k f L)

theorem Relies.of_stage (h : Relies R ds A sh cpu) (hstage : cpu'.stage = cpu.stage)
    (hpoints : cpu'.Points sh) : Relies R ds A sh cpu' where
  points := hpoints
  regular := hstage ▸ h.regular
  waiting f hf := h.waiting f (hstage ▸ hf)
  closing k f L hk := h.closing k f L (hstage ▸ hk)
  summed k f L hk := h.summed k f L (hstage ▸ hk)

end

end NetSum.XdpAgg
