import NetSum.Lib.Fnv
import NetSum.UserspaceAgg.RefinementTheorems

/-!
# Where the hash keeps keys apart

A key loses its place in the slot table when an entry ahead of it is freed. That cannot happen to
keys with homes of their own: each is held at its home, where its search ends at once
(`Homed.probe_eq`). FNV-1a gives homes of their own to all keys that differ in one byte of their
fields, such as those of 256 rounds of one job: so in every run over such keys, with any quota and
any TTL, every datagram finds its key intact (`keys_at_home`).
-/

namespace NetSum.UserspaceAgg

open NetSum.Lib NetSum.Protocol NetSum.Aggregation

/-! ## The hash -/

/-- The entry a search begins with. -/
abbrev home (k : GradSlotKey) : SlotIdx := slotSeq k 0

theorem slotKey_eq_fnv1a (k : GradSlotKey) :
    slotKey k = fnv1a 1099511628211#64 1469598103934665603#64 (slotKeyBytes k) := by
  rw [slotKey, fnv1a]
  rfl

/-- The home is the lowest 16 bits of the hash. -/
theorem home_val (k : GradSlotKey) : (home k).val = ((slotKey k).setWidth 16).toNat := by
  rw [home, slotSeq_eq, linearSeq, Fin.val_ofNat, Nat.add_zero, BitVec.toNat_setWidth,
    show slotTableCapacity = 2 ^ 16 from rfl]

/-- All bytes of the two keys are equal but one. -/
def OneByteApart (k k' : GradSlotKey) : Prop :=
  ∃ pre b b' post, b ≠ b' ∧ slotKeyBytes k = pre ++ b :: post
    ∧ slotKeyBytes k' = pre ++ b' :: post

theorem OneByteApart.home_ne {k k' : GradSlotKey} (h : OneByteApart k k') : home k ≠ home k' := by
  obtain ⟨pre, b, b', post, hb, hk, hk'⟩ := h
  intro heq
  have hval := congrArg Fin.val heq
  rw [home_val, home_val, slotKey_eq_fnv1a, slotKey_eq_fnv1a, hk, hk'] at hval
  exact setWidth_fnv1a_ne (by decide) (by decide) (by decide) hb _ pre post
    (BitVec.eq_of_toNat_eq hval)

theorem injOn_home {K : Set GradSlotKey} (hK : K.Pairwise OneByteApart) : Set.InjOn home K := by
  intro k hk k' hk' heq
  by_contra hne
  exact (hK hk hk' hne).home_ne heq

theorem byte32_succ (v : BitVec 32) (i : ℕ) : byte32 v (i + 1) = byte32 (v >>> 8) i := by
  apply BitVec.eq_of_getLsbD_eq
  intro j _
  rw [byte32, byte32, BitVec.getLsbD_extractLsb', BitVec.getLsbD_extractLsb',
    BitVec.getLsbD_ushiftRight, show 8 * (i + 1) + j = 8 + (8 * i + j) by omega]

/-- Rounds of one job and one chunk whose numbers differ in the lowest byte only. -/
theorem oneByteApart_of_round {k k' : GradSlotKey} (hjob : k.jobId = k'.jobId)
    (hchunk : k.chunkId = k'.chunkId) (hhigh : k.round >>> 8 = k'.round >>> 8) (hne : k ≠ k') :
    OneByteApart k k' := by
  have hbyte : ∀ i, byte32 k.round (i + 1) = byte32 k'.round (i + 1) := by
    intro i
    rw [byte32_succ, byte32_succ, hhigh]
  have hlow : byte32 k.round 0 ≠ byte32 k'.round 0 := by
    intro hlow
    apply hne
    have hround : k.round = k'.round := by
      rw [← cat32_byte32 k.round, ← cat32_byte32 k'.round, hlow, hbyte 0, hbyte 1, hbyte 2]
    cases k
    cases k'
    cases hjob
    cases hchunk
    cases hround
    rfl
  refine ⟨(List.range 4).map (byte32 k.jobId), _, _,
    [byte32 k.round 1, byte32 k.round 2, byte32 k.round 3] ++ (List.range 4).map (byte32 k.chunkId),
    hlow, rfl, ?_⟩
  rw [hjob, hchunk, hbyte 0, hbyte 1, hbyte 2]
  rfl

/-- The keys of the first 256 rounds of a job. -/
def firstRounds (jobId : BitVec 32) : Set GradSlotKey :=
  {k | k.jobId = jobId ∧ k.chunkId = 0 ∧ k.round.toNat < 256}

theorem firstRounds_apart (jobId : BitVec 32) : (firstRounds jobId).Pairwise OneByteApart := by
  rintro k ⟨hjob, hchunk, hlt⟩ k' ⟨hjob', hchunk', hlt'⟩ hne
  have hzero : ∀ v : BitVec 32, v.toNat < 256 → v >>> 8 = 0#32 := by
    intro v hv
    apply BitVec.eq_of_toNat_eq
    rw [BitVec.toNat_ushiftRight, Nat.shiftRight_eq_div_pow]
    exact Nat.div_eq_of_lt hv
  refine oneByteApart_of_round (hjob.trans hjob'.symm) (hchunk.trans hchunk'.symm) ?_ hne
  rw [hzero _ hlt, hzero _ hlt']

/-! ## Keys stay at home -/

section

variable {K : Set GradSlotKey} {args : Args} {st : State} {ev : Event}

/-- The datagrams that get to the table are of keys of `K`. -/
def Event.Keys (K : Set GradSlotKey) (ev : Event) : Prop :=
  ∀ d, ev.received = some d → WellFormed d → (GradHdr.decode d).key ∈ K

theorem reapPhase_homed (h : Homed K slotSeq st.tables.occ) (ev : Event) :
    Homed K slotSeq (reapPhase args st ev).1.tables.occ := by
  refine reapPhase_induction (fun t => Homed K slotSeq t.occ) (fun t i _ ht j k hk => ?_) args h ev
  rw [occ_freeSlot] at hk
  by_cases hj : j = i
  · rw [hj, Function.update_self] at hk
    cases hk
  · rw [Function.update_of_ne hj] at hk
    exact ht j k hk

/-- One iteration. A slot is opened where the search for its key ends. -/
theorem mainStep_homed (hinj : Set.InjOn home K) (hok : st.tables.Ok)
    (h : Homed K slotSeq st.tables.occ) (hev : ev.Keys K) :
    Homed K slotSeq (mainStep args st ev).1.tables.occ := by
  have hswept : Homed K slotSeq (reapPhase args st ev).1.tables.occ := reapPhase_homed h ev
  intro i k hk
  rcases (mainStep_effect_of_ok args hok ev).slot_cases i with
    ⟨hsame, -⟩ | ⟨d, s, g, hrecv, hd, hacc, -, hcase⟩
  · rw [Tables.occ, hsame] at hk
    exact hswept i k hk
  · have hhome : slotSeq (GradHdr.decode d).key 0 = i := by
      have hprobe := hacc.probe_eq
      rw [hswept.probe_eq hinj (hev d hrecv hd) (covers_slotSeq _)] at hprobe
      exact Option.some.inj hprobe
    rcases hcase with ⟨-, hs, -⟩ | ⟨-, hs, -⟩
    · rw [Tables.occ, hs, hacc.occupant.1] at hk
      obtain rfl := Option.some.inj hk
      exact ⟨hev d hrecv hd, hhome⟩
    · rw [Tables.occ, hs] at hk
      cases hk

end

/-- Keys with homes of their own stay there. -/
theorem homed_run {K : Set GradSlotKey} (hinj : Set.InjOn home K) (args : Args)
    (inPacket outPacket : Buffer) (now : ℤ) {es : List Event} (hes : ∀ ev ∈ es, ev.Keys K) :
    (∀ T, Homed K slotSeq (stateAt (mainStep args) (State.init inPacket outPacket now) es
      T).tables.occ)
    ∧ StepsMeet (mainStep args) (FindsIntactSwept args) (State.init inPacket outPacket now) es := by
  have hrun : ∀ T ≤ es.length,
      Homed K slotSeq (stateAt (mainStep args) (State.init inPacket outPacket now) es
        T).tables.occ := by
    refine stateAt_induction (fun _ (st : State) => Homed K slotSeq st.tables.occ) ?_ ?_
    · intro i k hk
      rw [State.init, occ_zero] at hk
      cases hk
    · intro T ev hev h
      exact mainStep_homed hinj (ok_stateAt args (State.init_ok _ _ _) es T) h (hes ev (List.mem_of_getElem? hev))
  refine ⟨fun T => ?_, stepsMeet_iff.mpr fun T ev hev d _ _ => ?_⟩
  · by_cases hT : T ≤ es.length
    · exact hrun T hT
    · have := hrun es.length le_rfl
      rwa [stateAt_of_length_le le_rfl, ← stateAt_of_length_le (Nat.le_of_not_le hT)] at this
  · obtain ⟨hlt, -⟩ := List.getElem?_eq_some_iff.mp hev
    exact (reapPhase_homed (hrun T hlt.le) ev).chained _

/-- **Keys that differ in one byte do not disturb each other.** In every run over such keys, with
any quota and any TTL, a key is held once at most, every search takes a single probe, and every
datagram finds its key intact. -/
theorem keys_at_home {K : Set GradSlotKey} (hK : K.Pairwise OneByteApart) (args : Args)
    (inPacket outPacket : Buffer) (now : ℤ) {es : List Event} (hes : ∀ ev ∈ es, ev.Keys K) :
    let st := stateAt (mainStep args) (State.init inPacket outPacket now) es
    (∀ T, Unique (st T).tables.occ
      ∧ ∀ k ∈ K, probe (slotSeq k) (stopAt (st T).tables.occ k) = some (home k))
    ∧ StepsMeet (mainStep args) (FindsIntactSwept args) (State.init inPacket outPacket now) es := by
  obtain ⟨hhomed, hint⟩ := homed_run (injOn_home hK) args inPacket outPacket now hes
  refine ⟨fun T => ⟨fun k i j hi hj => ?_, fun k hk => ?_⟩, hint⟩
  · exact (hhomed T i k hi).2.symm.trans (hhomed T j k hj).2
  · exact (hhomed T).probe_eq (injOn_home hK) hk (covers_slotSeq k)

/-- Two rounds of one job, with a quota and a TTL. -/
theorem keys_at_home_rounds :
    StepsMeet (mainStep ⟨2, 40⟩) (FindsIntactSwept ⟨2, 40⟩) (State.init .zero .zero 0)
      [received 1 0 0 5, received 1 255 0 7, received 1 0 1 5, received 1 255 1 7] := by
  refine (keys_at_home (firstRounds_apart 1) ⟨2, 40⟩ .zero .zero 0 fun ev hev d hd _ => ?_).2
  have hall : [received 1 0 0 5, received 1 255 0 7, received 1 0 1 5, received 1 255 1 7].all
      fun ev => ev.received.all fun d => decide ((GradHdr.decode d).key.jobId = 1
        ∧ (GradHdr.decode d).key.chunkId = 0 ∧ (GradHdr.decode d).key.round.toNat < 256) := by
    decide +kernel
  have := List.all_eq_true.mp hall ev hev
  rw [hd] at this
  have hmem := of_decide_eq_true this
  exact hmem

end NetSum.UserspaceAgg
