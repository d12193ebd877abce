import NetSum.Lib.Interleaving
import NetSum.Lib.Runs
import NetSum.XdpAgg.Cpus
import NetSum.XdpAgg.StepTheorems

/-!
# The drop counters under concurrency

What `bump_stat` counts when several CPUs call it. A counter without an entry is inserted with
`BPF_ANY`, in a step after the lookup that missed, so the insertion may find an entry that another
CPU has made meanwhile and put its own `1` in the place of the count (`missedRun_loses`). As long as
no insertion finds an entry or a full map, every call is counted (`counters_exact_of_insertsNew`);
this is so from the start when both counters have an entry (`counters_exact_of_present`).

An insertion that finds an entry puts a new one in its place, and the pointer of another CPU stays
with the old one. In the runs without such insertions a pointer to an entry is its key.
-/

namespace NetSum.XdpAgg

open NetSum.Lib

/-! ## The callers -/

/-- `drop_stats`. -/
abbrev DropStats := BoundedMap (BitVec 32) (BitVec 64) 4

/-- A call of `bump_stat` that has not returned. -/
structure StatCall where
  statKey : BitVec 32
  pc : StatPc
  deriving DecidableEq, Repr

/-- One step of a CPU: it calls `bump_stat` with the key that comes, or goes on in its call. The
output is the key of a new call. -/
def statAct (m : DropStats) (call? : Option StatCall) (statKey : BitVec 32) :
    DropStats × Option StatCall × Option (BitVec 32) :=
  match call? with
  | none => (m, some ⟨statKey, .lookup⟩, some statKey)
  | some call =>
    let r := call.pc.step m call.statKey
    (r.1, r.2.map fun pc => ⟨call.statKey, pc⟩, none)

/-- The CPUs of `C`, each in a call or in none. -/
abbrev StatSystem (C : Type) := Threads C DropStats (Option StatCall)

/-- No CPU is in a call. -/
def StatSystem.start (C : Type) (m : DropStats) : StatSystem C := ⟨m, fun _ => none⟩

def statStep {C : Type} [DecidableEq C] :
    StatSystem C → C × BitVec 32 → StatSystem C × Option (BitVec 32) :=
  Threads.step statAct

/-- A counter, `0` without an entry. -/
def statCount (m : DropStats) (statKey : BitVec 32) : BitVec 64 := (m.lookup statKey).getD 0

/-- The calls that a run makes with the key. -/
def callsWith {C : Type} [DecidableEq C] (statKey : BitVec 32) (s : StatSystem C)
    (es : List (C × BitVec 32)) : ℕ :=
  (runOut statStep s es).count (some statKey)

/-- Whether a CPU is in a call with the key, which is then still to be counted. -/
def uncountedCall (statKey : BitVec 32) : Option StatCall → ℕ
  | none => 0
  | some call => if call.statKey = statKey then 1 else 0

/-- Once all calls have returned, every counter has grown by the calls with its key. -/
def CountersExact {C : Type} [DecidableEq C] (m : DropStats) (es : List (C × BitVec 32)) : Prop :=
  let s := runState statStep (StatSystem.start C m) es
  (∀ c, s.loc c = none) → ∀ statKey, statCount s.mem statKey
    = statCount m statKey + BitVec.ofNat 64 (callsWith statKey (StatSystem.start C m) es)

/-! ## One call -/

section

variable {m : DropStats} {statKey : BitVec 32}

/-- An insertion counts its call exactly if it finds no entry and there is room for one, or the
entry is zero. -/
theorem statCount_update_iff (m : DropStats) (statKey : BitVec 32) :
    statCount (StatPc.update.step m statKey).1 statKey = statCount m statKey + 1
      ↔ (m.lookup statKey = none ∧ m.size < 4) ∨ m.lookup statKey = some 0 := by
  cases hlookup : m.lookup statKey with
  | none =>
    by_cases hroom : m.size < 4
    · rw [StatPc.step, bpfMapUpdateElem_any_of_room hlookup hroom, statCount, statCount,
        BoundedMap.lookup_insert_self, hlookup]
      exact iff_of_true rfl (.inl ⟨rfl, hroom⟩)
    · rw [StatPc.step, bpfMapUpdateElem_any_of_full hlookup hroom, statCount, hlookup]
      exact iff_of_false (by decide) fun h => h.elim (fun h => hroom h.2) nofun
  | some n =>
    rw [StatPc.step, bpfMapUpdateElem_any_of_some hlookup, statCount, statCount,
      BoundedMap.lookup_insert_self, hlookup]
    simp only [Option.getD_some, reduceCtorEq, false_and, false_or, Option.some.injEq]
    constructor
    · intro h
      exact add_eq_right.mp h.symm
    · intro h
      rw [h, zero_add]

/-- A CPU that is about to add has found the entry. -/
def StatCall.Found (m : DropStats) (call : StatCall) : Prop :=
  call.pc = .add → (m.lookup call.statKey).isSome

/-- A CPU that is about to insert finds no entry, and room for one. -/
def StatCall.InsertsNew (m : DropStats) (call : StatCall) : Prop :=
  call.pc = .update → m.lookup call.statKey = none ∧ m.size < 4

instance (m : DropStats) (call : StatCall) : Decidable (call.InsertsNew m) :=
  inferInstanceAs (Decidable (_ → _))

variable {call? : Option StatCall}

/-- No entry goes away. -/
theorem statAct_isSome (call? : Option StatCall) (i : BitVec 32)
    (h : (m.lookup statKey).isSome) : ((statAct m call? i).1.lookup statKey).isSome := by
  cases call? with
  | none => exact h
  | some call =>
    obtain ⟨k, pc⟩ := call
    cases pc with
    | lookup => exact h
    | update => exact isSome_bpfMapUpdateElem h 1 .any
    | add =>
      show ((m.modify k (· + 1)).lookup statKey).isSome
      rwa [BoundedMap.isSome_lookup_modify]

/-- Only a lookup that finds the entry leads to an addition. -/
theorem statAct_found (m : DropStats) (call? : Option StatCall) (i : BitVec 32) :
    ∀ call ∈ (statAct m call? i).2.1, call.Found (statAct m call? i).1 := by
  intro call' hcall
  cases call? with
  | none =>
    obtain rfl := Option.some.inj hcall
    exact nofun
  | some call =>
    obtain ⟨k, pc⟩ := call
    cases pc with
    | lookup =>
      obtain rfl := Option.some.inj hcall
      intro hadd
      show (m.lookup k).isSome
      by_contra hnone
      rw [if_neg hnone] at hadd
      cases hadd
    | update => cases hcall
    | add => cases hcall

/-- One more in one counter. -/
theorem toNat_statCount_of_bumped {m' : DropStats} {k : BitVec 32}
    (h : ∀ a, m'.lookup a = if a = k then some (statCount m k + 1) else m.lookup a)
    (statKey : BitVec 32) :
    (statCount m' statKey).toNat
      = ((statCount m statKey).toNat + if k = statKey then 1 else 0) % 2 ^ 64 := by
  rw [statCount, h]
  by_cases hk : statKey = k
  · subst hk
    rw [if_pos rfl, if_pos rfl, Option.getD_some, BitVec.toNat_add,
      show (1 : BitVec 64).toNat = 1 from rfl]
  · rw [if_neg hk, if_neg (Ne.symm hk)]
    have hlt := (statCount m statKey).isLt
    show (statCount m statKey).toNat = _
    omega

/-- What a call counts: its last step adds one to its counter and to no other. -/
theorem statAct_count (hfound : ∀ call ∈ call?, call.Found m)
    (hnew : ∀ call ∈ call?, call.InsertsNew m) (i statKey : BitVec 32) :
    ((statCount (statAct m call? i).1 statKey).toNat
        + uncountedCall statKey (statAct m call? i).2.1) % 2 ^ 64
      = ((statCount m statKey).toNat + uncountedCall statKey call?
        + if (statAct m call? i).2.2 = some statKey then 1 else 0) % 2 ^ 64 := by
  cases call? with
  | none =>
    -- a new call is still to be counted
    show ((statCount m statKey).toNat + if i = statKey then 1 else 0) % 2 ^ 64
      = ((statCount m statKey).toNat + 0 + if some i = some statKey then 1 else 0) % 2 ^ 64
    simp only [Option.some.injEq, Nat.add_zero]
  | some call =>
    obtain ⟨k, pc⟩ := call
    cases pc with
    | lookup => rfl
    | update =>
      obtain ⟨hlookup, hroom⟩ := hnew _ rfl rfl
      have hone : ∀ a, (bpfMapUpdateElem m k 1 .any).1.lookup a
          = if a = k then some (statCount m k + 1) else m.lookup a := by
        intro a
        rw [bpfMapUpdateElem_any_of_room hlookup hroom, BoundedMap.lookup_insert, statCount,
          hlookup]
        rfl
      have hbumped := toNat_statCount_of_bumped hone statKey
      show ((statCount (bpfMapUpdateElem m k 1 .any).1 statKey).toNat + 0) % 2 ^ 64
        = ((statCount m statKey).toNat + (if k = statKey then 1 else 0) + 0) % 2 ^ 64
      omega
    | add =>
      obtain ⟨n, hn⟩ := Option.isSome_iff_exists.mp (hfound _ rfl rfl)
      have hone : ∀ a, (m.modify k (· + 1)).lookup a
          = if a = k then some (statCount m k + 1) else m.lookup a := by
        intro a
        rw [BoundedMap.lookup_modify, statCount, hn]
        rfl
      have hbumped := toNat_statCount_of_bumped hone statKey
      show ((statCount (m.modify k (· + 1)) statKey).toNat + 0) % 2 ^ 64
        = ((statCount m statKey).toNat + (if k = statKey then 1 else 0) + 0) % 2 ^ 64
      omega

end

/-! ## Runs -/

section

variable {C : Type} [DecidableEq C] {s : StatSystem C} {es : List (C × BitVec 32)}

/-- The CPU that acts is not about to insert over an entry or into a full map. -/
def InsertsNew (s : StatSystem C) (ev : C × BitVec 32) : Prop :=
  ∀ call ∈ s.loc ev.1, call.InsertsNew s.mem

instance (s : StatSystem C) (ev : C × BitVec 32) : Decidable (InsertsNew s ev) :=
  inferInstanceAs (Decidable (∀ call ∈ s.loc ev.1, call.InsertsNew s.mem))

/-- Every CPU that is about to add has found the entry. -/
abbrev FoundAll (s : StatSystem C) : Prop :=
  s.Keeps (fun _ => True) (fun _ m call? => ∀ call ∈ call?, call.Found m) fun _ _ => True

omit [DecidableEq C] in
theorem foundAll_start (m : DropStats) : FoundAll (StatSystem.start C m) :=
  ⟨trivial, fun _ _ h => (nomatch h), fun _ _ _ => trivial⟩

theorem FoundAll.step (h : FoundAll s) (ev : C × BitVec 32) : FoundAll (statStep s ev).1 := by
  obtain ⟨c, i⟩ := ev
  apply Threads.Keeps.step h (fun _ _ _ => trivial) trivial (statAct_found _ _ _)
  intro d _ hd _
  exact ⟨fun call hcall hadd => statAct_isSome _ i (hd call hcall hadd), trivial⟩

variable [Fintype C]

/-- A counter and the calls still to be counted grow by the calls made. -/
theorem counted_run (hfound : FoundAll s) (h : StepsMeet statStep InsertsNew s es)
    (statKey : BitVec 32) :
    ((statCount (runState statStep s es).mem statKey).toNat
        + (runState statStep s es).total (uncountedCall statKey)) % 2 ^ 64
      = ((statCount s.mem statKey).toNat + s.total (uncountedCall statKey)
        + callsWith statKey s es) % 2 ^ 64 := by
  induction es generalizing s with
  | nil => rfl
  | cons ev es ih =>
    obtain ⟨c, i⟩ := ev
    obtain ⟨hnew, hrest⟩ := h
    have hstep := statAct_count (hfound.loc c) hnew i statKey
    have htotal := Threads.total_step (uncountedCall statKey) statAct s c i
    have hrun := ih (hfound.step (c, i)) hrest
    have hcalls : callsWith statKey s ((c, i) :: es)
        = callsWith statKey (statStep s (c, i)).1 es
          + if (statAct s.mem (s.loc c) i).2.2 = some statKey then 1 else 0 := by
      rw [callsWith, runOut_cons, List.count_cons]
      simp only [beq_iff_eq]
      rfl
    rw [runState_cons, hcalls]
    have hmem : (statStep s (c, i)).1.mem = (statAct s.mem (s.loc c) i).1 := rfl
    rw [hmem] at hrun
    have htotal' : (statStep s (c, i)).1.total (uncountedCall statKey)
        + uncountedCall statKey (s.loc c)
        = s.total (uncountedCall statKey)
          + uncountedCall statKey (statAct s.mem (s.loc c) i).2.1 := htotal
    omega

theorem countersExact_of_stepsMeet {dropStats : DropStats}
    (h : StepsMeet statStep InsertsNew (StatSystem.start C dropStats) es) :
    CountersExact dropStats es := by
  unfold CountersExact
  intro s hidle statKey
  have hcounted : ((statCount s.mem statKey).toNat + s.total (uncountedCall statKey)) % 2 ^ 64 = _ :=
    counted_run (foundAll_start dropStats) h statKey
  have hzero : s.total (uncountedCall statKey) = 0 := by
    apply Threads.total_eq_zero
    intro c
    rw [hidle c]
    rfl
  have hstart : (StatSystem.start C dropStats).total (uncountedCall statKey) = 0 :=
    Threads.total_eq_zero fun _ => rfl
  have hmem : (StatSystem.start C dropStats).mem = dropStats := rfl
  rw [hzero, hstart, hmem] at hcounted
  have hlt := (statCount s.mem statKey).isLt
  apply BitVec.eq_of_toNat_eq
  rw [BitVec.toNat_add, BitVec.toNat_ofNat]
  omega

/-- **No drop is lost.** In a run in which every insertion of `bump_stat` finds no entry for its key
and room for one, the counters are exact whenever all calls have returned. -/
theorem counters_exact_of_insertsNew (dropStats : DropStats) (es : List (C × BitVec 32))
    (h : StepsMeet statStep InsertsNew (StatSystem.start C dropStats) es) (T : ℕ) :
    CountersExact dropStats (es.take T) :=
  countersExact_of_stepsMeet (h.take T)

end

/-- Two CPUs that refuse a frame each at the same time, the second of which finds the entry that the
first has inserted; and meanwhile a completion without a configuration. -/
def interleavedRun : List (Fin 2 × BitVec 32) :=
  [(0, statDroppedFairnessQuota), (1, statDroppedFairnessQuota), (0, statDroppedFairnessQuota),
    (0, statDroppedFairnessQuota), (1, statDroppedFairnessQuota), (0, statDroppedNoConfig),
    (0, statDroppedNoConfig), (1, statDroppedFairnessQuota), (0, statDroppedNoConfig)]

theorem interleavedRun_exact :
    CountersExact BoundedMap.empty (interleavedRun.take interleavedRun.length) :=
  counters_exact_of_insertsNew BoundedMap.empty interleavedRun (by decide +kernel) _

/-- Two CPUs that refuse a frame each. Both look the counter up before either inserts it. -/
def missedRun : List (Fin 2 × BitVec 32) :=
  [(0, statDroppedFairnessQuota), (1, statDroppedFairnessQuota), (0, statDroppedFairnessQuota),
    (1, statDroppedFairnessQuota), (0, statDroppedFairnessQuota), (1, statDroppedFairnessQuota)]

/-- **A lost drop.** The second insertion puts its `1` over that of the first. -/
theorem missedRun_loses :
    callsWith statDroppedFairnessQuota (StatSystem.start (Fin 2) BoundedMap.empty) missedRun = 2
      ∧ statCount (runState statStep (StatSystem.start (Fin 2) BoundedMap.empty) missedRun).mem
        statDroppedFairnessQuota = 1
      ∧ ¬ CountersExact BoundedMap.empty missedRun := by
  have hcalls : callsWith statDroppedFairnessQuota
      (StatSystem.start (Fin 2) BoundedMap.empty) missedRun = 2 := by decide +kernel
  have hcount : statCount
      (runState statStep (StatSystem.start (Fin 2) BoundedMap.empty) missedRun).mem
      statDroppedFairnessQuota = 1 := by decide +kernel
  have hidle : ∀ c, (runState statStep (StatSystem.start (Fin 2) BoundedMap.empty)
      missedRun).loc c = none := by decide +kernel
  refine ⟨hcalls, hcount, fun hexact => ?_⟩
  have hsum := hexact hidle statDroppedFairnessQuota
  rw [hcount, hcalls] at hsum
  exact absurd hsum (by decide +kernel)

/-! ## Counters that are there from the start -/

/-- A CPU in a call whose counter has an entry, and which has not missed it. -/
def StatCall.Present (m : DropStats) (call : StatCall) : Prop :=
  call.pc ≠ .update ∧ (m.lookup call.statKey).isSome

theorem statAct_present {m : DropStats} {call? : Option StatCall} {i : BitVec 32}
    (h : ∀ call ∈ call?, call.Present m) (hi : (m.lookup i).isSome) :
    ∀ call ∈ (statAct m call? i).2.1, call.Present (statAct m call? i).1 := by
  intro call' hcall
  cases call? with
  | none =>
    obtain rfl := Option.some.inj hcall
    exact ⟨nofun, hi⟩
  | some call =>
    obtain ⟨k, pc⟩ := call
    obtain ⟨hpc, hk⟩ := h _ rfl
    cases pc with
    | lookup =>
      obtain rfl := Option.some.inj hcall
      refine ⟨?_, hk⟩
      show (if (m.lookup k).isSome then StatPc.add else .update) ≠ .update
      rw [if_pos hk]
      nofun
    | update => exact absurd rfl hpc
    | add => cases hcall

/-- A counter that has an entry is never inserted. -/
theorem stepsMeet_of_present {C : Type} [DecidableEq C] {s : StatSystem C}
    {es : List (C × BitVec 32)} (hloc : ∀ c, ∀ call ∈ s.loc c, call.Present s.mem)
    (hes : ∀ ev ∈ es, (s.mem.lookup ev.2).isSome) : StepsMeet statStep InsertsNew s es := by
  induction es generalizing s with
  | nil => trivial
  | cons ev es ih =>
    obtain ⟨c, i⟩ := ev
    have hi := hes (c, i) List.mem_cons_self
    refine ⟨fun call hcall hpc => absurd hpc (hloc c call hcall).1, ih (fun d call hcall => ?_)
      fun ev hev => statAct_isSome _ i (hes ev (List.mem_cons_of_mem _ hev))⟩
    by_cases hd : d = c
    · subst hd
      rw [statStep, Threads.step_loc_self] at hcall
      exact statAct_present (hloc d) hi call hcall
    · rw [statStep, Threads.step_loc_of_ne hd] at hcall
      obtain ⟨hpc, hk⟩ := hloc d call hcall
      exact ⟨hpc, statAct_isSome _ i hk⟩

/-- When every counter that is bumped has an entry from the start, no drop is lost in any run. -/
theorem counters_exact_of_present {C : Type} [DecidableEq C] [Fintype C] {dropStats : DropStats}
    {es : List (C × BitVec 32)} (h : ∀ ev ∈ es, (dropStats.lookup ev.2).isSome) :
    CountersExact dropStats es :=
  countersExact_of_stepsMeet (stepsMeet_of_present (fun _ _ h => nomatch h) h)

end NetSum.XdpAgg
