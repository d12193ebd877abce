import NetSum.Aggregation.Machine
import NetSum.Lib.Runs

/-!
# A round under retransmission

One key's machine fed with the datagrams of `N` workers, each any number of times in any order.
The machine forgets the workers when it completes, so a copy that comes after the last worker's
first datagram opens the key again. It completes exactly once and leaves nothing behind exactly
when the last datagram is the first of its worker and all workers are there
(`completes_once_iff`).
-/

namespace NetSum.Aggregation

open NetSum.Lib NetSum.Protocol

/-- One datagram of the key, which it may open. -/
def keyStep (T? : Option Tally) (d : Bytes) : Option Tally × Answer Tally :=
  ((respond true d T?).2, (respond true d T?).1)

/-- The tally of a completed key. -/
def Answer.completed {α : Type} : Answer α → Option α
  | complete final => some final
  | _ => none

/-- `f w` is the datagram of worker `w`, for all `N` workers of a round of chunk length `L`. -/
structure WorkersSend (N L : ℕ) (f : ℕ → Bytes) : Prop where
  workerId_eq : ∀ w < N, (GradHdr.decode (f w)).workerId.toNat = w
  numWorkers_eq : ∀ w < N, (GradHdr.decode (f w)).numWorkers.toNat = N
  chunkLen_eq : ∀ w < N, (GradHdr.decode (f w)).chunkLen.toNat = L

/-- `f w` is the datagram of worker `w` of such a round. -/
structure SendsOne (N L : ℕ) (f : ℕ → Bytes) (w : ℕ) : Prop where
  worker_lt : w < N
  workerId_lt : w < maxTrackedWorkers
  workerId_eq : (GradHdr.decode (f w)).workerId.toNat = w
  numWorkers_eq : (GradHdr.decode (f w)).numWorkers.toNat = N
  chunkLen_eq : (GradHdr.decode (f w)).chunkLen.toNat = L

theorem WorkersSend.sendsOne {N L : ℕ} {f : ℕ → Bytes} (hf : WorkersSend N L f) {ws : List ℕ}
    (hws : ∀ w ∈ ws, w < N ∧ w < maxTrackedWorkers) : ∀ w ∈ ws, SendsOne N L f w :=
  fun w hw => ⟨(hws w hw).1, (hws w hw).2, hf.workerId_eq w (hws w hw).1,
    hf.numWorkers_eq w (hws w hw).1, hf.chunkLen_eq w (hws w hw).1⟩

/-- The last worker is new, and all `N` are there. -/
def LastIsNew (N : ℕ) (ws : List ℕ) : Prop :=
  (∃ pre w, ws = pre ++ [w] ∧ w ∉ pre) ∧ ∀ w < N, w ∈ ws

/-- What worker `w` contributes. -/
def values (f : ℕ → Bytes) (w : ℕ) : Fin netsumMaxChunkLen → BitVec 32 :=
  (Contribution.ofDatagram (f w)).values

/-- How far a round has come after the datagrams of the workers `ws`: not begun, under way,
completed by the last of them, or begun again after that. -/
inductive Phase (N L : ℕ) (f : ℕ → Bytes) : List ℕ → Option Tally → List Tally → Prop
  | idle : Phase N L f [] none []
  | collecting {ws : List ℕ} (T : Tally) (hT : T.Of N L (values f) ws.toFinset)
    (hlt : T.count < N) : Phase N L f ws (some T) []
  | done {ws : List ℕ} (T : Tally) (hT : T.Of N L (values f) ws.toFinset)
    (hN : ws.toFinset.card = N) (hlast : ∃ pre w, ws = pre ++ [w] ∧ w ∉ pre) :
    Phase N L f ws none [T]
  | exceeded {T? : Option Tally} {Ts : List Tally} (pre : List ℕ) (w : ℕ) {ws : List ℕ}
    (hN : pre.toFinset.card = N) (h : 2 ≤ Ts.length + liveCount T?) :
    Phase N L f (pre ++ w :: ws) T? Ts

section

variable {N L : ℕ} {f : ℕ → Bytes}

/-- The key is completed when all workers are in. -/
theorem settle_of {c : ℕ → Fin netsumMaxChunkLen → BitVec 32} {T : Tally} {A : Finset ℕ}
    (hT : T.Of N L c A) (hA : A.card ≤ N) :
    (A.card < N ∧ settle T = (.absorbed, some T)) ∨ (A.card = N ∧ settle T = (.complete T, none)) := by
  rcases Nat.lt_or_eq_of_le hA with hlt | heq
  · exact .inl ⟨hlt, settle_of_lt (by rw [hT.count_eq, hT.fanIn_eq]; exact hlt)⟩
  · exact .inr ⟨heq, settle_of_le (by rw [hT.count_eq, hT.fanIn_eq, heq])⟩

/-- A datagram of the key keeps it, or completes it. -/
theorem liveCount_le_keyStep (d : Bytes) (T? : Option Tally) :
    liveCount T? ≤ (keyStep T? d).2.completed.toList.length + liveCount (keyStep T? d).1 := by
  have hsettle : ∀ T, 1 ≤ (settle T).1.completed.toList.length + liveCount (settle T).2 := by
    intro T
    unfold settle
    split <;> exact le_rfl
  cases T? with
  | none => exact Nat.zero_le _
  | some T =>
    simp only [keyStep, respond, liveCount_some]
    split
    · exact le_rfl
    split
    · exact le_rfl
    exact hsettle _

/-- A datagram of a key that is not live opens it, and may complete it at once. -/
theorem one_le_keyStep_none (d : Bytes) :
    1 ≤ (keyStep none d).2.completed.toList.length + liveCount (keyStep none d).1 := by
  simp only [keyStep, respond, if_true, settle]
  split <;> exact le_rfl

theorem length_le_of_subset_range {ws : List ℕ} (hws : ∀ v ∈ ws, v < N) :
    ws.toFinset.card ≤ N := by
  have hsub : ws.toFinset ⊆ Finset.range N := fun v hv =>
    Finset.mem_range.mpr (hws v (List.mem_toFinset.mp hv))
  simpa using Finset.card_le_card hsub

/-- One more datagram. -/
theorem Phase.step {ws : List ℕ} {T? : Option Tally} {Ts : List Tally}
    (h : Phase N L f ws T? Ts) {w : ℕ} (hf : SendsOne N L f w) (hws : ∀ v ∈ ws, v < N) :
    Phase N L f (ws ++ [w]) (keyStep T? (f w)).1 (Ts ++ (keyStep T? (f w)).2.completed.toList) := by
  have hworker : ((Contribution.ofDatagram (f w)).worker : ℕ) = w := by
    show (GradHdr.decode (f w)).workerId.toNat % maxTrackedWorkers = w
    rw [hf.workerId_eq, Nat.mod_eq_of_lt hf.workerId_lt]
  have hvalues : (Contribution.ofDatagram (f w)).values
      = values f (Contribution.ofDatagram (f w)).worker := by rw [hworker]; rfl
  have hcard : (ws ++ [w]).toFinset.card ≤ N := by
    refine length_le_of_subset_range fun v hv => ?_
    rcases List.mem_append.mp hv with hv | hv
    · exact hws v hv
    · rw [List.mem_singleton.mp hv]
      exact hf.worker_lt
  cases h with
  | idle =>
    -- the datagram opens the round
    have hT := (Tally.of_opened N L (values f)).absorb hvalues (Finset.notMem_empty _)
    rw [hworker] at hT
    have hrespond : respond true (f w) none = settle ((Tally.opened N L).absorb
        (Contribution.ofDatagram (f w))) := by
      rw [respond, if_pos rfl, hf.numWorkers_eq, hf.chunkLen_eq]
    rw [keyStep, hrespond]
    rcases settle_of hT hcard with ⟨hlt, heq⟩ | ⟨hN, heq⟩
    · rw [heq]
      exact .collecting _ hT (by rwa [hT.count_eq])
    · rw [heq]
      exact .done _ hT hN ⟨[], w, rfl, List.not_mem_nil⟩
  | collecting T hT hlt =>
    have hlen : T.chunkLen = (GradHdr.decode (f w)).chunkLen.toNat :=
      hT.chunkLen_eq.trans hf.chunkLen_eq.symm
    have hinsert : (ws ++ [w]).toFinset = insert w ws.toFinset := by
      ext v
      simp
    -- a copy of a datagram that is summed already is a duplicate
    by_cases hmem : w ∈ ws
    · have hseen : T.seen (Contribution.ofDatagram (f w)).worker = true := by
        rw [hT.seen_iff, hworker]
        exact List.mem_toFinset.mpr hmem
      rw [keyStep, respond_of_seen hlen hseen]
      refine .collecting T ?_ hlt
      rwa [hinsert, Finset.insert_eq_of_mem (List.mem_toFinset.mpr hmem)]
    · have hseen : T.seen (Contribution.ofDatagram (f w)).worker = false := by
        rw [Bool.eq_false_iff, ne_eq, hT.seen_iff, hworker]
        exact fun hv => hmem (List.mem_toFinset.mp hv)
      have hT' := hT.absorb hvalues (by rwa [hworker, List.mem_toFinset])
      rw [hworker, ← hinsert] at hT'
      rw [keyStep, respond_of_new hlen hseen]
      rcases settle_of hT' hcard with ⟨hlt', heq⟩ | ⟨hN, heq⟩
      · rw [heq]
        exact .collecting _ hT' (by rwa [hT'.count_eq])
      · rw [heq]
        exact .done _ hT' hN ⟨ws, w, rfl, hmem⟩
  | done T hT hN hlast =>
    -- whatever comes now opens the key anew
    refine .exceeded ws w hN ?_
    have := one_le_keyStep_none (f w)
    simp only [List.length_append, List.length_singleton]
    omega
  | exceeded pre v hN hle =>
    rw [List.append_assoc, List.cons_append]
    refine .exceeded pre v hN ?_
    have := liveCount_le_keyStep (f w) T?
    rw [List.length_append]
    omega

/-- A run over the datagrams of the workers `ws`. -/
theorem phase_run {ws : List ℕ} (hf : ∀ w ∈ ws, SendsOne N L f w) :
    Phase N L f ws (runState keyStep none (ws.map f))
      ((runOut keyStep none (ws.map f)).filterMap Answer.completed) := by
  induction ws using List.reverseRecOn with
  | nil => exact .idle
  | append_singleton ws w ih =>
    have hpre : ∀ v ∈ ws, SendsOne N L f v := fun v hv => hf v (List.mem_append_left _ hv)
    have hstep := (ih hpre).step (hf w (by simp)) fun v hv => (hpre v hv).worker_lt
    rw [List.map_append, runState_append, runOut_append, List.filterMap_append]
    have hlast : ((runOut keyStep (runState keyStep none (ws.map f)) ([w].map f)).filterMap
        Answer.completed) = (keyStep (runState keyStep none (ws.map f)) (f w)).2.completed.toList := by
      simp only [List.map_cons, List.map_nil, runOut_cons, runOut_nil, List.filterMap_cons,
        List.filterMap_nil]
      cases (keyStep (runState keyStep none (ws.map f)) (f w)).2.completed <;> rfl
    rw [hlast]
    exact hstep

/-- As many workers as there are is all of them. -/
theorem toFinset_eq_range {ws : List ℕ} (hws : ∀ w ∈ ws, w < N) (hN : ws.toFinset.card = N) :
    ws.toFinset = Finset.range N := by
  refine Finset.eq_of_subset_of_card_le (fun v hv => ?_) (by rw [Finset.card_range, hN])
  exact Finset.mem_range.mpr (hws v (List.mem_toFinset.mp hv))

/-- Datagrams of distinct workers leave the round under way or complete it, once. -/
theorem Phase.of_nodup {ws : List ℕ} {T? : Option Tally} {Ts : List Tally}
    (h : Phase N L f ws T? Ts) (hnodup : ws.Nodup) (hne : ws ≠ []) (hws : ∀ w ∈ ws, w < N) :
    ∃ T, T.Of N L (values f) ws.toFinset
      ∧ (T?, Ts) = if T.count < N then (some T, []) else (none, [T]) := by
  cases h with
  | idle => exact absurd rfl hne
  | collecting T hT hlt => exact ⟨T, hT, by rw [if_pos hlt]⟩
  | done T hT hN hlast => exact ⟨T, hT, by rw [if_neg (by rw [hT.count_eq, hN]; exact lt_irrefl N)]⟩
  | exceeded pre w hN hle =>
    -- all workers were there before `w`
    have hpre : pre.toFinset = Finset.range N :=
      toFinset_eq_range (fun v hv => hws v (List.mem_append_left _ hv)) hN
    have hmem : w ∈ pre.toFinset := by
      rw [hpre, Finset.mem_range]
      exact hws w (by simp)
    have hdisj := (List.nodup_append.mp hnodup).2.2 w (List.mem_toFinset.mp hmem) w
    exact absurd rfl (hdisj List.mem_cons_self)

/-- **The order of distinct workers does not matter**, and they complete the key once at most. -/
theorem run_perm {ws ws' : List ℕ} (hf : ∀ w ∈ ws, SendsOne N L f w) (hnodup : ws.Nodup)
    (hperm : ws.Perm ws') :
    runState keyStep none (ws.map f) = runState keyStep none (ws'.map f)
      ∧ (runOut keyStep none (ws.map f)).filterMap Answer.completed
        = (runOut keyStep none (ws'.map f)).filterMap Answer.completed
      ∧ ((runOut keyStep none (ws.map f)).filterMap Answer.completed).length ≤ 1 := by
  by_cases hne : ws = []
  · subst hne
    rw [List.nil_perm.mp hperm]
    exact ⟨rfl, rfl, Nat.zero_le 1⟩
  have hf' : ∀ w ∈ ws', SendsOne N L f w := fun w hw => hf w (hperm.mem_iff.mpr hw)
  obtain ⟨T, hT, heq⟩ := (phase_run hf).of_nodup hnodup hne fun w hw => (hf w hw).worker_lt
  obtain ⟨T', hT', heq'⟩ := (phase_run hf').of_nodup (hperm.nodup_iff.mp hnodup)
    (fun hnil => hne (List.perm_nil.mp (hnil ▸ hperm))) fun w hw => (hf' w hw).worker_lt
  rw [← List.toFinset_eq_of_perm _ _ hperm] at hT'
  obtain rfl := hT.unique hT'
  obtain ⟨hstate, hout⟩ := Prod.ext_iff.mp (heq.trans heq'.symm)
  refine ⟨hstate, hout, ?_⟩
  rw [show (runOut keyStep none (ws.map f)).filterMap Answer.completed = _ from congrArg Prod.snd heq]
  split <;> simp

/-- **Exactly once.** The key is completed exactly once and is not live afterwards, exactly when
the last datagram is the first of its worker and all workers are there. -/
theorem completes_once_iff (hf : WorkersSend N L f) {ws : List ℕ}
    (hws : ∀ w ∈ ws, w < N ∧ w < maxTrackedWorkers) :
    (runState keyStep none (ws.map f) = none ∧
      ∃ T, (runOut keyStep none (ws.map f)).filterMap Answer.completed = [T]) ↔ LastIsNew N ws := by
  have hlt : ∀ v ∈ ws, v < N := fun v hv => (hws v hv).1
  have hphase := phase_run (hf.sendsOne hws)
  generalize runState keyStep none (ws.map f) = T? at hphase ⊢
  generalize (runOut keyStep none (ws.map f)).filterMap Answer.completed = Ts at hphase ⊢
  cases hphase with
  | idle =>
    refine iff_of_false (by simp) ?_
    rintro ⟨⟨pre, w, h, -⟩, -⟩
    simp at h
  | collecting T hT hcount =>
    refine iff_of_false (by simp) ?_
    rintro ⟨-, hall⟩
    have hsup : Finset.range N ⊆ ws.toFinset := fun v hv =>
      List.mem_toFinset.mpr (hall v (Finset.mem_range.mp hv))
    have := Finset.card_le_card hsup
    rw [Finset.card_range, ← hT.count_eq] at this
    omega
  | done T hT hN hlast =>
    refine iff_of_true ⟨rfl, T, rfl⟩ ⟨hlast, fun v hv => ?_⟩
    exact List.mem_toFinset.mp (toFinset_eq_range hlt hN ▸ Finset.mem_range.mpr hv)
  | exceeded pre w hN hle =>
    refine iff_of_false ?_ ?_
    · rintro ⟨rfl, T, rfl⟩
      simp at hle
    · -- the last worker is among those that had completed the round
      rintro ⟨⟨pre', w', h, hnew⟩, -⟩
      have hw' : w' ∈ pre := by
        rw [← List.mem_toFinset,
          toFinset_eq_range (fun v hv => hlt v (List.mem_append_left _ hv)) hN, Finset.mem_range]
        exact hlt w' (h ▸ by simp)
      rcases List.append_eq_append_iff.mp h with ⟨as, rfl, -⟩ | ⟨cs, rfl, hcs⟩
      · exact hnew (List.mem_append_left _ hw')
      · cases cs with
        | nil => exact hnew (by simpa using hw')
        | cons c cs => simp at hcs

/-- What a key that is completed once is completed with: the contributions of all workers. -/
theorem of_completes_once (hf : WorkersSend N L f) {ws : List ℕ}
    (hws : ∀ w ∈ ws, w < N ∧ w < maxTrackedWorkers)
    (hstate : runState keyStep none (ws.map f) = none) {T : Tally}
    (hout : (runOut keyStep none (ws.map f)).filterMap Answer.completed = [T]) :
    T.Of N L (values f) (Finset.range N) := by
  have hphase := phase_run (hf.sendsOne hws)
  rw [hstate, hout] at hphase
  cases hphase with
  | done T hT hN hlast => exact toFinset_eq_range (fun v hv => (hws v hv).1) hN ▸ hT
  | exceeded pre w hN hle => simp at hle

end

end NetSum.Aggregation
