import NetSum.Aggregation.Retransmission

/-!
# A round among datagrams of other lengths

One key's machine fed with the datagrams of a round of chunk length `L`, and with others of other
chunk lengths. The machine rejects what does not have the length of the slot, and the length of
the slot is that of whichever datagram opens it. So the others leave no trace on the round as long
as no datagram of the round finds the key live with another length (`completed_of_findsOwnLength`),
and a round that loses a datagram is never completed (`findsOwnLength_of_completed`).
-/

namespace NetSum.Aggregation

open NetSum.Lib NetSum.Protocol

def chunkLenOf (d : Bytes) : ℕ := (GradHdr.decode d).chunkLen.toNat

/-- A datagram of chunk length `L` does not find the key live with another length. -/
def FindsOwnLength (L : ℕ) (T? : Option Tally) (d : Bytes) : Prop :=
  chunkLenOf d = L → ∀ T, T? = some T → T.chunkLen = L

/-! ## Lengths -/

/-- What stays live after a datagram of the same length has that length. -/
theorem chunkLen_keyStep {T? : Option Tally} {d : Bytes}
    (h : ∀ T, T? = some T → T.chunkLen = chunkLenOf d) {T' : Tally}
    (h' : (keyStep T? d).1 = some T') : T'.chunkLen = chunkLenOf d := by
  rcases live_cases h' with rfl | ⟨-, -, -, rfl⟩ | ⟨T, rfl, hchunk, -, -, rfl⟩
  · exact h T' rfl
  · rfl
  · exact hchunk

theorem answer_of_completed {T? : Option Tally} {d : Bytes} {T : Tally}
    (h : (keyStep T? d).2.completed = some T) : (respond true d T?).1 = .complete T := by
  change (respond true d T?).1.completed = some T at h
  generalize (respond true d T?).1 = a at h
  cases a with
  | complete final => exact congrArg Answer.complete (Option.some.inj h)
  | refused => cases h
  | mismatch => cases h
  | duplicate => cases h
  | absorbed => cases h

theorem chunkLen_completed {T? : Option Tally} {d : Bytes} {T : Tally}
    (h : (keyStep T? d).2.completed = some T) : T.chunkLen = chunkLenOf d :=
  chunkLen_of_complete (answer_of_completed h)

/-- A datagram of another length leaves a live key alone. -/
theorem keyStep_of_mismatch {T : Tally} {d : Bytes} (h : T.chunkLen ≠ chunkLenOf d) :
    keyStep (some T) d = (some T, .mismatch) := by
  rw [keyStep, respond_of_mismatch h]

/-- A datagram of another length than `L` does not make the key live with `L`. -/
theorem chunkLen_ne_keyStep {L : ℕ} {T? : Option Tally} {d : Bytes} (hd : chunkLenOf d ≠ L)
    (h : ∀ T, T? = some T → T.chunkLen ≠ L) {T' : Tally} (h' : (keyStep T? d).1 = some T') :
    T'.chunkLen ≠ L := by
  rcases live_cases h' with rfl | ⟨-, -, -, rfl⟩ | ⟨T, rfl, -, -, -, rfl⟩
  · exact h T' rfl
  · exact hd
  · exact h T rfl

/-! ## The others leave no trace -/

/-- The key as the datagrams of length `L` alone would have it, or not live with that length. -/
def Follows (L : ℕ) (T? H? : Option Tally) : Prop :=
  (T? = H? ∧ ∀ T, H? = some T → T.chunkLen = L) ∨ (H? = none ∧ ∀ T, T? = some T → T.chunkLen ≠ L)

theorem follows_none (L : ℕ) : Follows L none none := .inl ⟨rfl, fun T h => by cases h⟩

/-- A datagram of another length. -/
theorem Follows.other {L : ℕ} {T? H? : Option Tally} (h : Follows L T? H?) {d : Bytes}
    (hd : chunkLenOf d ≠ L) : Follows L (keyStep T? d).1 H? := by
  rcases h with ⟨rfl, hlen⟩ | ⟨rfl, hlen⟩
  · cases T? with
    | none => exact .inr ⟨rfl, fun T hT => chunkLen_ne_keyStep hd (fun T h => by cases h) hT⟩
    | some T =>
      rw [keyStep_of_mismatch (by rw [hlen T rfl]; exact Ne.symm hd)]
      exact .inl ⟨rfl, hlen⟩
  · exact .inr ⟨rfl, fun T hT => chunkLen_ne_keyStep hd hlen hT⟩

/-- A datagram of length `L` that does not find another length. -/
theorem Follows.own {L : ℕ} {T? H? : Option Tally} (h : Follows L T? H?) {d : Bytes}
    (hd : chunkLenOf d = L) (hfinds : FindsOwnLength L T? d) :
    T? = H? ∧ Follows L (keyStep T? d).1 (keyStep H? d).1 := by
  have hlen := hfinds hd
  have heq : T? = H? := by
    rcases h with ⟨heq, -⟩ | ⟨rfl, hne⟩
    · exact heq
    · cases T? with
      | none => rfl
      | some T => exact absurd (hlen T rfl) (hne T rfl)
  subst heq
  refine ⟨rfl, .inl ⟨rfl, fun T hT => ?_⟩⟩
  rw [chunkLen_keyStep (fun T hT => (hlen T hT).trans hd.symm) hT, hd]

/-- Datagrams of one length find no other. -/
theorem findsOwnLength_of_all {L : ℕ} {T? : Option Tally} {ds : List Bytes}
    (hlen : ∀ T, T? = some T → T.chunkLen = L) (hds : ∀ d ∈ ds, chunkLenOf d = L) :
    StepsMeet keyStep (FindsOwnLength L) T? ds := by
  induction ds generalizing T? with
  | nil => trivial
  | cons d ds ih =>
    have hd := hds d List.mem_cons_self
    refine ⟨fun _ => hlen, ih (fun T hT => ?_) fun d' hd' => hds d' (List.mem_cons_of_mem _ hd')⟩
    rw [chunkLen_keyStep (fun T hT => (hlen T hT).trans hd.symm) hT, hd]

/-- **What is completed with length `L` is what the datagrams of that length complete alone**, if
none of them finds the key live with another. -/
theorem completed_of_findsOwnLength {L : ℕ} {T? H? : Option Tally} (h : Follows L T? H?)
    {ds : List Bytes} (hmeet : StepsMeet keyStep (FindsOwnLength L) T? ds) :
    ((runOut keyStep T? ds).filterMap Answer.completed).filter (fun T => T.chunkLen = L)
      = (runOut keyStep H? (ds.filter fun d => chunkLenOf d = L)).filterMap Answer.completed := by
  induction ds generalizing T? H? with
  | nil => rfl
  | cons d ds ih =>
    rw [runOut_cons, List.filterMap_cons]
    -- a datagram of the round is one of both runs, another only of the first
    by_cases hd : chunkLenOf d = L
    · obtain ⟨rfl, hnext⟩ := h.own hd hmeet.1
      rw [List.filter_cons_of_pos (by simpa using hd), runOut_cons, List.filterMap_cons,
        ← ih hnext hmeet.2]
      cases hc : (keyStep T? d).2.completed with
      | none => rfl
      | some T =>
        have hT : T.chunkLen = L := (chunkLen_completed hc).trans hd
        exact List.filter_cons_of_pos (by simpa using hT)
    · rw [List.filter_cons_of_neg (by simpa using hd), ← ih (h.other hd) hmeet.2]
      cases hc : (keyStep T? d).2.completed with
      | none => rfl
      | some T =>
        have hT : T.chunkLen ≠ L := by
          rw [chunkLen_completed hc]
          exact hd
        exact List.filter_cons_of_neg (by simpa using hT)

/-! ## A lost datagram is missing -/

/-- If the key is live with length `L`, it waits for `N` contributions and has at most `c`. -/
def AtMost (N L c : ℕ) (T? : Option Tally) : Prop :=
  ∀ T, T? = some T → T.chunkLen = L → T.fanIn = N ∧ T.count ≤ c

theorem AtMost.mono {N L c c' : ℕ} {T? : Option Tally} (h : AtMost N L c T?) (hc : c ≤ c') :
    AtMost N L c' T? :=
  fun T hT hlen => ⟨(h T hT hlen).1, (h T hT hlen).2.trans hc⟩

theorem AtMost.other {N L c : ℕ} {T? : Option Tally} (h : AtMost N L c T?) {d : Bytes}
    (hd : chunkLenOf d ≠ L) : AtMost N L c (keyStep T? d).1 := by
  intro T' hT' hlen
  rcases live_cases hT' with rfl | ⟨-, -, -, rfl⟩ | ⟨T, rfl, hchunk, -, -, rfl⟩
  · exact h T' rfl hlen
  · exact absurd hlen hd
  · exact absurd (hchunk.symm.trans hlen) hd

/-- A datagram of the round is one contribution more at most, and only completes the round if it
is the last. -/
theorem AtMost.own {N L c : ℕ} {T? : Option Tally} (h : AtMost N L c T?) {d : Bytes}
    (hd : chunkLenOf d = L) (hfan : (GradHdr.decode d).numWorkers.toNat = N) :
    AtMost N L (c + 1) (keyStep T? d).1
      ∧ ∀ T, (keyStep T? d).2.completed = some T → N ≤ c + 1 := by
  constructor
  · intro T' hT' hlen
    rcases live_cases hT' with rfl | ⟨-, -, -, rfl⟩ | ⟨T, rfl, hchunk, -, -, rfl⟩
    · exact h.mono (Nat.le_succ c) T' rfl hlen
    · exact ⟨hfan, Nat.le_add_left 1 c⟩
    · obtain ⟨hN, hcount⟩ := h T rfl (hchunk.trans hd)
      exact ⟨hN, Nat.succ_le_succ hcount⟩
  · intro T' hT'
    -- a tally is only completed when its count has reached the fan-in
    obtain ⟨hle, ⟨rfl, rfl⟩ | ⟨T, rfl, hchunk, rfl⟩⟩ := complete_cases (answer_of_completed hT')
    · exact hfan ▸ hle.trans (Nat.le_add_left 1 c)
    · obtain ⟨hN, hcount⟩ := h T rfl (hchunk.trans hd)
      exact hN ▸ hle.trans (Nat.succ_le_succ hcount)

section

variable {N L : ℕ}

/-- The datagrams of a round of chunk length `L` expect `N` workers. -/
def Expects (N L : ℕ) (ds : List Bytes) : Prop :=
  ∀ d ∈ ds, chunkLenOf d = L → (GradHdr.decode d).numWorkers.toNat = N

theorem Expects.tail {d : Bytes} {ds : List Bytes} (h : Expects N L (d :: ds)) : Expects N L ds :=
  fun d' hd' => h d' (List.mem_cons_of_mem _ hd')

/-- Fewer datagrams than workers do not complete the round. -/
theorem not_completed_of_lt {T? : Option Tally} {c : ℕ} (h : AtMost N L c T?) {ds : List Bytes}
    (hfan : Expects N L ds) (hlt : c + (ds.filter fun d => chunkLenOf d = L).length < N) :
    ∀ T ∈ (runOut keyStep T? ds).filterMap Answer.completed, T.chunkLen ≠ L := by
  induction ds generalizing T? c with
  | nil => simp
  | cons d ds ih =>
    intro T hT
    rw [runOut_cons, List.mem_filterMap] at hT
    obtain ⟨a, ha, hc⟩ := hT
    by_cases hd : chunkLenOf d = L
    · obtain ⟨hnext, hlast⟩ := h.own hd (hfan d List.mem_cons_self hd)
      rw [List.filter_cons_of_pos (by simpa using hd), List.length_cons] at hlt
      rcases List.mem_cons.mp ha with rfl | ha
      · have := hlast T hc
        omega
      · exact ih hnext hfan.tail (by omega) T (List.mem_filterMap.mpr ⟨a, ha, hc⟩)
    · rw [List.filter_cons_of_neg (by simpa using hd)] at hlt
      rcases List.mem_cons.mp ha with rfl | ha
      · rw [chunkLen_completed hc]
        exact hd
      · exact ih (h.other hd) hfan.tail hlt T (List.mem_filterMap.mpr ⟨a, ha, hc⟩)

/-- **A round with as many datagrams as workers that is completed has lost none.** -/
theorem findsOwnLength_of_completed {T? : Option Tally} {c : ℕ} (h : AtMost N L c T?)
    {ds : List Bytes} (hfan : Expects N L ds)
    (hle : c + (ds.filter fun d => chunkLenOf d = L).length ≤ N) {T : Tally}
    (hT : T ∈ (runOut keyStep T? ds).filterMap Answer.completed) (hlen : T.chunkLen = L) :
    StepsMeet keyStep (FindsOwnLength L) T? ds := by
  induction ds generalizing T? c with
  | nil => trivial
  | cons d ds ih =>
    rw [runOut_cons, List.mem_filterMap] at hT
    obtain ⟨a, ha, hc⟩ := hT
    by_cases hd : chunkLenOf d = L
    · obtain ⟨hnext, hlast⟩ := h.own hd (hfan d List.mem_cons_self hd)
      rw [List.filter_cons_of_pos (by simpa using hd), List.length_cons] at hle
      by_cases hfinds : ∀ T, T? = some T → T.chunkLen = L
      · refine ⟨fun _ => hfinds, ?_⟩
        rcases List.mem_cons.mp ha with rfl | ha
        · -- it was the last of the round
          have hN := hlast T hc
          have hnil : ds.filter (fun d => chunkLenOf d = L) = [] :=
            List.eq_nil_of_length_eq_zero (by omega)
          refine stepsMeet_iff.mpr fun U d' hd' hown => ?_
          have hmem : d' ∈ ds.filter fun d => chunkLenOf d = L :=
            List.mem_filter.mpr ⟨List.mem_of_getElem? hd', by simpa using hown⟩
          rw [hnil] at hmem
          cases hmem
        · exact ih hnext hfan.tail (by omega) (List.mem_filterMap.mpr ⟨a, ha, hc⟩)
      · -- it is lost, and one too few are left
        push Not at hfinds
        obtain ⟨T', rfl, hne⟩ := hfinds
        rw [keyStep_of_mismatch (by rw [hd]; exact hne)] at ha
        rcases List.mem_cons.mp ha with rfl | ha
        · cases hc
        · exact absurd hlen (not_completed_of_lt (c := c) h hfan.tail (by omega) T
            (List.mem_filterMap.mpr ⟨a, ha, hc⟩))
    · rw [List.filter_cons_of_neg (by simpa using hd)] at hle
      refine ⟨fun hown => absurd hown hd, ?_⟩
      rcases List.mem_cons.mp ha with rfl | ha
      · exact absurd ((chunkLen_completed hc).symm.trans hlen) hd
      · exact ih (h.other hd) hfan.tail hle (List.mem_filterMap.mpr ⟨a, ha, hc⟩)

/-- **A round among others** is completed exactly when none of its datagrams finds the key live
with another length, and then once, with the contributions of all workers. -/
theorem completed_iff_findsOwnLength {f : ℕ → Bytes} {ds : List Bytes} {ws : List ℕ}
    (hN : 1 ≤ N) (hf : ∀ w ∈ ws, SendsOne N L f w)
    (hds : ds.filter (fun d => chunkLenOf d = L) = ws.map f) (hperm : ws.Perm (List.range N)) :
    ((∃ T ∈ (runOut keyStep none ds).filterMap Answer.completed, T.chunkLen = L)
        ↔ StepsMeet keyStep (FindsOwnLength L) none ds)
      ∧ (StepsMeet keyStep (FindsOwnLength L) none ds →
        ∃ T ∈ (runOut keyStep none ds).filterMap Answer.completed,
          T.Of N L (values f) (Finset.range N)) := by
  -- alone, the round is completed once
  have hround : ∃ T, T.Of N L (values f) (Finset.range N)
      ∧ (runOut keyStep none (ws.map f)).filterMap Answer.completed = [T] := by
    have hnodup : ws.Nodup := hperm.nodup_iff.mpr List.nodup_range
    have hne : ws ≠ [] := by
      rintro rfl
      have := hperm.length_eq
      simp only [List.length_nil, List.length_range] at this
      omega
    have hset : ws.toFinset = Finset.range N := by
      ext w
      rw [List.mem_toFinset, hperm.mem_iff, List.mem_range, Finset.mem_range]
    obtain ⟨T, hT, heq⟩ := (phase_run hf).of_nodup hnodup hne fun w hw => (hf w hw).worker_lt
    rw [hset] at hT
    rw [if_neg (by rw [hT.count_eq, Finset.card_range]; exact lt_irrefl N)] at heq
    exact ⟨T, hT, congrArg Prod.snd heq⟩
  have hsome : StepsMeet keyStep (FindsOwnLength L) none ds →
      ∃ T ∈ (runOut keyStep none ds).filterMap Answer.completed,
        T.Of N L (values f) (Finset.range N) := by
    intro hmeet
    obtain ⟨T, hT, hout⟩ := hround
    have hrun := completed_of_findsOwnLength (follows_none L) hmeet
    rw [hds, hout] at hrun
    have hmem : T ∈ ((runOut keyStep none ds).filterMap Answer.completed).filter
        fun T => T.chunkLen = L := by rw [hrun]; exact List.mem_singleton_self T
    exact ⟨T, (List.mem_filter.mp hmem).1, hT⟩
  refine ⟨⟨fun ⟨T, hT, hlen⟩ => ?_, fun hmeet => ?_⟩, hsome⟩
  · refine findsOwnLength_of_completed (N := N) (c := 0) (fun T h => by cases h)
      (fun d hd hown => ?_) ?_ hT hlen
    · have hmem : d ∈ ws.map f := hds ▸ List.mem_filter.mpr ⟨hd, by simpa using hown⟩
      obtain ⟨w, hw, rfl⟩ := List.mem_map.mp hmem
      exact (hf w hw).numWorkers_eq
    · rw [hds, List.length_map, hperm.length_eq, List.length_range, Nat.zero_add]
  · obtain ⟨T, hT, hof⟩ := hsome hmeet
    exact ⟨T, hT, hof.chunkLen_eq⟩

end

end NetSum.Aggregation
