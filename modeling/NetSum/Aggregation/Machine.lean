import NetSum.Aggregation.Round

/-!
# One key's machine

What an aggregator does with a datagram of one key, whatever table it keeps its slots in: the
key is not live (`none`) or live with a tally, the datagram is answered, and the key is live
with another tally or no longer. `respond` is that function. Both aggregators compute it, and
what they do with a key depends on nothing else.

The same machine over rounds, `respondRound`, keeps the contributions themselves; the tally of
its round is what `respond` keeps (`respond_tally`).
-/

namespace NetSum.Aggregation

open NetSum.Lib NetSum.Protocol

/-! ## Over tallies -/

/-- What a packet says: its key, its chunk length and its values. -/
def contents (p : Bytes) : GradSlotKey × ℕ × List (BitVec 32) :=
  ((GradHdr.decode p).key, (GradHdr.decode p).chunkLen.toNat,
    (List.range (GradHdr.decode p).chunkLen.toNat).map (valueAt p))

/-- What a packet says that reports a tally. -/
def Tally.contents (T : Tally) (k : GradSlotKey) : GradSlotKey × ℕ × List (BitVec 32) :=
  (k, T.chunkLen, (List.range T.chunkLen).map fun i => T.sum (Fin.ofNat _ i))

/-- A packet reports a tally if it has its key, its chunk length and its sums. -/
theorem contents_eq {p : Bytes} {k : GradSlotKey} {T : Tally} (hkey : (GradHdr.decode p).key = k)
    (hlen : (GradHdr.decode p).chunkLen.toNat = T.chunkLen) (hle : T.chunkLen ≤ netsumMaxChunkLen)
    (hvalue : ∀ i : Fin netsumMaxChunkLen, (i : ℕ) < T.chunkLen → valueAt p i = T.sum i) :
    contents p = T.contents k := by
  rw [contents, Tally.contents, hkey, hlen]
  refine congrArg _ (congrArg _ (List.map_congr_left fun i hi => ?_))
  have hi' := List.mem_range.mp hi
  have hval : ((Fin.ofNat netsumMaxChunkLen i : Fin netsumMaxChunkLen) : ℕ) = i :=
    Nat.mod_eq_of_lt (hi'.trans_le hle)
  rw [← hvalue _ (by rwa [hval]), hval]

/-- How a datagram is answered; a completed key is answered with its final tally. -/
inductive Answer (α : Type) where
  | refused
  | mismatch
  | duplicate
  | absorbed
  | complete (final : α)

/-- The same answer about something else. -/
def Answer.map {α β : Type} (f : α → β) : Answer α → Answer β
  | refused => .refused
  | mismatch => .mismatch
  | duplicate => .duplicate
  | absorbed => .absorbed
  | complete final => .complete (f final)

/-- The key stays live until its fan-in is reached. -/
def settle (T : Tally) : Answer Tally × Option Tally :=
  if T.count < T.fanIn then (.absorbed, some T) else (.complete T, none)

/-- The answer to a datagram of the key, which may open it if `mayOpen`. -/
def respond (mayOpen : Bool) (d : Bytes) : Option Tally → Answer Tally × Option Tally
  | none =>
    if mayOpen then
      settle ((Tally.opened (GradHdr.decode d).numWorkers.toNat
        (GradHdr.decode d).chunkLen.toNat).absorb (Contribution.ofDatagram d))
    else (.refused, none)
  | some T =>
    if T.chunkLen ≠ (GradHdr.decode d).chunkLen.toNat then (.mismatch, some T)
    else if T.seen (Contribution.ofDatagram d).worker then (.duplicate, some T)
    else settle (T.absorb (Contribution.ofDatagram d))

section

variable {mayOpen : Bool} {d : Bytes} {T : Tally}

theorem respond_of_mismatch (hlen : T.chunkLen ≠ (GradHdr.decode d).chunkLen.toNat) :
    respond mayOpen d (some T) = (.mismatch, some T) := if_pos hlen

theorem respond_of_seen (hlen : T.chunkLen = (GradHdr.decode d).chunkLen.toNat)
    (hseen : T.seen (Contribution.ofDatagram d).worker = true) :
    respond mayOpen d (some T) = (.duplicate, some T) :=
  (if_neg (not_not_intro hlen)).trans (if_pos hseen)

theorem respond_of_new (hlen : T.chunkLen = (GradHdr.decode d).chunkLen.toNat)
    (hseen : T.seen (Contribution.ofDatagram d).worker = false) :
    respond mayOpen d (some T) = settle (T.absorb (Contribution.ofDatagram d)) :=
  (if_neg (not_not_intro hlen)).trans (if_neg (ne_true_of_eq_false hseen))

theorem respond_of_open :
    respond true d none = settle ((Tally.opened (GradHdr.decode d).numWorkers.toNat
      (GradHdr.decode d).chunkLen.toNat).absorb (Contribution.ofDatagram d)) := rfl

theorem settle_of_lt (h : T.count < T.fanIn) : settle T = (.absorbed, some T) := if_pos h

theorem settle_of_le (h : T.fanIn ≤ T.count) : settle T = (.complete T, none) :=
  if_neg (not_lt.mpr h)

theorem live_of_settle {T' : Tally} (h : (settle T).2 = some T') :
    T' = T ∧ T.count < T.fanIn := by
  by_cases hlt : T.count < T.fanIn
  · rw [settle_of_lt hlt] at h
    exact ⟨(Option.some.inj h).symm, hlt⟩
  · rw [settle_of_le (not_lt.mp hlt)] at h
    cases h

theorem complete_of_settle {T' : Tally} (h : (settle T).1 = .complete T') :
    T' = T ∧ T.fanIn ≤ T.count := by
  by_cases hlt : T.count < T.fanIn
  · rw [settle_of_lt hlt] at h
    cases h
  · rw [settle_of_le (not_lt.mp hlt)] at h
    cases h
    exact ⟨rfl, not_lt.mp hlt⟩

/-- What is live after a datagram: what was, a round that it has opened, or the round with its
contribution. -/
theorem live_cases {T? : Option Tally} (h : (respond mayOpen d T?).2 = some T) :
    T? = some T
    ∨ (T? = none ∧ mayOpen = true ∧ T.count < T.fanIn
      ∧ T = (Tally.opened (GradHdr.decode d).numWorkers.toNat
        (GradHdr.decode d).chunkLen.toNat).absorb (Contribution.ofDatagram d))
    ∨ ∃ T', T? = some T' ∧ T'.chunkLen = (GradHdr.decode d).chunkLen.toNat
      ∧ T'.seen (Contribution.ofDatagram d).worker = false ∧ T.count < T.fanIn
      ∧ T = T'.absorb (Contribution.ofDatagram d) := by
  cases T? with
  | none =>
    cases mayOpen with
    | false => cases h
    | true =>
      obtain ⟨rfl, hlt⟩ := live_of_settle h
      exact .inr (.inl ⟨rfl, rfl, hlt, rfl⟩)
  | some T' =>
    by_cases hlen : T'.chunkLen = (GradHdr.decode d).chunkLen.toNat
    · cases hseen : T'.seen (Contribution.ofDatagram d).worker with
      | true =>
        rw [respond_of_seen hlen hseen] at h
        exact .inl h
      | false =>
        rw [respond_of_new hlen hseen] at h
        obtain ⟨rfl, hlt⟩ := live_of_settle h
        exact .inr (.inr ⟨T', rfl, hlen, hseen, hlt, rfl⟩)
    · rw [respond_of_mismatch hlen] at h
      exact .inl h

/-- What a datagram completes: a round that it has opened, or one with its contribution. -/
theorem complete_cases {T? : Option Tally} (h : (respond mayOpen d T?).1 = .complete T) :
    T.fanIn ≤ T.count
    ∧ ((T? = none ∧ T = (Tally.opened (GradHdr.decode d).numWorkers.toNat
        (GradHdr.decode d).chunkLen.toNat).absorb (Contribution.ofDatagram d))
      ∨ ∃ T', T? = some T' ∧ T'.chunkLen = (GradHdr.decode d).chunkLen.toNat
        ∧ T = T'.absorb (Contribution.ofDatagram d)) := by
  cases T? with
  | none =>
    cases mayOpen with
    | false => cases h
    | true =>
      obtain ⟨rfl, hle⟩ := complete_of_settle h
      exact ⟨hle, .inl ⟨rfl, rfl⟩⟩
  | some T' =>
    by_cases hlen : T'.chunkLen = (GradHdr.decode d).chunkLen.toNat
    · cases hseen : T'.seen (Contribution.ofDatagram d).worker with
      | true =>
        rw [respond_of_seen hlen hseen] at h
        cases h
      | false =>
        rw [respond_of_new hlen hseen] at h
        obtain ⟨rfl, hle⟩ := complete_of_settle h
        exact ⟨hle, .inr ⟨T', rfl, hlen, rfl⟩⟩
    · rw [respond_of_mismatch hlen] at h
      cases h

end

/-- Whether a key is live, as a number. -/
def liveCount (T? : Option Tally) : ℕ := if T?.isSome then 1 else 0

@[simp] theorem liveCount_none : liveCount none = 0 := rfl
@[simp] theorem liveCount_some (T : Tally) : liveCount (some T) = 1 := rfl

/-- A tally that a table keeps waits for contributions, and for no more than there are workers. -/
structure Tally.Open (T : Tally) : Prop where
  count_lt : T.count < T.fanIn
  fanIn_le : T.fanIn ≤ maxTrackedWorkers

/-- What stays live waits for contributions. -/
theorem Tally.Open.respond {mayOpen : Bool} {d : Bytes} {T? : Option Tally}
    (hT : ∀ T, T? = some T → T.Open)
    (hfan : mayOpen = true → (GradHdr.decode d).numWorkers.toNat ≤ maxTrackedWorkers) {T : Tally}
    (h : (Aggregation.respond mayOpen d T?).2 = some T) : T.Open := by
  rcases live_cases h with rfl | ⟨rfl, hadm, hlt, rfl⟩ | ⟨T', rfl, -, -, hlt, rfl⟩
  · exact hT T rfl
  · exact ⟨hlt, hfan hadm⟩
  · exact ⟨hlt, (hT T' rfl).fanIn_le⟩

/-- A key becomes live only if it may be opened. -/
theorem mayOpen_of_respond {mayOpen : Bool} {d : Bytes} {T : Tally}
    (h : (respond mayOpen d none).2 = some T) : mayOpen = true := by
  rw [respond] at h
  split at h
  · next hopen => exact hopen
  · cases h

/-- A key that was opened is answered as a live key nobody has contributed to. -/
theorem respond_none (mayOpen : Bool) (d : Bytes) :
    respond true d none = respond mayOpen d
      (some (.opened (GradHdr.decode d).numWorkers.toNat (GradHdr.decode d).chunkLen.toNat)) := by
  simp [respond, Tally.opened]

/-- A key is completed with the chunk length of the datagram that completed it. -/
theorem chunkLen_of_complete {mayOpen : Bool} {d : Bytes} {T? : Option Tally} {T : Tally}
    (h : (respond mayOpen d T?).1 = .complete T) :
    T.chunkLen = (GradHdr.decode d).chunkLen.toNat := by
  rcases (complete_cases h).2 with ⟨-, rfl⟩ | ⟨T', -, hlen, rfl⟩
  · rfl
  · exact hlen

/-! ## Over rounds -/

namespace Round

/-- The round stays open until its fan-in is reached. -/
def settle (r : Round) : Answer Round × Option Round :=
  if r.absorbed.length < r.fanIn then (.absorbed, some r) else (.complete r, none)

/-- The answer to a datagram of the key, which may open a round if `mayOpen`. -/
def respond (mayOpen : Bool) (d : Bytes) : Option Round → Answer Round × Option Round
  | none =>
    if mayOpen then
      settle ((opened (GradHdr.decode d).numWorkers.toNat
        (GradHdr.decode d).chunkLen.toNat).absorb (Contribution.ofDatagram d)
        (not_has_opened _ _ _))
    else (.refused, none)
  | some r =>
    if r.chunkLen ≠ (GradHdr.decode d).chunkLen.toNat then (.mismatch, some r)
    else if h : r.Has (Contribution.ofDatagram d).worker then (.duplicate, some r)
    else settle (r.absorb (Contribution.ofDatagram d) h)

theorem settle_tally (r : Round) :
    Aggregation.settle r.tally = (r.settle.1.map tally, r.settle.2.map tally) := by
  unfold Aggregation.settle settle
  by_cases h : r.absorbed.length < r.fanIn
  · rw [if_pos (show r.tally.count < r.tally.fanIn from h), if_pos h]
    rfl
  · rw [if_neg (show ¬ r.tally.count < r.tally.fanIn from h), if_neg h]
    rfl

/-- **The tally is all a table needs to keep of a round.** -/
theorem respond_tally (mayOpen : Bool) (d : Bytes) (r? : Option Round) :
    Aggregation.respond mayOpen d (r?.map tally)
      = ((respond mayOpen d r?).1.map tally, (respond mayOpen d r?).2.map tally) := by
  cases r? with
  | none =>
    cases mayOpen with
    | false => rfl
    | true =>
      simp only [Option.map_none, Aggregation.respond, respond, if_true]
      rw [← settle_tally, tally_absorb, tally_opened]
  | some r =>
    simp only [Option.map_some, Aggregation.respond, respond]
    by_cases hlen : r.chunkLen = (GradHdr.decode d).chunkLen.toNat
    · rw [chunkLen_tally, if_neg (not_not_intro hlen), if_neg (not_not_intro hlen)]
      by_cases hhas : r.Has (Contribution.ofDatagram d).worker
      · rw [dif_pos hhas, if_pos (seen_tally.mpr hhas)]
        rfl
      · rw [dif_neg hhas, if_neg (mt seen_tally.mp hhas), ← settle_tally, tally_absorb]
    · rw [chunkLen_tally, if_pos hlen, if_pos hlen]
      rfl

end Round

end NetSum.Aggregation
