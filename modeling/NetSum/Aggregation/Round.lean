import Mathlib.Algebra.BigOperators.Group.Finset.Basic
import Mathlib.Data.Fintype.Card
import NetSum.Protocol.GradProto

/-!
# What an aggregator is for

The abstract side of all three slot tables (userspace aggregator, XDP program, parameter
server). A `Round` is the purpose: the list of contributions absorbed so far for one key, at
most one from each worker, with the fan-in and chunk length it was opened with. A `Tally` is
what a program can afford to keep of it: a count, the set of workers seen and the running
sums. `Round.tally` forgets the list, and absorbing a contribution commutes with forgetting
(`tally_absorb`), which is the only fact about sums the programs' proofs need.
-/

namespace NetSum.Aggregation

open NetSum.Lib NetSum.Protocol

/-- One worker's contribution: its id, and its values padded with zeros. -/
structure Contribution where
  worker : Fin maxTrackedWorkers
  values : Fin netsumMaxChunkLen → BitVec 32

/-- The contribution a datagram carries. -/
def Contribution.ofDatagram (d : Bytes) : Contribution where
  worker := Fin.ofNat maxTrackedWorkers (GradHdr.decode d).workerId.toNat
  values i := if i.val < (GradHdr.decode d).chunkLen.toNat then valueAt d i else 0

theorem Contribution.worker_ofDatagram {d : Bytes} (h : WellFormed d) :
    ((Contribution.ofDatagram d).worker : ℕ) = (GradHdr.decode d).workerId.toNat :=
  Nat.mod_eq_of_lt h.workerId_lt

/-! ## Tallies -/

/-- What a slot keeps of a round. -/
@[ext]
structure Tally where
  fanIn : ℕ
  chunkLen : ℕ
  count : ℕ
  seen : Fin maxTrackedWorkers → Bool
  sum : Fin netsumMaxChunkLen → BitVec 32

namespace Tally

/-- The tally of a round nobody has contributed to. -/
def opened (fanIn chunkLen : ℕ) : Tally where
  fanIn := fanIn
  chunkLen := chunkLen
  count := 0
  seen _ := false
  sum _ := 0

/-- Count a contribution in. -/
def absorb (T : Tally) (c : Contribution) : Tally where
  fanIn := T.fanIn
  chunkLen := T.chunkLen
  count := T.count + 1
  seen := Function.update T.seen c.worker true
  sum i := T.sum i + c.values i

/-- A started tally of fan-in `N` and chunk length `L` that has only seen the workers `ws`. -/
structure Within (N L : ℕ) (ws : List ℕ) (T : Tally) : Prop where
  fanIn_eq : T.fanIn = N
  chunkLen_eq : T.chunkLen = L
  seen : ∀ w, T.seen w = true → (w : ℕ) ∈ ws
  count_pos : 1 ≤ T.count

theorem Within.append {N L : ℕ} {ws : List ℕ} {T : Tally} (h : Within N L ws T)
    (ws' : List ℕ) : Within N L (ws ++ ws') T :=
  ⟨h.fanIn_eq, h.chunkLen_eq, fun w hw => List.mem_append_left _ (h.seen w hw), h.count_pos⟩

theorem seen_absorb {T : Tally} {c : Contribution} {w : Fin maxTrackedWorkers} :
    (T.absorb c).seen w = true ↔ w = c.worker ∨ T.seen w = true := by
  by_cases h : w = c.worker
  · subst h
    simp [absorb]
  · simp [absorb, h]

theorem Within.absorb {N L : ℕ} {ws : List ℕ} {T : Tally} (h : Within N L ws T)
    (c : Contribution) : Within N L (ws ++ [(c.worker : ℕ)]) (T.absorb c) := by
  refine ⟨h.fanIn_eq, h.chunkLen_eq, fun w hw => ?_, Nat.le_add_left _ _⟩
  rcases seen_absorb.mp hw with rfl | hw
  · exact List.mem_append_right _ (List.mem_singleton_self _)
  · exact List.mem_append_left _ (h.seen w hw)

theorem within_opened_absorb (N L : ℕ) (ws : List ℕ) (c : Contribution) :
    Within N L (ws ++ [(c.worker : ℕ)]) ((opened N L).absorb c) := by
  refine ⟨rfl, rfl, fun w hw => ?_, le_rfl⟩
  rcases seen_absorb.mp hw with rfl | hw
  · exact List.mem_append_right _ (List.mem_singleton_self _)
  · cases hw

/-- The tally of the contributions of the workers in `A`, when worker `w` contributes `c w`. -/
structure Of (N L : ℕ) (c : ℕ → Fin netsumMaxChunkLen → BitVec 32) (A : Finset ℕ) (T : Tally) :
    Prop where
  fanIn_eq : T.fanIn = N
  chunkLen_eq : T.chunkLen = L
  count_eq : T.count = A.card
  seen_iff : ∀ w, T.seen w = true ↔ (w : ℕ) ∈ A
  sum_eq : ∀ i, T.sum i = ∑ w ∈ A, c w i

theorem of_opened (N L : ℕ) (c : ℕ → Fin netsumMaxChunkLen → BitVec 32) :
    (opened N L).Of N L c ∅ :=
  ⟨rfl, rfl, rfl, fun w => by simp [opened], fun i => by simp [opened]⟩

theorem Of.absorb {N L : ℕ} {c : ℕ → Fin netsumMaxChunkLen → BitVec 32} {A : Finset ℕ} {T : Tally}
    (h : T.Of N L c A) {x : Contribution} (hx : x.values = c x.worker) (hnew : (x.worker : ℕ) ∉ A) :
    (T.absorb x).Of N L c (insert (x.worker : ℕ) A) := by
  refine ⟨h.fanIn_eq, h.chunkLen_eq, ?_, fun w => ?_, fun i => ?_⟩
  · rw [Finset.card_insert_of_notMem hnew, ← h.count_eq]
    rfl
  · rw [seen_absorb, Finset.mem_insert, h.seen_iff, Fin.ext_iff]
  · rw [Finset.sum_insert hnew, ← hx, ← h.sum_eq, BitVec.add_comm]
    rfl

/-- What was contributed determines the tally. -/
theorem Of.unique {N L : ℕ} {c : ℕ → Fin netsumMaxChunkLen → BitVec 32} {A : Finset ℕ}
    {T T' : Tally} (h : T.Of N L c A) (h' : T'.Of N L c A) : T = T' := by
  refine Tally.ext (h.fanIn_eq.trans h'.fanIn_eq.symm) (h.chunkLen_eq.trans h'.chunkLen_eq.symm)
    (h.count_eq.trans h'.count_eq.symm) (funext fun w => ?_) (funext fun i => ?_)
  · rw [Bool.eq_iff_iff, h.seen_iff, h'.seen_iff]
  · rw [h.sum_eq, h'.sum_eq]

end Tally

/-! ## Rounds -/

/-- What is told apart by `f` still is with one more at the end. -/
theorem nodup_map_append_singleton {α β : Type*} {f : α → β} {l : List α} {a : α}
    (h : (l.map f).Nodup) (hnew : f a ∉ l.map f) : ((l ++ [a]).map f).Nodup := by
  rw [List.map_append, List.map_singleton, ← List.concat_eq_append]
  exact h.concat hnew

/-- A round in progress. No worker is in it twice. -/
@[ext]
structure Round where
  fanIn : ℕ
  chunkLen : ℕ
  absorbed : List Contribution
  nodup : (absorbed.map Contribution.worker).Nodup

namespace Round

/-- A round nobody has contributed to. -/
def opened (fanIn chunkLen : ℕ) : Round := ⟨fanIn, chunkLen, [], List.nodup_nil⟩

/-- The worker has contributed. -/
def Has (r : Round) (w : Fin maxTrackedWorkers) : Prop := w ∈ r.absorbed.map Contribution.worker

instance (r : Round) (w : Fin maxTrackedWorkers) : Decidable (r.Has w) :=
  inferInstanceAs (Decidable (_ ∈ _))

/-- The round with one contribution more, from a worker it does not have. -/
def absorb (r : Round) (c : Contribution) (h : ¬ r.Has c.worker) : Round where
  fanIn := r.fanIn
  chunkLen := r.chunkLen
  absorbed := r.absorbed ++ [c]
  nodup := nodup_map_append_singleton r.nodup h

/-- The sum of what was contributed at position `i`. -/
def sum (r : Round) (i : Fin netsumMaxChunkLen) : BitVec 32 :=
  (r.absorbed.map fun c => c.values i).sum

/-- What a slot keeps of the round. -/
def tally (r : Round) : Tally where
  fanIn := r.fanIn
  chunkLen := r.chunkLen
  count := r.absorbed.length
  seen w := decide (r.Has w)
  sum := r.sum

@[simp] theorem chunkLen_tally (r : Round) : r.tally.chunkLen = r.chunkLen := rfl

theorem seen_tally {r : Round} {w : Fin maxTrackedWorkers} :
    r.tally.seen w = true ↔ r.Has w := decide_eq_true_iff

/-- There are at most as many contributions as workers. -/
theorem length_le (r : Round) : r.absorbed.length ≤ maxTrackedWorkers := by
  have h := r.nodup.length_le_card
  simpa using h

theorem has_absorb (r : Round) (c : Contribution) (h : ¬ r.Has c.worker)
    (w : Fin maxTrackedWorkers) : (r.absorb c h).Has w ↔ r.Has w ∨ w = c.worker := by
  simp [Has, absorb]

/-- A round with a worker missing is not full of workers. -/
theorem length_lt (r : Round) {w : Fin maxTrackedWorkers} (h : ¬ r.Has w) :
    r.absorbed.length < maxTrackedWorkers := by
  have := (r.absorb ⟨w, fun _ => 0⟩ h).length_le
  simp only [absorb, List.length_append, List.length_cons, List.length_nil] at this
  omega

@[simp] theorem tally_opened (fanIn chunkLen : ℕ) :
    (opened fanIn chunkLen).tally = Tally.opened fanIn chunkLen := rfl

@[simp] theorem not_has_opened (fanIn chunkLen : ℕ) (w : Fin maxTrackedWorkers) :
    ¬ (opened fanIn chunkLen).Has w := by simp [Has, opened]

/-- Absorbing commutes with forgetting the list. -/
theorem tally_absorb (r : Round) (c : Contribution) (h : ¬ r.Has c.worker) :
    (r.absorb c h).tally = r.tally.absorb c := by
  ext w
  · rfl
  · rfl
  · simp [tally, absorb, Tally.absorb]
  · by_cases hw : w = c.worker
    · subst hw
      simp [tally, Tally.absorb, has_absorb]
    · simp [tally, Tally.absorb, has_absorb, hw]
  · simp [tally, absorb, Tally.absorb, Round.sum]

end Round

end NetSum.Aggregation
