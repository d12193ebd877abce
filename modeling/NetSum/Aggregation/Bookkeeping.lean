import NetSum.Aggregation.Machine

/-!
# The books of a slot

What a slot in use keeps about its round is consistent: the counter is the number of workers
marked as seen, nothing is summed beyond the chunk length (`Tally.Balanced`), and the round is in
progress (`Tally.InProgress`). Counting a new worker's contribution in keeps the books balanced,
and so does every answer of a key's machine (`InProgress.respond`).
-/

namespace NetSum.Aggregation

open NetSum.Lib NetSum.Protocol

/-- The counter is the number of workers seen, and nothing is summed beyond the chunk length. -/
structure Tally.Balanced (T : Tally) : Prop where
  count_eq : T.count = (Finset.univ.filter fun w => T.seen w = true).card
  sum_zero : ∀ j : Fin netsumMaxChunkLen, T.chunkLen ≤ j → T.sum j = 0
  chunkLen_le : T.chunkLen ≤ netsumMaxChunkLen

/-- A balanced tally with a contribution in and one missing. -/
structure Tally.InProgress (T : Tally) : Prop extends T.Balanced, T.Open where
  count_pos : 1 ≤ T.count

namespace Tally

variable {T : Tally} {N L : ℕ} {c : Contribution} {d : Bytes}

theorem balanced_opened (N : ℕ) (hL : L ≤ netsumMaxChunkLen) : (opened N L).Balanced where
  count_eq := by simp [opened]
  sum_zero _ _ := rfl
  chunkLen_le := hL

/-- A contribution of a new worker, with no values beyond the chunk length. -/
theorem Balanced.absorb (h : T.Balanced) (hnew : T.seen c.worker = false)
    (hzero : ∀ j : Fin netsumMaxChunkLen, T.chunkLen ≤ j → c.values j = 0) :
    (T.absorb c).Balanced where
  count_eq := by
    have hinsert : (Finset.univ.filter fun w => (T.absorb c).seen w = true)
        = insert c.worker (Finset.univ.filter fun w => T.seen w = true) := by
      ext w
      simp only [Finset.mem_filter, Finset.mem_univ, true_and, Finset.mem_insert, seen_absorb]
    have hnot : c.worker ∉ Finset.univ.filter fun w => T.seen w = true := by
      simp [hnew]
    rw [hinsert, Finset.card_insert_of_notMem hnot, ← h.count_eq]
    rfl
  sum_zero j hj := by
    show T.sum j + c.values j = 0
    rw [h.sum_zero j hj, hzero j hj]
    rfl
  chunkLen_le := h.chunkLen_le

/-- A datagram contributes nothing beyond its chunk length. -/
theorem values_ofDatagram_eq_zero {j : Fin netsumMaxChunkLen}
    (hj : (GradHdr.decode d).chunkLen.toNat ≤ j) : (Contribution.ofDatagram d).values j = 0 :=
  if_neg (not_lt.mpr hj)

/-- A datagram of the tally's chunk length from a new worker. -/
theorem Balanced.absorb_datagram (h : T.Balanced)
    (hlen : T.chunkLen = (GradHdr.decode d).chunkLen.toNat)
    (hnew : T.seen (Contribution.ofDatagram d).worker = false) :
    (T.absorb (Contribution.ofDatagram d)).Balanced :=
  h.absorb hnew fun _ hj => values_ofDatagram_eq_zero (hlen ▸ hj)

/-- The datagram that opens a round. -/
theorem balanced_opened_absorb (hlen : (GradHdr.decode d).chunkLen.toNat ≤ netsumMaxChunkLen) :
    ((opened (GradHdr.decode d).numWorkers.toNat (GradHdr.decode d).chunkLen.toNat).absorb
      (Contribution.ofDatagram d)).Balanced :=
  (balanced_opened _ hlen).absorb_datagram rfl rfl

/-- **What stays live is in progress.** -/
theorem InProgress.respond {mayOpen : Bool} {T? : Option Tally}
    (hT : ∀ T, T? = some T → T.InProgress)
    (hlen : (GradHdr.decode d).chunkLen.toNat ≤ netsumMaxChunkLen)
    (hfan : mayOpen = true → (GradHdr.decode d).numWorkers.toNat ≤ maxTrackedWorkers)
    (h : (Aggregation.respond mayOpen d T?).2 = some T) : T.InProgress := by
  have hopen : T.Open := Open.respond (fun T' hT' => (hT T' hT').toOpen) hfan h
  rcases live_cases h with rfl | ⟨-, -, -, rfl⟩ | ⟨T', rfl, hchunk, hseen, -, rfl⟩
  · exact hT T rfl
  · exact
      { toBalanced := balanced_opened_absorb hlen
        toOpen := hopen
        count_pos := Nat.le_add_left _ _ }
  · exact
      { toBalanced := (hT T' rfl).absorb_datagram hchunk hseen
        toOpen := hopen
        count_pos := Nat.le_add_left _ _ }

end Tally

end NetSum.Aggregation
