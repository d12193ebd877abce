import NetSum.Protocol.FixedPoint
import NetSum.UserspaceAgg.EmissionTheorems

/-!
# No overflow and bounded error

The accumulators are 32-bit registers that hold sums of quantized values. When a deployment
passes `netsum_sum_fits_i32`, every sum that `slot->sum[i]` goes through is the exact one, in
whatever order the contributions arrive, and what it stands for is off by less than one unit in
the last place for each worker (`quantized_sums_exact`). So in every run under such a deployment,
in every slot and in every packet sent (`slot_sums_exact`, `sent_sums_exact`).
-/

namespace NetSum.UserspaceAgg

open NetSum.Lib NetSum.Protocol NetSum.Aggregation

/-! ## Contributions one after the other -/

/-- Datagrams counted into a slot one after the other, each with the time it is counted at. -/
def Slot.accumulateAll (s : Slot) (ds : List (Bytes × ℤ)) : Slot :=
  ds.foldl (fun s d => s.accumulate (GradHdr.decode d.1) (valueAt d.1) d.2) s

/-- Value `i` of each datagram is the quantized value of the list at its place. -/
def Quantized (i : ℕ) (ds : List (Bytes × ℤ)) (vs : List ℚ) : Prop :=
  List.Forall₂ (fun d v => i < (GradHdr.decode d.1).chunkLen.toNat
    ∧ netsumToFixed v = some (valueAt d.1 i)) ds vs

theorem Quantized.take {i : ℕ} {ds : List (Bytes × ℤ)} {vs : List ℚ} (h : Quantized i ds vs)
    (k : ℕ) : Quantized i (ds.take k) (vs.take k) := List.forall₂_take k h

theorem Quantized.toInt_eq {i : ℕ} {ds : List (Bytes × ℤ)} {vs : List ℚ} (h : Quantized i ds vs) :
    (ds.map fun d => valueAt d.1 i).map BitVec.toInt = vs.map fixed := by
  induction h with
  | nil => rfl
  | cons hd _ ih =>
    rw [List.map_cons, List.map_cons, List.map_cons, ih, toInt_of_netsumToFixed hd.2]

/-- The accumulator is a register that adds the values up. -/
theorem sum_accumulateAll (s : Slot) {i : Fin netsumMaxChunkLen} {ds : List (Bytes × ℤ)}
    {vs : List ℚ} (h : Quantized i ds vs) :
    (s.accumulateAll ds).sum i = s.sum i + (ds.map fun d => valueAt d.1 i).sum := by
  induction h generalizing s with
  | nil => exact (add_zero _).symm
  | @cons d v ds vs hd _ ih =>
    have hstep : (s.accumulate (GradHdr.decode d.1) (valueAt d.1) d.2).sum i
        = s.sum i + valueAt d.1 i := by
      show Slot.sumLoop s.sum _ _ i = _
      rw [sumLoop_apply, if_pos hd.1]
    have hrest := ih (s.accumulate (GradHdr.decode d.1) (valueAt d.1) d.2)
    rw [hstep] at hrest
    rw [List.map_cons, List.sum_cons, ← add_assoc]
    exact hrest

/-- **No overflow and bounded error.** For a deployment that passes the check: every value of at
most `n` can be quantized; in every order, every partial sum is an `int32_t` and is what the
accumulator of a new slot holds; and at the end it stands for the exact sum, up to less than
`n / 2 ^ 16`. -/
theorem quantized_sums_exact {n : ℤ} {maxAbs : ℚ} (hn : 1 ≤ n)
    (hfits : netsumSumFitsI32 n maxAbs = true) {vs : List ℚ} (hlen : (vs.length : ℤ) ≤ n)
    (habs : ∀ v ∈ vs, |v| ≤ maxAbs) :
    (∀ v ∈ vs, IsInt32 (fixed v) ∧ netsumToFixed v = some (BitVec.ofInt 32 (fixed v)))
    ∧ ∀ ws : List ℚ, ws.Perm vs →
      (∀ k, IsInt32 ((ws.take k).map fixed).sum)
      ∧ ∀ (s : Slot) (i : Fin netsumMaxChunkLen) (ds : List (Bytes × ℤ)), s.sum i = 0 →
        Quantized i ds ws →
        (∀ k, ((s.accumulateAll (ds.take k)).sum i).toInt = ((ws.take k).map fixed).sum)
        ∧ |netsumToDouble ((s.accumulateAll ds).sum i) - vs.sum| < n / 2 ^ netsumQFracBits := by
  have hdeployed : Deployed n maxAbs vs := ⟨hn, hfits, hlen, habs⟩
  refine ⟨fun v hv => hdeployed.netsumToFixed_eq hv, fun ws hws => ?_⟩
  have hpart : ∀ k, Deployed n maxAbs (ws.take k) := fun k =>
    hdeployed.subperm ((List.take_sublist k ws).subperm.trans hws.subperm)
  refine ⟨fun k => (hpart k).isInt32_sum, fun s i ds hzero hquant => ?_⟩
  -- what the accumulator holds after `k` contributions
  have hsum : ∀ k, ((s.accumulateAll (ds.take k)).sum i).toInt = ((ws.take k).map fixed).sum := by
    intro k
    rw [sum_accumulateAll s (hquant.take k), hzero, zero_add]
    exact (hpart k).toInt_sum (hquant.take k).toInt_eq
  refine ⟨hsum, ?_⟩
  have hall := hsum ds.length
  rw [List.take_length, hquant.length_eq, List.take_length] at hall
  rw [← hws.sum_eq]
  exact (hdeployed.subperm hws.subperm).abs_netsumToDouble_sub_lt hall

/-- One datagram from each of two workers, with values at the edge of what two workers may send. -/
def edgeDatagrams : List (Bytes × ℤ) :=
  [(workerPacket ⟨1, 0, 0, 0, 2, 1, 0⟩ fun _ => BitVec.ofInt 32 (-1073676288), 0),
    (workerPacket ⟨1, 0, 0, 1, 2, 1, 0⟩ fun _ => BitVec.ofInt 32 1073676288, 1)]

theorem quantized_edgeDatagrams : Quantized 0 edgeDatagrams [-16383, 16383] :=
  .cons ⟨by decide +kernel, by decide +kernel⟩ (.cons ⟨by decide +kernel, by decide +kernel⟩ .nil)

/-- Two workers at the edge. -/
theorem quantized_sums_exact_edge :
    IsInt32 (fixed (-16383))
      ∧ |netsumToDouble (((Slot.fresh ⟨1, 0, 0⟩).accumulateAll edgeDatagrams).sum 0)
        - ([-16383, 16383] : List ℚ).sum| < (2 : ℤ) / 2 ^ netsumQFracBits := by
  have hexact := @quantized_sums_exact 2 16383 (by decide) (by decide +kernel) [-16383, 16383]
    (by decide) (by simp)
  refine ⟨(hexact.1 (-16383) (by simp)).1, ?_⟩
  exact ((hexact.2 _ (.refl _)).2 (Slot.fresh ⟨1, 0, 0⟩) 0 edgeDatagrams rfl
    quantized_edgeDatagrams).2

/-! ## Runs -/

section

variable {args : Args} {es : List Event} {n : ℤ} {maxAbs : ℚ} {v : ℕ → ℕ → ℚ}

/-- The run of a deployment that passes the check: the datagram of time `T` carries the quantized
values `v T`, none of them above the bound, and no datagram announces more than `n` workers. -/
structure DeployedRun (n : ℤ) (maxAbs : ℚ) (v : ℕ → ℕ → ℚ) (es : List Event) : Prop where
  one_le : 1 ≤ n
  fits : netsumSumFitsI32 n maxAbs = true
  values : ∀ T ev d, es[T]? = some ev → ev.received = some d → WellFormed d →
    (GradHdr.decode d).numWorkers.toNat ≤ n
      ∧ ∀ j < (GradHdr.decode d).chunkLen.toNat, |v T j| ≤ maxAbs
        ∧ netsumToFixed (v T j) = some (valueAt d j)

/-- The exact values at place `j` of a batch. -/
def exactValues (v : ℕ → ℕ → ℚ) (batch : List (ℕ × Bytes)) (j : ℕ) : List ℚ :=
  batch.map fun x => v x.1 j

/-- A batch of such a run that is no longer than its fan-in. -/
theorem DeployedRun.batch (h : DeployedRun n maxAbs v es) {os : List Output} {i : SlotIdx}
    {k : GradSlotKey} {L N j : ℕ} {batch : List (ℕ × Bytes)} (hbatch : Batch es os i k L N batch)
    (hlen : batch.length ≤ N) (hj : j < L) :
    Deployed n maxAbs (exactValues v batch j)
      ∧ ((batch.map fun x => valueAt x.2 j).map BitVec.toInt)
        = (exactValues v batch j).map fixed := by
  have hvalues : ∀ x ∈ batch, (GradHdr.decode x.2).numWorkers.toNat ≤ n
      ∧ |v x.1 j| ≤ maxAbs ∧ netsumToFixed (v x.1 j) = some (valueAt x.2 j) := by
    intro x hx
    obtain ⟨⟨ev, he, hrecv⟩, -⟩ := hbatch.counted x hx
    obtain ⟨hle, hall⟩ := h.values x.1 ev x.2 he hrecv (hbatch.wellFormed x hx)
    exact ⟨hle, hall j (by rwa [hbatch.chunkLen_eq x hx])⟩
  refine ⟨⟨h.one_le, h.fits, ?_, fun u hu => ?_⟩, ?_⟩
  · -- the fan-in is announced by the first datagram of the batch
    obtain ⟨x, hx, hN⟩ := hbatch.fanIn_eq
    have hle := (hvalues x (List.mem_of_head? hx)).1
    rw [exactValues, List.length_map]
    omega
  · obtain ⟨x, hx, rfl⟩ := List.mem_map.mp hu
    exact (hvalues x hx).2.1
  · rw [exactValues, List.map_map, List.map_map]
    apply List.map_congr_left
    intro x hx
    exact toInt_of_netsumToFixed (hvalues x hx).2.2

/-- **In every state of such a run**, what a slot has accumulated is the exact sum of the quantized
values of the datagrams counted into it. -/
theorem slot_sums_exact (h : DeployedRun n maxAbs v es) (inPacket outPacket : Buffer) (now : ℤ)
    {T : ℕ} (hT : T ≤ es.length) :
    let st₀ := State.init inPacket outPacket now
    let s := (stateAt (mainStep args) st₀ es T).tables.gSlots
    ∀ i, (s i).inUse = true → ∃ batch,
      Batch es (runOut (mainStep args) st₀ es) i (s i).key (s i).chunkLen.toNat
        (s i).numWorkersExpected.toNat batch
      ∧ ∀ j : Fin netsumMaxChunkLen, (j : ℕ) < (s i).chunkLen.toNat →
        ((s i).sum j).toInt = ((exactValues v batch j).map fixed).sum
        ∧ |netsumToDouble ((s i).sum j) - (exactValues v batch j).sum|
          < n / 2 ^ netsumQFracBits := by
  intro st₀ s i hi
  have hok := State.init_ok inPacket outPacket now
  obtain ⟨batch, ⟨hbatch, r, htally, habs⟩, -⟩ :=
    ledgered_stateAt (ledgered_init inPacket outPacket now) hok T hT i hi
  refine ⟨batch, hbatch, fun j hj => ?_⟩
  -- the slot has less contributions than its fan-in
  obtain ⟨r', hholds⟩ := ok_stateAt args hok es T i hi
  have hr := hholds.congr_tally htally
  have hfull := hr.not_full
  rw [habs, contributions, List.length_map, ← hr.fanIn_eq] at hfull
  obtain ⟨hdeployed, hquant⟩ := h.batch hbatch hfull.le hj
  have hsum : (s i).sum j = (batch.map fun x => valueAt x.2 j).sum := by
    have hj' : (s i).sum j = r.sum j := congrFun (congrArg Tally.sum htally) j
    rw [hj', Round.sum, habs, contributions, List.map_map]
    refine congrArg List.sum (List.map_congr_left fun x hx => ?_)
    simp only [Function.comp, Contribution.ofDatagram]
    rw [if_pos (by rwa [hbatch.chunkLen_eq x hx])]
  have hint : ((s i).sum j).toInt = ((exactValues v batch j).map fixed).sum := by
    rw [hsum]
    exact hdeployed.toInt_sum hquant
  exact ⟨hint, hdeployed.abs_netsumToDouble_sub_lt hint⟩

/-- So is every value sent. -/
theorem sent_sums_exact (h : DeployedRun n maxAbs v es) (inPacket outPacket : Buffer) (now : ℤ)
    {T : ℕ} {p : Bytes} :
    let os := runOut (mainStep args) (State.init inPacket outPacket now) es
    SentAt os T p → ∃ i batch,
      Batch es os i (GradHdr.decode p).key (GradHdr.decode p).chunkLen.toNat batch.length batch
      ∧ ∀ j < (GradHdr.decode p).chunkLen.toNat,
        (valueAt p j).toInt = ((exactValues v batch j).map fixed).sum
        ∧ |netsumToDouble (valueAt p j) - (exactValues v batch j).sum|
          < n / 2 ^ netsumQFracBits := by
  intro os hsent
  obtain ⟨i, batch, hbatch, -, -, -, -, -, hreports⟩ :=
    batch_of_sent (ledgered_init inPacket outPacket now) (State.init_ok inPacket outPacket now)
      hsent
  refine ⟨i, batch, hbatch, fun j hj => ?_⟩
  obtain ⟨hdeployed, hquant⟩ := h.batch hbatch le_rfl hj
  have hint : (valueAt p j).toInt = ((exactValues v batch j).map fixed).sum := by
    rw [hreports.value_eq j hj]
    exact hdeployed.toInt_sum hquant
  exact ⟨hint, hdeployed.abs_netsumToDouble_sub_lt hint⟩

end

end NetSum.UserspaceAgg
