import Mathlib.Data.List.TakeWhile
import NetSum.ArrivalTheorems
import NetSum.Worker.WorkerTheorems

/-!
# A fleet of workers and a parameter server

The configuration without an aggregator, end to end: the programs of all workers, a network that
may lose, double and reorder their packets, and the parameter server. A round is recorded exactly
when a packet of every worker arrived, and what is recorded is the exact sum of the gradients, up
to less than one unit in the last place a worker (`rounds_complete`).
-/

namespace NetSum

open NetSum.Lib NetSum.Protocol NetSum.Aggregation
open UserspaceAgg (slotTableCapacity Buffer)

/-! ## Fleets -/

/-- The arguments that the workers of a deployment share. The deployment passes the check of its
values and fits into the tables of the receivers. -/
structure Fleet where
  jobId : ℤ
  numWorkers : ℕ
  numRounds : ℕ
  chunkLen : ℕ
  maxAbsGrad : Double
  fixedValue : Option Double
  one_le : 1 ≤ numWorkers
  numWorkers_le : numWorkers ≤ maxTrackedWorkers
  numRounds_le : numRounds ≤ slotTableCapacity
  chunkLen_le : chunkLen ≤ netsumMaxChunkLen
  fits : Binary64.netsumSumFitsI32 numWorkers maxAbsGrad = true
  bounded : match fixedValue with
    | some v => |v.val| ≤ maxAbsGrad.val
    | none => 0 ≤ maxAbsGrad.val

namespace Fleet

/-- The command line of worker `w`. -/
def argv (F : Fleet) (w : ℕ) : Worker.Argv where
  jobId := F.jobId
  workerId := w
  numWorkers := F.numWorkers
  numRounds := F.numRounds
  chunkLen := F.chunkLen
  maxAbsGrad := some F.maxAbsGrad
  fixedValue := F.fixedValue

def args (F : Fleet) (w : ℕ) : Worker.Args := (F.argv w).args

/-- The datagram is one that a run of a worker sends. -/
def Sends (F : Fleet) (d : Bytes) : Prop :=
  ∃ w < F.numWorkers, ∃ packet calls out, Worker.main (F.args w) packet calls = some out
    ∧ d ∈ out.sent

/-- The key of a round. -/
def key (F : Fleet) (r : ℕ) : GradSlotKey := ⟨BitVec.ofInt 32 F.jobId, BitVec.ofNat 32 r, 0⟩

/-- What worker `w` draws for place `j` of round `r`. -/
def gradient (F : Fleet) (r w j : ℕ) : ℚ := ((F.args w).value (r * F.chunkLen + j)).val

/-- What the workers send. -/
def workload (F : Fleet) : Workload where
  numWorkers _ := F.numWorkers
  chunkLen _ := F.chunkLen
  payload k w := (F.args w).fixedAt k.round.toNat

variable {F : Fleet} {w r j : ℕ} {d : Bytes}

/-! ### Arguments -/

theorem toNat_ofInt_of_lt {n m : ℕ} (h : m < 2 ^ n) : (BitVec.ofInt n m).toNat = m := by
  rw [BitVec.ofInt_natCast, BitVec.toNat_ofNat, Nat.mod_eq_of_lt h]

theorem toNat_workerId (hw : w < F.numWorkers) : (F.args w).workerId.toNat = w := by
  have hle : F.numWorkers ≤ 256 := F.numWorkers_le
  exact toNat_ofInt_of_lt (by omega)

theorem toNat_numWorkers (F : Fleet) (w : ℕ) : (F.args w).numWorkers.toNat = F.numWorkers := by
  have hle : F.numWorkers ≤ 256 := F.numWorkers_le
  exact toNat_ofInt_of_lt (by omega)

theorem toNat_chunkLen (F : Fleet) (w : ℕ) : (F.args w).chunkLen.toNat = F.chunkLen := by
  have hle : F.chunkLen ≤ 64 := F.chunkLen_le
  exact toNat_ofInt_of_lt (by omega)

theorem toNat_round (hr : r < F.numRounds) : (F.key r).round.toNat = r := by
  have hle : F.numRounds ≤ 65536 := F.numRounds_le
  show (BitVec.ofNat 32 r).toNat = r
  rw [BitVec.toNat_ofNat, Nat.mod_eq_of_lt (by omega)]

theorem args_bounded (F : Fleet) (w : ℕ) : (F.args w).Bounded := F.bounded

/-- Every component that a worker draws has a fixed-point value. -/
theorem isInt32_fixed (F : Fleet) (w m : ℕ) : IsInt32 (fixed ((F.args w).value m).val) := by
  have hN := F.toNat_numWorkers w
  apply Worker.fixed_value (hN ▸ F.one_le) _ (F.args_bounded w)
  rw [hN]
  exact F.fits

/-! ### Datagrams -/

/-- The runs send the packets of the rounds. -/
theorem sends_iff : F.Sends d
    ↔ ∃ w < F.numWorkers, ∃ r < F.numRounds, d = (F.args w).datagram r := by
  have hruns : ∀ w sendOk, (F.args w).Runs sendOk := fun w _ _ _ _ _ _ => F.isInt32_fixed w _
  constructor
  · rintro ⟨w, hw, packet, calls, out, hout, hd⟩
    by_cases hstarts : Worker.Starts (F.args w) calls
    · rw [Worker.main_eq hstarts (hruns w _), Option.some.injEq] at hout
      rw [← hout] at hd
      obtain ⟨r, hr, rfl⟩ := List.mem_map.mp hd
      exact ⟨w, hw, r, List.mem_range.mp ((List.takeWhile_sublist _).subset hr), rfl⟩
    · rw [Worker.main_of_not_starts hstarts, Option.some.injEq] at hout
      rw [← hout] at hd
      cases hd
  · rintro ⟨w, hw, r, hr, rfl⟩
    have hL : (F.args w).chunkLen.toNat ≤ netsumMaxChunkLen :=
      (F.toNat_chunkLen w).trans_le F.chunkLen_le
    let calls : Worker.Calls := ⟨true, true, fun _ => true⟩
    refine ⟨w, hw, .zero, calls, _, Worker.main_eq ⟨hL, rfl, rfl⟩ (hruns w _) _, ?_⟩
    refine List.mem_map.mpr ⟨r, ?_, rfl⟩
    rw [List.takeWhile_eq_self_iff.mpr fun _ _ => rfl]
    exact List.mem_range.mpr hr

/-- What a packet says. -/
theorem decode_datagram (F : Fleet) (w r : ℕ) :
    ((F.args w).datagram r).length = netsumHdrSize + 4 * F.chunkLen
      ∧ GradHdr.decode ((F.args w).datagram r) = (F.args w).hdr r
      ∧ ∀ i < F.chunkLen, valueAt ((F.args w).datagram r) i = (F.args w).fixedAt r i := by
  have hL : (F.args w).chunkLen.toNat = F.chunkLen := F.toNat_chunkLen w
  have hdec := (F.args w).decode_datagram (hL.trans_le F.chunkLen_le) r
  rw [hL] at hdec
  exact hdec

theorem key_datagram (F : Fleet) (w r : ℕ) :
    (GradHdr.decode ((F.args w).datagram r)).key = F.key r := by
  rw [(F.decode_datagram w r).2.1]
  rfl

/-- The packets of the fleet are its workload. -/
theorem workload_sends (hw : w < F.numWorkers) (hr : r < F.numRounds) :
    F.workload.Sends ((F.args w).datagram r) := by
  obtain ⟨-, hhdr, hvalue⟩ := F.decode_datagram w r
  have hworker := F.toNat_workerId hw
  have hN := F.toNat_numWorkers w
  have hL := F.toNat_chunkLen w
  have hlt : w < maxTrackedWorkers := hw.trans_le F.numWorkers_le
  refine ⟨?_, ?_, ?_, ?_, fun i hi => ?_⟩
  · exact wellFormed_workerPacket (hL.trans_le F.chunkLen_le) (hworker.trans_lt hlt)
      (F.one_le.trans_eq hN.symm) (hN.trans_le F.numWorkers_le) _
  · rw [hhdr]
    exact hN
  · rw [hhdr]
    exact hL
  · rw [hhdr]
    exact hworker.trans_lt hw
  · rw [hvalue i hi, F.key_datagram, hhdr]
    show _ = (F.args (F.args w).workerId.toNat).fixedAt (F.key r).round.toNat i
    rw [hworker, toNat_round hr]

/-! ### Sums -/

/-- What the workers draw for one place of a round. -/
def gradients (F : Fleet) (r j : ℕ) : List ℚ :=
  (List.range F.numWorkers).map fun w => F.gradient r w j

theorem deployed (F : Fleet) (r j : ℕ) :
    Deployed F.numWorkers F.maxAbsGrad.val (F.gradients r j) where
  one_le := by exact_mod_cast F.one_le
  fits := by
    refine Binary64.fits_exactly ?_ F.fits
    have hle : F.numWorkers ≤ 256 := F.numWorkers_le
    rw [Nat.abs_cast]
    omega
  length_le := by rw [gradients, List.length_map, List.length_range]
  abs_le v hv := by
    obtain ⟨w, -, rfl⟩ := List.mem_map.mp hv
    exact Worker.Args.abs_value_le (F.args_bounded w) _

/-- The sum that a round of the workload comes to. -/
theorem toInt_total (hr : r < F.numRounds) (j : ℕ) :
    (F.workload.total (F.key r) j).toInt = ((F.gradients r j).map fixed).sum := by
  have hsum : F.workload.total (F.key r) j
      = ((List.range F.numWorkers).map fun w => (F.args w).fixedAt (F.key r).round.toNat j).sum :=
    rfl
  rw [hsum, toNat_round hr]
  apply (F.deployed r j).toInt_sum
  rw [gradients, List.map_map, List.map_map]
  apply List.map_congr_left
  intro w _
  show ((F.args w).fixedAt r j).toInt = fixed (F.gradient r w j)
  rw [Worker.Args.fixedAt, F.toNat_chunkLen, toInt_ofInt_of_isInt32 (F.isInt32_fixed w _)]
  rfl

end Fleet

/-! ## End to end -/

open ParamServer in
/-- The server's only entry for the round holds the exact sum of the gradients, up to less than one
unit in the last place a worker. -/
def Fleet.Recorded (F : Fleet) (t : Slots) (r : ℕ) : Prop :=
  ∃ i, Slots.occ t i = some (F.key r) ∧ (∀ i', Slots.occ t i' = some (F.key r) → i' = i)
    ∧ (t i).chunkLen.toNat = F.chunkLen
    ∧ ∀ j : Fin netsumMaxChunkLen, (j : ℕ) < F.chunkLen →
      ((t i).sum j).toInt = ((F.gradients r j).map fixed).sum
      ∧ |netsumToDouble ((t i).sum j) - (F.gradients r j).sum|
        < F.numWorkers / 2 ^ netsumQFracBits

/-- What is recorded of the workload is right. -/
theorem Fleet.recorded {F : Fleet} {t : ParamServer.Slots} {r : ℕ} (hr : r < F.numRounds)
    (h : ParamServer.Records t (F.key r) F.chunkLen (F.workload.total (F.key r))) :
    F.Recorded t r := by
  obtain ⟨i, hi, hunique, hlen, hsum⟩ := h
  refine ⟨i, hi, hunique, hlen, fun j hj => ?_⟩
  have hint : ((t i).sum j).toInt = ((F.gradients r j).map fixed).sum := by
    rw [hsum j hj, Fleet.toInt_total hr]
  refine ⟨hint, ?_⟩
  have herror := (F.deployed r j).abs_netsumToDouble_sub_lt hint
  rwa [Int.cast_natCast] at herror

/-- A packet of the fleet is known by its key and its worker. -/
theorem Fleet.datagram_unique {F : Fleet} {d : Bytes} (hd : F.Sends d) {w r : ℕ}
    (hr : r < F.numRounds) (hkey : (GradHdr.decode d).key = F.key r)
    (hworker : (GradHdr.decode d).workerId.toNat = w) : d = (F.args w).datagram r := by
  obtain ⟨w', hw', r', hr', rfl⟩ := sends_iff.mp hd
  obtain rfl : w' = w := by
    rw [(F.decode_datagram w' r').2.1] at hworker
    exact (F.toNat_workerId hw').symm.trans hworker
  obtain rfl : r' = r := by
    rw [F.key_datagram] at hkey
    have hround := congrArg (fun k => k.round.toNat) hkey
    simp only [toNat_round hr', toNat_round hr] at hround
    exact hround
  rfl

/-- A packet of a worker is among these when it is. -/
theorem Fleet.mem_workersIn_iff {F : Fleet} {ds : List Bytes} (hds : ∀ d ∈ ds, F.Sends d)
    {w r : ℕ} (hw : w < F.numWorkers) (hr : r < F.numRounds) :
    w ∈ ParamServer.workersIn ds (F.key r) ↔ (F.args w).datagram r ∈ ds := by
  rw [ParamServer.mem_workersIn]
  constructor
  · rintro ⟨d, hd, hkey, hworker⟩
    exact datagram_unique (hds d hd) hr hkey hworker ▸ hd
  · intro hd
    refine ⟨_, hd, F.key_datagram w r, ?_⟩
    rw [(F.decode_datagram w r).2.1]
    exact F.toNat_workerId hw

/-- The keys of the rounds. -/
def Fleet.keys (F : Fleet) : Finset GradSlotKey := (Finset.range F.numRounds).image F.key

theorem Fleet.mem_keys {F : Fleet} {k : GradSlotKey} :
    k ∈ F.keys ↔ ∃ r < F.numRounds, F.key r = k := by
  simp only [keys, Finset.mem_image, Finset.mem_range]

theorem Fleet.card_keys_le (F : Fleet) : F.keys.card ≤ F.numRounds := by
  have hle : F.keys.card ≤ (Finset.range F.numRounds).card := Finset.card_image_le
  rwa [Finset.card_range] at hle

theorem Fleet.key_mem_keys {F : Fleet} {d : Bytes} (hd : F.Sends d) :
    (GradHdr.decode d).key ∈ F.keys := by
  obtain ⟨w, -, r, hr, rfl⟩ := sends_iff.mp hd
  exact mem_keys.mpr ⟨r, hr, (F.key_datagram w r).symm⟩

/-- Datagrams of the keys of a fleet fit into the server's table. -/
theorem Fleet.card_keysIn_le (F : Fleet) {ds : List Bytes}
    (hds : ∀ d ∈ ds, (GradHdr.decode d).key ∈ F.keys) :
    (ParamServer.keysIn ds).card ≤ slotTableCapacity := by
  have hsub : ParamServer.keysIn ds ⊆ F.keys := by
    intro k hk
    obtain ⟨d, hd, rfl⟩ := List.mem_map.mp (List.mem_toFinset.mp hk)
    exact hds d hd
  exact (Finset.card_le_card hsub).trans (F.card_keys_le.trans F.numRounds_le)

theorem Fleet.workload_of_sends {F : Fleet} {d : Bytes} (hd : F.Sends d) : F.workload.Sends d := by
  obtain ⟨w, hw, r, hr, rfl⟩ := sends_iff.mp hd
  exact workload_sends hw hr

open ParamServer in
/-- **A round is recorded when a packet of every worker has arrived**, and then it is recorded
right. -/
theorem rounds_complete (F : Fleet) (packet : Buffer) {es : List Event}
    (hes : ∀ ev ∈ es, ∀ d, ev.received = some d → F.Sends d) {r : ℕ} (hr : r < F.numRounds)
    (U : ℕ) :
    ((∃ T < U, CompletesAt es (runOut (mainStep .noagg) (State.init packet) es) (F.key r) T)
      ↔ ∀ w < F.numWorkers, ∃ T < U, ∃ ev, es[T]? = some ev
        ∧ ev.received = some ((F.args w).datagram r))
    ∧ ((∃ T < U, CompletesAt es (runOut (mainStep .noagg) (State.init packet) es) (F.key r) T) →
      F.Recorded (stateAt (mainStep .noagg) (State.init packet) es U).gSlots r) := by
  have hon : ∀ ev ∈ es, ev.On F.workload :=
    fun ev hev d hd => Fleet.workload_of_sends (hes ev hev d hd)
  have hsends : ∀ d ∈ received es, F.Sends d := by
    intro d hd
    obtain ⟨ev, hev, hrecv⟩ := List.mem_filterMap.mp hd
    exact hes ev hev d hrecv
  have hroom := F.card_keysIn_le fun d hd => Fleet.key_mem_keys (hsends d hd)
  refine ⟨?_, fun ⟨T, hT, hcompletes⟩ =>
    Fleet.recorded hr (records_total (expects_noagg F.workload) hon hcompletes hT)⟩
  rw [completed_before_iff (expects_noagg _) hon hroom F.one_le]
  refine forall₂_congr fun w hw => ?_
  rw [← mem_received_take]
  apply Fleet.mem_workersIn_iff _ hw hr
  intro d hd
  exact hsends d ((List.take_sublist U es).filterMap _ |>.subset hd)

open ParamServer in
/-- Behind an aggregator that sends sums of the fleet, a round is recorded when a sum of it arrives. -/
theorem Fleet.sums_recorded (F : Fleet) (packet : Buffer) {es : List Event}
    (hes : ∀ ev ∈ es, ∀ p, ev.received = some p →
      F.workload.reduced.Sends p ∧ (GradHdr.decode p).key ∈ F.keys)
    {r : ℕ} (hr : r < F.numRounds) (U : ℕ) :
    ((∃ T < U, CompletesAt es (runOut (mainStep .agg) (State.init packet) es) (F.key r) T)
      ↔ ∃ T < U, ∃ ev p, es[T]? = some ev ∧ ev.received = some p
        ∧ (GradHdr.decode p).key = F.key r)
    ∧ ((∃ T < U, CompletesAt es (runOut (mainStep .agg) (State.init packet) es) (F.key r) T) →
      F.Recorded (stateAt (mainStep .agg) (State.init packet) es U).gSlots r) := by
  have hon : ∀ ev ∈ es, ev.On F.workload.reduced := fun ev hev p hp => (hes ev hev p hp).1
  have hroom : (keysIn (received es)).card ≤ slotTableCapacity := by
    refine F.card_keysIn_le fun p hp => ?_
    obtain ⟨ev, hev, hrecv⟩ := List.mem_filterMap.mp hp
    exact (hes ev hev p hrecv).2
  refine ⟨?_, fun ⟨T, hT, hcompletes⟩ => ?_⟩
  · rw [completed_before_iff (expects_agg F.workload) hon hroom Nat.one_pos U]
    constructor
    · intro hall
      obtain ⟨p, hp, hkey, -⟩ := mem_workersIn.mp (hall 0 Nat.one_pos)
      obtain ⟨T, hT, ev, hev, hrecv⟩ := mem_received_take.mp hp
      exact ⟨T, hT, ev, p, hev, hrecv, hkey⟩
    · rintro ⟨T, hT, ev, p, hev, hrecv, hkey⟩ w hw
      refine mem_workersIn.mpr ⟨p, mem_received_take.mpr ⟨T, hT, ev, hev, hrecv⟩, hkey, ?_⟩
      -- there is one worker only
      have hworker : (GradHdr.decode p).workerId.toNat < 1 :=
        (hon ev (List.mem_of_getElem? hev) p hrecv).worker_lt
      have hw' : w < 1 := hw
      omega
  · have hrecords := records_total (expects_agg F.workload) hon hcompletes hT
    rw [F.workload.total_reduced] at hrecords
    exact Fleet.recorded hr hrecords

/-- Two workers that send `1/2` in one round. -/
def halves : Fleet where
  jobId := 1
  numWorkers := 2
  numRounds := 1
  chunkLen := 1
  maxAbsGrad := 1
  fixedValue := some (1 / 2)
  one_le := by decide
  numWorkers_le := by decide
  numRounds_le := by decide
  chunkLen_le := by decide
  fits := by decide +kernel
  bounded := by
    decide +kernel

/-- The packet of the second worker overtakes that of the first. -/
theorem rounds_complete_halves :
    let es := [ParamServer.Event.deliver ((halves.args 1).datagram 0),
      .deliver ((halves.args 0).datagram 0)]
    ∃ T < 2, ParamServer.CompletesAt es
      (runOut (ParamServer.mainStep .noagg) (ParamServer.State.init .zero) es) (halves.key 0) T := by
  intro es
  have hes : ∀ ev ∈ es, ∀ d, ev.received = some d → halves.Sends d := by
    intro ev hev d hd
    rw [Fleet.sends_iff]
    rcases List.mem_pair.mp hev with rfl | rfl <;> obtain rfl := Option.some.inj hd
    · exact ⟨1, by decide, 0, by decide, rfl⟩
    · exact ⟨0, by decide, 0, by decide, rfl⟩
  refine (rounds_complete halves .zero hes (by decide) 2).1.mpr fun w hw => ?_
  have hw' : w < 2 := hw
  interval_cases w
  · exact ⟨1, by decide, _, rfl, rfl⟩
  · exact ⟨0, by decide, _, rfl, rfl⟩

end NetSum
