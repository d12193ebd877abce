import NetSum.UserspaceAgg.MainLoopTheorems
import NetSum.Worker.Worker

/-!
# What a worker sends

The numbers a worker draws are those of one generator, started in a state of the worker's own
(`draws_apart`). If every component it draws has a fixed-point value, the run is defined and sends
the packets of the rounds ahead of the first `sendto` that fails (`main_eq`). A deployment that
passes the check has such values, provided its bound is one on the components (`fixed_value`).
-/

namespace NetSum.Worker

open NetSum.Lib NetSum.Protocol
open UserspaceAgg (Buffer)

/-! ## The generator -/

theorem xorshiftDouble_snd (state : BitVec 64) :
    (xorshiftDouble state).2 = xorshift 13 7 17 state := rfl

/-- The quotient is not rounded up to 2: there is a double in between. -/
theorem quotient_bounds {n : ℕ} (hn : n ≤ 1999999) :
    0 ≤ binary64.round (n / 1000000 : ℚ)
      ∧ binary64.round (n / 1000000 : ℚ) ≤ (2 ^ 21 - 1 : ℤ) * 2 ^ (-20 : ℤ) := by
  have hn' : (n : ℚ) ≤ 1999999 := by exact_mod_cast hn
  constructor
  · have hzero := Format.le_round (F := binary64) (x := (n / 1000000 : ℚ))
      (Double.holds_intCast (m := 0) (by decide))
    rw [Int.cast_zero] at hzero
    exact hzero (by positivity)
  · refine Format.round_le (Double.holds_scaled (by decide) (by decide)) ?_
    norm_num
    linarith only [hn']

/-- Nor is the difference rounded up to 1. -/
theorem difference_bounds {x : ℚ} (hlow : 0 ≤ x) (hhigh : x ≤ (2 ^ 21 - 1 : ℤ) * 2 ^ (-20 : ℤ)) :
    -1 ≤ binary64.round (x - 1) ∧ binary64.round (x - 1) < 1 := by
  constructor
  · have hone := Format.le_round (F := binary64) (x := x - 1)
      (Double.holds_intCast (m := -1) (by decide))
    push_cast at hone
    exact hone (by linarith only [hlow])
  · have hone : binary64.round (x - 1) ≤ (2 ^ 20 - 1 : ℤ) * 2 ^ (-20 : ℤ) := by
      refine Format.round_le (Double.holds_scaled (by decide) (by decide)) ?_
      norm_num at hhigh ⊢
      linarith only [hhigh]
    norm_num at hone
    linarith only [hone]

/-- Rounding does not take a number of the generator out of its range. -/
theorem xorshiftDouble_fst (state : BitVec 64) :
    -1 ≤ (xorshiftDouble state).1.val ∧ (xorshiftDouble state).1.val < 1 := by
  set n := (xorshift 13 7 17 state % 2000000).toNat with hn
  have hlt : n ≤ 1999999 := by
    rw [hn, BitVec.toNat_umod]
    exact Nat.le_of_lt_succ (Nat.mod_lt _ (by decide))
  have hquot : ((n : Double) / 1000000).val = binary64.round (n / 1000000) := by
    rw [Double.val_div, Double.val_natCast (by omega), Double.val_ofNat (by decide)]
    norm_num
  have hval : (xorshiftDouble state).1.val
      = binary64.round (binary64.round (n / 1000000) - 1) := by
    show ((n : Double) / 1000000 - 1 : Double).val = _
    rw [Double.val_sub, hquot, Double.val_ofNat (by decide), Nat.cast_one]
  obtain ⟨hlow, hhigh⟩ := quotient_bounds hlt
  rw [hval]
  exact difference_bounds hlow hhigh

namespace Args

/-- No worker starts in the state zero, and no two start in the same. -/
theorem rngState_ne_zero (a : Args) : a.rngState ≠ 0#64 := by
  intro h
  -- the worker id does not reach the low bits
  have hbit : a.rngState.getLsbD 4 = true := by
    rw [rngState, BitVec.getLsbD_xor, BitVec.getLsbD_xor, BitVec.getLsbD_shiftLeft]
    simp
  rw [h, BitVec.getLsbD_zero] at hbit
  cases hbit

theorem rngState_inj {a b : Args} : a.rngState = b.rngState ↔ a.workerId = b.workerId := by
  constructor
  · intro h
    rw [rngState, rngState, BitVec.xor_left_inj, BitVec.xor_right_inj] at h
    apply BitVec.eq_of_getLsbD_eq
    intro i hi
    have hbit := congrArg (fun x => x.getLsbD (i + 32)) h
    simp only [BitVec.getLsbD_shiftLeft, BitVec.getLsbD_setWidth] at hbit
    have hlt : i + 32 < 64 := by omega
    simpa [hlt, (by omega : i < 64)] using hbit
  · intro h
    rw [rngState, rngState, h]

/-- The state of the generator after `n` components. -/
def rngAt (a : Args) (n : ℕ) : BitVec 64 := (fun rng => (a.draw rng).2)^[n] a.rngState

/-- Component number `n` of a run. -/
def value (a : Args) (n : ℕ) : Double := (a.draw (a.rngAt n)).1

theorem rngAt_succ (a : Args) (n : ℕ) : a.rngAt (n + 1) = (a.draw (a.rngAt n)).2 :=
  Function.iterate_succ_apply' ..

/-- Without a fixed value the components are scaled numbers of the generator. -/
theorem rngAt_of_random {a : Args} (h : a.fixedValue = none) (n : ℕ) :
    a.rngAt n = (xorshift 13 7 17)^[n] a.rngState := by
  have hdraw : (fun rng => (a.draw rng).2) = xorshift 13 7 17 := by
    funext rng
    rw [draw, h]
    exact xorshiftDouble_snd rng
  rw [rngAt, hdraw]

theorem value_of_random {a : Args} (h : a.fixedValue = none) (n : ℕ) :
    a.value n = (xorshiftDouble (a.rngAt n)).1 * a.maxAbsGrad := by
  rw [value, draw, h]

theorem value_of_fixed {a : Args} {v : Double} (h : a.fixedValue = some v) (n : ℕ) :
    a.value n = v := by
  rw [value, draw, h]

/-- The bound the worker is told is one on what it sends. -/
def Bounded (a : Args) : Prop :=
  match a.fixedValue with
  | some v => |v.val| ≤ a.maxAbsGrad.val
  | none => 0 ≤ a.maxAbsGrad.val

theorem abs_value_le {a : Args} (h : a.Bounded) (n : ℕ) :
    |(a.value n).val| ≤ a.maxAbsGrad.val := by
  unfold Bounded at h
  cases hv : a.fixedValue with
  | some v =>
    rw [hv] at h
    rw [value_of_fixed hv]
    exact h
  | none =>
    rw [hv] at h
    rw [value_of_random hv, Double.val_mul]
    obtain ⟨hlow, hhigh⟩ := xorshiftDouble_fst (a.rngAt n)
    -- the product is between two doubles, the bound and its negation
    refine abs_le.mpr ⟨?_, ?_⟩
    · refine Format.le_round a.maxAbsGrad.holds_neg ?_
      have hmul := mul_le_mul_of_nonneg_right hlow h
      rwa [neg_one_mul] at hmul
    · exact Format.round_le a.maxAbsGrad.holds (mul_le_of_le_one_left h hhigh.le)

/-- What the values of a round are in fixed point. -/
def fixedAt (a : Args) (round i : ℕ) : BitVec 32 :=
  BitVec.ofInt 32 (fixed (a.value (round * a.chunkLen.toNat + i)).val)

/-- The packet of a round. -/
def datagram (a : Args) (round : ℕ) : Bytes := workerPacket (a.hdr round) (a.fixedAt round)

/-- What the packet says. -/
theorem decode_datagram (a : Args) (hL : a.chunkLen.toNat ≤ netsumMaxChunkLen) (round : ℕ) :
    (a.datagram round).length = netsumHdrSize + 4 * a.chunkLen.toNat
      ∧ GradHdr.decode (a.datagram round) = a.hdr round
      ∧ ∀ i < a.chunkLen.toNat, valueAt (a.datagram round) i = a.fixedAt round i := by
  have hL' : (a.hdr round).chunkLen.toNat ≤ netsumMaxChunkLen := hL
  exact decode_workerPacket hL' (a.fixedAt round)

end Args

/-- **The generators of two workers** are never in the same state after the same number of draws,
and never in the state in which a generator gets stuck. -/
theorem draws_apart {a b : Args} (ha : a.fixedValue = none) (hb : b.fixedValue = none)
    (hab : a.workerId ≠ b.workerId) (n : ℕ) :
    a.rngAt n ≠ b.rngAt n ∧ a.rngAt n ≠ 0#64
      ∧ -1 ≤ (xorshiftDouble (a.rngAt n)).1.val ∧ (xorshiftDouble (a.rngAt n)).1.val < 1 := by
  refine ⟨?_, ?_, xorshiftDouble_fst _⟩
  · rw [Args.rngAt_of_random ha, Args.rngAt_of_random hb, Ne,
      iterate_xorshift_inj (by decide) (by decide) (by decide), Args.rngState_inj]
    exact hab
  · rw [Args.rngAt_of_random ha]
    exact iterate_xorshift_ne_zero (by decide) (by decide) (by decide) a.rngState_ne_zero n

theorem draws_apart_first :
    (Argv.args ⟨7, 0, 4, 3, 2, none, none⟩).rngAt 1000
      ≠ (Argv.args ⟨7, 1, 4, 3, 2, none, none⟩).rngAt 1000 :=
  (draws_apart (a := Argv.args ⟨7, 0, 4, 3, 2, none, none⟩)
    (b := Argv.args ⟨7, 1, 4, 3, 2, none, none⟩) rfl rfl (by decide) 1000).1

/-! ## A round -/

namespace Args

/-- Every component of the round has a fixed-point value. -/
def Defined (a : Args) (round : ℕ) : Prop :=
  ∀ i < a.chunkLen.toNat, IsInt32 (fixed (a.value (round * a.chunkLen.toNat + i)).val)

end Args

section

variable {a : Args}

theorem valueStep_eq {n i : ℕ} (hdef : IsInt32 (fixed (a.value n).val)) (packet : Bytes) :
    valueStep a ⟨a.rngAt n, packet⟩ i = some ⟨a.rngAt (n + 1),
      store32 packet (netsumHdrSize + 4 * i) (htonl (BitVec.ofInt 32 (fixed (a.value n).val)))⟩ := by
  rw [Args.rngAt_succ]
  show (Binary64.netsumToFixed (a.value n)).bind _ = _
  rw [Binary64.netsumToFixed_eq, netsumToFixed_of_isInt32 hdef]
  rfl

theorem valueStep_eq_none {n i : ℕ} (hdef : ¬ IsInt32 (fixed (a.value n).val)) (packet : Bytes) :
    valueStep a ⟨a.rngAt n, packet⟩ i = none := by
  show (Binary64.netsumToFixed (a.value n)).bind _ = none
  rw [Binary64.netsumToFixed_eq, netsumToFixed, if_neg hdef]
  rfl

/-- The loop over the first `m` components of a round. -/
theorem foldlM_valueStep {n m : ℕ} (hdef : ∀ i < m, IsInt32 (fixed (a.value (n + i)).val))
    (packet : Bytes) :
    (List.range m).foldlM (valueStep a) ⟨a.rngAt n, packet⟩
      = some ⟨a.rngAt (n + m), (List.range m).foldl (fun out i =>
        store32 out (netsumHdrSize + 4 * i) (htonl (BitVec.ofInt 32 (fixed (a.value (n + i)).val))))
        packet⟩ := by
  induction m with
  | zero => rfl
  | succ m ih =>
    rw [List.range_succ, List.foldlM_append, ih fun i hi => hdef i (by omega), List.foldl_append]
    show (valueStep a _ m).bind _ = _
    rw [valueStep_eq (hdef m (Nat.lt_succ_self m))]
    rfl

/-- It stops at the first component without a fixed-point value. -/
theorem foldlM_valueStep_eq_none {n m : ℕ} (hundef : ∃ i < m, ¬ IsInt32 (fixed (a.value (n + i)).val))
    (packet : Bytes) : (List.range m).foldlM (valueStep a) ⟨a.rngAt n, packet⟩ = none := by
  induction m with
  | zero =>
    obtain ⟨i, hi, -⟩ := hundef
    exact absurd hi (Nat.not_lt_zero i)
  | succ m ih =>
    rw [List.range_succ, List.foldlM_append]
    by_cases hbefore : ∃ i < m, ¬ IsInt32 (fixed (a.value (n + i)).val)
    · rw [ih hbefore]
      rfl
    · push Not at hbefore
      obtain ⟨i, hi, hnot⟩ := hundef
      obtain rfl : i = m := by
        rcases Nat.lt_succ_iff_lt_or_eq.mp hi with hlt | rfl
        · exact absurd (hbefore i hlt) hnot
        · rfl
      rw [foldlM_valueStep hbefore]
      show (valueStep a _ i).bind _ = none
      rw [valueStep_eq_none hnot]
      rfl

/-- A round fills the packet with its values. -/
theorem fillPacket_eq {round : ℕ} (hdef : a.Defined round) (packet : Bytes) :
    fillPacket a round ⟨a.rngAt (round * a.chunkLen.toNat), packet⟩
      = some ⟨a.rngAt ((round + 1) * a.chunkLen.toNat),
        writePacket packet (a.hdr round) (a.fixedAt round)⟩ := by
  rw [fillPacket, foldlM_valueStep hdef, Nat.succ_mul]
  rfl

theorem fillPacket_eq_none {round : ℕ} (hdef : ¬ a.Defined round) (packet : Bytes) :
    fillPacket a round ⟨a.rngAt (round * a.chunkLen.toNat), packet⟩ = none := by
  unfold Args.Defined at hdef
  push Not at hdef
  exact foldlM_valueStep_eq_none hdef _

/-- Nothing of what the buffer held before is sent. -/
theorem packet_eq_datagram (hL : a.chunkLen.toNat ≤ netsumMaxChunkLen) {packet : Bytes}
    (hpacket : packet.length = netsumMaxPacketSize) (round : ℕ) :
    (writePacket packet (a.hdr round) (a.fixedAt round)).take a.packetLen = a.datagram round := by
  have hfits : netsumHdrSize + 4 * (a.hdr round).chunkLen.toNat ≤ packet.length := by
    rw [hpacket, netsumMaxPacketSize, Nat.mul_comm netsumMaxChunkLen]
    exact Nat.add_le_add_left (Nat.mul_le_mul_left 4 hL) netsumHdrSize
  have hlen : a.packetLen = netsumHdrSize + 4 * (a.hdr round).chunkLen.toNat := by
    rw [Args.packetLen, Nat.mul_comm]
    rfl
  obtain ⟨hlength, hhdr, hvalue⟩ := decode_packet (a.hdr round) (a.fixedAt round) hfits
  obtain ⟨hlength', hhdr', hvalue'⟩ := a.decode_datagram hL round
  rw [hlen]
  apply datagram_ext hlength hlength' (hhdr.trans hhdr'.symm)
  intro i hi
  exact (hvalue i hi).trans (hvalue' i hi).symm

/-! ## A run -/

/-- The rounds from `round` on, when all that are reached are defined. -/
theorem sendRounds_eq (hL : a.chunkLen.toNat ≤ netsumMaxChunkLen) (sendOk : ℕ → Bool) (n : ℕ) :
    ∀ (round : ℕ) (packet : Bytes), packet.length = netsumMaxPacketSize →
      (∀ k < n, (∀ k' < k, sendOk (round + k') = true) → a.Defined (round + k)) →
      sendRounds a sendOk n round ⟨a.rngAt (round * a.chunkLen.toNat), packet⟩
        = some (((List.range' round n).takeWhile sendOk).map a.datagram,
          (List.range' round n).all sendOk) := by
  induction n with
  | zero => exact fun _ _ _ _ => rfl
  | succ n ih =>
    intro round packet hpacket hdef
    have hround : a.Defined round := hdef 0 (Nat.succ_pos n) fun k' hk' => absurd hk' k'.not_lt_zero
    show (fillPacket a round _).bind _ = _
    rw [fillPacket_eq hround, List.range'_succ, Option.bind_some]
    cases hok : sendOk round with
    | false =>
      rw [List.takeWhile_cons_of_neg (by rw [hok]; exact Bool.false_ne_true), List.all_cons, hok]
      rfl
    | true =>
      have hrest := ih (round + 1) (writePacket packet (a.hdr round) (a.fixedAt round))
        (by rw [length_writePacket, hpacket]) fun k hk hsent => by
          rw [Nat.add_assoc, Nat.add_comm 1]
          refine hdef (k + 1) (Nat.succ_lt_succ hk) fun k' hk' => ?_
          cases k' with
          | zero => exact hok
          | succ k' =>
            rw [Nat.add_comm k', ← Nat.add_assoc]
            exact hsent k' (Nat.lt_of_succ_lt_succ hk')
      rw [List.takeWhile_cons_of_pos hok, List.all_cons, hok]
      show (sendRounds a sendOk n (round + 1) _).bind _ = _
      rw [hrest, List.map_cons, ← packet_eq_datagram hL hpacket]
      rfl

/-- When one that is reached is not. -/
theorem sendRounds_eq_none (sendOk : ℕ → Bool) (n : ℕ) : ∀ (round : ℕ) (packet : Bytes),
    (∃ k < n, (∀ k' < k, sendOk (round + k') = true) ∧ ¬ a.Defined (round + k)) →
      sendRounds a sendOk n round ⟨a.rngAt (round * a.chunkLen.toNat), packet⟩ = none := by
  induction n with
  | zero =>
    rintro - - ⟨k, hk, -⟩
    exact absurd hk k.not_lt_zero
  | succ n ih =>
    rintro round packet ⟨k, hk, hsent, hundef⟩
    show (fillPacket a round _).bind _ = none
    by_cases hround : a.Defined round
    · -- a later round is the one that is not defined
      cases k with
      | zero => exact absurd hround hundef
      | succ k =>
        rw [Nat.add_comm k, ← Nat.add_assoc] at hundef
        have hok : sendOk round = true := hsent 0 (Nat.succ_pos k)
        rw [fillPacket_eq hround, Option.bind_some, if_pos hok]
        show (sendRounds a sendOk n (round + 1) _).bind _ = none
        rw [ih (round + 1) _ ⟨k, Nat.lt_of_succ_lt_succ hk, fun k' hk' => ?_, hundef⟩]
        · rfl
        · rw [Nat.add_assoc, Nat.add_comm 1]
          exact hsent (k' + 1) (Nat.succ_lt_succ hk')
    · rw [fillPacket_eq_none hround]
      rfl

/-- Every round that is reached is defined. -/
def Args.Runs (a : Args) (sendOk : ℕ → Bool) : Prop :=
  ∀ r < a.numRounds.toNat, (∀ r' < r, sendOk r' = true) → a.Defined r

/-- The worker gets as far as the first round. -/
structure Starts (a : Args) (calls : Calls) : Prop where
  chunkLen_le : a.chunkLen.toNat ≤ netsumMaxChunkLen
  socketOk : calls.socketOk = true
  inetPtonOk : calls.inetPtonOk = true

variable {calls : Calls}

theorem main_of_starts (h : Starts a calls) (packet : Buffer) :
    main a packet calls
      = (sendRounds a calls.sendOk a.numRounds.toNat 0 ⟨a.rngAt 0, packet.bytes⟩).bind fun r =>
        some ⟨if r.2 then 0 else 1, !Binary64.netsumSumFitsI32 a.numWorkers.toNat a.maxAbsGrad,
          r.1⟩ := by
  rw [main, if_neg (Nat.not_lt.mpr h.chunkLen_le), h.socketOk, h.inetPtonOk]
  rfl

/-- Otherwise it ends with an error, and warns unless it was told too many components. -/
theorem main_of_not_starts (h : ¬ Starts a calls) (packet : Buffer) :
    main a packet calls = some ⟨1, decide (a.chunkLen.toNat ≤ netsumMaxChunkLen)
      && !Binary64.netsumSumFitsI32 a.numWorkers.toNat a.maxAbsGrad, []⟩ := by
  unfold main
  by_cases hL : a.chunkLen.toNat ≤ netsumMaxChunkLen
  · rw [if_neg (Nat.not_lt.mpr hL), decide_eq_true hL, Bool.true_and]
    cases hsocket : calls.socketOk with
    | false => rfl
    | true =>
      cases hdest : calls.inetPtonOk with
      | false => rfl
      | true => exact absurd ⟨hL, hsocket, hdest⟩ h
  · rw [if_pos (Nat.lt_of_not_le hL), decide_eq_false hL]
    rfl

/-- A run that is defined sends the packets of the rounds ahead of the first `sendto` that fails. -/
theorem main_eq (h : Starts a calls) (hruns : a.Runs calls.sendOk) (packet : Buffer) :
    main a packet calls = some
      { status := if (List.range a.numRounds.toNat).all calls.sendOk then 0 else 1
        warned := !Binary64.netsumSumFitsI32 a.numWorkers.toNat a.maxAbsGrad
        sent := ((List.range a.numRounds.toNat).takeWhile calls.sendOk).map a.datagram } := by
  have hrun := sendRounds_eq h.chunkLen_le calls.sendOk a.numRounds.toNat 0 packet.bytes
    packet.length_eq fun k hk hsent => by
      rw [Nat.zero_add]
      exact hruns k hk fun k' hk' => by simpa using hsent k' hk'
  rw [Nat.zero_mul] at hrun
  rw [main_of_starts h, hrun, List.range_eq_range']
  rfl

theorem main_eq_none (h : Starts a calls) (hruns : ¬ a.Runs calls.sendOk) (packet : Buffer) :
    main a packet calls = none := by
  unfold Args.Runs at hruns
  push Not at hruns
  obtain ⟨r, hr, hsent, hundef⟩ := hruns
  have hrun := sendRounds_eq_none calls.sendOk a.numRounds.toNat 0 packet.bytes
    ⟨r, hr, fun k' hk' => by simpa using hsent k' hk', by
      rwa [Nat.zero_add]⟩
  rw [Nat.zero_mul] at hrun
  rw [main_of_starts h, hrun]
  rfl

/-- **What a worker sends.** Its run is defined exactly when every component of the rounds it
reaches has a fixed-point value. If it does not get as far as the first round it sends nothing, and
otherwise one packet for each round ahead of the first `sendto` that fails: with the round's
header, and with the values in fixed point. -/
theorem sends_rounds (a : Args) (packet : Buffer) (calls : Calls) :
    ((main a packet calls).isSome ↔ (Starts a calls → a.Runs calls.sendOk))
    ∧ ∀ out, main a packet calls = some out →
      (out.status = 0 ↔ Starts a calls ∧ ∀ r < a.numRounds.toNat, calls.sendOk r = true)
      ∧ (out.warned = true ↔ a.chunkLen.toNat ≤ netsumMaxChunkLen
        ∧ Binary64.netsumSumFitsI32 a.numWorkers.toNat a.maxAbsGrad = false)
      ∧ (∀ r, r < out.sent.length
        ↔ Starts a calls ∧ r < a.numRounds.toNat ∧ ∀ r' ≤ r, calls.sendOk r' = true)
      ∧ ∀ r d, out.sent[r]? = some d →
        d.length = netsumHdrSize + 4 * a.chunkLen.toNat ∧ GradHdr.decode d = a.hdr r
        ∧ ∀ i < a.chunkLen.toNat,
          (valueAt d i).toInt = fixed (a.value (r * a.chunkLen.toNat + i)).val := by
  by_cases hstarts : Starts a calls
  swap
  · rw [main_of_not_starts hstarts packet]
    refine ⟨iff_of_true rfl fun h => absurd h hstarts, fun out hout => ?_⟩
    obtain rfl := Option.some.inj hout
    refine ⟨iff_of_false nofun fun h => hstarts h.1, ?_, fun r => ?_, fun r d hd => ?_⟩
    · rw [Bool.and_eq_true, decide_eq_true_iff, Bool.not_eq_true']
    · exact iff_of_false (Nat.not_lt_zero r) fun h => hstarts h.1
    · cases hd
  by_cases hruns : a.Runs calls.sendOk
  swap
  · rw [main_eq_none hstarts hruns packet]
    exact ⟨iff_of_false nofun fun h => hruns (h hstarts), nofun⟩
  rw [main_eq hstarts hruns packet]
  refine ⟨iff_of_true rfl fun _ => hruns, fun out hout => ?_⟩
  obtain rfl := Option.some.inj hout
  obtain ⟨m, hm, htake, hall, hfail⟩ := exists_takeWhile_range calls.sendOk a.numRounds.toNat
  rw [htake]
  refine ⟨?_, ?_, fun r => ?_, fun r d hd => ?_⟩
  · have hiff : (List.range a.numRounds.toNat).all calls.sendOk = true
        ↔ ∀ r < a.numRounds.toNat, calls.sendOk r = true := by
      rw [List.all_eq_true]
      exact forall_congr' fun r => by rw [List.mem_range]
    rw [and_iff_right hstarts, ← hiff]
    dsimp only
    split
    · next h => exact iff_of_true rfl h
    · next h => exact iff_of_false nofun h
  · rw [and_iff_right hstarts.chunkLen_le, Bool.not_eq_true']
  · rw [List.length_map, List.length_range, and_iff_right hstarts]
    refine ⟨fun hr => ⟨by omega, fun r' hr' => hall r' (by omega)⟩, fun ⟨hr, hsent⟩ => ?_⟩
    by_contra hle
    have hbad := hfail (by omega)
    rw [hsent m (by omega)] at hbad
    cases hbad
  · rw [List.getElem?_map, Option.map_eq_some_iff] at hd
    obtain ⟨r', hr', rfl⟩ := hd
    obtain ⟨hlt, hget⟩ := List.getElem?_eq_some_iff.mp hr'
    rw [List.getElem_range] at hget
    subst hget
    rw [List.length_range] at hlt
    obtain ⟨hlength, hhdr, hvalue⟩ := a.decode_datagram hstarts.chunkLen_le r
    refine ⟨hlength, hhdr, fun i hi => ?_⟩
    rw [hvalue i hi, Args.fixedAt, toInt_ofInt_of_isInt32]
    exact hruns r (by omega) (fun r' hr' => hall r' (by omega)) i hi

/-- A worker whose second `sendto` fails. -/
theorem sends_rounds_failing :
    let a := Argv.args ⟨7, 1, 4, 3, 2, some 5, none⟩
    let calls : Calls := ⟨true, true, fun r => r != 1⟩
    ∃ out, main a .zero calls = some out ∧ out.status ≠ 0 ∧ out.warned = false
      ∧ out.sent.length = 1 := by
  intro a calls
  have hstarts : Starts a calls := ⟨by decide, rfl, rfl⟩
  have hruns : a.Runs calls.sendOk := by
    intro r hr _ i hi
    have hr' : r < 3 := hr
    have hi' : i < 2 := hi
    interval_cases r <;> interval_cases i <;> decide +kernel
  obtain ⟨hdefined, hsent⟩ := sends_rounds a .zero calls
  obtain ⟨out, hout⟩ := Option.isSome_iff_exists.mp (hdefined.mpr fun _ => hruns)
  obtain ⟨hstatus, hwarned, hlength, -⟩ := hsent out hout
  have hfails : calls.sendOk 1 ≠ true := by decide
  have hfirst : 0 < out.sent.length := (hlength 0).mpr ⟨hstarts, by decide, by decide⟩
  have hsecond : ¬ 1 < out.sent.length := fun h => hfails (((hlength 1).mp h).2.2 1 le_rfl)
  refine ⟨out, hout, fun h => hfails ((hstatus.mp h).2 1 (by decide)), ?_, by omega⟩
  · rw [← Bool.not_eq_true, hwarned]
    rintro ⟨-, hfits⟩
    have hfit : Binary64.netsumSumFitsI32 a.numWorkers.toNat a.maxAbsGrad = true := by decide +kernel
    rw [hfit] at hfits
    cases hfits

end

/-! ## Deployments -/

/-- A component of a worker of a deployment that passes the check. -/
theorem deployed_values {a : Args} (hone : 1 ≤ a.numWorkers.toNat)
    (hfits : Binary64.netsumSumFitsI32 a.numWorkers.toNat a.maxAbsGrad = true) (hbound : a.Bounded)
    (m : ℕ) : Deployed a.numWorkers.toNat a.maxAbsGrad.val [(a.value m).val] where
  one_le := by exact_mod_cast hone
  fits := by
    refine Binary64.fits_exactly ?_ hfits
    have hlt := a.numWorkers.isLt
    rw [Nat.abs_cast]
    omega
  length_le := by exact_mod_cast hone
  abs_le v hv := by
    rw [List.mem_singleton.mp hv]
    exact Args.abs_value_le hbound m

theorem fixed_value {a : Args} (hone : 1 ≤ a.numWorkers.toNat)
    (hfits : Binary64.netsumSumFitsI32 a.numWorkers.toNat a.maxAbsGrad = true) (hbound : a.Bounded)
    (m : ℕ) : IsInt32 (fixed (a.value m).val) :=
  ((deployed_values hone hfits hbound m).netsumToFixed_eq List.mem_cons_self).1

end NetSum.Worker
