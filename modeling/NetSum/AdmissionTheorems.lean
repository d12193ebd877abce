import NetSum.Protocol.StatelessChecks
import NetSum.UserspaceAgg.MainLoopTheorems
import NetSum.XdpAgg.DatagramTheorems
import NetSum.XdpAgg.Invariants

/-!
# What the two aggregators admit

`agg.c` looks up a slot for the datagrams that are well formed (`mainStep_pastChecks`). The XDP
program sees frames, and takes a frame's payload to end where the frame does. On the payload it
makes the same checks, but for the fan-in, which it leaves unread when the key has a slot
(`netsumXdpAggregate_pastChecks`). So on a frame that ends with its datagram the four checks, the
two in the programs and the two extracted ones, agree (`stateless_checks`).

What `agg.c` gets from a frame is up to the host's stack, and no stack goes by the same checks. The
program never reads `udp->len`, so it admits a frame on bytes that are no part of the datagram
(`trailing_value`); it verifies no checksum; and it lets packets with options by, which a stack
delivers. `matchesDatagram_iff` says for which frames none of this matters.
-/

namespace NetSum

open NetSum.Lib NetSum.Protocol NetSum.Aggregation UserspaceAgg XdpAgg

/-! ## Past the checks of `agg.c` -/

/-- The iteration called `find_or_create_slot`. -/
def UserspaceAgg.Verdict.PastChecks (v : Verdict) : Prop :=
  v ∈ [.admissionReject, .chunkLenMismatch, .duplicate, .absorbed, .complete]

instance (v : Verdict) : Decidable v.PastChecks := inferInstanceAs (Decidable (_ ∈ _))

theorem screen_not_pastChecks {d : Bytes} {v : Verdict} (h : screen d = some v) :
    ¬ v.PastChecks := by
  rcases screen_verdict h with rfl | rfl | rfl | rfl | rfl <;> decide

theorem contribute_pastChecks (ev : Event) (t : Tables) (i : SlotIdx) (hdr : GradHdr)
    (values : ℕ → BitVec 32) : (contribute ev t i hdr values).2.1.PastChecks := by
  unfold contribute accumulateInto
  dsimp only
  split_ifs
  all_goals simp [Verdict.PastChecks]

theorem processContribution_pastChecks (q : ℤ) (ev : Event) (t : Tables) (hdr : GradHdr)
    (values : ℕ → BitVec 32) : (processContribution q ev t hdr values).2.1.PastChecks := by
  unfold processContribution
  split
  · exact (by decide : Verdict.PastChecks .admissionReject)
  · exact contribute_pastChecks ..

theorem emitPhase_verdict (st : State) (ev : Event) (hdr : GradHdr)
    (r : Tables × Verdict × Option SlotIdx) : (emitPhase st ev hdr r).2.1 = r.2.1 := by
  unfold emitPhase
  split <;> rfl

theorem receivePhase_pastChecks (args : Args) (st : State) (ev : Event) :
    (receivePhase args st ev).2.1.PastChecks ↔ ∃ d, ev.received = some d ∧ WellFormed d := by
  cases hrecv : ev.received with
  | none =>
    rw [receivePhase, hrecv]
    exact iff_of_false (by decide : ¬ Verdict.PastChecks .short) nofun
  | some d =>
    by_cases hd : WellFormed d
    · rw [receivePhase_of_wellFormed args st hrecv hd, slotPhase, emitPhase_verdict]
      exact iff_of_true (processContribution_pastChecks ..) ⟨d, rfl, hd⟩
    · obtain ⟨v, hv⟩ := Option.ne_none_iff_exists'.mp (mt (screen_eq_none d).mp hd)
      rw [receivePhase_of_screened args st hrecv hv]
      refine iff_of_false (screen_not_pastChecks hv) ?_
      rintro ⟨d', hd', hwf⟩
      exact hd (Option.some.inj hd' ▸ hwf)

/-- An iteration looks up a slot exactly for a well-formed datagram. -/
theorem mainStep_pastChecks (args : Args) (st : State) (ev : Event) :
    (mainStep args st ev).2.verdict.PastChecks ↔ ∃ d, ev.received = some d ∧ WellFormed d :=
  receivePhase_pastChecks args _ ev

/-! ## Past the checks of the XDP program -/

/-- The program found a slot for the frame, or got as far as the update that creates one. -/
def XdpAgg.Exit.ReachesSlot (e : Exit) : Prop :=
  e ∈ [.mapFull, .chunkLenMismatch, .duplicate, .absorbed, .noConfig, .complete]

/-- The program found a slot for the frame, or asked the quota whether to create one. -/
def XdpAgg.Exit.PastChecks (e : Exit) : Prop := e = .overQuota ∨ e.ReachesSlot

instance (e : Exit) : Decidable e.ReachesSlot := inferInstanceAs (Decidable (_ ∈ _))

instance (e : Exit) : Decidable e.PastChecks := inferInstanceAs (Decidable (_ ∨ _))

theorem action_ne_pass {exit : Exit} (h : exit.PastChecks) : exit.action ≠ .pass := by
  revert h
  cases exit <;> decide

theorem parse_not_pastChecks {frame : Bytes} {exit : Exit} (h : parse frame = .error exit) :
    ¬ exit.PastChecks := by
  by_cases hg : IsGradient frame
  · rw [parse_of_isGradient hg] at h
    split_ifs at h
    all_goals
      cases h
      decide
  · obtain ⟨exit', hparse, haction⟩ := parse_of_not_isGradient hg
    rw [hparse, Except.error.injEq] at h
    exact fun hpast => action_ne_pass hpast (h ▸ haction)

/-- A key without a slot needs a fan-in from 1 to 256. -/
theorem findOrCreate_pastChecks (maps : Maps) (p : Parsed) :
    (∀ exit, (findOrCreate maps p).2 = .error exit → exit.PastChecks)
      ↔ (maps.slotMap.lookup p.key).isSome ∨ FanInOk p.numWorkers := by
  have hfan := fanIn_outOfRange_iff p.numWorkers
  unfold findOrCreate
  cases hk : maps.slotMap.lookup p.key with
  | some s => exact iff_of_true nofun (.inl rfl)
  | none =>
    -- without a slot the fan-in is checked before the quota is asked
    by_cases hok : FanInOk p.numWorkers
    · rw [if_neg (mt hfan.mp (not_not_intro hok))]
      refine iff_of_true (fun exit h => ?_) (.inr hok)
      split_ifs at h
      · cases h
        decide
      · dsimp only at h
        split at h
        · cases h
          decide
        · split_ifs at h
    · rw [if_pos (hfan.mpr hok)]
      refine iff_of_false (fun h => ?_) (not_or.mpr ⟨nofun, hok⟩)
      exact absurd (h _ rfl) (by decide)

theorem findOrCreate_ne_overQuota {maps : Maps} {p : Parsed}
    (h : overQuota maps p.key.jobId = false) : (findOrCreate maps p).2 ≠ .error .overQuota := by
  unfold findOrCreate
  cases maps.slotMap.lookup p.key with
  | some s => nofun
  | none =>
    rw [h, if_neg Bool.false_ne_true]
    dsimp only
    split
    · nofun
    · split
      · nofun
      · split <;> nofun

theorem aggregate_reachesSlot (maps : Maps) (p : Parsed) (slot : GradSlot) (frame : Bytes) :
    (aggregate maps p slot frame).2.1.ReachesSlot := by
  unfold aggregate finish
  dsimp only
  split
  · exact (by decide : Exit.ReachesSlot .chunkLenMismatch)
  · exact (by decide : Exit.ReachesSlot .duplicate)
  · exact (by decide : Exit.ReachesSlot .absorbed)
  · split
    · exact (by decide : Exit.ReachesSlot .noConfig)
    · exact (by decide : Exit.ReachesSlot .complete)

/-- A frame gets past the checks when it counts, and its key has a slot or can have one. -/
theorem netsumXdpAggregate_pastChecks (maps : Maps) (frame : Bytes) :
    (netsumXdpAggregate maps frame).2.1.PastChecks
      ↔ Counts frame ∧ ((maps.slotMap.lookup (keyOf frame)).isSome
        ∨ FanInOk (GradHdr.decode (payload frame)).numWorkers) := by
  unfold netsumXdpAggregate
  cases hparse : parse frame with
  | error exit =>
    refine iff_of_false (parse_not_pastChecks hparse) fun h => ?_
    rw [parse_eq_ok_iff.mpr ⟨h.1, rfl⟩] at hparse
    cases hparse
  | ok p =>
    obtain ⟨hcounts, rfl⟩ := parse_eq_ok_iff.mp hparse
    have hfind := findOrCreate_pastChecks maps (.ofPayload (payload frame))
    refine Iff.trans ?_ (hfind.trans ⟨fun h => ⟨hcounts, h⟩, And.right⟩)
    dsimp only
    generalize findOrCreate maps (.ofPayload (payload frame)) = f
    rcases f with ⟨maps', exit | slot⟩
    · exact ⟨fun h exit' h' => Except.error.inj h' ▸ h, fun h => h exit rfl⟩
    · exact iff_of_true (.inr (aggregate_reachesSlot ..)) nofun

/-- A key without a slot whose job is below its quota is only kept out by the checks. -/
theorem netsumXdpAggregate_reachesSlot {maps : Maps} {frame : Bytes}
    (hk : maps.slotMap.lookup (keyOf frame) = none)
    (hquota : overQuota maps (keyOf frame).jobId = false) :
    (netsumXdpAggregate maps frame).2.1.ReachesSlot
      ↔ Counts frame ∧ FanInOk (GradHdr.decode (payload frame)).numWorkers := by
  -- below the quota, the exit that tells the two sets apart is not taken
  have hne : (netsumXdpAggregate maps frame).2.1 ≠ .overQuota := by
    unfold netsumXdpAggregate
    cases hparse : parse frame with
    | error exit =>
      intro h
      exact parse_not_pastChecks hparse (.inl h)
    | ok p =>
      obtain ⟨hcounts, rfl⟩ := parse_eq_ok_iff.mp hparse
      have hfind := findOrCreate_ne_overQuota (p := .ofPayload (payload frame)) hquota
      dsimp only
      generalize findOrCreate maps (.ofPayload (payload frame)) = f at hfind
      rcases f with ⟨maps', exit | slot⟩
      · exact fun h => hfind (congrArg Except.error h)
      · intro h
        have hreach := aggregate_reachesSlot maps' (.ofPayload (payload frame)) slot frame
        rw [h] at hreach
        exact absurd hreach (by decide)
  have hpast := netsumXdpAggregate_pastChecks maps frame
  rw [hk] at hpast
  constructor
  · intro h
    obtain ⟨hcounts, hslot | hfan⟩ := hpast.mp (.inr h)
    · cases hslot
    · exact ⟨hcounts, hfan⟩
  · rintro ⟨hcounts, hfan⟩
    exact (hpast.mpr ⟨hcounts, .inr hfan⟩).resolve_left hne

/-! ## The datagram in a frame -/

/-- **When the delivered datagram is admitted.** Its frame counts and has a possible fan-in, and
the datagram reaches to the end of the values. -/
theorem wellFormed_udpPayload {frame : Bytes} (h : HoldsDatagram netsumPort frame) :
    WellFormed (udpPayload frame) ↔ Counts frame
      ∧ FanInOk (GradHdr.decode (payload frame)).numWorkers
      ∧ udpHdrSize + netsumHdrSize + 4 * (GradHdr.decode (payload frame)).chunkLen.toNat
        ≤ udpLen frame := by
  obtain ⟨hlen, hle⟩ := h.length_udpPayload
  constructor
  · intro hd
    -- the datagram has a header, and the frame has it in the same place
    have hhdr := hd.hdr_le
    have hdec : GradHdr.decode (udpPayload frame) = GradHdr.decode (payload frame) :=
      decode_udpPayload (by omega)
    have hvalues := hd.values_le
    rw [hdec] at hvalues
    have hg : IsGradient frame := by
      refine ⟨?_, h.ip, ?_, h.udp, h.port⟩
      · show hdrOff + netsumHdrSize ≤ frame.length
        omega
      · rw [h.version_ihl]
        rfl
    have hs : Sound (payload frame) := by
      refine ⟨hdec ▸ hd.chunkLen_le, ?_, hdec ▸ hd.workerId_lt⟩
      rw [length_payload]
      omega
    exact ⟨⟨hg, hs⟩, hdec ▸ ⟨hd.numWorkers_pos, hd.numWorkers_le⟩, by omega⟩
  · rintro ⟨⟨-, hs⟩, hfan, hreach⟩
    have hdec : GradHdr.decode (udpPayload frame) = GradHdr.decode (payload frame) :=
      decode_udpPayload (by omega)
    have hchunk := hs.chunkLen_le
    have hworker := hs.workerId_lt
    rw [← hdec] at hfan hreach hchunk hworker
    exact ⟨by omega, hchunk, by omega, hworker, hfan.1, hfan.2⟩

/-- What the datagram carries: a gradient header and all its values, in an IPv4 packet without
options, sent to the gradient port. -/
structure Carries (frame : Bytes) : Prop where
  ip : be16 frame 12 = 0x0800#16
  version_ihl : byteAt frame ipOff = 0x45#8
  udp : byteAt frame (ipOff + 9) = 17#8
  port : (be16 frame (udpOff + 2)).toNat = netsumPort
  values_le : udpHdrSize + netsumHdrSize + 4 * (GradHdr.decode (payload frame)).chunkLen.toNat
    ≤ udpLen frame
  udpLen_le : udpOff + udpLen frame ≤ frame.length

section

variable (stack : UdpStack netsumPort) (maps : Maps) (frame : Bytes)

/-- The program goes by the datagram: it looks up a slot only for a frame whose datagram carries
the values, all the values it may add are among them, and it admits the frame exactly when
`agg.c` admits the datagram that the stack delivers from it. -/
structure MatchesDatagram : Prop where
  carries : ∀ p, parse frame = .ok p → Carries frame
  values_inside : ∀ p, parse frame = .ok p → ∀ i < p.chunkLen.toNat,
    valuesOff + 4 * (i + 1) ≤ udpOff + udpLen frame
  admits_iff : ∀ args st ev, ev.received = stack.deliver frame →
    ((netsumXdpAggregate maps frame).2.1.PastChecks ↔ (mainStep args st ev).2.verdict.PastChecks)

/-- The IP version is 4, and the UDP length agrees with the values and the frame; a frame for a
slot that is there has a possible fan-in; and if the fan-in is possible, the packet is for the
host, it is no fragment, its length agrees with the datagram and the frame, and the checksums
verify. -/
structure InOrder : Prop where
  version_ihl : byteAt frame ipOff = 0x45#8
  values_le : udpHdrSize + netsumHdrSize + 4 * (GradHdr.decode (payload frame)).chunkLen.toNat
    ≤ udpLen frame
  udpLen_le : udpOff + udpLen frame ≤ frame.length
  fanIn : (maps.slotMap.lookup (keyOf frame)).isSome →
    FanInOk (GradHdr.decode (payload frame)).numWorkers
  packet : FanInOk (GradHdr.decode (payload frame)).numWorkers →
    stack.ForHost frame ∧ be16 frame (ipOff + 6) &&& 0x3fff#16 = 0#16
      ∧ ipHdrSize + udpLen frame ≤ totLen frame ∧ ethHdrSize + totLen frame ≤ frame.length
      ∧ Verifies frame

/-- The program lets the frame by, since it is not marked as IPv4 or has IP options, while the
stack delivers a datagram from it that `agg.c` admits. -/
def Overlooked : Prop :=
  (etherType frame ≠ 0x0800#16 ∨ byteAt frame ipOff &&& 0x0f#8 ≠ 5#8)
    ∧ ∃ d, stack.deliver frame = some d ∧ WellFormed d

variable {stack maps frame}

/-- **When the delivered datagram is admitted**, in a packet without options. -/
theorem delivers_wellFormed_iff (hip : etherType frame = 0x0800#16)
    (hihl : byteAt frame ipOff &&& 0x0f#8 = 5#8) :
    (∃ d, stack.deliver frame = some d ∧ WellFormed d)
      ↔ stack.ForHost frame ∧ HoldsDatagram netsumPort frame ∧ Verifies frame
        ∧ WellFormed (udpPayload frame) := by
  have hdeliver := stack.deliver_iff hip
  simp only [holdsUdp_iff_of_ihl hihl, udpData_eq_udpPayload hihl] at hdeliver
  constructor
  · rintro ⟨d, hd, hwf⟩
    obtain ⟨⟨hhost, hholds, hsums⟩, rfl⟩ := (hdeliver d).mp hd
    exact ⟨hhost, hholds, hsums, hwf⟩
  · rintro ⟨hhost, hholds, hsums, hwf⟩
    exact ⟨_, (hdeliver _).mpr ⟨⟨hhost, hholds, hsums⟩, rfl⟩, hwf⟩

/-- What a frame that counts still lacks to hold a datagram. -/
theorem InOrder.holdsDatagram (h : InOrder stack maps frame) (hcounts : Counts frame)
    (hfan : FanInOk (GradHdr.decode (payload frame)).numWorkers) : HoldsDatagram netsumPort frame := by
  obtain ⟨-, hfrag, hle, htot, -⟩ := h.packet hfan
  have hvalues := h.values_le
  exact ⟨hcounts.1.ip, h.version_ihl, hfrag, hcounts.1.udp, hcounts.1.port, by omega, hle, htot⟩

/-- A frame that counts is admitted with its datagram exactly if it is in order. -/
theorem InOrder.admits_iff (h : InOrder stack maps frame) (hcounts : Counts frame) :
    ((maps.slotMap.lookup (keyOf frame)).isSome
        ∨ FanInOk (GradHdr.decode (payload frame)).numWorkers)
      ↔ ∃ d, stack.deliver frame = some d ∧ WellFormed d := by
  rw [delivers_wellFormed_iff hcounts.1.ip hcounts.1.no_options]
  constructor
  · intro hslot
    have hfan := hslot.elim h.fanIn id
    have hholds := h.holdsDatagram hcounts hfan
    obtain ⟨hhost, -, -, -, hsums⟩ := h.packet hfan
    exact ⟨hhost, hholds, hsums, (wellFormed_udpPayload hholds).mpr ⟨hcounts, hfan, h.values_le⟩⟩
  · rintro ⟨-, hholds, -, hwf⟩
    exact .inr ((wellFormed_udpPayload hholds).mp hwf).2.1

/-- A frame that does not count is not overlooked exactly if nothing is delivered from it that is
admitted. -/
theorem delivers_wellFormed_of_not_counts (h : ¬ Overlooked stack frame) (hcounts : ¬ Counts frame) :
    ¬ ∃ d, stack.deliver frame = some d ∧ WellFormed d := by
  intro hd
  by_cases hplain : etherType frame = 0x0800#16 ∧ byteAt frame ipOff &&& 0x0f#8 = 5#8
  · obtain ⟨-, hholds, -, hwf⟩ := (delivers_wellFormed_iff hplain.1 hplain.2).mp hd
    exact hcounts ((wellFormed_udpPayload hholds).mp hwf).1
  · exact h ⟨not_and_or.mp hplain, hd⟩

/-- **When the program goes by the datagram.** A frame that passes the program's header checks
must be in order, and a frame that is let by must not carry what `agg.c` admits. -/
theorem matchesDatagram_iff :
    MatchesDatagram stack maps frame
      ↔ (Counts frame → InOrder stack maps frame) ∧ ¬ Overlooked stack frame := by
  constructor
  · intro h
    -- any state of `agg.c` will do, since its checks do not look at it
    have hiff := h.admits_iff ⟨0, 0⟩ (State.init Buffer.zero Buffer.zero 0)
      ⟨0, 0, 0, 0, stack.deliver frame, true⟩ rfl
    rw [netsumXdpAggregate_pastChecks, mainStep_pastChecks] at hiff
    refine ⟨fun hcounts => ?_, ?_⟩
    · have hcarries := h.carries _ (parse_eq_ok_iff.mpr ⟨hcounts, rfl⟩)
      rw [delivers_wellFormed_iff hcounts.1.ip hcounts.1.no_options] at hiff
      refine ⟨hcarries.version_ihl, hcarries.values_le, hcarries.udpLen_le, fun hslot => ?_,
        fun hfan => ?_⟩
      · obtain ⟨-, hholds, -, hwf⟩ := hiff.mp ⟨hcounts, .inl hslot⟩
        exact ((wellFormed_udpPayload hholds).mp hwf).2.1
      · obtain ⟨hhost, hholds, hsums, -⟩ := hiff.mp ⟨hcounts, .inr hfan⟩
        exact ⟨hhost, hholds.unfragmented, hholds.udpLen_le, hholds.totLen_le, hsums⟩
    · rintro ⟨hother, hd⟩
      obtain ⟨hcounts, -⟩ := hiff.mpr hd
      exact hother.elim (fun hne => hne hcounts.1.ip) fun hne => hne hcounts.1.no_options
  · rintro ⟨horder, hlet⟩
    refine ⟨fun p hp => ?_, fun p hp i hi => ?_, fun args st ev hrecv => ?_⟩
    · obtain ⟨hcounts, -⟩ := parse_eq_ok_iff.mp hp
      have h := horder hcounts
      exact ⟨hcounts.1.ip, h.version_ihl, hcounts.1.udp, hcounts.1.port, h.values_le, h.udpLen_le⟩
    · obtain ⟨hcounts, rfl⟩ := parse_eq_ok_iff.mp hp
      have hvalues := (horder hcounts).values_le
      have hi' : i < (GradHdr.decode (payload frame)).chunkLen.toNat := hi
      show udpOff + udpHdrSize + netsumHdrSize + 4 * (i + 1) ≤ udpOff + udpLen frame
      omega
    · rw [netsumXdpAggregate_pastChecks, mainStep_pastChecks, hrecv]
      by_cases hcounts : Counts frame
      · rw [and_iff_right hcounts]
        exact (horder hcounts).admits_iff hcounts
      · exact iff_of_false (fun h => hcounts h.1) (delivers_wellFormed_of_not_counts hlet hcounts)

end

/-- The host that the frames below are sent to. -/
def aggHost : UdpStack netsumPort := .host (List.replicate 6 0) 0x0a000002 netsumPort

/-- A frame that ends with its datagram, in which everything verifies. -/
theorem matchesDatagram_unpadded :
    MatchesDatagram aggHost Maps.empty
      (frameFrom 52 32 0x66b7 (workerPacket ⟨1, 0, 0, 0, 2, 1, 0⟩ fun _ => 7)) := by
  refine matchesDatagram_iff.mpr ⟨fun _ => ?_, fun h => ?_⟩
  · refine ⟨by decide +kernel, by decide +kernel, by decide +kernel, fun _ => by decide +kernel,
      fun _ => ⟨⟨by decide +kernel, by decide +kernel⟩, by decide +kernel, by decide +kernel,
        by decide +kernel, by decide +kernel, .inl (by decide +kernel)⟩⟩
  · revert h
    exact fun h => h.1.elim (absurd (by decide +kernel)) (absurd (by decide +kernel))

/-- The datagram is a header that claims one value; the frame has four bytes behind it. -/
def trailingFrame : Bytes :=
  frameFrom 48 28 0x66bb (workerPacket ⟨1, 0, 0, 0, 2, 1, 0⟩ fun _ => 7)

/-- **Bytes behind the datagram are summed.** The program adds 7, while `agg.c` drops the datagram
as truncated. -/
theorem trailing_value :
    let r := netsumXdpAggregate Maps.empty trailingFrame
    aggHost.deliver trailingFrame
        = some ((workerPacket ⟨1, 0, 0, 0, 2, 1, 0⟩ fun _ => 7).take 20)
      ∧ r.2.1 = .absorbed
      ∧ (r.1.slotMap.lookup ⟨1, 0, 0⟩).map (fun s => s.sum 0) = some 7
      ∧ (mainStep ⟨0, 0⟩ (State.init Buffer.zero Buffer.zero 0)
        ⟨0, 0, 0, 0, aggHost.deliver trailingFrame, true⟩).2.verdict = .truncated
      ∧ ¬ MatchesDatagram aggHost Maps.empty trailingFrame := by
  refine ⟨by decide +kernel, by decide +kernel, by decide +kernel, by decide +kernel, fun h => ?_⟩
  have hp := parse_eq_ok_iff.mpr ⟨(by decide +kernel : Counts trailingFrame), rfl⟩
  have hvalues := (h.carries _ hp).values_le
  revert hvalues
  decide +kernel

/-! ## Four checks -/

/-- **The stateless checks agree and accept exactly their grammar.** They read nothing past the end
of the datagram, and accept what `agg.c` looks up a slot for, and what the XDP program creates a
slot for when the datagram fills its frame, its key has no slot and its job is below its quota. -/
theorem stateless_checks (d : Bytes) :
    ∃ result : Option NetsumParseResult,
      aggParseStatelessChecked d = .ok result ∧ xdpParseStateless d = .ok result
      ∧ (∀ r, result = some r → r.chunkLen = be16 d 16 ∧ r.workerId = be16 d 12
        ∧ r.numWorkers = be16 d 14)
      ∧ (result.isSome ↔ netsumHdrSize ≤ d.length ∧ (be16 d 16).toNat ≤ netsumMaxChunkLen
        ∧ netsumHdrSize + 4 * (be16 d 16).toNat ≤ d.length ∧ (be16 d 12).toNat < maxTrackedWorkers
        ∧ 1 ≤ (be16 d 14).toNat ∧ (be16 d 14).toNat ≤ maxTrackedWorkers)
      ∧ (∀ args st ev, ev.received = some d →
        (result.isSome ↔ (mainStep args st ev).2.verdict.PastChecks))
      ∧ ∀ maps frame, HoldsDatagram netsumPort frame → udpPayload frame = d → payload frame = d →
        maps.slotMap.lookup (keyOf frame) = none → overQuota maps (keyOf frame).jobId = false →
        (result.isSome ↔ (netsumXdpAggregate maps frame).2.1.ReachesSlot) := by
  refine ⟨aggParseStateless d, aggParseStatelessChecked_eq d, xdpParseStateless_eq d,
    fun r => aggParseStateless_eq_some, ?_, ?_, ?_⟩
  · exact (aggParseStateless_isSome d).trans (wellFormed_iff d)
  · intro args st ev hrecv
    rw [aggParseStateless_isSome, mainStep_pastChecks, hrecv]
    exact ⟨fun h => ⟨d, rfl, h⟩, fun ⟨d', hd', h⟩ => Option.some.inj hd' ▸ h⟩
  · intro maps frame hholds hd hpay hk hquota
    rw [aggParseStateless_isSome, netsumXdpAggregate_reachesSlot hk hquota, ← hd,
      wellFormed_udpPayload hholds]
    constructor
    · rintro ⟨hcounts, hfan, -⟩
      exact ⟨hcounts, hfan⟩
    · rintro ⟨hcounts, hfan⟩
      refine ⟨hcounts, hfan, ?_⟩
      -- the payload is the datagram, to the end of the frame
      have hlen := hholds.length_udpPayload.1
      have hvalues := hcounts.2.values_le
      rw [hd, ← hpay] at hlen
      omega

/-- A frame that ends with its datagram. -/
theorem stateless_checks_unpadded :
    let d := workerPacket ⟨1, 0, 0, 0, 2, 1, 0⟩ fun _ => 7
    let frame := frameFrom 52 32 0x66b7 d
    (∃ r, xdpParseStateless d = .ok (some r))
      ∧ (netsumXdpAggregate Maps.empty frame).2.1.ReachesSlot := by
  intro d frame
  obtain ⟨result, -, hxdp, -, hgrammar, -, hframe⟩ := stateless_checks d
  have hsome : result.isSome := hgrammar.mpr (by decide +kernel)
  obtain ⟨r, rfl⟩ := Option.isSome_iff_exists.mp hsome
  refine ⟨⟨r, hxdp⟩, (hframe Maps.empty frame ?_ ?_ ?_ ?_ ?_).mp hsome⟩
  · decide +kernel
  · decide +kernel
  · decide +kernel
  · exact BoundedMap.lookup_empty _
  · decide +kernel

end NetSum
