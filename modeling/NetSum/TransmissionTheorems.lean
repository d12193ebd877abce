import NetSum.UserspaceAgg.MainLoopTheorems
import NetSum.XdpAgg.EffectTheorems

/-!
# The transmitted datagram

`agg.c` writes the packet of a completed slot from scratch; the XDP program rewrites the frame that
arrived last. What it rewrites is right, but it does not touch `flags` and does not cut off what
follows the values. So the datagram it transmits is the one that `agg.c` sends exactly when the
frame has no flags and ends with its values (`transmitted_datagram_iff`, `flags_kept`).
-/

namespace NetSum

open NetSum.Lib NetSum.Protocol NetSum.Aggregation UserspaceAgg XdpAgg

/-- The frame `out` carries, from the gradient header to its end, what `agg.c` sends for a slot with
the key, chunk length and sums of the slot that `frame` completed. -/
def SentAlike (maps : Maps) (frame out : Bytes) : Prop :=
  ∀ (st : State) (ev : Event) (hdr : GradHdr) (t : Tables) (i : SlotIdx), hdr.key = keyOf frame →
    (t.gSlots i).chunkLen = (slotAfter maps frame).chunkLen →
    (t.gSlots i).sum = (slotAfter maps frame).sum →
    (emitPhase st ev hdr (t, .complete, some i)).2.2.2 = some (payload out)

/-- The frame has no flags and ends with its values. -/
def EndsWithValues (frame : Bytes) : Prop :=
  (GradHdr.decode (payload frame)).flags = 0
    ∧ frame.length = valuesOff + 4 * (GradHdr.decode (payload frame)).chunkLen.toNat

instance (frame : Bytes) : Decidable (EndsWithValues frame) :=
  inferInstanceAs (Decidable (_ ∧ _))

section

variable {maps : Maps} {frame out : Bytes} {cfg : NetsumConfig} {T : Tally}

/-- A forwarded frame carries an emitted packet when nothing is left over. -/
theorem emittedFor_of_forwards (h : Forwards cfg frame out T) (hends : EndsWithValues frame)
    (hlen : T.chunkLen = (GradHdr.decode (payload frame)).chunkLen.toNat) :
    EmittedFor (payload out) (keyOf frame) T where
  length_eq := by
    rw [length_payload, h.length_eq, hends.2, hlen]
    simp only [valuesOff]
    omega
  key_eq := by rw [h.hdr_eq]; rfl
  workerId_eq := by rw [h.hdr_eq]
  numWorkers_eq := by rw [h.hdr_eq]
  chunkLen_eq := by rw [h.hdr_eq]; exact hlen.symm
  flags_eq := by rw [h.hdr_eq]; exact hends.1
  value_eq i hi := h.value_eq i (hlen ▸ hi)

/-- A packet depends on the chunk length and the sums of its tally. -/
theorem emittedFor_congr {p : Bytes} {k : GradSlotKey} {T' : Tally} (h : EmittedFor p k T')
    (hlen : T'.chunkLen = T.chunkLen) (hsum : T'.sum = T.sum) : EmittedFor p k T where
  length_eq := hlen ▸ h.length_eq
  key_eq := h.key_eq
  workerId_eq := h.workerId_eq
  numWorkers_eq := h.numWorkers_eq
  chunkLen_eq := hlen ▸ h.chunkLen_eq
  flags_eq := h.flags_eq
  value_eq i hi := hsum ▸ h.value_eq i (hlen ▸ hi)

/-- What `agg.c` sends for a slot with these contents. -/
theorem emitPhase_emits (st : State) (ev : Event) {hdr : GradHdr} {t : Tables} {i : SlotIdx}
    {g : GradSlot} (hkey : hdr.key = keyOf frame) (hlen : (t.gSlots i).chunkLen = g.chunkLen)
    (hsum : (t.gSlots i).sum = g.sum) (hle : g.chunkLen.toNat ≤ netsumMaxChunkLen) :
    ∃ p, (emitPhase st ev hdr (t, .complete, some i)).2.2.2 = some p
      ∧ EmittedFor p (keyOf frame) g.tally := by
  have hemitted := emittedFor_writeOutPacket st.outPacket hdr.key (t.gSlots i) (hlen ▸ hle)
  rw [hkey] at hemitted
  refine ⟨_, ?_, emittedFor_congr hemitted (congrArg BitVec.toNat hlen) hsum⟩
  rw [← hkey]
  rfl

/-- **When a transmitted frame carries the packet of `agg.c`.** -/
theorem sentAlike_iff {r : Maps × Exit × Bytes} (h : Transmits maps frame cfg r) :
    SentAlike maps frame r.2.2 ↔ EndsWithValues frame := by
  obtain ⟨-, -, hforwards⟩ := h.frame_spec
  have hL : (slotAfter maps frame).chunkLen = (GradHdr.decode (payload frame)).chunkLen :=
    h.chunkLen_eq
  have hlen : (slotAfter maps frame).tally.chunkLen
      = (GradHdr.decode (payload frame)).chunkLen.toNat := congrArg BitVec.toNat hL
  have hle : (slotAfter maps frame).chunkLen.toNat ≤ netsumMaxChunkLen :=
    hL ▸ h.counts.2.chunkLen_le
  constructor
  · intro halike
    -- some slot of `agg.c` with these contents, sent from any buffer
    let s : Slot :=
      { Slot.zero with
        chunkLen := (slotAfter maps frame).chunkLen
        sum := (slotAfter maps frame).sum }
    let t : Tables := ⟨fun _ => s, fun _ => JobEntry.zero⟩
    let hdr := GradHdr.decode (payload frame)
    let st := State.init Buffer.zero Buffer.zero 0
    let ev := Event.deliver []
    obtain ⟨p, hp, hemitted⟩ := emitPhase_emits st ev (show hdr.key = _ from rfl)
      (show (t.gSlots 0).chunkLen = _ from rfl) rfl hle
    rw [halike st ev hdr t 0 rfl rfl rfl, Option.some.injEq] at hp
    subst hp
    refine ⟨?_, ?_⟩
    · have hflags := hemitted.flags_eq
      rwa [hforwards.hdr_eq] at hflags
    · have hlength := hemitted.length_eq
      have hframe := h.counts.1.length_le
      rw [length_payload, hforwards.length_eq, hlen] at hlength
      simp only [valuesOff] at hframe ⊢
      omega
  · intro hends st ev hdr t i hkey hchunk hsum
    obtain ⟨p, hp, hemitted⟩ := emitPhase_emits st ev hkey hchunk hsum hle
    rw [hp, hemitted.unique (emittedFor_of_forwards hforwards hends hlen) hle]

end

/-- **The transmitted datagram.** In every run, a frame returned with `XDP_TX` carries the datagram
that `agg.c` sends exactly when the frame that completed the key has no flags and ends with its
values. -/
theorem transmitted_datagram_iff (es : List XdpEvent) (ev : XdpEvent)
    (htx : (xdpStep (runState xdpStep Maps.empty es) ev).2.1.action = .tx) :
    SentAlike ((runState xdpStep Maps.empty es).withConfig ev.configMap) ev.frame
        (xdpStep (runState xdpStep Maps.empty es) ev).2.2
      ↔ EndsWithValues ev.frame := by
  obtain ⟨cfg, h⟩ := transmits_of_tx htx
  exact sentAlike_iff h

/-- A round of one packet with the given flags, and a parameter server configured. -/
def flagged (flags : BitVec 16) : XdpEvent :=
  ⟨configured ⟨fun _ => 0xaa, 0x0200000a, 0x9526, 0⟩,
    frameFrom 52 32 0x66b7 (workerPacket ⟨1, 0, 0, 0, 1, 1, flags⟩ fun _ => 7)⟩

/-- Without flags the program transmits what `agg.c` sends. -/
theorem flagged_zero_sentAlike :
    SentAlike (Maps.empty.withConfig (flagged 0).configMap) (flagged 0).frame
      (xdpStep Maps.empty (flagged 0)).2.2 :=
  (transmitted_datagram_iff [] (flagged 0) (by decide +kernel)).mpr (by decide +kernel)

/-- A flag of the frame that completes the key is transmitted. -/
theorem flags_kept :
    (xdpStep Maps.empty (flagged 1)).2.1.action = .tx
      ∧ (GradHdr.decode (payload (xdpStep Maps.empty (flagged 1)).2.2)).flags = 1
      ∧ ¬ SentAlike (Maps.empty.withConfig (flagged 1).configMap) (flagged 1).frame
        (xdpStep Maps.empty (flagged 1)).2.2 := by
  have htx : (xdpStep Maps.empty (flagged 1)).2.1.action = .tx := by decide +kernel
  obtain ⟨cfg, h⟩ := transmits_of_tx htx
  refine ⟨htx, by decide +kernel, fun halike => ?_⟩
  have hends := (sentAlike_iff h).mp halike
  exact absurd hends (by decide +kernel)

end NetSum
