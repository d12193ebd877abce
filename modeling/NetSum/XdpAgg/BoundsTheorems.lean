import NetSum.Lib.Checked
import NetSum.XdpAgg.Invariants

/-!
# Accesses to the packet

The program with every load and store of the packet checked against `data_end`. The re-check in
front of each value, which breaks off the loop in the source, counts as a place that is not
reached. No run faults, whatever the frame and the maps (`checkedNetsumXdpAggregate_eq`), so no
access is out of bounds and no loop over the values is cut short
(`netsumXdpAggregate_accesses`).
-/

namespace NetSum.XdpAgg

open NetSum.Lib NetSum.Protocol NetSum.Aggregation

/-! ## The checked program -/

/-- `parse` with its loads checked. -/
def checkedParse (frame : Bytes) : Checked (Except Exit Parsed) := do
  if frame.length < ethHdrSize then return .error .shortEth
  let hProto ← checkedLoad16 frame 12
  if netsumBpfNtohs hProto ≠ 0x0800#16 then return .error .notIp
  if frame.length < udpOff then return .error .shortIp
  let ihlVersion ← checkedByteAt frame ipOff
  if ihlVersion &&& 0x0f#8 ≠ 5#8 then return .error .ipOptions
  let protocol ← checkedByteAt frame (ipOff + 9)
  if protocol ≠ 17#8 then return .error .notUdp
  if frame.length < hdrOff then return .error .shortUdp
  let dest ← checkedLoad16 frame (udpOff + 2)
  if (netsumBpfNtohs dest).toNat ≠ netsumPort then return .error .otherPort
  if frame.length < valuesOff then return .error .shortHdr
  let chunkLen ← checkedLoad16 frame (hdrOff + 16)
  if (netsumBpfNtohs chunkLen).toNat > netsumMaxChunkLen then return .error .malformed
  if frame.length < valuesOff + 4 * (netsumBpfNtohs chunkLen).toNat then return .error .truncated
  let workerId ← checkedLoad16 frame (hdrOff + 12)
  if (netsumBpfNtohs workerId).toNat ≥ maxTrackedWorkersBitmapBytes * 8 then
    return .error .workerOutOfRange
  let jobId ← checkedLoad32 frame hdrOff
  let round ← checkedLoad32 frame (hdrOff + 4)
  let chunkId ← checkedLoad32 frame (hdrOff + 8)
  let numWorkers ← checkedLoad16 frame (hdrOff + 14)
  return .ok ⟨⟨netsumBpfNtohl jobId, netsumBpfNtohl round, netsumBpfNtohl chunkId⟩,
    netsumBpfNtohs workerId, netsumBpfNtohs numWorkers, netsumBpfNtohs chunkLen⟩

/-- `valueLoop` with a checked body. It breaks at `chunk_len`; the end of the frame is not to be
seen from inside it. -/
def checkedValueLoop {β : Type} (frame : Bytes) (chunkLen : ℕ) (body : β → ℕ → Checked β) (b : β) :
    Checked β :=
  ((List.range netsumMaxChunkLen).takeWhile fun i => !(decide (i ≥ chunkLen))).foldlM (fun b i =>
    if frame.length < valuesOff + 4 * (i + 1) then .error .unreachable else body b i) b

def GradSlot.checkedAccumulate (s : GradSlot) (frame : Bytes) (p : Parsed) : Checked GradSlot := do
  let sum ← checkedValueLoop frame p.chunkLen.toNat (fun (sum : Fin netsumMaxChunkLen → _) i => do
    let value ← checkedLoad32 frame (valuesOff + 4 * i)
    return Function.update sum (Fin.ofNat _ i) (sum (Fin.ofNat _ i) + netsumBpfNtohl value)) s.sum
  return { s with
    seenWorker := Function.update s.seenWorker (byteIdx p.workerId)
      (s.seenWorker (byteIdx p.workerId) ||| bitOf p.workerId)
    sum
    contributionsReceived := s.contributionsReceived + 1 }

def checkedWriteBack (frame : Bytes) (s : GradSlot) (finalChunkLen : BitVec 16) : Checked Bytes :=
  checkedValueLoop frame finalChunkLen.toNat
    (fun out i => checkedStore32 out (valuesOff + 4 * i) (netsumBpfNtohl (s.sum (Fin.ofNat _ i))))
    frame

def checkedLockedSection (s : GradSlot) (frame : Bytes) (p : Parsed) :
    Checked (GradSlot × Bytes × LockOutcome) := do
  if s.chunkLen ≠ p.chunkLen then return (s, frame, .mismatch)
  if s.seen p.workerId then return (s, frame, .duplicate)
  let s ← s.checkedAccumulate frame p
  if s.contributionsReceived = s.numWorkersExpected then
    let frame ← checkedWriteBack frame s s.chunkLen
    return (s, frame, .complete s.chunkLen)
  else return (s, frame, .absorbed)

def checkedIpChecksum (frame : Bytes) : Checked (BitVec 16) := do
  let sum ← (List.range 10).foldlM (fun (sum : BitVec 32) i =>
    if i = 5 then .ok sum else do
      let word ← checkedLoad16 frame (ipOff + 2 * i)
      return sum + word.setWidth 32) 0
  let sum := (sum &&& 0xffff#32) + sum >>> 16
  let sum := (sum &&& 0xffff#32) + sum >>> 16
  return ~~~ (sum.setWidth 16)

def checkedRewriteHeaders (cfg : NetsumConfig) (finalChunkLen : BitVec 16) (frame : Bytes) :
    Checked Bytes := do
  let frame ← checkedStore16 frame (hdrOff + 12) (netsumBpfNtohs 0)
  let frame ← checkedStore16 frame (hdrOff + 14) (netsumBpfNtohs 1)
  let frame ← checkedStore16 frame (hdrOff + 16) (netsumBpfNtohs finalChunkLen)
  let frame ← (List.range 6).foldlM
    (fun (frame : Bytes) i => checkedSet frame i (cfg.psMac (Fin.ofNat 6 i))) frame
  let frame ← checkedStore32 frame (ipOff + 16) cfg.psIp
  let frame ← checkedStore16 frame (udpOff + 2) cfg.psPort
  let frame ← checkedStore16 frame (udpOff + 6) 0
  let frame ← checkedStore16 frame (ipOff + 10) 0
  let check ← checkedIpChecksum frame
  checkedStore16 frame (ipOff + 10) check

def checkedFinish (maps : Maps) (key : GradSlotKey) (frame : Bytes) (finalChunkLen : BitVec 16) :
    Checked (Maps × Exit × Bytes) :=
  match maps.configMap.lookup 0 with
  | none => .ok (finish maps key frame finalChunkLen)
  | some cfg => do
    let out ← checkedRewriteHeaders cfg finalChunkLen frame
    return ({ maps with
        slotMap := maps.slotMap.delete key
        jobQuotaMap := jobQuotaDecrement maps.jobQuotaMap key.jobId }, .complete, out)

def checkedAggregate (maps : Maps) (p : Parsed) (slot : GradSlot) (frame : Bytes) :
    Checked (Maps × Exit × Bytes) := do
  let (slot, frame, outcome) ← checkedLockedSection slot frame p
  let maps := { maps with slotMap := maps.slotMap.modify p.key fun _ => slot }
  match outcome with
  | .mismatch => return (maps, .chunkLenMismatch, frame)
  | .duplicate => return (maps, .duplicate, frame)
  | .absorbed => return (maps, .absorbed, frame)
  | .complete finalChunkLen => checkedFinish maps p.key frame finalChunkLen

/-- The program with its accesses to the packet checked. -/
def checkedNetsumXdpAggregate (maps : Maps) (frame : Bytes) : Checked (Maps × Exit × Bytes) := do
  match ← checkedParse frame with
  | .error exit => return (maps, exit, frame)
  | .ok p =>
    match findOrCreate maps p with
    | (maps, .error exit) => return (maps, exit, frame)
    | (maps, .ok slot) => checkedAggregate maps p slot frame

/-! ## The header checks -/

/-- Each load of the header checks lies before an end that was checked. -/
theorem checkedParse_eq (frame : Bytes) : checkedParse frame = .ok (parse frame) := by
  unfold checkedParse parse
  refine guard_eq_ok fun heth => ?_
  rw [checkedLoad16_of_le ((by decide : 12 + 2 ≤ ethHdrSize).trans (not_lt.mp heth)), ok_bind]
  refine guard_eq_ok fun _ => guard_eq_ok fun hip => ?_
  have hbyte : ∀ {i}, i < udpOff → checkedByteAt frame i = .ok (byteAt frame i) :=
    fun hi => checkedByteAt_of_lt (hi.trans_le (not_lt.mp hip))
  rw [hbyte (by decide), ok_bind]
  refine guard_eq_ok fun _ => ?_
  rw [hbyte (by decide), ok_bind]
  refine guard_eq_ok fun _ => guard_eq_ok fun hudp => ?_
  rw [checkedLoad16_of_le ((by decide : udpOff + 2 + 2 ≤ hdrOff).trans (not_lt.mp hudp)), ok_bind]
  refine guard_eq_ok fun _ => guard_eq_ok fun hhdr => ?_
  -- the fields of the gradient header
  have h16 : ∀ {off}, off + 2 ≤ valuesOff → checkedLoad16 frame off = .ok (load16 frame off) :=
    fun ho => checkedLoad16_of_le (ho.trans (not_lt.mp hhdr))
  have h32 : ∀ {off}, off + 4 ≤ valuesOff → checkedLoad32 frame off = .ok (load32 frame off) :=
    fun ho => checkedLoad32_of_le (ho.trans (not_lt.mp hhdr))
  rw [h16 (by decide), ok_bind]
  refine guard_eq_ok fun _ => guard_eq_ok fun _ => ?_
  rw [h16 (by decide), ok_bind]
  refine guard_eq_ok fun _ => ?_
  rw [h32 (by decide), ok_bind, h32 (by decide), ok_bind, h32 (by decide), ok_bind,
    h16 (by decide), ok_bind]
  rfl

/-! ## The loops over the values -/

/-- The bounds that the header checks prove for the loops. -/
structure HasValues (frame : Bytes) (chunkLen : ℕ) : Prop where
  le_max : chunkLen ≤ netsumMaxChunkLen
  length_le : valuesOff + 4 * chunkLen ≤ frame.length

theorem hasValues_of_parse {frame : Bytes} {p : Parsed} (h : parse frame = .ok p) :
    HasValues frame p.chunkLen.toNat := by
  obtain ⟨⟨hg, hs⟩, rfl⟩ := parse_eq_ok_iff.mp h
  exact ⟨hs.chunkLen_le, values_le_length hg.length_le hs⟩

/-- **No loop is cut short.** A checked loop that stays below a proven length goes over all the
values, and as the plain loop does. -/
theorem checkedValueLoop_eq {β : Type} {frame : Bytes} {chunkLen : ℕ} (h : HasValues frame chunkLen)
    {body : β → ℕ → Checked β} {body' : β → ℕ → β} (I : β → Prop)
    (hbody : ∀ b i, I b → i < chunkLen → body b i = .ok (body' b i) ∧ I (body' b i)) {b : β}
    (hb : I b) :
    checkedValueLoop frame chunkLen body b = .ok (valueLoop frame chunkLen body' b) := by
  have hrange : ((List.range netsumMaxChunkLen).takeWhile fun i => !(decide (i ≥ chunkLen)))
      = List.range chunkLen := takeWhile_range h.le_max fun i _ => by
    rw [← decide_not, decide_eq_decide, not_le]
  rw [checkedValueLoop, hrange, valueLoop_eq h.le_max h.length_le]
  refine foldlM_eq_ok I (fun b i hI hi => ?_) hb
  have hlt := List.mem_range.mp hi
  have hlen := h.length_le
  rw [if_neg (by omega)]
  exact hbody b i hI hlt

theorem checkedAccumulate_eq (s : GradSlot) {frame : Bytes} {p : Parsed}
    (h : HasValues frame p.chunkLen.toNat) :
    s.checkedAccumulate frame p = .ok (s.accumulate frame p) := by
  have hlen := h.length_le
  have hloop : ∀ b : Fin netsumMaxChunkLen → BitVec 32, checkedValueLoop frame p.chunkLen.toNat
      (fun (sum : Fin netsumMaxChunkLen → _) i => do
        let value ← checkedLoad32 frame (valuesOff + 4 * i)
        return Function.update sum (Fin.ofNat _ i) (sum (Fin.ofNat _ i) + netsumBpfNtohl value)) b
      = .ok (valueLoop frame p.chunkLen.toNat (fun sum i => Function.update sum (Fin.ofNat _ i)
        (sum (Fin.ofNat _ i) + netsumBpfNtohl (load32 frame (valuesOff + 4 * i)))) b) := by
    intro b
    refine checkedValueLoop_eq h (fun _ => True) (fun sum i _ hi => ⟨?_, trivial⟩) trivial
    rw [checkedLoad32_of_le (by omega)]
    rfl
  rw [GradSlot.checkedAccumulate, hloop]
  rfl

theorem checkedWriteBack_eq {frame : Bytes} (s : GradSlot) {finalChunkLen : BitVec 16}
    (h : HasValues frame finalChunkLen.toNat) :
    checkedWriteBack frame s finalChunkLen = .ok (writeBack frame s finalChunkLen) := by
  have hlen := h.length_le
  refine checkedValueLoop_eq h (fun out : Bytes => out.length = frame.length)
    (fun out i hout hi => ⟨?_, ?_⟩) rfl
  · exact checkedStore32_of_le (by omega) _
  · rw [length_store32, hout]

theorem checkedLockedSection_eq (s : GradSlot) {frame : Bytes} {p : Parsed}
    (h : HasValues frame p.chunkLen.toNat) :
    checkedLockedSection s frame p = .ok (lockedSection s frame p) := by
  unfold checkedLockedSection lockedSection
  refine guard_eq_ok fun hlen => guard_eq_ok fun _ => ?_
  -- the write-back goes by the slot's chunk length, which is the frame's
  have hslot : HasValues frame (s.accumulate frame p).chunkLen.toNat := by
    show HasValues frame s.chunkLen.toNat
    rwa [not_not.mp hlen]
  rw [checkedAccumulate_eq s h, ok_bind, checkedWriteBack_eq _ hslot]
  dsimp only
  split_ifs <;> rfl

/-! ## The rewrite of the headers -/

theorem checkedIpChecksum_eq {frame : Bytes} (h : hdrOff ≤ frame.length) :
    checkedIpChecksum frame = .ok (ipChecksum frame) := by
  have hloop : (List.range 10).foldlM (fun (sum : BitVec 32) i =>
      if i = 5 then .ok sum else do
        let word ← checkedLoad16 frame (ipOff + 2 * i)
        return sum + word.setWidth 32) 0
      = .ok ((List.range 10).foldl (fun (sum : BitVec 32) i =>
        if i = 5 then sum else sum + (load16 frame (ipOff + 2 * i)).setWidth 32) 0) := by
    refine foldlM_eq_ok (fun _ => True) (fun sum i _ hi => ⟨?_, trivial⟩) trivial
    by_cases h5 : i = 5
    · rw [if_pos h5, if_pos h5]
    · have hlt := List.mem_range.mp hi
      rw [if_neg h5, if_neg h5, checkedLoad16_of_le]
      · rfl
      · simp only [hdrOff, udpOff, ipOff, ethHdrSize, ipHdrSize, udpHdrSize] at h ⊢
        omega
  rw [checkedIpChecksum, hloop]
  rfl

theorem checkedSetMac_eq (mac : Fin 6 → Byte) {frame : Bytes} (h : 6 ≤ frame.length) :
    (List.range 6).foldlM (fun (frame : Bytes) i => checkedSet frame i (mac (Fin.ofNat 6 i))) frame
      = .ok ((List.range 6).foldl (fun (frame : Bytes) i => frame.set i (mac (Fin.ofNat 6 i)))
        frame) := by
  refine foldlM_eq_ok (fun b : Bytes => b.length = frame.length) (fun b i hb hi => ⟨?_, ?_⟩) rfl
  · have hlt := List.mem_range.mp hi
    exact checkedSet_of_lt (by omega) _
  · rw [List.length_set, hb]

theorem checkedRewriteHeaders_eq (cfg : NetsumConfig) (finalChunkLen : BitVec 16) {frame : Bytes}
    (h : valuesOff ≤ frame.length) :
    checkedRewriteHeaders cfg finalChunkLen frame
      = .ok (rewriteHeaders cfg finalChunkLen frame) := by
  -- no store changes the length, so one bound serves them all
  have h16 : ∀ (b : Bytes) (off : ℕ) (v : BitVec 16), b.length = frame.length →
      off + 2 ≤ valuesOff → checkedStore16 b off v = .ok (store16 b off v) :=
    fun b off v hb ho => checkedStore16_of_le (hb ▸ ho.trans h) v
  simp only [checkedRewriteHeaders, rewriteHeaders]
  rw [h16 frame _ _ rfl (by decide), ok_bind, h16 _ _ _ (length_store16 ..) (by decide), ok_bind,
    h16 _ _ _ (by simp only [length_store16]) (by decide), ok_bind]
  generalize hfields : store16 (store16 (store16 frame _ _) _ _) _ _ = fields
  have hlen : fields.length = frame.length := by
    rw [← hfields]
    simp only [length_store16]
  have hlen6 : 6 ≤ fields.length := hlen ▸ (by decide : 6 ≤ valuesOff).trans h
  rw [checkedSetMac_eq cfg.psMac hlen6, ok_bind]
  have hmac := (setMac_spec cfg.psMac fields hlen6).1.trans hlen
  generalize (List.range 6).foldl _ fields = b at hmac ⊢
  rw [checkedStore32_of_le (hmac ▸ (by decide : ipOff + 16 + 4 ≤ valuesOff).trans h), ok_bind,
    h16 _ _ _ ((length_store32 ..).trans hmac) (by decide), ok_bind,
    h16 _ _ _ (by simp only [length_store16, length_store32, hmac]) (by decide), ok_bind,
    h16 _ _ _ (by simp only [length_store16, length_store32, hmac]) (by decide), ok_bind,
    checkedIpChecksum_eq, ok_bind,
    h16 _ _ _ (by simp only [length_store16, length_store32, hmac]) (by decide)]
  simp only [length_store16, length_store32, hmac]
  exact (Nat.le_add_right hdrOff netsumHdrSize).trans h

/-! ## The program -/

theorem checkedAggregate_eq (maps : Maps) {p : Parsed} (slot : GradSlot) {frame : Bytes}
    (h : HasValues frame p.chunkLen.toNat) :
    checkedAggregate maps p slot frame = .ok (aggregate maps p slot frame) := by
  unfold checkedAggregate aggregate
  rw [checkedLockedSection_eq slot h, ok_bind]
  have hcase := lockedSection_case slot frame p
  generalize lockedSection slot frame p = r at hcase
  cases hcase with
  | mismatch hlen => rfl
  | duplicate hlen hseen => rfl
  | absorbed hlen hseen hcount => rfl
  | complete hlen hseen hcount =>
    -- the headers are rewritten in the frame with the sums, which is as long
    have hout : valuesOff ≤ (writeBack frame (slot.accumulate frame p) slot.chunkLen).length := by
      rw [← hlen] at h
      rw [(writeBack_spec h.le_max h.length_le).1]
      exact (Nat.le_add_right ..).trans h.length_le
    dsimp only
    unfold checkedFinish finish
    dsimp only
    cases maps.configMap.lookup 0 with
    | none => rfl
    | some cfg =>
      dsimp only
      rw [checkedRewriteHeaders_eq cfg slot.chunkLen hout]
      rfl

/-- **No run faults**: neither is an access out of bounds, nor a loop cut short. -/
theorem checkedNetsumXdpAggregate_eq (maps : Maps) (frame : Bytes) :
    checkedNetsumXdpAggregate maps frame = .ok (netsumXdpAggregate maps frame) := by
  unfold checkedNetsumXdpAggregate netsumXdpAggregate
  rw [checkedParse_eq, ok_bind]
  cases hparse : parse frame with
  | error exit => rfl
  | ok p =>
    dsimp only
    rcases findOrCreate maps p with ⟨maps', exit | slot⟩
    · rfl
    · exact checkedAggregate_eq maps' slot (hasValues_of_parse hparse)

/-- How many rounds a loop over the values runs. -/
def valueRounds (frame : Bytes) (chunkLen : ℕ) : ℕ :=
  valueLoop frame chunkLen (fun (n : ℕ) _ => n + 1) 0

theorem valueRounds_eq {frame : Bytes} {chunkLen : ℕ} (h : HasValues frame chunkLen) :
    valueRounds frame chunkLen = chunkLen := by
  rw [valueRounds, valueLoop_eq h.le_max h.length_le]
  exact foldl_range_induction _ (fun i n => n = i) rfl fun _ _ _ h => congrArg (· + 1) h

/-- **Accesses to the packet are in bounds and never cut short.** No run faults, for any frame and
maps. What is counted into a slot is all the values of the frame, and what a completion writes
back is all the sums of the slot, which has the chunk length of the frame. -/
theorem netsumXdpAggregate_accesses (maps : Maps) (frame : Bytes) :
    checkedNetsumXdpAggregate maps frame = .ok (netsumXdpAggregate maps frame)
      ∧ ∀ p, parse frame = .ok p →
        valueRounds frame p.chunkLen.toNat = p.chunkLen.toNat
        ∧ ∀ s : GradSlot,
          (∀ i : Fin netsumMaxChunkLen, (s.accumulate frame p).sum i
            = if (i : ℕ) < p.chunkLen.toNat then s.sum i + be32 frame (valuesOff + 4 * i)
              else s.sum i)
          ∧ ∀ s' out finalChunkLen,
            lockedSection s frame p = (s', out, .complete finalChunkLen) →
            finalChunkLen = s.chunkLen ∧ finalChunkLen = p.chunkLen
            ∧ valueRounds frame finalChunkLen.toNat = finalChunkLen.toNat
            ∧ s' = s.accumulate frame p ∧ out.length = frame.length
            ∧ ∀ i < finalChunkLen.toNat,
              be32 out (valuesOff + 4 * i) = s'.sum (Fin.ofNat _ i) := by
  refine ⟨checkedNetsumXdpAggregate_eq maps frame, fun p hp => ?_⟩
  have hvalues := hasValues_of_parse hp
  refine ⟨valueRounds_eq hvalues, fun s =>
    ⟨GradSlot.sum_accumulate s hvalues.le_max hvalues.length_le, ?_⟩⟩
  intro s' out finalChunkLen hlocked
  -- only one outcome of the locked section has a final chunk length
  have hcase := lockedSection_case s frame p
  rw [hlocked] at hcase
  cases hcase with
  | complete hlen hseen hcount =>
    rw [← hlen] at hvalues
    obtain ⟨hout, -, hsums⟩ := writeBack_spec (s := s.accumulate frame p) hvalues.le_max
      hvalues.length_le
    exact ⟨rfl, hlen, valueRounds_eq hvalues, rfl, hout, hsums⟩

end NetSum.XdpAgg
