import NetSum.AdmissionTheorems
import NetSum.FleetTheorems
import NetSum.XdpAgg.CpuOrderTheorems

/-!
# With the XDP program in between

The third benchmark configuration: workers that send to a host whose CPUs run the XDP program,
which transmits to the parameter server. As long as no CPU holds a stale pointer, what is
transmitted for a workload is a workload of one worker for each key, whose payload is the sum
(`sends_reduced_of_current`). If the frames that come in hold datagrams, so do those that are
transmitted (`outgoing_of_transmitted`), and what a stack delivers from them is still that
workload (`sends_reduced_of_delivered`). So this configuration records what the one without an
aggregator does (`xdp_pipelines_agree`). For a fleet whose packets reach the host once at most, end
to end: a round is recorded exactly when all its packets reached the host and the sums reached the
server, and it is recorded right (`xdp_rounds_complete`).
-/

namespace NetSum

open NetSum.Lib NetSum.Protocol NetSum.Aggregation

namespace XdpAgg

/-! ## What a CPU knows of its frame -/

section

variable {C : Type} [DecidableEq C] {es : List (C × CpuInput)} {P : Bytes → Prop}

/-- What every CPU keeps to over a run, if the frames that arrive and count satisfy `P`. -/
theorem loc_of_run {Q : Cpu → Prop} (hidle : Q .idle)
    (hstep : ∀ {sh i cpu r}, Cpu.Acts sh i cpu r → Q cpu →
      (cpu = .idle → Counts i.frame → P i.frame) → Q r.2.1)
    (hes : ∀ frame ∈ arrivals (CpuSystem.init C) es, P frame) :
    ∀ T ≤ es.length, ∀ c, Q ((stateAt cpuStep (CpuSystem.init C) es T).loc c) := by
  refine stateAt_induction (fun _ (s : CpuSystem C) => ∀ c, Q (s.loc c)) (fun _ => hidle)
    fun T ev hev hs c => ?_
  obtain ⟨d, i⟩ := ev
  by_cases hc : c = d
  · subst hc
    rw [cpuStep, Threads.step_loc_self]
    exact hstep (acts _ _ i) (hs c) fun hidle hcounts => hes _ (mem_arrivals hev hidle hcounts)
  · rw [cpuStep, Threads.step_loc_of_ne hc]
    exact hs c

end

/-! ## The frames that are counted -/

/-- The frame of a CPU on its way to the lock satisfies `P`. -/
def Cpu.Holds (P : Bytes → Prop) : Cpu → Prop
  | .idle => True
  | .busy frame _ pc =>
    match pc with
    | .config _ | .delete _ _ | .decrement _ _ _ _ | .rewrite _ | .bump _ _ _ => True
    | _ => P frame

/-- The frames that a slot was created for or locked with satisfy `P`. -/
structure CpuOutput.Shows (P : Bytes → Prop) (o : CpuOutput) : Prop where
  created : ∀ e f, o.created = some (e, f) → P f
  locked : ∀ e f v, o.locked = some (e, f, v) → P f

theorem shows_none {P : Bytes → Prop} {o : CpuOutput} (hcreated : o.created = none)
    (hlocked : o.locked = none) : o.Shows P := by
  refine ⟨fun e f h => ?_, fun e f v h => ?_⟩
  · rw [hcreated] at h
    cases h
  · rw [hlocked] at h
    cases h

/-- A step shows no other frames than those the CPU holds. -/
theorem Cpu.Acts.holds {P : Bytes → Prop} {sh : SharedMaps} {i : CpuInput} {cpu : Cpu}
    {r : SharedMaps × Cpu × CpuOutput} (h : cpu.Acts sh i r) (hcpu : cpu.Holds P)
    (hi : cpu = .idle → Counts i.frame → P i.frame) : r.2.1.Holds P ∧ r.2.2.Shows P := by
  cases h with
  | arrive hparse => exact ⟨hi rfl (counts_of_parse hparse).1, shows_none rfl rfl⟩
  | created hk hslot =>
    refine ⟨hcpu, fun e f h => ?_, nofun⟩
    cases h
    exact hcpu
  | lock hmove =>
    have hshows : ∀ {slot : Elem} {frame : Bytes} {v : LockOutcome} {o : CpuOutput}, P frame →
        o.created = none → o.locked = some (slot, frame, v) → o.Shows P := by
      intro slot frame v o hframe hcreated hlocked
      refine ⟨fun e f h => ?_, fun e f v' h => ?_⟩
      · rw [hcreated] at h
        cases h
      · rw [hlocked] at h
        cases h
        exact hframe
    cases hmove with
    | rejected => exact ⟨trivial, hshows hcpu rfl rfl⟩
    | absorbed => exact ⟨trivial, hshows hcpu rfl rfl⟩
    | complete => exact ⟨trivial, hshows hcpu rfl rfl⟩
  | ignore | badFanIn | lost | config | delete | releasing | released | unsent | transmit | bumping
  | bumped => exact ⟨trivial, shows_none rfl rfl⟩
  | refused => exact ⟨trivial, shows_none rfl rfl⟩
  | found | missing | unlimited | limited | noEntry | entry | admitted | notCreated | notOffered
  | creator | joined | counting | counted => exact ⟨hcpu, shows_none rfl rfl⟩

section

variable {C : Type} [DecidableEq C] {es : List (C × CpuInput)} {P : Bytes → Prop}

/-- A run shows no other frames than those that arrived. -/
theorem shows_of_run (hes : ∀ frame ∈ arrivals (CpuSystem.init C) es, P frame) {T : ℕ} {o : CpuOutput}
    (ho : (runOut cpuStep (CpuSystem.init C) es)[T]? = some o) : o.Shows P := by
  have hholds := loc_of_run (Q := Cpu.Holds P) trivial (fun h hcpu hi => (h.holds hcpu hi).1) hes
  obtain ⟨⟨c, i⟩, he⟩ := exists_event_of_out ho
  rw [runOut_getElem?, he, Option.map_some, Option.some.injEq] at ho
  subst ho
  have hlt := (List.getElem?_eq_some_iff.mp he).1
  exact ((acts _ _ i).holds (hholds T hlt.le c) fun hidle hcounts =>
    hes _ (mem_arrivals he hidle hcounts)).2

/-! ## The CPUs on a workload -/

/-- The frames that arrive and count carry datagrams of the workload. -/
def OnWorkload (W : Workload) (es : List (C × CpuInput)) : Prop :=
  ∀ frame ∈ arrivals (CpuSystem.init C) es, W.Sends (payload frame)

/-- The batch of a transmitted frame is of all workers of its key. -/
theorem Batch.total {W : Workload} {e : Elem} {k : GradSlotKey} {L : BitVec 16} {U : ℕ}
    {batch : List (ℕ × Bytes)} (hes : OnWorkload W es)
    (h : Batch (runOut cpuStep (CpuSystem.init C) es) e k L batch.length U batch)
    (hpos : 1 ≤ batch.length) :
    L.toNat = W.chunkLen k
      ∧ ∀ j < L.toNat, (batch.map fun x => valueAt (payload x.2) j).sum = W.total k j := by
  have hsends : ∀ x ∈ batch, W.Sends (payload x.2) ∧ (GradHdr.decode (payload x.2)).key = k := by
    intro x hx
    obtain ⟨o, v, ho, hlocked, -⟩ := h.counted x hx
    have hshows := shows_of_run (P := fun f => W.Sends (payload f)) hes ho
    exact ⟨hshows.locked _ _ _ hlocked, h.key_eq x hx⟩
  have hN : batch.length = W.numWorkers k := by
    obtain ⟨u, f, -, ⟨o, ho, hcreated⟩, rfl, hN, -⟩ := h.opened
    have hshows := shows_of_run (P := fun f => W.Sends (payload f)) hes ho
    rw [← hN]
    exact (hshows.created _ _ hcreated).numWorkers_eq
  have hL : L.toNat = W.chunkLen k := by
    obtain ⟨x, hx⟩ := List.exists_mem_of_length_pos hpos
    obtain ⟨hx', hkey⟩ := hsends x hx
    rw [← h.chunkLen_eq x hx, hx'.chunkLen_eq, hkey]
  refine ⟨hL, fun j hj => ?_⟩
  -- the workers of the batch are told apart, and as many as there are
  let workers := batch.map fun x => (GradHdr.decode (payload x.2)).workerId.toNat
  have hnodup : workers.Nodup := by
    have hmap : workers = (batch.map fun x => (GradHdr.decode (payload x.2)).workerId).map
        BitVec.toNat := by rw [List.map_map]; rfl
    rw [hmap]
    exact h.workers.map fun _ _ => BitVec.eq_of_toNat_eq
  have hall : workers.toFinset = Finset.range (W.numWorkers k) := by
    apply toFinset_eq_range
    · intro w hw
      obtain ⟨x, hx, rfl⟩ := List.mem_map.mp hw
      obtain ⟨hx', hkey⟩ := hsends x hx
      rw [← hkey]
      exact hx'.worker_lt
    · rw [List.toFinset_card_of_nodup hnodup, List.length_map, hN]
  rw [Workload.total, ← hall, List.sum_toFinset _ hnodup, List.map_map]
  refine congrArg List.sum (List.map_congr_left fun x hx => ?_)
  obtain ⟨hx', hkey⟩ := hsends x hx
  have hvalue := hx'.value_eq j (by rw [hkey, ← hL]; exact hj)
  rw [hkey] at hvalue
  exact hvalue

/-- **What is transmitted for a workload is a workload** of one worker for each key. -/
theorem sends_reduced_of_current {W : Workload} (hes : OnWorkload W es)
    (hcurrent : StepsMeet cpuStep PointerCurrent (CpuSystem.init C) es) {T : ℕ} {out : Bytes}
    (htx : TransmittedAt (runOut cpuStep (CpuSystem.init C) es) T out) :
    W.reduced.Sends (payload out) := by
  obtain ⟨c, i, frame, L, U, e, batch, -, hout, hsummed⟩ := summed_of_transmitted hcurrent htx
  obtain ⟨hbatch, hpos, hreports⟩ := hsummed.reports hout
  obtain ⟨hL, htotal⟩ := hbatch.total hes hpos
  -- the frame is as long as the one that completed the key
  have hlength : netsumHdrSize + 4 * (GradHdr.decode (payload out)).chunkLen.toNat
      ≤ (payload out).length := by
    obtain ⟨f, s, hf, -, -, hchunk, hs, rfl, -⟩ := hsummed.sums
    subst hs
    have hforwards := forwards_rewriteHeaders i.cfg hf.1.length_le hf.2 hchunk
    rw [← hout] at hforwards
    rw [hforwards.hdr_eq, length_payload, hforwards.length_eq, ← length_payload]
    exact hf.2.values_le
  have hworker : (GradHdr.decode (payload out)).workerId.toNat = 0 := by
    rw [hreports.workerId_eq]
    rfl
  have hnum : (GradHdr.decode (payload out)).numWorkers.toNat = 1 := by
    rw [hreports.numWorkers_eq]
    rfl
  refine ⟨⟨?_, hreports.chunkLen_le, hlength, ?_, hnum.ge, ?_⟩, hnum, hL, ?_, fun j hj => ?_⟩
  · exact (Nat.le_add_right _ _).trans hlength
  · rw [hworker]
    decide
  · rw [hnum]
    decide
  · rw [hworker]
    exact Nat.one_pos
  · have hj' : j < (GradHdr.decode (payload out)).chunkLen.toNat := hj.trans_eq hL.symm
    rw [hreports.value_eq j hj', htotal j hj']
    rfl

/-! ## The datagrams in the frames -/

/-- The frame holds a datagram to the gradient port with all its values in it. -/
structure HoldsValues (frame : Bytes) : Prop where
  datagram : HoldsDatagram netsumPort frame
  values_le : udpHdrSize + netsumHdrSize + 4 * (GradHdr.decode (payload frame)).chunkLen.toNat
    ≤ udpLen frame

/-- The write-back of a CPU leaves the headers of its frame. -/
theorem HoldsValues.writeBack {frame : Bytes} (h : HoldsValues frame) (s : GradSlot)
    (finalChunkLen : BitVec 16) : HoldsValues (writeBack frame s finalChunkLen) := by
  obtain ⟨hlen, hahead⟩ := writeBack_ahead frame s finalChunkLen
  obtain ⟨hholds, hudp⟩ := h.datagram.congr hlen hahead
  refine ⟨hholds, ?_⟩
  rw [hudp, decode_payload_congr hahead]
  exact h.values_le

/-- The frame of a CPU satisfies `P`. -/
def Cpu.Carries (P : Bytes → Prop) : Cpu → Prop
  | .idle => True
  | .busy frame _ _ => P frame

/-- A step keeps the frame, or writes the sums back into it. -/
theorem Cpu.Acts.carries {sh : SharedMaps} {i : CpuInput} {cpu : Cpu}
    {r : SharedMaps × Cpu × CpuOutput} (h : cpu.Acts sh i r) (hcpu : cpu.Carries HoldsValues)
    (hi : cpu = .idle → Counts i.frame → HoldsValues i.frame) : r.2.1.Carries HoldsValues := by
  cases h with
  | arrive hparse => exact hi rfl (counts_of_parse hparse).1
  | lock hmove =>
    cases hmove with
    | complete => exact HoldsValues.writeBack hcpu _ _
    | rejected | absorbed => trivial
  | ignore | badFanIn | lost | transmit | bumped => trivial
  | found | missing | unlimited | limited | noEntry | entry | refused | admitted | created
  | notCreated | notOffered | creator | joined | counting | counted | config | delete | releasing
  | released | unsent | bumping => exact hcpu

theorem Cpu.Carries.of_result {cpu : Cpu} (h : cpu.Carries P) {frame : Bytes}
    {finalChunkLen : BitVec 16} (hresult : cpu.result = some (frame, finalChunkLen)) : P frame := by
  cases cpu with
  | idle => cases hresult
  | busy frame' p pc =>
    cases pc with
    | config | delete | decrement | rewrite =>
      cases hresult
      exact h
    | lookup | precheck | quotaLookup | quotaRead | create | relookup | increment | lock | bump =>
      cases hresult

/-- The frame holds a datagram to the port with all its values in it, and its checksums verify. -/
structure Outgoing (port : ℕ) (out : Bytes) : Prop where
  datagram : HoldsDatagram port out
  verifies : Verifies out
  values_le : udpHdrSize + netsumHdrSize + 4 * (GradHdr.decode (payload out)).chunkLen.toNat
    ≤ udpLen out

/-- **What is transmitted is a datagram** to the configured port, if the frames that arrive hold
datagrams. -/
theorem outgoing_of_transmitted (hes : ∀ frame ∈ arrivals (CpuSystem.init C) es, HoldsValues frame)
    (hcurrent : StepsMeet cpuStep PointerCurrent (CpuSystem.init C) es) {T : ℕ} {out : Bytes}
    (htx : TransmittedAt (runOut cpuStep (CpuSystem.init C) es) T out) :
    ∃ c i, es[T]? = some (c, i) ∧ Outgoing (swap16 i.cfg.psPort).toNat out := by
  obtain ⟨o, exit, ho, hreturned, htx⟩ := htx
  obtain ⟨⟨c, i⟩, he⟩ := exists_event_of_out ho
  obtain rfl := Option.some.inj ((cpuOut_eq he).symm.trans ho)
  have hT := (List.getElem?_eq_some_iff.mp he).1.le
  have hknows := (keeps_stateAt hcurrent T hT).loc c
  obtain ⟨frame, L, hresult, hout⟩ := (acts _ _ i).transmits hknows.sane hreturned htx
  have hholds : HoldsValues frame :=
    (loc_of_run (Q := Cpu.Carries HoldsValues) trivial (fun h => h.carries) hes T hT c).of_result
      hresult
  -- the length written into the header is the frame's own
  obtain ⟨U, e, batch, hsummed⟩ := hknows.result _ hresult
  obtain ⟨f, s, hf, -, -, hL, hs, hframe, -⟩ := hsummed.sums
  have hchunk : (GradHdr.decode (payload out)).chunkLen = (GradHdr.decode (payload frame)).chunkLen := by
    subst hs
    have hforwards := forwards_rewriteHeaders i.cfg hf.1.length_le hf.2 hL
    have hdec := decode_payload_congr (writeBack_ahead f s s.chunkLen).2
    rw [← hframe] at hforwards hdec
    rw [show out = _ from hout, hforwards.hdr_eq, hdec]
  have hlen : hdrOff ≤ frame.length := (Nat.le_add_right _ _).trans hholds.datagram.length_udpPayload.2
  refine ⟨c, i, he, ?_⟩
  have hudp : udpLen out = udpLen frame := by
    rw [show out = _ from hout]
    exact udpLen_rewriteHeaders i.cfg L ((by decide : 6 ≤ hdrOff).trans hlen)
  refine ⟨?_, ?_, ?_⟩
  · rw [show out = _ from hout]
    exact holdsDatagram_rewriteHeaders i.cfg L hholds.datagram
  · rw [show out = _ from hout]
    exact verifies_rewriteHeaders i.cfg L hlen
  · rw [hchunk, hudp]
    exact hholds.values_le

/-- The frames that arrive and count hold datagrams of the workload, as a stack would find them. -/
def Arriving (W : Workload) (es : List (C × CpuInput)) : Prop :=
  ∀ frame ∈ arrivals (CpuSystem.init C) es, HoldsUdp netsumPort frame ∧ W.Sends (udpData frame)

theorem Arriving.holdsValues {W : Workload} (h : Arriving W es) :
    ∀ frame ∈ arrivals (CpuSystem.init C) es, HoldsValues frame ∧ W.Sends (payload frame) := by
  intro frame hframe
  have hcounts := counts_of_mem_arrivals hframe
  have hihl := hcounts.1.no_options
  obtain ⟨hholds, hsends⟩ := h frame hframe
  rw [udpData_eq_udpPayload hihl] at hsends
  have hdatagram := ((holdsUdp_iff_of_ihl hihl).mp hholds).1
  have hreach := ((wellFormed_udpPayload hdatagram).mp hsends.wellFormed).2.2
  refine ⟨⟨hdatagram, hreach⟩, (Workload.sends_take_iff ?_).mp hsends⟩
  omega

/-- **What a stack delivers is that workload.** The server's host receives the datagram of a
transmitted frame, which is one of the workload of one worker for each key. -/
theorem sends_reduced_of_delivered {W : Workload} (hes : Arriving W es)
    (hcurrent : StepsMeet cpuStep PointerCurrent (CpuSystem.init C) es) {port : ℕ}
    (stack : UdpStack port) {T : ℕ} {out : Bytes}
    (htx : TransmittedAt (runOut cpuStep (CpuSystem.init C) es) T out) {p : Bytes}
    (hp : stack.deliver out = some p) :
    W.reduced.Sends p ∧ (GradHdr.decode p).key = keyOf out := by
  have hholds := hes.holdsValues
  obtain ⟨c, i, -, hout⟩ :=
    outgoing_of_transmitted (fun frame hf => (hholds frame hf).1) hcurrent htx
  have hsends := sends_reduced_of_current (fun frame hf => (hholds frame hf).2) hcurrent htx
  obtain ⟨-, rfl⟩ := (stack.deliver_iff hout.datagram.ip p).mp hp
  have hreach := hout.values_le
  rw [udpData_eq_udpPayload hout.datagram.ihl]
  refine ⟨(Workload.sends_take_iff ?_).mpr hsends, ?_⟩
  · omega
  · rw [decode_udpPayload (by omega), keyOf]

end

end XdpAgg

open XdpAgg ParamServer in
/-- **The XDP configuration agrees** with the one without an aggregator. The parameter server's host
may lose, double and reorder the frames that are transmitted, and its stack delivers from them what
it should. A key that completes at both parameter servers has the same chunk length and the same
sums at both, from then on. -/
theorem xdp_pipelines_agree {W : Workload} {packet packet' : UserspaceAgg.Buffer}
    {es : List Event} (hes : ∀ ev ∈ es, ev.On W) {C : Type} [DecidableEq C]
    {xdp : List (C × CpuInput)} (hxdp : Arriving W xdp)
    (hcurrent : StepsMeet cpuStep PointerCurrent (CpuSystem.init C) xdp) {port : ℕ}
    (stack : UdpStack port) {es' : List Event}
    (hes' : ∀ ev ∈ es', ∀ p, ev.received = some p → ∃ T out,
      TransmittedAt (runOut cpuStep (CpuSystem.init C) xdp) T out ∧ stack.deliver out = some p)
    {k : GradSlotKey} {T T' : ℕ}
    (hT : CompletesAt es (runOut (mainStep .noagg) (.init packet) es) k T)
    (hT' : CompletesAt es' (runOut (mainStep .agg) (.init packet') es') k T') {U U' : ℕ}
    (hU : T < U) (hU' : T' < U') :
    Records (stateAt (mainStep .noagg) (.init packet) es U).gSlots k (W.chunkLen k) (W.total k)
      ∧ Records (stateAt (mainStep .agg) (.init packet') es' U').gSlots k (W.chunkLen k)
        (W.total k) := by
  -- what the CPUs transmit is the workload with one worker
  have hon : ∀ ev ∈ es', ev.On W.reduced := by
    intro ev hev p hp
    obtain ⟨n, out, htx, hdeliver⟩ := hes' ev hev p hp
    exact (sends_reduced_of_delivered hxdp hcurrent stack htx hdeliver).1
  have hrecords' := records_total (expects_agg W) hon hT' hU'
  rw [W.total_reduced] at hrecords'
  exact ⟨records_total (expects_noagg W) hes hT hU, hrecords'⟩

/-- Two workers, each of which sends 5. -/
def fives : Workload := ⟨fun _ => 2, fun _ => 1, fun _ _ _ => 5⟩

/-- The host that the program forwards to. -/
def psHost : UdpStack 9877 := .host (List.replicate 6 0xaa) 0x0a000002 9877

open XdpAgg ParamServer in
/-- The two workers send to a parameter server, and to two CPUs. -/
theorem xdp_pipelines_agree_fives :
    let d := fun worker => workerPacket ⟨1, 0, 0, worker, 2, 1, 0⟩ fun _ => 5
    let es := [Event.deliver (d 0), .deliver (d 1)]
    let es' := [Event.deliver (workerPacket ⟨1, 0, 0, 0, 1, 1, 0⟩ fun _ => 10)]
    Records (stateAt (mainStep .noagg) (.init .zero) es 2).gSlots ⟨1, 0, 0⟩ 1
        (fives.total ⟨1, 0, 0⟩)
      ∧ Records (stateAt (mainStep .agg) (.init .zero) es' 1).gSlots ⟨1, 0, 0⟩ 1
        (fives.total ⟨1, 0, 0⟩) := by
  intro d es es'
  have hsends : ∀ p ∈ [d 0, d 1], fives.Sends p := by
    intro p hp
    rcases List.mem_pair.mp hp with rfl | rfl
    all_goals exact ⟨by decide +kernel, by decide +kernel, by decide +kernel, by decide +kernel,
      by decide +kernel⟩
  have hes : ∀ ev ∈ es, ev.On fives := by
    intro ev hev p hp
    rcases List.mem_pair.mp hev with rfl | rfl <;> obtain rfl := Option.some.inj hp
    · exact hsends _ (by simp)
    · exact hsends _ (by simp)
  have hxdp : Arriving fives joinedRun := by
    have harrivals : arrivals (CpuSystem.init (Fin 2)) joinedRun
        = [wholeFrame (d 0), wholeFrame (d 1)] := by decide +kernel
    intro frame hframe
    rw [harrivals] at hframe
    rcases List.mem_pair.mp hframe with rfl | rfl
    · have hdata : udpData (wholeFrame (d 0)) = d 0 := by decide +kernel
      exact ⟨by decide +kernel, by rw [hdata]; exact hsends _ (by simp)⟩
    · have hdata : udpData (wholeFrame (d 1)) = d 1 := by decide +kernel
      exact ⟨by decide +kernel, by rw [hdata]; exact hsends _ (by simp)⟩
  have hes' : ∀ ev ∈ es', ∀ p, ev.received = some p → ∃ T out,
      TransmittedAt (runOut cpuStep (CpuSystem.init (Fin 2)) joinedRun) T out
        ∧ psHost.deliver out = some p := by
    intro ev hev p hp
    obtain rfl := List.mem_singleton.mp hev
    obtain rfl := Option.some.inj hp
    have hreturned : ∃ x, ((runOut cpuStep (CpuSystem.init (Fin 2)) joinedRun)[16]?.bind
        CpuOutput.returned) = some x ∧ x.1.action = .tx
          ∧ psHost.deliver x.2 = some (workerPacket ⟨1, 0, 0, 0, 1, 1, 0⟩ fun _ => 10) :=
      ⟨_, rfl, by decide +kernel, by decide +kernel⟩
    obtain ⟨x, hx, htx, hp⟩ := hreturned
    obtain ⟨o, ho, hreturned⟩ := Option.bind_eq_some_iff.mp hx
    exact ⟨16, x.2, ⟨o, x.1, ho, hreturned, htx⟩, hp⟩
  have hT : CompletesAt es (runOut (mainStep .noagg) (.init .zero) es) ⟨1, 0, 0⟩ 1 :=
    ⟨_, _, _, rfl, rfl, by decide +kernel, rfl, by decide +kernel⟩
  have hT' : CompletesAt es' (runOut (mainStep .agg) (.init .zero) es') ⟨1, 0, 0⟩ 0 :=
    ⟨_, _, _, rfl, rfl, by decide +kernel, rfl, by decide +kernel⟩
  exact xdp_pipelines_agree hes hxdp (by decide +kernel) psHost hes' hT hT' (by decide) (by decide)

/-! ## A fleet, end to end -/

section

open XdpAgg

variable {F : Fleet} {C : Type} [DecidableEq C] {es : List (C × CpuInput)}

/-- The rounds of the fleet. -/
def Fleet.rounds (F : Fleet) : Rounds where
  fanIn _ := F.numWorkers
  chunkLen _ := F.chunkLen
  datagram k w := (F.args w).datagram k.round.toNat

/-- A frame with a packet of the fleet is that of its worker in its round. -/
theorem Fleet.rounds_sends {frame : Bytes} (h : F.Sends (payload frame)) :
    F.rounds.Sends frame := by
  obtain ⟨w, hw, r, hr, hd⟩ := sends_iff.mp h
  obtain ⟨-, hhdr, -⟩ := F.decode_datagram w r
  have hworker : workerOf frame = w := by
    rw [workerOf, hd, hhdr]
    exact F.toNat_workerId hw
  have hround : (keyOf frame).round.toNat = r := by
    rw [keyOf, hd, F.key_datagram, toNat_round hr]
  have hdatagram : F.rounds.datagram (keyOf frame) w = (F.args w).datagram r := by
    show (F.args w).datagram (keyOf frame).round.toNat = _
    rw [hround]
  rw [Rounds.Sends, hworker]
  refine ⟨⟨hw, hw.trans_le F.numWorkers_le, ?_, ?_, ?_⟩, hdatagram.trans hd.symm⟩
  · rw [hdatagram, hhdr]
    exact F.toNat_workerId hw
  · rw [hdatagram, hhdr]
    exact F.toNat_numWorkers w
  · rw [hdatagram, hhdr]
    exact F.toNat_chunkLen w

/-- Frames with packets of the fleet, each packet once, are a collection. -/
theorem Fleet.collection (hrounds : F.numRounds < slotMapEntries) {frames : List Bytes}
    (hcounts : ∀ frame ∈ frames, Counts frame) (hframes : ∀ frame ∈ frames, F.Sends (payload frame))
    (honce : (frames.map payload).Nodup) : Collection frames := by
  have hsends : ∀ frame ∈ frames, F.workload.Sends (payload frame) := by
    intro frame hframe
    exact workload_of_sends (hframes frame hframe)
  have hkey : ∀ frame ∈ frames, keyOf frame ∈ F.keys :=
    fun frame hframe => key_mem_keys (hframes frame hframe)
  refine ⟨fun frame hf => (hcounts frame hf).1, fun frame hf => (hsends frame hf).wellFormed,
    fun frame hf => ?_, fun frame hf frame' hf' _ => ⟨?_, ?_⟩, ?_, ?_, ?_⟩
  · exact (hsends frame hf).worker_lt.trans_eq (hsends frame hf).numWorkers_eq.symm
  · exact BitVec.eq_of_toNat_eq
      ((hsends frame hf).numWorkers_eq.trans (hsends frame' hf').numWorkers_eq.symm)
  · exact BitVec.eq_of_toNat_eq
      ((hsends frame hf).chunkLen_eq.trans (hsends frame' hf').chunkLen_eq.symm)
  · -- key and worker say which packet it is
    apply honce.of_map.map_on
    intro frame hf frame' hf' heq
    obtain ⟨hkey', hworker⟩ := Prod.ext_iff.mp heq
    apply List.inj_on_of_nodup_map honce hf hf'
    obtain ⟨w, hw, r, hr, hd⟩ := sends_iff.mp (hframes frame' hf')
    rw [hd]
    apply datagram_unique (hframes frame hf) hr
    · exact (hkey'.trans (by rw [keyOf, hd, F.key_datagram]))
    · refine hworker.trans ?_
      rw [workerOf, hd, (F.decode_datagram w r).2.1]
      exact F.toNat_workerId hw
  · have hsub : (frames.map keyOf).toFinset ⊆ F.keys := by
      intro k hk
      obtain ⟨frame, hf, rfl⟩ := List.mem_map.mp (List.mem_toFinset.mp hk)
      exact hkey frame hf
    exact ((Finset.card_le_card hsub).trans F.card_keys_le).trans_lt hrounds
  · -- all frames are of one job
    have hsub : (frames.map fun frame => (keyOf frame).jobId).toFinset
        ⊆ {BitVec.ofInt 32 F.jobId} := by
      intro j hj
      obtain ⟨frame, hf, rfl⟩ := List.mem_map.mp (List.mem_toFinset.mp hj)
      obtain ⟨r, -, hr⟩ := mem_keys.mp (hkey frame hf)
      rw [← hr]
      exact Finset.mem_singleton_self _
    have hle := Finset.card_le_card hsub
    rw [Finset.card_singleton] at hle
    exact hle.trans (by decide)

/-- Something was transmitted for the key. -/
theorem sentFor_ne_nil_iff {os : List CpuOutput} {k : GradSlotKey} :
    sentFor k os ≠ [] ↔ ∃ T out, TransmittedAt os T out ∧ keyOf out = k := by
  have htransmitted : ∀ x : Exit × Bytes, transmittedOf k x = some x.2
      ↔ x.1.action = .tx ∧ keyOf x.2 = k := by
    intro x
    rw [transmittedOf, Option.filter_eq_some_iff, transmitted]
    split
    · next htx => simp [htx]
    · next htx => simp [htx]
  constructor
  · intro hne
    obtain ⟨c, hc⟩ := List.exists_mem_of_ne_nil _ hne
    obtain ⟨out, hout, -⟩ := List.mem_map.mp hc
    obtain ⟨o, ho, hreturned⟩ := List.mem_filterMap.mp hout
    obtain ⟨x, hx, hxk⟩ := Option.bind_eq_some_iff.mp hreturned
    obtain rfl : x.2 = out := by
      obtain ⟨hx', -⟩ := Option.filter_eq_some_iff.mp hxk
      unfold transmitted at hx'
      split at hx'
      · exact Option.some.inj hx'
      · cases hx'
    obtain ⟨htx, hkey⟩ := (htransmitted x).mp hxk
    obtain ⟨T, hT⟩ := List.getElem?_of_mem ho
    exact ⟨T, x.2, ⟨o, x.1, hT, hx, htx⟩, hkey⟩
  · rintro ⟨T, out, ⟨o, exit, ho, hreturned, htx⟩, hkey⟩
    apply List.ne_nil_of_mem (a := contents (payload out))
    refine List.mem_map_of_mem (List.mem_filterMap.mpr ⟨o, List.mem_of_getElem? ho, ?_⟩)
    rw [hreturned]
    exact (htransmitted (exit, out)).mpr ⟨htx, hkey⟩

/-- The frame holds a packet of the fleet, and nothing behind it. -/
structure Fleet.SendsIn (F : Fleet) (frame : Bytes) : Prop where
  holds : HoldsUdp netsumPort frame
  whole : udpData frame = payload frame
  sends : F.Sends (payload frame)

theorem Fleet.arriving (h : ∀ frame ∈ arrivals (CpuSystem.init C) es, F.SendsIn frame) :
    Arriving F.workload es := by
  intro frame hframe
  refine ⟨(h frame hframe).holds, ?_⟩
  rw [(h frame hframe).whole]
  exact workload_of_sends (h frame hframe).sends

/-- Only keys of the fleet are transmitted. -/
theorem Fleet.key_transmitted (hframes : ∀ frame ∈ arrivals (CpuSystem.init C) es,
      F.Sends (payload frame))
    (hcurrent : StepsMeet cpuStep PointerCurrent (CpuSystem.init C) es) {T : ℕ} {out : Bytes}
    (htx : TransmittedAt (runOut cpuStep (CpuSystem.init C) es) T out) :
    keyOf out ∈ F.keys := by
  obtain ⟨c, i, frame, L, U, e, batch, -, hout, hsummed⟩ := summed_of_transmitted hcurrent htx
  obtain ⟨hbatch, hpos, -⟩ := hsummed.reports hout
  obtain ⟨x, hx⟩ := List.exists_mem_of_length_pos hpos
  obtain ⟨o, v, ho, hlocked, -⟩ := hbatch.counted x hx
  have hsends := (shows_of_run (P := fun f => F.Sends (payload f)) hframes ho).locked _ _ _ hlocked
  rw [← hbatch.key_eq x hx]
  exact key_mem_keys hsends

/-- The sums of a round are transmitted when all its packets came. -/
theorem Fleet.transmitted_iff [Fintype C] (hrounds : F.numRounds < slotMapEntries)
    (hes : ∀ ev ∈ es, ev.2.Unlimited)
    (hframes : ∀ frame ∈ arrivals (CpuSystem.init C) es, F.Sends (payload frame))
    (honce : ((arrivals (CpuSystem.init C) es).map payload).Nodup)
    (hidle : ∀ c, (runState cpuStep (CpuSystem.init C) es).loc c = .idle) {r : ℕ}
    (hr : r < F.numRounds) :
    (∃ T out, TransmittedAt (runOut cpuStep (CpuSystem.init C) es) T out ∧ keyOf out = F.key r)
      ↔ ∀ w < F.numWorkers, ∃ frame ∈ arrivals (CpuSystem.init C) es,
        payload frame = (F.args w).datagram r := by
  have hcollection := F.collection hrounds (fun _ => counts_of_mem_arrivals) hframes honce
  obtain ⟨A, hA⟩ := exists_progress hcollection (R := F.rounds)
    (fun frame hf => rounds_sends (hframes frame hf)) hes
  obtain ⟨hAk, -, hlen⟩ := hA.of_idle hidle (F.key r)
  have hmem : ∀ w, w ∈ A (F.key r)
      ↔ ∃ frame ∈ arrivals (CpuSystem.init C) es, payload frame = (F.args w).datagram r
        ∧ w < F.numWorkers := by
    intro w
    rw [hAk, List.mem_toFinset, mem_workersOf]
    constructor
    · rintro ⟨frame, hf, hkey, rfl⟩
      refine ⟨frame, hf, datagram_unique (hframes frame hf) hr hkey rfl, ?_⟩
      exact (rounds_sends (hframes frame hf)).1.worker_lt
    · rintro ⟨frame, hf, hd, hw⟩
      refine ⟨frame, hf, ?_, ?_⟩
      · rw [keyOf, hd, F.key_datagram]
      · rw [workerOf, hd, (F.decode_datagram w r).2.1]
        exact F.toNat_workerId hw
  have hsub : A (F.key r) ⊆ Finset.range F.numWorkers := by
    intro w hw
    obtain ⟨-, -, -, hlt⟩ := (hmem w).mp hw
    exact Finset.mem_range.mpr hlt
  have hfull : F.rounds.done A (F.key r) ≠ 0 ↔ A (F.key r) = Finset.range F.numWorkers := by
    have hfan : F.rounds.fanIn (F.key r) = F.numWorkers := rfl
    rw [Rounds.done, hfan]
    constructor
    · intro h
      split at h
      · next hd => exact Finset.eq_of_subset_of_card_le hsub (by rw [Finset.card_range, hd.2])
      · exact absurd rfl h
    · intro h
      have hpos : 0 ∈ A (F.key r) := h ▸ Finset.mem_range.mpr F.one_le
      rw [if_pos ⟨⟨0, hpos⟩, by rw [h, Finset.card_range]⟩]
      exact Nat.one_ne_zero
  rw [← sentFor_ne_nil_iff, ← List.length_pos_iff_ne_nil, Nat.pos_iff_ne_zero, hlen, hfull]
  constructor
  · intro h w hw
    obtain ⟨frame, hf, hd, -⟩ := (hmem w).mp (h ▸ Finset.mem_range.mpr hw)
    exact ⟨frame, hf, hd⟩
  · intro h
    refine Finset.Subset.antisymm hsub fun w hw => ?_
    obtain ⟨frame, hf, hd⟩ := h w (Finset.mem_range.mp hw)
    exact (hmem w).mpr ⟨frame, hf, hd, Finset.mem_range.mp hw⟩

open ParamServer in
/-- **A round goes through** when all its packets reached the host and the sums reached the
server. The CPUs take each packet once, in any interleaving, and the network to the server may
lose, double and reorder what they transmit. Of what they transmit, the server's stack delivers
every frame that is for its host and port. -/
theorem xdp_rounds_complete [Fintype C] (hrounds : F.numRounds < slotMapEntries)
    (hes : ∀ ev ∈ es, ev.2.Unlimited)
    (hframes : ∀ frame ∈ arrivals (CpuSystem.init C) es, F.SendsIn frame)
    (honce : ((arrivals (CpuSystem.init C) es).map payload).Nodup)
    (hidle : ∀ c, (runState cpuStep (CpuSystem.init C) es).loc c = .idle) {port : ℕ}
    (stack : UdpStack port) (packet : UserspaceAgg.Buffer) {ps : List Event}
    (hps : ∀ ev ∈ ps, ∀ p, ev.received = some p → ∃ T out,
      TransmittedAt (runOut cpuStep (CpuSystem.init C) es) T out ∧ stack.deliver out = some p)
    {r : ℕ} (hr : r < F.numRounds) (U : ℕ) :
    ((∃ T out, TransmittedAt (runOut cpuStep (CpuSystem.init C) es) T out ∧ keyOf out = F.key r)
      ↔ ∀ w < F.numWorkers, ∃ frame ∈ arrivals (CpuSystem.init C) es,
        payload frame = (F.args w).datagram r)
    ∧ (∀ T out, TransmittedAt (runOut cpuStep (CpuSystem.init C) es) T out → stack.ForHost out →
      (be16 out (udpOff + 2)).toNat = port → (stack.deliver out).isSome)
    ∧ ((∃ T < U, CompletesAt ps (runOut (mainStep .agg) (State.init packet) ps) (F.key r) T)
      ↔ ∃ T < U, ∃ ev p, ps[T]? = some ev ∧ ev.received = some p
        ∧ (GradHdr.decode p).key = F.key r)
    ∧ ((∃ T < U, CompletesAt ps (runOut (mainStep .agg) (State.init packet) ps) (F.key r) T) →
      F.Recorded (stateAt (mainStep .agg) (State.init packet) ps U).gSlots r) := by
  have hsends : ∀ frame ∈ arrivals (CpuSystem.init C) es, F.Sends (payload frame) :=
    fun frame hframe => (hframes frame hframe).sends
  have hcollection := F.collection hrounds (fun _ => counts_of_mem_arrivals) hsends honce
  have harriving := Fleet.arriving hframes
  have hcurrent := stepsMeet_current hcollection hes
  refine ⟨F.transmitted_iff hrounds hes hsends honce hidle hr, fun T out htx hhost hport => ?_,
    F.sums_recorded packet (fun ev hev p hp => ?_) hr U⟩
  · obtain ⟨c, i, -, hout⟩ := outgoing_of_transmitted
      (fun frame hf => (harriving.holdsValues frame hf).1) hcurrent htx
    have hholds : HoldsUdp port out := by
      rw [← hport, hout.datagram.port]
      exact (holdsUdp_iff_of_ihl hout.datagram.ihl).mpr ⟨hout.datagram, hout.verifies⟩
    rw [(stack.deliver_iff hout.datagram.ip _).mpr ⟨⟨hhost, hholds⟩, rfl⟩]
    rfl
  · obtain ⟨T, out, htx, hdeliver⟩ := hps ev hev p hp
    obtain ⟨hreduced, hkey⟩ := sends_reduced_of_delivered harriving hcurrent stack htx hdeliver
    exact ⟨hreduced, hkey ▸ Fleet.key_transmitted hsends hcurrent htx⟩

end

open XdpAgg in
/-- The frames of the two workers come to two CPUs, one of which looks the key up before the other
has counted its frame. -/
def halvesRun : List (Fin 2 × CpuInput) :=
  let frame := fun w => inputFor 0 0 (wholeFrame ((halves.args w).datagram 0))
  List.replicate 7 (0, frame 0) ++ List.replicate 2 (1, frame 1) ++ List.replicate 1 (0, frame 0)
    ++ List.replicate 7 (1, frame 1)

open XdpAgg ParamServer in
/-- Both frames arrived, so the sum of the halves is transmitted. It reaches the server, twice, and
is recorded. -/
theorem xdp_rounds_complete_halves :
    let sum := workerPacket ⟨1, 0, 0, 0, 1, 1, 0⟩ fun _ => 65536
    let ps := [Event.deliver sum, .deliver sum]
    (∃ T out, TransmittedAt (runOut cpuStep (CpuSystem.init (Fin 2)) halvesRun) T out
        ∧ keyOf out = halves.key 0)
      ∧ halves.Recorded (stateAt (mainStep .agg) (.init .zero) ps 2).gSlots 0 := by
  intro sum ps
  have harrivals : arrivals (CpuSystem.init (Fin 2)) halvesRun
      = [0, 1].map fun w => wholeFrame ((halves.args w).datagram 0) := by decide +kernel
  have hpayload : ∀ w < 2, payload (wholeFrame ((halves.args w).datagram 0))
      = (halves.args w).datagram 0 := by decide +kernel
  have hholds : ∀ w < 2, HoldsUdp netsumPort (wholeFrame ((halves.args w).datagram 0))
      ∧ udpData (wholeFrame ((halves.args w).datagram 0)) = (halves.args w).datagram 0 := by
    decide +kernel
  have hes : ∀ ev ∈ halvesRun, ev.2.Unlimited := by
    intro ev hev
    simp only [halvesRun, List.mem_append, List.mem_replicate] at hev
    rcases hev with ((⟨-, rfl⟩ | ⟨-, rfl⟩) | ⟨-, rfl⟩) | ⟨-, rfl⟩ <;> exact inputFor_unlimited _ _
  have hframes : ∀ frame ∈ arrivals (CpuSystem.init (Fin 2)) halvesRun, halves.SendsIn frame := by
    intro frame hframe
    rw [harrivals] at hframe
    obtain ⟨w, hw, rfl⟩ := List.mem_map.mp hframe
    have hw' : w < 2 := by
      rcases List.mem_pair.mp hw with rfl | rfl <;> decide
    refine ⟨(hholds w hw').1, (hholds w hw').2.trans (hpayload w hw').symm, ?_⟩
    exact Fleet.sends_iff.mpr ⟨w, hw', 0, by decide, hpayload w hw'⟩
  have hps : ∀ ev ∈ ps, ∀ p, ev.received = some p → ∃ T out,
      TransmittedAt (runOut cpuStep (CpuSystem.init (Fin 2)) halvesRun) T out
        ∧ psHost.deliver out = some p := by
    have hreturned : ∃ x, ((runOut cpuStep (CpuSystem.init (Fin 2)) halvesRun)[16]?.bind
        CpuOutput.returned) = some x ∧ x.1.action = .tx ∧ psHost.deliver x.2 = some sum :=
      ⟨_, rfl, by decide +kernel, by decide +kernel⟩
    obtain ⟨x, hx, htx, hp⟩ := hreturned
    obtain ⟨o, ho, hreturned⟩ := Option.bind_eq_some_iff.mp hx
    intro ev hev p hp'
    rcases List.mem_pair.mp hev with rfl | rfl <;> obtain rfl := Option.some.inj hp'
    all_goals exact ⟨16, x.2, ⟨o, x.1, ho, hreturned, htx⟩, hp⟩
  obtain ⟨htransmitted, -, hcompletes, hrecorded⟩ := xdp_rounds_complete (F := halves) (C := Fin 2)
    (by decide) hes hframes (by rw [harrivals]; decide +kernel) (by decide +kernel) psHost .zero hps
    (r := 0) (by decide) 2
  refine ⟨htransmitted.mpr fun w hw => ?_, hrecorded (hcompletes.mpr ?_)⟩
  · have hw' : w < 2 := hw
    refine ⟨wholeFrame ((halves.args w).datagram 0), ?_, hpayload w hw'⟩
    rw [harrivals]
    apply List.mem_map_of_mem
    interval_cases w <;> simp
  · exact ⟨0, by decide, _, sum, rfl, rfl, by decide +kernel⟩

end NetSum
