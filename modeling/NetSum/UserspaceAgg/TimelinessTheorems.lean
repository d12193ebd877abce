import NetSum.UserspaceAgg.RefinementTheorems

/-!
# When the reaper comes

The loop sweeps when a quarter of the TTL has passed since the last sweep, and it gets round to
that as often as it wakes up. If the clock does not go back and no two iterations begin more than
`gap` apart, a slot is silent for less than the TTL, a quarter of it and `gap`, and then is gone; and
it is not evicted while contributions to it keep coming within the TTL (`reaper_timely`).
-/

namespace NetSum.UserspaceAgg

open NetSum.Lib NetSum.Protocol NetSum.Aggregation

/-! ## The clock -/

/-- The clock does not go back, and no two iterations begin more than `gap` apart. The loop is
entered at `now`. -/
structure Clocked (now gap : ℤ) (es : List Event) : Prop where
  reads : ∀ ev ∈ es, ev.nowLoop ≤ ev.nowReap ∧ ev.nowReap ≤ ev.nowFirstSeen
    ∧ ev.nowFirstSeen ≤ ev.nowTouched
  first : ∀ ev, es[0]? = some ev → now ≤ ev.nowLoop ∧ ev.nowLoop ≤ now + gap
  next : ∀ T ev ev', es[T]? = some ev → es[T + 1]? = some ev' →
    ev.nowTouched ≤ ev'.nowLoop ∧ ev'.nowLoop ≤ ev.nowLoop + gap

/-- The last reading at the head of the loop before iteration `T`. -/
def lastLoop (now : ℤ) (es : List Event) : ℕ → ℤ
  | 0 => now
  | T + 1 => (es[T]?.map Event.nowLoop).getD now

section

variable {now gap : ℤ} {es : List Event} {ev ev' : Event} {T T' : ℕ}

theorem lastLoop_succ (hev : es[T]? = some ev) : lastLoop now es (T + 1) = ev.nowLoop := by
  rw [lastLoop, hev]
  rfl

theorem Clocked.loop_le_touched (h : Clocked now gap es) (hev : es[T]? = some ev) :
    ev.nowLoop ≤ ev.nowTouched := by
  obtain ⟨h1, h2, h3⟩ := h.reads ev (List.mem_of_getElem? hev)
  omega

/-- From one head of the loop to the next. -/
theorem Clocked.lastLoop_le (h : Clocked now gap es) (hev : es[T]? = some ev) :
    lastLoop now es T ≤ ev.nowLoop ∧ ev.nowLoop ≤ lastLoop now es T + gap := by
  cases T with
  | zero => exact h.first ev hev
  | succ T =>
    obtain ⟨hlt, -⟩ := List.getElem?_eq_some_iff.mp hev
    have hbefore : es[T]? = some (es.get ⟨T, by omega⟩) := List.getElem?_eq_getElem _
    obtain ⟨hle, hgap⟩ := h.next T _ ev hbefore hev
    have hreads := h.loop_le_touched hbefore
    rw [lastLoop_succ hbefore]
    omega

/-- An iteration reads the clock after all that came before it have. -/
theorem Clocked.touched_le_loop (h : Clocked now gap es) (hev : es[T]? = some ev)
    (hev' : es[T']? = some ev') (hlt : T < T') : ev.nowTouched ≤ ev'.nowLoop := by
  induction T' generalizing ev' with
  | zero => exact absurd hlt (Nat.not_lt_zero T)
  | succ T' ih =>
    obtain ⟨hlen, -⟩ := List.getElem?_eq_some_iff.mp hev'
    have hbefore : es[T']? = some (es.get ⟨T', by omega⟩) := List.getElem?_eq_getElem _
    have hnext := (h.next T' _ ev' hbefore hev').1
    rcases Nat.lt_succ_iff_lt_or_eq.mp hlt with hlt | rfl
    · have hbefore' := ih hbefore hlt
      have hreads := h.loop_le_touched hbefore
      omega
    · obtain rfl := Option.some.inj (hev.symm.trans hbefore)
      exact hnext

end

/-! ## The sweeps -/

/-- At the head of the loop the last sweep is not long ago, and no slot had then been silent for
the TTL. -/
structure State.Swept (args : Args) (clock : ℤ) (st : State) : Prop where
  lastReap_le : st.lastReapMicros ≤ clock
  recent : clock - st.lastReapMicros < args.reapIntervalMicros
  alive : ∀ i, (st.tables.gSlots i).inUse = true →
    st.lastReapMicros - (st.tables.gSlots i).lastTouchedMicros < args.slotTtlMs * 1000

section

variable {args : Args} {st : State} {ev : Event} {clock : ℤ}

theorem Args.reapIntervalMicros_pos (args : Args) : 0 < args.reapIntervalMicros := by
  unfold Args.reapIntervalMicros
  dsimp only
  split <;> omega

/-- The reaper phase sweeps if the interval is over. -/
theorem State.Swept.reapPhase (h : st.Swept args clock) (httl : 0 < args.slotTtlMs)
    (hclock : clock ≤ ev.nowLoop) (hreads : ev.nowLoop ≤ ev.nowReap) :
    (UserspaceAgg.reapPhase args st ev).1.Swept args ev.nowLoop := by
  by_cases hdue : 0 < args.slotTtlMs ∧ ev.nowLoop - st.lastReapMicros ≥ args.reapIntervalMicros
  · obtain ⟨r, hr, hphase⟩ := reapPhase_of_due hdue
    rw [hphase]
    refine ⟨le_rfl, ?_, fun i hi => ?_⟩
    · show ev.nowLoop - ev.nowLoop < _
      rw [sub_self]
      exact args.reapIntervalMicros_pos
    · -- what the sweep leaves was heard of within the TTL
      have hkept : ((reapExpiredSlots args.slotTtlMs ev.nowReap st.tables).1.gSlots i).inUse = true :=
        hr ▸ hi
      have hsilent := ((reapExpiredSlots_inUse ..).mp hkept).2
      have hslot : r.1.gSlots i = st.tables.gSlots i := by
        have hgslots := reapExpiredSlots_gSlots args.slotTtlMs ev.nowReap st.tables i
        rw [← hr] at hgslots
        rw [hgslots, if_neg]
        rintro ⟨-, hexpired⟩
        omega
      show ev.nowLoop - (r.1.gSlots i).lastTouchedMicros < _
      rw [hslot]
      omega
  · rw [reapPhase_of_not_due hdue]
    have hrecent : ¬ ev.nowLoop - st.lastReapMicros ≥ args.reapIntervalMicros :=
      fun hover => hdue ⟨httl, hover⟩
    exact ⟨h.lastReap_le.trans hclock, not_le.mp hrecent, h.alive⟩

/-- What a sweep that is due logs. -/
theorem mem_reaped_iff {i : SlotIdx} : i ∈ (UserspaceAgg.reapPhase args st ev).2
    ↔ (0 < args.slotTtlMs ∧ ev.nowLoop - st.lastReapMicros ≥ args.reapIntervalMicros)
      ∧ (st.tables.gSlots i).Expired (args.slotTtlMs * 1000) ev.nowReap := by
  by_cases hdue : 0 < args.slotTtlMs ∧ ev.nowLoop - st.lastReapMicros ≥ args.reapIntervalMicros
  · obtain ⟨r, hr, hphase⟩ := reapPhase_of_due hdue
    have hmem := mem_reapExpiredSlots args.slotTtlMs ev.nowReap st.tables i
    rw [← hr] at hmem
    rw [hphase, and_iff_right hdue]
    exact hmem
  · rw [reapPhase_of_not_due hdue]
    exact iff_of_false List.not_mem_nil fun h => hdue h.1

/-- One iteration. What is counted is counted after the sweep. -/
theorem State.Swept.step (h : st.Swept args clock) (hok : st.tables.Ok)
    (httl : 0 < args.slotTtlMs) (hclock : clock ≤ ev.nowLoop) (hreads : ev.nowLoop ≤ ev.nowReap)
    (htouched : ev.nowLoop ≤ ev.nowTouched) :
    (mainStep args st ev).1.Swept args ev.nowLoop := by
  have hswept := h.reapPhase httl hclock hreads
  have hlast : (mainStep args st ev).1.lastReapMicros
      = (UserspaceAgg.reapPhase args st ev).1.lastReapMicros := (receivePhase_counts ..).1
  refine ⟨hlast ▸ hswept.lastReap_le, hlast ▸ hswept.recent, fun i hi => ?_⟩
  rw [hlast]
  rcases (mainStep_effect_of_ok args hok ev).slot_cases i with
    ⟨hsame, -⟩ | ⟨d, s, g, -, -, hacc, -, ⟨-, hs, -⟩ | ⟨-, hs, -⟩⟩
  · rw [hsame] at hi ⊢
    exact hswept.alive i hi
  · rw [hs, hacc.lastTouched]
    have hle := hswept.lastReap_le
    omega
  · rw [hs] at hi
    cases hi

end

/-! ## Runs -/

section

variable {args : Args} {inPacket outPacket : Buffer} {now gap : ℤ} {es : List Event} {T : ℕ}
  {i : SlotIdx}

theorem swept_run (httl : 0 < args.slotTtlMs) (hclock : Clocked now gap es) :
    ∀ T ≤ es.length, (stateAt (mainStep args) (State.init inPacket outPacket now) es T).Swept args
      (lastLoop now es T) := by
  refine stateAt_induction (fun T (st : State) => st.Swept args (lastLoop now es T)) ?_
    fun T ev hev h => ?_
  · refine ⟨le_rfl, ?_, fun i hi => by cases hi⟩
    show now - now < _
    rw [sub_self]
    exact args.reapIntervalMicros_pos
  · rw [lastLoop_succ hev]
    exact h.step (ok_stateAt args (State.init_ok inPacket outPacket now) es T) httl
      (hclock.lastLoop_le hev).1 (hclock.reads ev (List.mem_of_getElem? hev)).1
      (hclock.loop_le_touched hev)

/-- A slot in use holds the time of the latest contribution. -/
theorem touchedAt_run (hT : T ≤ es.length)
    (hi : ((stateAt (mainStep args) (State.init inPacket outPacket now) es T).tables.gSlots i).inUse
      = true) :
    TouchedAt es (runOut (mainStep args) (State.init inPacket outPacket now) es) i T
      ((stateAt (mainStep args) (State.init inPacket outPacket now) es T).tables.gSlots i) := by
  refine stateAt_induction (fun T (st : State) => ∀ i, (st.tables.gSlots i).inUse = true →
    TouchedAt es (runOut (mainStep args) (State.init inPacket outPacket now) es) i T
      (st.tables.gSlots i)) (fun i hi => by cases hi) (fun T ev hev h => ?_) T hT i hi
  refine touched_mainStep (ok_stateAt args (State.init_ok inPacket outPacket now) es T) hev ?_ h
  rw [runOut_getElem?, hev]
  rfl

/-- No contribution to a slot is later than its latest. -/
theorem TouchedAt.touched_le {os : List Output} {s : Slot} (h : TouchedAt es os i T s)
    (hclock : Clocked now gap es) {u : ℕ} (hu : u < T) {d : Bytes} (hcount : CountedAt es os i u d)
    {ev : Event} (hev : es[u]? = some ev) : ev.nowTouched ≤ s.lastTouchedMicros := by
  obtain ⟨v, hv, d', ev', -, -, hev', htouch, hlater⟩ := h
  rw [← htouch]
  rcases lt_trichotomy u v with hlt | rfl | hgt
  · exact (hclock.touched_le_loop hev hev' hlt).trans (hclock.loop_le_touched hev')
  · obtain rfl := Option.some.inj (hev.symm.trans hev')
    exact le_rfl
  · exact absurd hcount (hlater u hgt hu d)

/-- **The reaper is in time**, and not early. At the head of the loop every slot in use was
contributed to less than the TTL, the interval of the sweeps and `gap` ago; and no slot is evicted
to which anything was contributed within the TTL. -/
theorem reaper_timely (httl : 0 < args.slotTtlMs) (hclock : Clocked now gap es) {ev : Event}
    (hev : es[T]? = some ev) :
    let st := stateAt (mainStep args) (State.init inPacket outPacket now) es T
    let os := runOut (mainStep args) (State.init inPacket outPacket now) es
    (∀ i, (st.tables.gSlots i).inUse = true → ∃ u < T, ∃ d ev', CountedAt es os i u d
      ∧ es[u]? = some ev'
      ∧ ev.nowLoop - ev'.nowTouched < args.slotTtlMs * 1000 + args.reapIntervalMicros + gap)
    ∧ ∀ i ∈ (mainStep args st ev).2.reaped, ∀ u < T, ∀ d ev', CountedAt es os i u d →
      es[u]? = some ev' → args.slotTtlMs * 1000 ≤ ev.nowReap - ev'.nowTouched := by
  intro st os
  obtain ⟨hlt, -⟩ := List.getElem?_eq_some_iff.mp hev
  refine ⟨fun i hi => ?_, fun i hi u hu d ev' hcount hev' => ?_⟩
  · have hswept : st.Swept args (lastLoop now es T) := swept_run httl hclock T hlt.le
    obtain ⟨u, hu, d, ev', hcount, -, hev', htouch, -⟩ := touchedAt_run hlt.le hi
    refine ⟨u, hu, d, ev', hcount, hev', ?_⟩
    have hrecent := hswept.recent
    have halive := hswept.alive i hi
    have hgap := (hclock.lastLoop_le hev).2
    rw [← htouch] at halive
    omega
  · have hexpired := (mem_reaped_iff.mp hi).2
    have hle : ev'.nowTouched ≤ (st.tables.gSlots i).lastTouchedMicros :=
      (touchedAt_run hlt.le hexpired.1).touched_le hclock hu hcount hev'
    have hsilent := hexpired.2
    omega

end

/-- A datagram of one worker of two, a timeout after 5 ms, and one after 45 ms, at which the slot is
evicted. -/
theorem reaper_timely_evicted :
    let es := [received 1 0 0 5, ⟨5000, 5000, 5000, 5000, none, true⟩,
      ⟨45000, 45000, 45000, 45000, none, true⟩]
    let os := runOut (mainStep ⟨0, 40⟩) (State.init .zero .zero 0) es
    (∃ o, os[2]? = some o ∧ 56546 ∈ o.reaped)
      ∧ ∃ u < 2, ∃ d ev', CountedAt es os 56546 u d ∧ es[u]? = some ev'
        ∧ 40 * 1000 ≤ 45000 - ev'.nowTouched ∧ 45000 - ev'.nowTouched < 40 * 1000 + 10000 + 40000 := by
  intro es os
  have hclock : Clocked 0 40000 es := by
    refine ⟨fun ev hev => ?_, fun ev hev => ?_, fun T ev ev' hev hev' => ?_⟩
    · simp only [es, List.mem_cons, List.not_mem_nil, or_false] at hev
      rcases hev with rfl | rfl | rfl <;> decide
    · obtain rfl := Option.some.inj hev
      decide
    · have hT : T < 2 := Nat.lt_of_succ_lt_succ (List.getElem?_eq_some_iff.mp hev').1
      interval_cases T
      all_goals
        obtain rfl := Option.some.inj hev
        obtain rfl := Option.some.inj hev'
        decide
  have httl : 0 < (⟨0, 40⟩ : Args).slotTtlMs := by decide
  let st := stateAt (mainStep ⟨0, 40⟩) (State.init .zero .zero 0) es 2
  have hinUse : (st.tables.gSlots 56546).inUse = true := by decide +kernel
  have hreaped : 56546 ∈ (reapPhase ⟨0, 40⟩ st ⟨45000, 45000, 45000, 45000, none, true⟩).2 :=
    mem_reaped_iff.mpr ⟨by decide +kernel, by decide +kernel⟩
  obtain ⟨hheard, hsilent⟩ := @reaper_timely ⟨0, 40⟩ .zero .zero 0 40000 es 2 httl hclock _ rfl
  obtain ⟨u, hu, d, ev', hcount, hev', hlt⟩ := hheard 56546 hinUse
  exact ⟨⟨_, rfl, hreaped⟩, u, hu, d, ev', hcount, hev',
    hsilent 56546 hreaped u hu d ev' hcount hev', hlt⟩

end NetSum.UserspaceAgg
