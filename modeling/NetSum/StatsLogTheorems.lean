import NetSum.FairnessTheorems
import NetSum.Lib.Text
import NetSum.UserspaceAgg.AtomicityTheorems

/-!
# Reading the log

On request, the aggregator prints a line for each entry of its job table, among whatever else it
logs. `scripts/fairness_sweep.py` searches the log for these lines with a regular expression, and
keeps what it reads by job. It finds each of them, and nothing in the other lines
(`findAll_text`). An entry is never given up, so each job's last line is of the last request, and
the script reads the job table as it was then (`foundStats_printed`).
-/

namespace NetSum

open NetSum.Lib NetSum.Protocol NetSum.Aggregation UserspaceAgg Scripts

/-! ## The lines -/

namespace UserspaceAgg

/-- The parts of the line's format, between which the numbers stand. `STATS_RE` has the same, with
its bracket and braces escaped. -/
def jobIdText : List Char := "[stats] \x7b\"job_id\":".toList

def concurrentSlotsText : List Char := ",\"concurrent_slots\":".toList

def admittedCountText : List Char := ",\"admitted_count\":".toList

def rejectedCountText : List Char := ",\"rejected_count\":".toList

def closingText : List Char := "\x7d".toList

/-- The line that `dump_job_stats` prints for an entry. -/
def statsLine (e : JobEntry) : List Char :=
  jobIdText ++ Nat.toDigits 10 e.jobId.toNat
    ++ concurrentSlotsText ++ Nat.toDigits 10 e.concurrentSlots.toNat
    ++ admittedCountText ++ Nat.toDigits 10 e.admittedCount.toNat
    ++ rejectedCountText ++ Nat.toDigits 10 e.rejectedCount.toNat ++ closingText ++ ['\n']

/-- A line of the log. -/
inductive LogLine where
  | stats (e : JobEntry)
  | other (text : List Char)

namespace LogLine

def text : LogLine → List Char
  | stats e => statsLine e
  | other text => text

def entry : LogLine → Option JobEntry
  | stats e => some e
  | other _ => none

/-- The other lines end as lines do, and do not contain the beginning of a line of statistics. -/
def Plain : LogLine → Prop
  | stats _ => True
  | other text => text.getLast? = some '\n' ∧ ¬ jobIdText <:+: text

/-- The other lines that the aggregator prints have no quotation mark. -/
theorem plain_of_quote_notMem {text : List Char} (hend : text.getLast? = some '\n')
    (hquote : '"' ∉ text) : (other text).Plain := by
  have hmem : '"' ∈ jobIdText := by decide +kernel
  exact ⟨hend, fun hhas => hquote (hhas.subset hmem)⟩

end LogLine

end UserspaceAgg

/-! ## The regular expression -/

namespace Scripts

/-- The groups of a match of `STATS_RE`. -/
structure Stats where
  jobId : ℕ
  concurrentSlots : ℕ
  admittedCount : ℕ
  rejectedCount : ℕ
deriving DecidableEq

/-- `STATS_RE`. Behind each number it has a character that is no digit, so a number is matched in
full or not at all. -/
def statsRe (cs : List Char) : Option (Stats × List Char) := do
  let (jobId, cs) ← field jobIdText cs
  let (concurrentSlots, cs) ← field concurrentSlotsText cs
  let (admittedCount, cs) ← field admittedCountText cs
  let (rejectedCount, cs) ← field rejectedCountText cs
  let cs ← cs.dropPrefix? closingText
  return (⟨jobId, concurrentSlots, admittedCount, rejectedCount⟩, cs)

/-- `found.get(job_id)`. Of two matches for one job the later one counts. -/
def foundStats (log : List Char) (jobId : ℕ) : Option Stats :=
  (findAll statsRe log).reverse.find? fun m => m.jobId = jobId

end Scripts

/-- What is to be read of an entry. -/
def UserspaceAgg.JobEntry.stats (e : JobEntry) : Stats :=
  ⟨e.jobId.toNat, e.concurrentSlots.toNat, e.admittedCount.toNat, e.rejectedCount.toNat⟩

/-! ## Round trip -/

/-- A line is read back, up to its end. -/
theorem statsRe_statsLine (e : JobEntry) (rest : List Char) :
    statsRe (statsLine e ++ rest) = some (e.stats, '\n' :: rest) := by
  have hslots : concurrentSlotsText.head? = some ',' := by decide +kernel
  have hadmitted : admittedCountText.head? = some ',' := by decide +kernel
  have hrejected : rejectedCountText.head? = some ',' := by decide +kernel
  have hclosing : closingText.head? = some '\x7d' := by decide +kernel
  simp only [statsLine, List.append_assoc]
  rw [statsRe, field_append _ _ hslots (by decide)]
  dsimp only [Option.bind_eq_bind, Option.bind_some]
  rw [field_append _ _ hadmitted (by decide)]
  dsimp only [Option.bind_eq_bind, Option.bind_some]
  rw [field_append _ _ hrejected (by decide)]
  dsimp only [Option.bind_eq_bind, Option.bind_some]
  rw [field_append _ _ hclosing (by decide)]
  dsimp only [Option.bind_eq_bind, Option.bind_some]
  rw [dropPrefix_append]
  rfl

/-- Nothing is read in another line. -/
theorem findAll_other {text : List Char} (hend : text.getLast? = some '\n')
    (hno : ¬ jobIdText <:+: text) (rest : List Char) :
    findAll statsRe (text ++ rest) = findAll statsRe rest := by
  have hnewline : '\n' ∉ jobIdText := by decide +kernel
  refine findAll_append_of_none fun s hne hs => ?_
  rw [statsRe, field, dropPrefix_eq_none hend hnewline hno hne hs]
  rfl

/-- A line is read as its entry. -/
theorem findAll_statsLine (e : JobEntry) (rest : List Char) :
    findAll statsRe (statsLine e ++ rest) = e.stats :: findAll statsRe rest := by
  have hclosing : closingText ≠ [] := by decide +kernel
  have hno : ¬ jobIdText <:+: ['\n'] := by decide +kernel
  have hread := statsRe_statsLine e rest
  rw [statsLine, List.append_assoc] at hread ⊢
  rw [List.singleton_append] at hread ⊢
  rw [findAll_append_of_match hread (List.append_ne_nil_of_right_ne_nil _ hclosing)]
  exact congrArg (e.stats :: ·) (findAll_other rfl hno rest)

/-- The lines of statistics are read, in order. -/
theorem findAll_text {log : List LogLine} (hplain : ∀ l ∈ log, l.Plain) :
    findAll statsRe (log.flatMap LogLine.text)
      = (log.filterMap LogLine.entry).map JobEntry.stats := by
  induction log with
  | nil => rfl
  | cons l log ih =>
    have ih := ih fun l' hl' => hplain l' (List.mem_cons_of_mem l hl')
    rw [List.flatMap_cons]
    cases l with
    | stats e =>
      rw [LogLine.text, findAll_statsLine, ih]
      rfl
    | other text =>
      obtain ⟨hend, hno⟩ := hplain _ List.mem_cons_self
      rw [LogLine.text, findAll_other hend hno, ih]
      rfl

/-- What the script keeps for a job is of the last line with the job's id. -/
theorem foundStats_text {log : List LogLine} (hplain : ∀ l ∈ log, l.Plain) (jobId : BitVec 32) :
    foundStats (log.flatMap LogLine.text) jobId.toNat
      = ((log.filterMap LogLine.entry).reverse.find? fun e => e.jobId = jobId).map
        JobEntry.stats := by
  have hid : ∀ e : JobEntry, e.stats.jobId = jobId.toNat ↔ e.jobId = jobId :=
    fun e => BitVec.toNat_inj
  rw [foundStats, findAll_text hplain, ← List.map_reverse, List.find?_map]
  simp only [Function.comp_def, hid]

/-- What `trialIndex` looks up among the entries is what the script finds in the text. -/
theorem foundSlots_text {log : List LogLine} (hplain : ∀ l ∈ log, l.Plain) (jobId : BitVec 32) :
    (foundStats (log.flatMap LogLine.text) jobId.toNat).map Stats.concurrentSlots
      = foundSlots (log.filterMap LogLine.entry) jobId := by
  rw [foundStats_text hplain, Option.map_map]
  rfl

/-! ## The entries of a run -/

namespace UserspaceAgg

/-- An entry of the job table stays its job's. -/
def Retains (g g' : Jobs) : Prop := ∀ j jobId, jobOcc g j = some jobId → jobOcc g' j = some jobId

section

variable {q : ℤ} {ev : Event} {t t' : Tables} {v : Verdict} {slot : Option SlotIdx}
  {sent : Option Bytes} {jobId : BitVec 32} {g g' g'' : Jobs}

theorem Retains.refl (g : Jobs) : Retains g g := fun _ _ hj => hj

theorem Retains.trans (h : Retains g g') (h' : Retains g' g'') : Retains g g'' :=
  fun j jobId hj => h' j jobId (h j jobId hj)

theorem OwnJobOnly.retains (h : OwnJobOnly jobId g g') : Retains g g' := by
  intro j jobId' hj
  by_cases hsame : g' j = g j
  · rwa [jobOcc, hsame]
  · obtain ⟨hafter, hown | hfree⟩ := h j hsame
    · rwa [← hj, hown]
    · rw [hj] at hfree
      cases hfree

theorem retains_freeSlot (h : t.Accounted) {i : SlotIdx} (hi : (t.gSlots i).inUse = true) :
    Retains t.gJobs (freeSlot t i).gJobs :=
  (OwnJobOnly.freeSlot h hi).retains

theorem Refuses.retains (h : Refuses q jobId g g') : Retains g g' := by
  cases h with
  | @existing j hj hquota =>
    exact (OwnJobOnly.update (e := (g j).reject) (jobOcc_eq_some.mp hj) (.inl hj)).retains
  | created hfree habs hquota => exact (OwnJobOnly.update ⟨rfl, rfl⟩ (.inr hfree)).retains

theorem Effect.retains (h : Effect q ev t t' v slot sent) (ht : t.Accounted) :
    Retains t.gJobs t'.gJobs := by
  cases h with
  | idle hr => exact .refl _
  | screened hr hscreen => exact .refl _
  | full hr hd hfull => exact .refl _
  | refused hr hd hprobe hocc hfind hquota =>
    exact (refuses_of_findOrCreateJob ht.jobsOk hfind hquota).retains
  | mismatch hr hd hprobe hocc hlen => exact .refl _
  | duplicate hr hd hprobe hocc hlen hseen => exact .refl _
  | absorbed hr hd hacc hlt => exact (hacc.ownJobOnly ht).retains
  | @complete d i s g p hr hd hacc hge hsent =>
    have hinUse : (Function.update t.gSlots i s i).inUse = true := by
      rw [Function.update_self]
      exact (Slot.occupant_eq_some.mp hacc.occupant.1).1
    exact (hacc.ownJobOnly ht).retains.trans (retains_freeSlot (hacc.accounted ht) hinUse)

end

section

variable (args : Args) {st : State}

theorem reapPhase_retains (h : st.tables.Accounted) (ev : Event) :
    Retains st.tables.gJobs (reapPhase args st ev).1.tables.gJobs :=
  (reapPhase_induction (fun t => t.Accounted ∧ Retains st.tables.gJobs t.gJobs)
    (fun _ _ hi ht => ⟨ht.1.freeSlot hi, ht.2.trans (retains_freeSlot ht.1 hi)⟩) args
    ⟨h, .refl _⟩ ev).2

/-- The receive phase gives up no entry. -/
theorem mainStep_retains (hok : st.tables.Ok) (h : st.tables.Accounted) (ev : Event) :
    Retains (reapPhase args st ev).1.tables.gJobs (mainStep args st ev).1.tables.gJobs :=
  (mainStep_effect_of_ok args hok ev).retains (reapPhase_accounted args h ev)

theorem retains_run (hok : st.tables.Ok) (h : st.tables.Accounted) (es : List Event) :
    Retains st.tables.gJobs (runState (mainStep args) st es).tables.gJobs := by
  induction es generalizing st with
  | nil => exact .refl _
  | cons ev es ih =>
    obtain ⟨hok', h'⟩ : (mainStep args st ev).1.tables.Ok
        ∧ (mainStep args st ev).1.tables.Accounted := accounted_run hok h [ev]
    exact ((reapPhase_retains args h ev).trans (mainStep_retains args hok h ev)).trans (ih hok' h')

end

/-! ## What a run prints -/

/-- The lines of statistics that a run prints, with the iterations that find a request. These
print the job table behind their reaper phase. -/
def statsPrinted (args : Args) : State → List (Event × Bool) → List JobEntry
  | _, [] => []
  | st, (ev, requested) :: es =>
    (if requested then dumpJobStats (reapPhase args st ev).1.tables.gJobs else [])
      ++ statsPrinted args (mainStep args st ev).1 es

section

variable (args : Args) {st : State}

theorem statsPrinted_append (es later : List (Event × Bool)) :
    statsPrinted args st (es ++ later) = statsPrinted args st es
      ++ statsPrinted args (runState (mainStep args) st (es.map Prod.fst)) later := by
  induction es generalizing st with
  | nil => rfl
  | cons e es ih =>
    simp only [List.cons_append, statsPrinted, ih, List.append_assoc, List.map_cons, runState_cons]

/-- Nothing is printed unasked. -/
theorem statsPrinted_unasked {es : List (Event × Bool)} (h : ∀ e ∈ es, e.2 = false) :
    statsPrinted args st es = [] := by
  induction es generalizing st with
  | nil => rfl
  | cons e es ih =>
    rw [statsPrinted, h e List.mem_cons_self, ih fun e' he' => h e' (List.mem_cons_of_mem e he')]
    rfl

/-- A job that a line was printed for still has an entry. -/
theorem entry_of_printed (hok : st.tables.Ok) (h : st.tables.Accounted)
    {es : List (Event × Bool)} {e : JobEntry} (he : e ∈ statsPrinted args st es) :
    ∃ j, jobOcc (runState (mainStep args) st (es.map Prod.fst)).tables.gJobs j = some e.jobId := by
  induction es generalizing st with
  | nil => cases he
  | cons first es ih =>
    obtain ⟨ev, requested⟩ := first
    obtain ⟨hok', h'⟩ : (mainStep args st ev).1.tables.Ok
        ∧ (mainStep args st ev).1.tables.Accounted := accounted_run hok h [ev]
    rcases List.mem_append.mp he with hnow | hlater
    · cases requested with
      | false => cases hnow
      | true =>
        obtain ⟨hu, j, rfl⟩ := mem_dumpJobStats.mp hnow
        exact ⟨j, retains_run args hok' h' _ j _
          (mainStep_retains args hok h ev j _ (jobOcc_eq_some.mpr ⟨hu, rfl⟩))⟩
    · exact ih hok' h' hlater

end

end UserspaceAgg

/-- Behind earlier lines of jobs that still have entries, the last line of a job is the one of its
entry. -/
theorem find_append_dumpJobStats {g : Jobs} (hg : JobsOk g) {before : List JobEntry}
    (hbefore : ∀ e ∈ before, ∃ j, jobOcc g j = some e.jobId) {jobId : BitVec 32} {e : JobEntry} :
    ((before ++ dumpJobStats g).reverse.find? fun e => e.jobId = jobId) = some e
      ↔ ∃ j, jobOcc g j = some jobId ∧ g j = e := by
  rw [List.reverse_append, List.find?_append, ← find_dumpJobStats hg]
  cases hfind : (dumpJobStats g).reverse.find? fun e => e.jobId = jobId with
  | some e' => rw [Option.some_or]
  | none =>
    -- a job without an entry has no earlier line
    have hnone : (before.reverse.find? fun e => e.jobId = jobId) = none := by
      refine List.find?_eq_none.mpr fun e he hid => ?_
      obtain ⟨j, hj⟩ := hbefore e (List.mem_reverse.mp he)
      rw [of_decide_eq_true hid] at hj
      rw [(find_dumpJobStats hg).mpr ⟨j, hj, rfl⟩] at hfind
      cases hfind
    rw [hnone, Option.none_or]

/-- **What the script reads.** After any run, whatever else was logged and however often the
statistics were asked for before, the script finds for a job exactly what the job table held for it
when they were last asked for. -/
theorem foundStats_printed (args : Args) (inPacket outPacket : Buffer) (now : ℤ)
    {es later : List (Event × Bool)} {ev : Event} (hlater : ∀ e ∈ later, e.2 = false)
    {log : List LogLine} (hplain : ∀ l ∈ log, l.Plain)
    (hlog : log.filterMap LogLine.entry
      = statsPrinted args (State.init inPacket outPacket now) (es ++ (ev, true) :: later))
    (jobId : BitVec 32) (m : Stats) :
    let st := runState (mainStep args) (State.init inPacket outPacket now) (es.map Prod.fst)
    let g := (reapPhase args st ev).1.tables.gJobs
    foundStats (log.flatMap LogLine.text) jobId.toNat = some m
      ↔ ∃ j, jobOcc g j = some jobId ∧ (g j).stats = m := by
  intro st g
  obtain ⟨hok, hacct⟩ := accounted_init args inPacket outPacket now (es.map Prod.fst)
  have hjobs : JobsOk g := (reapPhase_accounted args hacct ev).jobsOk
  have hbefore : ∀ e ∈ statsPrinted args (State.init inPacket outPacket now) es,
      ∃ j, jobOcc g j = some e.jobId := by
    intro e he
    obtain ⟨j, hj⟩ := entry_of_printed args (State.init_ok inPacket outPacket now)
      Tables.accounted_zero he
    exact ⟨j, reapPhase_retains args hacct ev j e.jobId hj⟩
  rw [statsPrinted_append, statsPrinted, statsPrinted_unasked args hlater, List.append_nil,
    if_pos rfl] at hlog
  rw [foundStats_text hplain, hlog, Option.map_eq_some_iff]
  constructor
  · rintro ⟨e, he, rfl⟩
    obtain ⟨j, hj, rfl⟩ := (find_append_dumpJobStats hjobs hbefore).mp he
    exact ⟨j, hj, rfl⟩
  · rintro ⟨j, hj, rfl⟩
    exact ⟨g j, (find_append_dumpJobStats hjobs hbefore).mpr ⟨j, hj, rfl⟩, rfl⟩

/-- Two datagrams of one job under a quota of one slot, with a request behind each of them, and a
line about another slot before. -/
theorem foundStats_printed_flood :
    let es := [(Event.deliver (opener 0), false), (Event.deliver (opener 1), true)]
    let printed := statsPrinted ⟨1, 0⟩ (State.init Buffer.zero Buffer.zero 0)
      (es ++ [(⟨0, 0, 0, 0, none, true⟩, true)])
    let dup := "[dup] job=7 round=1 chunk=0 worker=0 already contributed -- dropping duplicate\n"
    foundStats ((.other dup.toList :: printed.map .stats).flatMap LogLine.text) 1
      = some ⟨1, 1, 1, 1⟩ := by
  intro es printed dup
  have hlog : (LogLine.other dup.toList :: printed.map .stats).filterMap LogLine.entry
      = printed := by
    rw [List.filterMap_cons_none rfl, List.filterMap_map]
    exact List.filterMap_some
  have hplain : ∀ l ∈ LogLine.other dup.toList :: printed.map .stats, l.Plain := by
    refine List.forall_mem_cons.mpr
      ⟨LogLine.plain_of_quote_notMem (by decide +kernel) (by decide +kernel), fun l hl => ?_⟩
    obtain ⟨e, -, rfl⟩ := List.mem_map.mp hl
    trivial
  have hread := @foundStats_printed ⟨1, 0⟩ Buffer.zero Buffer.zero 0 es [] ⟨0, 0, 0, 0, none, true⟩
    (by simp) _ hplain hlog 1 ⟨1, 1, 1, 1⟩
  exact hread.mpr ⟨183, by decide +kernel, by decide +kernel⟩

end NetSum
