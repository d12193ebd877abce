import Mathlib.Data.List.Basic
import Mathlib.Data.List.Forall2
import Mathlib.Data.List.Induction

/-!
# Runs of a deterministic machine

A machine is a function `step : σ → ε → σ × ω`: in state `s` the event `e` leads to
`(step s e).1` and is answered by `(step s e).2`. A run is a list of events. This file has
the four things every argument about runs needs:

* `runState`, `runOut`: where a run ends, and the answers it gave on the way;
* `StepsMeet`: every step of the run, taken in the state it finds, satisfies a condition;
* `stateAt`: the state a run is in at a given time, and the answer it gives there;
* the induction rules: `stateAt_induction` (over time), `runState_invariant`,
  `run_simulation` and `run_lockstep` (two machines on the same or on corresponding events) and
  `run_unwinding` (two runs of one machine that agree on the events an observer sees).
-/

namespace NetSum.Lib

variable {σ σ' ε ω ω' ν ο : Type*}

/-! ## Runs -/

/-- The state a run from `s` ends in. -/
def runState (step : σ → ε → σ × ω) : σ → List ε → σ
  | s, [] => s
  | s, e :: es => runState step (step s e).1 es

/-- The answers of a run from `s`, one for each event. -/
def runOut (step : σ → ε → σ × ω) : σ → List ε → List ω
  | _, [] => []
  | s, e :: es => (step s e).2 :: runOut step (step s e).1 es

@[simp] theorem runState_nil (step : σ → ε → σ × ω) (s : σ) : runState step s [] = s := rfl

@[simp] theorem runState_cons (step : σ → ε → σ × ω) (s : σ) (e : ε) (es : List ε) :
    runState step s (e :: es) = runState step (step s e).1 es := rfl

@[simp] theorem runOut_nil (step : σ → ε → σ × ω) (s : σ) : runOut step s [] = [] := rfl

@[simp] theorem runOut_cons (step : σ → ε → σ × ω) (s : σ) (e : ε) (es : List ε) :
    runOut step s (e :: es) = (step s e).2 :: runOut step (step s e).1 es := rfl

theorem runState_append (step : σ → ε → σ × ω) (s : σ) (es fs : List ε) :
    runState step s (es ++ fs) = runState step (runState step s es) fs := by
  induction es generalizing s with
  | nil => rfl
  | cons e es ih => exact ih _

theorem runOut_append (step : σ → ε → σ × ω) (s : σ) (es fs : List ε) :
    runOut step s (es ++ fs) = runOut step s es ++ runOut step (runState step s es) fs := by
  induction es generalizing s with
  | nil => rfl
  | cons e es ih => simp only [List.cons_append, runOut_cons, runState_cons, ih]

@[simp] theorem length_runOut (step : σ → ε → σ × ω) (s : σ) (es : List ε) :
    (runOut step s es).length = es.length := by
  induction es generalizing s with
  | nil => rfl
  | cons e es ih => simp only [runOut_cons, List.length_cons, ih]

/-! ## Conditions on the steps of a run -/

/-- Every step of the run satisfies `P` in the state it is taken in. -/
def StepsMeet (step : σ → ε → σ × ω) (P : σ → ε → Prop) : σ → List ε → Prop
  | _, [] => True
  | s, e :: es => P s e ∧ StepsMeet step P (step s e).1 es

instance decidableStepsMeet (step : σ → ε → σ × ω) (P : σ → ε → Prop)
    [∀ s e, Decidable (P s e)] : ∀ (s : σ) (es : List ε), Decidable (StepsMeet step P s es)
  | _, [] => .isTrue trivial
  | s, e :: es =>
    have := decidableStepsMeet step P (step s e).1 es
    inferInstanceAs (Decidable (P s e ∧ StepsMeet step P (step s e).1 es))

theorem stepsMeet_append {step : σ → ε → σ × ω} {P : σ → ε → Prop} {s : σ} {es fs : List ε} :
    StepsMeet step P s (es ++ fs)
      ↔ StepsMeet step P s es ∧ StepsMeet step P (runState step s es) fs := by
  induction es generalizing s with
  | nil => simp [StepsMeet]
  | cons e es ih => simp only [List.cons_append, StepsMeet, runState_cons, ih, and_assoc]

theorem stepsMeet_concat {step : σ → ε → σ × ω} {P : σ → ε → Prop} {s : σ} {es : List ε}
    {e : ε} :
    StepsMeet step P s (es ++ [e]) ↔ StepsMeet step P s es ∧ P (runState step s es) e := by
  simp [stepsMeet_append, StepsMeet]

/-- A run whose steps meet `P` does so up to every time. -/
theorem StepsMeet.take {step : σ → ε → σ × ω} {P : σ → ε → Prop} {s : σ} {es : List ε}
    (h : StepsMeet step P s es) (T : ℕ) : StepsMeet step P s (es.take T) := by
  rw [← List.take_append_drop T es, stepsMeet_append] at h
  exact h.1

theorem StepsMeet.mono {step : σ → ε → σ × ω} {P Q : σ → ε → Prop} {s : σ} {es : List ε}
    (h : StepsMeet step P s es) (hPQ : ∀ s e, P s e → Q s e) : StepsMeet step Q s es := by
  induction es generalizing s with
  | nil => trivial
  | cons e es ih => exact ⟨hPQ s e h.1, ih h.2⟩

/-! ## Runs indexed by time -/

/-- The state in which the run takes its event number `T`. -/
def stateAt (step : σ → ε → σ × ω) (s : σ) (es : List ε) (T : ℕ) : σ :=
  runState step s (es.take T)

@[simp] theorem stateAt_zero (step : σ → ε → σ × ω) (s : σ) (es : List ε) :
    stateAt step s es 0 = s := by simp [stateAt]

theorem stateAt_of_length_le {step : σ → ε → σ × ω} {s : σ} {es : List ε} {T : ℕ}
    (h : es.length ≤ T) : stateAt step s es T = runState step s es := by
  rw [stateAt, List.take_of_length_le h]

theorem stateAt_succ {step : σ → ε → σ × ω} {s : σ} {es : List ε} {T : ℕ} {e : ε}
    (h : es[T]? = some e) : stateAt step s es (T + 1) = (step (stateAt step s es T) e).1 := by
  rw [stateAt, List.take_add_one, h, runState_append]
  rfl

theorem stateAt_add (step : σ → ε → σ × ω) (s : σ) (es : List ε) (T n : ℕ) :
    stateAt step s es (T + n) = runState step (stateAt step s es T) ((es.drop T).take n) := by
  rw [stateAt, List.take_add, runState_append]
  rfl

/-- The answer to event number `T`. -/
theorem runOut_getElem? (step : σ → ε → σ × ω) (s : σ) (es : List ε) (T : ℕ) :
    (runOut step s es)[T]? = es[T]?.map fun e => (step (stateAt step s es T) e).2 := by
  induction es generalizing s T with
  | nil => simp
  | cons e es ih =>
    cases T with
    | zero => simp [stateAt]
    | succ T => simpa [stateAt] using ih (step s e).1 T

/-- An answer is an answer to an event. -/
theorem exists_event_of_out {step : σ → ε → σ × ω} {s : σ} {es : List ε} {T : ℕ} {o : ω}
    (h : (runOut step s es)[T]? = some o) : ∃ e, es[T]? = some e := by
  rw [runOut_getElem?, Option.map_eq_some_iff] at h
  obtain ⟨e, he, -⟩ := h
  exact ⟨e, he⟩

theorem stepsMeet_iff {step : σ → ε → σ × ω} {P : σ → ε → Prop} {s : σ} {es : List ε} :
    StepsMeet step P s es ↔ ∀ T e, es[T]? = some e → P (stateAt step s es T) e := by
  induction es generalizing s with
  | nil => simp [StepsMeet]
  | cons e es ih =>
    rw [StepsMeet, ih]
    constructor
    · rintro ⟨h0, h⟩ T e' he'
      cases T with
      | zero =>
        obtain rfl : e = e' := by simpa using he'
        exact h0
      | succ T => exact h T e' (by simpa using he')
    · intro h
      exact ⟨h 0 e rfl, fun T e' he' => h (T + 1) e' (by simpa using he')⟩

/-- What holds at the start and is kept by every step of the run holds at every time. The
step case knows which event it is about, and when. -/
theorem stateAt_induction {step : σ → ε → σ × ω} {s : σ} {es : List ε} (I : ℕ → σ → Prop)
    (h0 : I 0 s)
    (hstep : ∀ T e, es[T]? = some e → I T (stateAt step s es T) →
      I (T + 1) (step (stateAt step s es T) e).1) :
    ∀ T ≤ es.length, I T (stateAt step s es T) := by
  intro T
  induction T with
  | zero => intro _; simpa using h0
  | succ T ih =>
    intro hT
    have he : es[T]? = some es[T] := List.getElem?_eq_getElem (by omega)
    rw [stateAt_succ he]
    exact hstep T _ he (ih (by omega))

/-! ## What the events of a run bring -/

theorem filterMap_take_succ {α : Type*} (f : ε → Option α) {es : List ε} {T : ℕ} {e : ε}
    (he : es[T]? = some e) :
    (es.take (T + 1)).filterMap f = (es.take T).filterMap f ++ (f e).toList := by
  rw [List.take_add_one, he, List.filterMap_append]
  refine congrArg _ ?_
  show List.filterMap f [e] = _
  rw [List.filterMap_cons]
  cases f e <;> rfl

/-- What was brought before time `U`. -/
theorem mem_filterMap_take {α : Type*} {f : ε → Option α} {es : List ε} {a : α} {U : ℕ} :
    a ∈ (es.take U).filterMap f ↔ ∃ T < U, ∃ e, es[T]? = some e ∧ f e = some a := by
  constructor
  · intro ha
    obtain ⟨e, he, hf⟩ := List.mem_filterMap.mp ha
    obtain ⟨T, hT, hget⟩ := List.getElem_of_mem he
    rw [List.length_take, Nat.lt_min] at hT
    rw [List.getElem_take] at hget
    exact ⟨T, hT.1, e, by rw [List.getElem?_eq_getElem hT.2, hget], hf⟩
  · rintro ⟨T, hT, e, he, hf⟩
    have hget : (es.take U)[T]? = some e := by rw [List.getElem?_take_of_lt hT, he]
    exact List.mem_filterMap.mpr ⟨e, List.mem_of_getElem? hget, hf⟩

/-! ## Induction rules -/

/-- An invariant of the steps that meet `P` holds at the end of a run of such steps. -/
theorem runState_invariant {step : σ → ε → σ × ω} {P : σ → ε → Prop} (I : σ → Prop)
    (hstep : ∀ s e, P s e → I s → I (step s e).1) {s : σ} {es : List ε} (h0 : I s)
    (hP : StepsMeet step P s es) : I (runState step s es) := by
  induction es generalizing s with
  | nil => exact h0
  | cons e es ih => exact ih (hstep s e hP.1 h0) hP.2

/-- The invariant rule for runs whose steps are not restricted. -/
theorem runState_invariant_of_forall {step : σ → ε → σ × ω} (I : σ → Prop)
    (hstep : ∀ s e, I s → I (step s e).1) {s : σ} (es : List ε) (h0 : I s) :
    I (runState step s es) := by
  induction es generalizing s with
  | nil => exact h0
  | cons e es ih => exact ih (hstep s e h0)

/-- Two machines fed the same events: a relation that related steps keep relates the states of
the two runs at every time. -/
theorem run_simulation (step : σ → ε → σ × ω) (step' : σ' → ε → σ' × ω') {P : σ → ε → Prop}
    (R : σ → σ' → Prop)
    (hstep : ∀ s s' e, P s e → R s s' → R (step s e).1 (step' s' e).1)
    {s : σ} {s' : σ'} {es : List ε} (h0 : R s s') (hP : StepsMeet step P s es) :
    ∀ T, R (stateAt step s es T) (stateAt step' s' es T) := by
  induction es generalizing s s' with
  | nil => intro T; simpa [stateAt] using h0
  | cons e es ih =>
    intro T
    cases T with
    | zero => simpa using h0
    | succ T => exact ih (hstep s s' e hP.1 h0) hP.2 T

/-- Two machines fed events that correspond one by one: if related steps that meet `P` keep the
relation and give corresponding answers, the two runs are related at every time and answer
alike. -/
theorem run_lockstep_of_meet {ε' : Type*} {step : σ → ε → σ × ω} {step' : σ' → ε' → σ' × ω'}
    {P : σ → ε → Prop} {E : ε → ε' → Prop} {O : ω → ω' → Prop} (R : σ → σ' → Prop)
    (hstep : ∀ s s' e e', P s e → E e e' → R s s' →
      R (step s e).1 (step' s' e').1 ∧ O (step s e).2 (step' s' e').2)
    {s : σ} {s' : σ'} {es : List ε} {es' : List ε'} (h0 : R s s')
    (hE : List.Forall₂ E es es') (hP : StepsMeet step P s es) :
    (∀ T, R (stateAt step s es T) (stateAt step' s' es' T))
      ∧ List.Forall₂ O (runOut step s es) (runOut step' s' es') := by
  induction hE generalizing s s' with
  | nil => exact ⟨fun T => by simpa [stateAt] using h0, .nil⟩
  | cons he hes ih =>
    obtain ⟨hR, hO⟩ := hstep s s' _ _ hP.1 he h0
    obtain ⟨hstates, houts⟩ := ih hR hP.2
    refine ⟨fun T => ?_, .cons hO houts⟩
    cases T with
    | zero => simpa using h0
    | succ T => exact hstates T

/-- The lockstep rule for runs whose steps are not restricted. -/
theorem run_lockstep {ε' : Type*} {step : σ → ε → σ × ω} {step' : σ' → ε' → σ' × ω'}
    {E : ε → ε' → Prop} {O : ω → ω' → Prop} (R : σ → σ' → Prop)
    (hstep : ∀ s s' e e', E e e' → R s s' →
      R (step s e).1 (step' s' e').1 ∧ O (step s e).2 (step' s' e').2)
    {s : σ} {s' : σ'} {es : List ε} {es' : List ε'} (h0 : R s s')
    (hE : List.Forall₂ E es es') :
    (∀ T, R (stateAt step s es T) (stateAt step' s' es' T))
      ∧ List.Forall₂ O (runOut step s es) (runOut step' s' es') :=
  run_lockstep_of_meet (P := fun _ _ => True) R (fun s s' e e' _ => hstep s s' e e') h0 hE
    (stepsMeet_iff.mpr fun _ _ _ => trivial)

/-- Answers that show the same one by one show the same sequence. -/
theorem filterMap_eq_of_forall₂ {α : Type*} {f : ω → Option α} {g : ω' → Option α} {os : List ω}
    {os' : List ω'} (h : List.Forall₂ (fun o o' => f o = g o') os os') :
    os.filterMap f = os'.filterMap g := by
  induction h with
  | nil => rfl
  | cons ho hos ih => rw [List.filterMap_cons, List.filterMap_cons, ho, ih]

/-- What holds at some time of a run whose steps meet `P`, and is kept by such steps, holds ever
after. -/
theorem stateAt_kept_of_meet {step : σ → ε → σ × ω} {P : σ → ε → Prop} (I : σ → Prop)
    (hstep : ∀ s e, P s e → I s → I (step s e).1) {s : σ} {es : List ε}
    (hP : StepsMeet step P s es) {T U : ℕ} (hTU : T ≤ U) (hT : I (stateAt step s es T)) :
    I (stateAt step s es U) := by
  obtain ⟨n, rfl⟩ := Nat.exists_eq_add_of_le hTU
  rw [stateAt_add]
  have hsplit : es = es.take T ++ ((es.drop T).take n ++ (es.drop T).drop n) := by
    rw [List.take_append_drop, List.take_append_drop]
  rw [hsplit, stepsMeet_append, stepsMeet_append] at hP
  exact runState_invariant I hstep hT hP.2.1

/-- What holds at some time of a run and is kept by every step holds ever after. -/
theorem stateAt_kept {step : σ → ε → σ × ω} (I : σ → Prop) (hstep : ∀ s e, I s → I (step s e).1)
    {s : σ} {es : List ε} {T U : ℕ} (hTU : T ≤ U) (hT : I (stateAt step s es T)) :
    I (stateAt step s es U) := by
  obtain ⟨n, rfl⟩ := Nat.exists_eq_add_of_le hTU
  rw [stateAt_add]
  exact runState_invariant_of_forall I hstep _ hT

/-! ## What an observer of some events sees -/

/-- What an observer of the events with `vis e = some v` sees of a run: the part `obs o` of
the answer to each of them, in order. -/
def observed (step : σ → ε → σ × ω) (vis : ε → Option ν) (obs : ω → ο) : σ → List ε → List ο
  | _, [] => []
  | s, e :: es =>
    (if (vis e).isSome then [obs (step s e).2] else [])
      ++ observed step vis obs (step s e).1 es

theorem observed_map (step : σ → ε → σ × ω) (vis : ε → Option ν) (obs : ω → ο) {ο' : Type*}
    (g : ο → ο') (s : σ) (es : List ε) :
    observed step vis (fun o => g (obs o)) s es = (observed step vis obs s es).map g := by
  induction es generalizing s with
  | nil => rfl
  | cons e es ih =>
    rw [observed, observed, ih, List.map_append]
    cases (vis e).isSome <;> rfl

/-- What only observed events are answered with is found among the observed answers. -/
theorem filterMap_runOut {α : Type*} {step : σ → ε → σ × ω} {vis : ε → Option ν}
    {f : ω → Option α} {s : σ} {es : List ε}
    (h : StepsMeet step (fun s e => vis e = none → f (step s e).2 = none) s es) :
    (runOut step s es).filterMap f = (observed step vis id s es).filterMap f := by
  induction es generalizing s with
  | nil => rfl
  | cons e es ih =>
    rw [runOut_cons, List.filterMap_cons, ih h.2, observed, List.filterMap_append]
    cases he : vis e with
    | none => simp [h.1 he]
    | some v => cases hf : f (step s e).2 <;> simp [hf]

/-- **Unwinding.** Let `R` relate the states an observer cannot tell apart. If an unobserved
step on either side keeps `R`, and two steps on events that look the same keep `R` and give
the same observation, then two runs whose observed events look the same are observed to
answer the same. -/
theorem run_unwinding {step : σ → ε → σ × ω} {vis : ε → Option ν} {obs : ω → ο}
    {P : σ → ε → Prop} (R : σ → σ → Prop)
    (hsymm : ∀ s s', R s s' → R s' s)
    (hidden : ∀ s s' e, vis e = none → P s e → R s s' → R (step s e).1 s')
    (shown : ∀ s s' e e' v, vis e = some v → vis e' = some v → P s e → P s' e' → R s s' →
      R (step s e).1 (step s' e').1 ∧ obs (step s e).2 = obs (step s' e').2)
    {s s' : σ} {es es' : List ε} (h0 : R s s') (hvis : es.filterMap vis = es'.filterMap vis)
    (hP : StepsMeet step P s es) (hP' : StepsMeet step P s' es') :
    observed step vis obs s es = observed step vis obs s' es' := by
  induction es generalizing s s' es' with
  | nil =>
    -- the second run has unobserved events only
    induction es' generalizing s' with
    | nil => rfl
    | cons e' es' ih =>
      cases he : vis e' with
      | some v => simp [he] at hvis
      | none =>
        have hR := hsymm _ _ (hidden s' s e' he hP'.1 (hsymm _ _ h0))
        have := ih hR (by simpa [he] using hvis) hP'.2
        simpa [observed, he] using this
  | cons e es ih =>
    cases he : vis e with
    | none =>
      have := ih (hidden s s' e he hP.1 h0) (by simpa [he] using hvis) hP.2 hP'
      simpa [observed, he] using this
    | some v =>
      -- skip the unobserved events of the second run up to the one that looks like `e`
      induction es' generalizing s' with
      | nil => simp [he] at hvis
      | cons e' es' ih' =>
        cases he' : vis e' with
        | none =>
          have hR := hsymm _ _ (hidden s' s e' he' hP'.1 (hsymm _ _ h0))
          have := ih' hR (by simpa [he, he'] using hvis) hP'.2
          simpa [observed, he, he'] using this
        | some v' =>
          simp only [List.filterMap_cons, he, he', List.cons.injEq] at hvis
          obtain ⟨rfl, hvis⟩ := hvis
          obtain ⟨hR, hobs⟩ := shown s s' e e' v he he' hP.1 hP'.1 h0
          have := ih hR hvis hP.2 hP'.2
          simp [observed, he, he', hobs, this]

end NetSum.Lib
