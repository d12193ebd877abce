import NetSum.Lib.Bytes

/-!
# Checked accesses

A program is memory safe when it runs the same with every load and store checked against the end
of its buffer. A checked run stops with a `Fault` at the first access out of bounds; it may also
stop at a place that the program is said never to reach.
-/

namespace NetSum.Lib

/-- What a checked run stops at. -/
inductive Fault where
  | outOfBounds
  | unreachable
  deriving DecidableEq, Repr

/-- A checked run. -/
abbrev Checked := Except Fault

variable {α β : Type} {b : Bytes}

/-- The result of an access to bytes of `b` before `stop`. -/
def within (b : Bytes) (stop : ℕ) (a : α) : Checked α :=
  if stop ≤ b.length then .ok a else .error .outOfBounds

def checkedByteAt (b : Bytes) (i : ℕ) : Checked Byte := within b (i + 1) (byteAt b i)

def checkedLoad16 (b : Bytes) (off : ℕ) : Checked (BitVec 16) := within b (off + 2) (load16 b off)

def checkedLoad32 (b : Bytes) (off : ℕ) : Checked (BitVec 32) := within b (off + 4) (load32 b off)

def checkedSet (b : Bytes) (i : ℕ) (x : Byte) : Checked Bytes := within b (i + 1) (b.set i x)

def checkedStore16 (b : Bytes) (off : ℕ) (v : BitVec 16) : Checked Bytes :=
  within b (off + 2) (store16 b off v)

def checkedStore32 (b : Bytes) (off : ℕ) (v : BitVec 32) : Checked Bytes :=
  within b (off + 4) (store32 b off v)

theorem within_of_le {stop : ℕ} (h : stop ≤ b.length) (a : α) : within b stop a = .ok a :=
  if_pos h

theorem checkedByteAt_of_lt {i : ℕ} (h : i < b.length) : checkedByteAt b i = .ok (byteAt b i) :=
  within_of_le h _

theorem checkedLoad16_of_le {off : ℕ} (h : off + 2 ≤ b.length) :
    checkedLoad16 b off = .ok (load16 b off) := within_of_le h _

theorem checkedLoad32_of_le {off : ℕ} (h : off + 4 ≤ b.length) :
    checkedLoad32 b off = .ok (load32 b off) := within_of_le h _

theorem checkedSet_of_lt {i : ℕ} (h : i < b.length) (x : Byte) :
    checkedSet b i x = .ok (b.set i x) := within_of_le h _

theorem checkedStore16_of_le {off : ℕ} (h : off + 2 ≤ b.length) (v : BitVec 16) :
    checkedStore16 b off v = .ok (store16 b off v) := within_of_le h _

theorem checkedStore32_of_le {off : ℕ} (h : off + 4 ≤ b.length) (v : BitVec 32) :
    checkedStore32 b off v = .ok (store32 b off v) := within_of_le h _

@[simp] theorem ok_bind (a : α) (f : α → Checked β) : ((.ok a : Checked α) >>= f) = f a := rfl

/-- A check that returns early: what follows it only has to run when the check does not hit. -/
theorem guard_eq_ok {c : Prop} [Decidable c] {a a' : α} {rest : Checked α}
    (h : ¬ c → rest = .ok a') :
    (if c then pure a else rest) = .ok (if c then a else a') := by
  split
  · rfl
  · next hc => exact h hc

/-- A checked loop none of whose rounds stops runs as the plain loop does. -/
theorem foldlM_eq_ok {f : β → ℕ → Checked β} {g : β → ℕ → β} (I : β → Prop) {l : List ℕ}
    (hstep : ∀ b i, I b → i ∈ l → f b i = .ok (g b i) ∧ I (g b i)) {b : β} (hb : I b) :
    l.foldlM f b = .ok (l.foldl g b) := by
  induction l generalizing b with
  | nil => rfl
  | cons i l ih =>
    obtain ⟨hf, hI⟩ := hstep b i hb List.mem_cons_self
    rw [List.foldlM_cons, hf, List.foldl_cons]
    exact ih (fun b j hb hj => hstep b j hb (List.mem_cons_of_mem _ hj)) hI

end NetSum.Lib
