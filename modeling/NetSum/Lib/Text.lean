import Mathlib.Data.List.Basic
import Mathlib.Data.List.Infix

/-!
# Finding records in a text

A scan tries a pattern at each place of a text, from the left, and goes on behind what it matched
(`findAll`). In a text made of records that the pattern matches and of lines that its first literal
does not occur in, it finds the records, in order (`findAll_append_of_match`,
`findAll_append_of_none`). A pattern is made of literals, which `dropPrefix?` takes off, and of
numbers in decimal (`number`, `field`).
-/

namespace NetSum.Lib

/-! ## Numbers -/

/-- The number that the text begins with, of as many digits as there are, and the text behind it. -/
def number (cs : List Char) : Option (ℕ × List Char) :=
  if cs.takeWhile Char.isDigit = [] then none
  else some (Nat.ofDigitChars 10 (cs.takeWhile Char.isDigit) 0, cs.dropWhile Char.isDigit)

/-- A number in decimal is read back, if no digit follows it. -/
theorem number_toDigits (n : ℕ) {c : Char} (hc : c.isDigit = false) (rest : List Char) :
    number (Nat.toDigits 10 n ++ c :: rest) = some (n, c :: rest) := by
  have hdigits : ∀ d ∈ Nat.toDigits 10 n, d.isDigit = true :=
    fun d hd => Nat.isDigit_of_mem_toDigits (by decide) le_rfl hd
  have htake : (Nat.toDigits 10 n ++ c :: rest).takeWhile Char.isDigit = Nat.toDigits 10 n := by
    rw [List.takeWhile_append_of_pos hdigits, List.takeWhile_cons_of_neg (by simp [hc]),
      List.append_nil]
  have hdrop : (Nat.toDigits 10 n ++ c :: rest).dropWhile Char.isDigit = c :: rest := by
    rw [List.dropWhile_append_of_pos hdigits, List.dropWhile_cons_of_neg (by simp [hc])]
  rw [number, htake, hdrop, if_neg Nat.toDigits_ne_nil, Nat.ofDigitChars_ten_toDigits]

/-- A literal is taken off. -/
theorem dropPrefix_append (lit rest : List Char) : (lit ++ rest).dropPrefix? lit = some rest :=
  List.dropPrefix?_append_of_beq rest (beq_self_eq_true lit)

/-- The number behind a literal, and the text behind that. -/
def field (lit cs : List Char) : Option (ℕ × List Char) := (cs.dropPrefix? lit).bind number

theorem field_append {lit next : List Char} (n : ℕ) (rest : List Char) {c : Char}
    (hnext : next.head? = some c) (hc : c.isDigit = false) :
    field lit (lit ++ (Nat.toDigits 10 n ++ (next ++ rest))) = some (n, next ++ rest) := by
  obtain ⟨cs, rfl⟩ := List.head?_eq_some_iff.mp hnext
  rw [field, dropPrefix_append, Option.bind_some, List.cons_append, number_toDigits n hc]

/-! ## Scans -/

section

variable {α : Type} (pattern : List Char → Option (α × List Char))

/-- What the scan finds that has `skip` characters of a match still to pass. -/
def findAllFrom : ℕ → List Char → List α
  | _, [] => []
  | skip + 1, _ :: cs => findAllFrom skip cs
  | 0, c :: cs =>
    match pattern (c :: cs) with
    | none => findAllFrom 0 cs
    | some (a, rest) => a :: findAllFrom (cs.length - rest.length) cs

/-- What the scan finds. -/
def findAll (cs : List Char) : List α := findAllFrom pattern 0 cs

variable {pattern} {text rest : List Char} {a : α}

theorem findAllFrom_eq (skip : ℕ) (cs : List Char) :
    findAllFrom pattern skip cs = findAll pattern (cs.drop skip) := by
  induction cs generalizing skip with
  | nil =>
    rw [List.drop_nil]
    cases skip <;> rfl
  | cons c cs ih =>
    cases skip with
    | zero => rfl
    | succ skip => exact ih skip

theorem findAll_cons_of_none {c : Char} {cs : List Char} (h : pattern (c :: cs) = none) :
    findAll pattern (c :: cs) = findAll pattern cs := by
  rw [findAll, findAllFrom, h]
  rfl

/-- The text begins with a record. -/
theorem findAll_append_of_match (h : pattern (text ++ rest) = some (a, rest)) (hne : text ≠ []) :
    findAll pattern (text ++ rest) = a :: findAll pattern rest := by
  cases text with
  | nil => exact absurd rfl hne
  | cons c cs =>
    have hskip : (cs ++ rest).length - rest.length = cs.length := by
      rw [List.length_append, Nat.add_sub_cancel]
    rw [List.cons_append] at h ⊢
    rw [findAll, findAllFrom, h]
    dsimp only
    rw [hskip, findAllFrom_eq, List.drop_left]

/-- The pattern matches nowhere in the text. -/
theorem findAll_append_of_none (h : ∀ s ≠ [], s <:+ text → pattern (s ++ rest) = none) :
    findAll pattern (text ++ rest) = findAll pattern rest := by
  induction text with
  | nil => rfl
  | cons c cs ih =>
    have hhead := h (c :: cs) (List.cons_ne_nil c cs) List.suffix_rfl
    rw [List.cons_append] at hhead ⊢
    rw [findAll_cons_of_none hhead]
    exact ih fun s hne hs => h s hne (hs.trans (List.suffix_cons c cs))

end

/-- A literal that does not occur in a line, nor has the character that ends it, does not begin
in it. -/
theorem dropPrefix_eq_none {head text rest s : List Char} {c : Char}
    (hend : text.getLast? = some c) (hc : c ∉ head) (hno : ¬ head <:+: text) (hne : s ≠ [])
    (hs : s <:+ text) : (s ++ rest).dropPrefix? head = none := by
  cases hdrop : (s ++ rest).dropPrefix? head with
  | none => rfl
  | some tail =>
    obtain ⟨head', hsplit, heq⟩ := List.dropPrefix?_eq_some_iff.mp hdrop
    obtain rfl := eq_of_beq heq
    have hprefix : head' <+: s ++ rest := ⟨tail, hsplit.symm⟩
    rcases List.prefix_or_prefix_of_prefix hprefix (List.prefix_append s rest) with hle | hle
    · exact absurd (hle.isInfix.trans hs.isInfix) hno
    · -- the line ends within the literal
      obtain ⟨pre, rfl⟩ := hs
      rw [List.getLast?_append_of_ne_nil pre hne] at hend
      exact absurd (hle.subset (List.mem_of_getLast? hend)) hc

end NetSum.Lib
