import Mathlib.Data.BitVec
import Mathlib.Tactic.IntervalCases

/-!
# Bytes, words and byte orders

A byte string is a `List` of bytes, read with `byteAt` (which is total: it reads `0` past the
end) and written with `List.set`. On top of that:

* `cat16`/`cat32` build a word from its bytes and `byte16`/`byte32` take it apart;
* `load16`/`load32` and `store16`/`store32` are the loads and stores of a little-endian host;
* `swap16`/`swap32` reverse the bytes of a word;
* `be16`/`be32` read a word in network order. A host load followed by a swap is a network-order
  read (`swap16_load16`, `swap32_load32`), and a swapped store is read back in network order
  (`be16_store16_swap16`, `be32_store32_swap32`).
-/

namespace NetSum.Lib

abbrev Byte := BitVec 8

abbrev Bytes := List Byte

/-! ## Words and their bytes -/

/-- The 16-bit word with bytes `a b`, most significant first. -/
def cat16 (a b : Byte) : BitVec 16 := a ++ b

/-- The 32-bit word with bytes `a b c d`, most significant first. -/
def cat32 (a b c d : Byte) : BitVec 32 := a ++ b ++ c ++ d

/-- Byte `k` of a 16-bit word, least significant first. -/
def byte16 (v : BitVec 16) (k : ℕ) : Byte := v.extractLsb' (8 * k) 8

/-- Byte `k` of a 32-bit word, least significant first. -/
def byte32 (v : BitVec 32) (k : ℕ) : Byte := v.extractLsb' (8 * k) 8

theorem getLsbD_cat16 (a b : Byte) (i : ℕ) :
    (cat16 a b).getLsbD i = if i < 8 then b.getLsbD i else a.getLsbD (i - 8) := by
  show BitVec.getLsbD (a ++ b) i = _
  simp only [BitVec.getLsbD_append]

theorem getLsbD_cat32 (a b c d : Byte) (i : ℕ) :
    (cat32 a b c d).getLsbD i =
      if i < 8 then d.getLsbD i else if i < 16 then c.getLsbD (i - 8)
      else if i < 24 then b.getLsbD (i - 16) else a.getLsbD (i - 24) := by
  show BitVec.getLsbD (a ++ b ++ c ++ d) i = _
  simp only [BitVec.getLsbD_append, Nat.sub_sub]
  split_ifs <;> first | rfl | omega

theorem byte16_cat16 (a b : Byte) : byte16 (cat16 a b) 0 = b ∧ byte16 (cat16 a b) 1 = a := by
  refine ⟨?_, ?_⟩ <;>
  · apply BitVec.eq_of_getLsbD_eq
    intro i hi
    simp only [byte16, BitVec.getLsbD_extractLsb', getLsbD_cat16, hi, decide_true,
      Bool.true_and]
    split_ifs <;> first | omega | (congr 1; omega)

theorem byte32_cat32 (a b c d : Byte) :
    byte32 (cat32 a b c d) 0 = d ∧ byte32 (cat32 a b c d) 1 = c
      ∧ byte32 (cat32 a b c d) 2 = b ∧ byte32 (cat32 a b c d) 3 = a := by
  refine ⟨?_, ?_, ?_, ?_⟩ <;>
  · apply BitVec.eq_of_getLsbD_eq
    intro i hi
    simp only [byte32, BitVec.getLsbD_extractLsb', getLsbD_cat32, hi, decide_true,
      Bool.true_and]
    split_ifs <;> first | omega | (congr 1; omega)

theorem cat16_byte16 (v : BitVec 16) : cat16 (byte16 v 1) (byte16 v 0) = v := by
  apply BitVec.eq_of_getLsbD_eq
  intro i hi
  simp only [getLsbD_cat16, byte16, BitVec.getLsbD_extractLsb']
  split_ifs with h1
  · simp [h1]
  · rw [show 8 * 1 + (i - 8) = i by omega, decide_eq_true (by omega), Bool.true_and]

theorem cat32_byte32 (v : BitVec 32) :
    cat32 (byte32 v 3) (byte32 v 2) (byte32 v 1) (byte32 v 0) = v := by
  apply BitVec.eq_of_getLsbD_eq
  intro i hi
  simp only [getLsbD_cat32, byte32, BitVec.getLsbD_extractLsb']
  split_ifs with h1 h2 h3
  · simp [h1]
  · rw [show 8 * 1 + (i - 8) = i by omega, decide_eq_true (by omega), Bool.true_and]
  · rw [show 8 * 2 + (i - 16) = i by omega, decide_eq_true (by omega), Bool.true_and]
  · rw [show 8 * 3 + (i - 24) = i by omega, decide_eq_true (by omega), Bool.true_and]

/-! ## Swaps -/

/-- Reverse the two bytes of a word. -/
def swap16 (v : BitVec 16) : BitVec 16 := cat16 (byte16 v 0) (byte16 v 1)

/-- Reverse the four bytes of a word. -/
def swap32 (v : BitVec 32) : BitVec 32 :=
  cat32 (byte32 v 0) (byte32 v 1) (byte32 v 2) (byte32 v 3)

theorem swap16_cat16 (a b : Byte) : swap16 (cat16 a b) = cat16 b a := by
  obtain ⟨h0, h1⟩ := byte16_cat16 a b
  rw [swap16, h0, h1]

theorem swap32_cat32 (a b c d : Byte) : swap32 (cat32 a b c d) = cat32 d c b a := by
  obtain ⟨h0, h1, h2, h3⟩ := byte32_cat32 a b c d
  rw [swap32, h0, h1, h2, h3]

@[simp] theorem swap32_swap32 (v : BitVec 32) : swap32 (swap32 v) = v := by
  rw [swap32.eq_1 v, swap32_cat32, cat32_byte32]

/-- Swapping with two shifts. -/
theorem swap16_eq_shifts (v : BitVec 16) : v <<< 8 ||| v >>> 8 = swap16 v := by
  apply BitVec.eq_of_getLsbD_eq
  intro i hi
  rw [swap16, getLsbD_cat16]
  simp only [byte16, BitVec.getLsbD_extractLsb']
  interval_cases i <;> simp

/-- Swapping with four masks and shifts. -/
theorem swap32_eq_shifts (v : BitVec 32) :
    (v &&& 0x000000ff#32) <<< 24 ||| (v &&& 0x0000ff00#32) <<< 8
      ||| (v &&& 0x00ff0000#32) >>> 8 ||| (v &&& 0xff000000#32) >>> 24 = swap32 v := by
  apply BitVec.eq_of_getLsbD_eq
  intro i hi
  rw [swap32, getLsbD_cat32]
  simp only [byte32, BitVec.getLsbD_extractLsb']
  interval_cases i <;> simp

/-! ## Single bits -/

/-- Testing a bit with a mask. -/
theorem and_shiftLeft_one {w : ℕ} (x : BitVec w) {j : ℕ} (hj : j < w) :
    ((x &&& 1#w <<< j) != 0) = x.getLsbD j := by
  rw [← BitVec.twoPow_eq, BitVec.and_twoPow]
  cases h : x.getLsbD j with
  | true =>
    simp only [if_true, bne_iff_ne]
    intro h0
    have := congrArg (fun v => BitVec.getLsbD v j) h0
    simp [hj] at this
  | false => simp

/-- Setting a bit with a mask. -/
theorem getLsbD_or_shiftLeft_one {w : ℕ} (x : BitVec w) {i j : ℕ} (hj : j < w) :
    (x ||| 1#w <<< j).getLsbD i = (x.getLsbD i || decide (i = j)) := by
  rw [← BitVec.twoPow_eq, BitVec.getLsbD_or, BitVec.getLsbD_twoPow]
  by_cases h : i = j
  · simp [h, hj]
  · simp [h, Ne.symm h]

/-! ## Reading byte strings -/

/-- The byte at offset `i`. -/
def byteAt (b : Bytes) (i : ℕ) : Byte := b.getD i 0

/-- A 16-bit load by a little-endian host. -/
def load16 (b : Bytes) (off : ℕ) : BitVec 16 := cat16 (byteAt b (off + 1)) (byteAt b off)

/-- A 32-bit load by a little-endian host. -/
def load32 (b : Bytes) (off : ℕ) : BitVec 32 :=
  cat32 (byteAt b (off + 3)) (byteAt b (off + 2)) (byteAt b (off + 1)) (byteAt b off)

/-- The 16-bit word at `off` in network order. -/
def be16 (b : Bytes) (off : ℕ) : BitVec 16 := cat16 (byteAt b off) (byteAt b (off + 1))

/-- The 32-bit word at `off` in network order. -/
def be32 (b : Bytes) (off : ℕ) : BitVec 32 :=
  cat32 (byteAt b off) (byteAt b (off + 1)) (byteAt b (off + 2)) (byteAt b (off + 3))

@[simp] theorem swap16_load16 (b : Bytes) (off : ℕ) : swap16 (load16 b off) = be16 b off :=
  swap16_cat16 _ _

@[simp] theorem swap32_load32 (b : Bytes) (off : ℕ) : swap32 (load32 b off) = be32 b off :=
  swap32_cat32 _ _ _ _

theorem byteAt_drop (b : Bytes) (k i : ℕ) : byteAt (b.drop k) i = byteAt b (k + i) := by
  simp [byteAt, List.getD_eq_getElem?_getD]

theorem byteAt_take {b : Bytes} {k i : ℕ} (h : i < k) : byteAt (b.take k) i = byteAt b i := by
  simp [byteAt, List.getD_eq_getElem?_getD, h]

theorem byteAt_append_left {b c : Bytes} {i : ℕ} (h : i < b.length) :
    byteAt (b ++ c) i = byteAt b i := by
  simp [byteAt, List.getD_eq_getElem?_getD, List.getElem?_append_left h]

theorem byteAt_append_right {b c : Bytes} {i : ℕ} (h : b.length ≤ i) :
    byteAt (b ++ c) i = byteAt c (i - b.length) := by
  simp [byteAt, List.getD_eq_getElem?_getD, List.getElem?_append_right h]

theorem be16_drop (b : Bytes) (k off : ℕ) : be16 (b.drop k) off = be16 b (k + off) := by
  simp only [be16, byteAt_drop, Nat.add_assoc]

theorem be32_drop (b : Bytes) (k off : ℕ) : be32 (b.drop k) off = be32 b (k + off) := by
  simp only [be32, byteAt_drop, Nat.add_assoc]

/-- The last of the four bytes of a word. -/
theorem byte32_be32 (b : Bytes) (off : ℕ) : byte32 (be32 b off) 0 = byteAt b (off + 3) :=
  (byte32_cat32 _ _ _ _).1

/-- A word is read from its two bytes. -/
theorem be16_congr {b c : Bytes} {off : ℕ}
    (h : ∀ i, off ≤ i → i < off + 2 → byteAt b i = byteAt c i) : be16 b off = be16 c off := by
  rw [be16, be16, h off (by omega) (by omega), h (off + 1) (by omega) (by omega)]

/-- A word is read from its four bytes. -/
theorem be32_congr {b c : Bytes} {off : ℕ}
    (h : ∀ i, off ≤ i → i < off + 4 → byteAt b i = byteAt c i) : be32 b off = be32 c off := by
  rw [be32, be32, h off (by omega) (by omega), h (off + 1) (by omega) (by omega),
    h (off + 2) (by omega) (by omega), h (off + 3) (by omega) (by omega)]

theorem load16_congr {b c : Bytes} {off : ℕ}
    (h : ∀ i, off ≤ i → i < off + 2 → byteAt b i = byteAt c i) : load16 b off = load16 c off := by
  rw [load16, load16, h off (by omega) (by omega), h (off + 1) (by omega) (by omega)]

theorem load32_congr {b c : Bytes} {off : ℕ}
    (h : ∀ i, off ≤ i → i < off + 4 → byteAt b i = byteAt c i) : load32 b off = load32 c off := by
  rw [load32, load32, h off (by omega) (by omega), h (off + 1) (by omega) (by omega),
    h (off + 2) (by omega) (by omega), h (off + 3) (by omega) (by omega)]

/-- Equal words have equal bytes. -/
theorem byteAt_of_be16_eq {b c : Bytes} {off : ℕ} (h : be16 b off = be16 c off) {i : ℕ}
    (hi : i < 2) : byteAt b (off + i) = byteAt c (off + i) := by
  obtain ⟨hb0, hb1⟩ := byte16_cat16 (byteAt b off) (byteAt b (off + 1))
  obtain ⟨hc0, hc1⟩ := byte16_cat16 (byteAt c off) (byteAt c (off + 1))
  rw [be16, be16] at h
  interval_cases i
  · rw [Nat.add_zero, ← hb1, h, hc1]
  · rw [← hb0, h, hc0]

theorem byteAt_of_be32_eq {b c : Bytes} {off : ℕ} (h : be32 b off = be32 c off) {i : ℕ}
    (hi : i < 4) : byteAt b (off + i) = byteAt c (off + i) := by
  obtain ⟨hb0, hb1, hb2, hb3⟩ := byte32_cat32 (byteAt b off) (byteAt b (off + 1))
    (byteAt b (off + 2)) (byteAt b (off + 3))
  obtain ⟨hc0, hc1, hc2, hc3⟩ := byte32_cat32 (byteAt c off) (byteAt c (off + 1))
    (byteAt c (off + 2)) (byteAt c (off + 3))
  rw [be32, be32] at h
  interval_cases i
  · rw [Nat.add_zero, ← hb3, h, hc3]
  · rw [← hb2, h, hc2]
  · rw [← hb1, h, hc1]
  · rw [← hb0, h, hc0]

theorem ext_byteAt {b c : Bytes} (hlen : b.length = c.length)
    (h : ∀ i < b.length, byteAt b i = byteAt c i) : b = c := by
  apply List.ext_getElem hlen
  intro i hi hi'
  have := h i hi
  simpa [byteAt, List.getD_eq_getElem?_getD, hi, hi'] using this

/-! ## Writing byte strings -/

/-- A 16-bit store by a little-endian host. -/
def store16 (b : Bytes) (off : ℕ) (v : BitVec 16) : Bytes :=
  (b.set off (byte16 v 0)).set (off + 1) (byte16 v 1)

/-- A 32-bit store by a little-endian host. -/
def store32 (b : Bytes) (off : ℕ) (v : BitVec 32) : Bytes :=
  (((b.set off (byte32 v 0)).set (off + 1) (byte32 v 1)).set (off + 2) (byte32 v 2)).set
    (off + 3) (byte32 v 3)

@[simp] theorem length_store16 (b : Bytes) (off : ℕ) (v : BitVec 16) :
    (store16 b off v).length = b.length := by simp [store16]

@[simp] theorem length_store32 (b : Bytes) (off : ℕ) (v : BitVec 32) :
    (store32 b off v).length = b.length := by simp [store32]

theorem byteAt_set_self {b : Bytes} {off : ℕ} (h : off < b.length) (x : Byte) :
    byteAt (b.set off x) off = x := by
  simp [byteAt, List.getD_eq_getElem?_getD, h]

theorem byteAt_set_of_ne {b : Bytes} {off i : ℕ} (h : i ≠ off) (x : Byte) :
    byteAt (b.set off x) i = byteAt b i := by
  simp [byteAt, List.getD_eq_getElem?_getD, List.getElem?_set_ne (Ne.symm h)]

/-- A store leaves the bytes outside its word. -/
theorem byteAt_store16_of_disjoint {b : Bytes} {off i : ℕ} (h : i < off ∨ off + 2 ≤ i)
    (v : BitVec 16) : byteAt (store16 b off v) i = byteAt b i := by
  rw [store16, byteAt_set_of_ne (by omega), byteAt_set_of_ne (by omega)]

/-- A store leaves the bytes outside its word. -/
theorem byteAt_store32_of_disjoint {b : Bytes} {off i : ℕ} (h : i < off ∨ off + 4 ≤ i)
    (v : BitVec 32) : byteAt (store32 b off v) i = byteAt b i := by
  rw [store32, byteAt_set_of_ne (by omega), byteAt_set_of_ne (by omega),
    byteAt_set_of_ne (by omega), byteAt_set_of_ne (by omega)]

/-- A swapped store is read back in network order. -/
theorem be16_store16_swap16 {b : Bytes} {off : ℕ} (h : off + 1 < b.length) (v : BitVec 16) :
    be16 (store16 b off (swap16 v)) off = v := by
  obtain ⟨h0, h1⟩ := byte16_cat16 (byte16 v 0) (byte16 v 1)
  rw [be16, store16, swap16, h0, h1, byteAt_set_of_ne (by omega), byteAt_set_self (by omega),
    byteAt_set_self (by simpa using h), cat16_byte16]

/-- A swapped store is read back in network order. -/
theorem be32_store32_swap32 {b : Bytes} {off : ℕ} (h : off + 3 < b.length) (v : BitVec 32) :
    be32 (store32 b off (swap32 v)) off = v := by
  obtain ⟨h0, h1, h2, h3⟩ := byte32_cat32 (byte32 v 0) (byte32 v 1) (byte32 v 2) (byte32 v 3)
  have e0 : byteAt (store32 b off (swap32 v)) off = byte32 v 3 := by
    rw [store32, swap32, h0, h1, h2, h3, byteAt_set_of_ne (by omega),
      byteAt_set_of_ne (by omega), byteAt_set_of_ne (by omega), byteAt_set_self (by omega)]
  have e1 : byteAt (store32 b off (swap32 v)) (off + 1) = byte32 v 2 := by
    rw [store32, swap32, h0, h1, h2, h3, byteAt_set_of_ne (by omega),
      byteAt_set_of_ne (by omega), byteAt_set_self (by simp; omega)]
  have e2 : byteAt (store32 b off (swap32 v)) (off + 2) = byte32 v 1 := by
    rw [store32, swap32, h0, h1, h2, h3, byteAt_set_of_ne (by omega),
      byteAt_set_self (by simp; omega)]
  have e3 : byteAt (store32 b off (swap32 v)) (off + 3) = byte32 v 0 := by
    rw [store32, swap32, h0, h1, h2, h3, byteAt_set_self (by simp; omega)]
  rw [be32, e0, e1, e2, e3, cat32_byte32]

theorem load16_store16 {b : Bytes} {off : ℕ} (h : off + 1 < b.length) (v : BitVec 16) :
    load16 (store16 b off v) off = v := by
  rw [load16, store16, byteAt_set_self (by simpa using h), byteAt_set_of_ne (by omega),
    byteAt_set_self (by omega), cat16_byte16]

theorem load32_store32 {b : Bytes} {off : ℕ} (h : off + 3 < b.length) (v : BitVec 32) :
    load32 (store32 b off v) off = v := by
  have h' := be32_store32_swap32 h (swap32 v)
  rw [swap32_swap32, ← swap32_load32] at h'
  rw [← swap32_swap32 (load32 _ _), h', swap32_swap32]

theorem be16_store16_of_disjoint {b : Bytes} {o off : ℕ} (h : o + 2 ≤ off ∨ off + 2 ≤ o)
    (v : BitVec 16) : be16 (store16 b off v) o = be16 b o :=
  be16_congr fun _ _ _ => byteAt_store16_of_disjoint (by omega) v

theorem be32_store16_of_disjoint {b : Bytes} {o off : ℕ} (h : o + 4 ≤ off ∨ off + 2 ≤ o)
    (v : BitVec 16) : be32 (store16 b off v) o = be32 b o :=
  be32_congr fun _ _ _ => byteAt_store16_of_disjoint (by omega) v

theorem be32_store32_of_disjoint {b : Bytes} {o off : ℕ} (h : o + 4 ≤ off ∨ off + 4 ≤ o)
    (v : BitVec 32) : be32 (store32 b off v) o = be32 b o :=
  be32_congr fun _ _ _ => byteAt_store32_of_disjoint (by omega) v

end NetSum.Lib
