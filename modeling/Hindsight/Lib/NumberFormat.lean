import Hindsight.Lib.Decimal
import Mathlib

/-!
# Numbers as text in C

Natural numbers that go through a binary floating point format and `printf`, and the way back through
`strtoull`. Texts are lists of bytes.

* `roundBits p n`: the number nearest to `n` with `p` significant bits, ties to even.
* `formatG p n`: a natural number under `%.<p>g`.
* `strtoull`: base ten, on 64 bits; `scanUInt8`: the byte `%hhu` makes of it.
* `strtoull_formatG`: what `strtoull` reads of a formatted number: all of it below `10 ^ p`, and no more
  than its first digit from there on.
-/

namespace NumberFormat

open Decimal

/-- White space in the C locale. -/
def isSpace (c : UInt8) : Bool := c == 32 || (9 ≤ c && c ≤ 13)

/-- `ULLONG_MAX`. -/
def ullongMax : Nat := 2 ^ 64 - 1

/-- The numeral a text starts with, after white space: whether it has a minus sign, and its digits. -/
def numeral (text : List UInt8) : Bool × List UInt8 :=
  match text.dropWhile isSpace with
  | [] => (false, [])
  | c :: t =>
    if c == 45 then (true, t.takeWhile isDigit)
    else if c == 43 then (false, t.takeWhile isDigit)
    else (false, (c :: t).takeWhile isDigit)

/-- `strtoull` with base ten. A value that is too large becomes `ULLONG_MAX`, a negative one wraps
around. -/
def strtoull (text : List UInt8) : Nat :=
  let v := value (numeral text).2
  if v > ullongMax then ullongMax
  else if (numeral text).1 then (2 ^ 64 - v) % 2 ^ 64
  else v

/-- `%hhu` of `scanf` at the start of `text`; at least one digit is needed. -/
def scanUInt8 (text : List UInt8) : Option Nat :=
  if (numeral text).2 = [] then none else some (strtoull text % 256)

/-- The multiple of `u` nearest to `n`, as a quotient; a tie goes to the even one. -/
def roundQuot (u n : Nat) : Nat :=
  if 2 * (n % u) < u ∨ 2 * (n % u) = u ∧ n / u % 2 = 0 then n / u else n / u + 1

def roundBits (p n : Nat) : Nat :=
  let e := n.size - p
  roundQuot (2 ^ e) n * 2 ^ e

/-- The exponent has at least two digits. -/
def exponent (x : Nat) : List UInt8 := 101 :: 43 :: (if x < 10 then 48 :: digits x else digits x)

/-- The significand with its point; zeros at its end are dropped. -/
def significand : List UInt8 → List UInt8
  | [] => []
  | d :: ds =>
    let fraction := (ds.reverse.dropWhile (· == 48)).reverse
    if fraction = [] then [d] else d :: 46 :: fraction

/-- A number of `p` digits or fewer is written out, any other one is rounded to `p` digits and has an
exponent. -/
def formatG (p n : Nat) : List UInt8 :=
  if n < 10 ^ p then digits n
  else
    let k := (Nat.digits 10 n).length - p
    let m := roundQuot (10 ^ k) n
    -- rounding up may take one digit more
    if m = 10 ^ p then significand (digits (10 ^ (p - 1))) ++ exponent (k + p)
    else significand (digits m) ++ exponent (k + p - 1)

/-! ## Rounding -/

theorem roundQuot_one (n : Nat) : roundQuot 1 n = n := by
  simp [roundQuot, Nat.mod_one]

theorem le_roundQuot (u n : Nat) : n / u ≤ roundQuot u n := by
  unfold roundQuot
  split <;> omega

theorem roundBits_of_lt {p n : Nat} (h : n < 2 ^ p) : roundBits p n = n := by
  have he : n.size - p = 0 := Nat.sub_eq_zero_of_le (Nat.size_le.mpr h)
  simp only [roundBits, he, Nat.pow_zero, roundQuot_one, Nat.mul_one]

theorem le_roundBits {p n : Nat} (hp : 0 < p) (h : 2 ^ p ≤ n) : 2 ^ p ≤ roundBits p n := by
  have hsize : p < n.size := Nat.lt_size.mpr h
  have hlow : 2 ^ (n.size - 1) ≤ n := Nat.lt_size.mp (by omega)
  have hquot : 2 ^ (p - 1) ≤ n / 2 ^ (n.size - p) := by
    rw [Nat.le_div_iff_mul_le (Nat.two_pow_pos _), ← Nat.pow_add]
    have : p - 1 + (n.size - p) = n.size - 1 := by omega
    rw [this]
    exact hlow
  calc 2 ^ p ≤ 2 ^ (n.size - 1) := Nat.pow_le_pow_right (by omega) (by omega)
    _ = 2 ^ (p - 1) * 2 ^ (n.size - p) := by
      rw [← Nat.pow_add]
      congr 1
      omega
    _ ≤ roundBits p n := Nat.mul_le_mul_right _ (hquot.trans (le_roundQuot _ _))

/-! ## The text of a number -/

/-- Text that starts with a digit has neither white space nor a sign in front. -/
theorem numeral_cons {d : UInt8} (hd : isDigit d = true) (t : List UInt8) :
    numeral (d :: t) = (false, (d :: t).takeWhile isDigit) := by
  obtain ⟨hlo, hhi⟩ := isDigit_toNat hd
  have hspace : isSpace d = false := by
    simp only [isSpace, Bool.or_eq_false_iff, beq_eq_false_iff_ne, ne_eq, ← UInt8.toNat_inj,
      Bool.and_eq_false_iff, decide_eq_false_iff_not, UInt8.le_iff_toNat_le, UInt8.reduceToNat]
    omega
  have hminus : (d == 45) = false := by
    simp only [beq_eq_false_iff_ne, ne_eq, ← UInt8.toNat_inj, UInt8.reduceToNat]
    omega
  have hplus : (d == 43) = false := by
    simp only [beq_eq_false_iff_ne, ne_eq, ← UInt8.toNat_inj, UInt8.reduceToNat]
    omega
  have hdrop : (d :: t).dropWhile isSpace = d :: t :=
    List.dropWhile_cons_of_neg (by simp [hspace])
  simp only [numeral, hdrop, hminus, hplus, Bool.false_eq_true, if_false]

theorem strtoull_cons {d : UInt8} (hd : isDigit d = true) (t : List UInt8) :
    strtoull (d :: t) = min (value ((d :: t).takeWhile isDigit)) ullongMax := by
  simp only [strtoull, numeral_cons hd, Bool.false_eq_true, if_false]
  split <;> omega

theorem digits_eq_cons (n : Nat) : ∃ d ds, digits n = d :: ds ∧ isDigit d = true := by
  obtain ⟨d, ds, hds⟩ : ∃ d ds, digits n = d :: ds :=
    List.exists_cons_of_ne_nil (digits_ne_nil n)
  exact ⟨d, ds, hds, isDigit_of_mem_digits (n := n) (hds ▸ List.mem_cons_self)⟩

/-- A printed number is read up to the first byte that is no digit. -/
theorem strtoull_digits {n : Nat} (h : n ≤ ullongMax) {t : List UInt8}
    (ht : ∀ c ∈ t.head?, isDigit c = false) : strtoull (digits n ++ t) = n := by
  obtain ⟨d, ds, hds, hd⟩ := digits_eq_cons n
  have hend : t.takeWhile isDigit = [] := by
    cases t with
    | nil => rfl
    | cons c t => exact List.takeWhile_cons_of_neg (by simp [ht c rfl])
  have htake : (digits n ++ t).takeWhile isDigit = digits n := by
    rw [List.takeWhile_append_of_pos fun c hc => isDigit_of_mem_digits hc, hend, List.append_nil]
  rw [hds, List.cons_append, strtoull_cons hd, ← List.cons_append, ← hds, htake, value_digits]
  exact min_eq_left h

/-- `%hhu` reads a printed number modulo 256, the largest one it can hold at most. -/
theorem scanUInt8_digits (n : Nat) : scanUInt8 (digits n) = some (min n ullongMax % 256) := by
  obtain ⟨d, ds, hds, hd⟩ := digits_eq_cons n
  have hall : (digits n).takeWhile isDigit = digits n :=
    List.takeWhile_eq_self_iff.mpr fun c hc => isDigit_of_mem_digits hc
  have hnumeral : (numeral (digits n)).2 = digits n := by
    rw [hds, numeral_cons hd, ← hds, hall]
  have hvalue : strtoull (digits n) = min n ullongMax := by
    rw [hds, strtoull_cons hd, ← hds, hall, value_digits]
  rw [scanUInt8, hnumeral, if_neg (digits_ne_nil n), hvalue]

/-- The significand of a number is its first digit, followed by nothing or by a point. -/
theorem significand_cons (d : UInt8) (ds : List UInt8) :
    ∃ t, significand (d :: ds) = d :: t ∧ ∀ c ∈ t.head?, c = 46 := by
  simp only [significand]
  split
  · exact ⟨[], rfl, fun c hc => (by cases hc)⟩
  · exact ⟨_, rfl, fun c hc => (Option.some.inj hc).symm⟩

/-- From `10 ^ p` on, only the first digit comes before a byte that is no digit. -/
theorem formatG_of_le {p n : Nat} (h : 10 ^ p ≤ n) :
    ∃ d t, formatG p n = d :: t ∧ isDigit d = true ∧ ∀ c ∈ t.head?, isDigit c = false := by
  have hall : ∀ m x, ∃ d t, significand (digits m) ++ exponent x = d :: t ∧ isDigit d = true ∧
      ∀ c ∈ t.head?, isDigit c = false := by
    intro m x
    obtain ⟨d, ds, hds, hd⟩ := digits_eq_cons m
    obtain ⟨t, ht, hpoint⟩ := significand_cons d ds
    refine ⟨d, t ++ exponent x, by rw [hds, ht, List.cons_append], hd, fun c hc => ?_⟩
    cases t with
    | nil =>
      obtain rfl : 101 = c := Option.some.inj hc
      rfl
    | cons b t =>
      rw [hpoint c hc]
      rfl
  simp only [formatG, if_neg (Nat.not_lt_of_le h)]
  split
  · exact hall _ _
  · exact hall _ _

/-- The bytes a formatted number can have. -/
def isNumber (c : UInt8) : Bool := isDigit c || c == 43 || c == 46 || c == 101

theorem isNumber_of_digit {c : UInt8} (h : isDigit c = true) : isNumber c = true := by
  simp [isNumber, h]

theorem isNumber_significand {ds : List UInt8} (h : ∀ c ∈ ds, isNumber c = true) :
    ∀ c ∈ significand ds, isNumber c = true := by
  cases ds with
  | nil => exact h
  | cons d ds =>
    have hd : isNumber d = true := h d List.mem_cons_self
    simp only [significand]
    split
    · intro c hc
      rw [List.mem_singleton.mp hc]
      exact hd
    · intro c hc
      rcases List.mem_cons.mp hc with rfl | hc
      · exact hd
      rcases List.mem_cons.mp hc with rfl | hc
      · rfl
      have hmem := (List.dropWhile_suffix _).mem (List.mem_reverse.mp hc)
      exact h c (List.mem_cons_of_mem d (List.mem_reverse.mp hmem))

theorem isNumber_exponent (x : Nat) : ∀ c ∈ exponent x, isNumber c = true := by
  have hdigits : ∀ c ∈ digits x, isNumber c = true := fun c hc =>
    isNumber_of_digit (isDigit_of_mem_digits hc)
  intro c hc
  simp only [exponent] at hc
  rcases List.mem_cons.mp hc with rfl | hc
  · rfl
  rcases List.mem_cons.mp hc with rfl | hc
  · rfl
  split at hc
  · rcases List.mem_cons.mp hc with rfl | hc
    · rfl
    · exact hdigits c hc
  · exact hdigits c hc

theorem isNumber_formatG {p n : Nat} {c : UInt8} (h : c ∈ formatG p n) : isNumber c = true := by
  have hdigits : ∀ m, ∀ c ∈ digits m, isNumber c = true := fun m c hc =>
    isNumber_of_digit (isDigit_of_mem_digits hc)
  simp only [formatG] at h
  split at h
  · exact hdigits _ c h
  · split at h <;> rcases List.mem_append.mp h with h | h
    · exact isNumber_significand (hdigits _) c h
    · exact isNumber_exponent _ c h
    · exact isNumber_significand (hdigits _) c h
    · exact isNumber_exponent _ c h

/-- From `10 ^ p` on, `strtoull` reads one digit. -/
theorem strtoull_formatG_of_le {p n : Nat} (h : 10 ^ p ≤ n) {t : List UInt8}
    (ht : ∀ c ∈ t.head?, isDigit c = false) : strtoull (formatG p n ++ t) < 10 := by
  obtain ⟨d, u, hd, hdigit, hu⟩ := formatG_of_le h
  have hhead : ∀ c ∈ (u ++ t).head?, isDigit c = false := by
    cases u with
    | nil => exact ht
    | cons b u => exact hu
  have hstop : (u ++ t).takeWhile isDigit = [] := by
    cases hut : u ++ t with
    | nil => rfl
    | cons b v => exact List.takeWhile_cons_of_neg (by simp [hhead b (by rw [hut]; rfl)])
  obtain ⟨-, hhi⟩ := isDigit_toNat hdigit
  rw [hd, List.cons_append, strtoull_cons hdigit, List.takeWhile_cons_of_pos hdigit, hstop]
  simp only [value, List.foldl_cons, List.foldl_nil]
  omega

/-- `strtoull` gets a formatted number back exactly when it was written out. -/
theorem strtoull_formatG {p n : Nat} (hp : 0 < p) (hmax : 10 ^ p ≤ ullongMax) {t : List UInt8}
    (ht : ∀ c ∈ t.head?, isDigit c = false) :
    strtoull (formatG p n ++ t) = n ↔ n < 10 ^ p := by
  constructor
  · intro h
    by_contra hle
    have hlow : strtoull (formatG p n ++ t) < 10 := strtoull_formatG_of_le (Nat.le_of_not_lt hle) ht
    have hten : 10 ^ 1 ≤ 10 ^ p := Nat.pow_le_pow_right (by omega) hp
    omega
  · intro h
    rw [formatG, if_pos h]
    exact strtoull_digits (by omega) ht

/-- `1e+02` is all that is left of 99 with a single digit. -/
example : formatG 1 99 = [49, 101, 43, 48, 50] ∧ strtoull (formatG 1 99) = 1 := by decide

end NumberFormat
