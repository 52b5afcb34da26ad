import Mathlib

/-!
# Decimal numerals

The decimal digits of a natural number as ASCII bytes, most significant digit first, and the value
of such a sequence of bytes.
-/

namespace Decimal

def isDigit (c : UInt8) : Bool := 48 ≤ c && c ≤ 57

/-- `0` is printed as one digit. -/
def digits (n : Nat) : List UInt8 :=
  if n = 0 then [48] else (Nat.digits 10 n).reverse.map fun d => UInt8.ofNat (48 + d)

def value (ds : List UInt8) : Nat :=
  ds.foldl (fun acc c => acc * 10 + (c.toNat - 48)) 0

theorem digit_toNat {d : Nat} (h : d < 10) : (UInt8.ofNat (48 + d)).toNat = 48 + d := by
  rw [UInt8.toNat_ofNat']
  omega

theorem isDigit_digit {d : Nat} (h : d < 10) : isDigit (UInt8.ofNat (48 + d)) = true := by
  simp only [isDigit, Bool.and_eq_true, decide_eq_true_eq, UInt8.le_iff_toNat_le, digit_toNat h,
    UInt8.reduceToNat]
  omega

theorem digits_ne_nil (n : Nat) : digits n ≠ [] := by
  unfold digits
  split
  · simp
  · simpa [Nat.digits_eq_nil_iff_eq_zero]

theorem isDigit_of_mem_digits {n : Nat} {c : UInt8} (h : c ∈ digits n) : isDigit c = true := by
  unfold digits at h
  split at h
  · rw [List.mem_singleton.mp h]
    decide
  · obtain ⟨d, hd, rfl⟩ := List.mem_map.mp h
    exact isDigit_digit (Nat.digits_lt_base (by omega) (List.mem_reverse.mp hd))

theorem value_map_reverse {ds : List Nat} (h : ∀ d ∈ ds, d < 10) :
    value (ds.reverse.map fun d => UInt8.ofNat (48 + d)) = Nat.ofDigits 10 ds := by
  induction ds with
  | nil => rfl
  | cons d ds ih =>
    have ih := ih fun e he => h e (List.mem_cons_of_mem d he)
    simp only [value, List.reverse_cons, List.map_append, List.map_cons, List.map_nil,
      List.foldl_append, List.foldl_cons, List.foldl_nil] at ih ⊢
    rw [ih, digit_toNat (h d List.mem_cons_self), Nat.ofDigits_cons]
    omega

/-- A printed number is read back. -/
theorem value_digits (n : Nat) : value (digits n) = n := by
  unfold digits
  split
  · rename_i h
    rw [h]
    rfl
  · rw [value_map_reverse fun d hd => Nat.digits_lt_base (by omega) hd, Nat.ofDigits_digits]

theorem isDigit_toNat {c : UInt8} (h : isDigit c = true) : 48 ≤ c.toNat ∧ c.toNat ≤ 57 := by
  simpa [isDigit, UInt8.le_iff_toNat_le] using h

theorem digit_sub {c : UInt8} (h : isDigit c = true) : UInt8.ofNat (48 + (c.toNat - 48)) = c := by
  rw [Nat.add_sub_cancel' (isDigit_toNat h).1, UInt8.ofNat_toNat]

/-- Only zero is printed with a zero in front. -/
theorem digits_of_head {n : Nat} (h : (digits n).head? = some 48) : digits n = [48] := by
  by_cases hn : n = 0
  · rw [hn]
    rfl
  · have hne : Nat.digits 10 n ≠ [] := Nat.digits_ne_nil_iff_ne_zero.mpr hn
    have hlast := Nat.getLast_digit_ne_zero 10 hn
    have hlt := Nat.digits_lt_base (by decide) (List.getLast_mem hne)
    rw [digits, if_neg hn, List.head?_map, List.head?_reverse, List.getLast?_eq_some_getLast hne,
      Option.map_some] at h
    have hdigit : 48 + (Nat.digits 10 n).getLast hne = 48 := by
      rw [← digit_toNat hlt, Option.some.inj h]
      rfl
    omega

/-- Digits without a leading zero are those of their value. -/
theorem digits_value {ds : List UInt8} (hne : ds ≠ []) (hd : ∀ c ∈ ds, isDigit c = true)
    (hlead : ds.head? = some 48 → ds = [48]) : digits (value ds) = ds := by
  by_cases hzero : ds = [48]
  · rw [hzero]
    rfl
  · -- the digits as numbers, the least significant one first
    let L := (ds.map fun c => c.toNat - 48).reverse
    have hlt : ∀ d ∈ L, d < 10 := by
      intro d hdL
      obtain ⟨c, hc, rfl⟩ := List.mem_map.mp (List.mem_reverse.mp hdL)
      have hdigit := isDigit_toNat (hd c hc)
      omega
    have hmap : (L.reverse.map fun d => UInt8.ofNat (48 + d)) = ds := by
      rw [List.reverse_reverse, List.map_map]
      exact (List.map_congr_left fun c hc => digit_sub (hd c hc)).trans (List.map_id _)
    have hvalue : value ds = Nat.ofDigits 10 L := by rw [← hmap, value_map_reverse hlt]
    have hlast : ∀ h : L ≠ [], L.getLast h ≠ 0 := by
      intro h hz
      obtain ⟨c, t, rfl⟩ := List.exists_cons_of_ne_nil hne
      rw [List.getLast_reverse] at hz
      have hc : c = 48 := by
        rw [← digit_sub (hd c List.mem_cons_self)]
        exact congrArg (fun d => UInt8.ofNat (48 + d)) hz
      exact hzero (hlead (by rw [hc]; rfl))
    have hdigits : Nat.digits 10 (value ds) = L := by
      rw [hvalue]
      exact Nat.digits_ofDigits 10 (by decide) L hlt hlast
    have hpos : value ds ≠ 0 := by
      intro h
      rw [h, Nat.digits_zero] at hdigits
      exact hne (by rw [← hmap, ← hdigits]; rfl)
    rw [digits, if_neg hpos, hdigits, hmap]
end Decimal
