import Mathlib

/-!
# Base-128 varints

A number as bytes of seven bits each, lowest first; every byte but the last has its high bit set.

* `decode_encode`: what was encoded is read back, and the bytes after it are left.
* `length_encode_le`: `k` bytes are enough below `128 ^ k`.
-/

namespace Varint

/-- The bytes of base-128 digits. No digits stand for zero, which takes one byte. -/
def ofDigits : List Nat → List UInt8
  | [] => [0]
  | [d] => [UInt8.ofNat d]
  | d :: e :: ds => UInt8.ofNat (d + 128) :: ofDigits (e :: ds)

def encode (n : Nat) : List UInt8 := ofDigits (Nat.digits 128 n)

/-- The number at the start of the bytes and the bytes after it; `none` when they end inside it. -/
def decode : List UInt8 → Option (Nat × List UInt8)
  | [] => none
  | b :: bs =>
    if b.toNat < 128 then some (b.toNat, bs)
    else (decode bs).map fun p => (b.toNat - 128 + 128 * p.1, p.2)

theorem length_ofDigits (ds : List Nat) : (ofDigits ds).length = max 1 ds.length := by
  induction ds with
  | nil => rfl
  | cons d ds ih =>
    cases ds with
    | nil => rfl
    | cons e ds =>
      rw [ofDigits, List.length_cons, ih]
      simp only [List.length_cons]
      omega

theorem length_encode_le {n k : Nat} (hk : 0 < k) (h : n < 128 ^ k) : (encode n).length ≤ k := by
  have := (Nat.digits_length_le_iff (by decide) n).mpr h
  rw [encode, length_ofDigits]
  omega

theorem decode_ofDigits {ds : List Nat} (h : ∀ d ∈ ds, d < 128) (rest : List UInt8) :
    decode (ofDigits ds ++ rest) = some (Nat.ofDigits 128 ds, rest) := by
  induction ds with
  | nil => rfl
  | cons d ds ih =>
    have hd : d < 128 := h d List.mem_cons_self
    cases ds with
    | nil =>
      have hd' : (UInt8.ofNat d).toNat = d := by
        rw [UInt8.toNat_ofNat', Nat.mod_eq_of_lt (by omega)]
      simp only [ofDigits, List.singleton_append, decode, hd', if_pos hd, Nat.ofDigits_singleton]
    | cons e ds =>
      have ih := ih fun x hx => h x (List.mem_cons_of_mem d hx)
      have hd' : (UInt8.ofNat (d + 128)).toNat = d + 128 := by
        rw [UInt8.toNat_ofNat', Nat.mod_eq_of_lt (by omega)]
      have hbig : ¬d + 128 < 128 := by omega
      rw [ofDigits, List.cons_append, decode, hd', if_neg hbig, ih, Option.map_some,
        Nat.add_sub_cancel, Nat.ofDigits_cons]
      rfl

/-- A number is read back with whatever follows it. -/
theorem decode_encode (n : Nat) (rest : List UInt8) :
    decode (encode n ++ rest) = some (n, rest) := by
  rw [encode, decode_ofDigits fun d hd => Nat.digits_lt_base (by decide) hd, Nat.ofDigits_digits]

end Varint
