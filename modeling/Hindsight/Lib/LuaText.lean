import Hindsight.Lib.Decimal
import Mathlib

/-!
# Strings of the Lua 5.1 lexer

Quoted strings of Lua 5.1 with their escapes, on bytes.

* `readString_plain`: ordinary bytes between quotes stand for themselves.
* `readString_length`: what a quoted string and its rest are shorter than, more so when the string
  starts an escape.
* `readString_past`: a string that runs past a quote has that quote escaped.
-/

namespace LuaText

open Decimal (isDigit)

def isAlpha (c : UInt8) : Bool := (65 ≤ c && c ≤ 90) || (97 ≤ c && c ≤ 122)

def isNameChar (c : UInt8) : Bool := isAlpha c || isDigit c || c == 95

def isSpace (c : UInt8) : Bool := c == 32 || (9 ≤ c && c ≤ 13)

def isNewline (c : UInt8) : Bool := c == 10 || c == 13

def backslash : UInt8 := 92

/-- Where the reader of a quoted string is: after a backslash, after an escaped line break, or
inside a decimal escape of which `n` digits have the value `acc`. -/
inductive StringPos where
  | plain
  | escape
  | newline (first : UInt8)
  | decimal (n acc : Nat)
  deriving DecidableEq, Repr

/-- The byte that an escape letter stands for. Any other byte stands for itself. -/
def escapeByte (c : UInt8) : UInt8 :=
  if c = 97 then 7 else if c = 98 then 8 else if c = 102 then 12 else if c = 110 then 10
  else if c = 114 then 13 else if c = 116 then 9 else if c = 118 then 11 else c

def consByte (c : UInt8) : Option (List UInt8 × List UInt8) → Option (List UInt8 × List UInt8) :=
  Option.map fun p => (c :: p.1, p.2)

/-- `read_string` after the opening quote `q`: the string and what follows its closing quote. -/
def readString (q : UInt8) : StringPos → List UInt8 → Option (List UInt8 × List UInt8)
  | _, [] => none
  | pos, c :: t =>
    let ordinary :=
      if c = q then some ([], t)
      else if isNewline c then none
      else if c = backslash then readString q .escape t
      else consByte c (readString q .plain t)
    match pos with
    | .plain => ordinary
    | .escape =>
      if isNewline c then consByte 10 (readString q (.newline c) t)
      else if isDigit c then readString q (.decimal 1 (c.toNat - 48)) t
      else consByte (escapeByte c) (readString q .plain t)
    | .newline first =>
      -- `\r\n` and `\n\r` count as one line break
      if isNewline c && c != first then readString q .plain t else ordinary
    | .decimal n acc =>
      if n < 3 && isDigit c then readString q (.decimal (n + 1) (acc * 10 + (c.toNat - 48))) t
      else if acc ≤ 255 then consByte (UInt8.ofNat acc) ordinary
      else none

/-- A byte that stands for itself between quotes `q`. -/
def isOrdinary (q c : UInt8) : Bool := c != q && !isNewline c && c != backslash

theorem consByte_eq_some {c : UInt8} {x : Option (List UInt8 × List UInt8)} {s r : List UInt8}
    (h : consByte c x = some (s, r)) : ∃ s', s = c :: s' ∧ x = some (s', r) := by
  cases x with
  | none => cases h
  | some p =>
    cases h
    exact ⟨p.1, rfl, rfl⟩

theorem readString_cons {q c : UInt8} (h : isOrdinary q c = true) (t : List UInt8) :
    readString q .plain (c :: t) = consByte c (readString q .plain t) := by
  simp only [isOrdinary, Bool.and_eq_true, bne_iff_ne, ne_eq, Bool.not_eq_true'] at h
  obtain ⟨⟨hq, hn⟩, hb⟩ := h
  simp only [readString, if_neg hq, hn, if_neg hb, Bool.false_eq_true, if_false]

@[simp] theorem readString_close (q : UInt8) (t : List UInt8) :
    readString q .plain (q :: t) = some ([], t) := by
  simp only [readString, if_true]

theorem readString_append {q : UInt8} {s : List UInt8} (h : ∀ c ∈ s, isOrdinary q c = true)
    (t : List UInt8) :
    readString q .plain (s ++ t) = (readString q .plain t).map fun p => (s ++ p.1, p.2) := by
  induction s with
  | nil =>
    rw [List.nil_append]
    cases readString q .plain t <;> rfl
  | cons c s ih =>
    rw [List.cons_append, readString_cons (h c List.mem_cons_self),
      ih fun d hd => h d (List.mem_cons_of_mem c hd)]
    cases readString q .plain t <;> rfl

/-- Ordinary bytes between quotes are read as they are. -/
theorem readString_plain {q : UInt8} {s : List UInt8} (h : ∀ c ∈ s, isOrdinary q c = true)
    (t : List UInt8) : readString q .plain (s ++ q :: t) = some (s, t) := by
  rw [readString_append h, readString_close]
  simp

theorem readString_newline (q first c : UInt8) (t : List UInt8) :
    readString q (.newline first) (c :: t) =
      if isNewline c && c != first then readString q .plain t
      else readString q .plain (c :: t) := by
  simp only [readString]

theorem readString_escape (q c : UInt8) (t : List UInt8) :
    readString q .escape (c :: t) =
      if isNewline c then consByte 10 (readString q (.newline c) t)
      else if isDigit c then readString q (.decimal 1 (c.toNat - 48)) t
      else consByte (escapeByte c) (readString q .plain t) := by
  simp only [readString]

theorem readString_decimal (q c : UInt8) (n acc : Nat) (t : List UInt8) :
    readString q (.decimal n acc) (c :: t) =
      if n < 3 && isDigit c then readString q (.decimal (n + 1) (acc * 10 + (c.toNat - 48))) t
      else if acc ≤ 255 then consByte (UInt8.ofNat acc) (readString q .plain (c :: t))
      else none := by
  simp only [readString]

/-- What reading an ordinary position means for the first byte. -/
theorem readString_plain_cases {q c : UInt8} {t s r : List UInt8}
    (h : readString q .plain (c :: t) = some (s, r)) :
    (c = q ∧ s = [] ∧ r = t) ∨ (c = backslash ∧ readString q .escape t = some (s, r)) ∨
      isOrdinary q c = true ∧ ∃ s', s = c :: s' ∧ readString q .plain t = some (s', r) := by
  by_cases ho : isOrdinary q c = true
  · rw [readString_cons ho] at h
    exact .inr (.inr ⟨ho, consByte_eq_some h⟩)
  · simp only [readString] at h
    split at h
    · cases h
      exact .inl ⟨‹_›, rfl, rfl⟩
    · split at h
      · cases h
      · split at h
        · exact .inr (.inl ⟨‹_›, h⟩)
        · exact absurd (by simp [isOrdinary, *]) ho

/-- The bytes a position owes to the string. -/
def StringPos.pending : StringPos → Nat
  | .decimal _ _ => 1
  | _ => 0

/-- A string is not longer than its text between the quotes. -/
theorem readString_length {q : UInt8} {pos : StringPos} {t s r : List UInt8}
    (h : readString q pos t = some (s, r)) :
    s.length + r.length + 1 ≤ t.length + pos.pending := by
  induction t generalizing pos s r with
  | nil =>
    cases pos <;> cases h
  | cons c t ih =>
    have plain : ∀ {s r}, readString q .plain (c :: t) = some (s, r) →
        s.length + r.length + 1 ≤ t.length + 1 := by
      intro s r h
      rcases readString_plain_cases h with ⟨-, rfl, rfl⟩ | ⟨-, hs⟩ | ⟨-, s', rfl, hs⟩
      · simp
      · have := ih hs
        simp only [StringPos.pending] at this
        omega
      · have := ih hs
        simp only [StringPos.pending, List.length_cons] at this ⊢
        omega
    rw [List.length_cons]
    cases pos with
    | plain => exact plain h
    | escape =>
      rw [readString_escape] at h
      split at h
      · obtain ⟨s', rfl, hs⟩ := consByte_eq_some h
        have := ih hs
        simp only [StringPos.pending, List.length_cons] at this ⊢
        omega
      · split at h
        · exact ih h
        · obtain ⟨s', rfl, hs⟩ := consByte_eq_some h
          have := ih hs
          simp only [StringPos.pending, List.length_cons] at this ⊢
          omega
    | newline first =>
      rw [readString_newline] at h
      split at h
      · have := ih h
        simp only [StringPos.pending] at this ⊢
        omega
      · exact plain h
    | decimal n acc =>
      rw [readString_decimal] at h
      split at h
      · have := ih h
        simp only [StringPos.pending] at this ⊢
        omega
      · split at h
        · obtain ⟨s', rfl, hs⟩ := consByte_eq_some h
          have := plain hs
          simp only [StringPos.pending, List.length_cons] at this ⊢
          omega
        · cases h

/-- Text that is read as itself, up to a quote not before the one after it, is ordinary. -/
theorem isOrdinary_of_readString {q : UInt8} {k t r : List UInt8}
    (h : readString q .plain (k ++ q :: t) = some (k, r)) (hr : t.length ≤ r.length) :
    ∀ c ∈ k, isOrdinary q c = true := by
  induction k with
  | nil => simp
  | cons c k ih =>
    rw [List.cons_append] at h
    rcases readString_plain_cases h with ⟨-, hs, -⟩ | ⟨-, hs⟩ | ⟨hc, s, hs, ht⟩
    · cases hs
    · have := readString_length hs
      simp only [StringPos.pending, List.length_cons, List.length_append] at this
      omega
    · cases hs
      exact List.forall_mem_cons.mpr ⟨hc, ih ht⟩

/-- The bytes that open and close a string. -/
def IsQuote (q : UInt8) : Prop := q = 34 ∨ q = 39

theorem IsQuote.escape {q : UInt8} (h : IsQuote q) (t : List UInt8) :
    readString q .escape (q :: t) = consByte q (readString q .plain t) := by
  rw [readString_escape]
  rcases h with rfl | rfl <;> rfl

theorem IsQuote.not_newline {q : UInt8} (h : IsQuote q) : isNewline q = false := by
  rcases h with rfl | rfl <;> decide

theorem IsQuote.not_digit {q : UInt8} (h : IsQuote q) : isDigit q = false := by
  rcases h with rfl | rfl <;> decide

/-- A string that does not end with the quote after `k`, nor before it, has that quote escaped by a
backslash at the end of `k`. -/
theorem readString_past {q : UInt8} (hq : IsQuote q) {pos : StringPos} {k t s r : List UInt8}
    (h : readString q pos (k ++ q :: t) = some (s, r)) :
    t.length ≤ r.length ∨
      (k = [] ∧ pos = .escape ∨ k.getLast? = some backslash) ∧
        ∃ s₁ s₂, s = s₁ ++ q :: s₂ ∧ readString q .plain t = some (s₂, r) := by
  induction k generalizing pos s r with
  | nil =>
    rw [List.nil_append] at h
    cases pos with
    | plain =>
      rw [readString_close] at h
      cases h
      exact .inl le_rfl
    | escape =>
      rw [hq.escape] at h
      obtain ⟨s', rfl, hs⟩ := consByte_eq_some h
      exact .inr ⟨.inl ⟨rfl, rfl⟩, [], s', rfl, hs⟩
    | newline first =>
      rw [readString_newline, hq.not_newline] at h
      simp only [Bool.false_and, Bool.false_eq_true, if_false, readString_close] at h
      cases h
      exact .inl le_rfl
    | decimal n acc =>
      rw [readString_decimal, hq.not_digit, readString_close] at h
      simp only [Bool.and_false, Bool.false_eq_true, if_false] at h
      split at h
      · cases h
        exact .inl le_rfl
      · cases h
  | cons c k ih =>
    rw [List.cons_append] at h
    -- the induction hypothesis when the string goes on with `pre`
    have step : ∀ (pos' : StringPos) (pre : List UInt8) {s' : List UInt8}, (k = [] →
        pos' = .escape → c = backslash) → s = pre ++ s' → readString q pos' (k ++ q :: t) = some (s', r) →
        t.length ≤ r.length ∨
          (c :: k = [] ∧ pos = .escape ∨ (c :: k).getLast? = some backslash) ∧
            ∃ s₁ s₂, s = s₁ ++ q :: s₂ ∧ readString q .plain t = some (s₂, r) := by
      intro pos' pre s' hc hs h
      rcases ih h with hr | ⟨hk, s₁, s₂, rfl, ht⟩
      · exact .inl hr
      · refine .inr ⟨.inr ?_, pre ++ s₁, s₂, by rw [hs, List.append_assoc], ht⟩
        rcases hk with ⟨rfl, hpos⟩ | hk
        · rw [hc rfl hpos]
          rfl
        · cases k with
          | nil => cases hk
          | cons d k => exact hk
    have plain : ∀ (pre : List UInt8) {s' : List UInt8}, s = pre ++ s' →
        readString q .plain (c :: (k ++ q :: t)) = some (s', r) →
        t.length ≤ r.length ∨
          (c :: k = [] ∧ pos = .escape ∨ (c :: k).getLast? = some backslash) ∧
            ∃ s₁ s₂, s = s₁ ++ q :: s₂ ∧ readString q .plain t = some (s₂, r) := by
      intro pre s' hs h
      rcases readString_plain_cases h with ⟨-, -, rfl⟩ | ⟨hc, ht⟩ | ⟨-, s'', rfl, ht⟩
      · refine .inl ?_
        simp only [List.length_append, List.length_cons]
        omega
      · exact step .escape pre (fun _ _ => hc) hs ht
      · exact step .plain (pre ++ [c]) (fun _ h => nomatch h) (by simp [hs]) ht
    cases pos with
    | plain => exact plain [] rfl h
    | escape =>
      rw [readString_escape] at h
      split at h
      · obtain ⟨s', rfl, ht⟩ := consByte_eq_some h
        exact step (.newline c) [10] (fun _ h => nomatch h) rfl ht
      · split at h
        · exact step (.decimal 1 _) [] (fun _ h => nomatch h) rfl h
        · obtain ⟨s', rfl, ht⟩ := consByte_eq_some h
          exact step .plain [escapeByte c] (fun _ h => nomatch h) rfl ht
    | newline first =>
      rw [readString_newline] at h
      split at h
      · exact step .plain [] (fun _ h => nomatch h) rfl h
      · exact plain [] rfl h
    | decimal n acc =>
      rw [readString_decimal] at h
      split at h
      · exact step (.decimal _ _) [] (fun _ h => nomatch h) rfl h
      · split at h
        · obtain ⟨s', rfl, ht⟩ := consByte_eq_some h
          exact plain [UInt8.ofNat acc] rfl ht
        · cases h

end LuaText
