import Hindsight.Lib.LuaText

/-!
# Chunks of assignments to globals

Tokens of Lua 5.1 and the chunks that consist of assignments of constants to global names,
`_G['name'] = 'text'` and `_G['name'] = -1.5`. Strings and numerals are the only expressions. A
chunk outside this fragment is not read: `readChunk` returns `none` for it, as for one with a syntax
error.

* `readNumeral_append`: a decimal numeral is read up to its end.
* `readAssign_open`, `readValue_open`: an assignment is read through its key, then its value.
* `exec_of_mem`, `exec_of_not_mem`: what a chunk of assignments to different names leaves.
-/

namespace LuaText

open Decimal (isDigit)

/-- Numbers as the chunk sees them: the value of a numeral, and negation. -/
structure Numbers (δ : Type) where
  value : List UInt8 → Option δ
  neg : δ → δ

inductive Constant (δ : Type) where
  | num (x : δ)
  | str (s : List UInt8)
  deriving DecidableEq, Repr

inductive Token (δ : Type) where
  | eof
  | name (s : List UInt8)
  | str (s : List UInt8)
  | num (x : δ)
  | sym (c : UInt8)
  deriving DecidableEq, Repr

/-- The exponent mark and its sign, when the text starts with one. -/
def readExponent : List UInt8 → List UInt8 × List UInt8
  | [] => ([], [])
  | c :: t =>
    if c == 101 || c == 69 then
      match t with
      | [] => ([c], [])
      | d :: u => if d == 43 || d == 45 then ([c, d], u) else ([c], t)
    else ([], c :: t)

/-- `read_numeral`: the longest text that may be a numeral, and what follows it. -/
def readNumeral (t : List UInt8) : List UInt8 × List UInt8 :=
  let p : UInt8 → Bool := fun c => isDigit c || c == 46
  let e := readExponent (t.dropWhile p)
  (t.takeWhile p ++ e.1 ++ e.2.takeWhile isNameChar, e.2.dropWhile isNameChar)

/-- The two bytes start a long bracket, `==` or a comment. -/
def startsLong (c : UInt8) : List UInt8 → Bool
  | [] => false
  | d :: _ => (c == 91 && (d == 91 || d == 61)) || (c == 61 && d == 61) || (c == 45 && d == 45)

variable {δ : Type} (N : Numbers δ)

def lexOne (t : List UInt8) : Option (Token δ × List UInt8) :=
  match t.dropWhile isSpace with
  | [] => some (.eof, [])
  | c :: u =>
    if c == 34 || c == 39 then
      (readString c .plain u).map fun p => (.str p.1, p.2)
    else if isDigit c then
      let n := readNumeral (c :: u)
      (N.value n.1).map fun x => (.num x, n.2)
    else if isNameChar c then
      some (.name (c :: u.takeWhile isNameChar), u.dropWhile isNameChar)
    else if (c == 91 || c == 93 || c == 61 || c == 45) && !startsLong c u then
      some (.sym c, u)
    else none

def expectSym (c : UInt8) (t : List UInt8) : Option (List UInt8) :=
  match lexOne N t with
  | some (.sym d, u) => if d = c then some u else none
  | _ => none

/-- The name `_G`. -/
def globals : List UInt8 := [95, 71]

def expectGlobals (t : List UInt8) : Option (List UInt8) :=
  match lexOne N t with
  | some (.name n, u) => if n = globals then some u else none
  | _ => none

def expectStr (t : List UInt8) : Option (List UInt8 × List UInt8) :=
  match lexOne N t with
  | some (.str s, u) => some (s, u)
  | _ => none

def readConstant (t : List UInt8) : Option (Constant δ × List UInt8) :=
  match lexOne N t with
  | some (.str s, u) => some (.str s, u)
  | some (.num x, u) => some (.num x, u)
  | some (.sym 45, u) =>
    match lexOne N u with
    | some (.num x, v) => some (.num (N.neg x), v)
    | _ => none
  | _ => none

abbrev Assign (δ : Type) := List UInt8 × Constant δ

/-- The rest of an assignment after its key. -/
def readValue (key : List UInt8) (t : List UInt8) : Option (Assign δ × List UInt8) := do
  let t ← expectSym N 93 t
  let t ← expectSym N 61 t
  let (v, t) ← readConstant N t
  some ((key, v), t)

/-- An assignment `_G['key'] = constant`. One to `_G` itself is not in the fragment. -/
def readAssign (t : List UInt8) : Option (Assign δ × List UInt8) := do
  let t ← expectGlobals N t
  let t ← expectSym N 91 t
  let (key, t) ← expectStr N t
  if key = globals then none else readValue N key t

def readChunk : Nat → List UInt8 → Option (List (Assign δ))
  | 0, _ => none
  | n + 1, t =>
    match lexOne N t with
    | some (.eof, _) => some []
    | _ => (readAssign N t).bind fun p => (readChunk n p.2).map fun as => p.1 :: as

/-- What the assignments make of the globals. -/
def exec : List (Assign δ) → (List UInt8 → Option (Constant δ)) → List UInt8 → Option (Constant δ)
  | [], G => G
  | a :: as, G => exec as (Function.update G a.1 (some a.2))

/-! ### Numerals -/

/-- A decimal numeral as `printf` writes it: digits, a fraction, an exponent. -/
def IsNumeral (ds : List UInt8) : Prop :=
  ∃ i f e, ds = i ++ f ++ e ∧ i ≠ [] ∧ (∀ c ∈ i, isDigit c = true) ∧
    (f = [] ∨ ∃ g, f = 46 :: g ∧ ∀ c ∈ g, isDigit c = true) ∧
    (e = [] ∨ ∃ c g, e = 101 :: c :: g ∧ (c = 43 ∨ c = 45) ∧ ∀ d ∈ g, isDigit d = true)

theorem isNumeral_of_digits {ds : List UInt8} (hne : ds ≠ []) (h : ∀ c ∈ ds, isDigit c = true) :
    IsNumeral ds :=
  ⟨ds, [], [], by simp, hne, h, .inl rfl, .inl rfl⟩

theorem isNameChar_of_isDigit {c : UInt8} (h : isDigit c = true) : isNameChar c = true := by
  simp [isNameChar, h]

/-- The text that follows the constants of a chunk. -/
def endOfLine (t : List UInt8) : List UInt8 := 10 :: t

theorem readNumeral_append {ds : List UInt8} (h : IsNumeral ds) (t : List UInt8) :
    readNumeral (ds ++ endOfLine t) = (ds, endOfLine t) := by
  obtain ⟨i, f, e, rfl, -, hi, hf, he⟩ := h
  have hif : ∀ c ∈ i ++ f, (isDigit c || c == 46) = true := by
    intro c hc
    rcases List.mem_append.mp hc with hc | hc
    · rw [hi c hc, Bool.true_or]
    · rcases hf with rfl | ⟨g, rfl, hg⟩
      · cases hc
      · rcases List.mem_cons.mp hc with rfl | hc
        · rfl
        · rw [hg c hc, Bool.true_or]
  simp only [readNumeral]
  rw [List.append_assoc (i ++ f) e, List.takeWhile_append_of_pos hif, List.dropWhile_append_of_pos hif]
  rcases he with rfl | ⟨c, g, rfl, hc, hg⟩
  · simp [endOfLine, readExponent, isNameChar, isAlpha, isDigit]
  · have hg : ∀ d ∈ g, isNameChar d = true := fun d hd => isNameChar_of_isDigit (hg d hd)
    have hc : (c == 43 || c == 45) = true := by simpa using hc
    have h101 : (isDigit 101 || (101 : UInt8) == 46) = false := by decide
    simp only [List.cons_append, List.takeWhile_cons, List.dropWhile_cons, h101, readExponent]
    simp only [Bool.false_eq_true, if_false, beq_self_eq_true, Bool.true_or, if_true, hc]
    rw [List.takeWhile_append_of_pos hg, List.dropWhile_append_of_pos hg]
    simp [endOfLine, isNameChar, isAlpha, isDigit]

theorem isOrdinary_of_isDigit {c : UInt8} (h : isDigit c = true) : isOrdinary 39 c = true := by
  simp only [isOrdinary, isNewline, backslash, Bool.and_eq_true, bne_iff_ne, Bool.not_eq_true',
    Bool.or_eq_false_iff, beq_eq_false_iff_ne]
  refine ⟨⟨?_, ?_, ?_⟩, ?_⟩ <;> rintro rfl <;> cases h

theorem isOrdinary_of_numeral {ds : List UInt8} (h : IsNumeral ds) :
    ∀ c ∈ ds, isOrdinary 39 c = true := by
  obtain ⟨i, f, e, rfl, -, hi, hf, he⟩ := h
  intro c hc
  rcases List.mem_append.mp hc with hc | hc
  · rcases List.mem_append.mp hc with hc | hc
    · exact isOrdinary_of_isDigit (hi c hc)
    · rcases hf with rfl | ⟨g, rfl, hg⟩
      · cases hc
      · rcases List.mem_cons.mp hc with rfl | hc
        · rfl
        · exact isOrdinary_of_isDigit (hg c hc)
  · rcases he with rfl | ⟨d, g, rfl, hd, hg⟩
    · cases hc
    · rcases List.mem_cons.mp hc with rfl | hc
      · rfl
      · rcases List.mem_cons.mp hc with rfl | hc
        · rcases hd with rfl | rfl <;> rfl
        · exact isOrdinary_of_isDigit (hg c hc)

/-! ### Tokens -/

@[simp] theorem lexOne_endOfLine (t : List UInt8) : lexOne N (endOfLine t) = lexOne N t := by
  have h : isSpace 10 = true := by decide
  simp only [lexOne, endOfLine, List.dropWhile_cons, h, if_true]

theorem lexOne_string (t : List UInt8) :
    lexOne N (39 :: t) = (readString 39 .plain t).map fun p => (.str p.1, p.2) := by
  have h : isSpace 39 = false := by decide
  simp only [lexOne, List.dropWhile_cons, h, Bool.false_eq_true, if_false]
  rfl

theorem isDigit_not_space {c : UInt8} (h : isDigit c = true) : isSpace c = false := by
  simp only [isDigit, Bool.and_eq_true, decide_eq_true_eq, UInt8.le_iff_toNat_le,
    UInt8.reduceToNat] at h
  simp only [isSpace, Bool.or_eq_false_iff, beq_eq_false_iff_ne, Bool.and_eq_false_iff,
    decide_eq_false_iff_not, UInt8.le_iff_toNat_le, UInt8.reduceToNat]
  refine ⟨?_, by omega⟩
  rintro rfl
  simp at h

theorem isDigit_not_quote {c : UInt8} (h : isDigit c = true) : (c == 34 || c == 39) = false := by
  simp only [Bool.or_eq_false_iff, beq_eq_false_iff_ne]
  constructor <;> rintro rfl <;> cases h

theorem lexOne_numeral {ds : List UInt8} (h : IsNumeral ds) (t : List UInt8) :
    lexOne N (ds ++ endOfLine t) = (N.value ds).map fun x => (.num x, endOfLine t) := by
  have hn := readNumeral_append h t
  obtain ⟨i, f, e, hds, hi, hd, -, -⟩ := h
  obtain ⟨c, i, rfl⟩ := List.exists_cons_of_ne_nil hi
  have hc : isDigit c = true := hd c List.mem_cons_self
  obtain ⟨u, rfl⟩ : ∃ u, ds = c :: u := ⟨i ++ f ++ e, hds⟩
  rw [List.cons_append] at hn ⊢
  simp only [lexOne, List.dropWhile_cons, isDigit_not_space hc, isDigit_not_quote hc, hc, hn,
    Bool.false_eq_true, if_false, if_true]

theorem lexOne_minus {ds : List UInt8} (h : IsNumeral ds) (t : List UInt8) :
    lexOne N (45 :: (ds ++ endOfLine t)) = some (.sym 45, ds ++ endOfLine t) := by
  obtain ⟨i, f, e, hds, hi, hd, -, -⟩ := h
  obtain ⟨c, i, rfl⟩ := List.exists_cons_of_ne_nil hi
  have hc : c ≠ 45 := by
    rintro rfl
    cases hd 45 List.mem_cons_self
  have hs : isSpace 45 = false := by decide
  rw [hds]
  simp only [lexOne, List.dropWhile_cons, hs, Bool.false_eq_true, if_false, List.cons_append,
    startsLong]
  simp [isDigit, isNameChar, isAlpha, hc]

/-! ### Assignments -/

/-- `_G['`. -/
def openKey : List UInt8 := [95, 71, 91, 39]

/-- `'] = `. -/
def closeKey : List UInt8 := [39, 93, 32, 61, 32]

/-- An assignment starts with its key, whatever follows the opening quote. -/
theorem readAssign_open (t : List UInt8) :
    readAssign N (openKey ++ t) = (readString 39 .plain t).bind fun p =>
      if p.1 = globals then none else readValue N p.1 p.2 := by
  have hg : lexOne N (openKey ++ t) = some (.name globals, 91 :: 39 :: t) := rfl
  have hb : lexOne N (91 :: 39 :: t) = some (.sym 91, 39 :: t) := rfl
  simp only [readAssign, expectGlobals, expectSym, expectStr, hg, hb, lexOne_string, if_true,
    Option.bind_eq_bind, Option.bind_some]
  cases readString 39 .plain t <;> rfl

theorem readValue_close (key t : List UInt8) :
    readValue N key (93 :: 32 :: 61 :: 32 :: t) =
      (readConstant N (32 :: t)).map fun p => ((key, p.1), p.2) := by
  have hb : lexOne N (93 :: 32 :: 61 :: 32 :: t) = some (.sym 93, 32 :: 61 :: 32 :: t) := rfl
  have he : lexOne N (32 :: 61 :: 32 :: t) = some (.sym 61, 32 :: t) := rfl
  simp only [readValue, expectSym, hb, he, if_true, Option.bind_eq_bind, Option.bind_some]
  cases readConstant N (32 :: t) <;> rfl

theorem key_of_readValue {key k : List UInt8} {c : Constant δ} {t r : List UInt8}
    (h : readValue N key t = some ((k, c), r)) : key = k := by
  simp only [readValue, Option.bind_eq_bind, Option.bind_eq_some_iff] at h
  obtain ⟨t₁, -, t₂, -, p, -, hp⟩ := h
  cases hp
  rfl

theorem readConstant_space (t : List UInt8) : readConstant N (32 :: t) = readConstant N t := rfl

theorem readConstant_string (t : List UInt8) :
    readConstant N (39 :: t) = (readString 39 .plain t).map fun p => (.str p.1, p.2) := by
  simp only [readConstant, lexOne_string]
  cases readString 39 .plain t <;> rfl

theorem readConstant_numeral {ds : List UInt8} (h : IsNumeral ds) {x : δ}
    (hx : N.value ds = some x) (t : List UInt8) :
    readConstant N (ds ++ endOfLine t) = some (.num x, endOfLine t) := by
  simp only [readConstant, lexOne_numeral N h, hx, Option.map_some]

theorem readConstant_minus {ds : List UInt8} (h : IsNumeral ds) {x : δ}
    (hx : N.value ds = some x) (t : List UInt8) :
    readConstant N (45 :: (ds ++ endOfLine t)) = some (.num (N.neg x), endOfLine t) := by
  simp only [readConstant, lexOne_minus N h, lexOne_numeral N h, hx, Option.map_some]

/-! ### Chunks -/

theorem readChunk_nil (n : Nat) : readChunk N (n + 1) [] = some [] := rfl

theorem readChunk_endOfLine (n : Nat) (t : List UInt8) :
    readChunk N n (endOfLine t) = readChunk N n t := by
  have ha : readAssign N (endOfLine t) = readAssign N t := by
    simp only [readAssign, expectGlobals, lexOne_endOfLine]
  cases n with
  | zero => rfl
  | succ n => simp only [readChunk, lexOne_endOfLine, ha]

theorem readChunk_open (n : Nat) (t : List UInt8) :
    readChunk N (n + 1) (openKey ++ t) =
      (readAssign N (openKey ++ t)).bind fun p => (readChunk N n p.2).map fun as => p.1 :: as := rfl

theorem exec_of_not_mem {as : List (Assign δ)} {k : List UInt8} (h : k ∉ as.map Prod.fst)
    (G : List UInt8 → Option (Constant δ)) : exec as G k = G k := by
  induction as generalizing G with
  | nil => rfl
  | cons a as ih =>
    rw [List.map_cons, List.mem_cons, not_or] at h
    rw [exec, ih h.2, Function.update_of_ne h.1]

/-- Assignments to different names all remain in force. -/
theorem exec_of_mem {as : List (Assign δ)} (hn : (as.map Prod.fst).Nodup) {a : Assign δ}
    (h : a ∈ as) (G : List UInt8 → Option (Constant δ)) : exec as G a.1 = some a.2 := by
  induction as generalizing G with
  | nil => cases h
  | cons b as ih =>
    rw [List.map_cons, List.nodup_cons] at hn
    rcases List.mem_cons.mp h with rfl | h
    · rw [exec, exec_of_not_mem hn.1, Function.update_self]
    · rw [exec, ih hn.2 h]

end LuaText
