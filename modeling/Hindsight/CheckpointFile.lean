import Hindsight.Lib.LuaChunk
import Hindsight.Checkpoint
import Hindsight.InputPlugin
import Mathlib

/-!
# Hindsight.CheckpointFile

The checkpoint file: `hs_output_checkpoints` writes the store as a Lua chunk, one assignment a line,
and `hs_init_checkpoint_reader` runs the chunk into an empty state. Numbers are finite and go
through `%.17g`; `printf` and the value of a numeral are parameters.

* `Clean`: what keys and values may not contain, because the writer does not escape it.
* `readsBack_iff`: the text is read as the store's own assignments exactly when the store is clean.
* `store_roundtrip`: a clean store is loaded back.
* `roundTrip_fails`: a quote in an input checkpoint makes the file unloadable.
-/

namespace Hindsight

namespace CheckpointFile

open LuaText (Constant Numbers Assign openKey closeKey endOfLine)

variable {δ : Type}

/-- A C string up to its first zero byte. -/
def cString (s : List UInt8) : List UInt8 := s.takeWhile (· != 0)

/-- The byte as `hs_output_lua_string` writes it. -/
def escape (c : UInt8) : List UInt8 :=
  if c = 10 then [92, 110]
  else if c = 13 then [92, 114]
  else if c = 34 then [92, 34]
  else if c = 92 then [92, 92]
  else [c]

def hsOutputLuaString (s : List UInt8) : List UInt8 := (cString s).flatMap escape

/-- One round of the loop of `hs_output_checkpoints`. -/
def outputEntry (printf : δ → List UInt8) (key : List UInt8) : LuaValue δ → List UInt8
  | .str s => openKey ++ key ++ closeKey ++ [39] ++ hsOutputLuaString s ++ [39, 10]
  | .num x => openKey ++ key ++ closeKey ++ printf x ++ [10]
  | .nil => []

/-- The name of a `.cfg` file without its extension. -/
structure Basename where
  bytes : List UInt8
  ne_nil : bytes ≠ []
  no_zero : 0 ∉ bytes
  no_slash : 47 ∉ bytes
  deriving DecidableEq

def inputName : List UInt8 := [105, 110, 112, 117, 116]

def analysisName : List UInt8 := [97, 110, 97, 108, 121, 115, 105, 115]

def outputName : List UInt8 := [111, 117, 116, 112, 117, 116]

/-- `hs_input_dir` and `hs_analysis_dir`. -/
def subdir : Queue → List UInt8
  | .input => inputName
  | .analysis => analysisName

/-- A reader with a position of its own: an analysis thread or an output plugin. -/
inductive Reader where
  | thread (n : Nat)
  | plugin (name : Basename)
  deriving DecidableEq

/-- `analysis<n>`, or `create_name("output", …)`. -/
def Reader.name : Reader → List UInt8
  | .thread n => analysisName ++ Decimal.digits n
  | .plugin b => outputName ++ [46] ++ b.bytes

/-- The keys of the store: the name of an input plugin, a position in a queue. -/
inductive StoreKey where
  | plugin (name : Basename)
  | position (q : Queue) (reader : Option Reader)
  deriving DecidableEq

def StoreKey.text : StoreKey → List UInt8
  | .plugin b => inputName ++ [46] ++ b.bytes
  | .position q none => subdir q
  | .position q (some r) => subdir q ++ [45, 62] ++ r.name

abbrev Entry (δ : Type) := StoreKey × LuaValue δ

/-- The store in the order of `lua_next`; no two entries have one key. -/
structure Store (δ : Type) where
  entries : List (Entry δ)
  nodup : (entries.map fun e => e.1.text).Nodup

def outputEntries (printf : δ → List UInt8) (es : List (Entry δ)) : List UInt8 :=
  es.flatMap fun e => outputEntry printf e.1.text e.2

def hsOutputCheckpoints (printf : δ → List UInt8) (s : Store δ) : List UInt8 :=
  outputEntries printf s.entries

/-- The chunk as statements. A statement takes at least one byte, so the bound is never reached. -/
def readText (N : Numbers δ) (text : List UInt8) : Option (List (Assign δ)) :=
  LuaText.readChunk N (text.length + 1) text

/-- `luaL_dofile` on an empty state: the globals the chunk leaves. -/
def loadText (N : Numbers δ) (text : List UInt8) : Option (List UInt8 → Option (Constant δ)) :=
  (readText N text).map fun as => LuaText.exec as fun _ => none

/-- A value of the store as the loader should see it. -/
def constant : LuaValue δ → Option (Constant δ)
  | .nil => none
  | .num x => some (.num x)
  | .str s => some (.str (cString s))

def assigns (es : List (Entry δ)) : List (Assign δ) :=
  es.filterMap fun e => (constant e.2).map fun v => (e.1.text, v)

/-- `printf` writes finite numbers as decimal numerals, with a minus sign in front of the negative
ones, and seventeen digits are enough to get the number back. -/
structure Lawful (printf : δ → List UInt8) (N : Numbers δ) : Prop where
  numeral : ∀ x, ∃ ds y, LuaText.IsNumeral ds ∧ N.value ds = some y ∧
    (printf x = ds ∧ x = y ∨ printf x = 45 :: ds ∧ x = N.neg y)

/-- The text is read as the assignments of the store. -/
def ReadsBack (printf : δ → List UInt8) (N : Numbers δ) (s : Store δ) : Prop :=
  readText N (hsOutputCheckpoints printf s) = some (assigns s.entries)

/-- Loading the text into an empty store gives back the keys of the store with their values, and no
other key. -/
def RoundTrip (printf : δ → List UInt8) (N : Numbers δ) (s : Store δ) : Prop :=
  ∃ G, loadText N (hsOutputCheckpoints printf s) = some G ∧
    (∀ e ∈ s.entries, G e.1.text = constant e.2) ∧
    ∀ k, (∀ e ∈ s.entries, e.1.text ≠ k) → G k = none

def CleanKey (k : List UInt8) : Prop := ∀ c ∈ k, c ≠ 39 ∧ c ≠ 92 ∧ c ≠ 10 ∧ c ≠ 13

def CleanValue : LuaValue δ → Prop
  | .str s => 39 ∉ cString s
  | _ => True

/-- No key that is written has a quote, a backslash or a line break, and no string has a quote. -/
def CleanEntry (e : Entry δ) : Prop := e.2 ≠ .nil → CleanKey e.1.text ∧ CleanValue e.2

def Clean (s : Store δ) : Prop := ∀ e ∈ s.entries, CleanEntry e

instance (k : List UInt8) : Decidable (CleanKey k) :=
  inferInstanceAs (Decidable (∀ c ∈ k, _))

instance : (v : LuaValue δ) → Decidable (CleanValue v)
  | .str s => inferInstanceAs (Decidable (39 ∉ cString s))
  | .num _ => isTrue trivial
  | .nil => isTrue trivial

instance : (e : Entry δ) → Decidable (CleanEntry e)
  | (_, .nil) => isTrue fun h => absurd rfl h
  | (k, .num x) =>
    decidable_of_iff (CleanKey k.text ∧ CleanValue (.num x : LuaValue δ))
      ⟨fun h _ => h, fun h => h (by simp)⟩
  | (k, .str s) =>
    decidable_of_iff (CleanKey k.text ∧ CleanValue (.str s : LuaValue δ))
      ⟨fun h _ => h, fun h => h (by simp)⟩

instance (s : Store δ) : Decidable (Clean s) :=
  inferInstanceAs (Decidable (∀ e ∈ s.entries, CleanEntry e))

/-! ### Reading an entry -/

theorem isOrdinary_of_clean {c : UInt8} (h : c ≠ 39 ∧ c ≠ 92 ∧ c ≠ 10 ∧ c ≠ 13) :
    LuaText.isOrdinary 39 c = true := by
  simp only [LuaText.isOrdinary, LuaText.isNewline, LuaText.backslash, Bool.and_eq_true,
    bne_iff_ne, Bool.not_eq_true', Bool.or_eq_false_iff, beq_eq_false_iff_ne]
  exact ⟨⟨h.1, h.2.2⟩, h.2.1⟩

theorem clean_of_isOrdinary {c : UInt8} (h : LuaText.isOrdinary 39 c = true) :
    c ≠ 39 ∧ c ≠ 92 ∧ c ≠ 10 ∧ c ≠ 13 := by
  simp only [LuaText.isOrdinary, LuaText.isNewline, LuaText.backslash, Bool.and_eq_true,
    bne_iff_ne, Bool.not_eq_true', Bool.or_eq_false_iff, beq_eq_false_iff_ne] at h
  exact ⟨h.1.1, h.2, h.1.2⟩

/-- Every byte but the quote is read back from what `hs_output_lua_string` writes for it. -/
theorem readString_escape {c : UInt8} (h : c ≠ 39) (t : List UInt8) :
    LuaText.readString 39 .plain (escape c ++ t) =
      LuaText.consByte c (LuaText.readString 39 .plain t) := by
  unfold escape
  split
  · subst c; rfl
  · split
    · subst c; rfl
    · split
      · subst c; rfl
      · split
        · subst c; rfl
        · exact LuaText.readString_cons (isOrdinary_of_clean ⟨h, ‹_›, ‹_›, ‹_›⟩) t

theorem readString_escapes {s : List UInt8} (h : 39 ∉ s) (t : List UInt8) :
    LuaText.readString 39 .plain (s.flatMap escape ++ t) =
      (LuaText.readString 39 .plain t).map fun p => (s ++ p.1, p.2) := by
  induction s with
  | nil =>
    rw [List.flatMap_nil, List.nil_append]
    cases LuaText.readString 39 .plain t <;> rfl
  | cons c s ih =>
    rw [List.mem_cons, not_or] at h
    rw [List.flatMap_cons, List.append_assoc, readString_escape (Ne.symm h.1), ih h.2]
    cases LuaText.readString 39 .plain t <;> rfl

/-- A string that is read back from what is written for it has no quote. -/
theorem no_quote_of_readString {s t r : List UInt8}
    (h : LuaText.readString 39 .plain (s.flatMap escape ++ 39 :: t) = some (s, r)) : 39 ∉ s := by
  induction s with
  | nil => simp
  | cons c s ih =>
    rw [List.flatMap_cons, List.append_assoc] at h
    by_cases hc : c = 39
    · subst c
      cases (LuaText.readString_close 39 _).symm.trans h
    · rw [readString_escape hc] at h
      obtain ⟨s', hs, ht⟩ := LuaText.consByte_eq_some h
      cases hs
      rw [List.mem_cons, not_or]
      exact ⟨Ne.symm hc, ih ht⟩

/-- What an entry writes behind ` = `, up to the end of the line. -/
def valueText (printf : δ → List UInt8) : LuaValue δ → List UInt8
  | .str s => 39 :: (hsOutputLuaString s ++ [39])
  | .num x => printf x
  | .nil => []

theorem outputEntry_append (printf : δ → List UInt8) (k : List UInt8) {v : LuaValue δ}
    (hv : v ≠ .nil) (t : List UInt8) :
    outputEntry printf k v ++ t =
      openKey ++ (k ++ 39 :: 93 :: 32 :: 61 :: 32 :: (valueText printf v ++ endOfLine t)) := by
  cases v with
  | nil => exact absurd rfl hv
  | num x => simp [outputEntry, valueText, closeKey, endOfLine]
  | str s => simp [outputEntry, valueText, closeKey, endOfLine]

/-- A string that is read back has no quote. -/
theorem cleanValue_of_readAssign {printf : δ → List UInt8} {N : Numbers δ} {k : List UInt8}
    (hk : CleanKey k) {v : LuaValue δ} {c : Constant δ} (hc : constant v = some c)
    {t r : List UInt8}
    (h : LuaText.readAssign N (outputEntry printf k v ++ t) = some ((k, c), r)) :
    CleanValue v := by
  cases v with
  | nil => trivial
  | num x => trivial
  | str s =>
    cases hc
    rw [outputEntry_append printf k (by simp), LuaText.readAssign_open,
      LuaText.readString_plain fun c hc => isOrdinary_of_clean (hk c hc), Option.bind_some] at h
    split at h
    · cases h
    · rw [LuaText.readValue_close, LuaText.readConstant_space, valueText, List.cons_append,
        List.append_assoc, LuaText.readConstant_string, List.singleton_append,
        hsOutputLuaString] at h
      cases hr : LuaText.readString 39 .plain ((cString s).flatMap escape ++ 39 :: endOfLine t) with
      | none =>
        rw [hr] at h
        cases h
      | some p =>
        obtain ⟨s', u⟩ := p
        rw [hr] at h
        simp only [Option.map_some, Option.some.injEq, Prod.mk.injEq, true_and,
          Constant.str.injEq] at h
        obtain ⟨rfl, -⟩ := h
        exact no_quote_of_readString hr

section

variable {printf : δ → List UInt8} {N : Numbers δ} (hP : Lawful printf N)
include hP

theorem readConstant_num (x : δ) (t : List UInt8) :
    LuaText.readConstant N (printf x ++ endOfLine t) = some (.num x, endOfLine t) := by
  obtain ⟨ds, y, hd, hy, ⟨hx, rfl⟩ | ⟨hx, rfl⟩⟩ := hP.numeral x
  · rw [hx]
    exact LuaText.readConstant_numeral N hd hy t
  · rw [hx]
    exact LuaText.readConstant_minus N hd hy t

/-- A value without quotes is read back. -/
theorem readConstant_valueText {v : LuaValue δ} {c : Constant δ} (hc : constant v = some c)
    (hv : CleanValue v) (t : List UInt8) :
    LuaText.readConstant N (valueText printf v ++ endOfLine t) = some (c, endOfLine t) := by
  cases v with
  | nil => cases hc
  | num x =>
    cases hc
    exact readConstant_num hP x t
  | str s =>
    cases hc
    have hr := LuaText.readString_close 39 (endOfLine t)
    rw [valueText, List.cons_append, List.append_assoc, LuaText.readConstant_string,
      hsOutputLuaString, readString_escapes hv, List.singleton_append, hr]
    simp

/-- The text of a number is ordinary, so a string that runs into it ends with the line. -/
theorem readString_num (x : δ) (t : List UInt8) :
    LuaText.readString 39 .plain (printf x ++ endOfLine t) = none := by
  obtain ⟨ds, y, hd, -, hx⟩ := hP.numeral x
  have ho : ∀ c ∈ printf x, LuaText.isOrdinary 39 c = true := by
    intro c hc
    rcases hx with ⟨hx, -⟩ | ⟨hx, -⟩
    · exact LuaText.isOrdinary_of_numeral hd c (hx ▸ hc)
    · rcases List.mem_cons.mp (hx ▸ hc) with rfl | hc
      · rfl
      · exact LuaText.isOrdinary_of_numeral hd c hc
  rw [LuaText.readString_append ho]
  rfl

theorem readAssign_entry {k : List UInt8} {v : LuaValue δ} {c : Constant δ}
    (hc : constant v = some c) (hk : CleanKey k) (hg : k ≠ LuaText.globals) (hv : CleanValue v)
    (t : List UInt8) :
    LuaText.readAssign N (outputEntry printf k v ++ t) = some ((k, c), endOfLine t) := by
  have hn : v ≠ .nil := by
    rintro rfl
    cases hc
  rw [outputEntry_append printf k hn, LuaText.readAssign_open,
    LuaText.readString_plain fun c hc => isOrdinary_of_clean (hk c hc), Option.bind_some,
    if_neg hg, LuaText.readValue_close, LuaText.readConstant_space,
    readConstant_valueText hP hc hv]
  rfl

/-- A key that is read back is clean: it has no unescaped quote, and a backslash at its end would
take in what follows it, which ends with a space. -/
theorem cleanKey_of_readAssign {k : List UInt8} {v : LuaValue δ} (hn : v ≠ .nil)
    {c : Constant δ} {t r : List UInt8}
    (h : LuaText.readAssign N (outputEntry printf k v ++ t) = some ((k, c), r)) : CleanKey k := by
  rw [outputEntry_append printf k hn, LuaText.readAssign_open] at h
  obtain ⟨⟨s, u⟩, hs, h⟩ := Option.bind_eq_some_iff.mp h
  have hk : s = k := by
    split at h
    · cases h
    · exact LuaText.key_of_readValue N h
  subst s
  rcases LuaText.readString_past (.inr rfl) hs with hu | ⟨hk, s₁, s₂, hs₁, ht⟩
  · intro d hd
    exact clean_of_isOrdinary (LuaText.isOrdinary_of_readString hs hu d hd)
  · exfalso
    have hlast : k.getLast? = some 92 := by
      rcases hk with ⟨-, hk⟩ | hk
      · cases hk
      · exact hk
    have hm : ∀ d ∈ [93, 32, 61, 32], LuaText.isOrdinary 39 d = true := by
      simp [LuaText.isOrdinary, LuaText.isNewline, LuaText.backslash]
    have hsplit := LuaText.readString_append hm (valueText printf v ++ endOfLine t)
    simp only [List.cons_append, List.nil_append] at hsplit
    rw [hsplit] at ht
    cases v with
    | nil => exact hn rfl
    | num x =>
      rw [valueText, readString_num hP x t] at ht
      cases ht
    | str s =>
      rw [valueText, List.cons_append, LuaText.readString_close] at ht
      cases ht
      rw [hs₁] at hlast
      simp at hlast

end

/-! ### The store -/

/-- No key is `_G`. -/
theorem StoreKey.text_ne_globals (k : StoreKey) : k.text ≠ LuaText.globals := by
  have h : ∀ c t, c ≠ 95 → (c :: t : List UInt8) ≠ LuaText.globals := by
    rintro c t hc h
    cases h
    exact hc rfl
  match k with
  | .plugin b => exact h _ _ (by decide)
  | .position .input none => exact h _ _ (by decide)
  | .position .input (some r) => exact h _ _ (by decide)
  | .position .analysis none => exact h _ _ (by decide)
  | .position .analysis (some r) => exact h _ _ (by decide)

theorem assigns_cons (e : Entry δ) (es : List (Entry δ)) :
    assigns (e :: es) = ((constant e.2).map fun v => (e.1.text, v)).toList ++ assigns es := by
  unfold assigns
  rw [List.filterMap_cons]
  cases constant e.2 <;> rfl

theorem outputEntries_cons (printf : δ → List UInt8) (e : Entry δ) (es : List (Entry δ)) :
    outputEntries printf (e :: es) = outputEntry printf e.1.text e.2 ++ outputEntries printf es := by
  rw [outputEntries, List.flatMap_cons]
  rfl

theorem readChunk_entry (printf : δ → List UInt8) (N : Numbers δ) (n : Nat) (k : List UInt8)
    {v : LuaValue δ} (hn : v ≠ .nil) (t : List UInt8) :
    LuaText.readChunk N (n + 1) (outputEntry printf k v ++ t) =
      (LuaText.readAssign N (outputEntry printf k v ++ t)).bind fun p =>
        (LuaText.readChunk N n p.2).map fun as => p.1 :: as := by
  rw [outputEntry_append printf k hn, LuaText.readChunk_open]

section

variable {printf : δ → List UInt8} {N : Numbers δ} (hP : Lawful printf N)
include hP

theorem readChunk_of_clean {es : List (Entry δ)} (h : ∀ e ∈ es, CleanEntry e) {n : Nat}
    (hn : (assigns es).length < n) :
    LuaText.readChunk N n (outputEntries printf es) = some (assigns es) := by
  induction es generalizing n with
  | nil =>
    obtain ⟨n, rfl⟩ := Nat.exists_eq_add_of_lt hn
    exact LuaText.readChunk_nil N _
  | cons e es ih =>
    have ih : ∀ {m}, (assigns es).length < m →
        LuaText.readChunk N m (outputEntries printf es) = some (assigns es) :=
      ih fun d hd => h d (List.mem_cons_of_mem e hd)
    rw [assigns_cons] at hn
    rw [outputEntries_cons, assigns_cons]
    cases hc : constant e.2 with
    | none =>
      have : e.2 = .nil := by
        cases he : e.2 <;> rw [he] at hc <;> first | rfl | cases hc
      rw [this]
      rw [hc] at hn
      exact ih hn
    | some c =>
      have hnil : e.2 ≠ .nil := by
        intro he
        rw [he] at hc
        cases hc
      obtain ⟨hk, hv⟩ := h e List.mem_cons_self hnil
      rw [hc, Option.map_some, Option.toList_some, List.singleton_append, List.length_cons] at hn
      obtain ⟨m, rfl⟩ : ∃ m, n = m + 1 := ⟨n - 1, by omega⟩
      rw [readChunk_entry printf N m _ hnil,
        readAssign_entry hP hc hk e.1.text_ne_globals hv, Option.bind_some,
        LuaText.readChunk_endOfLine, ih (by omega)]
      rfl

theorem clean_of_readChunk {es : List (Entry δ)} {n : Nat}
    (h : LuaText.readChunk N n (outputEntries printf es) = some (assigns es)) :
    ∀ e ∈ es, CleanEntry e := by
  induction es generalizing n with
  | nil => simp
  | cons e es ih =>
    rw [outputEntries_cons, assigns_cons] at h
    cases hc : constant e.2 with
    | none =>
      have he : e.2 = .nil := by
        cases he : e.2 <;> rw [he] at hc <;> first | rfl | cases hc
      rw [hc, he] at h
      exact List.forall_mem_cons.mpr ⟨fun hn => absurd he hn, ih h⟩
    | some c =>
      have hnil : e.2 ≠ .nil := by
        intro he
        rw [he] at hc
        cases hc
      cases n with
      | zero => cases h
      | succ n =>
        rw [hc, readChunk_entry printf N n _ hnil] at h
        obtain ⟨⟨a, r⟩, ha, h⟩ := Option.bind_eq_some_iff.mp h
        obtain ⟨as, has, h⟩ := Option.map_eq_some_iff.mp h
        cases h
        have hk := cleanKey_of_readAssign hP hnil ha
        have hv := cleanValue_of_readAssign hk hc ha
        rw [readAssign_entry hP hc hk e.1.text_ne_globals hv] at ha
        cases ha
        rw [LuaText.readChunk_endOfLine] at has
        exact List.forall_mem_cons.mpr ⟨fun _ => ⟨hk, hv⟩, ih has⟩

end

/-- Every assignment takes at least a byte of the text. -/
theorem length_assigns_le (printf : δ → List UInt8) (es : List (Entry δ)) :
    (assigns es).length ≤ (outputEntries printf es).length := by
  induction es with
  | nil => exact le_rfl
  | cons e es ih =>
    rw [assigns_cons, outputEntries_cons, List.length_append, List.length_append]
    cases e.2 with
    | nil => simpa [constant, outputEntry] using ih
    | num x =>
      simp only [constant, Option.map_some, Option.toList_some, outputEntry, List.length_append,
        List.length_cons]
      omega
    | str s =>
      simp only [constant, Option.map_some, Option.toList_some, outputEntry, List.length_append,
        List.length_cons]
      omega

theorem readsBack_iff {printf : δ → List UInt8} {N : Numbers δ} (hP : Lawful printf N)
    (s : Store δ) : ReadsBack printf N s ↔ Clean s :=
  ⟨clean_of_readChunk hP, fun h =>
    readChunk_of_clean hP h (Nat.lt_succ_of_le (length_assigns_le printf s.entries))⟩

theorem mem_assigns {es : List (Entry δ)} {e : Entry δ} (he : e ∈ es) {c : Constant δ}
    (hc : constant e.2 = some c) : (e.1.text, c) ∈ assigns es :=
  List.mem_filterMap.mpr ⟨e, he, by rw [hc, Option.map_some]⟩

theorem key_of_mem_assigns {es : List (Entry δ)} {k : List UInt8}
    (h : k ∈ (assigns es).map Prod.fst) : ∃ e ∈ es, e.1.text = k ∧ constant e.2 ≠ none := by
  obtain ⟨a, ha, rfl⟩ := List.mem_map.mp h
  obtain ⟨e, he, hv⟩ := List.mem_filterMap.mp ha
  obtain ⟨c, hc, rfl⟩ := Option.map_eq_some_iff.mp hv
  exact ⟨e, he, rfl, by rw [hc]; simp⟩

theorem nodup_assigns {es : List (Entry δ)} (h : (es.map fun e => e.1.text).Nodup) :
    ((assigns es).map Prod.fst).Nodup := by
  induction es with
  | nil => exact List.nodup_nil
  | cons e es ih =>
    rw [List.map_cons, List.nodup_cons] at h
    rw [assigns_cons]
    cases constant e.2 with
    | none => exact ih h.2
    | some c =>
      refine List.nodup_cons.mpr ⟨fun hm => h.1 ?_, ih h.2⟩
      obtain ⟨d, hd, hk, -⟩ := key_of_mem_assigns hm
      exact List.mem_map.mpr ⟨d, hd, hk⟩

/-- A store whose text is read as its own assignments is loaded back. -/
theorem roundTrip_of_readsBack {printf : δ → List UInt8} {N : Numbers δ} {s : Store δ}
    (h : ReadsBack printf N s) : RoundTrip printf N s := by
  refine ⟨LuaText.exec (assigns s.entries) fun _ => none, by rw [loadText, h]; rfl, ?_, ?_⟩
  · intro e he
    cases hc : constant e.2 with
    | some c => exact LuaText.exec_of_mem (nodup_assigns s.nodup) (mem_assigns he hc) _
    | none =>
      refine LuaText.exec_of_not_mem (fun hm => ?_) _
      obtain ⟨d, hd, hk, hne⟩ := key_of_mem_assigns hm
      have : d = e := List.inj_on_of_nodup_map s.nodup hd he hk
      exact hne (this ▸ hc)
  · intro k hk
    refine LuaText.exec_of_not_mem (fun hm => ?_) _
    obtain ⟨e, he, heq, -⟩ := key_of_mem_assigns hm
    exact hk e he heq

/-- The text is read as the store's own assignments exactly when the store is clean, and then the
store comes back. -/
theorem store_roundtrip {printf : δ → List UInt8} {N : Numbers δ} (hP : Lawful printf N)
    (s : Store δ) :
    (ReadsBack printf N s ↔ Clean s) ∧ (Clean s → RoundTrip printf N s) :=
  ⟨readsBack_iff hP s, fun h => roundTrip_of_readsBack ((readsBack_iff hP s).mpr h)⟩

/-! ### Whole numbers -/

/-- `%.17g` of a whole number below `10^17`. -/
def printInt (x : Int) : List UInt8 :=
  if x < 0 then 45 :: Decimal.digits x.natAbs else Decimal.digits x.natAbs

def intNumbers : Numbers Int where
  value ds := if ds.all Decimal.isDigit then some (Decimal.value ds) else none
  neg x := -x

theorem lawful_int : Lawful printInt intNumbers where
  numeral x := by
    refine ⟨Decimal.digits x.natAbs, x.natAbs, LuaText.isNumeral_of_digits
      (Decimal.digits_ne_nil _) fun c hc => Decimal.isDigit_of_mem_digits hc, ?_, ?_⟩
    · have : (Decimal.digits x.natAbs).all Decimal.isDigit = true :=
        List.all_eq_true.mpr fun c hc => Decimal.isDigit_of_mem_digits hc
      simp only [intNumbers, this, if_true, Decimal.value_digits]
    · unfold printInt
      by_cases hx : x < 0
      · rw [if_pos hx]
        exact .inr ⟨rfl, by simp only [intNumbers]; omega⟩
      · rw [if_neg hx]
        exact .inl ⟨rfl, by omega⟩

/-- The plugin `input.a` with the checkpoint `a\"` and a line break, and positions. -/
def escapedStore : Store Int where
  entries :=
    [(.plugin ⟨[97], by decide, by decide, by decide⟩, .str [97, 92, 34, 10, 0]),
     (.plugin ⟨[98], by decide, by decide, by decide⟩, .num (-7)),
     (.position .input none, .str [53, 58, 57]),
     (.position .input (some (.thread 12)), .str [53, 58, 48])]
  nodup := by decide

theorem store_roundtrip_escaped :
    (ReadsBack printInt intNumbers escapedStore ↔ Clean escapedStore) ∧
      Clean escapedStore ∧ RoundTrip printInt intNumbers escapedStore := by
  have h : Clean escapedStore := by decide +kernel
  have hr := store_roundtrip lawful_int escapedStore
  exact ⟨hr.1, h, hr.2 h⟩

/-- The plugin `input.a` with the checkpoint `it's`. -/
def quoteStore : Store Int where
  entries := [(.plugin ⟨[97], by decide, by decide, by decide⟩, .str [105, 116, 39, 115, 0])]
  nodup := by decide

/-- The string ends at its quote, and the chunk does not load. -/
theorem roundTrip_fails :
    loadText intNumbers (hsOutputCheckpoints printInt quoteStore) = none ∧
      ¬ RoundTrip printInt intNumbers quoteStore := by
  have h : readText intNumbers (hsOutputCheckpoints printInt quoteStore) = none := by decide
  have hl : loadText intNumbers (hsOutputCheckpoints printInt quoteStore) = none := by
    rw [loadText, h, Option.map_none]
  refine ⟨hl, ?_⟩
  rintro ⟨G, hG, -⟩
  rw [hl] at hG
  cases hG

end CheckpointFile

end Hindsight
