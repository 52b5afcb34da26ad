import Hindsight.CheckpointFile
import Hindsight.Lib.Writes

/-!
# Hindsight.CheckpointWrite

The end of `hs_write_checkpoints` with stdio writes that may fail: `hs_output_checkpoints` fills the
temporary file, and only a complete one may replace `hindsight.cp`. The text that is meant to be
written is `CheckpointFile.hsOutputCheckpoints`.

* `writes`: the writes in their order; the result of writing an escaped backslash is not looked at.
* `Complete`: a failed write is reported, and `hindsight.cp` is the previous file or the full text.
* `complete_iff`: exactly when no unchecked write fails alone.
-/

namespace Hindsight

namespace CheckpointWrite

open CheckpointFile (Store Entry cString escape)
open LuaText (openKey closeKey)
open Writes (Outcomes Write Stream)

variable {δ : Type}

section

variable (printf : δ → List UInt8) (env : Outcomes)

/-- The loop of `hs_output_lua_string`. -/
def outputBytes : Stream UInt8 → List UInt8 → Stream UInt8 × Bool
  | st, [] => (st, true)
  | st, c :: cs =>
    let r := st.write env (escape c)
    if c = 92 then outputBytes r.1 cs
    else if r.2 then outputBytes r.1 cs
    else (r.1, false)

/-- `hs_output_lua_string`; `true` stands for the return value 0. -/
def hsOutputLuaString (st : Stream UInt8) (s : List UInt8) : Stream UInt8 × Bool :=
  outputBytes env st (cString s)

/-- One round of the loop of `hs_output_checkpoints`; `true` stands for `rv == 0`. -/
def outputEntry (st : Stream UInt8) (key : List UInt8) : LuaValue δ → Stream UInt8 × Bool
  | .str s =>
    let r := st.write env (openKey ++ key ++ closeKey ++ [39])
    if r.2 then
      let r' := hsOutputLuaString env r.1 s
      if r'.2 then r'.1.write env [39, 10] else r'
    else r
  | .num x => st.write env (openKey ++ key ++ closeKey ++ printf x ++ [10])
  | .nil => (st, true)

def outputEntries : Stream UInt8 → List (Entry δ) → Stream UInt8 × Bool
  | st, [] => (st, true)
  | st, e :: es =>
    let r := outputEntry printf env st e.1.text e.2
    if r.2 then outputEntries r.1 es else r

def hsOutputCheckpoints (s : Store δ) : Stream UInt8 × Bool :=
  outputEntries printf env .empty s.entries

/-- What is left of a pass: whether the process exits, and the content of `hindsight.cp`. -/
structure Outcome where
  exits : Bool
  cp : List UInt8
  deriving DecidableEq

/-- The end of `hs_write_checkpoints` with the file `prev` in place; `closes` and `renames` say
whether `fclose` and `rename` succeed. -/
def hsWriteCheckpoints (closes renames : Bool) (s : Store δ) (prev : List UInt8) : Outcome :=
  let r := hsOutputCheckpoints printf env s
  if !closes || !r.2 then ⟨true, prev⟩ else ⟨false, if renames then r.1.out else prev⟩

/-- A failed write is reported, so the process exits, and `hindsight.cp` is never cut short. -/
structure Complete (s : Store δ) : Prop where
  reported : (hsOutputCheckpoints printf env s).1.failed = true →
    (hsOutputCheckpoints printf env s).2 = false
  exits : (hsOutputCheckpoints printf env s).1.failed = true → ∀ closes renames prev,
    hsWriteCheckpoints printf env closes renames s prev = ⟨true, prev⟩
  whole : ∀ closes renames prev,
    (hsWriteCheckpoints printf env closes renames s prev).cp = prev ∨
      (hsWriteCheckpoints printf env closes renames s prev).cp =
        CheckpointFile.hsOutputCheckpoints printf s

end

/-! ## The writes of a store -/

section

variable (printf : δ → List UInt8)

def byteWrite (c : UInt8) : Write UInt8 := ⟨escape c, c != 92⟩

def entryWrites (key : List UInt8) : LuaValue δ → List (Write UInt8)
  | .str s =>
    ⟨openKey ++ key ++ closeKey ++ [39], true⟩ ::
      ((cString s).map byteWrite ++ [⟨[39, 10], true⟩])
  | .num x => [⟨openKey ++ key ++ closeKey ++ printf x ++ [10], true⟩]
  | .nil => []

/-- The writes of `hs_output_checkpoints` in their order. -/
def writes (s : Store δ) : List (Write UInt8) :=
  s.entries.flatMap fun e => entryWrites printf e.1.text e.2

end

variable {printf : δ → List UInt8} {env : Outcomes}

theorem outputBytes_eq (st : Stream UInt8) (cs : List UInt8) :
    outputBytes env st cs = Writes.perform env st (cs.map byteWrite) := by
  induction cs generalizing st with
  | nil => rfl
  | cons c cs ih =>
    simp only [outputBytes, List.map_cons, Writes.perform, byteWrite, ih]
    by_cases hc : c = 92
    · simp [hc]
    · cases h : (st.write env (escape c)).2 <;> simp [hc]

theorem outputEntry_eq (st : Stream UInt8) (key : List UInt8) (v : LuaValue δ) :
    outputEntry printf env st key v = Writes.perform env st (entryWrites printf key v) := by
  cases v with
  | nil => rfl
  | num x => exact (Writes.perform_checked st _).symm
  | str s =>
    rw [entryWrites, ← List.singleton_append, Writes.perform_append, Writes.perform_checked,
      Writes.perform_append, ← outputBytes_eq, Writes.perform_checked]
    rfl

theorem outputEntries_eq (st : Stream UInt8) (es : List (Entry δ)) :
    outputEntries printf env st es =
      Writes.perform env st (es.flatMap fun e => entryWrites printf e.1.text e.2) := by
  induction es generalizing st with
  | nil => rfl
  | cons e es ih =>
    rw [List.flatMap_cons, Writes.perform_append, ← outputEntry_eq, ← ih]
    rfl

theorem hsOutputCheckpoints_eq (s : Store δ) :
    hsOutputCheckpoints printf env s = Writes.perform env .empty (writes printf s) :=
  outputEntries_eq _ _

/-- All chunks together are the text of the store. -/
theorem chunk_writes (s : Store δ) :
    (writes printf s).flatMap Write.chunk = CheckpointFile.hsOutputCheckpoints printf s := by
  have hentry : ∀ key (v : LuaValue δ), (entryWrites printf key v).flatMap Write.chunk =
      CheckpointFile.outputEntry printf key v := by
    intro key v
    cases v with
    | nil => rfl
    | num x => simp [entryWrites, CheckpointFile.outputEntry]
    | str s =>
      simp [entryWrites, CheckpointFile.outputEntry, CheckpointFile.hsOutputLuaString, byteWrite,
        List.flatMap_map]
  rw [writes, List.flatMap_assoc, CheckpointFile.hsOutputCheckpoints, CheckpointFile.outputEntries]
  simp only [hentry]

/-! ## When the file is complete -/

variable (printf env) in
/-- If the write of an escaped backslash fails, so does a write whose result is looked at. -/
def NoneUnseen (s : Store δ) : Prop :=
  (∃ i w, (writes printf s)[i]? = some w ∧ w.checked = true ∧ env i ≠ none) ∨
    ∀ i w, (writes printf s)[i]? = some w → w.checked = false → env i = none

theorem ok_iff (s : Store δ) :
    (hsOutputCheckpoints printf env s).2 = true ↔
      ∀ i w, (writes printf s)[i]? = some w → w.checked = true → env i = none := by
  rw [hsOutputCheckpoints_eq, Writes.perform_ok_iff]
  simp only [Stream.empty, Nat.zero_add]

theorem failed_iff {s : Store δ} (h : (hsOutputCheckpoints printf env s).2 = true) :
    (hsOutputCheckpoints printf env s).1.failed = true ↔
      ∃ i, i < (writes printf s).length ∧ env i ≠ none := by
  rw [hsOutputCheckpoints_eq] at h ⊢
  rw [Writes.failed_perform h]
  simp only [Stream.empty, Bool.false_eq_true, false_or, Nat.zero_add]

theorem reported_iff (s : Store δ) :
    ((hsOutputCheckpoints printf env s).1.failed = true →
      (hsOutputCheckpoints printf env s).2 = false) ↔ NoneUnseen printf env s := by
  constructor
  · intro h
    by_cases hok : (hsOutputCheckpoints printf env s).2 = true
    · right
      intro i w hw hc
      by_contra hf
      have hi := (List.getElem?_eq_some_iff.mp hw).1
      have := h ((failed_iff hok).mpr ⟨i, hi, hf⟩)
      rw [hok] at this
      cases this
    · left
      rw [ok_iff] at hok
      push Not at hok
      exact hok
  · rintro (⟨i, w, hw, hc, hf⟩ | hunseen) hfailed
    · by_contra hok
      rw [Bool.not_eq_false, ok_iff] at hok
      exact hf (hok i w hw hc)
    · by_contra hok
      rw [Bool.not_eq_false] at hok
      obtain ⟨i, hi, hf⟩ := (failed_iff hok).mp hfailed
      cases hc : ((writes printf s)[i]).checked with
      | true => exact hf ((ok_iff s).mp hok i _ (List.getElem?_eq_getElem hi) hc)
      | false => exact hf (hunseen i _ (List.getElem?_eq_getElem hi) hc)

theorem out_eq {s : Store δ} (h : (hsOutputCheckpoints printf env s).1.failed = false) :
    (hsOutputCheckpoints printf env s).1.out = CheckpointFile.hsOutputCheckpoints printf s := by
  rw [hsOutputCheckpoints_eq] at h ⊢
  rw [(Writes.out_perform h).1, chunk_writes]
  rfl

/-- A pass reports every failed write, and leaves the previous file or the full text, exactly when
no failed write of an escaped backslash is the only kind of failure. -/
theorem complete_iff (printf : δ → List UInt8) (env : Outcomes) (s : Store δ) :
    Complete printf env s ↔ NoneUnseen printf env s := by
  refine ⟨fun h => (reported_iff s).mp h.reported, fun h => ?_⟩
  have hreported := (reported_iff s).mpr h
  refine ⟨hreported, fun hf closes renames prev => ?_, fun closes renames prev => ?_⟩
  · rw [hsWriteCheckpoints, hreported hf]
    simp
  · cases hok : (hsOutputCheckpoints printf env s).2 with
    | false => simp [hsWriteCheckpoints, hok]
    | true =>
      have hf : (hsOutputCheckpoints printf env s).1.failed = false := by
        by_contra hf
        rw [Bool.not_eq_false] at hf
        rw [hreported hf] at hok
        cases hok
      have hout := out_eq hf
      cases closes <;> cases renames <;> simp [hsWriteCheckpoints, hok, hout]

/-- The plugin `input.c` with the checkpoint `\x`. -/
def backslashStore : Store Int where
  entries := [(.plugin ⟨[99], by decide, by decide, by decide⟩, .str [92, 120])]
  nodup := by decide

/-- The escaped backslash is lost and `hindsight.cp` is replaced all the same. -/
theorem complete_fails :
    ¬∀ (printf : Int → List UInt8) (env : Outcomes) (s : Store Int), Complete printf env s := by
  intro h
  have hc := h CheckpointFile.printInt (fun i => if i = 1 then some 0 else none) backslashStore
  have := hc.reported (by decide)
  exact absurd this (by decide)

end CheckpointWrite

end Hindsight
