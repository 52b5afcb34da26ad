import Hindsight.Lib.NumberFormat
import Hindsight.CheckpointFile
import Hindsight.Config
import Hindsight.Pipeline

/-!
# Hindsight.PositionStore

Positions in the store of the checkpoint reader: `hs_update_input_checkpoint` writes one as the text
`id:offset`, `hs_lookup_input_checkpoint` reads it. Both numbers go through a `lua_Number`, a double of 53
bits, and are printed as `%.14g`; the way back is `strtoull`.

* `RoundTrips`: a position is read back under its key, and no other entry changes.
* `roundTrips_iff`: this holds exactly for an id and an offset of at most fourteen digits.
-/

namespace Hindsight

namespace PositionStore

open NumberFormat
open CheckpointFile (cString StoreKey Reader)
open Config (hsMaxPath)

variable {δ : Type}

/-- The globals of the reader's Lua state. -/
abbrev Globals (δ : Type) := List UInt8 → LuaValue δ

/-- The key both functions push: `<subdir>-><key>`, or the subdirectory alone. -/
def entryKey (subdir : List UInt8) : Option (List UInt8) → List UInt8
  | some key => subdir ++ [45, 62] ++ key
  | none => subdir

/-- `%f` of `lua_pushfstring` for an integer cast to `lua_Number`. -/
def luaNumberText (n : Nat) : List UInt8 := formatG 14 (roundBits 53 n)

def positionText (cp : Checkpoint) : List UInt8 :=
  luaNumberText cp.id ++ [58] ++ luaNumberText cp.offset

def hsUpdateInputCheckpoint (G : Globals δ) (subdir : List UInt8) (key : Option (List UInt8))
    (cp : Checkpoint) : Globals δ :=
  Function.update G (entryKey subdir key) (.str (positionText cp))

/-- A string with a colon is a position, whatever stands around the colon. -/
def readPosition : LuaValue δ → Option Checkpoint
  | .str s =>
    let tmp := cString s
    match tmp.dropWhile (· != 58) with
    | [] => none
    | _ :: rest => some ⟨strtoull tmp, strtoull rest⟩
  | _ => none

/-- `hs_get_fqfn`; `none` when the name does not fit. -/
def hsGetFqfn (path name : List UInt8) (fqfnLen : Nat) : Option (List UInt8) :=
  let fqfn := path ++ [47] ++ name
  if fqfn.length > fqfnLen - 1 then none else some fqfn

/-- The first file of the queue. A name that is too long and a directory that is not there end the
process. -/
def firstPosition (dirs : List UInt8 → Option Dir) (path subdir : List UInt8) (cp : Checkpoint) :
    Option Checkpoint := do
  let fqfn ← hsGetFqfn path subdir hsMaxPath
  let d ← dirs fqfn
  return { cp with id := Service.findFirstId d }

/-- `hs_lookup_input_checkpoint` into `cp`; `none` when the process ends. Without a path a key that has no
position falls back to the subdirectory's. -/
def hsLookupInputCheckpoint (dirs : List UInt8 → Option Dir) (G : Globals δ) (subdir : List UInt8)
    (key path : Option (List UInt8)) (cp : Checkpoint) : Option Checkpoint :=
  match readPosition (G (entryKey subdir key)), path, key with
  | some pos, _, _ => some pos
  | none, some path, _ => firstPosition dirs path subdir cp
  | none, none, none => some cp
  | none, none, some _ => some ((readPosition (G (entryKey subdir none))).getD cp)

/-- The position is read back, whatever is looked up into and with or without a path; the other entries
are as before. -/
def RoundTrips (dirs : List UInt8 → Option Dir) (G : Globals δ) (subdir : List UInt8)
    (key path : Option (List UInt8)) (cp into : Checkpoint) : Prop :=
  hsLookupInputCheckpoint dirs (hsUpdateInputCheckpoint G subdir key cp) subdir key path into =
      some cp ∧
    ∀ k, k ≠ entryKey subdir key → hsUpdateInputCheckpoint G subdir key cp k = G k

/-- The keys of the threads and output plugins are such keys. -/
theorem entryKey_position (q : Queue) (r : Option Reader) :
    entryKey (CheckpointFile.subdir q) (r.map Reader.name) = (StoreKey.position q r).text := by
  cases r <;> rfl

/-! ## The text of a position -/

/-- A printed number has neither a zero byte nor a colon. -/
theorem luaNumberText_ne {n : Nat} {c : UInt8} (h : c ∈ luaNumberText n) : c ≠ 0 ∧ c ≠ 58 := by
  have hc : isNumber c = true := isNumber_formatG h
  constructor
  · rintro rfl
    cases hc
  · rintro rfl
    cases hc

theorem cString_positionText (cp : Checkpoint) : cString (positionText cp) = positionText cp := by
  refine List.takeWhile_eq_self_iff.mpr fun c hc => bne_iff_ne.mpr ?_
  rcases List.mem_append.mp hc with hc | hc
  · rcases List.mem_append.mp hc with hc | hc
    · exact (luaNumberText_ne hc).1
    · rw [List.mem_singleton.mp hc]
      exact Ne.symm (by decide)
  · exact (luaNumberText_ne hc).1

theorem dropWhile_positionText (cp : Checkpoint) :
    (positionText cp).dropWhile (· != 58) = 58 :: luaNumberText cp.offset := by
  rw [positionText, List.append_assoc, List.dropWhile_append_of_pos fun c hc =>
    bne_iff_ne.mpr (luaNumberText_ne hc).2]
  rfl

/-- What is read of a position that was written. -/
theorem readPosition_positionText (cp : Checkpoint) :
    readPosition (.str (positionText cp) : LuaValue δ) =
      some ⟨strtoull (positionText cp), strtoull (luaNumberText cp.offset)⟩ := by
  simp only [readPosition, cString_positionText, dropWhile_positionText]

/-- Fourteen digits fit into a double, and a longer number stays longer when it is rounded. -/
theorem strtoull_luaNumberText {n : Nat} {t : List UInt8} (ht : ∀ c ∈ t.head?, Decimal.isDigit c = false) :
    strtoull (luaNumberText n ++ t) = n ↔ n < 10 ^ 14 := by
  have hmax : 10 ^ 14 ≤ NumberFormat.ullongMax := by decide
  by_cases hn : n < 2 ^ 53
  · rw [luaNumberText, roundBits_of_lt hn]
    exact strtoull_formatG (by decide) hmax ht
  · have hround : 2 ^ 53 ≤ roundBits 53 n := le_roundBits (by decide) (Nat.le_of_not_lt hn)
    have hlow : strtoull (luaNumberText n ++ t) < 10 := strtoull_formatG_of_le (by omega) ht
    omega

/-! ## Positions through the store -/

variable (dirs : List UInt8 → Option Dir) (G : Globals δ) (subdir : List UInt8)
  (key path : Option (List UInt8)) (cp into : Checkpoint)

/-- An entry with a position hides the fallbacks. -/
theorem hsLookupInputCheckpoint_of_position {pos : Checkpoint}
    (h : readPosition (G (entryKey subdir key)) = some pos) :
    hsLookupInputCheckpoint dirs G subdir key path into = some pos := by
  simp only [hsLookupInputCheckpoint, h]

theorem lookup_update :
    hsLookupInputCheckpoint dirs (hsUpdateInputCheckpoint G subdir key cp) subdir key path into =
      some ⟨strtoull (positionText cp), strtoull (luaNumberText cp.offset)⟩ := by
  refine hsLookupInputCheckpoint_of_position _ _ _ _ _ _ ?_
  rw [hsUpdateInputCheckpoint, Function.update_self, readPosition_positionText]

theorem update_frame {k : List UInt8} (h : k ≠ entryKey subdir key) :
    hsUpdateInputCheckpoint G subdir key cp k = G k :=
  Function.update_of_ne h _ _

/-- Both numbers have at most fourteen digits. -/
theorem roundTrips_iff :
    RoundTrips dirs G subdir key path cp into ↔ cp.id < 10 ^ 14 ∧ cp.offset < 10 ^ 14 := by
  have hid : strtoull (positionText cp) = cp.id ↔ cp.id < 10 ^ 14 := by
    rw [positionText, List.append_assoc]
    refine strtoull_luaNumberText fun c hc => ?_
    obtain rfl : 58 = c := Option.some.inj hc
    rfl
  have hoffset : strtoull (luaNumberText cp.offset) = cp.offset ↔ cp.offset < 10 ^ 14 := by
    rw [← List.append_nil (luaNumberText cp.offset)]
    exact strtoull_luaNumberText fun c hc => (by cases hc)
  have hcp : (⟨strtoull (positionText cp), strtoull (luaNumberText cp.offset)⟩ : Checkpoint) = cp ↔
      strtoull (positionText cp) = cp.id ∧ strtoull (luaNumberText cp.offset) = cp.offset := by
    cases cp
    rw [Checkpoint.mk.injEq]
  rw [RoundTrips, lookup_update, Option.some_inj, hcp, hid, hoffset]
  exact and_iff_left fun k hk => update_frame G subdir key cp hk

/-- The offset 10^14 is written as `1e+14` and read as 1. -/
theorem roundTrip_overflows :
    ¬ ∀ (dirs : List UInt8 → Option Dir) (G : Globals Nat) (subdir : List UInt8)
      (key path : Option (List UInt8)) (cp into : Checkpoint), cp.id < 2 ^ 64 → cp.offset < 2 ^ 64 →
        RoundTrips dirs G subdir key path cp into := by
  intro h
  have h := h (fun _ => none) (fun _ => .nil) (CheckpointFile.subdir .input) none none ⟨0, 10 ^ 14⟩
    ⟨0, 0⟩ (by decide) (by decide)
  have h : (⟨0, 1⟩ : Checkpoint) = ⟨0, 10 ^ 14⟩ := Option.some.inj h.1
  exact absurd h (by decide)

end PositionStore

end Hindsight
