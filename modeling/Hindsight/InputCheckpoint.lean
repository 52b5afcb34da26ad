import Hindsight.Lib.Run
import Hindsight.InputPlugin

/-!
# Hindsight.InputCheckpoint

The checkpoint of an input plugin under all its writers: `update_checkpoint` from `inject_message` and
`hs_load_checkpoint` from the store. Both reuse the string buffer, and both write `type` and `len`
before they look at the length. An observer keeps the checkpoint a failed call was made on.

* `Safe`: a string has its buffer and does not reach past it, and a failed call changed nothing.
* `Admits`: no string is too long, nor so long that its length wraps around to nothing.
* `wellFormed_iff`: a sequence of calls keeps `Safe` exactly when all calls are admitted.
-/

namespace Hindsight

/-- A Lua value as `hs_load_checkpoint` tells them apart; `other` is neither a number, a string nor
nil. -/
inductive LuaSlot (δ : Type) where
  | value (v : LuaValue δ)
  | other
  deriving DecidableEq, Repr

namespace IpCheckpoint

variable {δ : Type}

/-- `hs_load_checkpoint`: the new checkpoint and whether the call succeeded. The check is made on the
length with the zero byte, `len` is without it. -/
def hsLoadCheckpoint (v : LuaSlot δ) (cp : IpCheckpoint δ) : IpCheckpoint δ × Bool :=
  match v with
  | .value (.str bytes) =>
    let len := bytes.length % 2 ^ 32
    if bytes.length + 1 ≤ hsMaxIpCheckpoint then
      let buf := cp.place (bytes ++ [0])
      (⟨.string, len, buf.2, .s buf.1⟩, true)
    else (⟨.string, len, cp.cap, .s cp.stringMember⟩, false)
  | .value (.num x) => (cp.setNumber x, true)
  | .value .nil => (cp, true)
  | .other => (cp, false)

end IpCheckpoint

namespace InputCheckpoint

open IpCheckpoint

variable {δ : Type}

inductive Call (δ : Type) where
  | update (d : Option δ) (s : Option (List UInt8))
  | load (v : LuaSlot δ)
  deriving DecidableEq, Repr

def call (cp : IpCheckpoint δ) : Call δ → IpCheckpoint δ × Bool
  | .update d s => cp.updateCheckpoint d s
  | .load v => cp.hsLoadCheckpoint v

/-- A checkpoint and the one before the last call, if that call failed. -/
abbrev State (δ : Type) := IpCheckpoint δ × Option (IpCheckpoint δ)

def see (cp : IpCheckpoint δ) (_ : Option (IpCheckpoint δ)) (c : Call δ) :
    Option (IpCheckpoint δ) :=
  if (call cp c).2 then none else some cp

def step : State δ → Call δ → Option (State δ) :=
  Runs.observe (fun cp c => some (call cp c).1) see

def init : State δ := (.init, none)

/-- The bytes `hs_update_checkpoint` pushes are in the buffer. -/
def Allocated (cp : IpCheckpoint δ) : Prop :=
  cp.type = .string → ∃ b, cp.value = .s (some b) ∧ b.length = cp.cap ∧ cp.len ≤ cp.cap

def Unchanged (before cp : IpCheckpoint δ) : Prop :=
  cp.type = before.type ∧ cp.len = before.len ∧ cp.value = before.value

def Safe (s : State δ) : Prop := Allocated s.1 ∧ ∀ before ∈ s.2, Unchanged before s.1

/-- A string that is loaded over one of the same length modulo `2 ^ 32` leaves that one alone when it is
too long. -/
def Admits (s : State δ) : Call δ → Prop
  | .update none (some str) =>
    (str.length + 1) % 2 ^ 32 ≤ hsMaxIpCheckpoint ∧
      ((str.length + 1) % 2 ^ 32 = 0 → s.1.type = .string)
  | .load (.value (.str bytes)) =>
    bytes.length + 1 ≤ hsMaxIpCheckpoint ∨ s.1.type = .string ∧ s.1.len = bytes.length % 2 ^ 32
  | _ => True

/-- Only a string has a buffer, and its capacity is never more than the limit. -/
structure Inv (cp : IpCheckpoint δ) : Prop where
  member : cp.type ≠ .string → cp.stringMember = none
  cap : cp.cap = (cp.stringMember.map List.length).getD 0
  limit : cp.cap ≤ hsMaxIpCheckpoint

section

variable {cp : IpCheckpoint δ}

/-! ## The buffer -/

theorem length_place (src : List UInt8) : (cp.place src).2 = max cp.cap src.length := by
  unfold place
  split <;> simp only <;> omega

/-- Nothing to copy leaves the buffer as it is. -/
theorem place_nil (cp : IpCheckpoint δ) : cp.place [] = (cp.stringMember, cp.cap) := by
  unfold place
  rw [if_neg (by simp)]
  cases cp.stringMember <;> rfl

theorem stringMember_string (h : cp.type = .string) {b : Option (List UInt8)}
    (hb : cp.value = .s b) : cp.stringMember = b := by
  simp only [stringMember, h, hb]

/-- What is copied has a buffer, as soon as there is something to copy or there was a buffer. -/
theorem Inv.place (hI : Inv cp) {src : List UInt8} (h : src ≠ [] ∨ cp.stringMember ≠ none) :
    ∃ b, (cp.place src).1 = some b ∧ b.length = (cp.place src).2 ∧ b.take src.length = src := by
  unfold IpCheckpoint.place
  split
  · exact ⟨src, rfl, rfl, List.take_length⟩
  · rename_i hle
    have hcap := hI.cap
    cases hb : cp.stringMember with
    | none =>
      rw [hb] at hcap
      rcases h with h | h
      · have := List.length_pos_iff.mpr h
        simp only [Option.map_none, Option.getD_none] at hcap
        omega
      · exact absurd hb h
    | some b =>
      rw [hb] at hcap
      simp only [Option.map_some, Option.getD_some] at hcap
      refine ⟨src ++ b.drop src.length, rfl, ?_, List.take_left⟩
      rw [List.length_append, List.length_drop]
      omega

theorem Inv.cap_place (hI : Inv cp) (src : List UInt8) :
    (cp.place src).2 = ((cp.place src).1.map List.length).getD 0 := by
  by_cases h : src ≠ [] ∨ cp.stringMember ≠ none
  · obtain ⟨b, hb, hcap, -⟩ := hI.place h
    rw [hb]
    exact hcap.symm
  · simp only [not_or, not_not] at h
    have hcap := hI.cap
    rw [h.1, place_nil]
    exact hcap

theorem setNumber_inv (hI : Inv cp) (x : δ) : Inv (cp.setNumber x) := by
  unfold setNumber
  split
  · exact ⟨fun _ => rfl, rfl, Nat.zero_le _⟩
  · rename_i hne
    have hcap := hI.cap
    rw [hI.member (by simpa using hne)] at hcap
    exact ⟨fun _ => rfl, hcap, hI.limit⟩

theorem setNumber_type (cp : IpCheckpoint δ) (x : δ) : (cp.setNumber x).type = .numeric := by
  unfold setNumber
  split <;> rfl

theorem length_src (str : List UInt8) :
    ((str ++ [0]).take ((str.length + 1) % 2 ^ 32)).length = (str.length + 1) % 2 ^ 32 := by
  rw [List.length_take, List.length_append, List.length_singleton]
  exact min_eq_left (Nat.mod_le _ _)

/-! ## Calls -/

theorem call_inv (hI : Inv cp) (c : Call δ) : Inv (call cp c).1 := by
  cases c with
  | update d s =>
    cases d with
    | some x => exact setNumber_inv hI x
    | none =>
      cases s with
      | none => exact hI
      | some str =>
        simp only [call, updateCheckpoint]
        split
        · refine ⟨fun h => absurd rfl h, hI.cap_place _, ?_⟩
          rw [length_place, length_src]
          exact max_le hI.limit ‹_›
        · exact ⟨fun h => absurd rfl h, hI.cap, hI.limit⟩
  | load v =>
    cases v with
    | other => exact hI
    | value v =>
      cases v with
      | nil => exact hI
      | num x => exact setNumber_inv hI x
      | str bytes =>
        simp only [call, hsLoadCheckpoint]
        split
        · refine ⟨fun h => absurd rfl h, hI.cap_place _, ?_⟩
          rw [length_place, List.length_append, List.length_singleton]
          exact max_le hI.limit ‹_›
        · exact ⟨fun h => absurd rfl h, hI.cap, hI.limit⟩

/-- A string that is copied. -/
theorem copied_allocated (hI : Inv cp) {src : List UInt8} {len : Nat} (hlen : len ≤ src.length)
    (h : src ≠ [] ∨ cp.stringMember ≠ none) :
    Allocated (⟨.string, len, (cp.place src).2, .s (cp.place src).1⟩ : IpCheckpoint δ) := by
  intro _
  obtain ⟨b, hb, hcap, -⟩ := hI.place h
  refine ⟨b, by rw [hb], hcap, ?_⟩
  change len ≤ (cp.place src).2
  rw [length_place]
  exact hlen.trans (le_max_right _ _)

theorem Allocated.member (hA : Allocated cp) (h : cp.type = .string) : cp.stringMember ≠ none := by
  obtain ⟨b, hb, -⟩ := hA h
  rw [stringMember_string h hb]
  exact Option.some_ne_none b

/-- The effect of a number on the invariants is nil. -/
theorem number_safe (x : δ) : Safe ((cp.setNumber x, none) : State δ) := by
  refine ⟨fun h => ?_, fun b hb => (by cases hb)⟩
  rw [setNumber_type] at h
  cases h

theorem update_safe (hI : Inv cp) (hA : Allocated cp) (str : List UInt8)
    (before : Option (IpCheckpoint δ)) :
    Safe ((call cp (.update none (some str))).1, see cp before (.update none (some str))) ↔
      (str.length + 1) % 2 ^ 32 ≤ hsMaxIpCheckpoint ∧
        ((str.length + 1) % 2 ^ 32 = 0 → cp.type = .string) := by
  have hsrc := length_src str
  simp only [see, call, updateCheckpoint]
  split
  · rename_i hle
    simp only [if_true, Safe, Option.mem_def, reduceCtorEq, false_implies, implies_true, and_true,
      hle, true_and]
    constructor
    · intro hS hzero
      by_contra hne
      obtain ⟨b, hb, -⟩ := hS rfl
      have hnil : (str ++ [0]).take ((str.length + 1) % 2 ^ 32) = [] :=
        List.eq_nil_of_length_eq_zero (hsrc.trans hzero)
      rw [hnil, place_nil, hI.member hne] at hb
      cases hb
    · intro hstr
      refine copied_allocated hI hsrc.ge ?_
      by_cases hzero : (str.length + 1) % 2 ^ 32 = 0
      · exact .inr (hA.member (hstr hzero))
      · refine .inl fun hnil => hzero ?_
        rw [← hsrc, hnil]
        rfl
  · rename_i hlt
    simp only [Bool.false_eq_true, if_false, hlt, false_and, iff_false]
    rintro ⟨hS, hsame⟩
    obtain ⟨htype, hlen, -⟩ := hsame cp rfl
    obtain ⟨b, -, -, hcap⟩ := hA htype.symm
    have := hI.limit
    simp only at hlen
    omega

theorem load_safe (hI : Inv cp) (hA : Allocated cp) (bytes : List UInt8)
    (before : Option (IpCheckpoint δ)) :
    Safe ((call cp (.load (.value (.str bytes)))).1, see cp before (.load (.value (.str bytes)))) ↔
      bytes.length + 1 ≤ hsMaxIpCheckpoint ∨
        cp.type = .string ∧ cp.len = bytes.length % 2 ^ 32 := by
  simp only [see, call, hsLoadCheckpoint]
  split
  · rename_i hle
    have hlen : bytes.length % 2 ^ 32 ≤ (bytes ++ [0]).length := by
      rw [List.length_append]
      exact (Nat.mod_le _ _).trans (Nat.le_add_right _ _)
    refine ⟨fun _ => .inl hle, fun _ => ⟨copied_allocated hI hlen (.inl (by simp)), ?_⟩⟩
    exact fun b hb => (by cases hb)
  · rename_i hlt
    simp only [Bool.false_eq_true, if_false, hlt, false_or]
    constructor
    · rintro ⟨-, hsame⟩
      obtain ⟨htype, hlen, -⟩ := hsame cp rfl
      exact ⟨htype.symm, hlen.symm⟩
    · rintro ⟨htype, hlen⟩
      obtain ⟨b, hb, hcap, hle⟩ := hA htype
      have hmember := stringMember_string htype hb
      refine ⟨fun _ => ⟨b, by rw [hmember], hcap, hlen ▸ hle⟩, fun x hx => ?_⟩
      obtain rfl : cp = x := Option.some.inj hx
      exact ⟨htype.symm, hlen.symm, by rw [hmember, hb]⟩

theorem call_safe (hI : Inv cp) {before : Option (IpCheckpoint δ)} (hS : Safe (cp, before))
    (c : Call δ) : Safe ((call cp c).1, see cp before c) ↔ Admits (cp, before) c := by
  have hsame : ∀ {b : Bool}, Safe (cp, if b then none else some cp) := by
    intro b
    refine ⟨hS.1, fun x hx => ?_⟩
    cases b with
    | true => cases hx
    | false =>
      obtain rfl : cp = x := Option.some.inj hx
      exact ⟨rfl, rfl, rfl⟩
  cases c with
  | update d s =>
    cases d with
    | some x => exact iff_of_true (number_safe x) trivial
    | none =>
      cases s with
      | none => exact iff_of_true hsame trivial
      | some str => exact update_safe hI hS.1 str before
  | load v =>
    cases v with
    | other => exact iff_of_true hsame trivial
    | value v =>
      cases v with
      | nil => exact iff_of_true hsame trivial
      | num x => exact iff_of_true (number_safe x) trivial
      | str bytes => exact load_safe hI hS.1 bytes before

end

/-- In a sequence of calls on a new checkpoint the checkpoint is well formed after each of them, and as
before after those that failed, exactly when every string has an admitted length. -/
theorem wellFormed_iff (cs : List (Call δ)) :
    Runs.Always step Safe (init : State δ) cs ↔ Runs.Meets step Admits (init : State δ) cs := by
  refine Runs.always_iff_meets (I := fun s : State δ => Inv s.1) ?_ ?_ ?_ ?_ cs
  · rintro ⟨cp, before⟩ c s' hI h
    cases h
    exact call_inv hI c
  · rintro ⟨cp, before⟩ c s' hI hS h
    cases h
    exact call_safe hI hS c
  · exact ⟨fun _ => rfl, rfl, Nat.zero_le _⟩
  · exact ⟨fun h => (by cases h), fun b hb => (by cases hb)⟩

/-- A number, then a string that just exceeds the limit: the number is lost, and the periodic store
would read the whole length from the null pointer. -/
theorem wellFormed_fails : ¬∀ cs : List (Call Unit), Runs.Always step Safe init cs := by
  intro h
  obtain ⟨str, hlen⟩ : ∃ str : List UInt8, ¬(str.length + 1) % 2 ^ 32 ≤ hsMaxIpCheckpoint :=
    ⟨List.replicate 8192 97, by rw [List.length_replicate]; decide⟩
  obtain ⟨-, hnext⟩ := h [.update (some ()) none, .update none (some str)]
  obtain ⟨-, hnext⟩ := hnext _ rfl
  have hS := (hnext _ rfl).1
  simp only [call, updateCheckpoint, if_neg hlen] at hS
  obtain ⟨b, hb, -⟩ := hS rfl
  cases hb

end InputCheckpoint

end Hindsight
