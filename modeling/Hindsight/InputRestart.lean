import Hindsight.InputCheckpoint

/-!
# Hindsight.InputRestart

An input plugin that ends and is started again in the same process: `hs_update_checkpoint` holds its
checkpoint in the store, `hs_lookup_checkpoint` loads it into a fresh one, and `input_thread` passes that
one to the plugin. `update_checkpoint` counts the zero byte of a string in `len`, `hs_load_checkpoint`
does not, so the zero byte is part of the stored string and the loader allows one byte less.

* `Restarts`: the last checkpoint `update_checkpoint` accepted arrives at the plugin, after any number of
  restarts.
* `Kept`: no call was rejected after it, and a string has at most `8190` bytes.
* `restart_iff`: the one holds exactly when the other does.
-/

namespace Hindsight

namespace InputRestart

open IpCheckpoint InputCheckpoint

variable {δ : Type}

/-- What `hs_update_checkpoint` pushes; `none` when it reads where there is no buffer. -/
def hsUpdateCheckpoint (cp : IpCheckpoint δ) : Option (LuaValue δ) :=
  match cp.type, cp.value with
  | .string, .s (some b) => if cp.len ≤ b.length then some (.str (b.take cp.len)) else none
  | .string, .s none => if cp.len = 0 then some (.str []) else none
  | .numeric, .d x => some (.num x)
  | .none, _ => some .nil
  | _, _ => none

/-- `hs_update_checkpoint`, and `hs_lookup_checkpoint` into a fresh checkpoint. -/
def restart (cp : IpCheckpoint δ) : Option (IpCheckpoint δ) :=
  (hsUpdateCheckpoint cp).bind fun v =>
    let loaded := IpCheckpoint.init.hsLoadCheckpoint (.value v)
    if loaded.2 then some loaded.1 else none

def restarts : Nat → IpCheckpoint δ → Option (IpCheckpoint δ)
  | 0, cp => some cp
  | n + 1, cp => (restart cp).bind (restarts n)

/-- The checkpoint arguments of `lsb_heka_pm_input`: the number (`none` is NaN), and the buffer the string
points to. -/
def arguments (cp : IpCheckpoint δ) : Option δ × Option (List UInt8) :=
  match cp.type, cp.value with
  | .string, .s buf => (none, buf)
  | .numeric, .d x => (some x, none)
  | _, _ => (none, none)

/-- A checkpoint a plugin gives: a number or a C string without its zero byte. -/
inductive Given (δ : Type) where
  | num (x : δ)
  | str (s : List UInt8)
  deriving DecidableEq, Repr

/-- The plugin is given the checkpoint. -/
def Passes (cp : IpCheckpoint δ) : Given δ → Prop
  | .num x => arguments cp = (some x, none)
  | .str s => ∃ b, arguments cp = (none, some b) ∧ 0 ∈ b ∧ b.takeWhile (· != 0) = s

/-- The last checkpoint that was accepted, and whether one was rejected after it. -/
structure History (δ : Type) where
  last : Option (Given δ)
  spoilt : Bool
  deriving DecidableEq, Repr

/-- The checkpoint of an `inject_message` call, if it has one. -/
def given : Option δ → Option (List UInt8) → Option (Given δ)
  | some x, _ => some (.num x)
  | none, some s => some (.str s)
  | none, none => none

def History.see (h : History δ) (g : Option (Given δ)) (ok : Bool) : History δ :=
  match g with
  | none => h
  | some g => if ok then ⟨some g, false⟩ else { h with spoilt := true }

/-- One `inject_message` call. -/
def inject (p : IpCheckpoint δ × History δ) (c : Option δ × Option (List UInt8)) :
    IpCheckpoint δ × History δ :=
  let r := p.1.updateCheckpoint c.1 c.2
  (r.1, p.2.see (given c.1 c.2) r.2)

/-- A plugin's checkpoint after its `inject_message` calls. -/
def injects (cs : List (Option δ × Option (List UInt8))) : IpCheckpoint δ × History δ :=
  cs.foldl inject (.init, ⟨none, false⟩)

/-- The string has no zero byte of its own. -/
def Given.IsCString : Given δ → Prop
  | .num _ => True
  | .str s => 0 ∉ s

def Restarts (cs : List (Option δ × Option (List UInt8))) : Prop :=
  ∀ g, (injects cs).2.last = some g → g.IsCString →
    ∀ n, ∃ cp, restarts (n + 1) (injects cs).1 = some cp ∧ Passes cp g

/-- Short enough for the loader. -/
def Given.Loads : Given δ → Prop
  | .num _ => True
  | .str s => s.length + 2 ≤ hsMaxIpCheckpoint

def Kept (cs : List (Option δ × Option (List UInt8))) : Prop :=
  ∀ g, (injects cs).2.last = some g → g.IsCString → (injects cs).2.spoilt = false ∧ g.Loads

/-- What the checkpoint holds of the history. -/
structure Holds (cp : IpCheckpoint δ) (h : History δ) : Prop where
  inv : Inv cp
  spoilt : h.spoilt = true → cp.type = .string ∧ hsMaxIpCheckpoint < cp.len ∧ cp.value = .s cp.stringMember
  num : ∀ x, h.spoilt = false → h.last = some (.num x) → cp.type = .numeric ∧ cp.value = .d x
  str : ∀ s, h.spoilt = false → h.last = some (.str s) →
    cp.type = .string ∧ cp.len = (s.length + 1) % 2 ^ 32 ∧ cp.len ≤ hsMaxIpCheckpoint ∧
      cp.value = .s cp.stringMember ∧
      (cp.stringMember.getD []).take cp.len = (s ++ [0]).take cp.len

section

variable {cp : IpCheckpoint δ} {h : History δ}

theorem holds_init : Holds (.init : IpCheckpoint δ) ⟨none, false⟩ := by
  refine ⟨⟨fun _ => rfl, rfl, Nat.zero_le _⟩, fun h => ?_, fun x _ h => ?_, fun s _ h => ?_⟩ <;> cases h

/-- A rejected string leaves the length that was rejected. -/
theorem reject_holds (hI : Inv cp) {len : Nat} (hlen : hsMaxIpCheckpoint < len) :
    Holds ⟨.string, len, cp.cap, .s cp.stringMember⟩ { h with spoilt := true } :=
  ⟨⟨fun hn => absurd rfl hn, hI.cap, hI.limit⟩, fun _ => ⟨rfl, hlen, rfl⟩, fun _ hs => (by cases hs),
    fun _ hs => (by cases hs)⟩

theorem number_holds (hI : Inv cp) (x : δ) : Holds (cp.setNumber x) ⟨some (.num x), false⟩ := by
  refine ⟨setNumber_inv hI x, fun hs => (by cases hs), fun y _ hy => ?_, fun s _ hs => (by cases hs)⟩
  cases hy
  refine ⟨setNumber_type cp x, ?_⟩
  unfold setNumber
  split <;> rfl

theorem accept_holds (hI : Inv cp) {s : List UInt8}
    (hlen : (s.length + 1) % 2 ^ 32 ≤ hsMaxIpCheckpoint) :
    Holds (cp.updateCheckpoint none (some s)).1 ⟨some (.str s), false⟩ := by
  have hinv : Inv (cp.updateCheckpoint none (some s)).1 := call_inv hI (.update none (some s))
  simp only [updateCheckpoint, if_pos hlen] at hinv ⊢
  refine ⟨hinv, fun hs => (by cases hs), fun x _ hx => (by cases hx), fun t _ ht => ?_⟩
  cases ht
  refine ⟨rfl, rfl, hlen, rfl, ?_⟩
  have hsrc := length_src s
  by_cases hne : (s ++ [0]).take ((s.length + 1) % 2 ^ 32) ≠ [] ∨ cp.stringMember ≠ none
  · obtain ⟨b, hb, -, htake⟩ := hI.place hne
    rw [hsrc] at htake
    simp only [stringMember, hb, Option.getD_some]
    exact htake
  · simp only [not_or, not_not] at hne
    have hzero : (s.length + 1) % 2 ^ 32 = 0 := by
      rw [← hsrc, hne.1]
      rfl
    simp only [hzero, List.take_zero]

theorem inject_holds (hH : Holds cp h) (c : Option δ × Option (List UInt8)) :
    Holds (inject (cp, h) c).1 (inject (cp, h) c).2 := by
  obtain ⟨d, s⟩ := c
  cases d with
  | some x => exact number_holds hH.inv x
  | none =>
    cases s with
    | none => exact hH
    | some s =>
      by_cases hlen : (s.length + 1) % 2 ^ 32 ≤ hsMaxIpCheckpoint
      · have hok : (cp.updateCheckpoint none (some s)).2 = true := by
          simp only [updateCheckpoint, if_pos hlen]
        simp only [inject, given, History.see, hok, if_true]
        exact accept_holds hH.inv hlen
      · simp only [inject, given, History.see, updateCheckpoint, if_neg hlen, Bool.false_eq_true,
          if_false]
        exact reject_holds hH.inv (Nat.lt_of_not_le hlen)

theorem injects_holds (cs : List (Option δ × Option (List UInt8))) :
    Holds (injects cs).1 (injects cs).2 := by
  have hall : ∀ (p : IpCheckpoint δ × History δ), Holds p.1 p.2 →
      Holds (cs.foldl inject p).1 (cs.foldl inject p).2 := by
    induction cs with
    | nil => exact fun p hp => hp
    | cons c cs ih => exact fun p hp => ih _ (inject_holds hp c)
  exact hall _ holds_init

/-! ## Restarts -/

/-- The checkpoint a stored string is loaded as. -/
def loaded (bytes : List UInt8) : IpCheckpoint δ :=
  ⟨.string, bytes.length, bytes.length + 1, .s (some (bytes ++ [0]))⟩

theorem load_str (bytes : List UInt8) :
    (IpCheckpoint.init : IpCheckpoint δ).hsLoadCheckpoint (.value (.str bytes)) =
      if bytes.length + 1 ≤ hsMaxIpCheckpoint then (loaded bytes, true)
      else (⟨.string, bytes.length % 2 ^ 32, 0, .s none⟩, false) := by
  simp only [hsLoadCheckpoint]
  split
  · rename_i h
    have hmod : bytes.length % 2 ^ 32 = bytes.length :=
      Nat.mod_eq_of_lt (lt_of_lt_of_le h (by decide))
    rw [hmod]
    simp [place, IpCheckpoint.init, loaded]
  · rfl

theorem restart_str {bytes : List UInt8} (h : hsUpdateCheckpoint cp = some (.str bytes)) :
    restart cp = if bytes.length + 1 ≤ hsMaxIpCheckpoint then some (loaded bytes) else none := by
  simp only [restart, h, Option.bind_some, load_str]
  split
  · simp only [if_true]
  · simp only [Bool.false_eq_true, if_false]

theorem restart_num {x : δ} (h : hsUpdateCheckpoint cp = some (.num x)) :
    restart cp = some ⟨.numeric, 0, 0, .d x⟩ := by
  simp only [restart, h, Option.bind_some]
  rfl

theorem push_loaded (bytes : List UInt8) :
    hsUpdateCheckpoint (loaded bytes : IpCheckpoint δ) = some (.str bytes) := by
  simp only [hsUpdateCheckpoint, loaded, List.take_left]
  rw [if_pos (by simp)]

/-- A checkpoint that one restart reproduces survives any number of them. -/
theorem restarts_of_fixed {fresh : IpCheckpoint δ} (h : restart cp = some fresh)
    (hfix : restart fresh = some fresh) (n : Nat) : restarts (n + 1) cp = some fresh := by
  induction n generalizing cp with
  | zero => simp [restarts, h]
  | succ n ih =>
    rw [restarts, h]
    exact ih hfix

theorem passes_loaded {s : List UInt8} (hs : 0 ∉ s) :
    Passes (loaded (s ++ [0]) : IpCheckpoint δ) (.str s) := by
  refine ⟨s ++ [0] ++ [0], rfl, by simp, ?_⟩
  have hall : ∀ c ∈ s, (c != 0) = true := by
    intro c hc
    rw [bne_iff_ne]
    rintro rfl
    exact hs hc
  rw [List.append_assoc, List.takeWhile_append_of_pos hall]
  simp

/-- What is passed of a loaded string is no longer than what was stored. -/
theorem length_of_passes {bytes s : List UInt8} (hs : 0 ∉ s)
    (hp : Passes (loaded bytes : IpCheckpoint δ) (.str s)) : s.length ≤ bytes.length := by
  obtain ⟨b, harg, -, hb⟩ := hp
  obtain rfl : bytes ++ [0] = b := by
    simpa [arguments, loaded] using harg
  have hpre : s <+: bytes ++ [0] := hb ▸ List.takeWhile_prefix _
  by_contra hlt
  have hlen := hpre.length_le
  rw [List.length_append, List.length_singleton] at hlen
  have heq : s = bytes ++ [0] := by
    refine hpre.eq_of_length ?_
    rw [List.length_append, List.length_singleton]
    omega
  exact hs (heq ▸ by simp)

/-! ## What the history leaves to be stored -/

theorem Holds.push_num (hH : Holds cp h) {x : δ} (hs : h.spoilt = false)
    (hl : h.last = some (.num x)) : hsUpdateCheckpoint cp = some (.num x) := by
  obtain ⟨htype, hvalue⟩ := hH.num x hs hl
  simp only [hsUpdateCheckpoint, htype, hvalue]

theorem Holds.push_str (hH : Holds cp h) {s : List UInt8} (hs : h.spoilt = false)
    (hl : h.last = some (.str s)) :
    hsUpdateCheckpoint cp = some (.str ((s ++ [0]).take ((s.length + 1) % 2 ^ 32))) := by
  obtain ⟨htype, hlen, -, hvalue, htake⟩ := hH.str s hs hl
  have hsrc := length_src s
  rw [hlen] at htake
  rw [hsUpdateCheckpoint.eq_def, htype, hvalue, hlen]
  cases hb : cp.stringMember with
  | none =>
    rw [hb] at htake
    rw [Option.getD_none, List.take_nil] at htake
    have hzero : (s.length + 1) % 2 ^ 32 = 0 := by
      rw [← hsrc, ← htake]
      rfl
    simp only [hzero, if_true, List.take_zero]
  | some b =>
    rw [hb, Option.getD_some] at htake
    have hle : (s.length + 1) % 2 ^ 32 ≤ b.length := by
      rw [← htake, List.length_take] at hsrc
      omega
    simp only [if_pos hle, htake]

/-- After a rejected string the store would read past the buffer. -/
theorem Holds.push_spoilt (hH : Holds cp h) (hs : h.spoilt = true) :
    hsUpdateCheckpoint cp = none := by
  obtain ⟨htype, hlen, hvalue⟩ := hH.spoilt hs
  have hcap := hH.inv.cap
  have hlimit := hH.inv.limit
  rw [hsUpdateCheckpoint.eq_def, htype, hvalue]
  cases hb : cp.stringMember with
  | none => exact if_neg (Nat.ne_of_gt (Nat.zero_lt_of_lt hlen))
  | some b =>
    rw [hb, Option.map_some, Option.getD_some] at hcap
    exact if_neg (by omega)

theorem Holds.survives (hH : Holds cp h) {g : Given δ} (hl : h.last = some g) (hg : g.IsCString)
    (hs : h.spoilt = false) (hload : g.Loads) (n : Nat) :
    ∃ fresh, restarts (n + 1) cp = some fresh ∧ Passes fresh g := by
  cases g with
  | num x =>
    exact ⟨_, restarts_of_fixed (restart_num (hH.push_num hs hl)) (restart_num rfl) n, rfl⟩
  | str s =>
    have hload : s.length + 2 ≤ hsMaxIpCheckpoint := hload
    have hlen : (s.length + 1) % 2 ^ 32 = s.length + 1 :=
      Nat.mod_eq_of_lt (lt_of_lt_of_le hload (by decide))
    have hpush := hH.push_str hs hl
    rw [hlen, List.take_of_length_le (by simp)] at hpush
    have hfits : (s ++ [0]).length + 1 ≤ hsMaxIpCheckpoint := by
      rw [List.length_append, List.length_singleton]
      exact hload
    have hrestart := restart_str hpush
    have hfix := restart_str (push_loaded (δ := δ) (s ++ [0]))
    rw [if_pos hfits] at hrestart hfix
    exact ⟨_, restarts_of_fixed hrestart hfix n, passes_loaded hg⟩

theorem Holds.kept (hH : Holds cp h) {g : Given δ} (hl : h.last = some g) (hg : g.IsCString)
    {fresh : IpCheckpoint δ} (hr : restart cp = some fresh) (hp : Passes fresh g) :
    h.spoilt = false ∧ g.Loads := by
  have hs : h.spoilt = false := by
    by_contra hs
    rw [restart, hH.push_spoilt (Bool.not_eq_false _ ▸ hs)] at hr
    cases hr
  refine ⟨hs, ?_⟩
  cases g with
  | num x => trivial
  | str s =>
    have hrestart := restart_str (hH.push_str hs hl)
    rw [hr, length_src] at hrestart
    split at hrestart
    · rename_i hfits
      cases hrestart
      have hle := length_of_passes hg hp
      rw [length_src] at hle
      have hlimit : hsMaxIpCheckpoint < 2 ^ 32 := by decide
      have hlen : (s.length + 1) % 2 ^ 32 = s.length + 1 := Nat.mod_eq_of_lt (by omega)
      change s.length + 2 ≤ hsMaxIpCheckpoint
      omega
    · cases hrestart

end

/-- The last accepted checkpoint arrives at the restarted plugin exactly when no call was rejected after
it and the loader takes it. -/
theorem restart_iff (cs : List (Option δ × Option (List UInt8))) : Restarts cs ↔ Kept cs := by
  have hH := injects_holds cs
  constructor
  · intro hr g hl hg
    obtain ⟨fresh, hone, hp⟩ := hr g hl hg 0
    refine hH.kept hl hg ?_ hp
    simpa [restarts] using hone
  · intro hk g hl hg n
    obtain ⟨hs, hload⟩ := hk g hl hg
    exact hH.survives hl hg hs hload n

/-- The longest string the updater accepts is one byte too long for the loader. -/
theorem restart_fails : ¬∀ cs : List (Option Unit × Option (List UInt8)), Restarts cs := by
  intro h
  obtain ⟨s, hlen, hzero⟩ : ∃ s : List UInt8, s.length = 8191 ∧ 0 ∉ s :=
    ⟨List.replicate 8191 97, List.length_replicate,
      fun hm => absurd (List.eq_of_mem_replicate hm) (by decide)⟩
  have haccept : (s.length + 1) % 2 ^ 32 ≤ hsMaxIpCheckpoint := by
    rw [hlen]
    decide
  have hlast : (injects [(none, some s)] : IpCheckpoint Unit × History Unit).2.last =
      some (.str s) := by
    simp only [injects, List.foldl, inject, given, updateCheckpoint, if_pos haccept, History.see,
      if_true]
  obtain ⟨fresh, hone, hp⟩ := h [(none, some s)] (.str s) hlast hzero 0
  have hload := ((injects_holds [(none, some s)]).kept hlast hzero (by simpa [restarts] using hone)
    hp).2
  have hload : s.length + 2 ≤ 8192 := hload
  omega

end InputRestart

end Hindsight
