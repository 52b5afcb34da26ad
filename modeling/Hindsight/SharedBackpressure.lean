import Hindsight.Throttle

/-!
# Hindsight.SharedBackpressure

The input queue is written by input plugins and by output plugins, and each of the two `inject_message`
functions has its own backpressure flag. An observer keeps whether the backpressure of some roll-over is
still in force.

* `Safe`: while it is in force every call is throttled.
* `Admits`: such a call is made through a function whose own flag is set, or rolls the file over and finds
  the condition itself.
* `agree_iff`: a run keeps `Safe` exactly when all its steps are admitted; `agree_of_single`: so it does
  when one function makes all the calls.
* `disk_iff`: when the disk test, on 32 bits, is the comparison with the free bytes.
-/

namespace Hindsight

namespace SharedBackpressure

open Throttle

/-! ## One flag for each function -/

section

variable (cfg : HsConfig) (varint : Nat → List UInt8)

/-- The call rolls the file over and finds a reader too far behind, or too little space. -/
def latches (o : Output) (env : InjectEnv) (pb : List UInt8) : Bool :=
  rolls cfg varint o pb && applyBackpressure cfg env (appendFrame cfg varint o pb) false

/-- The flag after the test at a roll-over. -/
def tested (o : Output) (env : InjectEnv) (b : Backpressure) (pb : List UInt8) : Backpressure :=
  { b with backpressure := b.backpressure || latches cfg varint o env pb }

/-- The call sees that the backpressure is over. -/
def releases (o : Output) (env : InjectEnv) (b : Backpressure) (pb : List UInt8) : Bool :=
  (tested cfg varint o env b pb).backpressure &&
    !(injectFrame cfg varint env o b pb).2.1.backpressure

/-- `inForce`: a roll-over found the condition, and no call has seen the release since. `last`: whether
the last call was throttled. -/
structure Ledger where
  inForce : Bool
  last : Option Bool
  deriving DecidableEq, Repr

/-- The observer. -/
def Ledger.see (s : QueueState) (l : Ledger) : Event → Ledger
  | .inject who env pb =>
    { inForce := (l.inForce || latches cfg varint s.output env pb) &&
        !releases cfg varint s.output env (s.statics who) pb
      last := some (injectFrame cfg varint env s.output (s.statics who) pb).2.2 }
  | .spill _ | .pass _ _ => l

abbrev State := QueueState × Ledger

def step : State → Event → Option State :=
  Runs.observe (queueStep cfg varint .input) (Ledger.see cfg varint)

def init (d : Dir) : State := (⟨hsInitOutput d, fun _ => ⟨0, false⟩⟩, ⟨false, none⟩)

def Safe (s : State) : Prop := s.2.inForce = true → ∀ throttled ∈ s.2.last, throttled = true

def Admits (s : State) : Event → Prop
  | .inject who env pb =>
    s.2.inForce = true →
      (s.1.statics who).backpressure = true ∨ latches cfg varint s.1.output env pb = true
  | .spill _ | .pass _ _ => True

end

section

variable {cfg : HsConfig} {varint : Nat → List UInt8}

/-- The flag of a call goes through the test at a roll-over and the test for the release. -/
theorem injectFrame_tested (env : InjectEnv) (o : Output) (b : Backpressure) (pb : List UInt8) :
    (injectFrame cfg varint env o b pb).2.1 =
      releaseBackpressure cfg env (appendFrame cfg varint o pb) (tested cfg varint o env b pb) := by
  have htest : (if o.cp.offset + (frame varint pb).length ≥ cfg.outputSize then
      { b with backpressure := applyBackpressure cfg env (appendFrame cfg varint o pb) b.backpressure }
      else b) = tested cfg varint o env b pb := by
    rw [tested, latches, rolls]
    split
    · rename_i h
      simp only [h, decide_true, Bool.true_and, applyBackpressure, Bool.false_or, Bool.or_assoc]
    · rename_i h
      simp only [h, decide_false, Bool.false_and, Bool.or_false]
  simp only [injectFrame, htest]

theorem injectFrame_throttles (env : InjectEnv) (o : Output) (b : Backpressure) (pb : List UInt8) :
    (injectFrame cfg varint env o b pb).2.2 = (injectFrame cfg varint env o b pb).2.1.backpressure :=
  rfl

/-- A flag that is not set is not looked at again. -/
theorem injectFrame_off {env : InjectEnv} {o : Output} {b : Backpressure} {pb : List UInt8}
    (h : (tested cfg varint o env b pb).backpressure = false) :
    (injectFrame cfg varint env o b pb).2.1.backpressure = false := by
  rw [injectFrame_tested, releaseBackpressure, h, Bool.false_and, if_neg Bool.false_ne_true]
  exact h

theorem tested_eq_true {env : InjectEnv} {o : Output} {b : Backpressure} {pb : List UInt8} :
    (tested cfg varint o env b pb).backpressure = true ↔
      b.backpressure = true ∨ latches cfg varint o env pb = true :=
  Bool.or_eq_true_iff

/-- A call is throttled while the backpressure is in force exactly when it is admitted. -/
theorem call_safe (s : QueueState) (l : Ledger) (who : Injector) (env : InjectEnv) (pb : List UInt8) :
    Safe (s, Ledger.see cfg varint s l (.inject who env pb)) ↔
      Admits cfg varint (s, l) (.inject who env pb) := by
  simp only [Safe, Admits, Ledger.see, Option.mem_some_iff, forall_eq', injectFrame_throttles,
    Bool.and_eq_true, Bool.or_eq_true, Bool.not_eq_true', ← tested_eq_true]
  cases ht : (tested cfg varint s.output env (s.statics who) pb).backpressure with
  | true =>
    refine iff_of_true ?_ fun _ => rfl
    rintro ⟨-, hr⟩
    simpa [releases, ht] using hr
  | false =>
    have hlatch : latches cfg varint s.output env pb = false := by
      rw [← Bool.not_eq_true]
      intro h
      rw [tested_eq_true.mpr (.inr h)] at ht
      cases ht
    simp only [injectFrame_off ht, releases, ht, hlatch, Bool.false_and, or_false, Bool.false_eq_true,
      and_true]

theorem step_safe {s s' : State} {e : Event} (hS : Safe s) (h : step cfg varint s e = some s') :
    Safe s' ↔ Admits cfg varint s e := by
  obtain ⟨-, hl⟩ := Runs.observe_some.mp h
  cases e with
  | inject who env pb =>
    rw [← call_safe, Safe, hl]
    exact Iff.rfl
  | spill n =>
    rw [Safe, hl]
    exact iff_of_true hS trivial
  | pass threads plugins =>
    rw [Safe, hl]
    exact iff_of_true hS trivial

end

/-- Every injector is throttled as long as the backpressure of any roll-over is in force exactly when all
steps are admitted. -/
theorem agree_iff (cfg : HsConfig) (varint : Nat → List UInt8) (d : Dir) (es : List Event) :
    Runs.Always (step cfg varint) Safe (init d) es ↔
      Runs.Meets (step cfg varint) (Admits cfg varint) (init d) es :=
  Runs.always_iff_meets (I := fun _ => True) (fun _ _ _ _ _ => trivial)
    (fun _ _ _ _ hS h => step_safe hS h) trivial (fun h => by cases h) es

instance : DecidablePred Safe := fun s =>
  inferInstanceAs (Decidable (s.2.inForce = true → ∀ throttled ∈ s.2.last, throttled = true))

def injectBy (who : Injector) : Event := .inject who ⟨5, none, none⟩ [1]

/-- An input plugin fills two files while the reader is on the first one. A message of an output plugin is
not throttled. -/
theorem agree_fails :
    ¬∀ (cfg : HsConfig) (varint : Nat → List UInt8) (d : Dir) (es : List Event),
      Runs.Always (step cfg varint) Safe (init d) es := by
  intro h
  have := h smallFiles (fun _ => [1]) ⟨[], fun _ => []⟩
    [.pass [⟨0, 0⟩] [], injectBy .input, injectBy .input, injectBy .input, injectBy .input,
      injectBy .output]
  revert this
  decide

/-! ## One function makes all the calls -/

/-- The event is no call of another function. -/
def By (who : Injector) : Event → Prop
  | .inject w _ _ => w = who
  | .spill _ | .pass _ _ => True

/-- What is in force is in the flag of the function. -/
def Held (who : Injector) (s : State) : Prop :=
  s.2.inForce = true → (s.1.statics who).backpressure = true

theorem step_held {cfg : HsConfig} {varint : Nat → List UInt8} {who : Injector} {s s' : State}
    {e : Event} (hI : Held who s) (hby : By who e) (h : step cfg varint s e = some s') :
    Held who s' := by
  obtain ⟨hq, hl⟩ := Runs.observe_some.mp h
  cases e with
  | inject w env pb =>
    subst w
    simp only [queueStep] at hq
    split at hq
    · cases hq
    · have hs := Option.some.inj hq
      rw [Held, hl, ← hs]
      simp only [Ledger.see, Function.update_self, Bool.and_eq_true, Bool.or_eq_true]
      rintro ⟨hforce, hrel⟩
      have ht : (tested cfg varint s.1.output env (s.1.statics who) pb).backpressure = true :=
        tested_eq_true.mpr (hforce.imp_left hI)
      simpa [releases, ht] using hrel
  | spill n =>
    rw [Held, hl, ← Option.some.inj hq]
    exact hI
  | pass threads plugins =>
    rw [Held, hl, ← Option.some.inj hq]
    exact hI

/-- When one function makes all the calls, they are throttled as long as the backpressure is in force. -/
theorem agree_of_single (cfg : HsConfig) (varint : Nat → List UInt8) (d : Dir) (who : Injector)
    {es : List Event} (hby : ∀ e ∈ es, By who e) :
    Runs.Always (step cfg varint) Safe (init d) es := by
  refine Runs.always_iff_meets (I := fun _ => True) (fun _ _ _ _ _ => trivial)
    (fun _ _ _ _ hS h => step_safe hS h) trivial (fun h => by cases h) es |>.mpr ?_
  have hheld : Held who (init d) := fun h => by cases h
  generalize init d = s at hheld
  induction es generalizing s with
  | nil => trivial
  | cons e es ih =>
    rw [List.forall_mem_cons] at hby
    intro s' hs'
    refine ⟨?_, ih hby.2 s' (step_held hheld hby.1 hs')⟩
    cases e with
    | inject w env pb =>
      intro hforce
      cases hby.1
      exact .inl (hheld hforce)
    | spill n => trivial
    | pass threads plugins => trivial

/-! ## The disk -/

def StatFs.free (fs : StatFs) : Nat := fs.bsize * fs.bavail

/-- Both tests compare the free bytes with the limit: the one at a roll-over, when the checkpoints apply
none, and the one for the release, when the readers have caught up. -/
def ComparesFree (cfg : HsConfig) (fs : StatFs) : Prop :=
  (∀ (now : Nat) (later : Option StatFs) (o : Output),
    (cfg.backpressure = 0 ∨ sub64 o.cp.id o.minCpId ≤ cfg.backpressure) →
      (applyBackpressure cfg ⟨now, some fs, later⟩ o false = true ↔
        StatFs.free fs < (cfg.backpressureDf + 1) * cfg.outputSize)) ∧
  ∀ (now : Nat) (earlier : Option StatFs) (o : Output) (b : Backpressure),
    b.backpressure = true → b.lastBpCheck < now → o.cp.id = o.minCpId →
      ((releaseBackpressure cfg ⟨now, earlier, some fs⟩ o b).backpressure = false ↔
        (cfg.backpressureDf + 1) * cfg.outputSize ≤ StatFs.free fs)

section

variable {cfg : HsConfig} {fs : StatFs}

theorem hsDiskFreeOb_eq (hsize : 0 < cfg.outputSize) (hfree : StatFs.free fs < 2 ^ 64) :
    hsDiskFreeOb (some fs) cfg.outputSize = StatFs.free fs / cfg.outputSize % 2 ^ 32 := by
  have hne : cfg.outputSize ≠ 0 := by omega
  simp only [hsDiskFreeOb, if_neg hne]
  rw [← StatFs.free, Nat.mod_eq_of_lt hfree]

theorem free_lt_iff (hsize : 0 < cfg.outputSize) :
    StatFs.free fs < (cfg.backpressureDf + 1) * cfg.outputSize ↔
      StatFs.free fs / cfg.outputSize ≤ cfg.backpressureDf := by
  rw [← Nat.div_lt_iff_lt_mul hsize]
  omega

theorem applyBackpressure_disk (hlimit : 0 < cfg.backpressureDf) {now : Nat} {later : Option StatFs}
    {o : Output} (hcp : cfg.backpressure = 0 ∨ sub64 o.cp.id o.minCpId ≤ cfg.backpressure) :
    applyBackpressure cfg ⟨now, some fs, later⟩ o false = true ↔
      hsDiskFreeOb (some fs) cfg.outputSize ≤ cfg.backpressureDf := by
  have hoff : (cfg.backpressure != 0 && decide (sub64 o.cp.id o.minCpId > cfg.backpressure)) = false := by
    rcases hcp with h | h
    · rw [h]
      rfl
    · rw [decide_eq_false (by omega), Bool.and_false]
  have hdf : (cfg.backpressureDf != 0) = true := bne_iff_ne.mpr (by omega)
  simp only [applyBackpressure, hoff, hdf, Bool.or_false, Bool.false_or, Bool.true_and,
    decide_eq_true_eq]

theorem releaseBackpressure_disk (hlimit : 0 < cfg.backpressureDf) {now : Nat}
    {earlier : Option StatFs} {o : Output} {b : Backpressure} (hon : b.backpressure = true)
    (hnow : b.lastBpCheck < now) (hid : o.cp.id = o.minCpId) :
    (releaseBackpressure cfg ⟨now, earlier, some fs⟩ o b).backpressure = false ↔
      cfg.backpressureDf < hsDiskFreeOb (some fs) cfg.outputSize := by
  have hdf : (cfg.backpressureDf == 0) = false := by
    rw [beq_eq_false_iff_ne]
    omega
  simp only [releaseBackpressure, hon, hnow, hid, hdf, decide_true, Bool.and_self, if_true,
    beq_self_eq_true, Bool.true_and, Bool.false_or, Bool.not_eq_false', decide_eq_true_eq, gt_iff_lt]

end

/-- The disk tests compare the free bytes exactly when the number of files that fit, where it is over the
limit, is still over it on 32 bits. -/
theorem disk_iff (cfg : HsConfig) (fs : StatFs) (hsize : 0 < cfg.outputSize)
    (hlimit : 0 < cfg.backpressureDf) (hfree : StatFs.free fs < 2 ^ 64) :
    ComparesFree cfg fs ↔
      (cfg.backpressureDf < StatFs.free fs / cfg.outputSize →
        cfg.backpressureDf < StatFs.free fs / cfg.outputSize % 2 ^ 32) := by
  have hle : StatFs.free fs / cfg.outputSize % 2 ^ 32 ≤ StatFs.free fs / cfg.outputSize :=
    Nat.mod_le _ _
  constructor
  · rintro ⟨happly, -⟩ hover
    have hiff := happly 0 none ⟨⟨[], fun _ => []⟩, none, [], ⟨0, 0⟩, 0⟩ (.inr (Nat.zero_le _))
    rw [applyBackpressure_disk hlimit (.inr (Nat.zero_le _)), hsDiskFreeOb_eq hsize hfree,
      free_lt_iff hsize] at hiff
    by_contra hnot
    have := hiff.mp (Nat.le_of_not_lt hnot)
    omega
  · intro h
    constructor
    · intro now later o hcp
      rw [applyBackpressure_disk hlimit hcp, hsDiskFreeOb_eq hsize hfree, free_lt_iff hsize]
      omega
    · intro now earlier o b hon hnow hid
      rw [releaseBackpressure_disk hlimit hon hnow hid, hsDiskFreeOb_eq hsize hfree, ← not_lt,
        free_lt_iff hsize]
      omega

theorem disk_iff_mebibyte :
    ComparesFree ⟨2 ^ 20, 0, 4⟩ ⟨4096, 1000⟩ ↔ (4 < 3 → 4 < 3 % 2 ^ 32) :=
  disk_iff ⟨2 ^ 20, 0, 4⟩ ⟨4096, 1000⟩ (by decide) (by decide) (by decide)

/-- Files of one mebibyte and four pebibytes free. -/
theorem disk_fails :
    ¬∀ (cfg : HsConfig) (fs : StatFs), 0 < cfg.outputSize → 0 < cfg.backpressureDf →
      StatFs.free fs < 2 ^ 64 → ComparesFree cfg fs := by
  intro h
  have hiff := (h ⟨2 ^ 20, 0, 4⟩ ⟨4096, 2 ^ 40⟩ (by decide) (by decide) (by decide)).1 0 none
    ⟨⟨[], fun _ => []⟩, none, [], ⟨0, 0⟩, 0⟩ (.inl rfl)
  revert hiff
  decide

end SharedBackpressure

end Hindsight
