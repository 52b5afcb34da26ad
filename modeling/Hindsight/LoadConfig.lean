import Hindsight.Lib.Files
import Hindsight.Config
import Hindsight.PluginList

/-!
# Hindsight.LoadConfig

`hs_process_load_cfg`: a `.cfg` file moves from the load directory into the run directory, after the
`.off` and `.err` files of the plugin were deleted there, and a `.off` file renames the `.cfg` in the run
directory. Any `unlink` and `rename` may fail. A character of a path stands for one byte.

* `Atomic`: what the run directory holds of the plugin for each return value.
* `Keeps`: the deletions are followed by the move, and no file they are for is overlooked.
* `load_iff`: a call is atomic exactly when this is the case.
-/

namespace Hindsight

namespace LoadConfig

open Files
open AnalysisReload (hsExtLen hsCfgExt)
open Config (hsMaxPath)
open PluginList (hsOffExt)

def hsErrExt : List Char := ".err".toList

inductive Place where
  | load
  | run
  deriving DecidableEq, Repr

abbrev Path := Place × List Char

structure File where
  content : List UInt8
  readable : Bool
  deriving DecidableEq, Repr

abbrev FileSystem := Disk Path File

/-- A name that is only an extension is invalid. -/
def hsHasExt (fn ext : List Char) : Bool :=
  decide (ext.length < fn.length) && fn.drop (fn.length - ext.length) == ext

/-- `hs_get_fqfn` does not fail. -/
def fits (dir name : List Char) : Bool := decide ((dir ++ '/' :: name).length ≤ hsMaxPath - 1)

/-- The name with another extension. -/
def withExt (name ext : List Char) : List Char := name.take (name.length - hsExtLen) ++ ext

/-- `hs_file_exists` opens the file for reading. -/
def hsFileExists (d : FileSystem) (p : Path) : Bool :=
  match d p with
  | some f => f.readable
  | none => false

/-- A file that exists is deleted. -/
def clear (fails : Call Path → Bool) (p : Path) (d : FileSystem) : Option FileSystem :=
  if hsFileExists d p then unlink fails p d else some d

/-- `hs_process_load_cfg`: the return value and the files, `none` when the process ends because a path is
too long. -/
def hsProcessLoadCfg (fails : Call Path → Bool) (lpath rpath name : List Char) (d : FileSystem) :
    Option (Int × FileSystem) :=
  if hsHasExt name hsCfgExt then
    if fits lpath name && fits rpath name then
      match clear fails (.run, withExt name hsOffExt) d with
      | none => some (-1, d)
      | some d =>
        match clear fails (.run, withExt name hsErrExt) d with
        | none => some (-1, d)
        | some d =>
          match rename fails (.load, name) (.run, name) d with
          | none => some (-1, d)
          | some d => some (1, d)
    else none
  else if hsHasExt name hsOffExt then
    if fits lpath name then
      match unlink fails (.load, name) d with
      | none => some (-1, d)
      | some d =>
        if fits rpath name then
          match rename fails (.run, withExt name hsCfgExt) (.run, name) d with
          | none => some (-1, d)
          | some d => some (0, d)
        else none
    else none
  else some (-1, d)

/-- The files of the plugin in the run directory after a call. -/
structure Atomic (name : List Char) (d : FileSystem) (ret : Int) (d' : FileSystem) : Prop where
  failed : ret = -1 →
    d' (.run, withExt name hsCfgExt) = d (.run, withExt name hsCfgExt) ∧
      d' (.run, withExt name hsOffExt) = d (.run, withExt name hsOffExt)
  loaded : ret = 1 →
    (∃ f, d (.load, withExt name hsCfgExt) = some f ∧ d' (.run, withExt name hsCfgExt) = some f) ∧
      d' (.run, withExt name hsOffExt) = none ∧ d' (.run, withExt name hsErrExt) = none ∧
        d' (.load, withExt name hsCfgExt) = none
  stopped : ret = 0 →
    (∃ f, d (.run, withExt name hsCfgExt) = some f ∧ d' (.run, withExt name hsOffExt) = some f) ∧
      d' (.run, withExt name hsCfgExt) = none

def LoadsAtomically (fails : Call Path → Bool) (lpath rpath name : List Char) (d : FileSystem) : Prop :=
  ∀ ret d', hsProcessLoadCfg fails lpath rpath name d = some (ret, d') → Atomic name d ret d'

section

variable (fails : Call Path → Bool) (name : List Char) (d : FileSystem)

/-- The file is there and its deletion fails. -/
def Blocked (p : Path) : Prop := hsFileExists d p = true ∧ fails (.unlink p) = true

/-- The file to load is there and can be moved. -/
def Moves : Prop := d (.load, name) ≠ none ∧ fails (.rename (.load, name) (.run, name)) = false

/-- A file that exists can be opened. -/
def Visible (p : Path) : Prop := d p ≠ none → hsFileExists d p = true

/-- Where the `.off` file is deleted, the `.err` file is too and the new file is moved; and a plugin that is
loaded has no `.off` or `.err` file that cannot be opened. -/
def KeepsFiles : Prop :=
  (hsFileExists d (.run, withExt name hsOffExt) = true →
    fails (.unlink (.run, withExt name hsOffExt)) = false →
      ¬ Blocked fails d (.run, withExt name hsErrExt) ∧ Moves fails name d) ∧
  (¬ Blocked fails d (.run, withExt name hsOffExt) → ¬ Blocked fails d (.run, withExt name hsErrExt) →
    Moves fails name d →
      Visible d (.run, withExt name hsOffExt) ∧ Visible d (.run, withExt name hsErrExt))

/-- Nothing is asked of a file name with another extension, or one that is too long. -/
def Keeps (lpath rpath : List Char) : Prop :=
  hsHasExt name hsCfgExt = true → fits lpath name = true → fits rpath name = true →
    KeepsFiles fails name d

end

section

variable {fails : Call Path → Bool} {name : List Char} {d d' : FileSystem} {p q : Path}

/-! ## Names -/

theorem withExt_self {ext : List Char} (hlen : ext.length = hsExtLen) (h : hsHasExt name ext = true) :
    withExt name ext = name := by
  rw [hsHasExt, Bool.and_eq_true, beq_iff_eq, hlen] at h
  conv_rhs => rw [← List.take_append_drop (name.length - hsExtLen) name, h.2]
  rfl

theorem withExt_injective (name : List Char) : Function.Injective (withExt name) := fun _ _ h =>
  List.append_cancel_left h

theorem off_ne_cfg : withExt name hsOffExt ≠ withExt name hsCfgExt := fun h =>
  absurd (withExt_injective name h) (by decide)

theorem err_ne_cfg : withExt name hsErrExt ≠ withExt name hsCfgExt := fun h =>
  absurd (withExt_injective name h) (by decide)

theorem off_ne_err : withExt name hsOffExt ≠ withExt name hsErrExt := fun h =>
  absurd (withExt_injective name h) (by decide)

/-! ## Deleting a file that exists -/

theorem hsFileExists_ne_none (h : hsFileExists d p = true) : d p ≠ none := by
  intro hnone
  rw [hsFileExists, hnone] at h
  cases h

theorem clear_eq_none : clear fails p d = none ↔ Blocked fails d p := by
  unfold clear Blocked
  split
  · rename_i h
    have hsome : (d p).isNone = false :=
      Option.isNone_eq_false_iff.mpr (Option.isSome_iff_ne_none.mpr (hsFileExists_ne_none h))
    simp [unlink, hsome, h]
  · rename_i h
    simp [h]

theorem clear_other (h : clear fails p d = some d') (hq : q ≠ p) : d' q = d q := by
  unfold clear at h
  split at h
  · obtain ⟨-, -, rfl⟩ := unlink_cases h
    exact Function.update_of_ne hq _ _
  · cases h
    rfl

/-- Only a file that cannot be opened is left. -/
theorem clear_self (h : clear fails p d = some d') : d' p = none ↔ Visible d p := by
  unfold clear at h
  split at h
  · rename_i hexists
    obtain ⟨-, -, rfl⟩ := unlink_cases h
    exact iff_of_true (Function.update_self _ _ _) fun _ => hexists
  · rename_i hexists
    cases h
    simp only [Visible, hexists, imp_false, not_not, Bool.false_eq_true]

/-- The file is as before exactly when there was nothing to delete. -/
theorem clear_same (h : clear fails p d = some d') : d' p = d p ↔ hsFileExists d p = false := by
  unfold clear at h
  split at h
  · rename_i hexists
    obtain ⟨-, -, rfl⟩ := unlink_cases h
    rw [Function.update_self, hexists]
    exact iff_of_false (fun hnone => hsFileExists_ne_none hexists hnone.symm) (Ne.symm Bool.false_ne_true)
  · rename_i hexists
    cases h
    exact iff_of_true rfl (Bool.not_eq_true _ |>.mp hexists)

theorem hsFileExists_congr (h : d' p = d p) : hsFileExists d' p = hsFileExists d p := by
  rw [hsFileExists, h, hsFileExists]

theorem blocked_congr (h : d' p = d p) : Blocked fails d' p ↔ Blocked fails d p := by
  rw [Blocked, hsFileExists_congr h, Blocked]

theorem visible_congr (h : d' p = d p) : Visible d' p ↔ Visible d p := by
  rw [Visible, hsFileExists_congr h, h, Visible]

/-! ## The return values -/

theorem atomic_failed :
    Atomic name d (-1) d' ↔
      d' (.run, withExt name hsCfgExt) = d (.run, withExt name hsCfgExt) ∧
        d' (.run, withExt name hsOffExt) = d (.run, withExt name hsOffExt) :=
  ⟨fun h => h.failed rfl, fun h => ⟨fun _ => h, fun h1 => (by cases h1), fun h0 => (by cases h0)⟩⟩

theorem atomic_unchanged : Atomic name d (-1) d := atomic_failed.mpr ⟨rfl, rfl⟩

theorem loads_iff_atomic {lpath rpath : List Char} {ret : Int}
    (h : hsProcessLoadCfg fails lpath rpath name d = some (ret, d')) :
    LoadsAtomically fails lpath rpath name d ↔ Atomic name d ret d' := by
  constructor
  · intro ha
    exact ha ret d' h
  · intro ha r e he
    rw [h] at he
    cases he
    exact ha

/-- A failure after the `.off` file was handled. -/
theorem failed_iff {e : FileSystem} (hclear : clear fails (.run, withExt name hsOffExt) d = some d')
    (hcfg : e (.run, withExt name hsCfgExt) = d' (.run, withExt name hsCfgExt))
    (hoff : e (.run, withExt name hsOffExt) = d' (.run, withExt name hsOffExt)) :
    Atomic name d (-1) e ↔ hsFileExists d (.run, withExt name hsOffExt) = false := by
  have hsame : e (.run, withExt name hsCfgExt) = d (.run, withExt name hsCfgExt) :=
    hcfg.trans (clear_other hclear fun h => off_ne_cfg (congrArg Prod.snd h).symm)
  rw [atomic_failed, hoff, clear_same hclear]
  exact and_iff_right hsame

theorem not_blocked {p : Path} (h : clear fails p d = some d') : ¬ Blocked fails d p := by
  rw [← clear_eq_none, h]
  exact Option.some_ne_none d'

theorem keepsFiles_of_blocked (h : Blocked fails d (.run, withExt name hsOffExt)) :
    KeepsFiles fails name d := by
  refine ⟨fun _ hfails => ?_, fun hnot => absurd h hnot⟩
  rw [h.2] at hfails
  cases hfails

/-- The call fails after the `.off` file was handled. -/
theorem keepsFiles_of_failed (hoff : ¬ Blocked fails d (.run, withExt name hsOffExt))
    (hfail : Blocked fails d (.run, withExt name hsErrExt) ∨ ¬ Moves fails name d) :
    KeepsFiles fails name d ↔ hsFileExists d (.run, withExt name hsOffExt) = false := by
  constructor
  · intro h
    by_contra hexists
    have hexists := (Bool.not_eq_false _).mp hexists
    have hfails := (Bool.not_eq_true _).mp fun hfails => hoff ⟨hexists, hfails⟩
    obtain ⟨herr, hmoves⟩ := h.1 hexists hfails
    rcases hfail with hfail | hfail
    · exact herr hfail
    · exact hfail hmoves
  · intro hnone
    refine ⟨fun hexists => ?_, fun _ herr hmoves => ?_⟩
    · rw [hnone] at hexists
      cases hexists
    · rcases hfail with hfail | hfail
      · exact absurd hfail herr
      · exact absurd hmoves hfail

theorem keepsFiles_of_loaded (hoff : ¬ Blocked fails d (.run, withExt name hsOffExt))
    (herr : ¬ Blocked fails d (.run, withExt name hsErrExt)) (hmoves : Moves fails name d) :
    KeepsFiles fails name d ↔
      Visible d (.run, withExt name hsOffExt) ∧ Visible d (.run, withExt name hsErrExt) :=
  ⟨fun h => h.2 hoff herr hmoves, fun h => ⟨fun _ _ => ⟨herr, hmoves⟩, fun _ _ _ => h⟩⟩

/-- The two deletions and the move. -/
theorem loaded_iff {d₁ d₂ d₃ : FileSystem} (hname : withExt name hsCfgExt = name)
    (hoff : clear fails (.run, withExt name hsOffExt) d = some d₁)
    (herr : clear fails (.run, withExt name hsErrExt) d₁ = some d₂)
    (hmove : rename fails (.load, name) (.run, name) d₂ = some d₃) :
    Atomic name d 1 d₃ ↔
      Visible d (.run, withExt name hsOffExt) ∧ Visible d (.run, withExt name hsErrExt) := by
  obtain ⟨f, hf, -, rfl⟩ := rename_cases (fun h => (by cases h)) hmove
  have hload : d₂ (.load, name) = d (.load, name) :=
    (clear_other herr fun h => (by cases h)).trans (clear_other hoff fun h => (by cases h))
  have hrest : ∀ ext, withExt name ext ≠ name →
      Function.update (Function.update d₂ (.load, name) none) (.run, name) (some f)
        (.run, withExt name ext) = d₂ (.run, withExt name ext) := by
    intro ext hne
    rw [Function.update_of_ne fun h => hne (congrArg Prod.snd h),
      Function.update_of_ne fun h => (by cases h)]
  have hoff' : d₂ (.run, withExt name hsOffExt) = none ↔ Visible d (.run, withExt name hsOffExt) := by
    rw [clear_other herr fun h => off_ne_err (congrArg Prod.snd h)]
    exact clear_self hoff
  have herr' : d₂ (.run, withExt name hsErrExt) = none ↔ Visible d (.run, withExt name hsErrExt) := by
    rw [clear_self herr]
    exact visible_congr (clear_other hoff fun h => off_ne_err (congrArg Prod.snd h).symm)
  rw [← hoff', ← herr']
  constructor
  · intro h
    obtain ⟨-, hnone, hnone', -⟩ := h.loaded rfl
    rw [hrest _ fun h => off_ne_cfg (h.trans hname.symm)] at hnone
    rw [hrest _ fun h => err_ne_cfg (h.trans hname.symm)] at hnone'
    exact ⟨hnone, hnone'⟩
  · rintro ⟨hnone, hnone'⟩
    refine ⟨fun h => (by cases h), fun _ => ⟨⟨f, ?_, ?_⟩, ?_, ?_, ?_⟩, fun h => (by cases h)⟩
    · rw [hname, ← hload, hf]
    · rw [hname, Function.update_self]
    · rw [hrest _ fun h => off_ne_cfg (h.trans hname.symm), hnone]
    · rw [hrest _ fun h => err_ne_cfg (h.trans hname.symm), hnone']
    · rw [hname, Function.update_of_ne fun h => (by cases h), Function.update_self]

variable {lpath rpath : List Char}

theorem load_cfg_iff (hcfg : hsHasExt name hsCfgExt = true)
    (hfits : (fits lpath name && fits rpath name) = true) :
    LoadsAtomically fails lpath rpath name d ↔ KeepsFiles fails name d := by
  have hname := withExt_self rfl hcfg
  cases hoff : clear fails (.run, withExt name hsOffExt) d with
  | none =>
    have hret : hsProcessLoadCfg fails lpath rpath name d = some (-1, d) := by
      simp only [hsProcessLoadCfg, hcfg, hfits, hoff, if_true]
    rw [loads_iff_atomic hret]
    exact iff_of_true atomic_unchanged (keepsFiles_of_blocked (clear_eq_none.mp hoff))
  | some d₁ =>
    have herr₁ : d₁ (.run, withExt name hsErrExt) = d (.run, withExt name hsErrExt) :=
      clear_other hoff fun h => off_ne_err (congrArg Prod.snd h).symm
    cases herr : clear fails (.run, withExt name hsErrExt) d₁ with
    | none =>
      have hret : hsProcessLoadCfg fails lpath rpath name d = some (-1, d₁) := by
        simp only [hsProcessLoadCfg, hcfg, hfits, hoff, herr, if_true]
      have hblocked := (blocked_congr herr₁).mp (clear_eq_none.mp herr)
      rw [loads_iff_atomic hret, failed_iff hoff rfl rfl,
        keepsFiles_of_failed (not_blocked hoff) (.inl hblocked)]
    | some d₂ =>
      have hload : d₂ (.load, name) = d (.load, name) :=
        (clear_other herr fun h => (by cases h)).trans (clear_other hoff fun h => (by cases h))
      cases hmove : rename fails (.load, name) (.run, name) d₂ with
      | none =>
        have hret : hsProcessLoadCfg fails lpath rpath name d = some (-1, d₂) := by
          simp only [hsProcessLoadCfg, hcfg, hfits, hoff, herr, hmove, if_true]
        have hstays : ¬ Moves fails name d := by
          rintro ⟨hthere, hfails⟩
          rcases rename_eq_none.mp hmove with hmove | hmove
          · exact hthere (hload ▸ hmove)
          · rw [hfails] at hmove
            cases hmove
        rw [loads_iff_atomic hret, failed_iff hoff
            (clear_other herr fun h => err_ne_cfg (congrArg Prod.snd h).symm)
            (clear_other herr fun h => off_ne_err (congrArg Prod.snd h)),
          keepsFiles_of_failed (not_blocked hoff) (.inr hstays)]
      | some d₃ =>
        have hret : hsProcessLoadCfg fails lpath rpath name d = some (1, d₃) := by
          simp only [hsProcessLoadCfg, hcfg, hfits, hoff, herr, hmove, if_true]
        have hmoves : Moves fails name d := by
          obtain ⟨f, hf, hfails, -⟩ := rename_cases (fun h => (by cases h)) hmove
          exact ⟨by rw [← hload, hf]; exact Option.some_ne_none f, hfails⟩
        rw [loads_iff_atomic hret, loaded_iff hname hoff herr hmove,
          keepsFiles_of_loaded (not_blocked hoff)
            (fun h => not_blocked herr ((blocked_congr herr₁).mpr h)) hmoves]

/-- Stopping a plugin is atomic. -/
theorem load_off (hoff : hsHasExt name hsOffExt = true) {ret : Int}
    (hcfg : hsHasExt name hsCfgExt = false)
    (h : hsProcessLoadCfg fails lpath rpath name d = some (ret, d')) : Atomic name d ret d' := by
  have hname := withExt_self rfl hoff
  simp only [hsProcessLoadCfg, hcfg, hoff, Bool.false_eq_true, if_false, if_true] at h
  split at h
  · split at h
    · cases h
      exact atomic_unchanged
    · rename_i d₁ hunlink
      obtain ⟨-, -, rfl⟩ := unlink_cases hunlink
      split at h
      · split at h
        · cases h
          refine atomic_failed.mpr ⟨?_, ?_⟩ <;> exact Function.update_of_ne (fun h => (by cases h)) _ _
        · rename_i hmove
          cases h
          have hne : (Place.run, withExt name hsCfgExt) ≠ (Place.run, name) := fun h =>
            off_ne_cfg (hname.trans (congrArg Prod.snd h).symm)
          obtain ⟨f, hf, -, rfl⟩ := rename_cases hne hmove
          rw [Function.update_of_ne fun h => (by cases h)] at hf
          refine ⟨fun h => (by cases h), fun h => (by cases h), fun _ => ⟨⟨f, hf, ?_⟩, ?_⟩⟩
          · rw [hname, Function.update_self]
          · rw [Function.update_of_ne hne, Function.update_self]
      · cases h
  · cases h

theorem load_iff (fails : Call Path → Bool) (lpath rpath name : List Char) (d : FileSystem) :
    LoadsAtomically fails lpath rpath name d ↔ Keeps fails name d lpath rpath := by
  cases hcfg : hsHasExt name hsCfgExt with
  | true =>
    cases hfits : fits lpath name && fits rpath name with
    | true =>
      rw [load_cfg_iff hcfg hfits]
      have hboth := Bool.and_eq_true_iff.mp hfits
      exact ⟨fun h _ _ _ => h, fun h => h hcfg hboth.1 hboth.2⟩
    | false =>
      refine iff_of_true (fun ret d' h => ?_) fun _ hl hr => ?_
      · simp [hsProcessLoadCfg, hcfg, hfits] at h
      · rw [hl, hr] at hfits
        cases hfits
  | false =>
    refine iff_of_true (fun ret d' h => ?_) fun htrue => ?_
    · cases hoff : hsHasExt name hsOffExt with
      | true => exact load_off hoff hcfg h
      | false =>
        simp only [hsProcessLoadCfg, hcfg, hoff, Bool.false_eq_true, if_false] at h
        cases h
        exact atomic_unchanged
    · rw [hcfg] at htrue
      cases htrue

end

/-- A stopped plugin, and a `.cfg` file that is announced a second time. -/
def stopped : FileSystem := fun p =>
  if p = (.run, withExt ['a', '.', 'c', 'f', 'g'] hsOffExt) then some ⟨[], true⟩ else none

/-- The `.off` file, the only copy of the configuration, is deleted before the move fails. -/
theorem load_fails :
    ¬ ∀ (fails : Call Path → Bool) (lpath rpath name : List Char) (d : FileSystem),
      hsHasExt name hsCfgExt = true ∨ hsHasExt name hsOffExt = true →
        LoadsAtomically fails lpath rpath name d := by
  intro h
  have hret : hsProcessLoadCfg (fun _ => false) ['l'] ['r'] ['a', '.', 'c', 'f', 'g'] stopped =
      some (-1, Function.update stopped (.run, withExt ['a', '.', 'c', 'f', 'g'] hsOffExt) none) := rfl
  have hatomic := h (fun _ => false) ['l'] ['r'] ['a', '.', 'c', 'f', 'g'] stopped (.inl (by decide)) _ _
    hret
  have hsame := (hatomic.failed rfl).2
  rw [Function.update_self] at hsame
  cases hsame

end LoadConfig

end Hindsight
