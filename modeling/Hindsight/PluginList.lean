import Hindsight.AnalysisReload

/-!
# Hindsight.PluginList

The removal of a plugin from its list by the name of a configuration file:
`remove_from_input_plugins`, `remove_from_output_plugins` and `remove_from_analysis_plugins`. All three
look for the first plugin whose name occurs in the file name, extension included, and is as long as the
file name without its extension. A character of a name stands for one byte.

* `removeNamed`: the plugin with that name is gone from the list, and nothing else has changed.
* `Clear`: no plugin whose name is read out of the middle of the file name comes before it.
* `removals_iff`: the functions remove the plugin that is named exactly when the list is clear, an input
  plugin if it can be joined.
-/

namespace Hindsight

namespace PluginList

open AnalysisReload (hsExtLen hsCfgExt hsAnalysisDir Instance)

/-! ## The first plugin that passes a test -/

section

variable {α κ : Type}

/-- The loop of the three functions: the first plugin that passes `test` is removed. `remove` is what it
leaves in the slot. -/
def removeFirst (test : α → Bool) (remove : α → Option α) : List (Option α) → List (Option α)
  | [] => []
  | none :: list => none :: removeFirst test remove list
  | some p :: list =>
    if test p then remove p :: list else some p :: removeFirst test remove list

def removeNamed [DecidableEq κ] (name : α → κ) (k : κ) (list : List (Option α)) : List (Option α) :=
  list.map fun slot => slot.filter fun p => name p ≠ k

/-- No two plugins have one name. -/
def Distinct (name : α → κ) (list : List (Option α)) : Prop :=
  ((list.filterMap id).map name).Nodup

/-- A plugin with another name that passes the test comes after the one with the name. -/
def Clear (name : α → κ) (test : α → Bool) (k : κ) (list : List (Option α)) : Prop :=
  ∀ before p after, list = before ++ some p :: after → name p ≠ k → test p = true →
    ∃ q, some q ∈ before ∧ name q = k

variable {name : α → κ} {test : α → Bool} {remove : α → Option α} {k : κ} {p : α}
  {list : List (Option α)}

theorem distinct_tail {slot : Option α} (h : Distinct name (slot :: list)) : Distinct name list := by
  cases slot with
  | none => exact h
  | some p => exact (List.nodup_cons.mp h).2

/-- The other plugins have other names than the first one. -/
theorem name_ne_of_distinct (h : Distinct name (some p :: list)) {q : α} (hq : some q ∈ list) :
    name q ≠ name p := by
  intro heq
  refine (List.nodup_cons.mp h).1 (heq ▸ List.mem_map_of_mem ?_)
  exact List.mem_filterMap.mpr ⟨some q, hq, rfl⟩

theorem removeNamed_of_absent [DecidableEq κ] (h : ∀ q, some q ∈ list → name q ≠ k) :
    removeNamed name k list = list := by
  refine (List.map_congr_left fun slot hslot => ?_).trans (List.map_id list)
  cases slot with
  | none => rfl
  | some q => exact if_pos (decide_eq_true (h q hslot))

theorem clear_none : Clear name test k (none :: list) ↔ Clear name test k list := by
  constructor
  · intro h before p after hlist hne htest
    obtain ⟨q, hq, hk⟩ := h (none :: before) p after (by rw [hlist]; rfl) hne htest
    rcases List.mem_cons.mp hq with hq | hq
    · cases hq
    · exact ⟨q, hq, hk⟩
  · intro h before p after hlist hne htest
    cases before with
    | nil => cases hlist
    | cons slot before =>
      obtain ⟨-, hlist⟩ := List.cons.inj hlist
      obtain ⟨q, hq, hk⟩ := h before p after hlist hne htest
      exact ⟨q, List.mem_cons_of_mem slot hq, hk⟩

/-- The named plugin comes first. -/
theorem clear_named (h : name p = k) : Clear name test k (some p :: list) := by
  intro before q after hlist hne htest
  cases before with
  | nil =>
    obtain ⟨hpq, -⟩ := List.cons.inj hlist
    cases hpq
    exact absurd h hne
  | cons slot before =>
    obtain ⟨rfl, -⟩ := List.cons.inj hlist
    exact ⟨p, List.mem_cons_self, h⟩

theorem not_clear (hne : name p ≠ k) (htest : test p = true) : ¬ Clear name test k (some p :: list) := by
  intro h
  obtain ⟨q, hq, -⟩ := h [] p list rfl hne htest
  cases hq

theorem clear_other (hne : name p ≠ k) (htest : test p = false) :
    Clear name test k (some p :: list) ↔ Clear name test k list := by
  constructor
  · intro h before q after hlist hneq htestq
    obtain ⟨r, hr, hk⟩ := h (some p :: before) q after (by rw [hlist]; rfl) hneq htestq
    rcases List.mem_cons.mp hr with hr | hr
    · cases hr
      exact absurd hk hne
    · exact ⟨r, hr, hk⟩
  · intro h before q after hlist hneq htestq
    cases before with
    | nil =>
      obtain ⟨hpq, -⟩ := List.cons.inj hlist
      cases hpq
      rw [htest] at htestq
      cases htestq
    | cons slot before =>
      obtain ⟨-, hlist⟩ := List.cons.inj hlist
      obtain ⟨r, hr, hk⟩ := h before q after hlist hneq htestq
      exact ⟨r, List.mem_cons_of_mem slot hr, hk⟩

/-- The first plugin that passes is the named one, and its slot is emptied. -/
theorem removeFirst_eq_iff [DecidableEq κ] (hself : ∀ p, name p = k → test p = true)
    (hremove : ∀ p, remove p ≠ some p) (hdistinct : Distinct name list) :
    removeFirst test remove list = removeNamed name k list ↔
      Clear name test k list ∧ ∀ p, some p ∈ list → name p = k → remove p = none := by
  induction list with
  | nil =>
    refine iff_of_true rfl ⟨fun before p after h => ?_, fun p hp => by cases hp⟩
    cases before <;> cases h
  | cons slot list ih =>
    have ih := ih (distinct_tail hdistinct)
    cases slot with
    | none =>
      have hmem : ∀ p, some p ∈ none :: list ↔ some p ∈ list := fun p => by simp
      simp only [removeFirst, removeNamed, List.map_cons, Option.filter_none, List.cons.injEq,
        true_and, clear_none, hmem]
      exact ih
    | some p =>
      by_cases hk : name p = k
      · -- the named plugin comes first, and there is no other one of its name
        have habsent : removeNamed name k list = list :=
          removeNamed_of_absent fun q hq => hk ▸ name_ne_of_distinct hdistinct hq
        have hleft : removeNamed name k (some p :: list) = none :: list := by
          conv_rhs => rw [← habsent]
          exact congrArg (· :: _) (if_neg (by simp [hk]))
        rw [removeFirst, if_pos (hself p hk), hleft, List.cons.injEq]
        constructor
        · rintro ⟨hnone, -⟩
          refine ⟨clear_named hk, fun q hq hqk => ?_⟩
          rcases List.mem_cons.mp hq with hq | hq
          · cases hq
            exact hnone
          · exact absurd (hqk.trans hk.symm) (name_ne_of_distinct hdistinct hq)
        · rintro ⟨-, hnone⟩
          exact ⟨hnone p List.mem_cons_self hk, rfl⟩
      · have hright : removeNamed name k (some p :: list) = some p :: removeNamed name k list :=
          congrArg (· :: _) (if_pos (decide_eq_true hk))
        cases htest : test p with
        | true =>
          rw [removeFirst, if_pos htest, hright, List.cons.injEq]
          exact iff_of_false (fun h => hremove p h.1) fun h => not_clear hk htest h.1
        | false =>
          rw [removeFirst, htest, if_neg Bool.false_ne_true, hright, List.cons.injEq,
            clear_other hk htest]
          have hmem : (∀ q, some q ∈ some p :: list → name q = k → remove q = none) ↔
              ∀ q, some q ∈ list → name q = k → remove q = none := by
            refine forall_congr' fun q => ⟨fun h hq => h (List.mem_cons_of_mem _ hq), fun h hq hqk => ?_⟩
            rcases List.mem_cons.mp hq with hq | hq
            · cases hq
              exact absurd hqk hk
            · exact h hq hqk
          rw [hmem]
          exact (and_iff_right rfl).trans ih

end

/-! ## The three lists -/

def hsInputDir : List Char := "input".toList

def hsOutputDir : List Char := "output".toList

def hsOffExt : List Char := ".off".toList

/-- `p->name + tlen`. -/
def baseName (dir name : List Char) : List Char := name.drop (dir.length + 1)

/-- The test of the three functions. -/
def nameMatches (dir fn name : List Char) : Bool :=
  decide (baseName dir name <:+: fn) && (baseName dir name).length == fn.length - hsExtLen

/-- `hs_input_plugin` with the value of its `shutdown` semaphore. -/
structure InputPlugin where
  name : List Char
  shutdown : Nat
  deriving DecidableEq, Repr

/-- `hs_output_plugin`. -/
structure OutputPlugin where
  name : List Char
  deriving DecidableEq, Repr

/-- `remove_plugin` of the input plugins: a plugin whose thread cannot be joined, not even after it was
cancelled, stays in the list. -/
def removeInputPlugin (joins : InputPlugin → Bool) (p : InputPlugin) : Option InputPlugin :=
  if joins p then none else some { p with shutdown := p.shutdown + 1 }

def removeFromInputPlugins (joins : InputPlugin → Bool) (fn : List Char) :
    List (Option InputPlugin) → List (Option InputPlugin) :=
  removeFirst (fun p => nameMatches hsInputDir fn p.name) (removeInputPlugin joins)

/-- `remove_plugin` of the output plugins waits for the thread. -/
def removeFromOutputPlugins (fn : List Char) : List (Option OutputPlugin) → List (Option OutputPlugin) :=
  removeFirst (fun p => nameMatches hsOutputDir fn p.name) fun _ => none

theorem removeFromAnalysisPlugins_eq (fn : List Char) (list : List (Option Instance)) :
    AnalysisReload.removeFromAnalysisPlugins fn list =
      removeFirst (fun p => nameMatches hsAnalysisDir fn p.name) (fun _ => none) list := by
  induction list with
  | nil => rfl
  | cons slot list ih =>
    cases slot with
    | none => rw [AnalysisReload.removeFromAnalysisPlugins, removeFirst, ih]
    | some p =>
      rw [AnalysisReload.removeFromAnalysisPlugins, removeFirst, ih]
      rfl

/-- What the test takes for the name in `base.cfg` or `base.off`: as many characters as `base` has, from
the second to the fifth one on. -/
def shifts (base ext : List Char) : List (List Char) :=
  [1, 2, 3, 4].map fun i => ((base ++ ext).drop i).take base.length

variable {base ext dir : List Char}

theorem length_ext (h : ext = hsCfgExt ∨ ext = hsOffExt) : ext.length = hsExtLen := by
  rcases h with rfl | rfl <;> rfl

theorem mem_shifts {pos : List Char} :
    pos ∈ shifts base ext ↔ ∃ i, 1 ≤ i ∧ i ≤ 4 ∧ pos = ((base ++ ext).drop i).take base.length := by
  constructor
  · intro h
    obtain ⟨i, hi, rfl⟩ := List.mem_map.mp h
    refine ⟨i, ?_, ?_, rfl⟩ <;> fin_cases hi <;> decide
  · rintro ⟨i, hlo, hhi, rfl⟩
    refine List.mem_map.mpr ⟨i, ?_, rfl⟩
    simp only [List.mem_cons, List.not_mem_nil, or_false]
    omega

/-- A text as long as `base` occurs in the file name where four characters or fewer come before it. -/
theorem infix_iff {pos : List Char} (hext : ext.length = hsExtLen) :
    (pos <:+: base ++ ext ∧ pos.length = base.length) ↔
      ∃ i, i ≤ 4 ∧ pos = ((base ++ ext).drop i).take base.length := by
  constructor
  · rintro ⟨⟨before, after, heq⟩, hlen⟩
    have hsum := congrArg List.length heq
    simp only [List.length_append, hext, hsExtLen] at hsum
    refine ⟨before.length, by omega, ?_⟩
    rw [← heq, List.append_assoc, List.drop_left, ← hlen, List.take_left]
  · rintro ⟨i, hi, rfl⟩
    refine ⟨(List.take_prefix _ _).isInfix.trans (List.drop_suffix _ _).isInfix, ?_⟩
    rw [List.length_take, List.length_drop, List.length_append, hext, hsExtLen]
    omega

/-- A plugin passes the test if it has the name, or what the test takes for it. -/
theorem nameMatches_iff (hext : ext.length = hsExtLen) (name : List Char) :
    nameMatches dir (base ++ ext) name = true ↔
      baseName dir name = base ∨ baseName dir name ∈ shifts base ext := by
  have hlen : (base ++ ext).length - hsExtLen = base.length := by
    rw [List.length_append, hext]
    exact Nat.add_sub_cancel _ _
  simp only [nameMatches, hlen, Bool.and_eq_true, decide_eq_true_eq, beq_iff_eq, infix_iff hext,
    mem_shifts]
  constructor
  · rintro ⟨i, hi, heq⟩
    rcases Nat.eq_zero_or_pos i with rfl | hpos
    · exact .inl (by rw [heq, List.drop_zero, List.take_left])
    · exact .inr ⟨i, hpos, hi, heq⟩
  · rintro (heq | ⟨i, -, hi, heq⟩)
    · exact ⟨0, by omega, by rw [heq, List.drop_zero, List.take_left]⟩
    · exact ⟨i, hi, heq⟩

/-! ## The configuration base name of a running plugin -/

def inputBase (p : InputPlugin) : List Char := baseName hsInputDir p.name

def outputBase (p : OutputPlugin) : List Char := baseName hsOutputDir p.name

def analysisBase (p : Instance) : List Char := baseName hsAnalysisDir p.name

/-- `create_name` puts the base name behind the type. -/
theorem analysisBase_createName (id : Nat) (b : List Char) :
    analysisBase ⟨id, AnalysisReload.createName (b ++ hsCfgExt)⟩ = b := by
  rw [analysisBase, AnalysisReload.createName_base, baseName, List.drop_append]
  simp

/-- No plugin that the test takes for the named one comes before it, and there is none if the named one is
not in the list. -/
def ClearFor {α : Type} (name : α → List Char) (base ext : List Char) : List (Option α) → Prop :=
  Clear name (fun p => decide (name p ∈ shifts base ext)) base

theorem clear_iff_clearFor {α : Type} (name : α → List Char) {test : α → Bool} {list : List (Option α)}
    (htest : ∀ p, test p = true ↔ name p = base ∨ name p ∈ shifts base ext) :
    Clear name test base list ↔ ClearFor name base ext list := by
  have hiff : ∀ p, name p ≠ base → (test p = true ↔ decide (name p ∈ shifts base ext) = true) :=
    fun p hne => by rw [htest, or_iff_right hne, decide_eq_true_eq]
  constructor
  · intro h before p after hlist hne hp
    exact h before p after hlist hne ((hiff p hne).mpr hp)
  · intro h before p after hlist hne hp
    exact h before p after hlist hne ((hiff p hne).mp hp)

theorem input_iff (joins : InputPlugin → Bool) (hext : ext.length = hsExtLen)
    {list : List (Option InputPlugin)} (hdistinct : Distinct inputBase list) :
    removeFromInputPlugins joins (base ++ ext) list = removeNamed inputBase base list ↔
      ClearFor inputBase base ext list ∧
        ∀ p, some p ∈ list → inputBase p = base → joins p = true := by
  have htest : ∀ p, nameMatches hsInputDir (base ++ ext) (InputPlugin.name p) = true ↔
      inputBase p = base ∨ inputBase p ∈ shifts base ext := fun p => nameMatches_iff hext p.name
  have hremove : ∀ p, removeInputPlugin joins p ≠ some p := by
    intro p h
    unfold removeInputPlugin at h
    split at h
    · cases h
    · have hshutdown : p.shutdown + 1 = p.shutdown :=
        congrArg InputPlugin.shutdown (Option.some.inj h)
      omega
  have hjoins : ∀ p, removeInputPlugin joins p = none ↔ joins p = true := by
    intro p
    unfold removeInputPlugin
    split
    · exact iff_of_true rfl ‹_›
    · exact iff_of_false (by simp) ‹_›
  rw [removeFromInputPlugins,
    removeFirst_eq_iff (fun p hp => (htest p).mpr (.inl hp)) hremove hdistinct,
    clear_iff_clearFor inputBase htest]
  simp only [hjoins]

/-- A removal that always empties the slot. -/
theorem removal_iff {α : Type} {name : α → List Char} {test : α → Bool}
    (htest : ∀ p, test p = true ↔ name p = base ∨ name p ∈ shifts base ext)
    {list : List (Option α)} (hdistinct : Distinct name list) :
    removeFirst test (fun _ => none) list = removeNamed name base list ↔ ClearFor name base ext list := by
  rw [removeFirst_eq_iff (fun p hp => (htest p).mpr (.inl hp)) (fun p h => by cases h) hdistinct,
    clear_iff_clearFor name htest]
  exact and_iff_left fun p _ _ => rfl

/-- For the file `base.cfg` or `base.off`, and running plugins with different base names. -/
theorem removals_iff (hext : ext = hsCfgExt ∨ ext = hsOffExt) (base : List Char) :
    (∀ joins list, Distinct inputBase list →
      (removeFromInputPlugins joins (base ++ ext) list = removeNamed inputBase base list ↔
        ClearFor inputBase base ext list ∧
          ∀ p, some p ∈ list → inputBase p = base → joins p = true)) ∧
    (∀ list, Distinct outputBase list →
      (removeFromOutputPlugins (base ++ ext) list = removeNamed outputBase base list ↔
        ClearFor outputBase base ext list)) ∧
    ∀ list, Distinct analysisBase list →
      (AnalysisReload.removeFromAnalysisPlugins (base ++ ext) list =
          removeNamed analysisBase base list ↔
        ClearFor analysisBase base ext list) := by
  have hlen := length_ext hext
  refine ⟨fun joins list h => input_iff joins hlen h,
    fun list h => removal_iff (fun p => nameMatches_iff hlen p.name) h, fun list h => ?_⟩
  rw [removeFromAnalysisPlugins_eq]
  exact removal_iff (fun p => nameMatches_iff hlen p.name) h

/-- The plugin of the configuration base `c`. -/
def named (c : Char) : OutputPlugin := ⟨hsOutputDir ++ ['.', c]⟩

/-- The name `c` occurs in `f.cfg`, but that plugin comes after the one of `f.cfg`. -/
theorem removals_clear :
    removeFromOutputPlugins (['f'] ++ hsCfgExt) [some (named 'b'), none, some (named 'f'), some (named 'c')] =
      removeNamed outputBase ['f'] [some (named 'b'), none, some (named 'f'), some (named 'c')] := by
  refine ((removals_iff (.inl rfl) ['f']).2.1 _ (by unfold Distinct; decide)).mpr ?_
  exact (clear_other (by decide) (by decide)).mpr (clear_none.mpr (clear_named rfl))

/-- The list has the plugin of `f.cfg`. -/
def listed : List (Option OutputPlugin) := [some (named 'f')]

/-- The name `f` occurs in `a.cfg` and is as long as `a`. -/
theorem removals_fail :
    ¬ ∀ (base ext : List Char) (list : List (Option OutputPlugin)),
      ext = hsCfgExt ∨ ext = hsOffExt → Distinct outputBase list →
        removeFromOutputPlugins (base ++ ext) list = removeNamed outputBase base list := by
  intro h
  have h := h ['a'] hsCfgExt listed (.inl rfl) (List.nodup_singleton _)
  exact absurd h (by decide)

end PluginList

end Hindsight
