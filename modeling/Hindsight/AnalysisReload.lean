import Hindsight.Lib.Run
import Mathlib

/-!
# Hindsight.AnalysisReload

The plugin list of one analysis thread under dynamic loading. The thread analyzes messages under
`list_lock`; the main thread reloads a plugin in two critical sections, removing the old instance
and adding the new one, with the configuration loaded and the sandbox created in between. An
observer counts, for every message analyzed after a given plugin was first added, the instances of
that plugin whose matcher saw the message. A character of a name stands for one byte.

* `Safe`: each message was offered to exactly one instance.
* `Admits`: no message is analyzed between the two critical sections of the plugin's reload, no
  instance of it terminates, its reload does not fail, and the name test of the removal finds the
  plugin that is meant.
* `reload_safe`: a run keeps `Safe` if all its steps are admitted.
-/

namespace Hindsight

namespace AnalysisReload

/-- `HS_EXT_LEN`. -/
def hsExtLen : Nat := 4

def hsCfgExt : List Char := ".cfg".toList

def hsAnalysisDir : List Char := "analysis".toList

/-- `create_name` for the configuration file `fn`. -/
def createName (fn : List Char) : List Char :=
  hsAnalysisDir ++ '.' :: fn.take (fn.length - hsExtLen)

/-- `hs_analysis_plugin`; `id` numbers the instances. -/
structure Instance where
  id : Nat
  name : List Char
  deriving DecidableEq, Repr

/-- The test of `remove_from_analysis_plugins`: the plugin's name without its type occurs in the
file name and is as long as the file name without its extension. -/
def nameMatches (fn : List Char) (p : Instance) : Bool :=
  let pos := p.name.drop (hsAnalysisDir.length + 1)
  decide (pos <:+: fn) && pos.length == fn.length - hsExtLen

/-- `remove_from_analysis_plugins`. -/
def removeFromAnalysisPlugins (fn : List Char) : List (Option Instance) → List (Option Instance)
  | [] => []
  | none :: list => none :: removeFromAnalysisPlugins fn list
  | some p :: list =>
    if nameMatches fn p then none :: list
    else some p :: removeFromAnalysisPlugins fn list

/-- `add_to_analysis_plugins`: the first empty slot, or a new one. -/
def addToAnalysisPlugins (p : Instance) : List (Option Instance) → List (Option Instance)
  | [] => [some p]
  | none :: list => some p :: list
  | some q :: list => some q :: addToAnalysisPlugins p list

/-- `analyze_message` on the list: the instances in `fatal` return a fatal error and are
removed. -/
def analyzeMessage (fatal : List Nat) (list : List (Option Instance)) : List (Option Instance) :=
  list.map fun slot => slot.filter fun p => p.id ∉ fatal

/-- `loading` is the file the main thread is loading, after the removal of the old instance. -/
structure Thread where
  list : List (Option Instance)
  nextId : Nat
  loading : Option (List Char)
  deriving DecidableEq, Repr

/-- `base` is a configuration file name without its extension. -/
inductive Event where
  | analyze (fatal : List Nat)
  | timer (fatal : List Nat)
  | load (base : List Char)
  | reload (base : List Char)
  | create (ok : Bool)
  deriving DecidableEq, Repr

def Thread.step (t : Thread) : Event → Option Thread
  | .analyze fatal | .timer fatal => some { t with list := analyzeMessage fatal t.list }
  | .load base =>
    if t.loading = none then some { t with loading := some (base ++ hsCfgExt) } else none
  | .reload base =>
    if t.loading = none then
      some { t with
        list := removeFromAnalysisPlugins (base ++ hsCfgExt) t.list
        loading := some (base ++ hsCfgExt) }
    else none
  | .create ok =>
    match t.loading with
    | some fn =>
      if ok then
        some { list := addToAnalysisPlugins ⟨t.nextId, createName fn⟩ t.list
               nextId := t.nextId + 1
               loading := none }
      else some { t with loading := none }
    | none => none

/-- The thread before any plugin is loaded. -/
def Thread.start : Thread := ⟨[], 0, none⟩

variable (base : List Char)

/-- The slot holds an instance of the plugin. -/
def isInstance (slot : Option Instance) : Bool :=
  match slot with
  | some p => p.name == createName (base ++ hsCfgExt)
  | none => false

def instances (list : List (Option Instance)) : Nat := list.countP (isInstance base)

/-- The observer: for each message since the plugin was first added, newest first, the number of
instances it was offered to. -/
def see (t : Thread) (l : Option (List Nat)) : Event → Option (List Nat)
  | .analyze _ => l.map (instances base t.list :: ·)
  | .create true => if t.loading = some (base ++ hsCfgExt) then some (l.getD []) else l
  | _ => l

abbrev State := Thread × Option (List Nat)

def step : State → Event → Option State := Runs.observe Thread.step (see base)

/-- Every message since the plugin was first added was offered to exactly one instance. -/
def Safe (s : State) : Prop := ∀ l ∈ s.2, ∀ n ∈ l, n = 1

/-- No instance of the plugin is in `fatal`. -/
def Survives (fatal : List Nat) (list : List (Option Instance)) : Prop :=
  ∀ p, some p ∈ list → isInstance base (some p) = true → p.id ∉ fatal

/-- The plugin the removal finds for a file name. -/
def firstMatch (fn : List Char) : List (Option Instance) → Option Instance
  | [] => none
  | none :: list => firstMatch fn list
  | some p :: list => if nameMatches fn p then some p else firstMatch fn list

def Admits (s : State) : Event → Prop
  | .analyze fatal =>
    s.1.loading ≠ some (base ++ hsCfgExt) ∧ Survives base fatal s.1.list
  | .timer fatal => Survives base fatal s.1.list
  | .load b => b = base → s.2 = none
  | .reload b =>
    s.2 ≠ none → ∀ p ∈ firstMatch (b ++ hsCfgExt) s.1.list, isInstance base (some p) = true ↔ b = base
  | .create ok => s.1.loading = some (base ++ hsCfgExt) → ok = true

/-- Once added, the plugin has one instance, except between the two critical sections of its
reload. -/
structure Inv (t : Thread) (l : Option (List Nat)) : Prop where
  named : ∀ fn, t.loading = some fn → ∃ b, fn = b ++ hsCfgExt
  absent : l = none → instances base t.list = 0
  running : l ≠ none → instances base t.list = if t.loading = some (base ++ hsCfgExt) then 0 else 1
  safe : Safe (t, l)

section

variable {base : List Char}

/-! ## Names -/

theorem createName_base (b : List Char) : createName (b ++ hsCfgExt) = hsAnalysisDir ++ '.' :: b := by
  have hlen : (b ++ hsCfgExt).length - hsExtLen = b.length := by
    rw [List.length_append]
    exact Nat.add_sub_cancel _ _
  rw [createName, hlen, List.take_left]

theorem isInstance_created (b : List Char) (id : Nat) :
    isInstance base (some ⟨id, createName (b ++ hsCfgExt)⟩) = true ↔ b = base := by
  simp [isInstance, createName_base]

/-- The removal finds an instance of the plugin under the plugin's own file name. -/
theorem nameMatches_self {p : Instance} (h : isInstance base (some p) = true) :
    nameMatches (base ++ hsCfgExt) p = true := by
  have hname : p.name = hsAnalysisDir ++ '.' :: base := by
    simpa [isInstance, createName_base] using h
  have hdrop : p.name.drop (hsAnalysisDir.length + 1) = base := by
    rw [hname, List.drop_append]
    simp
  simp only [nameMatches, hdrop, Bool.and_eq_true, decide_eq_true_eq, beq_iff_eq,
    List.length_append]
  exact ⟨(List.prefix_append _ _).isInfix, (Nat.add_sub_cancel _ _).symm⟩

/-! ## Counting instances -/

theorem instances_analyze {fatal : List Nat} {list : List (Option Instance)}
    (h : Survives base fatal list) :
    instances base (analyzeMessage fatal list) = instances base list := by
  unfold instances analyzeMessage
  rw [List.countP_map]
  refine List.countP_congr fun slot hslot => ?_
  cases slot with
  | none => rfl
  | some p =>
    by_cases hp : isInstance base (some p) = true
    · have := h p hslot hp
      simp [Option.filter, this]
    · simp only [Function.comp_apply, Option.filter]
      split
      · rfl
      · simpa [isInstance] using hp

variable (base) in
theorem instances_add (p : Instance) (list : List (Option Instance)) :
    instances base (addToAnalysisPlugins p list) =
      instances base list + if isInstance base (some p) then 1 else 0 := by
  unfold instances
  induction list with
  | nil => simp [addToAnalysisPlugins, List.countP_cons]
  | cons slot list ih =>
    cases slot with
    | none => simp [addToAnalysisPlugins, List.countP_cons, isInstance]
    | some q =>
      simp only [addToAnalysisPlugins, List.countP_cons, ih]
      omega

variable (base) in
/-- The removal takes out the plugin it finds first. -/
theorem instances_remove (fn : List Char) (list : List (Option Instance)) :
    instances base (removeFromAnalysisPlugins fn list) +
      (match firstMatch fn list with
        | some p => if isInstance base (some p) then 1 else 0
        | none => 0) = instances base list := by
  unfold instances
  induction list with
  | nil => rfl
  | cons slot list ih =>
    cases slot with
    | none => simpa [removeFromAnalysisPlugins, firstMatch, List.countP_cons, isInstance] using ih
    | some p =>
      simp only [removeFromAnalysisPlugins, firstMatch]
      split
      · simp [List.countP_cons, isInstance]
      · simp only [List.countP_cons]
        omega

theorem firstMatch_own {list : List (Option Instance)} (h : instances base list ≠ 0) :
    firstMatch (base ++ hsCfgExt) list ≠ none := by
  unfold instances at h
  induction list with
  | nil => simp at h
  | cons slot list ih =>
    cases slot with
    | none =>
      rw [List.countP_cons_of_neg (by simp [isInstance])] at h
      exact ih h
    | some p =>
      simp only [firstMatch]
      split
      · simp
      · rename_i hmatch
        refine ih fun h0 => h ?_
        rw [List.countP_cons_of_neg fun hp => hmatch (nameMatches_self hp), h0]

/-! ## Steps and runs -/

variable {t t' : Thread} {l : Option (List Nat)}

theorem loading_base {b : List Char} :
    (some (b ++ hsCfgExt) = some (base ++ hsCfgExt)) ↔ b = base := by
  rw [Option.some.injEq, List.append_left_inj]

theorem analyze_inv {fatal : List Nat} (hI : Inv base t l)
    (hload : t.loading ≠ some (base ++ hsCfgExt)) (hs : Survives base fatal t.list) :
    Inv base { t with list := analyzeMessage fatal t.list }
      (l.map (instances base t.list :: ·)) := by
  have hcount := instances_analyze hs
  refine ⟨hI.named, fun h => ?_, fun h => ?_, fun offers ho n hn => ?_⟩
  · simp only [hcount]
    exact hI.absent (by simpa using h)
  · simp only [hcount]
    exact hI.running (by simpa using h)
  · simp only [Option.mem_def, Option.map_eq_some_iff] at ho
    obtain ⟨offers', hl, rfl⟩ := ho
    rcases List.mem_cons.mp hn with rfl | hn
    · have := hI.running (by simp [hl])
      rwa [if_neg hload] at this
    · exact hI.safe offers' hl n hn

theorem reload_inv {b : List Char} (hI : Inv base t l) (hidle : t.loading = none)
    (hadm : Admits base (t, l) (.reload b)) :
    Inv base { t with
      list := removeFromAnalysisPlugins (b ++ hsCfgExt) t.list
      loading := some (b ++ hsCfgExt) } l := by
  have hremove := instances_remove base (b ++ hsCfgExt) t.list
  refine ⟨fun fn h => ⟨b, (by cases h; rfl)⟩, fun h => ?_, fun h => ?_, hI.safe⟩
  · exact Nat.eq_zero_of_le_zero ((Nat.le.intro hremove).trans (hI.absent h).le)
  · have hrun := hI.running h
    rw [if_neg (by simp [hidle])] at hrun
    simp only [loading_base]
    cases hfirst : firstMatch (b ++ hsCfgExt) t.list with
    | none =>
      have hb : b ≠ base := by
        rintro rfl
        exact firstMatch_own (by omega) hfirst
      simp only [hfirst, Nat.add_zero] at hremove
      rw [if_neg hb, hremove, hrun]
    | some p =>
      have hp := hadm h p hfirst
      rw [hfirst] at hremove
      simp only [hp] at hremove
      split at hremove <;> simp_all

theorem create_inv {fn : List Char} (hI : Inv base t l) (hload : t.loading = some fn) :
    Inv base
      { list := addToAnalysisPlugins ⟨t.nextId, createName fn⟩ t.list
        nextId := t.nextId + 1
        loading := none }
      (if t.loading = some (base ++ hsCfgExt) then some (l.getD []) else l) := by
  obtain ⟨b, rfl⟩ := hI.named fn hload
  have hadd := instances_add base ⟨t.nextId, createName (b ++ hsCfgExt)⟩ t.list
  simp only [isInstance_created] at hadd
  by_cases hb : b = base
  · subst hb
    have hzero : instances b t.list = 0 := by
      cases l with
      | none => exact hI.absent rfl
      | some offers => simpa [hload] using hI.running (by simp)
    rw [if_pos hload]
    refine ⟨fun _ h => (by cases h), fun h => by simp at h, fun _ => by simpa [hzero] using hadd, ?_⟩
    cases l with
    | none =>
      rintro offers ⟨⟩ n hn
      simp at hn
    | some offers => exact hI.safe
  · have hne : t.loading ≠ some (base ++ hsCfgExt) := by
      rw [hload]
      exact fun h => hb (loading_base.mp h)
    rw [if_neg hne]
    refine ⟨fun _ h => (by cases h), fun h => ?_, fun h => ?_, hI.safe⟩
    · have := hI.absent h
      simp only [hadd, if_neg hb]
      omega
    · have := hI.running h
      rw [if_neg hne] at this
      simp only [hadd, if_neg hb, reduceCtorEq, if_false]
      omega

theorem step_inv {e : Event} (hI : Inv base t l) (hadm : Admits base (t, l) e)
    (h : t.step e = some t') : Inv base t' (see base t l e) := by
  cases e with
  | analyze fatal => cases h; exact analyze_inv hI hadm.1 hadm.2
  | timer fatal =>
    cases h
    have hcount := instances_analyze hadm
    refine ⟨hI.named, fun h => ?_, fun h => ?_, hI.safe⟩
    · simp only [hcount]
      exact hI.absent h
    · simp only [hcount]
      exact hI.running h
  | load b =>
    simp only [Thread.step, Option.ite_none_right_eq_some, Option.some.injEq] at h
    obtain ⟨hidle, rfl⟩ := h
    refine ⟨fun fn hfn => ⟨b, by cases hfn; rfl⟩, hI.absent, fun h => ?_, hI.safe⟩
    have hrun := hI.running h
    rw [if_neg (by simp [hidle])] at hrun
    simp only [loading_base]
    rw [if_neg fun hb => h (hadm hb)]
    exact hrun
  | reload b =>
    simp only [Thread.step, Option.ite_none_right_eq_some, Option.some.injEq] at h
    obtain ⟨hidle, rfl⟩ := h
    exact reload_inv hI hidle hadm
  | create ok =>
    simp only [Thread.step] at h
    split at h
    · rename_i fn hfn
      cases ok with
      | true => cases h; exact create_inv hI hfn
      | false =>
        cases h
        have hne : t.loading ≠ some (base ++ hsCfgExt) := fun hb => by cases hadm hb
        refine ⟨fun _ h => (by cases h), hI.absent, fun h => ?_, hI.safe⟩
        have hrun := hI.running h
        rw [if_neg hne] at hrun
        simpa using hrun
    · cases h

theorem start_inv : Inv base Thread.start none :=
  ⟨fun _ h => (by cases h), fun _ => rfl, fun h => absurd rfl h, fun _ h => by cases h⟩

end

/-- In a run whose steps are admitted every message since the plugin was first added is offered to
exactly one of its instances. -/
theorem reload_safe {es : List Event}
    (hadm : Runs.Meets (step base) (Admits base) (Thread.start, none) es) :
    Runs.Always (step base) Safe (Thread.start, none) es := by
  refine Runs.Always.mono (P := fun s : State => Inv base s.1 s.2) (fun _ hI => hI.safe) ?_
  refine Runs.always_of_meets (I := fun s : State => Inv base s.1 s.2) (fun s e s' hI hc h => ?_)
    start_inv hadm
  obtain ⟨hs, hl⟩ := Runs.observe_some.mp h
  rw [hl]
  exact step_inv hI hc hs

instance (list : List (Option Instance)) (fatal : List Nat) :
    Decidable (Survives base fatal list) :=
  decidable_of_iff (∀ slot ∈ list, ∀ p ∈ slot, isInstance base (some p) = true → p.id ∉ fatal)
    ⟨fun h p hp => h _ hp p rfl, fun h slot hs p hp => h p (by rw [← hp]; exact hs)⟩

instance (s : State) (e : Event) : Decidable (Admits base s e) := by
  cases e <;> simp only [Admits] <;> infer_instance

instance : DecidablePred Safe := fun s =>
  inferInstanceAs (Decidable (∀ l ∈ s.2, ∀ n ∈ l, n = 1))

/-- Nothing terminates, and every plugin that is loaded can be created. -/
def healthy : Event → Bool
  | .analyze fatal | .timer fatal => fatal.isEmpty
  | .create ok => ok
  | _ => true

/-- A message is analyzed while the plugin is being reloaded. -/
def gapRun : List Event :=
  [.load "foo".toList, .create true, .reload "foo".toList, .analyze [], .create true]

theorem reload_unsafe : ¬∀ base es, (∀ e ∈ es, healthy e = true) →
    Runs.Always (step base) Safe (Thread.start, none) es := by
  intro h
  have hrun := h "foo".toList gapRun (by decide)
  revert hrun
  decide

/-- A reload between two messages. -/
def quietRun : List Event :=
  [.load "foo".toList, .create true, .analyze [], .reload "foo".toList, .create true, .analyze []]

theorem reload_safe_quiet : Runs.Always (step "foo".toList) Safe (Thread.start, none) quietRun :=
  reload_safe _ (by decide)

end AnalysisReload

end Hindsight
