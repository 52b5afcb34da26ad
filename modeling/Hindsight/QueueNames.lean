import Hindsight.Lib.NumberFormat
import Hindsight.Lib.Select
import Hindsight.Input
import Hindsight.Pipeline

/-!
# Hindsight.QueueNames

The ids that are found in a queue directory, from the names of its entries. `hs_open_file` and
`hs_open_output_file` print an id as `<id>.log`; the searches take every name of digits with that suffix
and read the digits with `strtoull`.

* `extractId_fileName`: a printed name is taken, and gives its id back.
* `misnamed_iff`: the names that are taken and not printed so have a leading zero, or a number of more
  than 64 bits.
* `findFirstId_eq`, `hsFindNextId_eq`, `findLastId_eq`: the searches are those of the other modules, on
  the ids of all names that are taken.
* `Canonical.right`: in a directory without such names every search is right.
* `accepted_map_fileName`: with printed names only these are the ids of the files.
* `ids_open_iff`: each search returns the id of a file that can be opened, the least or greatest there
  is, exactly when the printed names reach as far as all that are taken.
-/

namespace Hindsight

namespace QueueNames

open Decimal NumberFormat

/-- `.log` -/
def logSuffix : List UInt8 := [46, 108, 111, 103]

/-- `%llu.log` -/
def fileName (id : Nat) : List UInt8 := digits id ++ logSuffix

/-- `extract_id`. -/
def extractId (fn : List UInt8) : Option Nat :=
  let i := (fn.takeWhile isDigit).length
  if i > 0 ∧ i + 4 = fn.length ∧ (fn.drop i).take 4 = logSuffix then some (strtoull fn) else none

/-- `find_first_id`, with the names `readdir` returns. -/
def findFirstId (names : List (List UInt8)) : Nat :=
  let id := names.foldl (fun first fn =>
    match extractId fn with
    | some id => if id < first then id else first
    | none => first) Hindsight.ullongMax
  if id = Hindsight.ullongMax then 0 else id

/-- `hs_find_next_id`. -/
def hsFindNextId (names : List (List UInt8)) (startId : Nat) : Nat :=
  let id := names.foldl (fun next fn =>
    match extractId fn with
    | some id => if id > startId ∧ id < next then id else next
    | none => next) Hindsight.ullongMax
  if id = Hindsight.ullongMax then 0 else id

/-- `find_last_id`. -/
def findLastId (names : List (List UInt8)) : Nat :=
  names.foldl (fun last fn =>
    match extractId fn with
    | some id => if id > last then id else last
    | none => last) 0

/-! ## Names -/

section

variable {fn ds : List UInt8} {id : Nat}

theorem takeWhile_name (hd : ∀ c ∈ ds, isDigit c = true) : (ds ++ logSuffix).takeWhile isDigit = ds := by
  have hsuffix : logSuffix.takeWhile isDigit = [] := rfl
  rw [List.takeWhile_append_of_pos hd, hsuffix, List.append_nil]

theorem strtoull_name (hne : ds ≠ []) (hd : ∀ c ∈ ds, isDigit c = true) :
    strtoull (ds ++ logSuffix) = min (value ds) Hindsight.ullongMax := by
  have htake := takeWhile_name hd
  obtain ⟨d, t, rfl⟩ := List.exists_cons_of_ne_nil hne
  rw [List.cons_append, strtoull_cons (hd d List.mem_cons_self), ← List.cons_append, htake]
  rfl

/-- The names that are taken are digits with the suffix. -/
theorem extractId_eq_some :
    extractId fn = some id ↔ ∃ ds, ds ≠ [] ∧ (∀ c ∈ ds, isDigit c = true) ∧ fn = ds ++ logSuffix ∧
      id = min (value ds) Hindsight.ullongMax := by
  constructor
  · intro h
    obtain ⟨⟨hpos, hlen, hlog⟩, hid⟩ := Option.ite_none_right_eq_some.mp h
    have hne := List.ne_nil_of_length_pos hpos
    have hdigit : ∀ c ∈ fn.takeWhile isDigit, isDigit c = true := fun c hc => List.mem_takeWhile_imp hc
    have hdrop : fn.drop (fn.takeWhile isDigit).length = fn.dropWhile isDigit :=
      (congrArg (List.drop _) List.takeWhile_append_dropWhile.symm).trans List.drop_left
    have hrest : fn.dropWhile isDigit = logSuffix := by
      rw [← hlog, ← hdrop, List.take_of_length_le]
      rw [List.length_drop]
      omega
    have hfn : fn = fn.takeWhile isDigit ++ logSuffix := by
      rw [← hrest, List.takeWhile_append_dropWhile]
    refine ⟨fn.takeWhile isDigit, hne, hdigit, hfn, ?_⟩
    rw [← strtoull_name hne hdigit, ← hfn]
    exact (Option.some.inj hid).symm
  · rintro ⟨ds, hne, hd, rfl, rfl⟩
    have hlog : logSuffix.length = 4 := rfl
    rw [extractId, takeWhile_name hd, List.drop_left, List.length_append, hlog, ← strtoull_name hne hd]
    exact if_pos ⟨List.length_pos_iff.mpr hne, rfl, rfl⟩

/-- The name of a file is taken, and its id is read back. -/
theorem extractId_fileName (h : id ≤ Hindsight.ullongMax) : extractId (fileName id) = some id := by
  refine extractId_eq_some.mpr ⟨digits id, digits_ne_nil id, fun c hc => isDigit_of_mem_digits hc, rfl, ?_⟩
  rw [value_digits, min_eq_left h]

/-- A name that is taken and is not that of its id starts with a zero that is not all of the number, or is
the name of a number of more than 64 bits. -/
theorem misnamed_iff (h : extractId fn = some id) :
    fn ≠ fileName id ↔ ∃ ds, fn = ds ++ logSuffix ∧
      (ds.head? = some 48 ∧ ds ≠ [48] ∨ Hindsight.ullongMax < value ds) := by
  obtain ⟨ds, hne, hd, rfl, rfl⟩ := extractId_eq_some.mp h
  constructor
  · intro hname
    refine ⟨ds, rfl, ?_⟩
    by_contra hcanon
    rw [not_or, not_and_not_right, not_lt] at hcanon
    obtain ⟨hlead, hmax⟩ := hcanon
    rw [min_eq_left hmax, fileName, digits_value hne hd hlead] at hname
    exact hname rfl
  · rintro ⟨ds', hds, hcanon⟩ hname
    obtain rfl := List.append_cancel_right hds
    have hdigits : ds = digits (min (value ds) Hindsight.ullongMax) := List.append_cancel_right hname
    have hvalue : value ds = min (value ds) Hindsight.ullongMax := by
      conv_lhs => rw [hdigits, value_digits]
    rw [← hvalue] at hdigits
    rcases hcanon with ⟨hhead, hlong⟩ | hmax
    · rw [hdigits] at hhead
      exact hlong (hdigits.trans (digits_of_head hhead))
    · omega

end

/-! ## Searches -/

/-- The ids of the names that are taken. -/
def accepted (names : List (List UInt8)) : List Nat := names.filterMap extractId

/-- The ids `hs_open_file` finds a file for. -/
def opens (names : List (List UInt8)) : Set Nat := {id | id ≤ Hindsight.ullongMax ∧ fileName id ∈ names}

/-- The directory of the other modules with the ids that are taken. -/
def listing (names : List (List UInt8)) : Dir := ⟨accepted names, fun _ => []⟩

section

variable (names : List (List UInt8)) (startId : Nat)

theorem foldl_accepted {β : Type*} (f : β → Nat → β) (b : β) :
    names.foldl (fun b fn =>
      match extractId fn with
      | some id => f b id
      | none => b) b = (accepted names).foldl f b := by
  rw [accepted, List.foldl_filterMap]
  congr
  funext b fn
  cases extractId fn <;> rfl

/-- The searches of the other modules, on the ids that are taken. -/
theorem findFirstId_eq : findFirstId names = Service.findFirstId (listing names) := by
  simp only [findFirstId, foldl_accepted names fun first id => if id < first then id else first]
  rfl

theorem hsFindNextId_eq :
    hsFindNextId names startId = Hindsight.hsFindNextId (listing names) startId := by
  simp only [hsFindNextId,
    foldl_accepted names fun next id => if id > startId ∧ id < next then id else next]
  rfl

theorem findLastId_eq : findLastId names = Hindsight.findLastId (listing names) :=
  foldl_accepted names (fun last id => if id > last then id else last) 0

variable {names}

theorem mem_accepted {id : Nat} : id ∈ accepted names ↔ ∃ fn ∈ names, extractId fn = some id :=
  List.mem_filterMap

/-- A directory with printed names only is the one the other modules take it for. -/
theorem accepted_map_fileName {ids : List Nat} (h : ∀ id ∈ ids, id ≤ Hindsight.ullongMax) :
    accepted (ids.map fileName) = ids := by
  induction ids with
  | nil => rfl
  | cons id ids ih =>
    rw [List.forall_mem_cons] at h
    have ih := ih h.2
    rw [accepted] at ih
    rw [accepted, List.map_cons, List.filterMap_cons_some (extractId_fileName h.1), ih]

theorem accepted_of_opens {id : Nat} (h : id ∈ opens names) : id ∈ accepted names :=
  mem_accepted.mpr ⟨fileName id, h.2, extractId_fileName h.1⟩

/-- No number has a leading zero or more than 64 bits. -/
def Canonical (names : List (List UInt8)) : Prop :=
  ∀ ds, (∀ c ∈ ds, isDigit c = true) → ds ++ logSuffix ∈ names →
    (ds.head? = some 48 → ds = [48]) ∧ value ds ≤ Hindsight.ullongMax

/-- All ids that are taken are then ids of files. -/
theorem Canonical.opens (h : Canonical names) {id : Nat} (hid : id ∈ accepted names) :
    id ∈ QueueNames.opens names := by
  obtain ⟨fn, hfn, hx⟩ := mem_accepted.mp hid
  obtain ⟨ds, hne, hd, rfl, hval⟩ := extractId_eq_some.mp hx
  obtain ⟨hlead, hmax⟩ := h ds hd hfn
  have hname : ds ++ logSuffix = fileName id := by
    by_contra hbad
    obtain ⟨ds', hds, hcanon⟩ := (misnamed_iff hx).mp hbad
    obtain rfl := List.append_cancel_right hds
    rcases hcanon with ⟨hhead, hlong⟩ | hbig
    · exact hlong (hlead hhead)
    · exact absurd hmax (not_le.mpr hbig)
  exact ⟨hval ▸ min_le_right _ _, hname ▸ hfn⟩

/-- Both searches for a least id: `ULLONG_MAX` stands for none, and none is returned as zero. -/
def leastId (p : Nat → Prop) [DecidablePred p] (names : List (List UInt8)) : Nat :=
  let id := Select.least p Hindsight.ullongMax (accepted names)
  if id = Hindsight.ullongMax then 0 else id

variable (names) in
theorem findFirstId_least : findFirstId names = leastId (fun _ => True) names := by
  rw [findFirstId_eq, Service.findFirstId, Select.foldl_eq_least]
  rfl

variable (names) in
theorem hsFindNextId_least : hsFindNextId names startId = leastId (startId < ·) names :=
  hsFindNextId_eq names startId

variable (names) in
theorem findLastId_greatest :
    findLastId names = Select.greatest (fun _ => True) 0 (accepted names) := by
  rw [findLastId_eq, Hindsight.findLastId_greatest]
  rfl

section

variable {p : Nat → Prop} [DecidablePred p]

theorem leastId_none (h : ∀ id ∈ accepted names, p id → Hindsight.ullongMax ≤ id) :
    leastId p names = 0 := by
  obtain ⟨hle, hfound, -⟩ : Select.least p Hindsight.ullongMax (accepted names) ≤ Hindsight.ullongMax ∧
      _ ∧ _ := Select.least_spec
  refine if_pos (hfound.elim id fun hmem => ?_)
  exact le_antisymm hle (h _ hmem.1 hmem.2)

/-- Below `ULLONG_MAX` the search finds the least of the ids that are taken. -/
theorem isLeast_leastId {id : Nat} (h : id ∈ accepted names) (hp : p id)
    (hid : id < Hindsight.ullongMax) : IsLeast {id | id ∈ accepted names ∧ p id} (leastId p names) := by
  have hle := (Select.least_spec (p := p) (m := Hindsight.ullongMax)).2.2 id h hp
  have hne : Select.least p Hindsight.ullongMax (accepted names) ≠ Hindsight.ullongMax :=
    (hle.trans_lt hid).ne
  have hfound : leastId p names = Select.least p Hindsight.ullongMax (accepted names) := if_neg hne
  rw [hfound]
  exact Select.isLeast_least hne

/-- It is the least id of a file exactly when the files reach down as far. -/
theorem leastId_iff {id : Nat} (h : id ∈ accepted names) (hp : p id) (hid : id < Hindsight.ullongMax) :
    IsLeast {id | id ∈ opens names ∧ p id} (leastId p names) ↔
      ∀ id ∈ accepted names, p id → id < Hindsight.ullongMax → ∃ c ∈ opens names, p c ∧ c ≤ id := by
  have hleast := isLeast_leastId h hp hid
  rw [Select.isLeast_iff_of_subset hleast fun c hc => ⟨accepted_of_opens hc.1, hc.2⟩]
  constructor
  · intro hall id hmem hpid _
    obtain ⟨c, ⟨hc, hpc⟩, hle⟩ := hall id ⟨hmem, hpid⟩
    exact ⟨c, hc, hpc, hle⟩
  · rintro hall a ha
    have hbelow : leastId p names < Hindsight.ullongMax := (hleast.2 ⟨h, hp⟩).trans_lt hid
    obtain ⟨c, hc, hpc, hle⟩ := hall (leastId p names) hleast.1.1 hleast.1.2 hbelow
    exact ⟨c, ⟨hc, hpc⟩, hle.trans (hleast.2 ha)⟩

end

end

/-! ## What the searches promise -/

section

variable (names : List (List UInt8)) (startId : Nat)

def FirstRight : Prop := IsLeast (opens names) (findFirstId names)

/-- A next id that is not zero, which stands for none. -/
def NextRight : Prop :=
  hsFindNextId names startId ≠ 0 →
    IsLeast {id | id ∈ opens names ∧ startId < id} (hsFindNextId names startId)

/-- A last id, if some name was taken. -/
def LastRight : Prop := (∃ id, id ∈ accepted names) → IsGreatest (opens names) (findLastId names)

variable {names startId}

theorem firstRight_iff :
    FirstRight names ↔ (∃ id ∈ accepted names, id < Hindsight.ullongMax) ∧
      ∀ id ∈ accepted names, id < Hindsight.ullongMax → ∃ c ∈ opens names, c ≤ id := by
  have hset : {id | id ∈ opens names ∧ True} = opens names := Set.ext fun id => and_iff_left trivial
  rw [FirstRight, findFirstId_least]
  by_cases hsome : ∃ id ∈ accepted names, id < Hindsight.ullongMax
  · obtain ⟨id, hid, hlt⟩ := hsome
    have hiff := leastId_iff (p := fun _ => True) hid trivial hlt
    rw [hset] at hiff
    rw [hiff]
    simp only [forall_const, true_and]
    exact ⟨fun h => ⟨⟨id, hid, hlt⟩, h⟩, fun h => h.2⟩
  · refine iff_of_false (fun hright => hsome ?_) fun h => hsome h.1
    -- zero is returned for none, so it is no file's id
    have hzero : leastId (fun _ => True) names = 0 := leastId_none fun id hid _ =>
      not_lt.mp fun hlt => hsome ⟨id, hid, hlt⟩
    rw [hzero] at hright
    exact ⟨0, accepted_of_opens hright.1, by decide⟩

/-- With zero as none as well. -/
theorem firstRight_nonzero_iff :
    (findFirstId names ≠ 0 → FirstRight names) ↔
      (0 ∉ accepted names →
        ∀ id ∈ accepted names, id < Hindsight.ullongMax → ∃ c ∈ opens names, c ≤ id) := by
  rw [firstRight_iff, findFirstId_least]
  by_cases hsome : ∃ id ∈ accepted names, id < Hindsight.ullongMax
  · obtain ⟨id, hid, hlt⟩ := hsome
    have hleast := isLeast_leastId (p := fun _ => True) hid trivial hlt
    have hzero : leastId (fun _ => True) names ≠ 0 ↔ 0 ∉ accepted names := by
      refine not_congr ⟨fun h => h ▸ hleast.1.1, fun h => ?_⟩
      exact Nat.le_zero.mp (hleast.2 ⟨h, trivial⟩)
    rw [hzero]
    exact forall_congr' fun _ => and_iff_right ⟨id, hid, hlt⟩
  · have hnone : ∀ id ∈ accepted names, Hindsight.ullongMax ≤ id := fun id hid =>
      not_lt.mp fun hlt => hsome ⟨id, hid, hlt⟩
    refine iff_of_true (fun hne => ?_) fun _ id hid hlt => absurd ⟨id, hid, hlt⟩ hsome
    exact absurd (leastId_none fun id hid _ => hnone id hid) hne

theorem nextRight_iff :
    NextRight names startId ↔ ∀ id ∈ accepted names, startId < id → id < Hindsight.ullongMax →
      ∃ c ∈ opens names, startId < c ∧ c ≤ id := by
  rw [NextRight, hsFindNextId_least]
  by_cases hsome : ∃ id ∈ accepted names, startId < id ∧ id < Hindsight.ullongMax
  · obtain ⟨id, hid, hs, hlt⟩ := hsome
    have hleast := isLeast_leastId (p := (startId < ·)) hid hs hlt
    have hne : leastId (startId < ·) names ≠ 0 := (Nat.zero_le startId).trans_lt hleast.1.2 |>.ne'
    rw [← leastId_iff (p := (startId < ·)) hid hs hlt]
    exact ⟨fun h => h hne, fun h _ => h⟩
  · refine iff_of_true (fun hne => ?_) fun id hid hs hlt => absurd ⟨id, hid, hs, hlt⟩ hsome
    refine absurd (leastId_none fun id hid hs => ?_) hne
    exact not_lt.mp fun hlt => hsome ⟨id, hid, hs, hlt⟩

theorem lastRight_iff :
    LastRight names ↔ ∀ id ∈ accepted names, ∃ c ∈ opens names, id ≤ c := by
  rw [LastRight, findLastId_greatest]
  by_cases hsome : ∃ id, id ∈ accepted names
  · obtain ⟨id, hid⟩ := hsome
    have hgreatest := Select.isGreatest_greatest_of_le (p := fun _ => True) (m := 0) hid trivial
      fun x _ _ => Nat.zero_le x
    simp only [and_true] at hgreatest
    have hiff := Select.isGreatest_iff_of_subset (C := opens names) hgreatest fun c hc => accepted_of_opens hc
    exact ⟨fun h => hiff.mp (h ⟨id, hid⟩), fun h _ => hiff.mpr h⟩
  · exact iff_of_true (fun h => absurd h hsome) fun id hid => absurd ⟨id, hid⟩ hsome

/-- Without such names every search is right. -/
theorem Canonical.right (h : Canonical names) :
    (findFirstId names ≠ 0 → FirstRight names) ∧ (∀ startId, NextRight names startId) ∧ LastRight names := by
  refine ⟨firstRight_nonzero_iff.mpr fun _ id hid _ => ?_, fun startId => nextRight_iff.mpr fun id hid hs _ => ?_,
    lastRight_iff.mpr fun id hid => ?_⟩
  · exact ⟨id, h.opens hid, le_rfl⟩
  · exact ⟨id, h.opens hid, hs, le_rfl⟩
  · exact ⟨id, h.opens hid, le_rfl⟩

end

/-- For every directory: the first id, every next id and the last id are ids of files, the least or the
greatest, exactly when the printed names reach as far as all that are taken. -/
theorem ids_open_iff (names : List (List UInt8)) :
    (FirstRight names ↔ (∃ id ∈ accepted names, id < Hindsight.ullongMax) ∧
        ∀ id ∈ accepted names, id < Hindsight.ullongMax → ∃ c ∈ opens names, c ≤ id) ∧
      ((findFirstId names ≠ 0 → FirstRight names) ↔
        (0 ∉ accepted names →
          ∀ id ∈ accepted names, id < Hindsight.ullongMax → ∃ c ∈ opens names, c ≤ id)) ∧
      (∀ startId, NextRight names startId ↔
        ∀ id ∈ accepted names, startId < id → id < Hindsight.ullongMax →
          ∃ c ∈ opens names, startId < c ∧ c ≤ id) ∧
      (LastRight names ↔ ∀ id ∈ accepted names, ∃ c ∈ opens names, id ≤ c) :=
  ⟨firstRight_iff, firstRight_nonzero_iff, fun _ => nextRight_iff, lastRight_iff⟩

/-- `007.log` is taken as 7, and there is no `7.log`. -/
theorem ids_not_open :
    let names := [[48, 48, 55] ++ logSuffix]
    findFirstId names = 7 ∧ hsFindNextId names 0 = 7 ∧ findLastId names = 7 ∧ fileName 7 ∉ names ∧
      ¬FirstRight names ∧ ¬NextRight names 0 ∧ ¬LastRight names := by
  have hname : fileName 7 ∉ [[48, 48, 55] ++ logSuffix] := by decide +kernel
  have hfirst : findFirstId [[48, 48, 55] ++ logSuffix] = 7 := by decide +kernel
  have hnext : hsFindNextId [[48, 48, 55] ++ logSuffix] 0 = 7 := by decide +kernel
  have hlast : findLastId [[48, 48, 55] ++ logSuffix] = 7 := by decide +kernel
  refine ⟨hfirst, hnext, hlast, hname, fun h => ?_, fun h => ?_, fun h => ?_⟩
  · rw [FirstRight, hfirst] at h
    exact hname h.1.2
  · rw [NextRight, hnext] at h
    exact hname (h (by decide)).1.1.2
  · rw [LastRight, hlast] at h
    exact hname (h ⟨7, by decide +kernel⟩).1.2

end QueueNames

end Hindsight
