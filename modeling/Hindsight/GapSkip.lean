import Hindsight.Lib.Run
import Hindsight.Input

/-!
# Hindsight.GapSkip

A reader that goes from file to file of a queue while a writer creates files and others are deleted. The
open of the next id, the listing of the directory and the open of what was found are single steps, and any
open may fail. An observer keeps every switch with the ids that were listed before it.

* `openNext`, `findNext`: the steps of `QueueReader` with ids of 64 bits; `openNext_eq`, `findNext_eq`:
  they differ at the last id only.
* `Safe`: every switch went to a higher id, nothing between was listed and nothing between can be created.
* `skips_iff`: a run keeps `Safe` exactly when no reader goes on from the last id to file 0.
-/

namespace Hindsight

namespace GapSkip

/-! ## Ids of 64 bits -/

def openNext (kind : ReaderKind) (outputSize : Nat) (d : Dir) (r : QueueReader) : QueueReader :=
  let opened := hsOpenFile d r.input r.input.nextId
  if opened.2 then
    { r with
      input := opened.1
      pc := .read
      next := true
      iwaitCnt := match kind with
        | .analysis => r.iwaitCnt
        | .output => 0 }
  else if r.iwaitCnt + 1 > 60 ∨ r.input.cp.offset < outputSize then
    { r with pc := .findNext, next := false, iwaitCnt := r.iwaitCnt + 1 }
  else { r with pc := .read, next := false, iwaitCnt := r.iwaitCnt + 1 }

def findNext (d : Dir) (r : QueueReader) : QueueReader :=
  let id := hsFindNextId d r.input.cp.id
  { r with
    pc := if id > r.input.nextId then .openFound id else .read
    iwaitCnt := 0 }

theorem openNext_eq {kind : ReaderKind} {outputSize : Nat} {d : Dir} {r : QueueReader}
    (h : r.input.cp.id < ullongMax) :
    openNext kind outputSize d r = r.openNext kind outputSize d := by
  cases kind <;> simp only [openNext, QueueReader.openNext, HsInput.nextId_eq h]

theorem findNext_eq {d : Dir} {r : QueueReader} (h : r.input.cp.id < ullongMax) :
    findNext d r = r.findNext d := by
  simp only [findNext, QueueReader.findNext, HsInput.nextId_eq h]

/-! ## The directory -/

/-- `unlink`. What an open handle reads is still there. -/
def unlink (d : Dir) (id : Nat) : Dir := { d with ids := d.ids.filter (· ≠ id) }

/-- The directory as an `fopen` sees it that may fail. -/
def visible (d : Dir) (opens : Bool) : Dir := if opens then d else { d with ids := [] }

/-- The files that can be read: those of the directory and the open one. -/
def readable (d : Dir) (r : QueueReader) : Dir := { d with ids := r.input.cp.id :: d.ids }

/-- `last` is the file of the writer. -/
structure System where
  dir : Dir
  last : Nat
  reader : QueueReader

inductive Event where
  | create (id : Nat)
  | append (bs : List UInt8)
  | prune (id : Nat)
  | openFirst (opens : Bool) (lookup : Checkpoint) (now : Nat)
  | read (space now : Nat)
  | openNext (opens : Bool)
  | findNext
  | openFound (opens : Bool)

def CanCreate (s : System) (id : Nat) : Prop := s.last < id ∧ id ≤ ullongMax

instance (s : System) (id : Nat) : Decidable (CanCreate s id) :=
  inferInstanceAs (Decidable (_ ∧ _))

section

variable (kind : ReaderKind) (outputSize : Nat)

def step (s : System) : Event → Option System
  | .create id => if CanCreate s id then some { s with dir := s.dir.create id, last := id } else none
  | .append bs => some { s with dir := s.dir.append s.last bs }
  | .prune id => some { s with dir := unlink s.dir id }
  | .openFirst opens lookup now =>
    if s.reader.input.fh = none then
      some { s with reader := s.reader.openFirst kind (visible s.dir opens) lookup now }
    else none
  | .read space now =>
    if s.reader.pc = .read ∧ s.reader.input.fh ≠ none then
      some { s with
        reader := s.reader.readStep kind outputSize (readable s.dir s.reader) space now }
    else none
  | .openNext opens =>
    if s.reader.pc = .openNext then
      some { s with reader := openNext kind outputSize (visible s.dir opens) s.reader }
    else none
  | .findNext =>
    if s.reader.pc = .findNext then some { s with reader := findNext s.dir s.reader } else none
  | .openFound opens =>
    match s.reader.pc with
    | .openFound id => some { s with reader := s.reader.openFound (visible s.dir opens) id }
    | _ => none

/-- The reader went from a file to a file; `listed` are the ids in the directory when it was looked at. -/
structure Switch where
  source : Nat
  target : Nat
  listed : List Nat
  deriving DecidableEq, Repr

def Switch.Between (w : Switch) (id : Nat) : Prop := w.source < id ∧ id < w.target

/-- The last listing and all switches. -/
structure Ledger where
  listed : List Nat
  switches : List Switch

def Ledger.switch (l : Ledger) (r r' : QueueReader) (listed : List Nat) : Ledger :=
  if r'.input.cp.id = r.input.cp.id then l
  else { l with switches := l.switches ++ [⟨r.input.cp.id, r'.input.cp.id, listed⟩] }

def see (s : System) (l : Ledger) : Event → Ledger
  | .openNext opens =>
    l.switch s.reader (openNext kind outputSize (visible s.dir opens) s.reader) s.dir.ids
  | .findNext => { l with listed := s.dir.ids }
  | .openFound opens =>
    match s.reader.pc with
    | .openFound id => l.switch s.reader (s.reader.openFound (visible s.dir opens) id) l.listed
    | _ => l
  | .create _ | .append _ | .prune _ | .openFirst .. | .read .. => l

abbrev State := System × Ledger

abbrev observed : State → Event → Option State :=
  Runs.observe (step kind outputSize) (see kind outputSize)

/-- A switch that leaves nothing behind. -/
structure Switch.Ok (s : System) (w : Switch) : Prop where
  up : w.source < w.target
  listed : ∀ id ∈ w.listed, ¬w.Between id
  created : ∀ id, CanCreate s id → ¬w.Between id

def Safe (p : State) : Prop := ∀ w ∈ p.2.switches, w.Ok p.1

/-- The reader does not go on from the last id to file 0. -/
def Admits (p : State) : Event → Prop
  | .openNext opens => p.1.reader.input.cp.id = ullongMax → opens = true → 0 ∉ p.1.dir.ids
  | _ => True

def start (d : Dir) (cp : Checkpoint) : State := (⟨d, findLastId d, .init cp⟩, ⟨[], []⟩)

end

/-! ## What holds along a run -/

/-- The reader is in a file. What it is about to open was the next id in the last listing. -/
structure Reading (p : State) (c : Checkpoint) : Prop where
  input : p.1.reader.input = .opened c
  le : c.id ≤ ullongMax
  found : ∀ id, p.1.reader.pc = .openFound id →
    c.id + 1 < id ∧ id ≤ p.1.last ∧ ∀ i ∈ p.2.listed, c.id < i → id ≤ i

structure Inv (p : State) : Prop where
  ids_le : ∀ id ∈ p.1.dir.ids, id ≤ p.1.last
  last_le : p.1.last ≤ ullongMax
  reader : ((∃ c, p.1.reader.input = hsInitInput c) ∧ p.1.reader.pc = .read) ∨ ∃ c, Reading p c

section

variable {s : System} {l : Ledger}

theorem Switch.Ok.mono {s' : System} {w : Switch} (h : w.Ok s) (hlast : s.last ≤ s'.last) : w.Ok s' :=
  ⟨h.up, h.listed, fun id hc => h.created id ⟨lt_of_le_of_lt hlast hc.1, hc.2⟩⟩

/-- A switch to the next of the listed ids, one the writer has reached. -/
theorem Switch.ok_of_least {w : Switch} (hup : w.source < w.target) (hlast : w.target ≤ s.last)
    (hleast : ∀ id ∈ w.listed, w.source < id → w.target ≤ id) : w.Ok s where
  up := hup
  listed := fun id hid hb => absurd (hleast id hid hb.1) (Nat.not_le_of_lt hb.2)
  created := fun _ hc hb => absurd (hb.2.trans_le hlast) (Nat.not_lt_of_le (le_of_lt hc.1))

theorem safe_mono {s' : System} (h : Safe (s, l)) (hlast : s.last ≤ s'.last) : Safe (s', l) :=
  fun w hw => (h w hw).mono hlast

theorem switch_same {r r' : QueueReader} (listed : List Nat)
    (h : r'.input.cp.id = r.input.cp.id) : l.switch r r' listed = l := if_pos h

/-- After a switch the run is safe just if the switch is. -/
theorem safe_switch {r : QueueReader} {listed : List Nat} (hS : Safe (s, l))
    (h : r.input.cp.id ≠ s.reader.input.cp.id) :
    Safe ({ s with reader := r }, l.switch s.reader r listed) ↔
      (⟨s.reader.input.cp.id, r.input.cp.id, listed⟩ : Switch).Ok s := by
  have hold : ∀ w ∈ l.switches, w.Ok { s with reader := r } := safe_mono hS le_rfl
  rw [Safe, Ledger.switch, if_neg h]
  simp only [List.mem_append, List.mem_singleton, or_imp, forall_and, forall_eq]
  rw [and_iff_right hold]
  exact ⟨fun hok => hok.mono le_rfl, fun hok => hok.mono le_rfl⟩

theorem mem_visible {d : Dir} {opens : Bool} {id : Nat} :
    id ∈ (visible d opens).ids ↔ id ∈ d.ids ∧ opens = true := by
  cases opens with
  | false => simp [visible]
  | true => simp [visible]

/-- No id follows the last one. -/
theorem hsFindNextId_last {d : Dir} (h : ∀ id ∈ d.ids, id ≤ ullongMax) :
    hsFindNextId d ullongMax = 0 := by
  by_contra hne
  obtain ⟨hmem, hlt, -⟩ := hsFindNextId_spec ullongMax hne
  exact absurd (h _ hmem) (Nat.not_le_of_lt hlt)

end

/-! ### One step -/

section

variable {kind : ReaderKind} {outputSize : Nat} {s s' : System} {l : Ledger}

/-- Files come and go and grow; the file of the writer only goes up. -/
theorem inv_dir {d : Dir} {last : Nat} (hI : Inv (s, l)) (hlast : s.last ≤ last) (hle : last ≤ ullongMax)
    (hids : ∀ id ∈ d.ids, id ≤ last) : Inv ({ s with dir := d, last := last }, l) where
  ids_le := hids
  last_le := hle
  reader := by
    rcases hI.reader with hwait | ⟨c, hr⟩
    · exact .inl hwait
    · refine .inr ⟨c, hr.input, hr.le, fun id hpc => ?_⟩
      obtain ⟨hid, hidle, hleast⟩ := hr.found id hpc
      exact ⟨hid, hidle.trans hlast, hleast⟩

/-- A step of the reader that leaves it in a file, with nothing found. -/
theorem inv_reader {l' : Ledger} {r : QueueReader} {c : Checkpoint} (hI : Inv (s, l))
    (hr : r.input = .opened c) (hle : c.id ≤ ullongMax) (hpc : ∀ id, r.pc ≠ .openFound id) :
    Inv ({ s with reader := r }, l') where
  ids_le := hI.ids_le
  last_le := hI.last_le
  reader := .inr ⟨c, hr, hle, fun id h => absurd h (hpc id)⟩

theorem inv_openFirst {opens : Bool} (hI : Inv (s, l)) (hfh : s.reader.input.fh = none)
    (lookup : Checkpoint) (now : Nat) :
    Inv ({ s with reader := s.reader.openFirst kind (visible s.dir opens) lookup now }, l) := by
  rcases hI.reader with ⟨⟨c, hc⟩, hpc⟩ | ⟨c, hr⟩
  · obtain ⟨hpc', c', hwait | ⟨hopen, hmem⟩⟩ :=
      QueueReader.openFirst_cases kind (visible s.dir opens) hc lookup now
    · exact ⟨hI.ids_le, hI.last_le, .inl ⟨⟨c', hwait⟩, hpc'.trans hpc⟩⟩
    · have hle := (hI.ids_le _ (mem_visible.mp hmem).1).trans hI.last_le
      refine inv_reader hI hopen hle fun id h => ?_
      rw [hpc', hpc] at h
      cases h
  · rw [hr.input] at hfh
    cases hfh

theorem inv_read (hI : Inv (s, l)) (hpc : s.reader.pc = .read) (hfh : s.reader.input.fh ≠ none)
    (space now : Nat) :
    Inv ({ s with
      reader := s.reader.readStep kind outputSize (readable s.dir s.reader) space now }, l) := by
  rcases hI.reader with ⟨⟨c, hc⟩, -⟩ | ⟨c, hr⟩
  · rw [hc] at hfh
    exact absurd rfl hfh
  · obtain ⟨hin, -, -, hpc' | hpc'⟩ :=
      QueueReader.readStep_cases kind outputSize (readable s.dir s.reader) hr.input space now
    · refine inv_reader hI hin hr.le fun id h => ?_
      rw [hpc'.1, hpc] at h
      cases h
    · refine inv_reader hI hin hr.le fun id h => ?_
      rw [hpc'.1] at h
      cases h

/-- Below the last id the next file is the next higher one. -/
theorem openNext_below {opens : Bool} {c : Checkpoint} (hI : Inv (s, l)) (hr : Reading (s, l) c)
    (hlt : c.id < ullongMax) :
    let r' := openNext kind outputSize (visible s.dir opens) s.reader
    let l' := l.switch s.reader r' s.dir.ids
    Inv ({ s with reader := r' }, l') ∧ (Safe (s, l) → Safe ({ s with reader := r' }, l')) := by
  have hid : s.reader.input.cp.id = c.id := by rw [hr.input]; rfl
  have heq : openNext kind outputSize (visible s.dir opens) s.reader =
      s.reader.openNext kind outputSize (visible s.dir opens) := openNext_eq (by rw [hid]; exact hlt)
  simp only [heq]
  rcases QueueReader.openNext_cases kind outputSize (visible s.dir opens) hr.input with
    ⟨hmem, hin, hpc, -⟩ | ⟨-, hin, -, hpc⟩
  · have hid' : (s.reader.openNext kind outputSize (visible s.dir opens)).input.cp.id = c.id + 1 := by
      rw [hin]; rfl
    constructor
    · refine inv_reader hI hin hlt fun id h => ?_
      rw [hpc] at h
      cases h
    · intro hS
      rw [safe_switch hS (by rw [hid, hid']; exact Nat.succ_ne_self _), hid, hid']
      exact Switch.ok_of_least (Nat.lt_succ_self _) (hI.ids_le _ (mem_visible.mp hmem).1)
        fun id _ h => h
  · have hid' : (s.reader.openNext kind outputSize (visible s.dir opens)).input.cp.id = c.id := by
      rw [hin]; rfl
    rw [switch_same _ (hid'.trans hid.symm)]
    refine ⟨inv_reader hI hin hr.le fun id h => ?_, fun hS => safe_mono hS le_rfl⟩
    rcases hpc with hpc | hpc
    · rw [hpc.1] at h
      cases h
    · rw [hpc] at h
      cases h

/-- At the last id it is file 0. -/
theorem openNext_last {opens : Bool} {c : Checkpoint} (hI : Inv (s, l)) (hr : Reading (s, l) c)
    (hmax : c.id = ullongMax) :
    let r' := openNext kind outputSize (visible s.dir opens) s.reader
    let l' := l.switch s.reader r' s.dir.ids
    Inv ({ s with reader := r' }, l') ∧
      (Safe (s, l) →
        (Safe ({ s with reader := r' }, l') ↔ ¬(0 ∈ s.dir.ids ∧ opens = true))) := by
  have hc : s.reader.input = .opened c := hr.input
  have hid : s.reader.input.cp.id = ullongMax := by rw [hc]; exact hmax
  have hnext : (HsInput.opened c).nextId = 0 := by
    rw [HsInput.nextId, HsInput.opened, hmax]
    rfl
  have hne : c.id ≠ 0 := by
    rw [hmax]
    exact Nat.succ_ne_zero _
  by_cases hmem : 0 ∈ (visible s.dir opens).ids
  · have hr' : openNext kind outputSize (visible s.dir opens) s.reader =
        { s.reader with
          input := .opened ⟨0, 0⟩
          pc := .read
          next := true
          iwaitCnt := match kind with
            | .analysis => s.reader.iwaitCnt
            | .output => 0 } := by
      simp only [openNext, hc, hnext, HsInput.hsOpenFile_opened _ hne, if_pos hmem, if_true]
    simp only [hr']
    constructor
    · exact inv_reader (c := ⟨0, 0⟩) hI rfl (Nat.zero_le _) fun id h => by cases h
    · intro hS
      rw [safe_switch hS (by rw [hid]; exact (Nat.succ_ne_zero _).symm), hid]
      refine iff_of_false (fun hok => absurd hok.up (Nat.not_lt_zero _)) ?_
      exact not_not_intro (mem_visible.mp hmem)
  · have hr' : ∃ r', openNext kind outputSize (visible s.dir opens) s.reader = r' ∧
        r'.input = .opened c ∧ ∀ id, r'.pc ≠ .openFound id := by
      simp only [openNext, hc, hnext, HsInput.hsOpenFile_opened _ hne, if_neg hmem,
        Bool.false_eq_true, if_false]
      split
      · exact ⟨_, rfl, rfl, fun id h => by cases h⟩
      · exact ⟨_, rfl, rfl, fun id h => by cases h⟩
    obtain ⟨r', hr', hin, hpc⟩ := hr'
    have hid' : r'.input.cp.id = s.reader.input.cp.id := by rw [hin, hc]
    simp only [hr', switch_same _ hid']
    refine ⟨inv_reader hI hin hr.le hpc, fun hS => iff_of_true (safe_mono hS le_rfl) ?_⟩
    rwa [← mem_visible]

theorem inv_findNext (hI : Inv (s, l)) (hpc : s.reader.pc = .findNext) :
    Inv ({ s with reader := findNext s.dir s.reader }, { l with listed := s.dir.ids }) := by
  rcases hI.reader with ⟨-, hread⟩ | ⟨c, hr⟩
  · rw [hpc] at hread
    cases hread
  have hid : s.reader.input.cp.id = c.id := by rw [hr.input]; rfl
  by_cases hlt : c.id < ullongMax
  · rw [findNext_eq (by rw [hid]; exact hlt)]
    obtain ⟨hin, -, ⟨hread, -⟩ | ⟨id, hfound, hmem, hgt, hleast⟩⟩ :=
      QueueReader.findNext_cases s.dir hr.input
    · refine inv_reader hI hin hr.le fun id h => ?_
      rw [hread] at h
      cases h
    · refine ⟨hI.ids_le, hI.last_le, .inr ⟨c, hin, hr.le, fun id' h => ?_⟩⟩
      rw [hfound] at h
      cases h
      exact ⟨hgt, hI.ids_le _ hmem, hleast⟩
  · have hmax : c.id = ullongMax := Nat.le_antisymm hr.le (Nat.le_of_not_lt hlt)
    have hzero : hsFindNextId s.dir s.reader.input.cp.id = 0 := by
      rw [hid, hmax]
      exact hsFindNextId_last fun id h => (hI.ids_le id h).trans hI.last_le
    refine inv_reader hI (c := c) hr.input hr.le fun id h => ?_
    simp only [findNext, hzero, gt_iff_lt, Nat.not_lt_zero, if_false] at h
    cases h

theorem openFound_safe (opens : Bool) {id : Nat} (hI : Inv (s, l))
    (hpc : s.reader.pc = .openFound id) :
    let r' := s.reader.openFound (visible s.dir opens) id
    let l' := l.switch s.reader r' l.listed
    Inv ({ s with reader := r' }, l') ∧ (Safe (s, l) → Safe ({ s with reader := r' }, l')) := by
  rcases hI.reader with ⟨-, hread⟩ | ⟨c, hr⟩
  · rw [hpc] at hread
    cases hread
  have hc : s.reader.input = .opened c := hr.input
  have hid : s.reader.input.cp.id = c.id := by rw [hc]; rfl
  obtain ⟨hgt, hlast, hleast⟩ := hr.found id hpc
  have hne : c.id ≠ id := by omega
  have hgt' : c.id < id := by omega
  by_cases hmem : id ∈ (visible s.dir opens).ids
  · simp only [QueueReader.openFound_eq hr.input hmem hne]
    constructor
    · exact inv_reader (c := ⟨id, 0⟩) hI rfl (hlast.trans hI.last_le) fun i h => by cases h
    · intro hS
      rw [safe_switch hS (by rw [hid]; exact hne.symm), hid]
      exact Switch.ok_of_least hgt' hlast hleast
  · have hr' : ∃ r', s.reader.openFound (visible s.dir opens) id = r' ∧ r'.input = .opened c ∧
        r'.pc = .read := by
      simp only [QueueReader.openFound, hc, HsInput.hsOpenFile_opened _ hne, if_neg hmem]
      exact ⟨_, rfl, rfl, rfl⟩
    obtain ⟨r', hr', hin, hread⟩ := hr'
    simp only [hr', switch_same _ ((congrArg (fun i => i.cp.id) hin).trans hid.symm)]
    refine ⟨inv_reader hI hin hr.le fun i h => ?_, fun hS => safe_mono hS le_rfl⟩
    rw [hread] at h
    cases h

theorem inv_openNext {opens : Bool} (hI : Inv (s, l)) (hpc : s.reader.pc = .openNext) :
    let r' := openNext kind outputSize (visible s.dir opens) s.reader
    let l' := l.switch s.reader r' s.dir.ids
    Inv ({ s with reader := r' }, l') ∧
      (Safe (s, l) → (Safe ({ s with reader := r' }, l') ↔ Admits (s, l) (.openNext opens))) := by
  rcases hI.reader with ⟨-, hread⟩ | ⟨c, hr⟩
  · rw [hpc] at hread
    cases hread
  have hid : s.reader.input.cp.id = c.id := congrArg (fun i => i.cp.id) hr.input
  by_cases hlt : c.id < ullongMax
  · obtain ⟨hI', hS'⟩ := openNext_below hI hr hlt
    refine ⟨hI', fun hS => iff_of_true (hS' hS) fun hmax => ?_⟩
    rw [hid] at hmax
    exact absurd hmax hlt.ne
  · have hmax : c.id = ullongMax := Nat.le_antisymm hr.le (Nat.le_of_not_lt hlt)
    obtain ⟨hI', hS'⟩ := openNext_last hI hr hmax
    refine ⟨hI', fun hS => (hS' hS).trans ?_⟩
    simp only [Admits, hid, hmax, true_imp_iff, not_and']

/-- A step keeps the invariant, and it keeps `Safe` just if it is admitted. -/
theorem step_spec {p q : State} {e : Event} (hI : Inv p) (h : observed kind outputSize p e = some q) :
    Inv q ∧ (Safe p → (Safe q ↔ Admits p e)) := by
  obtain ⟨s, l⟩ := p
  obtain ⟨s', l'⟩ := q
  obtain ⟨hs, hl⟩ := Runs.observe_some.mp h
  dsimp only at hs hl
  subst hl
  cases e with
  | create id =>
    simp only [step] at hs
    split at hs
    · rename_i hc
      cases hs
      have hids : ∀ i ∈ (s.dir.create id).ids, i ≤ id := by
        intro i hi
        rcases Dir.mem_ids_create.mp hi with hi | hi
        · exact (hI.ids_le i hi).trans (le_of_lt hc.1)
        · exact hi.le
      exact ⟨inv_dir hI (le_of_lt hc.1) hc.2 hids,
        fun hS => iff_of_true (safe_mono hS (le_of_lt hc.1)) trivial⟩
    · cases hs
  | append bs =>
    cases hs
    exact ⟨inv_dir hI le_rfl hI.last_le hI.ids_le, fun hS => iff_of_true (safe_mono hS le_rfl) trivial⟩
  | prune id =>
    cases hs
    have hids : ∀ i ∈ (unlink s.dir id).ids, i ≤ s.last := fun i hi => hI.ids_le i (List.mem_of_mem_filter hi)
    exact ⟨inv_dir hI le_rfl hI.last_le hids, fun hS => iff_of_true (safe_mono hS le_rfl) trivial⟩
  | openFirst opens lookup now =>
    simp only [step] at hs
    split at hs
    · rename_i hfh
      cases hs
      exact ⟨inv_openFirst hI hfh lookup now, fun hS => iff_of_true (safe_mono hS le_rfl) trivial⟩
    · cases hs
  | read space now =>
    simp only [step] at hs
    split at hs
    · rename_i hr
      cases hs
      exact ⟨inv_read hI hr.1 hr.2 space now, fun hS => iff_of_true (safe_mono hS le_rfl) trivial⟩
    · cases hs
  | openNext opens =>
    simp only [step] at hs
    split at hs
    · rename_i hpc
      cases hs
      exact inv_openNext hI hpc
    · cases hs
  | findNext =>
    simp only [step] at hs
    split at hs
    · rename_i hpc
      cases hs
      exact ⟨inv_findNext hI hpc, fun hS => iff_of_true (safe_mono hS le_rfl) trivial⟩
    · cases hs
  | openFound opens =>
    simp only [step] at hs
    split at hs
    · rename_i id hpc
      cases hs
      obtain ⟨hI', hS'⟩ := openFound_safe opens hI hpc
      simp only [see, hpc]
      exact ⟨hI', fun hS => iff_of_true (hS' hS) trivial⟩
    · cases hs

end

theorem inv_start {d : Dir} {cp : Checkpoint} (hd : ∀ id ∈ d.ids, id ≤ ullongMax) : Inv (start d cp) where
  ids_le := fun _ hid => le_findLastId d hid
  last_le := findLastId_le hd
  reader := .inl ⟨⟨cp, rfl⟩, rfl⟩

/-- No switch leaves a file behind exactly when all steps are admitted. -/
theorem skips_iff (kind : ReaderKind) (outputSize : Nat) (d : Dir) (cp : Checkpoint)
    (hd : ∀ id ∈ d.ids, id ≤ ullongMax) (es : List Event) :
    Runs.Always (observed kind outputSize) Safe (start d cp) es ↔
      Runs.Meets (observed kind outputSize) Admits (start d cp) es :=
  Runs.always_iff_meets (fun _ _ _ hI h => (step_spec hI h).1)
    (fun _ _ _ hI hS h => (step_spec hI h).2 hS) (inv_start hd)
    (fun _ hw => absurd hw List.not_mem_nil) es

instance (p : State) (e : Event) : Decidable (Admits p e) :=
  match e with
  | .openNext opens =>
    inferInstanceAs (Decidable (p.1.reader.input.cp.id = ullongMax → opens = true → 0 ∉ p.1.dir.ids))
  | .create _ => isTrue trivial
  | .append _ => isTrue trivial
  | .prune _ => isTrue trivial
  | .openFirst .. => isTrue trivial
  | .read .. => isTrue trivial
  | .findNext => isTrue trivial
  | .openFound _ => isTrue trivial

/-- Files 1 and 2 are gone and the reader goes on in file 3; file 4 comes after the listing. -/
def gapRun : List Event :=
  [.openFirst true ⟨0, 0⟩ 1, .read 8 2, .openNext true, .findNext, .create 4, .openFound true]

theorem skips_iff_gap :
    Runs.Always (observed .analysis 16) Safe (start ⟨[3, 0], fun _ => []⟩ ⟨0, 0⟩) gapRun :=
  (skips_iff .analysis 16 ⟨[3, 0], fun _ => []⟩ ⟨0, 0⟩ (by decide) gapRun).mpr (by decide)

/-- A reader at the end of the last file goes on in file 0. -/
theorem skips_fails :
    ¬∀ (kind : ReaderKind) (outputSize : Nat) (d : Dir) (cp : Checkpoint) (es : List Event),
      (∀ id ∈ d.ids, id ≤ ullongMax) →
        Runs.Always (observed kind outputSize) Safe (start d cp) es := by
  intro h
  have hall := h .analysis 16 ⟨[0, ullongMax], fun _ => []⟩ ⟨ullongMax, 0⟩
    [.openFirst true ⟨0, 0⟩ 1, .read 8 2, .openNext true] (by decide)
  have hsafe := hall.run rfl
  have hup := (hsafe ⟨ullongMax, 0, [0, ullongMax]⟩ (by decide)).up
  exact absurd hup (Nat.not_lt_zero _)

end GapSkip

end Hindsight
