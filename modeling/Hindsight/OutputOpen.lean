import Hindsight.Lib.Run
import Hindsight.Output

/-!
# Hindsight.OutputOpen

The roll-overs of the two queues side by side. `hs_open_output_file` runs under the lock of its
own queue, but both queues format the file name into the same static buffer `fqfn` before they
open it. The machine takes the three steps of `hs_open_output_file` apart; an observer keeps which
queue formatted last. A character of a name stands for one byte.

* `Safe`: an open handle of a queue refers to the file of its own path and its own `cp.id`.
* `Admits`: a queue opens the name it formatted itself.
* `open_safe_iff`: a run keeps `Safe` exactly when all its steps are admitted.
-/

namespace Hindsight

namespace OutputOpen

/-- `hs_input_dir` and `hs_analysis_dir`. -/
def subdir : Queue → String
  | .input => "input"
  | .analysis => "analysis"

/-- `<path>/<id>.log`, the path of the queue being `<output_path>/<subdir>`. -/
def fileName (outputPath : String) (q : Queue) (id : Nat) : String :=
  outputPath ++ "/" ++ subdir q ++ "/" ++ toString id ++ ".log"

/-- Where a queue is in `hs_open_output_file`. -/
inductive Pc where
  | idle
  | format
  | fopen
  deriving DecidableEq, Repr

/-- `fh` is the name the handle was opened with. -/
structure Writer where
  cp : Checkpoint
  fh : Option String
  pc : Pc
  deriving DecidableEq, Repr

structure Writers where
  outputPath : String
  queue : Queue → Writer
  fqfn : String

inductive Event where
  | inject (q : Queue) (tlen : Nat)
  | format (q : Queue)
  | fopen (q : Queue) (size : Nat)
  deriving DecidableEq, Repr

namespace Writers

def set (s : Writers) (q : Queue) (w : Writer) : Writers :=
  { s with queue := Function.update s.queue q w }

/-- One step of a queue. `inject` appends a frame of `tlen` bytes; a roll-over takes the next id and
closes the handle. A name that does not fit into `fqfn` ends the process. `size` is what `ftell`
reports for the opened file. -/
def step (cfg : HsConfig) (s : Writers) : Event → Option Writers
  | .inject q tlen =>
    let w := s.queue q
    if w.pc = .idle then
      let offset := w.cp.offset + tlen
      if offset ≥ cfg.outputSize then
        some (s.set q { cp := ⟨w.cp.id + 1, offset⟩, fh := none, pc := .format })
      else some (s.set q { w with cp := ⟨w.cp.id, offset⟩ })
    else none
  | .format q =>
    let w := s.queue q
    let name := fileName s.outputPath q w.cp.id
    if w.pc = .format ∧ name.length < 260 then
      some { s.set q { w with pc := .fopen } with fqfn := name }
    else none
  | .fopen q size =>
    let w := s.queue q
    if w.pc = .fopen then
      some (s.set q { cp := ⟨w.cp.id, size⟩, fh := some s.fqfn, pc := .idle })
    else none

/-- Both queues opened on the files of `cp`. -/
def start (outputPath : String) (cp : Queue → Checkpoint) (fqfn : String) : Writers where
  outputPath := outputPath
  queue q := ⟨cp q, some (fileName outputPath q (cp q).id), .idle⟩
  fqfn := fqfn

end Writers

/-- The observer: the queue that formatted last. -/
def see (_ : Writers) (last : Option Queue) : Event → Option Queue
  | .format q => some q
  | _ => last

abbrev State := Writers × Option Queue

def step (cfg : HsConfig) : State → Event → Option State := Runs.observe (Writers.step cfg) see

/-- An open handle refers to the queue's own file. -/
def Safe (s : State) : Prop :=
  ∀ q, ∀ name ∈ (s.1.queue q).fh, name = fileName s.1.outputPath q (s.1.queue q).cp.id

/-- Between a queue's formatting and its opening the other queue has not formatted. -/
def Admits (s : State) : Event → Prop
  | .fopen q _ => s.2 = some q
  | _ => True

/-- What the buffer holds: a name of the queue that formatted last, its present one as long as it
has not opened it. -/
structure Inv (s : Writers) (last : Option Queue) : Prop where
  formatted : ∀ q, (s.queue q).pc = .fopen → last ≠ none
  fqfn : ∀ q, last = some q → ∃ id, s.fqfn = fileName s.outputPath q id ∧
    ((s.queue q).pc = .fopen → id = (s.queue q).cp.id)

theorem fileName_queue {path : String} {q r : Queue} {i j : Nat}
    (h : fileName path q i = fileName path r j) : q = r := by
  have hlist := congrArg String.toList h
  simp only [fileName, String.toList_append, List.append_assoc] at hlist
  have htail := List.append_cancel_left hlist
  cases q <;> cases r <;> simp_all [subdir]

section

variable {cfg : HsConfig} {s s' : Writers} {last : Option Queue}

theorem set_same (s : Writers) (q : Queue) (w : Writer) : (s.set q w).queue q = w := by
  simp [Writers.set]

theorem set_other {q r : Queue} (s : Writers) (w : Writer) (h : r ≠ q) :
    (s.set q w).queue r = s.queue r := by
  simp [Writers.set, h]

/-- A step of `q` that leaves the buffer alone and does not end between formatting and opening. -/
theorem set_inv {q : Queue} {w : Writer} (hI : Inv s last) (hpc : w.pc ≠ .fopen) :
    Inv (s.set q w) last := by
  refine ⟨fun r hr => ?_, fun r hr => ?_⟩
  · by_cases hrq : r = q
    · subst hrq
      rw [set_same] at hr
      exact absurd hr hpc
    · rw [set_other s w hrq] at hr
      exact hI.formatted r hr
  · obtain ⟨id, hname, hid⟩ := hI.fqfn r hr
    refine ⟨id, hname, fun ho => ?_⟩
    by_cases hrq : r = q
    · subst hrq
      rw [set_same] at ho
      exact absurd ho hpc
    · rw [set_other s w hrq] at ho ⊢
      exact hid ho

theorem set_safe {q : Queue} {w : Writer} (hS : Safe (s, last)) :
    Safe (s.set q w, last) ↔ ∀ name ∈ w.fh, name = fileName s.outputPath q w.cp.id := by
  constructor
  · intro h name hn
    have := h q name (by rw [set_same]; exact hn)
    rw [set_same] at this
    exact this
  · intro h r name hn
    simp only at hn ⊢
    by_cases hrq : r = q
    · subst hrq
      rw [set_same] at hn ⊢
      exact h name hn
    · rw [set_other s w hrq] at hn ⊢
      exact hS r name hn

/-- An injection advances the position, or the file is closed and the next one is to be formatted. -/
theorem step_inject {q : Queue} {tlen : Nat} (h : s.step cfg (.inject q tlen) = some s') :
    let w := s.queue q
    w.pc = .idle ∧
      (s' = s.set q { cp := ⟨w.cp.id + 1, w.cp.offset + tlen⟩, fh := none, pc := .format } ∨
        s' = s.set q { w with cp := ⟨w.cp.id, w.cp.offset + tlen⟩ }) := by
  simp only [Writers.step] at h
  split at h
  · rename_i hidle
    split at h
    · exact ⟨hidle, .inl (Option.some.inj h).symm⟩
    · exact ⟨hidle, .inr (Option.some.inj h).symm⟩
  · cases h

theorem step_inv {e : Event} (hI : Inv s last) (h : s.step cfg e = some s') :
    Inv s' (see s last e) := by
  cases e with
  | inject q tlen =>
    obtain ⟨hidle, rfl | rfl⟩ := step_inject h
    · exact set_inv hI (by simp)
    · exact set_inv hI (by simp [hidle])
  | format q =>
    simp only [Writers.step, Option.ite_none_right_eq_some, Option.some.injEq] at h
    obtain ⟨-, rfl⟩ := h
    refine ⟨fun r _ => by simp [see], fun r hr => ?_⟩
    cases hr
    exact ⟨_, rfl, fun _ => by rw [set_same]⟩
  | fopen q size =>
    simp only [Writers.step, Option.ite_none_right_eq_some, Option.some.injEq] at h
    obtain ⟨-, rfl⟩ := h
    exact set_inv hI (by simp)

/-- A step keeps `Safe` exactly when it is admitted. -/
theorem step_safe {e : Event} (hI : Inv s last) (hS : Safe (s, last))
    (h : s.step cfg e = some s') : Safe (s', see s last e) ↔ Admits (s, last) e := by
  cases e with
  | inject q tlen =>
    obtain ⟨-, rfl | rfl⟩ := step_inject h
    · exact (set_safe hS).trans (by simp [Admits])
    · exact (set_safe hS).trans ⟨fun _ => trivial, fun _ => hS q⟩
  | format q =>
    simp only [Writers.step, Option.ite_none_right_eq_some, Option.some.injEq] at h
    obtain ⟨-, rfl⟩ := h
    exact (set_safe hS).trans ⟨fun _ => trivial, fun _ => hS q⟩
  | fopen q size =>
    simp only [Writers.step, Option.ite_none_right_eq_some, Option.some.injEq] at h
    obtain ⟨hpc, rfl⟩ := h
    refine (set_safe hS).trans ?_
    simp only [Option.mem_def, Option.some.injEq, forall_eq', Admits]
    obtain ⟨r, hr⟩ := Option.ne_none_iff_exists'.mp (hI.formatted q hpc)
    obtain ⟨id, hname, hid⟩ := hI.fqfn r hr
    rw [hname, hr, Option.some.injEq]
    constructor
    · exact fun h => fileName_queue h
    · rintro rfl
      rw [hid hpc]

end

theorem start_inv (path : String) (cp : Queue → Checkpoint) (fqfn : String) :
    Inv (Writers.start path cp fqfn) none := by
  refine ⟨fun q h => ?_, fun q h => by cases h⟩
  simp [Writers.start] at h

theorem start_safe (path : String) (cp : Queue → Checkpoint) (fqfn : String) :
    Safe (Writers.start path cp fqfn, none) := by
  intro q name hn
  cases hn
  rfl

/-- In a run of injections and roll-overs every open handle refers to its own file all along
exactly when every queue opens the name it formatted itself. -/
theorem open_safe_iff (cfg : HsConfig) (path : String) (cp : Queue → Checkpoint) (fqfn : String)
    (es : List Event) :
    Runs.Always (step cfg) Safe (Writers.start path cp fqfn, none) es ↔
      Runs.Meets (step cfg) Admits (Writers.start path cp fqfn, none) es := by
  refine Runs.always_iff_meets (I := fun s : State => Inv s.1 s.2) ?_ ?_ (start_inv path cp fqfn)
    (start_safe path cp fqfn) es
  · intro s e s' hI h
    obtain ⟨hs, hl⟩ := Runs.observe_some.mp h
    rw [hl]
    exact step_inv hI hs
  · rintro ⟨s, last⟩ e ⟨s', last'⟩ hI hS h
    obtain ⟨hs, rfl⟩ := Runs.observe_some.mp h
    exact step_safe hI hS hs

/-- Both queues roll over; the analysis queue formats between the input queue's formatting and its
opening. -/
def mixedRun : List Event :=
  [.inject .input 10, .inject .analysis 10, .format .input, .format .analysis, .fopen .input 0]

theorem open_unsafe : ¬∀ cfg path cp fqfn es,
    Runs.Always (step cfg) Safe (Writers.start path cp fqfn, none) es := by
  intro h
  have hrun : ∃ t, Runs.run (step ⟨10, 0, 0⟩)
      (Writers.start "out" (fun _ => ⟨0, 0⟩) "", none) mixedRun = some t ∧
        (t.1.queue .input).fh = some "out/analysis/1.log" ∧
        fileName t.1.outputPath .input (t.1.queue .input).cp.id = "out/input/1.log" :=
    ⟨_, rfl, rfl, rfl⟩
  obtain ⟨t, hrun, hfh, hname⟩ := hrun
  have hbad := (h _ _ _ _ _).run hrun .input _ hfh
  rw [hname] at hbad
  exact absurd hbad (by decide)

end OutputOpen

end Hindsight
