import Hindsight.AnalysisDelivery
import Hindsight.OutputOpen

/-!
# Hindsight.AnalysisRollover

The checkpoints of the analysis threads while both queues roll over. `hs_open_output_file` is taken
apart: a queue closes its file, formats the name of the next one into the static buffer that the two
queues share, and opens what stands in the buffer. A stream may so be open on a file of the other
queue. An analysis thread that rolls the queue over has its lock, and so can do nothing else, and nobody
can inject or flush there.

* `Safe`: what was injected for messages at or before a persisted position is in the files of the
  analysis queue.
* `Admits`: a thread finds messages after its position and is not set back, and a queue opens a name of
  its own.
* `analysis_safe`: `Safe` holds throughout every run whose steps are admitted.
-/

namespace Hindsight

namespace AnalysisRollover

open AnalysisDelivery (Injected Positions)
open OutputOpen (Pc)

/-! ## The queues -/

/-- A writer: the directory and the file its stream is open on, the buffered bytes, and where it is in
`hs_open_output_file`. -/
structure Stream where
  on : Queue
  fh : Option Nat
  buf : List UInt8
  cp : Checkpoint
  pc : Pc

/-- `fqfn`: the file whose name the static buffer holds. -/
structure Queues where
  dirs : Queue → Dir
  stream : Queue → Stream
  fqfn : Queue × Nat

namespace Queues

/-- A writer with the directory its stream is in. -/
def output (s : Queues) (q : Queue) : Output :=
  ⟨s.dirs (s.stream q).on, (s.stream q).fh, (s.stream q).buf, (s.stream q).cp, 0⟩

def put (s : Queues) (q : Queue) (o : Output) (pc : Pc) : Queues :=
  { s with
    dirs := Function.update s.dirs (s.stream q).on o.dir
    stream := Function.update s.stream q ⟨(s.stream q).on, o.fh, o.buf, o.cp, pc⟩ }

/-- The writes of `inject_message`; a file that is full is closed. -/
def append (cfg : HsConfig) (s : Queues) (q : Queue) (bs : List UInt8) : Queues :=
  let o := (s.output q).fwrite bs
  let o : Output := { o with cp := { o.cp with offset := o.cp.offset + bs.length } }
  if o.cp.offset ≥ cfg.outputSize then
    s.put q { o with cp := { o.cp with id := (o.cp.id + 1) % 2 ^ 64 } }.fclose .format
  else s.put q o .idle

def format (s : Queues) (q : Queue) : Queues :=
  { s with
    stream := Function.update s.stream q { s.stream q with pc := .fopen }
    fqfn := (q, (s.stream q).cp.id) }

def fopen (s : Queues) (q : Queue) : Queues :=
  let (on, id) := s.fqfn
  { s with
    dirs := Function.update s.dirs on ((s.dirs on).create id)
    stream := Function.update s.stream q
      ⟨on, some id, [], ⟨(s.stream q).cp.id, ((s.dirs on).bytes id).length⟩, .idle⟩ }

def spill (s : Queues) (q : Queue) (n : Nat) : Queues :=
  s.put q ((s.output q).spill n) (s.stream q).pc

def fflush (s : Queues) (q : Queue) : Queues := s.put q (s.output q).fflush (s.stream q).pc

end Queues

/-! ## The machine -/

/-- Where the main thread is in `hs_write_checkpoints`: what is done for the other plugins leaves the
positions of the threads and the analysis queue as they are. -/
inductive Pass where
  | idle
  | copy (i : Nat)
  | flush (i : Nat)
  | persist
  deriving DecidableEq, Repr

/-- `holder`: the analysis thread that is in `hs_open_output_file`. -/
structure Process where
  queues : Queues
  threads : Nat → AnalysisThread
  holder : Option Nat
  stored : Nat → Option Checkpoint
  persisted : Nat → Option Checkpoint
  pass : Pass

inductive Event where
  | find (i : Nat) (e : Checkpoint)
  | reset (i : Nat) (c : Checkpoint)
  | analyzed (i : Nat)
  | inject (i : Nat) (pb : List UInt8)
  | injectInput (pb : List UInt8)
  | format (q : Queue)
  | fopen (q : Queue)
  | spill (q : Queue) (n : Nat)
  | pass

section

variable (cfg : HsConfig) (varint : Nat → List UInt8) (threadCnt : Nat)

namespace Process

/-- A step of the main thread; the flush waits for the lock of the queue. -/
def passStep (s : Process) : Option Process :=
  match s.pass with
  | .idle => some { s with pass := .copy 0 }
  | .copy i =>
    if i < threadCnt then
      some { s with stored := Function.update s.stored i (some (s.threads i).cp), pass := .flush i }
    else some { s with pass := .persist }
  | .flush i =>
    if (s.queues.stream .analysis).pc = .idle then
      some { s with queues := s.queues.fflush .analysis, pass := .copy (i + 1) }
    else none
  | .persist => some { s with persisted := s.stored, pass := .idle }

def step (s : Process) : Event → Option Process
  | .find i e =>
    if (s.threads i).msg = none ∧ s.holder ≠ some i then
      some { s with threads := Function.update s.threads i { s.threads i with msg := some e } }
    else none
  | .reset i c =>
    if (s.threads i).msg = none ∧ s.holder ≠ some i then
      some { s with threads := Function.update s.threads i ⟨c, none⟩ }
    else none
  | .analyzed i =>
    match (s.threads i).msg with
    | some e =>
      if s.holder ≠ some i then
        some { s with threads := Function.update s.threads i ⟨e, none⟩ }
      else none
    | none => none
  | .inject i pb =>
    if (s.queues.stream .analysis).pc = .idle then
      let queues := s.queues.append cfg .analysis (frame varint pb)
      some { s with
        queues := queues
        holder := if (queues.stream .analysis).pc = .idle then none else some i }
    else none
  | .injectInput pb =>
    if (s.queues.stream .input).pc = .idle then
      some { s with queues := s.queues.append cfg .input (frame varint pb) }
    else none
  | .format q =>
    if (s.queues.stream q).pc = .format then some { s with queues := s.queues.format q } else none
  | .fopen q =>
    if (s.queues.stream q).pc = .fopen then
      some { s with queues := s.queues.fopen q, holder := if q = .analysis then none else s.holder }
    else none
  | .spill q n => some { s with queues := s.queues.spill q n }
  | .pass => s.passStep threadCnt

/-- Both queues initialised on their directories, the threads where they are loaded. -/
def start (dirs : Queue → Dir) (st : Nat → Option Checkpoint) (fqfn : Queue × Nat) : Process where
  queues :=
    { dirs := fun q => (hsInitOutput (dirs q)).dir
      stream := fun q =>
        ⟨q, (hsInitOutput (dirs q)).fh, (hsInitOutput (dirs q)).buf, (hsInitOutput (dirs q)).cp, .idle⟩
      fqfn := fqfn }
  threads i := ⟨(st i).getD ⟨Service.findFirstId (dirs .input), 0⟩, none⟩
  holder := none
  stored := st
  persisted := st
  pass := .idle

end Process

/-! ## The observer -/

/-- Where a frame was written: the directory the stream was in, and the place in its file. -/
abbrev Place := Queue × Output.Written

/-- The observer. -/
def see (s : Process) (l : List (Injected Place)) : Event → List (Injected Place)
  | .inject i pb =>
    match (s.threads i).msg with
    | some e =>
      ⟨i, e, (s.queues.stream .analysis).on, (s.queues.output .analysis).next (frame varint pb)⟩ :: l
    | none => l
  | _ => l

abbrev State := Process × List (Injected Place)

def step : State → Event → Option State :=
  Runs.observe (Process.step cfg varint threadCnt) (see varint)

/-- The frame is completely in a file of the analysis queue. -/
def OnDisk (dirs : Queue → Dir) (p : Place) : Prop :=
  p.1 = .analysis ∧ Chunk.At ((dirs .analysis).bytes p.2.file) p.2.start p.2.bytes

/-- What was injected for a message at or before the persisted position of its thread is on disk. -/
def Safe (s : State) : Prop :=
  ∀ r ∈ s.2, ∀ c, s.1.persisted r.thread = some c → r.stop ≤ c → OnDisk s.1.queues.dirs r.place

/-- A thread finds messages after its position, and is not set back; a queue opens a name that it has
formatted itself. -/
def Admits (s : State) : Event → Prop
  | .find i e => (s.1.threads i).cp < e
  | .reset i c => (s.1.threads i).cp ≤ c
  | .fopen q => s.1.queues.fqfn.1 = q
  | _ => True

end

/-! ## The analysis queue -/

/-- Every stream is in the directory of its queue; the one of the analysis queue is open unless the
queue is rolled over, and then nothing is buffered. -/
structure Own (s : Queues) : Prop where
  on : ∀ q, (s.stream q).on = q
  isOpen : (s.stream .analysis).pc = .idle → (s.output .analysis).Open
  closed : (s.stream .analysis).pc ≠ .idle →
    (s.stream .analysis).fh = none ∧ (s.stream .analysis).buf = []

/-- The analysis queue keeps what it has. -/
def Keeps (s s' : Queues) : Prop := Output.Grows (s.output .analysis) (s'.output .analysis)

section

variable {cfg : HsConfig} {s s' : Queues}

theorem Keeps.refl (s : Queues) : Keeps s s := Output.Grows.refl _

theorem full_fclose {o : Output} (ho : o.Open) (id : Nat) : o.fclose.full id = o.full id := by
  rw [← Output.bytes_fflush ho]
  simp [Output.full, Output.fclose]

theorem grows_fclose {o : Output} (ho : o.Open) : Output.Grows o o.fclose := by
  intro id
  rw [full_fclose ho]
  exact ⟨List.prefix_refl _, (Output.grows_fflush ho id).2⟩

@[simp] theorem stream_put_same (q : Queue) (o : Output) (pc : Pc) :
    (s.put q o pc).stream q = ⟨(s.stream q).on, o.fh, o.buf, o.cp, pc⟩ := Function.update_self _ _ _

@[simp] theorem on_put (q r : Queue) (o : Output) (pc : Pc) :
    ((s.put q o pc).stream r).on = (s.stream r).on := by
  by_cases h : r = q
  · subst h
    rw [stream_put_same]
  · exact congrArg Stream.on (Function.update_of_ne h _ _)

@[simp] theorem output_put (q : Queue) (o : Output) (pc : Pc) :
    (s.put q o pc).output q = { o with minCpId := 0 } := by
  simp [Queues.output, Queues.put]

/-- A step of the analysis queue that leaves its stream open, or closed with nothing buffered. -/
theorem Own.put (h : Own s) {o : Output} {pc : Pc} (hopen : pc = .idle → o.Open)
    (hclosed : pc ≠ .idle → o.fh = none ∧ o.buf = []) : Own (s.put .analysis o pc) := by
  refine ⟨fun q => (on_put _ _ _ _).trans (h.on q), fun hpc => ?_, fun hpc => ?_⟩
  · rw [stream_put_same] at hpc
    rw [output_put]
    exact hopen hpc
  · rw [stream_put_same] at hpc ⊢
    exact hclosed hpc

theorem Keeps.put {o : Output} {pc : Pc} (hgrows : Output.Grows (s.output .analysis) o) :
    Keeps s (s.put .analysis o pc) := by
  rw [Keeps, output_put]
  exact hgrows

/-- What the input queue does in its own directory leaves the analysis queue as it is. -/
theorem output_input (h : Own s) {dir : Dir} {stream : Stream} {fqfn : Queue × Nat} :
    (⟨Function.update s.dirs .input dir, Function.update s.stream .input stream, fqfn⟩ : Queues).output
      .analysis = s.output .analysis := by
  simp [Queues.output, h.on]

theorem Own.input (h : Own s) {dir : Dir} {stream : Stream} {fqfn : Queue × Nat}
    (hon : stream.on = .input) :
    Own ⟨Function.update s.dirs .input dir, Function.update s.stream .input stream, fqfn⟩ := by
  refine ⟨fun q => ?_, fun hpc => ?_, fun hpc => ?_⟩
  · cases q with
    | input => exact hon
    | analysis => exact h.on .analysis
  · rw [output_input h]
    exact h.isOpen hpc
  · exact h.closed hpc

theorem put_input (h : Own s) (o : Output) (pc : Pc) :
    Own (s.put .input o pc) ∧ (s.put .input o pc).output .analysis = s.output .analysis := by
  have hput : s.put .input o pc =
      ⟨Function.update s.dirs .input o.dir,
        Function.update s.stream .input ⟨.input, o.fh, o.buf, o.cp, pc⟩, s.fqfn⟩ := by
    rw [Queues.put, h.on]
  rw [hput]
  exact ⟨h.input rfl, output_input h⟩

/-- The directory of the analysis queue is the one its stream is in. -/
theorem dir_output (h : Own s) : (s.output .analysis).dir = s.dirs .analysis := by
  rw [Queues.output, h.on]

/-! ### What an event does to it -/

variable (cfg) in
/-- The bytes are in the buffer of the stream, and the stream is closed or left open. -/
theorem append_cases (s : Queues) (q : Queue) (bs : List UInt8) :
    ∃ o : Output, o.dir = (s.output q).dir ∧ o.fh = (s.output q).fh ∧
      o.buf = (s.output q).buf ++ bs ∧
      (s.append cfg q bs = s.put q o.fclose .format ∨ s.append cfg q bs = s.put q o .idle) := by
  simp only [Queues.append]
  split
  · refine ⟨_, ?_, ?_, ?_, .inl rfl⟩ <;> rfl
  · refine ⟨_, ?_, ?_, ?_, .inr rfl⟩ <;> rfl

variable (cfg) in
theorem append_analysis (h : Own s) (hpc : (s.stream .analysis).pc = .idle) (bs : List UInt8) :
    Own (s.append cfg .analysis bs) ∧ Keeps s (s.append cfg .analysis bs) ∧
      ((s.append cfg .analysis bs).output .analysis).InQueue ((s.output .analysis).next bs) := by
  obtain ⟨o, hdir, hfh, hbuf, happend⟩ := append_cases cfg s .analysis bs
  have ho : o.Open := by
    obtain ⟨id, hmem, hid⟩ := h.isOpen hpc
    exact ⟨id, by rw [hdir]; exact hmem, by rw [hfh]; exact hid⟩
  have hfull : ∀ id, o.full id = ((s.output .analysis).fwrite bs).full id :=
    Output.full_congr hdir hfh hbuf
  have hgrows : Output.Grows (s.output .analysis) o := by
    intro id
    rw [hfull, hdir]
    exact Output.grows_fwrite _ bs id
  have hin : o.InQueue ((s.output .analysis).next bs) := by
    rw [Output.InQueue, hfull]
    exact Output.inQueue_fwrite (h.isOpen hpc) bs
  rcases happend with happend | happend
  · rw [happend, output_put]
    exact ⟨h.put (fun hp => by cases hp) fun _ => ⟨rfl, Output.buf_fflush ho⟩,
      .put (hgrows.trans (grows_fclose ho)), hin.mono (grows_fclose ho)⟩
  · rw [happend, output_put]
    exact ⟨h.put (fun _ => ho) fun hp => absurd rfl hp, .put hgrows, hin⟩

variable (cfg) in
theorem append_input (h : Own s) (bs : List UInt8) :
    Own (s.append cfg .input bs) ∧ (s.append cfg .input bs).output .analysis = s.output .analysis := by
  obtain ⟨o, -, -, -, happend | happend⟩ := append_cases cfg s .input bs
  · rw [happend]
    exact put_input h _ _
  · rw [happend]
    exact put_input h _ _

theorem format_own (h : Own s) (q : Queue) (hpc : (s.stream q).pc = .format) :
    Own (s.format q) ∧ (s.format q).output .analysis = s.output .analysis := by
  cases q with
  | input =>
    have hformat : s.format .input = ⟨Function.update s.dirs .input (s.dirs .input),
        Function.update s.stream .input { s.stream .input with pc := .fopen },
        (.input, (s.stream .input).cp.id)⟩ := by
      rw [Function.update_eq_self]
      rfl
    rw [hformat]
    exact ⟨h.input (h.on .input), output_input h⟩
  | analysis =>
    have hclosed := h.closed (by rw [hpc]; decide)
    refine ⟨⟨fun q => ?_, fun hp => ?_, fun _ => ?_⟩, ?_⟩
    · cases q with
      | input => exact h.on .input
      | analysis => exact h.on .analysis
    · cases hp
    · exact hclosed
    · rfl

/-- A queue opens a file in its own directory: nothing is lost, and the stream is open again. -/
theorem fopen_own (h : Own s) {q : Queue} (hpc : (s.stream q).pc = .fopen) (hname : s.fqfn.1 = q) :
    Own (s.fopen q) ∧ Keeps s (s.fopen q) := by
  obtain ⟨dirs, stream, on, id⟩ := s
  obtain rfl : on = q := hname
  cases on with
  | input =>
    refine ⟨h.input rfl, ?_⟩
    rw [Keeps]
    change Output.Grows _ ((⟨Function.update dirs .input ((dirs .input).create id),
      Function.update stream .input
        ⟨.input, some id, [], ⟨(stream .input).cp.id, ((dirs .input).bytes id).length⟩, .idle⟩,
      (.input, id)⟩ : Queues).output .analysis)
    rw [output_input h]
    exact Output.Grows.refl _
  | analysis =>
    have hpc : (stream .analysis).pc = .fopen := hpc
    obtain ⟨hfh, -⟩ := h.closed (by rw [hpc]; decide)
    have hfh : (stream .analysis).fh = none := hfh
    have hon : (stream .analysis).on = .analysis := h.on .analysis
    refine ⟨⟨fun q => ?_, fun _ => ?_, fun hp => absurd rfl hp⟩, fun k => ?_⟩
    · cases q with
      | input => exact h.on .input
      | analysis => rfl
    · exact ⟨id, Dir.mem_create _ _, rfl⟩
    · simp [Output.full, Queues.output, Queues.fopen, hfh, hon]

theorem spill_own (h : Own s) (q : Queue) (n : Nat) : Own (s.spill q n) ∧ Keeps s (s.spill q n) := by
  cases q with
  | input =>
    obtain ⟨hown, hout⟩ := put_input h ((s.output .input).spill n) (s.stream .input).pc
    refine ⟨hown, ?_⟩
    rw [Keeps, Queues.spill, hout]
    exact Output.Grows.refl _
  | analysis =>
    by_cases hpc : (s.stream .analysis).pc = .idle
    · have ho := h.isOpen hpc
      exact ⟨h.put (fun _ => Output.open_spill ho n) fun hp => absurd hpc hp, .put (Output.grows_spill ho n)⟩
    · -- a closed stream has nothing to hand over
      obtain ⟨hfh, hbuf⟩ := h.closed hpc
      have hsame : (s.output .analysis).spill n = s.output .analysis := by
        simp [Output.spill, Queues.output, hfh]
      rw [Queues.spill, hsame]
      exact ⟨h.put (fun hp => absurd hp hpc) fun _ => ⟨hfh, hbuf⟩, .put (Output.Grows.refl _)⟩

theorem fflush_own (h : Own s) (hpc : (s.stream .analysis).pc = .idle) :
    Own (s.fflush .analysis) ∧ Keeps s (s.fflush .analysis) := by
  have ho := h.isOpen hpc
  exact ⟨h.put (fun _ => Output.open_fflush ho) fun hp => absurd hpc hp, .put (Output.grows_fflush ho)⟩

end

/-! ## Runs -/

/-- The thread whose position was copied after the last flush. -/
def dirty : Pass → Set Nat
  | .flush i => {i}
  | _ => ∅

def durable (dirs : Queue → Dir) : Set (Injected Place) := {r | OnDisk dirs r.place}

structure Inv (s : Process) (l : List (Injected Place)) : Prop where
  own : Own s.queues
  inQueue : ∀ r ∈ l, r.place.1 = .analysis ∧ (s.queues.output .analysis).InQueue r.place.2
  positions : Positions s.threads s.stored s.persisted (dirty s.pass) (durable s.queues.dirs) l

section

variable {cfg : HsConfig} {varint : Nat → List UInt8} {threadCnt : Nat} {s s' : Process}
  {l : List (Injected Place)}

theorem durable_mono {q q' : Queues} (h : Own q) (h' : Own q') (hk : Keeps q q') :
    durable q.dirs ⊆ durable q'.dirs := by
  rintro r ⟨hon, hr⟩
  refine ⟨hon, ?_⟩
  rw [← dir_output h'] at *
  rw [← dir_output h] at hr
  exact Chunk.At.mono hr (hk _).2

/-- A step of the queues. -/
theorem queues_inv {queues : Queues} (holder : Option Nat) (hI : Inv s l) (hown : Own queues)
    (hk : Keeps s.queues queues) : Inv { s with queues := queues, holder := holder } l where
  own := hown
  inQueue r hr := ⟨(hI.inQueue r hr).1, (hI.inQueue r hr).2.mono hk⟩
  positions := hI.positions.grow (durable_mono hI.own hown hk)

theorem keeps_of_eq {q q' : Queues} (h : q'.output .analysis = q.output .analysis) : Keeps q q' := by
  rw [Keeps, h]
  exact Output.Grows.refl _

theorem pass_inv (hI : Inv s l) (h : s.passStep threadCnt = some s') : Inv s' l := by
  have hpos := hI.positions
  unfold Process.passStep at h
  cases hpass : s.pass with
  | idle =>
    rw [hpass] at hpos
    simp only [hpass, Option.some.injEq] at h
    subst h
    exact ⟨hI.own, hI.inQueue, hpos⟩
  | copy i =>
    rw [hpass] at hpos
    simp only [hpass] at h
    split at h
    · cases h
      exact ⟨hI.own, hI.inQueue, Positions.copy hpos i⟩
    · cases h
      exact ⟨hI.own, hI.inQueue, hpos⟩
  | flush i =>
    simp only [hpass, Option.ite_none_right_eq_some, Option.some.injEq] at h
    obtain ⟨hpc, rfl⟩ := h
    obtain ⟨hown, hk⟩ := fflush_own hI.own hpc
    refine ⟨hown, fun r hr => ⟨(hI.inQueue r hr).1, (hI.inQueue r hr).2.mono hk⟩,
      hpos.flush (durable_mono hI.own hown hk) fun r hr => ?_⟩
    obtain ⟨hon, hin⟩ := hI.inQueue r hr
    have hdisk := hin.fflush (hI.own.isOpen hpc)
    refine ⟨hon, ?_⟩
    rw [← dir_output hown]
    simpa [Output.OnDisk, Queues.output, Queues.fflush, Queues.put] using hdisk
  | persist =>
    rw [hpass] at hpos
    simp only [hpass, Option.some.injEq] at h
    subst h
    exact ⟨hI.own, hI.inQueue, Positions.persist hpos⟩

/-- A frame is recorded where it was written. -/
theorem inject_inv {i : Nat} {pb : List UInt8} (hI : Inv s l)
    (h : s.step cfg varint threadCnt (.inject i pb) = some s') :
    Inv s' (see varint s l (.inject i pb)) := by
  simp only [Process.step, Option.ite_none_right_eq_some, Option.some.injEq] at h
  obtain ⟨hpc, rfl⟩ := h
  obtain ⟨hown, hk, hin⟩ := append_analysis cfg hI.own hpc (frame varint pb)
  have hframe := queues_inv (if ((s.queues.append cfg .analysis (frame varint pb)).stream .analysis).pc =
    .idle then none else some i) hI hown hk
  simp only [see]
  cases hmsg : (s.threads i).msg with
  | none => exact hframe
  | some e =>
    refine ⟨hframe.own, fun r hr => ?_, hframe.positions.record hmsg _⟩
    rcases List.mem_cons.mp hr with rfl | hr
    · exact ⟨hI.own.on .analysis, hin⟩
    · exact hframe.inQueue r hr

theorem step_inv {e : Event} (hI : Inv s l) (hadm : Admits (s, l) e)
    (h : s.step cfg varint threadCnt e = some s') : Inv s' (see varint s l e) := by
  cases e with
  | find i e =>
    simp only [Process.step, Option.ite_none_right_eq_some, Option.some.injEq] at h
    obtain ⟨-, rfl⟩ := h
    exact ⟨hI.own, hI.inQueue, hI.positions.thread le_rfl fun e' he => by cases he; exact hadm⟩
  | reset i c =>
    simp only [Process.step, Option.ite_none_right_eq_some, Option.some.injEq] at h
    obtain ⟨-, rfl⟩ := h
    exact ⟨hI.own, hI.inQueue, hI.positions.thread hadm fun e' he => by cases he⟩
  | analyzed i =>
    simp only [Process.step] at h
    split at h
    · rename_i e he
      simp only [Option.ite_none_right_eq_some, Option.some.injEq] at h
      obtain ⟨-, rfl⟩ := h
      exact ⟨hI.own, hI.inQueue, hI.positions.analyzed he⟩
    · cases h
  | inject i pb => exact inject_inv hI h
  | injectInput pb =>
    simp only [Process.step, Option.ite_none_right_eq_some, Option.some.injEq] at h
    obtain ⟨-, rfl⟩ := h
    obtain ⟨hown, hout⟩ := append_input cfg hI.own (frame varint pb)
    exact queues_inv _ hI hown (keeps_of_eq hout)
  | format q =>
    simp only [Process.step, Option.ite_none_right_eq_some, Option.some.injEq] at h
    obtain ⟨hpc, rfl⟩ := h
    obtain ⟨hown, hout⟩ := format_own hI.own q hpc
    exact queues_inv _ hI hown (keeps_of_eq hout)
  | fopen q =>
    simp only [Process.step, Option.ite_none_right_eq_some, Option.some.injEq] at h
    obtain ⟨hpc, rfl⟩ := h
    obtain ⟨hown, hk⟩ := fopen_own hI.own hpc hadm
    exact queues_inv _ hI hown hk
  | spill q n =>
    cases h
    obtain ⟨hown, hk⟩ := spill_own hI.own q n
    exact queues_inv _ hI hown hk
  | pass => exact pass_inv hI h

theorem Inv.safe (hI : Inv s l) : Safe (s, l) :=
  fun _ hr _ hc hle => hI.positions.safe hr hc hle

end

theorem start_inv (dirs : Queue → Dir) (st : Nat → Option Checkpoint) (fqfn : Queue × Nat) :
    Inv (Process.start dirs st fqfn) [] := by
  refine ⟨⟨fun _ => rfl, fun _ => open_hsInitOutput (dirs .analysis), fun h => absurd rfl h⟩,
    fun r hr => absurd hr List.not_mem_nil, .start (fun i c hc => ?_) fun _ => rfl⟩
  have hc : st i = some c := hc
  simp [Process.start, hc]

/-- In every state of every run whose steps are admitted, what plugins injected for messages at or before
the persisted position of their thread is in the files of the analysis queue. -/
theorem analysis_safe (cfg : HsConfig) (varint : Nat → List UInt8) (threadCnt : Nat)
    (dirs : Queue → Dir) (st : Nat → Option Checkpoint) (fqfn : Queue × Nat) {es : List Event}
    (hadm : Runs.Meets (step cfg varint threadCnt) Admits (Process.start dirs st fqfn, []) es) :
    Runs.Always (step cfg varint threadCnt) Safe (Process.start dirs st fqfn, []) es := by
  refine Runs.Always.mono (P := fun s : State => Inv s.1 s.2) (fun _ hI => hI.safe) ?_
  refine Runs.always_of_meets (I := fun s : State => Inv s.1 s.2) (fun s e s' hI hc h => ?_)
    (start_inv dirs st fqfn) hadm
  obtain ⟨hs, hl⟩ := Runs.observe_some.mp h
  rw [hl]
  exact step_inv hI hc hs

/-- Both queues are empty, and one thread has a position from before. -/
def oneThread : Process :=
  Process.start (fun _ => ⟨[], fun _ => []⟩) (fun i => if i = 0 then some ⟨10, 500⟩ else none) (.input, 0)

/-- The thread is set back to the start of the queue and analyzes a message there. -/
def setBackRun : List Event := [.reset 0 ⟨0, 0⟩, .find 0 ⟨0, 100⟩, .inject 0 [1]]

theorem analysis_unsafe : ¬∀ cfg varint threadCnt dirs st fqfn es,
    Runs.Always (step cfg varint threadCnt) Safe (Process.start dirs st fqfn, []) es := by
  intro h
  obtain ⟨t, hrun, hrec, hpersisted, hbytes⟩ : ∃ t,
      Runs.run (step ⟨1024, 0, 0⟩ (fun n => [UInt8.ofNat n]) 1) (oneThread, []) setBackRun = some t ∧
        t.2 = [⟨0, ⟨0, 100⟩, .analysis, ⟨0, 0, [0x1e, 2, 8, 1, 0x1f, 1]⟩⟩] ∧
        t.1.persisted 0 = some ⟨10, 500⟩ ∧ (t.1.queues.dirs .analysis).bytes 0 = [] :=
    ⟨_, rfl, rfl, rfl, rfl⟩
  have hsafe := (h _ _ _ _ _ _ _).run hrun
  rw [Safe, hrec] at hsafe
  obtain ⟨-, hdisk⟩ := hsafe _ List.mem_cons_self _ hpersisted (by decide)
  simp only at hdisk
  rw [hbytes] at hdisk
  exact absurd hdisk (by decide)

/-- Both queues roll over, one after the other, and a pass comes after the message. -/
def rolledRun : List Event :=
  [.find 0 ⟨10, 600⟩, .inject 0 [1], .injectInput [1, 2], .format .analysis, .fopen .analysis,
    .format .input, .fopen .input, .inject 0 [2], .format .analysis, .fopen .analysis, .analyzed 0,
    .pass, .pass, .pass, .pass, .pass, .find 0 ⟨11, 40⟩]

theorem analysis_safe_rolled :
    Runs.Always (step ⟨5, 0, 0⟩ (fun n => [UInt8.ofNat n]) 1) Safe (oneThread, []) rolledRun := by
  refine analysis_safe _ _ _ _ _ _ ?_
  refine .cons rfl (by decide : (⟨10, 500⟩ : Checkpoint) < ⟨10, 600⟩) ?_
  refine .cons rfl trivial (.cons rfl trivial (.cons rfl trivial (.cons rfl rfl ?_)))
  refine .cons rfl trivial (.cons rfl rfl (.cons rfl trivial (.cons rfl trivial (.cons rfl rfl ?_))))
  refine .cons rfl trivial (.cons rfl trivial (.cons rfl trivial (.cons rfl trivial ?_)))
  refine .cons rfl trivial (.cons rfl trivial ?_)
  exact .cons rfl (by decide : (⟨10, 600⟩ : Checkpoint) < ⟨11, 40⟩) trivial

end AnalysisRollover

end Hindsight
