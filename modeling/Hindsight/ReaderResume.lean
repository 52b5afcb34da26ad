import Hindsight.Lib.Run
import Hindsight.QueueFeed

/-!
# Hindsight.ReaderResume

A reader thread on a directory that no writer changes: the loop of `input_thread` with the buffer,
one pass a step. Each delivered message leaves the checkpoint that is recorded for it,
`input.cp.offset - (readpos - scanpos)`.

* `Reading`: the invariant. The unscanned bytes start at a frame boundary, and what was delivered
  and what is ahead make up the messages from the start.
* `measure_step`: polls bring the reader closer to the last message.
* `resume_exact`: the recorded checkpoints are the ends of the messages, and a reader started at one
  of them delivers exactly the messages after it.
* `resume_fails`: a file with the largest id is not found behind a gap.
-/

namespace Hindsight

namespace ReaderResume

/-- A delivered message, with `input.cp` and `readpos - scanpos` as they are then. -/
structure Delivery where
  message : List UInt8
  cp : Checkpoint
  pending : Nat
  deriving DecidableEq, Repr

/-- The checkpoint that is recorded for the message. -/
def Delivery.recorded (x : Delivery) : Checkpoint := ⟨x.cp.id, sub64 x.cp.offset x.pending⟩

def Delivery.entry (x : Delivery) : List UInt8 × Checkpoint := (x.message, x.recorded)

structure Thread where
  reader : QueueReader
  ib : InputBuffer
  log : List Delivery
  deriving DecidableEq, Repr

/-- What a pass of the loop meets: the bytes `fread` returns at most, the time, and the checkpoint a
reset looks up. -/
structure Poll where
  chunk : Nat
  now : Nat
  lookup : Checkpoint
  deriving DecidableEq, Repr

section

variable (kind : ReaderKind) (outputSize : Nat) (L : SandboxLib) (d : Dir)

/-- `hs_read_file` with its buffer. -/
def readFile (s : Thread) (p : Poll) (ib : InputBuffer) : Thread :=
  let ib := L.expand ib ib.need
  let space := min (p.chunk + 1) (ib.size - ib.readpos)
  { s with
    reader := s.reader.readStep kind outputSize d space p.now
    ib := ib.append (hsReadFile d s.reader.input space).2 }

def deliver (s : Thread) (ib : InputBuffer) (pb : List UInt8) : Thread :=
  { s with
    ib := ib
    log := s.log ++ [⟨pb, s.reader.input.cp, sub64 ib.readpos ib.scanpos⟩] }

def pass (s : Thread) (p : Poll) : Thread :=
  match s.reader.pc with
  | .read =>
    if s.reader.input.fh = none then
      { s with reader := s.reader.openFirst kind d p.lookup p.now }
    else
      match (L.find s.ib).2 with
      | some pb => deliver s (L.find s.ib).1 pb
      | none => readFile kind outputSize L d s p (L.find s.ib).1
  | .openNext => { s with reader := s.reader.openNext kind outputSize d }
  | .findNext => { s with reader := s.reader.findNext d }
  | .openFound id => { s with reader := s.reader.openFound d id }

def step (s : Thread) (p : Poll) : Option Thread := some (pass kind outputSize L d s p)

/-- The output plugin's timer may keep a pass from polling. -/
def polls (s : Thread) (p : Poll) : Bool :=
  match s.reader.pc with
  | .read => s.reader.due kind p.now
  | _ => true

/-- A fresh reader at `c`. -/
def start (c : Checkpoint) : Thread := ⟨.init c, L.initBuffer, []⟩

end

open QueueContent

/-! ## The invariant -/

section

variable (L : SandboxLib) (d : Dir) (msgs : Nat → List (List UInt8)) (c₀ : Checkpoint)

/-- The first file is not open yet. -/
structure Opening (s : Thread) : Prop where
  input : s.reader.input = hsInitInput c₀
  pc : s.reader.pc = .read
  wait : s.reader.iwaitCnt = 0
  ib : s.ib = L.initBuffer
  log : s.log = []

/-- The reader is in a file of which it delivered `done`. -/
structure Reading (outputSize : Nat) (s : Thread) (c : Checkpoint)
    (done rest : List (List UInt8)) : Prop where
  input : s.reader.input = .opened c
  mem : c.id ∈ d.ids
  msgs_eq : msgs c.id = done ++ rest
  offset : c.offset = (L.frames done).length + s.ib.unscanned.length
  unscanned : s.ib.unscanned <+: L.frames rest
  ok : s.ib.Ok
  room : L.initBuffer.size ≤ s.ib.size
  known : ∀ pb ms, rest = pb :: ms → L.MayKnow s.ib pb
  unknown : rest = [] → s.ib.msglen = 0
  atEnd : s.reader.pc ≠ .read → rest = []
  missing : s.reader.pc = .findNext → c.id + 1 ∉ d.ids
  found : ∀ id, s.reader.pc = .openFound id →
    id ∈ d.ids ∧ c.id < id ∧ ∀ i ∈ d.ids, c.id < i → id ≤ i
  wait : s.reader.pc ≠ .findNext → s.reader.iwaitCnt ≤ 60
  next : s.reader.pc = .read → s.reader.next = true ∨ outputSize ≤ c.offset ∨ ∀ i ∈ d.ids, i ≤ c.id
  pending : ∀ x ∈ s.log, x.pending ≤ x.cp.offset
  log : s.log.map Delivery.entry ++
    (L.endPositions c.id (L.frames done).length rest ++ later L d msgs c.id) =
      deliveries L d msgs c₀

def Inv (outputSize : Nat) (s : Thread) : Prop :=
  Opening L c₀ s ∨ ∃ c done rest, Reading L d msgs c₀ outputSize s c done rest

end

section

variable {kind : ReaderKind} {outputSize : Nat} {L : SandboxLib} {d : Dir}
  {msgs : Nat → List (List UInt8)} {c₀ c : Checkpoint} {s : Thread}
  {done rest : List (List UInt8)}

theorem Inv.pending (h : Inv L d msgs c₀ outputSize s) : ∀ x ∈ s.log, x.pending ≤ x.cp.offset := by
  rcases h with h | ⟨c, done, rest, h⟩
  · rw [h.log]
    exact fun x hx => nomatch hx
  · exact h.pending

theorem Inv.log_initial (h : Inv L d msgs c₀ outputSize s) :
    s.log.map Delivery.entry <+: deliveries L d msgs c₀ := by
  rcases h with h | ⟨c, done, rest, h⟩
  · rw [h.log]
    exact List.nil_prefix
  · exact ⟨_, h.log⟩

/-- The file and the buffer of the reader. -/
theorem Reading.feed (h : Reading L d msgs c₀ outputSize s c done rest) (hw : Whole L d msgs) :
    Feed L d s.reader.input s.ib c.id (L.frames done).length rest := by
  refine ⟨?_, h.mem, ?_, fun pb hpb => ?_, h.unscanned, h.ok, h.room, h.known, h.unknown⟩
  · rw [h.input, ← h.offset]
  · rw [hw.bytes _ h.mem, h.msgs_eq, L.frames_append, List.drop_left]
  · refine hw.accepts c.id h.mem pb ?_
    rw [h.msgs_eq]
    exact List.mem_append_right _ hpb

/-- The reader is not past the end of its file. -/
theorem Reading.offset_le (h : Reading L d msgs c₀ outputSize s c done rest) (hw : Whole L d msgs) :
    c.offset ≤ (d.bytes c.id).length := by
  have hlen := h.unscanned.length_le
  rw [h.offset, hw.bytes _ h.mem, h.msgs_eq, L.frames_append, List.length_append]
  omega

theorem length_frames_concat (done : List (List UInt8)) (pb : List UInt8) :
    (L.frames (done ++ [pb])).length = (L.frames done).length + (frame L.varint pb).length := by
  rw [L.frames_append, List.length_append, L.frames_cons, L.frames_nil, List.append_nil]

theorem deliver_inv {pb : List UInt8} {ms : List (List UInt8)} {ib : InputBuffer}
    (h : Reading L d msgs c₀ outputSize s c done (pb :: ms)) (hw : Whole L d msgs)
    (hpc : s.reader.pc = .read)
    (hf : Feed L d s.reader.input ib c.id ((L.frames done).length + (frame L.varint pb).length) ms) :
    Reading L d msgs c₀ outputSize (deliver s ib pb) c (done ++ [pb]) ms := by
  have hdone := length_frames_concat (L := L) done pb
  have hcp : s.reader.input.cp = c := by rw [h.input]; rfl
  have hoff : c.offset = (L.frames (done ++ [pb])).length + ib.unscanned.length := by
    rw [hdone, ← hcp, hf.input]
    rfl
  have hpending : sub64 ib.readpos ib.scanpos = ib.unscanned.length := InputBuffer.sub64_scanpos hf.ok
  have hpc' : (deliver s ib pb).reader.pc = .read := hpc
  refine ⟨h.input, h.mem, by rw [h.msgs_eq, List.append_assoc]; rfl, hoff, hf.unscanned, hf.ok, hf.room,
    hf.known, hf.unknown, fun hn => absurd hpc' hn, fun hn => ?_, fun id hn => ?_, h.wait, h.next, ?_, ?_⟩
  · cases hpc'.symm.trans hn
  · cases hpc'.symm.trans hn
  · intro x hx
    rcases List.mem_append.mp hx with hx | hx
    · exact h.pending x hx
    · rw [List.mem_singleton.mp hx]
      change sub64 ib.readpos ib.scanpos ≤ s.reader.input.cp.offset
      rw [hpending, hcp]
      omega
  · have hstop : sub64 c.offset ib.unscanned.length =
        (L.frames done).length + (frame L.varint pb).length := by
      have hle := h.offset_le hw
      have hsize := hw.size _ h.mem
      have hmax : ullongMax = 2 ^ 64 - 1 := rfl
      rw [sub64_of_le (by omega) (by omega)]
      omega
    have hentry : Delivery.entry ⟨pb, s.reader.input.cp, sub64 ib.readpos ib.scanpos⟩ =
        (pb, ⟨c.id, (L.frames done).length + (frame L.varint pb).length⟩) := by
      simp only [Delivery.entry, Delivery.recorded, hcp, hpending, hstop]
    have hlog := h.log
    rw [SandboxLib.endPositions, ← hdone] at hlog
    rw [← hdone] at hentry
    simp only [deliver, List.map_append, List.map_cons, List.map_nil, hentry, List.append_assoc,
      List.singleton_append]
    exact hlog

/-- A read that finds no message adds the next bytes of the file to the buffer. One that returns
nothing found the end of the file. -/
theorem readFile_inv (kind : ReaderKind) (hL : L.Lawful) {ib : InputBuffer}
    (h : Reading L d msgs c₀ outputSize s c done rest) (hpc : s.reader.pc = .read)
    (hf : Feed L d s.reader.input ib c.id (L.frames done).length rest) (hs : Short L ib rest) (p : Poll) :
    ∃ bs : List UInt8, Reading L d msgs c₀ outputSize (readFile kind outputSize L d s p ib)
        ⟨c.id, c.offset + bs.length⟩ done rest ∧ (bs = [] → rest = []) ∧
      (readFile kind outputSize L d s p ib).reader.iwaitCnt = s.reader.iwaitCnt ∧
      ((readFile kind outputSize L d s p ib).reader.pc = .read ∧
          (bs = [] → (outputSize ≤ c.offset ∨ s.reader.next = true) →
            s.reader.due kind p.now = false) ∨
        (readFile kind outputSize L d s p ib).reader.pc = .openNext ∧ bs = []) := by
  obtain ⟨hf', -, hnil⟩ := hf.read hs hL (List.prefix_refl _) p.chunk
  obtain ⟨hin, hnext, hwait, hpc'⟩ := QueueReader.readStep_cases kind outputSize d h.input
    (min (p.chunk + 1) ((L.expand ib ib.need).size - (L.expand ib ib.need).readpos)) p.now
  have hbytes : (readInto L d s.reader.input ib p.chunk).2.2 = ((d.bytes c.id).drop c.offset).take
      (min (p.chunk + 1) ((L.expand ib ib.need).size - (L.expand ib ib.need).readpos)) := by
    rw [readInto, h.input]
    rfl
  have hib : (readFile kind outputSize L d s p ib).ib = (readInto L d s.reader.input ib p.chunk).2.1 := rfl
  have hreader : (readFile kind outputSize L d s p ib).reader = s.reader.readStep kind outputSize d
      (min (p.chunk + 1) ((L.expand ib ib.need).size - (L.expand ib ib.need).readpos)) p.now := rfl
  rw [← hreader, ← hbytes] at hin hpc'
  rw [← hreader] at hnext hwait
  generalize hbs : (readInto L d s.reader.input ib p.chunk).2.2 = bs at *
  have hinput : (readInto L d s.reader.input ib p.chunk).1 = .opened ⟨c.id, c.offset + bs.length⟩ := by
    rw [hbytes, readInto, h.input]
    rfl
  have hoff : c.offset + bs.length = (L.frames done).length +
      (readFile kind outputSize L d s p ib).ib.unscanned.length := by
    have := congrArg (fun i : HsInput => i.cp.offset) (hinput.symm.trans hf'.input)
    exact this
  have hend : bs = [] → rest = [] := fun hb => (hnil hb).2 rfl
  rw [hpc] at hpc'
  refine ⟨bs, ⟨hin, h.mem, h.msgs_eq, hoff, hf'.unscanned, hf'.ok, hf'.room, hf'.known, hf'.unknown,
    fun hn => ?_, fun hn => ?_, fun id hn => ?_, fun _ => ?_, fun _ => ?_, h.pending, h.log⟩, hend, hwait,
    hpc'⟩
  · rcases hpc' with ⟨hpc', -⟩ | ⟨-, hb⟩
    · exact absurd hpc' hn
    · exact hend hb
  · rcases hpc' with ⟨hpc', -⟩ | ⟨hpc', -⟩ <;> cases hpc'.symm.trans hn
  · rcases hpc' with ⟨hpc', -⟩ | ⟨hpc', -⟩ <;> cases hpc'.symm.trans hn
  · rw [hwait]
    exact h.wait (by simp [hpc])
  · rw [hnext]
    rcases h.next hpc with hn | hn | hn
    · exact .inl hn
    · exact .inr (.inl (hn.trans (Nat.le_add_right _ _)))
    · exact .inr (.inr hn)

/-- The reader goes on with the next file there is. -/
theorem Reading.move (h : Reading L d msgs c₀ outputSize s c done []) {r : QueueReader} {j : Nat}
    (hin : r.input = .opened ⟨j, 0⟩) (hpc : r.pc = .read) (hnext : r.next = true)
    (hwait : r.iwaitCnt ≤ 60) (hm : j ∈ d.ids) (hlt : c.id < j)
    (hleast : ∀ i ∈ d.ids, c.id < i → j ≤ i) :
    Reading L d msgs c₀ outputSize { s with reader := r } ⟨j, 0⟩ [] (msgs j) := by
  have hnil : s.ib.unscanned = [] := List.prefix_nil.mp h.unscanned
  have hlog := h.log
  rw [SandboxLib.endPositions, List.nil_append, later_next hm hlt hleast] at hlog
  refine ⟨hin, hm, rfl, ?_, ?_, h.ok, h.room, fun _ _ _ => .inl (h.unknown rfl),
    fun _ => h.unknown rfl, fun hn => absurd hpc hn, fun hn => ?_, fun id hn => ?_, fun _ => hwait,
    fun _ => .inl hnext, h.pending, hlog⟩
  · change 0 = 0 + s.ib.unscanned.length
    rw [hnil]
    rfl
  · change s.ib.unscanned <+: _
    rw [hnil]
    exact List.nil_prefix
  · cases hpc.symm.trans hn
  · cases hpc.symm.trans hn

/-- The reader stays where it is. -/
theorem Reading.stay (h : Reading L d msgs c₀ outputSize s c done []) {r : QueueReader}
    (hin : r.input = .opened c) (hmissing : r.pc = .findNext → c.id + 1 ∉ d.ids)
    (hfound : ∀ id, r.pc = .openFound id →
      id ∈ d.ids ∧ c.id < id ∧ ∀ i ∈ d.ids, c.id < i → id ≤ i)
    (hwait : r.pc ≠ .findNext → r.iwaitCnt ≤ 60)
    (hnext : r.pc = .read → outputSize ≤ c.offset ∨ ∀ i ∈ d.ids, i ≤ c.id) :
    Reading L d msgs c₀ outputSize { s with reader := r } c done [] :=
  ⟨hin, h.mem, h.msgs_eq, h.offset, h.unscanned, h.ok, h.room, h.known, h.unknown, fun _ => rfl,
    hmissing, hfound, hwait, fun hpc => .inr (hnext hpc), h.pending, h.log⟩

/-! ## Progress -/

/-- What the files after `id` may still cost. -/
def weight (d : Dir) (id : Nat) : Nat :=
  ((d.ids.filter (id < ·)).map fun i => (d.bytes i).length + 126).sum

/-- What may still pass before the next file is open. -/
def waiting (r : QueueReader) : Nat :=
  match r.pc with
  | .read => 2 * (61 - r.iwaitCnt) + 3
  | .openNext => 2 * (61 - r.iwaitCnt) + 2
  | .findNext => 1
  | .openFound _ => 0

/-- The bytes and files ahead of a reader. -/
def ahead (d : Dir) (c : Checkpoint) : Nat := (d.bytes c.id).length - c.offset + weight d c.id

variable (L d msgs c₀) in
def measure (s : Thread) : Nat :=
  (deliveries L d msgs c₀).length - s.log.length + ahead d s.reader.input.cp + waiting s.reader +
    if s.reader.input.fh = none then 1 else 0

theorem sum_filter_le (f : Nat → Nat) (ids : List Nat) {i j : Nat} (hij : i ≤ j) :
    ((ids.filter (j < ·)).map f).sum ≤ ((ids.filter (i < ·)).map f).sum := by
  induction ids with
  | nil => exact le_rfl
  | cons a ids ih =>
    simp only [List.filter_cons, decide_eq_true_eq]
    by_cases hj : j < a
    · rw [if_pos hj, if_pos (by omega), List.map_cons, List.map_cons, List.sum_cons,
        List.sum_cons]
      omega
    · rw [if_neg hj]
      split
      · rw [List.map_cons, List.sum_cons]
        omega
      · exact ih

theorem sum_filter_next (f : Nat → Nat) {ids : List Nat} {i j : Nat} (hj : j ∈ ids) (hij : i < j) :
    ((ids.filter (j < ·)).map f).sum + f j ≤ ((ids.filter (i < ·)).map f).sum := by
  induction ids with
  | nil => cases hj
  | cons a ids ih =>
    simp only [List.filter_cons, decide_eq_true_eq]
    rcases List.mem_cons.mp hj with rfl | hj
    · rw [if_neg (by omega), if_pos hij, List.map_cons, List.sum_cons]
      have := sum_filter_le f ids hij.le
      omega
    · have ih := ih hj
      by_cases ha : j < a
      · rw [if_pos ha, if_pos (by omega), List.map_cons, List.map_cons, List.sum_cons,
          List.sum_cons]
        omega
      · rw [if_neg ha]
        split
        · rw [List.map_cons, List.sum_cons]
          omega
        · exact ih

theorem ahead_next (d : Dir) {c : Checkpoint} {j : Nat} (hj : j ∈ d.ids) (hlt : c.id < j) :
    ahead d ⟨j, 0⟩ + 126 ≤ ahead d c := by
  have := sum_filter_next (fun i => (d.bytes i).length + 126) hj hlt
  simp only [ahead, weight]
  omega

theorem waiting_le (r : QueueReader) : waiting r ≤ 125 := by
  unfold waiting
  split <;> omega

/-- While messages are ahead and the file has none, there is a file after it. -/
theorem Reading.exists_next (h : Reading L d msgs c₀ outputSize s c done [])
    (hlt : s.log.length < (deliveries L d msgs c₀).length) : ∃ i ∈ d.ids, c.id < i := by
  by_contra hno
  push Not at hno
  have hlog := congrArg List.length h.log
  rw [SandboxLib.endPositions, later_nil hno, List.length_append, List.length_map] at hlog
  simp only [List.append_nil, List.length_nil] at hlog
  omega

theorem measure_reading (h : Reading L d msgs c₀ outputSize s c done rest) :
    measure L d msgs c₀ s =
      (deliveries L d msgs c₀).length - s.log.length + ahead d c + waiting s.reader := by
  rw [measure, h.input]
  rfl

/-- A pass keeps the invariant, and while messages are ahead it costs what it polls. -/
def Advances (kind : ReaderKind) (outputSize : Nat) (L : SandboxLib) (d : Dir)
    (msgs : Nat → List (List UInt8)) (c₀ : Checkpoint) (s : Thread) (p : Poll) : Prop :=
  Inv L d msgs c₀ outputSize (pass kind outputSize L d s p) ∧
    (s.log.length < (deliveries L d msgs c₀).length →
      measure L d msgs c₀ (pass kind outputSize L d s p) + (if polls kind s p then 1 else 0) ≤
        measure L d msgs c₀ s)

theorem pass_opening (hL : L.Lawful) (hc : Boundary L d msgs c₀) (h : Opening L c₀ s) (p : Poll) :
    Advances kind outputSize L d msgs c₀ s p := by
  obtain ⟨hid, done, rest, hmsgs, hoff⟩ := hc
  have hfh : s.reader.input.fh = none := by rw [h.input]; rfl
  have hpass : pass kind outputSize L d s p =
      { s with reader := s.reader.openFirst kind d p.lookup p.now } := by
    rw [pass, h.pc]
    exact if_pos hfh
  have hpolls : polls kind s p = s.reader.due kind p.now := by rw [polls, h.pc]
  rw [Advances, hpass, hpolls]
  cases hdue : s.reader.due kind p.now with
  | false =>
    have hsame : s.reader.openFirst kind d p.lookup p.now = s.reader := by
      simp only [QueueReader.openFirst, hdue, Bool.false_eq_true, if_false]
    rw [hsame]
    exact ⟨.inl h, fun _ => by simp⟩
  | true =>
    have heq := QueueReader.openFirst_eq kind h.input hid (by rw [h.wait]; omega)
      p.lookup p.now hdue
    have hpc : (s.reader.openFirst kind d p.lookup p.now).pc = .read := by
      rw [heq]
      exact (QueueReader.tick_pc p.now).trans h.pc
    have hin : (s.reader.openFirst kind d p.lookup p.now).input = .opened c₀ := by rw [heq]
    have hcnt : (s.reader.openFirst kind d p.lookup p.now).iwaitCnt = 0 := by rw [heq]
    have hnext : (s.reader.openFirst kind d p.lookup p.now).next = true := by rw [heq]
    have hr : Reading L d msgs c₀ outputSize
        { s with reader := s.reader.openFirst kind d p.lookup p.now } c₀ done rest := by
      have hib : s.ib.unscanned = [] := by rw [h.ib]; exact hL.init_empty
      have hm : s.ib.msglen = 0 := by rw [h.ib]; exact hL.init_msglen
      refine ⟨hin, hid, hmsgs, ?_, ?_, by rw [h.ib]; exact hL.init_ok, by rw [h.ib],
        fun _ _ _ => .inl hm, fun _ => hm, fun hn => absurd hpc hn,
        fun hn => (by cases hpc.symm.trans hn), fun id hn => (by cases hpc.symm.trans hn),
        fun _ => by rw [hcnt]; omega, fun _ => .inl hnext, ?_, ?_⟩
      · change c₀.offset = _ + s.ib.unscanned.length
        rw [hib, hoff, List.length_nil, Nat.add_zero]
      · change s.ib.unscanned <+: _
        rw [hib]
        exact List.nil_prefix
      · rw [h.log]
        exact fun x hx => absurd hx List.not_mem_nil
      · obtain ⟨id, offset⟩ := c₀
        simp only at hoff hmsgs
        subst hoff
        change s.log.map _ ++ _ = _
        rw [h.log, deliveries_boundary hmsgs]
        rfl
    refine ⟨.inr ⟨_, _, _, hr⟩, fun _ => ?_⟩
    have hw : waiting (s.reader.openFirst kind d p.lookup p.now) = waiting s.reader := by
      rw [waiting, waiting, hpc, h.pc, hcnt, h.wait]
    rw [measure_reading hr, measure, hfh, hw, h.input, if_pos rfl, if_pos rfl]
    exact le_rfl

theorem pass_read (hL : L.Lawful) (hw : Whole L d msgs)
    (h : Reading L d msgs c₀ outputSize s c done rest) (hpc : s.reader.pc = .read) (p : Poll) :
    Advances kind outputSize L d msgs c₀ s p := by
  have hfh : s.reader.input.fh ≠ none := by
    rw [h.input]
    exact nofun
  have hpolls : polls kind s p = s.reader.due kind p.now := by rw [polls, hpc]
  rcases (h.feed hw).find hL with ⟨pb, ms, hrest, hf, hfeed⟩ | ⟨hf, hfeed, hshort⟩
  · -- a message is delivered
    subst hrest
    have hpass : pass kind outputSize L d s p = deliver s (L.find s.ib).1 pb := by
      simp only [pass, hpc, hf, if_neg hfh]
    have hr := deliver_inv h hw hpc hfeed
    rw [Advances, hpass]
    refine ⟨.inr ⟨_, _, _, hr⟩, fun hlt => ?_⟩
    rw [measure_reading hr, measure_reading h]
    have hlen : (deliver s (L.find s.ib).1 pb).log.length = s.log.length + 1 :=
      List.length_append
    have hwait : waiting (deliver s (L.find s.ib).1 pb).reader = waiting s.reader := rfl
    rw [hlen, hwait]
    split <;> omega
  · -- more of the file is read
    have hpass : pass kind outputSize L d s p = readFile kind outputSize L d s p (L.find s.ib).1 := by
      simp only [pass, hpc, hf, if_neg hfh]
    obtain ⟨bs, hr, hend, hcnt, hpc'⟩ := readFile_inv kind hL h hpc hfeed hshort p
    have hmax : c.offset + bs.length ≤ (d.bytes c.id).length := hr.offset_le hw
    rw [Advances, hpass]
    refine ⟨.inr ⟨_, _, _, hr⟩, fun hlt => ?_⟩
    have hlog : (readFile kind outputSize L d s p (L.find s.ib).1).log = s.log := rfl
    rw [measure_reading hr, measure_reading h, hlog, hpolls]
    by_cases hnil : bs = []
    · have hahead : ahead d ⟨c.id, c.offset + bs.length⟩ = ahead d c := by
        rw [hnil]
        rfl
      rw [hahead]
      rcases hpc' with ⟨hpc', hdue⟩ | ⟨hpc', -⟩
      · -- nothing was read and the reader stays: the timer is shut
        have hrest := hend hnil
        subst hrest
        obtain ⟨i, hi, hci⟩ := h.exists_next hlt
        have hsize : outputSize ≤ c.offset ∨ s.reader.next = true := by
          rcases h.next hpc with hn | hn | hn
          · exact .inr hn
          · exact .inl hn
          · have := hn i hi
            omega
        have hwait : waiting (readFile kind outputSize L d s p (L.find s.ib).1).reader =
            waiting s.reader := by
          rw [waiting, waiting, hpc', hpc, hcnt]
        rw [hdue hnil hsize, hwait]
        simp
      · have hwait : waiting (readFile kind outputSize L d s p (L.find s.ib).1).reader + 1 =
            waiting s.reader := by
          rw [waiting, waiting, hpc', hpc, hcnt]
        split <;> omega
    · have hpos : 0 < bs.length := List.length_pos_iff.mpr hnil
      have hahead : ahead d ⟨c.id, c.offset + bs.length⟩ + 1 ≤ ahead d c := by
        simp only [ahead]
        omega
      have hwait : waiting (readFile kind outputSize L d s p (L.find s.ib).1).reader =
          waiting s.reader := by
        rcases hpc' with ⟨hpc', -⟩ | ⟨-, hb⟩
        · rw [waiting, waiting, hpc', hpc, hcnt]
        · exact absurd hb hnil
      rw [hwait]
      split <;> omega

theorem pass_openNext (h : Reading L d msgs c₀ outputSize s c done [])
    (hpc : s.reader.pc = .openNext) (p : Poll) : Advances kind outputSize L d msgs c₀ s p := by
  have hpass : pass kind outputSize L d s p =
      { s with reader := s.reader.openNext kind outputSize d } := by
    simp only [pass, hpc]
  have hpolls : polls kind s p = true := by simp only [polls, hpc]
  have hwait := h.wait (by simp [hpc])
  have hw : waiting s.reader = 2 * (61 - s.reader.iwaitCnt) + 2 := by rw [waiting, hpc]
  rw [Advances, hpass, hpolls, if_pos rfl]
  rcases QueueReader.openNext_cases kind outputSize d h.input with
    ⟨hm, hin, hpc', hnext, hcnt⟩ | ⟨hm, hin, hcnt, hpc'⟩
  · have hr := h.move hin hpc' hnext (hcnt.trans hwait) hm (Nat.lt_succ_self _) fun i _ hi => hi
    refine ⟨.inr ⟨_, _, _, hr⟩, fun _ => ?_⟩
    rw [measure_reading hr, measure_reading h]
    have := ahead_next d hm (Nat.lt_succ_self _)
    have := waiting_le (s.reader.openNext kind outputSize d)
    simp only
    omega
  · have hr : Reading L d msgs c₀ outputSize
        { s with reader := s.reader.openNext kind outputSize d } c done [] := by
      refine h.stay hin (fun _ => hm) (fun id hid => ?_) (fun hn => ?_) fun hn => ?_
      · rcases hpc' with ⟨hpc', -⟩ | hpc' <;> cases hpc'.symm.trans hid
      · rcases hpc' with ⟨-, hlt, -⟩ | hpc'
        · omega
        · exact absurd hpc' hn
      · rcases hpc' with ⟨-, -, hsize⟩ | hpc'
        · exact .inl hsize
        · cases hpc'.symm.trans hn
    refine ⟨.inr ⟨_, _, _, hr⟩, fun _ => ?_⟩
    rw [measure_reading hr, measure_reading h, hw]
    have hw' : waiting (s.reader.openNext kind outputSize d) + 1 ≤
        2 * (61 - s.reader.iwaitCnt) + 2 := by
      rcases hpc' with ⟨hpc', hlt, -⟩ | hpc' <;> rw [waiting, hpc'] <;> simp only <;> omega
    simp only
    omega

theorem pass_findNext (hid : ∀ id ∈ d.ids, id < ullongMax)
    (h : Reading L d msgs c₀ outputSize s c done []) (hpc : s.reader.pc = .findNext) (p : Poll) :
    Advances kind outputSize L d msgs c₀ s p := by
  have hpass : pass kind outputSize L d s p = { s with reader := s.reader.findNext d } := by
    simp only [pass, hpc]
  have hpolls : polls kind s p = true := by simp only [polls, hpc]
  have hw : waiting s.reader = 1 := by rw [waiting, hpc]
  -- a file after this one is found, and it is not the next id
  have hfind : ∀ i ∈ d.ids, c.id < i → ¬hsFindNextId d c.id ≤ c.id + 1 := by
    intro i hi hci hle
    obtain ⟨hm, hgt, -⟩ := hsFindNextId_spec c.id (hsFindNextId_ne_zero c.id hi hci (hid i hi))
    have heq : hsFindNextId d c.id = c.id + 1 := by omega
    exact h.missing hpc (heq ▸ hm)
  rw [Advances, hpass, hpolls, if_pos rfl]
  obtain ⟨hin, hcnt, hpc'⟩ := QueueReader.findNext_cases d h.input
  have hr : Reading L d msgs c₀ outputSize { s with reader := s.reader.findNext d } c done [] := by
    refine h.stay hin (fun hn => ?_) (fun id hn => ?_) (fun _ => ?_) fun hn => .inr fun i hi => ?_
    · exact h.missing hpc
    · rcases hpc' with ⟨hpc', -⟩ | ⟨id', hpc', hm, hgt, hleast⟩
      · cases hpc'.symm.trans hn
      · cases hpc'.symm.trans hn
        exact ⟨hm, by omega, hleast⟩
    · rw [hcnt]
      omega
    · rcases hpc' with ⟨-, hle⟩ | ⟨id', hpc', -⟩
      · by_contra hlt
        exact hfind i hi (by omega) hle
      · cases hpc'.symm.trans hn
  refine ⟨.inr ⟨_, _, _, hr⟩, fun hlt => ?_⟩
  obtain ⟨i, hi, hci⟩ := h.exists_next hlt
  rcases hpc' with ⟨-, hle⟩ | ⟨id', hpc', -⟩
  · exact absurd hle (hfind i hi hci)
  · have hw' : waiting (s.reader.findNext d) = 0 := by rw [waiting, hpc']
    rw [measure_reading hr, measure_reading h, hw, hw']

theorem pass_openFound (h : Reading L d msgs c₀ outputSize s c done []) {id : Nat}
    (hpc : s.reader.pc = .openFound id) (p : Poll) : Advances kind outputSize L d msgs c₀ s p := by
  have hpass : pass kind outputSize L d s p = { s with reader := s.reader.openFound d id } := by
    simp only [pass, hpc]
  have hpolls : polls kind s p = true := by simp only [polls, hpc]
  obtain ⟨hm, hlt, hleast⟩ := h.found id hpc
  have heq := QueueReader.openFound_eq h.input hm (show c.id ≠ id by omega)
  have hr := h.move (congrArg QueueReader.input heq) (congrArg QueueReader.pc heq)
    (congrArg QueueReader.next heq)
    ((congrArg QueueReader.iwaitCnt heq).le.trans (h.wait (by simp [hpc]))) hm hlt hleast
  rw [Advances, hpass, hpolls, if_pos rfl]
  refine ⟨.inr ⟨_, _, _, hr⟩, fun _ => ?_⟩
  rw [measure_reading hr, measure_reading h]
  have := ahead_next d hm hlt
  have := waiting_le (s.reader.openFound d id)
  simp only
  omega

theorem pass_advances (hL : L.Lawful) (hw : Whole L d msgs) (hid : ∀ id ∈ d.ids, id < ullongMax)
    (hc : Boundary L d msgs c₀) (h : Inv L d msgs c₀ outputSize s) (p : Poll) :
    Advances kind outputSize L d msgs c₀ s p := by
  rcases h with h | ⟨c, done, rest, h⟩
  · exact pass_opening hL hc h p
  · cases hpc : s.reader.pc with
    | read => exact pass_read hL hw h hpc p
    | openNext =>
      obtain rfl := h.atEnd (by simp [hpc])
      exact pass_openNext h hpc p
    | findNext =>
      obtain rfl := h.atEnd (by simp [hpc])
      exact pass_findNext hid h hpc p
    | openFound id =>
      obtain rfl := h.atEnd (by simp [hpc])
      exact pass_openFound h hpc p

end

/-! ## Runs -/

section

variable {kind : ReaderKind} {outputSize : Nat} {L : SandboxLib} {d : Dir}
  {msgs : Nat → List (List UInt8)} {c : Checkpoint}

theorem inv_start (c : Checkpoint) : Inv L d msgs c outputSize (start L c) :=
  .inl ⟨rfl, rfl, rfl, rfl, rfl⟩

theorem step_eq {s s' : Thread} {p : Poll} (h : step kind outputSize L d s p = some s') :
    s' = pass kind outputSize L d s p := (Option.some.inj h).symm

theorem log_pass (s : Thread) (p : Poll) : s.log <+: (pass kind outputSize L d s p).log := by
  unfold pass
  split
  · split
    · exact List.prefix_refl _
    · split
      · exact List.prefix_append _ _
      · exact List.prefix_refl _
  · exact List.prefix_refl _
  · exact List.prefix_refl _
  · exact List.prefix_refl _

/-- Passes that poll beyond this deliver everything from `c` on. -/
def pollBound (L : SandboxLib) (d : Dir) (msgs : Nat → List (List UInt8)) (c : Checkpoint) : Nat :=
  (deliveries L d msgs c).length + ahead d c + 126

theorem measure_start (c : Checkpoint) :
    measure L d msgs c (start L c) = pollBound L d msgs c := by
  have hw : waiting (start L c).reader = 125 := rfl
  have hfh : (start L c).reader.input.fh = none := rfl
  have hcp : (start L c).reader.input.cp = c := rfl
  have hlog : (start L c).log.length = 0 := rfl
  rw [measure, hw, hfh, hcp, hlog, if_pos rfl, pollBound]
  omega

theorem run_inv (hL : L.Lawful) (hw : Whole L d msgs) (hid : ∀ id ∈ d.ids, id < ullongMax)
    (hc : Boundary L d msgs c) {ps : List Poll} {s : Thread}
    (hrun : Runs.run (step kind outputSize L d) (start L c) ps = some s) :
    Inv L d msgs c outputSize s := by
  refine Runs.run_invariant (I := Inv L d msgs c outputSize) (fun s p s' h hs => ?_)
    (inv_start c) hrun
  rw [step_eq hs]
  exact (pass_advances hL hw hid hc h p).1

/-- After enough polls everything is delivered. -/
theorem run_complete (hL : L.Lawful) (hw : Whole L d msgs) (hid : ∀ id ∈ d.ids, id < ullongMax)
    (hc : Boundary L d msgs c) {ps : List Poll} {s : Thread}
    (hrun : Runs.run (step kind outputSize L d) (start L c) ps = some s)
    (hpolls : pollBound L d msgs c <
      Runs.count (step kind outputSize L d) (polls kind) (start L c) ps) :
    s.log.map Delivery.entry = deliveries L d msgs c := by
  have hlen : (deliveries L d msgs c).length ≤ s.log.length := by
    refine Runs.of_count (I := Inv L d msgs c outputSize)
      (P := fun s => (deliveries L d msgs c).length ≤ s.log.length) (μ := measure L d msgs c)
      (fun s p s' h hs => ?_) (fun s p s' _ hs hP => ?_) (fun s p s' h hs hP => ?_) (inv_start c)
      hrun (by rw [measure_start]; exact hpolls)
    · rw [step_eq hs]
      exact (pass_advances hL hw hid hc h p).1
    · rw [step_eq hs]
      exact hP.trans (log_pass s p).length_le
    · rw [step_eq hs]
      exact (pass_advances hL hw hid hc h p).2 (Nat.lt_of_not_le hP)
  exact (run_inv hL hw hid hc hrun).log_initial.eq_of_length_le (by rw [List.length_map]; exact hlen)

/-- The checkpoint recorded with the `k`-th message is the end of that message, and a reader
started there, with any options, delivers the messages after it in order, all of them after enough
polls. -/
theorem resume_exact (hL : L.Lawful) (hw : Whole L d msgs) (hid : ∀ id ∈ d.ids, id < ullongMax)
    (hc : Boundary L d msgs c) {ps : List Poll} {s : Thread}
    (hrun : Runs.run (step kind outputSize L d) (start L c) ps = some s) {k : Nat} {x : Delivery}
    (hx : s.log[k]? = some x) :
    x.pending ≤ x.cp.offset ∧ (deliveries L d msgs c)[k]? = some (x.message, x.recorded) ∧
      ∀ kind' outputSize' qs t,
        Runs.run (step kind' outputSize' L d) (start L x.recorded) qs = some t →
        t.log.map Delivery.entry <+: (deliveries L d msgs c).drop (k + 1) ∧
          (pollBound L d msgs x.recorded <
              Runs.count (step kind' outputSize' L d) (polls kind') (start L x.recorded) qs →
            t.log.map Delivery.entry = (deliveries L d msgs c).drop (k + 1)) := by
  have hinv := run_inv hL hw hid hc hrun
  have hentry : (deliveries L d msgs c)[k]? = some (x.message, x.recorded) := by
    obtain ⟨rest, hrest⟩ := hinv.log_initial
    have hk : (s.log.map Delivery.entry)[k]? = some x.entry := by
      rw [List.getElem?_map, hx, Option.map_some]
    have hlt : k < (s.log.map Delivery.entry).length := (List.getElem?_eq_some_iff.mp hk).1
    rw [← hrest, List.getElem?_append_left hlt]
    exact hk
  obtain ⟨hb, hafter⟩ := boundary_of_delivery hc hentry
  refine ⟨hinv.pending x (List.mem_of_getElem? hx), hentry, fun kind' outputSize' qs t ht => ?_⟩
  rw [← hafter]
  exact ⟨(run_inv hL hw hid hb ht).log_initial, run_complete hL hw hid hb ht⟩

end

/-! ## A small library -/

/-- Messages of less than 128 bytes, the length of which takes one byte. -/
def smallLib : SandboxLib where
  maxsize := 385
  varint n := [UInt8.ofNat n]
  accepts pb := pb.length < 128
  initBuffer := ⟨[], 258, 0, 0⟩
  find ib :=
    match ib.unscanned with
    | rs :: _ :: tag :: n :: us :: t =>
      if rs = 30 ∧ tag = 8 ∧ us = 31 then
        if n.toNat ≤ t.length then
          ({ ib with scanpos := ib.scanpos + (5 + n.toNat), msglen := 0 }, some (t.take n.toNat))
        else ({ ib with msglen := n.toNat }, none)
      else (ib, none)
    | _ => (ib, none)
  expand ib n :=
    if ib.unscanned.length + n ≤ max ib.size 385 then
      { ib with buf := ib.unscanned, scanpos := 0, size := max ib.size (ib.unscanned.length + n) }
    else ib

theorem smallLib_frame (pb : List UInt8) :
    frame smallLib.varint pb = 30 :: 2 :: 8 :: UInt8.ofNat pb.length :: 31 :: pb := rfl

theorem smallLib_length {pb : List UInt8} (h : smallLib.accepts pb) :
    (UInt8.ofNat pb.length).toNat = pb.length := by
  have : pb.length < 128 := h
  rw [UInt8.toNat_ofNat', Nat.mod_eq_of_lt (by omega)]

theorem smallLib_find_short {ib : InputBuffer} (h : ib.unscanned.length < 5) :
    smallLib.find ib = (ib, none) := by
  simp only [smallLib]
  split
  · rename_i hu
    rw [hu] at h
    simp only [List.length_cons] at h
    omega
  · rfl

theorem smallLib_find {ib : InputBuffer} {n : UInt8} {t : List UInt8}
    (h : ib.unscanned = 30 :: 2 :: 8 :: n :: 31 :: t) :
    smallLib.find ib =
      if n.toNat ≤ t.length then
        ({ ib with scanpos := ib.scanpos + (5 + n.toNat), msglen := 0 }, some (t.take n.toNat))
      else ({ ib with msglen := n.toNat }, none) := by
  simp only [smallLib, h, true_and, if_true]

theorem smallLib_expand {ib : InputBuffer} {n : Nat} (h : ib.unscanned.length + n ≤ max ib.size 385) :
    smallLib.expand ib n =
      { ib with buf := ib.unscanned, scanpos := 0, size := max ib.size (ib.unscanned.length + n) } :=
  if_pos h

theorem smallLib_lawful : smallLib.Lawful where
  max_lt := by decide
  length_byte pb _ := by simp [smallLib]
  frame_fits pb hacc := by
    have hlen : pb.length < 128 := hacc
    have hmax : smallLib.maxsize = 385 := rfl
    rw [smallLib_frame]
    simp only [List.length_cons]
    omega
  init_ok := ⟨Nat.zero_le _, Nat.zero_le _, by decide⟩
  init_empty := rfl
  init_msglen := rfl
  init_room pb _ := by simp [smallLib, SandboxLib.headerLength]
  find_empty ib hok hu hm := by
    rw [smallLib_find_short (by rw [hu]; decide)]
    exact ⟨rfl, ⟨hu, hok, le_rfl⟩, hm⟩
  find_whole ib pb rest hacc hok _ hu := by
    have hn := smallLib_length hacc
    have hlen := ib.length_unscanned
    rw [smallLib_frame] at hu
    have hu : ib.unscanned = 30 :: 2 :: 8 :: UInt8.ofNat pb.length :: 31 :: (pb ++ rest) := hu
    have hfind := smallLib_find hu
    rw [hn, if_pos (by simp), List.take_left] at hfind
    rw [hfind]
    refine ⟨rfl, ⟨?_, ?_, le_rfl⟩, rfl⟩
    · change ib.buf.drop (ib.scanpos + (5 + pb.length)) = rest
      rw [← List.drop_drop, ← InputBuffer.unscanned, hu, Nat.add_comm 5]
      simp
    · rw [hu] at hlen
      simp only [List.length_cons, List.length_append] at hlen
      obtain ⟨h1, h2⟩ := hok
      refine ⟨?_, h2⟩
      change ib.scanpos + (5 + pb.length) ≤ ib.readpos
      omega
  find_part ib pb hacc hok hmay _ hpre hne := by
    have hn := smallLib_length hacc
    have hhdr : smallLib.headerLength pb = 5 := rfl
    rw [smallLib_frame] at hpre hne
    by_cases hlt : ib.unscanned.length < 5
    · rw [smallLib_find_short hlt]
      refine ⟨rfl, ⟨rfl, hok, le_rfl⟩, ?_⟩
      rw [SandboxLib.KnowsLength, hhdr]
      change ib.msglen = if 5 ≤ ib.unscanned.length then pb.length else 0
      rw [if_neg (by omega)]
      rcases hmay with hm | ⟨hm, -⟩
      · exact hm
      · rw [hhdr] at hm
        omega
    · obtain ⟨rest, hrest⟩ := hpre
      obtain ⟨t, ht⟩ : ∃ t, ib.unscanned = 30 :: 2 :: 8 :: UInt8.ofNat pb.length :: 31 :: t := by
        have htake : ib.unscanned.take 5 = [30, 2, 8, UInt8.ofNat pb.length, 31] := by
          have := congrArg (List.take 5) hrest
          rwa [List.take_append_of_le_length (by omega)] at this
        exact ⟨ib.unscanned.drop 5,
          (List.take_append_drop 5 ib.unscanned).symm.trans (by rw [htake]; rfl)⟩
      rw [ht] at hrest hne
      have hpb : t ++ rest = pb := by simpa using hrest
      have hlt' : t.length < pb.length := by
        rw [← hpb, List.length_append]
        have : rest ≠ [] := by
          rintro rfl
          rw [List.append_nil] at hpb
          exact hne (by rw [hpb])
        have := List.length_pos_iff.mpr this
        omega
      have hfind := smallLib_find ht
      rw [hn, if_neg (by omega)] at hfind
      rw [hfind]
      refine ⟨rfl, ⟨rfl, hok, le_rfl⟩, ?_⟩
      rw [SandboxLib.KnowsLength, hhdr]
      change pb.length = if 5 ≤ ib.unscanned.length then pb.length else 0
      rw [if_pos (by omega)]
  expand ib n hok hn := by
    have hsize := hok.2.2
    have hmax : smallLib.maxsize = 385 := rfl
    rw [hmax] at hn
    rw [smallLib_expand hn]
    refine ⟨⟨rfl, ⟨Nat.zero_le _, ?_, ?_⟩, Nat.le_max_left _ _⟩, rfl, ?_⟩
    · change ib.unscanned.length ≤ max ib.size (ib.unscanned.length + n)
      omega
    · change max ib.size (ib.unscanned.length + n) < 2 ^ 63
      omega
    · change n ≤ max ib.size (ib.unscanned.length + n) - ib.unscanned.length
      omega

theorem smallLib_expand_same {ib : InputBuffer} (hok : ib.Ok) (n : Nat) :
    (smallLib.expand ib n).Ok ∧ (smallLib.expand ib n).unscanned = ib.unscanned := by
  by_cases hn : ib.unscanned.length + n ≤ max ib.size 385
  · have hholds := (smallLib_lawful.expand ib n hok hn).1
    exact ⟨hholds.ok, hholds.unscanned⟩
  · have hsame : smallLib.expand ib n = ib := if_neg hn
    rw [hsame]
    exact ⟨hok, rfl⟩

/-- Files 5 and 7 with three messages. -/
def smallMsgs (id : Nat) : List (List UInt8) := if id = 5 then [[1], [2, 3]] else [[4]]

def smallDir (last : Nat) : Dir := ⟨[5, last], fun id => smallLib.frames (smallMsgs id)⟩

theorem smallDir_whole (last : Nat) : Whole smallLib (smallDir last) smallMsgs where
  bytes id hid := if_pos hid
  size id hid := by
    rw [Dir.bytes, if_pos hid]
    change (smallLib.frames (smallMsgs id)).length < 2 ^ 63
    unfold smallMsgs
    split <;> decide
  accepts id _ pb hpb := by
    change pb.length < 128
    unfold smallMsgs at hpb
    split at hpb <;> simp at hpb <;> rcases hpb with rfl | rfl <;> decide

theorem smallDir_boundary (last : Nat) : Boundary smallLib (smallDir last) smallMsgs ⟨5, 0⟩ :=
  ⟨List.mem_cons_self, [], smallMsgs 5, rfl, rfl⟩

/-- Passes with reads of three bytes, one a second. -/
def smallPolls (n : Nat) : List Poll := (List.range n).map fun i => ⟨2, i + 1, ⟨0, 0⟩⟩

/-- The first message is recorded at offset 6, and from there come the two others. -/
theorem resume_exact_small :
    deliveries smallLib (smallDir 7) smallMsgs ⟨5, 0⟩ =
        [([1], ⟨5, 6⟩), ([2, 3], ⟨5, 13⟩), ([4], ⟨7, 6⟩)] ∧
      ∀ qs t, Runs.run (step .output 100 smallLib (smallDir 7)) (start smallLib ⟨5, 6⟩) qs = some t →
        t.log.map Delivery.entry <+: [([2, 3], ⟨5, 13⟩), ([4], ⟨7, 6⟩)] := by
  have hd : deliveries smallLib (smallDir 7) smallMsgs ⟨5, 0⟩ =
      [([1], ⟨5, 6⟩), ([2, 3], ⟨5, 13⟩), ([4], ⟨7, 6⟩)] := by decide
  obtain ⟨s, hrun, hx⟩ : ∃ s, Runs.run (step .analysis 100 smallLib (smallDir 7))
      (start smallLib ⟨5, 0⟩) (smallPolls 6) = some s ∧ s.log[0]? = some ⟨[1], ⟨5, 6⟩, 0⟩ :=
    ⟨_, rfl, by decide⟩
  obtain ⟨-, -, h⟩ := resume_exact smallLib_lawful (smallDir_whole 7) (by decide)
    (smallDir_boundary 7) hrun hx
  refine ⟨hd, fun qs t ht => ?_⟩
  have := (h .output 100 qs t ht).1
  rw [hd] at this
  exact this

/-! ## The largest id -/

section

variable {outputSize : Nat} {L : SandboxLib} {d : Dir} {c : Checkpoint}

/-- The reader delivered messages of file `id` only, and is there. -/
def Stays (c : Checkpoint) (s : Thread) : Prop :=
  (s.reader.input = hsInitInput c ∧ s.reader.pc = .read ∧ s.reader.iwaitCnt = 0 ∨
    (∃ c', s.reader.input = .opened c' ∧ c'.id = c.id) ∧ ∀ j, s.reader.pc ≠ .openFound j) ∧
    ∀ x ∈ s.log, x.cp.id = c.id

/-- With no next id to be found the analysis thread stays in its file. -/
theorem stays_pass (hm : c.id ∈ d.ids) (hnext : c.id + 1 ∉ d.ids) (hfind : hsFindNextId d c.id = 0)
    {s : Thread} (h : Stays c s) (p : Poll) : Stays c (pass .analysis outputSize L d s p) := by
  obtain ⟨⟨hin, hpc, hcnt⟩ | ⟨⟨c', hin, hc'⟩, hnf⟩, hlog⟩ := h
  · have hfh : s.reader.input.fh = none := by rw [hin]; rfl
    have hpass : pass .analysis outputSize L d s p =
        { s with reader := s.reader.openFirst .analysis d p.lookup p.now } := by
      rw [pass, hpc]
      exact if_pos hfh
    have heq := QueueReader.openFirst_eq .analysis hin hm (by rw [hcnt]; omega)
      p.lookup p.now rfl
    rw [hpass, heq]
    refine ⟨.inr ⟨⟨c, rfl, rfl⟩, fun j hj => ?_⟩, hlog⟩
    cases hpc.symm.trans hj
  · have hfh : s.reader.input.fh ≠ none := by
      rw [hin]
      exact nofun
    unfold pass
    cases hpc : s.reader.pc with
    | read =>
      simp only [if_neg hfh]
      cases (L.find s.ib).2 with
      | some pb =>
        refine ⟨.inr ⟨⟨c', hin, hc'⟩, hnf⟩, fun x hx => ?_⟩
        rcases List.mem_append.mp hx with hx | hx
        · exact hlog x hx
        · rw [List.mem_singleton.mp hx]
          change s.reader.input.cp.id = c.id
          rw [hin]
          exact hc'
      | none =>
        obtain ⟨hin', -, -, hpc'⟩ := QueueReader.readStep_cases .analysis outputSize d hin
          (min (p.chunk + 1) ((L.expand (L.find s.ib).1 (L.find s.ib).1.need).size -
            (L.expand (L.find s.ib).1 (L.find s.ib).1.need).readpos)) p.now
        refine ⟨.inr ⟨⟨_, hin', hc'⟩, fun j hj => ?_⟩, hlog⟩
        rcases hpc' with ⟨hpc', -⟩ | ⟨hpc', -⟩
        · exact hnf j (hpc'.symm.trans hj)
        · cases hpc'.symm.trans hj
    | openNext =>
      rcases QueueReader.openNext_cases .analysis outputSize d hin with
        ⟨hm', -⟩ | ⟨-, hin', -, hpc'⟩
      · exact absurd (hc' ▸ hm') hnext
      · refine ⟨.inr ⟨⟨c', hin', hc'⟩, fun j hj => ?_⟩, hlog⟩
        rcases hpc' with ⟨hpc', -⟩ | hpc' <;> cases hpc'.symm.trans hj
    | findNext =>
      have hid : s.reader.input.cp.id = c.id := by
        rw [hin]
        exact hc'
      refine ⟨.inr ⟨⟨c', hin, hc'⟩, fun j hj => ?_⟩, hlog⟩
      simp [QueueReader.findNext, hid, hfind] at hj
    | openFound id => exact absurd hpc (hnf id)

theorem stays_run (hm : c.id ∈ d.ids) (hnext : c.id + 1 ∉ d.ids) (hfind : hsFindNextId d c.id = 0)
    {ps : List Poll} {s : Thread}
    (hrun : Runs.run (step .analysis outputSize L d) (start L c) ps = some s) : Stays c s := by
  refine Runs.run_invariant (I := Stays c) (fun s p s' h hs => ?_)
    ⟨.inl ⟨rfl, rfl, rfl⟩, fun _ hx => absurd hx List.not_mem_nil⟩ hrun
  rw [step_eq hs]
  exact stays_pass hm hnext hfind h p

theorem count_analysis (s : Thread) (ps : List Poll) :
    Runs.count (step .analysis outputSize L d) (polls .analysis) s ps = ps.length := by
  induction ps generalizing s with
  | nil => rfl
  | cons p ps ih =>
    have hpolls : polls .analysis s p = true := by
      unfold polls
      split <;> rfl
    simp only [Runs.count, step, hpolls, if_true, ih, List.length_cons]
    omega

theorem run_total (outputSize : Nat) (s : Thread) (ps : List Poll) :
    ∃ t, Runs.run (step .analysis outputSize L d) s ps = some t := by
  induction ps generalizing s with
  | nil => exact ⟨s, rfl⟩
  | cons p ps ih => exact ih _

end

/-- A file `18446744073709551615.log` behind a gap is never found: that id stands for no file. -/
theorem resume_fails :
    ¬∀ (L : SandboxLib) (d : Dir) (msgs : Nat → List (List UInt8)) (kind : ReaderKind)
      (outputSize : Nat) (c : Checkpoint), L.Lawful → Whole L d msgs → Boundary L d msgs c →
      ∀ ps s, Runs.run (step kind outputSize L d) (start L c) ps = some s →
      ∀ k x, s.log[k]? = some x → ∃ n, ∀ qs t,
        Runs.run (step kind outputSize L d) (start L x.recorded) qs = some t →
        n < Runs.count (step kind outputSize L d) (polls kind) (start L x.recorded) qs →
        t.log.map Delivery.entry = (deliveries L d msgs c).drop (k + 1) := by
  intro h
  obtain ⟨s, hrun, hx⟩ : ∃ s, Runs.run (step .analysis 100 smallLib (smallDir ullongMax))
      (start smallLib ⟨5, 0⟩) (smallPolls 6) = some s ∧ s.log[0]? = some ⟨[1], ⟨5, 6⟩, 0⟩ :=
    ⟨_, rfl, by decide⟩
  obtain ⟨n, hn⟩ := h smallLib (smallDir ullongMax) smallMsgs .analysis 100 ⟨5, 0⟩ smallLib_lawful
    (smallDir_whole _) (smallDir_boundary _) _ s hrun 0 _ hx
  obtain ⟨t, ht⟩ := run_total 100 (L := smallLib) (d := smallDir ullongMax)
    (start smallLib ⟨5, 6⟩) (smallPolls (n + 1))
  have hlog := hn _ t ht (by
    rw [count_analysis]
    simp [smallPolls])
  have hstays := (stays_run (c := ⟨5, 6⟩) List.mem_cons_self (by decide) (by decide) ht).2
  -- the message of the last file is due
  have hdue : ([4], ⟨ullongMax, 6⟩) ∈
      (deliveries smallLib (smallDir ullongMax) smallMsgs ⟨5, 0⟩).drop 1 := by
    have hlater : later smallLib (smallDir ullongMax) smallMsgs 5 =
        smallLib.endPositions ullongMax 0 (smallMsgs ullongMax) ++
          later smallLib (smallDir ullongMax) smallMsgs ullongMax :=
      later_next (by decide) (by decide) (by decide)
    rw [deliveries, hlater]
    decide
  rw [← hlog] at hdue
  obtain ⟨x, hx, hentry⟩ := List.mem_map.mp hdue
  have hid : x.cp.id = ullongMax := congrArg (fun e => e.2.id) hentry
  have := hstays x hx
  rw [hid] at this
  exact absurd this (by decide)

end ReaderResume

end Hindsight
