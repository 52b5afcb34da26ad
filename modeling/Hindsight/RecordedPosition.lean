import Hindsight.ByteOrigins
import Hindsight.CliThread

/-!
# Hindsight.RecordedPosition

The checkpoint a reader records for a message, whatever the queue files hold. In the service the directory
may change between any two passes of the loop; in the `HINDSIGHT_CLI` build it grows as bytes arrive. An
observer traces every byte in the buffer to the place where it was read.

* `Safe`: each recorded checkpoint is the end of the message in the file that all of it was read from, and
  the subtraction that gives it does not wrap around.
* `Admits`: a message that is found lies behind all bytes of earlier files.
* `recorded_iff`: a run keeps `Safe` exactly when all its steps are admitted, in both builds.
* `recorded_safe`: this is so when no byte is left to scan where a reader goes on to another file.
-/

namespace Hindsight

namespace RecordedPosition

open ByteOrigins
open ReaderResume

/-! ## The service -/

/-- A pass of the loop and the directory it meets. -/
structure Turn where
  poll : Poll
  dir : Dir

abbrev State := Thread × Origins

section

variable (kind : ReaderKind) (outputSize : Nat) (L : SandboxLib)

/-- The pass searches the buffer. -/
def Searches (s : Thread) : Prop := s.reader.pc = .read ∧ s.reader.input.fh ≠ none

instance (s : Thread) : Decidable (Searches s) := inferInstanceAs (Decidable (_ ∧ _))

def see (s : Thread) (g : Origins) (e : Turn) : Origins :=
  if Searches s then
    g.search L s.reader.input s.ib (pass kind outputSize L e.dir s e.poll).reader.input
  else g

def step : State → Turn → Option State :=
  Runs.observe (fun s e => ReaderResume.step kind outputSize L e.dir s e.poll) (see kind outputSize L)

def init (c : Checkpoint) : State := (start L c, ⟨[], []⟩)

def Safe (s : State) : Prop := s.2.Safe

def Admits (s : State) (_ : Turn) : Prop :=
  Searches s.1 → s.2.Behind L s.1.reader.input s.1.ib

/-- No byte is left to scan when the reader goes on to another file. -/
def Drained (s : State) (e : Turn) : Prop :=
  s.1.reader.input.fh ≠ none →
    (pass kind outputSize L e.dir s.1 e.poll).reader.input.cp.id ≠ s.1.reader.input.cp.id →
      s.1.ib.unscanned = []

end

/-- The next file to be opened is a later one. -/
structure Inv (s : Thread) (os : List Checkpoint) : Prop where
  follows : Follows s.reader.input s.ib os
  waiting : s.reader.input.fh = none → s.reader.pc = .read
  later : ∀ id, s.reader.pc = .openFound id → s.reader.input.cp.id < id

section

variable {kind : ReaderKind} {outputSize : Nat} {L : SandboxLib} {s : Thread} {g : Origins}
  {os : List Checkpoint} {c : Checkpoint}

theorem start_inv (hL : Scans L) (c : Checkpoint) : Inv (start L c) [] :=
  ⟨follows_init hL c, fun _ => rfl, fun id hid => (by cases hid)⟩

/-- A reader at a file. -/
theorem inv_of_tracks (h : Tracks s.reader.input s.ib os c)
    (hlater : ∀ id, s.reader.pc = .openFound id → c.id < id) : Inv s os :=
  ⟨.inr ⟨c, h⟩, fun hfh => absurd hfh h.fh, fun id hid => by rw [h.cp]; exact hlater id hid⟩

/-! ### The passes -/

theorem pass_found (hs : Searches s) {pb : List UInt8} (hfind : (L.find s.ib).2 = some pb) (e : Turn) :
    pass kind outputSize L e.dir s e.poll = deliver s (L.find s.ib).1 pb := by
  simp only [ReaderResume.pass, hs.1, if_neg hs.2, hfind]

theorem pass_read (hs : Searches s) (hfind : (L.find s.ib).2 = none) (e : Turn) :
    pass kind outputSize L e.dir s e.poll =
      readFile kind outputSize L e.dir s e.poll (L.find s.ib).1 := by
  simp only [ReaderResume.pass, hs.1, if_neg hs.2, hfind]

variable (kind outputSize s) in
/-- A read changes the input and the buffer as `hs_read_file` does, and may lead to the next file. -/
theorem readFile_reader (d : Dir) (p : Poll) (ib : InputBuffer) :
    (readFile kind outputSize L d s p ib).reader.input = (readInto L d s.reader.input ib p.chunk).1 ∧
      ((readFile kind outputSize L d s p ib).reader.pc = s.reader.pc ∨
        (readFile kind outputSize L d s p ib).reader.pc = .openNext) := by
  simp only [readFile, readInto, QueueReader.readStep]
  split
  · cases kind <;> exact ⟨rfl, .inr rfl⟩
  · exact ⟨rfl, .inl rfl⟩

theorem see_search (hs : Searches s) (e : Turn) :
    see kind outputSize L s g e =
      g.search L s.reader.input s.ib (pass kind outputSize L e.dir s e.poll).reader.input := if_pos hs

theorem found_tracks (hL : Scans L) (h : Tracks s.reader.input s.ib g.unscanned c) (hs : Searches s)
    {pb : List UInt8} (hfind : (L.find s.ib).2 = some pb) (e : Turn) :
    Tracks (pass kind outputSize L e.dir s e.poll).reader.input
      (pass kind outputSize L e.dir s e.poll).ib (see kind outputSize L s g e).unscanned c := by
  rw [see_search hs, pass_found hs hfind]
  exact h.found hL hfind

variable (kind outputSize) in
theorem read_tracks (hL : Scans L) (h : Tracks s.reader.input s.ib g.unscanned c) (hs : Searches s)
    (hfind : (L.find s.ib).2 = none) (e : Turn) :
    ∃ k, Tracks (pass kind outputSize L e.dir s e.poll).reader.input
      (pass kind outputSize L e.dir s e.poll).ib (see kind outputSize L s g e).unscanned
      ⟨c.id, c.offset + k⟩ := by
  rw [see_search hs, pass_read hs hfind, (readFile_reader kind outputSize s e.dir e.poll _).1]
  exact h.read hL hfind e.dir e.poll.chunk

theorem search_inv (hL : Scans L) (h : Inv s g.unscanned) (hs : Searches s) (e : Turn) :
    Inv (pass kind outputSize L e.dir s e.poll) (see kind outputSize L s g e).unscanned := by
  obtain ⟨c, h⟩ := h.follows.tracks hs.2
  cases hfind : (L.find s.ib).2 with
  | some pb =>
    refine inv_of_tracks (found_tracks hL h hs hfind e) fun id hid => ?_
    rw [pass_found hs hfind] at hid
    cases hs.1.symm.trans hid
  | none =>
    obtain ⟨k, hk⟩ := read_tracks kind outputSize hL h hs hfind e
    refine inv_of_tracks hk fun id hid => ?_
    rw [pass_read hs hfind] at hid
    rcases (readFile_reader kind outputSize s e.dir e.poll (L.find s.ib).1).2 with hpc | hpc
    · cases (hpc.trans hs.1).symm.trans hid
    · cases hpc.symm.trans hid

/-- Between two searches only the file may change. -/
theorem move_inv (h : Inv s os) (hs : ¬ Searches s) (d : Dir) (p : Poll) :
    Inv (pass kind outputSize L d s p) os := by
  rcases h.follows with ⟨⟨c, hin⟩, hok, hnil, rfl⟩ | ⟨c, ht⟩
  · have hfh : s.reader.input.fh = none := by rw [hin]; rfl
    have hpc := h.waiting hfh
    have hpass : pass kind outputSize L d s p =
        { s with reader := s.reader.openFirst kind d p.lookup p.now } := by
      simp only [ReaderResume.pass, hpc, if_pos hfh]
    obtain ⟨hpc', c', hcase⟩ := QueueReader.openFirst_cases kind d hin p.lookup p.now
    rw [hpass]
    refine ⟨?_, fun _ => hpc'.trans hpc, fun id hid => ?_⟩
    · simp only
      rcases hcase with hin' | ⟨hin', -⟩
      · exact .inl ⟨⟨c', hin'⟩, hok, hnil, rfl⟩
      · rw [hin']
        exact follows_open hok hnil c'
    · cases (hpc'.trans hpc).symm.trans hid
  · -- the reader stays in its file, or opens a later one
    have hstay : ∀ r : QueueReader, r.input = .opened c → (∀ id, r.pc = .openFound id → c.id < id) →
        Inv { s with reader := r } os := fun r hin hlater =>
      inv_of_tracks (c := c) ⟨hin, ht.ok, ht.length, ht.traced⟩ hlater
    have hmove : ∀ (r : QueueReader) (id : Nat), c.id < id → r.input = .opened ⟨id, 0⟩ → r.pc = .read →
        Inv { s with reader := r } os := fun r id hlt hin hpc =>
      inv_of_tracks (c := ⟨id, 0⟩) ⟨hin, ht.ok, ht.length, traced_open ht.traced hlt⟩ fun j hj => by
        cases hpc.symm.trans hj
    unfold ReaderResume.pass
    cases hpc : s.reader.pc with
    | read => exact absurd ⟨hpc, ht.fh⟩ hs
    | openNext =>
      rcases QueueReader.openNext_cases kind outputSize d ht.input with
        ⟨-, hin, hread, -⟩ | ⟨-, hin, -, hpc'⟩
      · exact hmove _ _ (Nat.lt_succ_self c.id) hin hread
      · refine hstay _ hin fun id hid => ?_
        rcases hpc' with ⟨hread, -⟩ | hnext
        · cases hread.symm.trans hid
        · cases hnext.symm.trans hid
    | findNext =>
      obtain ⟨hin, -, hcase⟩ := QueueReader.findNext_cases d ht.input
      refine hstay _ hin fun id hid => ?_
      rcases hcase with ⟨hread, -⟩ | ⟨j, hj, -, hlt, -⟩
      · cases hread.symm.trans hid
      · cases hj.symm.trans hid
        omega
    | openFound id =>
      have hlt : c.id < id := by
        rw [← ht.cp]
        exact h.later id hpc
      by_cases hm : id ∈ d.ids
      · have heq := QueueReader.openFound_eq ht.input hm hlt.ne
        exact hmove _ id hlt (by rw [heq]) (by rw [heq])
      · refine hstay _ ?_ fun j hj => by cases hj
        simp only [QueueReader.openFound, ht.input, HsInput.hsOpenFile_opened d hlt.ne, if_neg hm]

theorem step_inv (hL : Scans L) (h : Inv s g.unscanned) (e : Turn) :
    Inv (pass kind outputSize L e.dir s e.poll) (see kind outputSize L s g e).unscanned := by
  by_cases hs : Searches s
  · exact search_inv hL h hs e
  · rw [see, if_neg hs]
    exact move_inv h hs e.dir e.poll

/-- A pass records the end of a message exactly when it is admitted. -/
theorem step_safe (hL : Scans L) (h : Inv s g.unscanned) (hS : g.Safe) (e : Turn) :
    (see kind outputSize L s g e).Safe ↔ Admits L (s, g) e := by
  by_cases hs : Searches s
  · obtain ⟨c, ht⟩ := h.follows.tracks hs.2
    rw [see_search hs]
    exact (ht.safe_iff hL hS).trans ⟨fun hb _ => hb, fun ha => ha hs⟩
  · rw [see, if_neg hs]
    exact iff_of_true hS fun hs' => absurd hs' hs

theorem service_iff (hL : Scans L) (kind : ReaderKind) (outputSize : Nat) (c : Checkpoint)
    (es : List Turn) :
    Runs.Always (step kind outputSize L) Safe (init L c) es ↔
      Runs.Meets (step kind outputSize L) (Admits L) (init L c) es := by
  refine Runs.always_iff_meets (I := fun s => Inv s.1 s.2.unscanned) ?_ ?_ (start_inv hL c)
    (fun f hf => by cases hf) es
  · rintro ⟨s, g⟩ e ⟨s', g'⟩ hI h
    obtain ⟨hs, rfl⟩ := Runs.observe_some.mp h
    cases hs
    exact step_inv hL hI e
  · rintro ⟨s, g⟩ e ⟨s', g'⟩ hI hS h
    obtain ⟨-, rfl⟩ := Runs.observe_some.mp h
    exact step_safe hL hI hS e

/-! ### Buffers without bytes of earlier files -/

/-- All bytes in the buffer are of the reader's file. -/
def Own (s : State) : Prop := ∀ o ∈ s.2.unscanned, o.id = s.1.reader.input.cp.id

theorem admits_of_own (hL : Scans L) (h : Inv s g.unscanned) (hown : Own (s, g)) (e : Turn) :
    Admits L (s, g) e := by
  intro _ pb hfind
  have hzero : carriedCount s.reader.input.cp.id g.unscanned = 0 :=
    List.countP_eq_zero.mpr fun o ho => by simp [hown o ho]
  have hlt := length_lt_scanned hL h.follows.ok hfind
  simp only [hzero]
  omega

theorem search_own (hL : Scans L) (h : Inv s g.unscanned) (hown : Own (s, g)) (hs : Searches s)
    (e : Turn) : Own (pass kind outputSize L e.dir s e.poll, see kind outputSize L s g e) := by
  obtain ⟨c, ht⟩ := h.follows.tracks hs.2
  have hown : ∀ o ∈ g.unscanned, o.id = c.id := fun o ho => (hown o ho).trans (by rw [ht.cp])
  intro o ho
  rw [see_search hs] at ho
  cases hfind : (L.find s.ib).2 with
  | some pb =>
    rw [search_some hfind] at ho
    rw [(found_tracks hL ht hs hfind e).cp]
    exact hown o (List.mem_of_mem_drop ho)
  | none =>
    obtain ⟨k, hk⟩ := read_tracks kind outputSize hL ht hs hfind e
    rw [search_none hfind] at ho
    rw [hk.cp]
    rcases List.mem_append.mp ho with ho | ho
    · exact hown o (List.mem_of_mem_drop ho)
    · exact (mem_positions ho).trans (by rw [ht.cp])

theorem step_own (hL : Scans L) (h : Inv s g.unscanned) (hown : Own (s, g)) {e : Turn}
    (hdrained : Drained kind outputSize L (s, g) e) :
    Own (pass kind outputSize L e.dir s e.poll, see kind outputSize L s g e) := by
  by_cases hs : Searches s
  · exact search_own hL h hown hs e
  · rw [see, if_neg hs]
    intro o (ho : o ∈ g.unscanned)
    by_cases hid : (pass kind outputSize L e.dir s e.poll).reader.input.cp.id = s.reader.input.cp.id
    · exact (hown o ho).trans hid.symm
    · rcases h.follows with ⟨-, -, -, hnil⟩ | ⟨c, ht⟩
      · rw [hnil] at ho
        cases ho
      · have hlen := ht.length
        rw [hdrained ht.fh hid] at hlen
        rw [List.eq_nil_of_length_eq_zero hlen] at ho
        cases ho

/-- Where a reader has scanned all of a file when it goes on to another one, every recorded checkpoint is
the end of its message. -/
theorem recorded_safe (hL : Scans L) (kind : ReaderKind) (outputSize : Nat) (c : Checkpoint)
    {es : List Turn} (hes : Runs.Meets (step kind outputSize L) (Drained kind outputSize L) (init L c) es) :
    Runs.Always (step kind outputSize L) Safe (init L c) es := by
  have hall := Runs.always_of_meets
    (I := fun s => Inv s.1 s.2.unscanned ∧ Own s ∧ Safe s) ?_
    ⟨start_inv hL c, fun o ho => (by cases ho), fun f hf => (by cases hf)⟩ hes
  · exact hall.mono fun s h => h.2.2
  · rintro ⟨s, g⟩ e ⟨s', g'⟩ ⟨hI, hown, hS⟩ hd h
    obtain ⟨hs, rfl⟩ := Runs.observe_some.mp h
    cases hs
    exact ⟨step_inv hL hI e, step_own hL hI hown hd, (step_safe hL hI hS e).mpr (admits_of_own hL hI hown e)⟩

end

/-! ## The command line build -/

open CliThread (Setup Event Side)

/-- A thread with both queues, each observed on its own. -/
abbrev CliState := CliThread.Thread × (Queue → Origins)

section

variable (S : Setup)

/-- The turn searches the buffer of a queue. -/
def CliSearches (t : CliThread.Thread) (q : Queue) : Prop :=
  S.readQueue.reads q = true ∧ (t.side q).input.fh ≠ none ∧ (t.side q).held = none

instance (t : CliThread.Thread) (q : Queue) : Decidable (CliSearches S t q) :=
  inferInstanceAs (Decidable (_ ∧ _ ∧ _))

def cliSee (t : CliThread.Thread) (g : Queue → Origins) (e : Event) : Queue → Origins :=
  match e, t.pc with
  | .poll n, .poll q =>
    if CliSearches S t q then
      Function.update g q
        ((g q).search S.lib (t.side q).input (t.side q).ib ((t.poll S n q).side q).input)
    else g
  | _, _ => g

def cliStep : CliState → Event → Option CliState := Runs.observe (CliThread.step S) (cliSee S)

def cliInit (clock : Nat) : CliState := (.init S clock, fun _ => ⟨[], []⟩)

def CliSafe (s : CliState) : Prop := ∀ q, (s.2 q).Safe

def CliAdmits (s : CliState) : Event → Prop
  | .poll _ => ∀ q, s.1.pc = .poll q → CliSearches S s.1 q →
      (s.2 q).Behind S.lib (s.1.side q).input (s.1.side q).ib
  | _ => True

end

def CliInv (t : CliThread.Thread) (g : Queue → Origins) : Prop :=
  ∀ q, Follows (t.side q).input (t.side q).ib (g q).unscanned

section

variable {S : Setup} {t t' : CliThread.Thread} {g : Queue → Origins} {q : Queue} {e : Event}

/-! ### What leaves the buffers alone -/

/-- The input and the buffer of a queue. -/
def buffers (t : CliThread.Thread) (q : Queue) : HsInput × InputBuffer :=
  ((t.side q).input, (t.side q).ib)

theorem buffers_of_side (h : t'.side = t.side) : buffers t' = buffers t := by
  funext q
  rw [buffers, h, buffers]

theorem side_of_frame (h : t'.frame = t.frame) : t'.side = t.side := by
  simp only [CliThread.Thread.frame, Prod.mk.injEq] at h
  exact h.1

theorem side_timer : (t.timer S).side = t.side := side_of_frame CliThread.Thread.frame_timer

theorem side_terminate : (t.terminate S).side = t.side := by
  unfold CliThread.Thread.terminate
  split <;> rfl

theorem side_idle (fatal : Bool) : (t.idle S fatal).side = t.side := by
  have hclock : (t.idleClock S).side = t.side := side_of_frame CliThread.Thread.frame_idleClock
  simp only [CliThread.Thread.idle]
  split
  · rw [side_terminate, side_timer, hclock]
  · exact side_timer.trans hclock

theorem side_answer (q : Queue) (pb : List UInt8) (again : Bool) (v : CliThread.Verdict) (fatal : Bool) :
    (t.answer S q pb again v fatal).side = t.side := by
  simp only [CliThread.Thread.answer]
  split
  · rfl
  split
  · exact side_terminate
  split
  · rw [side_terminate, side_timer]
  split
  · exact side_timer
  · exact side_timer

/-- Taking a message up leaves its bytes scanned as they are. -/
theorem buffers_choose (fatal : Bool) : buffers (t.choose S fatal) = buffers t := by
  unfold CliThread.Thread.choose
  split
  · rename_i q pb _
    funext r
    have hside : (((t.setSide q { t.side q with held := none }).see (S.timestamp pb))).side =
        (t.setSide q { t.side q with held := none }).side :=
      side_of_frame (CliThread.Thread.frame_see _)
    simp only [buffers, hside]
    by_cases hr : r = q
    · rw [hr, CliThread.Thread.setSide_same]
    · rw [CliThread.Thread.setSide_other hr]
  · split
    · exact buffers_of_side (side_idle fatal)
    · rfl

/-- Only the work on a queue changes a buffer. -/
theorem buffers_step (h : CliThread.step S t e = some t') (hpoll : ∀ n, e ≠ .poll n)
    (hopen : e ≠ .openNext) : buffers t' = buffers t := by
  cases e with
  | poll n => exact absurd rfl (hpoll n)
  | openNext => exact absurd rfl hopen
  | stop =>
    rw [(CliThread.step_stop.mp h).2]
    rfl
  | arrive q c =>
    rw [(CliThread.step_arrive.mp h).2]
    rfl
  | head =>
    rw [(CliThread.step_head.mp h).2, CliThread.Thread.head]
    split <;> rfl
  | choose fatal =>
    rw [(CliThread.step_choose.mp h).2]
    exact buffers_choose fatal
  | answer v fatal =>
    obtain ⟨q, pb, again, -, rfl⟩ := CliThread.step_answer.mp h
    exact buffers_of_side (side_answer q pb again v fatal)

theorem buffers_leave (q : Queue) (s : Side) (o : CliThread.Outcome) :
    buffers (t.leave q s o) q = (s.input, s.ib) := by
  rw [buffers, CliThread.Thread.leave_same]

/-! ### The work on a queue -/

theorem hsOpenFile_later (d : Dir) {c : Checkpoint} {id : Nat} (h : c.id ≠ id) :
    hsOpenFile d (hsInitInput c) id =
      if id ∈ d.ids then (.opened ⟨id, 0⟩, true) else (hsInitInput c, false) := by
  simp only [hsOpenFile, hsInitInput, HsInput.opened, reduceCtorEq, if_false, h]

/-- `hs_open_file` of the next file. -/
theorem follows_openFile {i : HsInput} {ib : InputBuffer} {os : List Checkpoint} (h : Follows i ib os)
    (d : Dir) : Follows (hsOpenFile d i (i.cp.id + 1)).1 ib os := by
  rcases h with ⟨⟨c, rfl⟩, hok, hnil, rfl⟩ | ⟨c, ht⟩
  · have hid : (hsInitInput c).cp.id = c.id := rfl
    rw [hid, hsOpenFile_later d (by omega)]
    split
    · exact follows_open hok hnil ⟨c.id + 1, 0⟩
    · exact .inl ⟨⟨c, rfl⟩, hok, hnil, rfl⟩
  · rw [ht.cp, ht.input, HsInput.hsOpenFile_opened d (by omega)]
    split
    · exact .inr ⟨_, ht.open (Nat.lt_succ_self c.id)⟩
    · exact .inr ⟨c, ht.input ▸ ht⟩

theorem poll_first {s : Side} (hfh : s.input.fh = none) (v : Dir) (n : Nat) :
    (s.poll S v n).1 = { s with input := (hsOpenFile v s.input s.input.cp.id).1 } := by
  simp only [Side.poll, hfh]

theorem poll_held {s : Side} (hfh : s.input.fh ≠ none) (hheld : s.held ≠ none) (v : Dir) (n : Nat) :
    (s.poll S v n).1 = s := by
  obtain ⟨f, hf⟩ := Option.ne_none_iff_exists'.mp hfh
  obtain ⟨pb, hpb⟩ := Option.ne_none_iff_exists'.mp hheld
  simp only [Side.poll, hf, hpb]

theorem poll_search {s : Side} (hfh : s.input.fh ≠ none) (hheld : s.held = none) (v : Dir) (n : Nat) :
    (∃ pb, (S.lib.find s.ib).2 = some pb ∧ (s.poll S v n).1.input = s.input ∧
        (s.poll S v n).1.ib = (S.lib.find s.ib).1) ∨
      (S.lib.find s.ib).2 = none ∧
        (s.poll S v n).1.input = (readInto S.lib v s.input (S.lib.find s.ib).1 n).1 ∧
        (s.poll S v n).1.ib = (readInto S.lib v s.input (S.lib.find s.ib).1 n).2.1 := by
  obtain ⟨f, hf⟩ := Option.ne_none_iff_exists'.mp hfh
  cases hfind : S.lib.find s.ib with
  | mk ib r =>
    cases r with
    | some pb =>
      refine .inl ⟨pb, rfl, ?_, ?_⟩ <;> simp only [Side.poll, hf, hheld, hfind]
    | none =>
      refine .inr ⟨rfl, ?_, ?_⟩ <;> simp only [Side.poll, hf, hheld, hfind]

/-- A search traces what it reads. -/
theorem follows_search {s : Side} {o : Origins} {c : Checkpoint} (hL : Scans S.lib)
    (h : Tracks s.input s.ib o.unscanned c) (hheld : s.held = none) (v : Dir) (n : Nat) :
    Follows (s.poll S v n).1.input (s.poll S v n).1.ib
      (o.search S.lib s.input s.ib (s.poll S v n).1.input).unscanned := by
  rcases poll_search h.fh hheld v n with ⟨pb, hfind, hin, hib⟩ | ⟨hfind, hin, hib⟩
  · rw [hin, hib]
    exact .inr ⟨c, h.found hL hfind⟩
  · rw [hin, hib]
    obtain ⟨k, hk⟩ := h.read hL hfind v n
    exact .inr ⟨_, hk⟩

/-- Without a search the first file is opened, or nothing happens. -/
theorem follows_idle {s : Side} {os : List Checkpoint} (h : Follows s.input s.ib os)
    (hs : ¬ (s.input.fh ≠ none ∧ s.held = none)) (v : Dir) (n : Nat) :
    Follows (s.poll S v n).1.input (s.poll S v n).1.ib os := by
  by_cases hfh : s.input.fh = none
  · rw [poll_first hfh]
    rcases h with ⟨⟨c, hin⟩, hok, hnil, rfl⟩ | ⟨c, ht⟩
    · have hid : (hsInitInput c).cp.id = c.id := rfl
      simp only [hin, hid, HsInput.hsOpenFile_init]
      split
      · exact follows_open hok hnil c
      · exact .inl ⟨⟨c, rfl⟩, hok, hnil, rfl⟩
    · exact absurd hfh ht.fh
  · rw [poll_held hfh fun hheld => hs ⟨hfh, hheld⟩]
    exact h

theorem follows_of_buffers {r : HsInput × InputBuffer} {os : List Checkpoint}
    (h : buffers t' q = r) (hr : Follows r.1 r.2 os) : Follows (t'.side q).input (t'.side q).ib os := by
  obtain rfl := h
  exact hr

theorem cliSee_other (h : ∀ n r, e = .poll n → t.pc ≠ .poll r) : cliSee S t g e = g := by
  unfold cliSee
  split
  · exact absurd ‹_› (h _ _ rfl)
  · rfl

theorem cliSee_poll {n : Nat} (hpc : t.pc = .poll q) (hs : CliSearches S t q) :
    cliSee S t g (.poll n) = Function.update g q
      ((g q).search S.lib (t.side q).input (t.side q).ib ((t.poll S n q).side q).input) := by
  simp only [cliSee, hpc, if_pos hs]

theorem cliSee_idle {n : Nat} (hpc : t.pc = .poll q) (hs : ¬ CliSearches S t q) :
    cliSee S t g (.poll n) = g := by
  simp only [cliSee, hpc, if_neg hs]

/-- The work on one queue leaves the other one alone. -/
theorem buffers_poll_other {r : Queue} (hr : r ≠ q) (n : Nat) :
    buffers (t.poll S n q) r = buffers t r := by
  unfold CliThread.Thread.poll
  split
  · rw [buffers, CliThread.Thread.leave_other hr, buffers]
  · rfl

theorem buffers_poll (hreads : S.readQueue.reads q = true) (n : Nat) :
    buffers (t.poll S n q) q =
      (((t.side q).poll S (t.view S q) n).1.input, ((t.side q).poll S (t.view S q) n).1.ib) := by
  rw [CliThread.Thread.poll, if_pos hreads]
  exact buffers_leave q _ _

theorem poll_inv (hL : Scans S.lib) (hI : CliInv t g) (hpc : t.pc = .poll q) (n : Nat) :
    CliInv (t.poll S n q) (cliSee S t g (.poll n)) := by
  intro r
  by_cases hs : CliSearches S t q
  · rw [cliSee_poll hpc hs]
    by_cases hr : r = q
    · subst hr
      obtain ⟨c, ht⟩ := (hI r).tracks hs.2.1
      have hbuf := buffers_poll (t := t) hs.1 n
      have hin : ((t.poll S n r).side r).input = ((t.side r).poll S (t.view S r) n).1.input :=
        congrArg Prod.fst hbuf
      have hfollows := follows_of_buffers hbuf (follows_search hL ht hs.2.2 (t.view S r) n)
      rw [← hin] at hfollows
      rw [Function.update_self]
      exact hfollows
    · rw [Function.update_of_ne hr]
      exact follows_of_buffers (buffers_poll_other hr n) (hI r)
  · rw [cliSee_idle hpc hs]
    by_cases hr : r = q
    · subst hr
      by_cases hreads : S.readQueue.reads r = true
      · exact follows_of_buffers (buffers_poll hreads n)
          (follows_idle (hI r) (fun hc => hs ⟨hreads, hc⟩) (t.view S r) n)
      · rw [CliThread.Thread.poll, if_neg hreads]
        exact hI r
    · exact follows_of_buffers (buffers_poll_other hr n) (hI r)

theorem openNext_inv (hI : CliInv t g) (q : Queue) : CliInv (t.openNext S q) g := by
  intro r
  unfold CliThread.Thread.openNext
  by_cases hr : r = q
  · subst hr
    exact follows_of_buffers (buffers_leave r _ _) (follows_openFile (hI r) (t.view S r))
  · rw [CliThread.Thread.leave_other hr]
    exact hI r

theorem cli_inv (hL : Scans S.lib) (hI : CliInv t g) (h : CliThread.step S t e = some t') :
    CliInv t' (cliSee S t g e) := by
  by_cases hwork : (∀ n, e ≠ .poll n) ∧ e ≠ .openNext
  · rw [cliSee_other fun n _ hn => absurd hn (hwork.1 n)]
    intro r
    exact follows_of_buffers (congrFun (buffers_step h hwork.1 hwork.2) r) (hI r)
  · cases e with
    | poll n =>
      obtain ⟨q, hpc, rfl⟩ := CliThread.step_poll.mp h
      exact poll_inv hL hI hpc n
    | openNext =>
      obtain ⟨q, -, rfl⟩ := CliThread.step_openNext.mp h
      rw [cliSee_other fun n _ hn => by cases hn]
      exact openNext_inv hI q
    | stop | arrive | head | choose | answer =>
      exact absurd ⟨fun n hn => (by cases hn), fun hn => (by cases hn)⟩ hwork

theorem cli_safe (hL : Scans S.lib) (hI : CliInv t g) (hS : CliSafe (t, g))
    (h : CliThread.step S t e = some t') : CliSafe (t', cliSee S t g e) ↔ CliAdmits S (t, g) e := by
  cases e with
  | poll n =>
    obtain ⟨q, hpc, rfl⟩ := CliThread.step_poll.mp h
    by_cases hs : CliSearches S t q
    · obtain ⟨c, ht⟩ := (hI q).tracks hs.2.1
      have hiff : ((g q).search S.lib (t.side q).input (t.side q).ib
          ((t.poll S n q).side q).input).Safe ↔
            (g q).Behind S.lib (t.side q).input (t.side q).ib := ht.safe_iff hL (hS q)
      rw [cliSee_poll hpc hs]
      constructor
      · intro hsafe r hr _
        cases hpc.symm.trans hr
        have hq := hsafe q
        simp only [Function.update_self] at hq
        exact hiff.mp hq
      · intro hadm r
        by_cases hr : r = q
        · subst hr
          simp only [Function.update_self]
          exact hiff.mpr (hadm r hpc hs)
        · simp only [Function.update_of_ne hr]
          exact hS r
    · rw [cliSee_idle hpc hs]
      refine iff_of_true hS fun r hr hs' => ?_
      cases hpc.symm.trans hr
      exact absurd hs' hs
  | stop | arrive | head | openNext | choose | answer =>
    rw [cliSee_other fun n _ hn => by cases hn]
    exact iff_of_true hS trivial

theorem cli_iff (S : Setup) (hL : Scans S.lib) (clock : Nat) (es : List Event) :
    Runs.Always (cliStep S) CliSafe (cliInit S clock) es ↔
      Runs.Meets (cliStep S) (CliAdmits S) (cliInit S clock) es := by
  refine Runs.always_iff_meets (I := fun s => CliInv s.1 s.2) ?_ ?_
    (fun q => follows_init hL (S.start q)) (fun q f hf => by cases hf) es
  · rintro ⟨t, g⟩ e ⟨t', g'⟩ hI h
    obtain ⟨hs, rfl⟩ := Runs.observe_some.mp h
    exact cli_inv hL hI hs
  · rintro ⟨t, g⟩ e ⟨t', g'⟩ hI hS h
    obtain ⟨hs, rfl⟩ := Runs.observe_some.mp h
    exact cli_safe hL hI hS hs

end

/-- The service with any directory at each pass, and the command line build. -/
theorem recorded_iff (L : SandboxLib) (hL : Scans L) :
    (∀ (kind : ReaderKind) (outputSize : Nat) (c : Checkpoint) (es : List Turn),
      Runs.Always (step kind outputSize L) Safe (init L c) es ↔
        Runs.Meets (step kind outputSize L) (Admits L) (init L c) es) ∧
    ∀ (S : Setup), S.lib = L → ∀ (clock : Nat) (es : List Event),
      Runs.Always (cliStep S) CliSafe (cliInit S clock) es ↔
        Runs.Meets (cliStep S) (CliAdmits S) (cliInit S clock) es := by
  constructor
  · intro kind outputSize c es
    exact service_iff hL kind outputSize c es
  · intro S hS clock es
    subst hS
    exact cli_iff S hL clock es

/-! ## A file that ends in the middle of a frame -/

/-- A search over messages with a length below 128 that start with the tag of their first field. It waits
for the whole of a message, and goes on behind the record separator of one that it cannot decode. What is
left, the length that is known, and the message. -/
def scan : List UInt8 → List UInt8 × Nat × Option (List UInt8)
  | [] => ([], 0, none)
  | c :: t =>
    if c = 30 then
      match t with
      | hlen :: tag :: n :: us :: body =>
        if hlen = 2 ∧ tag = 8 ∧ us = 31 then
          if n.toNat ≤ body.length then
            if (body.take n.toNat).head? = some 10 then
              (body.drop n.toNat, 0, some (body.take n.toNat))
            else scan t
          else (c :: t, n.toNat, none)
        else scan t
      | _ => (c :: t, 0, none)
    else scan t

theorem scan_suffix (u : List UInt8) : (scan u).1 <:+ u := by
  fun_induction scan u with
  | case1 => exact List.suffix_refl _
  | case2 hlen tag n us body => exact (List.drop_suffix _ _).trans ⟨[30, hlen, tag, n, us], rfl⟩
  | case4 | case6 => exact List.suffix_refl _
  | case3 _ _ _ _ _ _ _ _ ih | case5 _ _ _ _ _ _ ih | case7 _ _ _ ih =>
    exact ih.trans (List.suffix_cons _ _)

theorem scan_message {u pb : List UInt8} (h : (scan u).2.2 = some pb) :
    ∃ t, t ≠ [] ∧ u = t ++ pb ++ (scan u).1 := by
  fun_induction scan u with
  | case1 => cases h
  | case2 hlen tag n us body =>
    obtain rfl := Option.some.inj h
    refine ⟨[30, hlen, tag, n, us], List.cons_ne_nil _ _, ?_⟩
    rw [List.append_assoc, List.take_append_drop]
    rfl
  | case4 | case6 => cases h
  | case3 _ _ _ _ _ _ _ _ ih | case5 _ _ _ _ _ _ ih | case7 _ _ _ ih =>
    obtain ⟨t, -, ht⟩ := ih h
    exact ⟨_ :: t, List.cons_ne_nil _ _, congrArg (_ :: ·) ht⟩

def taggedLib : SandboxLib :=
  { smallLib with
    accepts := fun pb => pb.length < 128 ∧ pb.head? = some 10
    find := fun ib =>
      let r := scan ib.unscanned
      ({ ib with scanpos := ib.readpos - r.1.length, msglen := r.2.1 }, r.2.2) }

theorem taggedLib_unscanned (ib : InputBuffer) :
    (taggedLib.find ib).1.unscanned = (scan ib.unscanned).1 :=
  (List.suffix_iff_eq_drop.mp ((scan_suffix _).trans (List.drop_suffix _ _))).symm

theorem taggedLib_scans : Scans taggedLib where
  init_ok := smallLib_lawful.init_ok
  init_empty := rfl
  find_ok ib hok := ⟨Nat.sub_le _ _, hok.2⟩
  find_suffix ib _ := by
    rw [taggedLib_unscanned]
    exact scan_suffix _
  find_message ib pb _ h := by
    rw [taggedLib_unscanned]
    exact scan_message h
  expand_ok ib n hok := (smallLib_expand_same hok n).1
  expand_same ib n hok := (smallLib_expand_same hok n).2

/-! ### Deciding a given run -/

instance (c : Checkpoint) (len rest : Nat) (scanned : List Checkpoint) :
    Decidable (EndsAt c len rest scanned) :=
  inferInstanceAs (Decidable (_ ∧ _ ∧ _))

instance : DecidablePred Safe := fun s =>
  inferInstanceAs (Decidable (∀ f ∈ s.2.found, _))

instance (L : SandboxLib) (g : Origins) (i : HsInput) (ib : InputBuffer) : Decidable (g.Behind L i ib) :=
  match h : (L.find ib).2 with
  | none => isTrue fun pb hpb => by cases h.symm.trans hpb
  | some pb =>
    decidable_of_iff (carriedCount i.cp.id g.unscanned + pb.length ≤ scannedCount L ib ∧
        carriedCount i.cp.id g.unscanned < scannedCount L ib)
      ⟨fun hbehind pb' hpb' => by
          obtain rfl : pb = pb' := Option.some.inj (h.symm.trans hpb')
          exact hbehind,
        fun hbehind => hbehind pb h⟩

instance (L : SandboxLib) (s : State) (e : Turn) : Decidable (Admits L s e) :=
  inferInstanceAs (Decidable (Searches s.1 → _))

theorem mem_queues : ∀ q, q ∈ [Queue.input, .analysis]
  | .input => List.mem_cons_self
  | .analysis => List.mem_cons_of_mem _ List.mem_cons_self

instance (S : Setup) (s : CliState) : (e : Event) → Decidable (CliAdmits S s e)
  | .poll _ =>
    decidable_of_iff (∀ q ∈ [Queue.input, .analysis], s.1.pc = .poll q → CliSearches S s.1 q →
        (s.2 q).Behind S.lib (s.1.side q).input (s.1.side q).ib)
      ⟨fun h q => h q (mem_queues q), fun h q _ => h q⟩
  | .stop | .arrive _ _ | .head | .openNext | .choose _ | .answer _ _ => isTrue trivial

/-- The frame of the message that is a tag alone. -/
def tagFrame : List UInt8 := frame taggedLib.varint [10]

/-- File 5 starts with `torn` and goes on with two frames, file 6 has two frames. -/
def tornDir (torn : List UInt8) : Dir :=
  ⟨[5, 6], fun id => if id = 5 then torn ++ tagFrame ++ tagFrame else tagFrame ++ tagFrame⟩

def tornTurns (torn : List UInt8) (n : Nat) : List Turn :=
  (List.range n).map fun i => ⟨⟨99, i, ⟨0, 0⟩⟩, tornDir torn⟩

/-- An analysis thread on files of twelve bytes. -/
def wholeSetup : Setup where
  kind := .analysis
  readQueue := .input
  single _ := rfl
  outputSize := 12
  tickerInterval := 0
  lib := taggedLib
  timestamp _ := 0
  content _ := tornDir []
  start _ := ⟨5, 0⟩

/-- Three turns of the loop: the file is opened, it is read, and its first message is found. -/
def wholeRun : List Event :=
  .arrive .input ⟨6, 12⟩ :: (List.replicate 3 [.head, .poll 99, .poll 99, .choose false]).flatten

/-- Nothing is torn. -/
theorem recorded_whole :
    Runs.Always (step .analysis 12 taggedLib) Safe (init taggedLib ⟨5, 0⟩) (tornTurns [] 8) ∧
      Runs.Always (cliStep wholeSetup) CliSafe (cliInit wholeSetup 0) wholeRun :=
  ⟨((recorded_iff taggedLib taggedLib_scans).1 .analysis 12 _ _).mpr (by decide),
    ((recorded_iff taggedLib taggedLib_scans).2 wholeSetup rfl 0 _).mpr (by decide)⟩

/-- A frame of twenty bytes of which one was written. The first frame behind it is found with the bytes of
file 6 in the buffer: 18 of them are not scanned, and `input.cp.offset` is 12. -/
theorem recorded_fails :
    ¬ ∀ (L : SandboxLib) (kind : ReaderKind) (outputSize : Nat) (c : Checkpoint) (es : List Turn),
      Scans L → Runs.Always (step kind outputSize L) Safe (init L c) es := by
  intro h
  have h := h taggedLib .analysis 18 ⟨5, 0⟩ (tornTurns [30, 2, 8, 20, 31, 0] 6) taggedLib_scans
  revert h
  decide

end RecordedPosition

end Hindsight
