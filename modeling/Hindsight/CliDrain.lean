import Hindsight.CliThread
import Hindsight.ReaderResume

/-!
# Hindsight.CliDrain

The command line build reads its queues to the end before a thread leaves its loop: an observer keeps the
messages offered, and at the exit they are all of those from the starting checkpoints on, each with a
final answer.

* `OnDisk`: what the queues hold in the end. Files that are not full make the thread miss the files after
  them (`Full`).
* `Admits`: the thread opens the next file when it has read the last one to its end, and no `RETRY` is
  answered when the retry loop does not offer the message again.
* `drain_safe`: every run with such steps.
-/

namespace Hindsight

namespace CliDrain

open CliThread QueueContent

/-- A call for a message and what came of it. -/
structure Offer where
  queue : Queue
  msg : List UInt8
  again : Bool
  verdict : Verdict
  deriving DecidableEq, Repr

/-- The calls for the messages of a queue, without the re-offers. -/
def offered (log : List Offer) (q : Queue) : List (List UInt8) :=
  (log.filter fun o => o.queue = q ∧ o.again = false).map Offer.msg

def see (t : Thread) (log : List Offer) (e : Event) : List Offer :=
  match e, t.pc with
  | .answer v _, .offer q pb again => if t.alive then log ++ [⟨q, pb, again, v⟩] else log
  | _, _ => log

abbrev State := Thread × List Offer

def step (S : Setup) : State → Event → Option State := Runs.observe (CliThread.step S) see

def start (S : Setup) (clock : Nat) : State := (Thread.init S clock, [])

section

variable (S : Setup) (msgs : Queue → Nat → List (List UInt8))

/-- The messages of the files after `id`. -/
def ahead (q : Queue) (id : Nat) : List (List UInt8) :=
  (later S.lib (S.content q) (msgs q) id).map Prod.fst

/-- The messages from the starting checkpoint on. -/
def messages (q : Queue) : List (List UInt8) :=
  (if (S.start q).id ∈ (S.content q).ids then
    S.lib.restFrom (S.start q).offset (msgs q (S.start q).id) else []) ++
    ahead S msgs q (S.start q).id

/-- A message that is answered with `RETRY` is the next one to be offered, again; none is left so. -/
def Settled (log : List Offer) : Prop :=
  log.IsChain (fun o o' => o.verdict = .retry → o'.again = true ∧ o'.queue = o.queue ∧ o'.msg = o.msg) ∧
    ∀ o ∈ log.getLast?, o.verdict ≠ .retry

/-- When the loop is left, all messages were offered, and for an output plugin none without a final
answer. -/
def Safe (s : State) : Prop :=
  s.1.pc = .exited → s.1.alive = true →
    (∀ q, S.readQueue.reads q = true → offered s.2 q = messages S msgs q) ∧
      (S.kind = .output → Settled s.2)

/-- The queue holds whole messages in files without gaps, the ids of which do not wrap; the starting
checkpoint is where `fseek` can go and, if its file is there, at the start of a message or past the end. -/
structure OnDisk (q : Queue) : Prop where
  whole : Whole S.lib (S.content q) (msgs q)
  ids : ∀ id ∈ (S.content q).ids, id < ullongMax
  consecutive : ∀ id ∈ (S.content q).ids, ∀ j ∈ (S.content q).ids, id < j →
    id + 1 ∈ (S.content q).ids
  seek : (S.start q).offset < 2 ^ 63
  aligned : (S.start q).id ∈ (S.content q).ids →
    ((S.content q).bytes (S.start q).id).drop (S.start q).offset =
      S.lib.frames (S.lib.restFrom (S.start q).offset (msgs q (S.start q).id))

/-- The starting file is there unless no later one is, and all files but the last are full: as large as
`output_size`, or the starting checkpoint is as far. -/
structure Full (q : Queue) : Prop where
  first : (S.start q).id ∉ (S.content q).ids → ∀ id ∈ (S.content q).ids, id ≤ (S.start q).id
  size : ∀ id ∈ (S.content q).ids, ∀ j ∈ (S.content q).ids, (S.start q).id ≤ id → id < j →
    S.outputSize ≤ ((S.content q).bytes id).length ∨
      id = (S.start q).id ∧ S.outputSize ≤ (S.start q).offset

/-- A file that is left for the next one was read to its end, and a `RETRY` is offered again. -/
def Admits (s : State) (e : Event) : Prop :=
  match e, s.1.pc with
  | .openNext, .openNext q => (s.1.side q).input.cp.id + 1 ∈ (s.1.view S q).ids →
      ((S.content q).bytes (s.1.side q).input.cp.id).length ≤ (s.1.side q).input.cp.offset
  | .answer v _, .offer _ _ again =>
    S.kind = .output → v = .retry → (if again then s.1.stop else s.1.localStop) = false
  | _, _ => True

/-! ## One queue -/

/-- The file of the starting checkpoint is not open yet. -/
structure Waiting (q : Queue) (s : Side) (done : List (List UInt8)) : Prop where
  input : s.input = hsInitInput (S.start q)
  ib : s.ib = S.lib.initBuffer
  held : s.held = none
  done : done = []

/-- File `id` is open; what was taken, what is held and what is ahead are all the messages. -/
structure Reading (q : Queue) (s : Side) (done : List (List UInt8)) (id off : Nat)
    (rest : List (List UInt8)) : Prop where
  feed : Feed S.lib (S.content q) s.input s.ib id off rest
  first : (S.start q).id ≤ id
  offset : id = (S.start q).id → (S.start q).offset ≤ off
  messages : done ++ (s.held.toList ++ (rest ++ ahead S msgs q id)) = messages S msgs q

/-- The invariant of a queue. -/
structure Sided (q : Queue) (s : Side) (done : List (List UInt8)) : Prop where
  state : Waiting S q s done ∨ ∃ id off rest, Reading S msgs q s done id off rest
  stopped : s.stopped = true → done = messages S msgs q

/-- A read found nothing more; when the queue is `ended`, nothing is left in the file. -/
def AtEnd (q : Queue) (s : Side) (done : List (List UInt8)) (ended : Prop) : Prop :=
  ∃ id off rest, Reading S msgs q s done id off rest ∧ s.held = none ∧ Short S.lib s.ib rest ∧
    (ended → rest = [])

/-- A turn's work on a queue that ends at `e`, with its outcome. -/
structure Polled (q : Queue) (e : Checkpoint) (done : List (List UInt8)) (r : Side × Outcome) : Prop where
  sided : Sided S msgs q r.1 done
  tryNext : r.2 = .tryNext → AtEnd S msgs q r.1 done ((S.content q).Ends e)
  atEnd : r.2 = .atEnd → (S.content q).Ends e → done = messages S msgs q

end

section

variable {S : Setup} {msgs : Queue → Nat → List (List UInt8)} {q : Queue} {s : Side}
  {done : List (List UInt8)} {e : Checkpoint}

theorem map_endPositions (L : SandboxLib) (id off : Nat) (ms : List (List UInt8)) :
    (L.endPositions id off ms).map Prod.fst = ms := by
  induction ms generalizing off with
  | nil => rfl
  | cons pb ms ih => simp only [SandboxLib.endPositions, List.map_cons, ih]

theorem ahead_next {id : Nat} (hm : id + 1 ∈ (S.content q).ids) :
    ahead S msgs q id = msgs q (id + 1) ++ ahead S msgs q (id + 1) := by
  have hnext : later S.lib (S.content q) (msgs q) id = S.lib.endPositions (id + 1) 0 (msgs q (id + 1)) ++
      later S.lib (S.content q) (msgs q) (id + 1) :=
    later_next hm (Nat.lt_succ_self id) fun _ _ h => h
  rw [ahead, hnext, List.map_append, map_endPositions, ahead]

theorem ahead_nil {id : Nat} (h : ∀ i ∈ (S.content q).ids, i ≤ id) : ahead S msgs q id = [] := by
  rw [ahead, later_nil h]
  rfl

/-- Nothing is held and nothing is left of the last file. -/
theorem Reading.done_eq {id off : Nat} (hR : Reading S msgs q s done id off []) (hheld : s.held = none)
    (hlast : ∀ i ∈ (S.content q).ids, i ≤ id) : done = CliDrain.messages S msgs q := by
  have := hR.messages
  rw [hheld, ahead_nil hlast] at this
  simpa using this

/-- A file that is not full is the last one. -/
theorem Reading.last {id off : Nat} (hF : Full S q) (hR : Reading S msgs q s done id off [])
    (hsize : s.input.cp.offset < S.outputSize) : ∀ i ∈ (S.content q).ids, i ≤ id := by
  intro i hi
  by_contra hlt
  have hbytes := hR.feed.bytes
  rw [SandboxLib.frames_nil, List.drop_eq_nil_iff] at hbytes
  have hcp : s.input.cp.offset = off + s.ib.unscanned.length := by rw [hR.feed.input]; rfl
  rcases hF.size id hR.feed.mem i hi hR.first (by omega) with h | ⟨hid, h⟩
  · omega
  · have := hR.offset hid
    omega

/-- The first file is opened if it is there. -/
theorem Waiting.poll (hw : Waiting S q s done) (hL : S.lib.Lawful) (hC : OnDisk S msgs q) (hF : Full S q)
    (hstopped : s.stopped = true → done = CliDrain.messages S msgs q) (n : Nat) :
    Polled S msgs q e done (s.poll S ((S.content q).upTo e) n) := by
  have hid : (hsInitInput (S.start q)).cp.id = (S.start q).id := rfl
  have hfh : (hsInitInput (S.start q)).fh = none := rfl
  simp only [Side.poll, hw.input, hfh, hid, HsInput.hsOpenFile_init]
  by_cases hm : (S.start q).id ∈ ((S.content q).upTo e).ids
  · have hmem : (S.start q).id ∈ (S.content q).ids := (Dir.mem_upTo.mp hm).1
    simp only [if_pos hm, if_true]
    refine ⟨⟨.inr ⟨_, _, _, feed_start ?_ ?_ hmem (hC.aligned hmem) ?_, le_rfl, fun _ => le_rfl, ?_⟩,
      hstopped⟩, fun h => (by cases h), fun h => (by cases h)⟩
    · simp only [hw.ib]
      exact ⟨hL.init_empty, hL.init_ok, hL.init_msglen⟩
    · simp only [hw.ib, le_refl]
    · exact fun pb hpb => hC.whole.accepts _ hmem pb (S.lib.mem_restFrom hpb)
    · simp only [hw.done, hw.held, messages, if_pos hmem]
      rfl
  · simp only [if_neg hm, Bool.false_eq_true, if_false]
    refine ⟨⟨.inl ⟨rfl, hw.ib, hw.held, hw.done⟩, hstopped⟩, fun h => (by cases h), fun _ hend => ?_⟩
    have hmem : (S.start q).id ∉ (S.content q).ids := fun h => hm (hend.mem.mpr h)
    rw [hw.done, messages, if_neg hmem, ahead_nil (hF.first hmem)]
    rfl

/-- The next message is found, or the file is read. -/
theorem Reading.poll {id off : Nat} {rest : List (List UInt8)} (hR : Reading S msgs q s done id off rest)
    (hL : S.lib.Lawful) (hF : Full S q)
    (hstopped : s.stopped = true → done = CliDrain.messages S msgs q) (n : Nat) :
    Polled S msgs q e done (s.poll S ((S.content q).upTo e) n) := by
  have hfh : s.input.fh = some ⟨id, off + s.ib.unscanned.length⟩ := by rw [hR.feed.input]; rfl
  simp only [Side.poll, hfh]
  cases hheld : s.held with
  | some pb =>
    exact ⟨⟨.inr ⟨id, off, rest, hR⟩, hstopped⟩, fun h => (by cases h), fun h => (by cases h)⟩
  | none =>
    have hmsgs := hR.messages
    rw [hheld] at hmsgs
    rcases hR.feed.find hL with ⟨pb, ms, hrest, hfound, hfeed⟩ | ⟨hfound, hfeed, hshort⟩
    · generalize S.lib.find s.ib = r at hfound hfeed
      obtain ⟨ib, found⟩ := r
      simp only at hfound hfeed
      simp only [hfound]
      refine ⟨⟨.inr ⟨_, _, _, hfeed, hR.first, fun hid => ?_, ?_⟩, hstopped⟩, fun h => (by cases h),
        fun h => (by cases h)⟩
      · have := hR.offset hid
        omega
      · rw [hrest] at hmsgs
        exact hmsgs
    · generalize S.lib.find s.ib = r at hfound hfeed hshort
      obtain ⟨ib, found⟩ := r
      simp only at hfound hfeed hshort
      simp only [hfound]
      obtain ⟨hfeed', hcp, hnil⟩ := hfeed.read hshort hL (Dir.bytes_upTo_initial _ e id) n
      generalize readInto S.lib ((S.content q).upTo e) s.input ib n = r at hfeed' hcp hnil
      obtain ⟨i, ib', bs⟩ := r
      simp only at hfeed' hcp hnil ⊢
      have hreading : Reading S msgs q ⟨i, ib', none, bs.length, s.stopped⟩ done id off rest :=
        ⟨hfeed', hR.first, hR.offset, hmsgs⟩
      refine ⟨⟨.inr ⟨id, off, rest, hreading⟩, hstopped⟩, fun htry => ?_, fun hend hended => ?_⟩
      · split at htry
        · rename_i hbs
          obtain ⟨hshort', hall⟩ := hnil hbs
          exact ⟨id, off, rest, hreading, rfl, hshort', fun hended => hall (hended.bytes hfeed'.mem)⟩
        · cases htry
      · split at hend
        · rename_i hbs
          split at hend
          · cases hend
          · rename_i hsize
            obtain ⟨-, hall⟩ := hnil hbs
            cases hall (hended.bytes hfeed'.mem)
            exact hreading.done_eq rfl (hreading.last hF (Nat.lt_of_not_le hsize))
        · cases hend

/-- A turn's work on a queue. -/
theorem Sided.poll (h : Sided S msgs q s done) (hL : S.lib.Lawful) (hC : OnDisk S msgs q) (hF : Full S q)
    (n : Nat) : Polled S msgs q e done (s.poll S ((S.content q).upTo e) n) := by
  rcases h.state with hw | ⟨id, off, rest, hR⟩
  · exact hw.poll hL hC hF h.stopped n
  · exact hR.poll hL hF h.stopped n

/-- The open of the next file. -/
theorem openNext_sided {ended : Prop} (hC : OnDisk S msgs q) (hA : AtEnd S msgs q s done ended)
    (hs : s.stopped = true → done = messages S msgs q)
    (hread : s.input.cp.id + 1 ∈ ((S.content q).upTo e).ids →
      ((S.content q).bytes s.input.cp.id).length ≤ s.input.cp.offset) :
    let r := s.openNext ((S.content q).upTo e)
    Sided S msgs q r.1 done ∧ r.2 ≠ .tryNext ∧
      (r.2 = .atEnd → ended → (S.content q).Ends e → done = messages S msgs q) := by
  obtain ⟨id, off, rest, hR, hheld, hshort, hended⟩ := hA
  have hcp : s.input.cp = ⟨id, off + s.ib.unscanned.length⟩ := by rw [hR.feed.input]; rfl
  have hne : id ≠ id + 1 := by omega
  simp only [hcp] at hread
  simp only [Side.openNext, hcp]
  rw [hR.feed.input, HsInput.hsOpenFile_opened _ hne]
  by_cases hm : id + 1 ∈ ((S.content q).upTo e).ids
  · have hmem : id + 1 ∈ (S.content q).ids := (Dir.mem_upTo.mp hm).1
    have hrest : rest = [] := hR.feed.rest_eq_nil hshort (by rw [hcp]; exact hread hm)
    subst hrest
    simp only [if_pos hm, if_true]
    refine ⟨⟨.inr ⟨id + 1, 0, msgs q (id + 1), hR.feed.move hmem (hC.whole.bytes _ hmem)
      (hC.whole.accepts _ hmem), ?_, fun h => ?_, ?_⟩, hs⟩, by simp, fun h => (by cases h)⟩
    · have := hR.first
      omega
    · have := hR.first
      omega
    · have := hR.messages
      rw [ahead_next hmem] at this
      exact this
  · simp only [if_neg hm, Bool.false_eq_true, if_false]
    refine ⟨⟨.inr ⟨id, off, rest, ?_, hR.first, hR.offset, hR.messages⟩, hs⟩, by simp, ?_⟩
    · have := hR.feed
      rw [hR.feed.input] at this
      exact this
    · intro _ he hend
      have hrest := hended he
      subst hrest
      refine hR.done_eq hheld fun i hi => ?_
      by_contra hlt
      exact hm (hend.mem.mpr (hC.consecutive id hR.feed.mem i hi (by omega)))

/-- A message that is held is taken. -/
theorem Sided.take (h : Sided S msgs q s done) {pb : List UInt8} (hheld : s.held = some pb) :
    Sided S msgs q { s with held := none } (done ++ [pb]) := by
  obtain ⟨hw | ⟨id, off, rest, hR⟩, hstopped⟩ := h
  · have := hw.held
    rw [hheld] at this
    cases this
  · have hmsgs := hR.messages
    rw [hheld] at hmsgs
    refine ⟨.inr ⟨id, off, rest, hR.feed, hR.first, hR.offset, ?_⟩, fun hs => ?_⟩
    · rw [List.append_assoc]
      exact hmsgs
    · rw [← hstopped hs] at hmsgs
      simp at hmsgs

end

/-! ## The thread -/

/-- The message of a first offer that has not returned. -/
def inHand : Pc → Queue → List (List UInt8)
  | .offer r pb false, q => if r = q then [pb] else []
  | _, _ => []

/-- What was taken of a queue. -/
def given (log : List Offer) (pc : Pc) (q : Queue) : List (List UInt8) := offered log q ++ inHand pc q

/-- A last answer `RETRY` is followed by a re-offer, unless the loop is left. -/
def Pending (pc : Pc) (log : List Offer) : Prop :=
  ∀ o ∈ log.getLast?, o.verdict = .retry → pc = .failed ∨ pc = .offer o.queue o.msg true

structure Inv (S : Setup) (msgs : Queue → Nat → List (List UInt8)) (t : Thread) (log : List Offer) :
    Prop where
  ended : t.stop = true → ∀ q, S.readQueue.reads q = true → (S.content q).Ends (t.arrived q)
  localStop : t.localStop = true → t.stop = true
  side : ∀ q, S.readQueue.reads q = true → Sided S msgs q (t.side q) (given log t.pc q)
  atEnd : ∀ q, t.pc = .openNext q → S.readQueue.reads q = true ∧
    AtEnd S msgs q (t.side q) (given log t.pc q) (t.localStop = true)
  exited : t.pc = .exited → ∀ q, S.readQueue.reads q = true → (t.side q).stopped = true
  chain : S.kind = .output → log.IsChain fun o o' =>
    o.verdict = .retry → o'.again = true ∧ o'.queue = o.queue ∧ o'.msg = o.msg
  pending : S.kind = .output → Pending t.pc log

section

variable {S : Setup} {msgs : Queue → Nat → List (List UInt8)} {t t' : Thread} {log : List Offer}
  {q : Queue} {s : Side} {o : Outcome}

/-- The side left by a turn's work. -/
theorem Sided.leave {done : List (List UInt8)} (h : Sided S msgs q s done)
    (hend : o = .atEnd → t.localStop = true → done = messages S msgs q) :
    Sided S msgs q ((t.leave q s o).side q) done := by
  refine ⟨?_, fun hs => ?_⟩
  · rw [Thread.leave_same]
    rcases h.state with hw | ⟨id, off, rest, hR⟩
    · exact .inl ⟨hw.input, hw.ib, hw.held, hw.done⟩
    · exact .inr ⟨id, off, rest, hR.feed, hR.first, hR.offset, hR.messages⟩
  · rcases Thread.leave_stopped hs with hs | ⟨ho, hl⟩
    · exact h.stopped hs
    · exact hend ho hl

/-- The work on a queue is done with the side `s`. -/
theorem Inv.leave (hI : Inv S msgs t log) (hpc : t.pc = .poll q ∨ t.pc = .openNext q)
    (hs : Sided S msgs q s (offered log q))
    (hnext : o = .tryNext → S.readQueue.reads q = true ∧
      AtEnd S msgs q s (offered log q) (t.localStop = true))
    (hend : o = .atEnd → t.localStop = true → offered log q = messages S msgs q) :
    Inv S msgs (t.leave q s o) log := by
  have hgiven : ∀ r, given log t.pc r = offered log r := by
    intro r
    rcases hpc with hpc | hpc
    all_goals
      rw [given, hpc]
      exact List.append_nil _
  have hgiven' : ∀ r, given log (t.leave q s o).pc r = offered log r := by
    intro r
    rw [given, Thread.leave_pc]
    split
    · exact List.append_nil _
    · cases q <;> exact List.append_nil _
  refine ⟨?_, ?_, fun r hr => ?_, fun r hr => ?_, fun he => ?_, hI.chain, fun hk => ?_⟩
  · rw [Thread.leave_stop, Thread.leave_arrived]
    exact hI.ended
  · rw [Thread.leave_stop, Thread.leave_localStop]
    exact hI.localStop
  · rw [hgiven' r]
    by_cases hrq : r = q
    · rw [hrq]
      exact hs.leave hend
    · rw [Thread.leave_other hrq, ← hgiven r]
      exact hI.side r hr
  · rw [Thread.leave_pc] at hr
    split at hr
    · rename_i ho
      cases hr
      obtain ⟨hreads, id, off, rest, hR, hheld, hshort, hl⟩ := hnext ho
      rw [hgiven' q, Thread.leave_localStop, Thread.leave_same]
      exact ⟨hreads, id, off, rest, ⟨hR.feed, hR.first, hR.offset, hR.messages⟩, hheld, hshort, hl⟩
    · cases q <;> cases hr
  · rw [Thread.leave_pc] at he
    split at he
    · cases he
    · cases q <;> cases he
  · intro o' ho' hretry
    rcases hI.pending hk o' ho' hretry with h | h
    all_goals
      rcases hpc with hpc | hpc
      all_goals
        rw [hpc] at h
        cases h

/-- A step that touches no queue. -/
theorem Inv.move (hI : Inv S msgs t log) (hframe : t'.frame = t.frame)
    (hgiven : ∀ r, given log t'.pc r = given log t.pc r) (hopen : ∀ r, t'.pc ≠ .openNext r)
    (hexit : t'.pc ≠ .exited) (hpend : S.kind = .output → Pending t'.pc log) :
    Inv S msgs t' log := by
  simp only [Thread.frame, Prod.mk.injEq] at hframe
  obtain ⟨hside, harrived, hstop, hlocal, -⟩ := hframe
  refine ⟨?_, ?_, fun r hr => ?_, fun r hr => absurd hr (hopen r), fun he => absurd he hexit,
    hI.chain, hpend⟩
  · rw [hstop, harrived]
    exact hI.ended
  · rw [hstop, hlocal]
    exact hI.localStop
  · rw [hside, hgiven r]
    exact hI.side r hr

theorem Pending.not_retry {pc : Pc} (h : Pending pc log) (hf : pc ≠ .failed)
    (ho : ∀ r pb, pc ≠ .offer r pb true) : ∀ o ∈ log.getLast?, o.verdict ≠ .retry := by
  intro o hlast hretry
  rcases h o hlast hretry with h | h
  · exact hf h
  · exact ho _ _ h

theorem Pending.of_not_retry {pc : Pc} (h : ∀ o ∈ log.getLast?, o.verdict ≠ .retry) : Pending pc log :=
  fun o ho hretry => absurd hretry (h o ho)

/-- Where no message is offered again and none has failed, the last verdict is not `RETRY`. -/
theorem Inv.pending_of (hI : Inv S msgs t log) (hf : t.pc ≠ .failed)
    (ho : ∀ r pb, t.pc ≠ .offer r pb true) (pc : Pc) (hk : S.kind = .output) : Pending pc log :=
  .of_not_retry ((hI.pending hk).not_retry hf ho)

theorem Inv.poll (hI : Inv S msgs t log) (hL : S.lib.Lawful)
    (hC : ∀ q, S.readQueue.reads q = true → OnDisk S msgs q)
    (hF : ∀ q, S.readQueue.reads q = true → Full S q) (hpc : t.pc = .poll q) (n : Nat) :
    Inv S msgs (t.poll S n q) log := by
  unfold Thread.poll
  split
  · rename_i hreads
    have hside := hI.side q hreads
    have hgiven : given log t.pc q = offered log q := by
      rw [given, hpc]
      exact List.append_nil _
    rw [hgiven] at hside
    obtain ⟨h1, h2, h3⟩ := hside.poll (e := t.arrived q) hL (hC q hreads) (hF q hreads) n
    have hended : t.localStop = true → (S.content q).Ends (t.arrived q) :=
      fun hl => hI.ended (hI.localStop hl) q hreads
    refine hI.leave (.inl hpc) h1 (fun ho => ⟨hreads, ?_⟩) fun ho hl => h3 ho (hended hl)
    obtain ⟨id, off, rest, hR, hheld, hshort, hrest⟩ := h2 ho
    exact ⟨id, off, rest, hR, hheld, hshort, fun hl => hrest (hended hl)⟩
  · refine hI.move rfl (fun r => ?_) (fun r => ?_) ?_ fun hk => ?_
    · rw [hpc]
      cases q <;> rfl
    · cases q <;> simp [Thread.after]
    · cases q <;> simp [Thread.after]
    · exact hI.pending_of (by simp [hpc]) (by simp [hpc]) _ hk

theorem Inv.openNext (hI : Inv S msgs t log) (hC : ∀ q, S.readQueue.reads q = true → OnDisk S msgs q)
    (hpc : t.pc = .openNext q)
    (hread : (t.side q).input.cp.id + 1 ∈ (t.view S q).ids →
      ((S.content q).bytes (t.side q).input.cp.id).length ≤ (t.side q).input.cp.offset) :
    Inv S msgs (t.openNext S q) log := by
  obtain ⟨hreads, hA⟩ := hI.atEnd q hpc
  have hgiven : given log t.pc q = offered log q := by
    rw [given, hpc]
    exact List.append_nil _
  have hs := (hI.side q hreads).stopped
  rw [hgiven] at hA hs
  obtain ⟨h1, h2, h3⟩ := openNext_sided (hC q hreads) hA hs hread
  exact hI.leave (.inr hpc) h1 (fun ho => absurd ho h2) fun ho hl =>
    h3 ho hl (hI.ended (hI.localStop hl) q hreads)

theorem Inv.head (hI : Inv S msgs t log) (hpc : t.pc = .head) : Inv S msgs t.head log := by
  have hpend := hI.pending_of (by simp [hpc]) (by simp [hpc])
  unfold Thread.head
  split
  · rename_i hstops
    simp only [Bool.and_eq_true] at hstops
    refine ⟨hI.ended, hI.localStop, fun r hr => ?_, fun r hr => (by cases hr), fun _ r hr => ?_,
      hI.chain, hpend _⟩
    · have := hI.side r hr
      rw [hpc] at this
      exact this
    · cases r with
      | input => exact hstops.1.2
      | analysis => exact hstops.2
  · refine ⟨hI.ended, id, fun r hr => ?_, fun r hr => (by cases hr), fun he => (by cases he),
      hI.chain, hpend _⟩
    have := hI.side r hr
    rw [hpc] at this
    exact this

theorem oldest_held {pb : List UInt8} (h : t.oldest S = some (q, pb)) : (t.side q).held = some pb := by
  unfold Thread.oldest at h
  cases hi : (t.side .input).held with
  | none =>
    cases ha : (t.side .analysis).held with
    | none =>
      rw [hi, ha] at h
      cases h
    | some am =>
      rw [hi, ha] at h
      cases h
      exact ha
  | some im =>
    cases ha : (t.side .analysis).held with
    | none =>
      rw [hi, ha] at h
      cases h
      exact hi
    | some am =>
      rw [hi, ha] at h
      simp only at h
      split at h
      · cases h
        exact hi
      · cases h
        exact ha

theorem Inv.choose (hI : Inv S msgs t log) (hpc : t.pc = .choose) (fatal : Bool)
    (halive : (t.choose S fatal).alive = true) : Inv S msgs (t.choose S fatal) log := by
  have hpend := hI.pending_of (by simp [hpc]) (by simp [hpc])
  have hhead : ∀ t' : Thread, t'.frame = t.frame → Inv S msgs { t' with pc := .head } log := by
    intro t' hframe
    refine hI.move hframe (fun r => ?_) (fun r => (by simp)) (by simp) (hpend _)
    rw [hpc]
    rfl
  unfold Thread.choose at halive ⊢
  cases ho : t.oldest S with
  | some m =>
    obtain ⟨q, pb⟩ := m
    have hframe := Thread.frame_see (t := t.setSide q { t.side q with held := none }) (S.timestamp pb)
    simp only [Thread.frame, Prod.mk.injEq] at hframe
    obtain ⟨hside, harrived, hstop, hlocal, -⟩ := hframe
    refine ⟨?_, ?_, fun r hr => ?_, fun r hr => (by cases hr), fun he => (by cases he), hI.chain,
      hpend _⟩
    · simp only [hstop, harrived]
      exact hI.ended
    · simp only [hstop, hlocal]
      exact hI.localStop
    · simp only [hside]
      have hr := hI.side r hr
      rw [given, hpc] at hr
      rw [given]
      by_cases hrq : r = q
      · subst hrq
        rw [Thread.setSide_same]
        have := hr.take (oldest_held ho)
        simp only [inHand, List.append_nil] at this
        simpa only [inHand, if_true] using this
      · rw [Thread.setSide_other hrq]
        simp only [inHand, if_neg (Ne.symm hrq)]
        exact hr
  | none =>
    rw [ho] at halive
    simp only at halive ⊢
    split
    · rename_i hidle
      rw [if_pos hidle] at halive
      unfold Thread.idle at halive ⊢
      simp only at halive ⊢
      split
      · rename_i hdead
        rw [if_pos hdead, Thread.terminate, hdead.1] at halive
        cases halive
      · exact hhead _ (Thread.frame_timer.trans Thread.frame_idleClock)
    · exact hhead t rfl

theorem offered_append (log : List Offer) (o : Offer) (r : Queue) :
    offered (log ++ [o]) r =
      offered log r ++ if o.queue = r ∧ o.again = false then [o.msg] else [] := by
  rw [offered, List.filter_append, List.map_append, offered]
  congr 1
  by_cases h : o.queue = r ∧ o.again = false
  · simp [h]
  · simp [h]

/-- A call has returned; a `RETRY` is offered again. -/
theorem Inv.answered (hI : Inv S msgs t log) {pb : List UInt8} {again : Bool}
    (hpc : t.pc = .offer q pb again) (v : Verdict) (hside : t'.side = t.side)
    (harrived : t'.arrived = t.arrived) (hstop : t'.stop = t.stop)
    (hlocal : t'.localStop = true → t.stop = true)
    (hpc' : t'.pc = .head ∨ t'.pc = .failed ∨ t'.pc = .offer q pb true)
    (hretry : S.kind = .output → v = .retry → t'.pc ≠ .head) :
    Inv S msgs t' (log ++ [⟨q, pb, again, v⟩]) := by
  have hgiven : ∀ r, given (log ++ [⟨q, pb, again, v⟩]) t'.pc r = given log t.pc r := by
    intro r
    have hnone : inHand t'.pc r = [] := by
      rcases hpc' with h | h | h
      all_goals
        rw [h]
        rfl
    rw [given, given, offered_append, hnone, hpc, List.append_nil]
    congr 1
    cases again with
    | false => simp [inHand]
    | true => simp [inHand]
  refine ⟨?_, ?_, fun r hr => ?_, fun r hr => ?_, fun he => ?_, fun hk => ?_, fun hk => ?_⟩
  · rw [hstop, harrived]
    exact hI.ended
  · rw [hstop]
    exact hlocal
  · rw [hside, hgiven r]
    exact hI.side r hr
  · rcases hpc' with h | h | h
    all_goals
      rw [h] at hr
      cases hr
  · rcases hpc' with h | h | h
    all_goals
      rw [h] at he
      cases he
  · refine List.isChain_append.mpr ⟨hI.chain hk, List.isChain_singleton _, ?_⟩
    intro o ho o' ho' hr
    cases ho'
    rcases hI.pending hk o ho hr with h | h
    · rw [hpc] at h
      cases h
    · rw [hpc] at h
      cases h
      exact ⟨rfl, rfl, rfl⟩
  · intro o ho hr
    rw [List.getLast?_concat] at ho
    cases ho
    rcases hpc' with h | h | h
    · exact absurd h (hretry hk hr)
    · exact .inl h
    · exact .inr h

theorem Inv.answer (hI : Inv S msgs t log) {pb : List UInt8} {again : Bool}
    (hpc : t.pc = .offer q pb again) (v : Verdict) (fatal : Bool) (ha : t.alive = true)
    (hadm : S.kind = .output → v = .retry → (if again then t.stop else t.localStop) = false)
    (halive : (t.answer S q pb again v fatal).alive = true) :
    Inv S msgs (t.answer S q pb again v fatal) (log ++ [⟨q, pb, again, v⟩]) := by
  have hframe := Thread.frame_timer (t := t) (S := S)
  simp only [Thread.frame, Prod.mk.injEq] at hframe
  obtain ⟨hside, harrived, hstop, hlocal, -⟩ := hframe
  have hterm : ∀ t' : Thread, t'.frame = t.frame → (t'.terminate S).alive = true →
      Inv S msgs (t'.terminate S) (log ++ [⟨q, pb, again, v⟩]) := by
    intro t' hf ht
    unfold Thread.terminate at ht ⊢
    cases hk : S.kind with
    | analysis =>
      rw [hk] at ht
      cases ht
    | output =>
      simp only [Thread.frame, Prod.mk.injEq] at hf
      obtain ⟨hf1, hf2, hf3, hf4, -⟩ := hf
      refine hI.answered hpc v hf1 hf2 hf3 (fun hl => hI.localStop (hf4.symm.trans hl)) (.inr (.inl rfl))
        fun _ _ => (by simp)
  have hne : ¬t.alive = false := by
    rw [ha]
    simp
  unfold Thread.answer at halive ⊢
  rw [if_neg hne] at halive ⊢
  split
  · rename_i hv
    rw [if_pos hv] at halive
    exact hterm t rfl halive
  · rename_i hv
    rw [if_neg hv] at halive
    split
    · rename_i hf
      rw [if_pos hf] at halive
      exact hterm _ Thread.frame_timer halive
    · split
      · rename_i hretry
        have hadm := hadm hretry.1 hretry.2
        refine hI.answered hpc v hside harrived hstop (fun hl => ?_) (.inr (.inr ?_)) fun _ _ => ?_
        · simp only [hadm] at hl
          cases hl
        · simp only [hadm]
          rfl
        · simp [hadm]
      · rename_i hdone
        exact hI.answered hpc v hside harrived hstop (fun hl => hI.localStop (hlocal.symm.trans hl))
          (.inl rfl) fun hk hv => absurd ⟨hk, hv⟩ hdone

end

/-! ## Runs -/

section

variable {S : Setup} {msgs : Queue → Nat → List (List UInt8)} {s s' : State} {e : Event}

theorem start_inv (S : Setup) (msgs : Queue → Nat → List (List UInt8)) (clock : Nat) :
    Inv S msgs (start S clock).1 (start S clock).2 := by
  refine ⟨fun h => (by cases h), fun h => (by cases h), fun q hq => ⟨.inl ⟨rfl, rfl, rfl, rfl⟩, ?_⟩,
    fun q h => (by cases h), fun h => (by cases h), fun _ => List.isChain_nil, fun _ o ho => (by cases ho)⟩
  intro h
  simp [start, Thread.init, hq] at h

theorem alive_terminate {t : Thread} (h : (t.terminate S).alive = true) : t.alive = true := by
  unfold Thread.terminate at h
  split at h
  · cases h
  · exact h

theorem alive_of_choose {t : Thread} {fatal : Bool} (h : (t.choose S fatal).alive = true) :
    t.alive = true := by
  unfold Thread.choose at h
  split at h
  · rename_i q pb _
    exact (Thread.alive_of_frame (Thread.frame_see (t := t.setSide q { t.side q with held := none })
      (S.timestamp pb))).symm.trans h
  · split at h
    · unfold Thread.idle at h
      simp only at h
      rw [← Thread.alive_idleClock (S := S)]
      split at h
      · exact Thread.alive_timer.symm.trans (alive_terminate h)
      · exact Thread.alive_timer.symm.trans h
    · exact h

theorem alive_of_answer {t : Thread} {q : Queue} {pb : List UInt8} {again fatal : Bool} {v : Verdict}
    (h : (t.answer S q pb again v fatal).alive = true) : t.alive = true := by
  unfold Thread.answer at h
  split at h
  · exact h
  · split at h
    · exact alive_terminate h
    · split at h
      · exact Thread.alive_timer.symm.trans (alive_terminate h)
      · split at h
        · exact Thread.alive_timer.symm.trans h
        · exact Thread.alive_timer.symm.trans h

theorem alive_of_step {t t' : Thread} (h : CliThread.step S t e = some t') (ha : t'.alive = true) :
    t.alive = true := by
  cases e with
  | stop =>
    obtain ⟨-, rfl⟩ := step_stop.mp h
    exact ha
  | arrive q e =>
    obtain ⟨-, rfl⟩ := step_arrive.mp h
    exact ha
  | head =>
    obtain ⟨-, rfl⟩ := step_head.mp h
    exact Thread.alive_head.symm.trans ha
  | poll n =>
    obtain ⟨q, -, rfl⟩ := step_poll.mp h
    exact Thread.alive_poll.symm.trans ha
  | openNext =>
    obtain ⟨q, -, rfl⟩ := step_openNext.mp h
    exact Thread.leave_alive.symm.trans ha
  | choose fatal =>
    obtain ⟨-, rfl⟩ := step_choose.mp h
    exact alive_of_choose ha
  | answer v fatal =>
    obtain ⟨q, pb, again, -, rfl⟩ := step_answer.mp h
    exact alive_of_answer ha

theorem step_inv (hL : S.lib.Lawful) (hC : ∀ q, S.readQueue.reads q = true → OnDisk S msgs q)
    (hF : ∀ q, S.readQueue.reads q = true → Full S q) (hI : s.1.alive = true → Inv S msgs s.1 s.2)
    (hadm : Admits S s e) (h : step S s e = some s') (ha : s'.1.alive = true) :
    Inv S msgs s'.1 s'.2 := by
  obtain ⟨t, log⟩ := s
  obtain ⟨t', log'⟩ := s'
  obtain ⟨hs, hl⟩ := Runs.observe_some.mp h
  simp only at hs hl ha hI ⊢
  have halive := alive_of_step hs ha
  have hI := hI halive
  rw [hl]
  cases e with
  | stop =>
    obtain ⟨hend, rfl⟩ := step_stop.mp hs
    refine ⟨fun _ q hq => hend.2 q ?_ hq, fun _ => rfl, hI.side, hI.atEnd, hI.exited, hI.chain,
      hI.pending⟩
    cases q <;> simp
  | arrive q e =>
    obtain ⟨harr, rfl⟩ := step_arrive.mp hs
    refine ⟨fun hstop => ?_, hI.localStop, hI.side, hI.atEnd, hI.exited, hI.chain, hI.pending⟩
    simp only [harr.1] at hstop
    cases hstop
  | head =>
    obtain ⟨hpc, rfl⟩ := step_head.mp hs
    exact hI.head hpc
  | poll n =>
    obtain ⟨q, hpc, rfl⟩ := step_poll.mp hs
    exact hI.poll hL hC hF hpc n
  | openNext =>
    obtain ⟨q, hpc, rfl⟩ := step_openNext.mp hs
    simp only [Admits, hpc] at hadm
    exact hI.openNext hC hpc hadm
  | choose fatal =>
    obtain ⟨hpc, rfl⟩ := step_choose.mp hs
    exact hI.choose hpc fatal ha
  | answer v fatal =>
    obtain ⟨q, pb, again, hpc, rfl⟩ := step_answer.mp hs
    have hsee : see t log (.answer v fatal) = log ++ [⟨q, pb, again, v⟩] := by
      simp only [see, hpc, halive, if_true]
    rw [hsee]
    simp only [Admits, hpc] at hadm
    exact hI.answer hpc v fatal halive hadm ha

theorem Inv.safe (hI : s.1.alive = true → Inv S msgs s.1 s.2) : Safe S msgs s := by
  intro hpc ha
  have hI := hI ha
  refine ⟨fun q hq => ?_, fun hk => ⟨hI.chain hk, ?_⟩⟩
  · have hall := (hI.side q hq).stopped (hI.exited hpc q hq)
    rw [given, hpc] at hall
    exact (List.append_nil _).symm.trans hall
  · have hpend := hI.pending hk
    rw [hpc] at hpend
    exact hpend.not_retry (by simp) (by simp)

end

theorem drain_safe (S : Setup) (msgs : Queue → Nat → List (List UInt8)) (hL : S.lib.Lawful)
    (hC : ∀ q, S.readQueue.reads q = true → OnDisk S msgs q)
    (hF : ∀ q, S.readQueue.reads q = true → Full S q) (clock : Nat) (es : List Event)
    (hadm : Runs.Meets (step S) (Admits S) (start S clock) es) :
    Runs.Always (step S) (Safe S msgs) (start S clock) es := by
  have hall := Runs.always_of_meets (I := fun s : State => s.1.alive = true → Inv S msgs s.1 s.2)
    (fun s e s' hI hc h ha => step_inv hL hC hF hI hc h ha) (fun _ => start_inv S msgs clock) hadm
  exact hall.mono fun s hI => Inv.safe hI

/-! ## Small files -/

instance (S : Setup) (s : State) (e : Event) : Decidable (Admits S s e) := by
  unfold Admits
  split <;> infer_instance

/-- Two files of one message. -/
def twoFiles (outputSize : Nat) : Setup where
  kind := .output
  readQueue := .input
  single := single_output .input
  outputSize := outputSize
  tickerInterval := 0
  lib := ReaderResume.smallLib
  timestamp _ := 0
  content _ := ⟨[0, 1], fun _ => ReaderResume.smallLib.frames [[1]]⟩
  start _ := ⟨0, 0⟩

theorem twoFiles_onDisk (outputSize : Nat) (q : Queue) :
    OnDisk (twoFiles outputSize) (fun _ _ => [[1]]) q where
  whole := by
    refine ⟨fun id hid => if_pos hid, fun id _ pb hpb => ?_, fun id hid => ?_⟩
    · rw [List.mem_singleton.mp hpb]
      change 1 < 128
      decide
    · rw [Dir.bytes, if_pos hid]
      change (ReaderResume.smallLib.frames [[1]]).length < 2 ^ 63
      decide
  ids := by
    change ∀ id ∈ [0, 1], id < ullongMax
    decide
  consecutive := by
    change ∀ id ∈ [0, 1], ∀ j ∈ [0, 1], id < j → id + 1 ∈ [0, 1]
    decide
  seek := Nat.two_pow_pos 63
  aligned _ := rfl

/-- A turn that opens the file, one that reads it and one that offers the message; at the end of the first
file the thread goes on to the next. -/
def drainRun : List Event :=
  [.arrive .input ⟨1, 6⟩, .stop, .head, .poll 0, .poll 0, .choose false, .head, .poll 99, .poll 0,
    .choose false, .head, .poll 0, .poll 0, .choose false, .answer .final false,
    .head, .poll 99, .openNext, .poll 0, .choose false, .head, .poll 99, .poll 0,
    .choose false, .head, .poll 0, .poll 0, .choose false, .answer .final false,
    .head, .poll 99, .openNext, .poll 0, .choose false, .head]

theorem drain_safe_full :
    Runs.Always (step (twoFiles 6)) (Safe (twoFiles 6) fun _ _ => [[1]]) (start (twoFiles 6) 0) drainRun := by
  refine drain_safe (twoFiles 6) (fun _ _ => [[1]]) ReaderResume.smallLib_lawful
    (fun q _ => twoFiles_onDisk 6 q) (fun q _ => ⟨fun h => absurd List.mem_cons_self h, ?_⟩) 0 drainRun
    (by decide)
  intro id hid j _ _ _
  have hbytes : ((twoFiles 6).content q).bytes id = ReaderResume.smallLib.frames [[1]] := if_pos hid
  rw [hbytes]
  exact .inl le_rfl

/-- Files rolled under a smaller `output_size` than now: the thread stops at the end of the first. -/
def smallRun : List Event :=
  [.arrive .input ⟨1, 6⟩, .stop, .head, .poll 0, .poll 0, .choose false, .head, .poll 99, .poll 0,
    .choose false, .head, .poll 0, .poll 0, .choose false, .answer .final false,
    .head, .poll 99, .poll 0, .choose false, .head]

theorem drain_misses :
    ¬∀ S msgs clock es, S.lib.Lawful → (∀ q, S.readQueue.reads q = true → OnDisk S msgs q) →
      Runs.Always (step S) (Safe S msgs) (start S clock) es := by
  intro h
  have hall := h (twoFiles 100) (fun _ _ => [[1]]) 0 smallRun ReaderResume.smallLib_lawful
    fun q _ => twoFiles_onDisk 100 q
  obtain ⟨t, hrun, hpc, halive, hlog⟩ : ∃ t,
      Runs.run (step (twoFiles 100)) (start (twoFiles 100) 0) smallRun = some t ∧
        t.1.pc = .exited ∧ t.1.alive = true ∧ offered t.2 .input = [[1]] := ⟨_, rfl, rfl, rfl, by decide⟩
  have hoffered := (hall.run hrun hpc halive).1 .input rfl
  rw [hlog] at hoffered
  revert hoffered
  decide

end CliDrain

end Hindsight
