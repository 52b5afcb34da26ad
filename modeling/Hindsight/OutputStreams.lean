import Hindsight.GapSkip
import Hindsight.QueueFeed
import Hindsight.OutputProgress
import Hindsight.ReaderResume

/-!
# Hindsight.OutputStreams

An output plugin that reads both queues (service build): `input_thread` with its two readers and their
buffers over the machine of `OutputPlugin`. A message that was found is held in `pim` or `pam` until it
is the oldest. The queues are written to meanwhile.

* `Side`: one reader; `Thread.choose` computes the position a message is delivered with.
* `Safe`: in each queue the messages delivered are the first of its stream, `p->cur` is the end of the
  last one, and a restart at `p->cp` reads again all that come after it.
* `Admits`: a file is left when it was read to its end, and a reset goes to a position a message starts
  at and the ring is not ahead of.
* `streams_safe`: every run with such steps.
-/

namespace Hindsight

namespace OutputStreams

open QueueContent

/-- What the plugin runs with and what its queues will hold. `timestamp` is that of a message. -/
structure Setup where
  outputSize : Nat
  lib : SandboxLib
  timestamp : List UInt8 → Int
  content : Queue → Dir

/-! ## One reader -/

/-- A reader with its buffer; `held` is `pim` or `pam`. -/
structure Side where
  reader : QueueReader
  ib : InputBuffer
  held : Option (List UInt8)
  bytesRead : Nat

namespace Side

/-- The next try at the first file looks the checkpoint up again. -/
def resets (now : Nat) (s : Side) : Bool :=
  s.reader.due .output now && decide (s.reader.iwaitCnt + 1 > 60)

def openFirst (v : Dir) (lookup : Checkpoint) (now : Nat) (s : Side) : Side :=
  { s with reader := s.reader.openFirst .output v lookup now }

/-- `hs_read_file`, and what follows a read that returns nothing. `fread` returns at most `n + 1`
bytes. -/
def readFile (S : Setup) (v : Dir) (now n : Nat) (s : Side) : Side :=
  let ib := S.lib.expand s.ib s.ib.need
  let space := min (n + 1) (ib.size - ib.readpos)
  let bs := (hsReadFile v s.reader.input space).2
  { s with
    reader := s.reader.readStep .output S.outputSize v space now
    ib := ib.append bs
    bytesRead := bs.length }

/-- The next message is found, unless one is held, or the file is read. -/
def poll (S : Setup) (v : Dir) (now n : Nat) (s : Side) : Side :=
  match s.held with
  | some _ => s
  | none =>
    match S.lib.find s.ib with
    | (ib, some pb) => { s with ib := ib, held := some pb }
    | (ib, none) => readFile S v now n { s with ib := ib }

/-- A step after a read that returned nothing. -/
def next (S : Setup) (v : Dir) (s : Side) : Side :=
  { s with
    reader := match s.reader.pc with
      | .read => s.reader
      | .openNext => GapSkip.openNext .output S.outputSize v s.reader
      | .findNext => GapSkip.findNext v s.reader
      | .openFound id => s.reader.openFound v id }

/-- The step opens another file. -/
def leaves (v : Dir) (s : Side) : Bool :=
  match s.reader.pc with
  | .openNext => decide (s.reader.input.nextId ∈ v.ids)
  | .openFound _ => true
  | _ => false

/-- Where the message found last ends: `cp.offset - (readpos - scanpos)`. -/
def position (s : Side) : Checkpoint :=
  ⟨s.reader.input.cp.id, sub64 s.reader.input.cp.offset (sub64 s.ib.readpos s.ib.scanpos)⟩

end Side

/-! ## The thread -/

/-- Where the thread is in the body of its loop. -/
inductive Turn where
  | poll (q : Queue)
  | next (q : Queue)
  | choose
  deriving DecidableEq, Repr

/-- `arrived` is where the queues end so far. -/
structure Thread where
  plugin : OutputPlugin
  side : Queue → Side
  arrived : Queue → Checkpoint
  turn : Turn

/-- `plugin` are the events of the plugin outside the body of the loop. -/
inductive Event where
  | arrive (q : Queue) (e : Checkpoint)
  | plugin (e : OpEvent)
  | poll (n now : Nat) (lookup : Checkpoint)
  | next
  | choose
  deriving DecidableEq, Repr

/-- The events of `OutputPlugin` that the readers do not decide. -/
def own : OpEvent → Bool
  | .openFirst _ | .reset _ _ | .deliver _ _ | .idle | .nothing => false
  | _ => true

namespace Thread

def init (S : Setup) (asyncLen tickerInterval tickerExpires : Nat) (start : CheckpointPair) : Thread where
  plugin := .create .both asyncLen tickerInterval tickerExpires start
  side q := ⟨.init (start.get q), S.lib.initBuffer, none, 0⟩
  arrived _ := ⟨0, 0⟩
  turn := .poll .input

def setSide (t : Thread) (q : Queue) (s : Side) : Thread :=
  { t with side := Function.update t.side q s }

/-- What is on disk of a queue. -/
def view (S : Setup) (t : Thread) (q : Queue) : Dir := (S.content q).upTo (t.arrived q)

def after : Queue → Turn
  | .input => .poll .analysis
  | .analysis => .choose

/-- The work on a queue is done, or the reader is at one of the steps that follow a read. -/
def leave (t : Thread) (q : Queue) (s : Side) : Thread :=
  { t.setSide q s with turn := if s.reader.pc = .read then after q else .next q }

/-- Still waiting on the first file: a reset moves `p->cur` and `p->cp` too. -/
def openFirst (S : Setup) (t : Thread) (q : Queue) (now : Nat) (lookup : Checkpoint) : Thread :=
  let s := (t.side q).openFirst (t.view S q) lookup now
  let p := if (t.side q).resets now then
      { t.plugin with cur := t.plugin.cur.set q lookup, cp := t.plugin.cp.set q lookup }
    else t.plugin
  let p := if s.reader.input.fh.isSome then { p with opened := Function.update p.opened q true } else p
  { t.setSide q s with plugin := p, turn := after q }

def poll (S : Setup) (t : Thread) (q : Queue) (n now : Nat) (lookup : Checkpoint) : Thread :=
  if (t.side q).reader.input.fh = none then t.openFirst S q now lookup
  else t.leave q ((t.side q).poll S (t.view S q) now n)

/-- The older of the messages held. -/
def oldest (S : Setup) (t : Thread) : Option (Queue × List UInt8) :=
  match (t.side .input).held, (t.side .analysis).held with
  | some im, some am =>
    if S.timestamp im ≤ S.timestamp am then some (.input, im) else some (.analysis, am)
  | some im, none => some (.input, im)
  | none, some am => some (.analysis, am)
  | none, none => none

/-- The oldest message held is given to `output_message` with `p->cur` at its end; with none and nothing
read the thread is idle. -/
def choose (S : Setup) (t : Thread) : Thread :=
  match t.oldest S with
  | some (q, _) =>
    let e := (t.side q).position
    { t.setSide q { t.side q with held := none } with
      plugin := { t.plugin with cur := t.plugin.cur.set q e, msg := some ⟨q, e⟩, pc := .offer false } }
  | none =>
    if (t.side .input).bytesRead = 0 ∧ (t.side .analysis).bytesRead = 0 then
      { t with plugin := { t.plugin with msg := none, pc := .ticker false .done } }
    else { t with plugin := { t.plugin with pc := .head } }

end Thread

def step (S : Setup) (t : Thread) : Event → Option Thread
  | .arrive q e =>
    if t.arrived q ≤ e then some { t with arrived := Function.update t.arrived q e } else none
  | .plugin e =>
    if own e then
      (t.plugin.step e).map fun p => { t with plugin := p, turn := if e = .head then .poll .input else t.turn }
    else none
  | .poll n now lookup =>
    match t.plugin.pc, t.turn with
    | .body, .poll q => some (t.poll S q n now lookup)
    | _, _ => none
  | .next =>
    match t.plugin.pc, t.turn with
    | .body, .next q => some (t.leave q ((t.side q).next S (t.view S q)))
    | _, _ => none
  | .choose => if t.plugin.pc = .body ∧ t.turn = .choose then some (t.choose S) else none

section

variable {S : Setup} {t t' : Thread}

theorem step_arrive {q : Queue} {e : Checkpoint} : step S t (.arrive q e) = some t' ↔
    t.arrived q ≤ e ∧ t' = { t with arrived := Function.update t.arrived q e } := by
  rw [step, Option.ite_none_right_eq_some, Option.some.injEq, eq_comm (a := t')]

theorem step_own {e : OpEvent} : step S t (.plugin e) = some t' ↔ own e = true ∧
    ∃ p, t.plugin.step e = some p ∧
      t' = { t with plugin := p, turn := if e = .head then .poll .input else t.turn } := by
  simp only [step, Option.ite_none_right_eq_some, Option.map_eq_some_iff, eq_comm (a := t')]

theorem step_poll {n now : Nat} {lookup : Checkpoint} : step S t (.poll n now lookup) = some t' ↔
    ∃ q, t.plugin.pc = .body ∧ t.turn = .poll q ∧ t' = t.poll S q n now lookup := by
  constructor
  · intro h
    simp only [step] at h
    split at h
    · rename_i q hbody hturn
      cases h
      exact ⟨q, hbody, hturn, rfl⟩
    · cases h
  · rintro ⟨q, hbody, hturn, rfl⟩
    simp only [step, hbody, hturn]

theorem step_next : step S t .next = some t' ↔ ∃ q, t.plugin.pc = .body ∧ t.turn = .next q ∧
    t' = t.leave q ((t.side q).next S (t.view S q)) := by
  constructor
  · intro h
    simp only [step] at h
    split at h
    · rename_i q hbody hturn
      cases h
      exact ⟨q, hbody, hturn, rfl⟩
    · cases h
  · rintro ⟨q, hbody, hturn, rfl⟩
    simp only [step, hbody, hturn]

theorem step_choose : step S t .choose = some t' ↔
    (t.plugin.pc = .body ∧ t.turn = .choose) ∧ t' = t.choose S := by
  rw [step, Option.ite_none_right_eq_some, Option.some.injEq, eq_comm (a := t')]

end

/-! ## What is delivered -/

/-- The positions the readers start from, since their last reset, and the messages given to
`output_message`, in that order, each with its queue and its end. -/
structure History where
  start : Queue → Checkpoint
  given : List (Queue × List UInt8 × Checkpoint)

/-- The messages of one queue among those given to `output_message`. -/
def History.delivered (h : History) (q : Queue) : List (List UInt8 × Checkpoint) :=
  h.given.filterMap fun x => if x.1 = q then some x.2 else none

def see (S : Setup) (t : Thread) (h : History) : Event → History
  | .poll _ now lookup =>
    match t.turn with
    | .poll q =>
      if (t.side q).reader.input.fh = none ∧ (t.side q).resets now = true then
        { h with start := Function.update h.start q lookup }
      else h
    | _ => h
  | .choose =>
    match t.oldest S with
    | some (q, pb) => { h with given := h.given ++ [(q, pb, (t.side q).position)] }
    | none => h
  | _ => h

abbrev State := Thread × History

/-- The machine with its observer. -/
def machine (S : Setup) : State → Event → Option State := Runs.observe (step S) (see S)

def start (S : Setup) (asyncLen tickerInterval tickerExpires : Nat) (c : CheckpointPair) : State :=
  (Thread.init S asyncLen tickerInterval tickerExpires c, ⟨c.get, []⟩)

/-- The end of the last of the messages, which start at `c`. -/
def lastEnd (c : Checkpoint) (ds : List (List UInt8 × Checkpoint)) : Checkpoint :=
  match ds.getLast? with
  | none => c
  | some x => x.2

section

variable (S : Setup) (msgs : Queue → Nat → List (List UInt8))

/-- The messages of a queue from a position on, with their ends. -/
def stream (q : Queue) (c : Checkpoint) : List (List UInt8 × Checkpoint) :=
  (if c.id ∈ (S.content q).ids then
    S.lib.endPositions c.id c.offset (S.lib.restFrom c.offset (msgs q c.id)) else []) ++
    later S.lib (S.content q) (msgs q) c.id

/-- A position in a file that is there is at the start or end of a message, or past the end where `fseek`
can go. -/
def Aligned (q : Queue) (c : Checkpoint) : Prop :=
  c.id ∈ (S.content q).ids →
    Boundary S.lib (S.content q) (msgs q) c ∨
      ((S.content q).bytes c.id).length ≤ c.offset ∧ c.offset < 2 ^ 63

/-- What holds of a queue: the messages delivered are the first of its stream, `p->cur` is at the end of
the last of them, a message that is held is the next one and ends after `p->cur` and `p->cp`, and a reader
restarted at `p->cp` gets all the messages that are not delivered. -/
structure SafeQueue (t : Thread) (h : History) (q : Queue) : Prop where
  delivered : h.delivered q <+: stream S msgs q (h.start q)
  cur : t.plugin.cur.get q = lastEnd (h.start q) (h.delivered q)
  held : ∀ pb, (t.side q).held = some pb → ∃ e,
    (stream S msgs q (h.start q))[(h.delivered q).length]? = some (pb, e) ∧
      t.plugin.cur.get q < e ∧ t.plugin.cp.get q < e
  restart : ∃ k ≤ (h.delivered q).length,
    stream S msgs q (t.plugin.cp.get q) = (stream S msgs q (h.start q)).drop k

def Safe (s : State) : Prop := ∀ q, SafeQueue S msgs s.1 s.2 q

/-- A reset goes to where a message starts and not behind the ring, and a file that is left was read to
its end. -/
def Admits (s : State) (e : Event) : Prop :=
  match e, s.1.turn with
  | .poll _ now lookup, .poll q =>
    (s.1.side q).reader.input.fh = none → (s.1.side q).resets now = true →
      Aligned S msgs q lookup ∧ ∀ i < s.1.plugin.asyncLen, (s.1.plugin.asyncCp i).get q ≤ lookup
  | .next, .next q =>
    (s.1.side q).leaves (s.1.view S q) = true →
      ((S.content q).bytes (s.1.side q).reader.input.cp.id).length ≤ (s.1.side q).reader.input.cp.offset
  | _, _ => True

end

/-! ## Streams -/

section

variable {S : Setup} {msgs : Queue → Nat → List (List UInt8)} {q : Queue} {c : Checkpoint}

/-- What a reader that starts at the position finds in the file. -/
theorem Aligned.bytes (hA : Aligned S msgs q c) (hW : Whole S.lib (S.content q) (msgs q))
    (hm : c.id ∈ (S.content q).ids) :
    ((S.content q).bytes c.id).drop c.offset = S.lib.frames (S.lib.restFrom c.offset (msgs q c.id)) := by
  rcases hA hm with ⟨-, done, rest, hmsgs, hoff⟩ | ⟨hpast, -⟩
  · rw [hW.bytes _ hm, hmsgs, hoff, S.lib.restFrom_frames, S.lib.frames_append, List.drop_left]
  · rw [List.drop_eq_nil_of_le hpast, S.lib.restFrom_past]
    · rfl
    · rw [← hW.bytes _ hm]
      exact hpast

/-- It is where `fseek` can go. -/
theorem Aligned.seek (hA : Aligned S msgs q c) (hW : Whole S.lib (S.content q) (msgs q))
    (hm : c.id ∈ (S.content q).ids) : c.offset < 2 ^ 63 := by
  rcases hA hm with ⟨-, done, rest, hmsgs, hoff⟩ | ⟨-, hseek⟩
  · have hsize := hW.size _ hm
    rw [hW.bytes _ hm, hmsgs, S.lib.frames_append, List.length_append] at hsize
    omega
  · exact hseek

/-- A reader that starts where a message ends gets the messages after it. -/
theorem stream_of_end (hA : Aligned S msgs q c) (hW : Whole S.lib (S.content q) (msgs q)) {k : Nat}
    {m : List UInt8} {c' : Checkpoint} (hk : (stream S msgs q c)[k]? = some (m, c')) :
    stream S msgs q c' = (stream S msgs q c).drop (k + 1) := by
  have hboundary : Boundary S.lib (S.content q) (msgs q) c' ∧
      deliveries S.lib (S.content q) (msgs q) c' = (stream S msgs q c).drop (k + 1) := by
    have hlater : ∀ ds, (stream S msgs q c) = ds ++ later S.lib (S.content q) (msgs q) c.id → ds = [] →
        Boundary S.lib (S.content q) (msgs q) c' ∧
          deliveries S.lib (S.content q) (msgs q) c' = (stream S msgs q c).drop (k + 1) := by
      rintro ds hds rfl
      rw [List.nil_append] at hds
      rw [hds] at hk ⊢
      by_cases hle : c.id ≤ findLastId (S.content q)
      · exact boundary_of_span (by omega) hk
      · rw [later, show findLastId (S.content q) - c.id = 0 by omega] at hk
        cases hk
    by_cases hm : c.id ∈ (S.content q).ids
    · rcases hA hm with hB | ⟨hpast, -⟩
      · have hs : stream S msgs q c = deliveries S.lib (S.content q) (msgs q) c := by
          rw [stream, if_pos hm, deliveries]
        rw [hs] at hk ⊢
        exact boundary_of_delivery hB hk
      · refine hlater _ (by rw [stream, if_pos hm]) ?_
        rw [S.lib.restFrom_past]
        · rfl
        · rw [← hW.bytes _ hm]
          exact hpast
    · exact hlater _ (by rw [stream, if_neg hm]) rfl
  rw [stream, if_pos hboundary.1.1]
  exact hboundary.2

end

/-! ## The invariant of a queue -/

section

variable (S : Setup) (msgs : Queue → Nat → List (List UInt8))

/-- The first file is not open yet. -/
structure Waiting (q : Queue) (s : Side) (h : History) (cur : Checkpoint) : Prop where
  input : s.reader.input = hsInitInput (h.start q)
  pc : s.reader.pc = .read
  ib : s.ib = S.lib.initBuffer
  held : s.held = none
  delivered : h.delivered q = []
  reached : cur = h.start q

/-- File `id` is open. What was delivered, what is held and what is ahead are the stream, and what is held
ends at `off`. -/
structure Reading (q : Queue) (s : Side) (h : History) (cur : Checkpoint) (id off : Nat)
    (rest : List (List UInt8)) : Prop where
  feed : Feed S.lib (S.content q) s.reader.input s.ib id off rest
  reached : cur ≤ ⟨id, off⟩
  held : s.held ≠ none → cur < ⟨id, off⟩
  stream : h.delivered q ++ ((s.held.map fun pb => (pb, (⟨id, off⟩ : Checkpoint))).toList ++
    (S.lib.endPositions id off rest ++ later S.lib (S.content q) (msgs q) id)) =
      stream S msgs q (h.start q)
  within : off < 2 ^ 63

/-- A read returned nothing, and a file that was found is the next one there is. -/
structure Ending (q : Queue) (s : Side) (arrived : Checkpoint) (id : Nat) (rest : List (List UInt8)) :
    Prop where
  held : s.held = none
  short : Short S.lib s.ib rest
  found : ∀ j, s.reader.pc = .openFound j → j ∈ ((S.content q).upTo arrived).ids ∧ id < j ∧
    ∀ i ∈ (S.content q).ids, id < i → j ≤ i

def QueueInv (q : Queue) (s : Side) (h : History) (cur arrived : Checkpoint) : Prop :=
  Waiting S q s h cur ∨ ∃ id off rest, Reading S msgs q s h cur id off rest ∧
    (s.reader.pc = .read ∨ Ending S q s arrived id rest)

end

section

variable {S : Setup} {msgs : Queue → Nat → List (List UInt8)} {q : Queue} {s : Side} {h : History}
  {cur e : Checkpoint} {id off : Nat} {rest : List (List UInt8)}

/-- Where the reader says the message that is held ends. -/
theorem Reading.position (hR : Reading S msgs q s h cur id off rest) : s.position = ⟨id, off⟩ := by
  have hcp : s.reader.input.cp = ⟨id, off + s.ib.unscanned.length⟩ := by rw [hR.feed.input]; rfl
  have hle := InputBuffer.length_unscanned_le hR.feed.ok
  have hsize := hR.feed.ok.2.2
  have hoff := hR.within
  have hmax : ullongMax = 2 ^ 64 - 1 := rfl
  simp only [Side.position, hcp, InputBuffer.sub64_scanpos hR.feed.ok]
  rw [sub64_of_le (by omega) (by omega), Nat.add_sub_cancel]

theorem Reading.fh (hR : Reading S msgs q s h cur id off rest) : s.reader.input.fh.isSome = true := by
  rw [hR.feed.input]
  rfl

/-- The messages delivered are the first of the stream. -/
theorem QueueInv.delivered {arrived : Checkpoint} (hI : QueueInv S msgs q s h cur arrived) :
    h.delivered q <+: stream S msgs q (h.start q) := by
  rcases hI with hw | ⟨id, off, rest, hR, -⟩
  · rw [hw.delivered]
    exact List.nil_prefix
  · exact ⟨_, hR.stream⟩

/-- `lsb_find_heka_message` found a message. -/
theorem Reading.find (hR : Reading S msgs q s h cur id off rest)
    (hW : Whole S.lib (S.content q) (msgs q)) (hheld : s.held = none) {ib : InputBuffer} {pb : List UInt8}
    {ms : List (List UInt8)} (hrest : rest = pb :: ms)
    (hfeed : Feed S.lib (S.content q) s.reader.input ib id (off + (frame S.lib.varint pb).length) ms) :
    Reading S msgs q { s with ib := ib, held := some pb } h cur id
      (off + (frame S.lib.varint pb).length) ms := by
  have hpos : 0 < (frame S.lib.varint pb).length := List.length_pos_iff.mpr (frame_ne_nil _ _)
  have hlt : cur < ⟨id, off + (frame S.lib.varint pb).length⟩ := by
    refine lt_of_le_of_lt hR.reached (Checkpoint.lt_iff.mpr (.inr ⟨rfl, ?_⟩))
    simp only
    omega
  have hstream := hR.stream
  rw [hheld, hrest] at hstream
  refine ⟨hfeed, hlt.le, fun _ => hlt, hstream, ?_⟩
  -- the message is in the file
  have hsize := hW.size id hR.feed.mem
  have hlen := congrArg List.length hR.feed.bytes
  rw [hrest, SandboxLib.frames_cons, List.length_drop, List.length_append] at hlen
  omega

/-- A read with nothing found, at a time the queue ends at `e`. -/
theorem Reading.readFile (hR : Reading S msgs q s h cur id off rest) (hL : S.lib.Lawful)
    (hheld : s.held = none) (hpc : s.reader.pc = .read) {ib : InputBuffer}
    (hfeed : Feed S.lib (S.content q) s.reader.input ib id off rest) (hshort : Short S.lib ib rest)
    (now n : Nat) :
    let s' := Side.readFile S ((S.content q).upTo e) now n { s with ib := ib }
    Reading S msgs q s' h cur id off rest ∧ (s'.reader.pc = .read ∨ Ending S q s' e id rest) := by
  obtain ⟨hfeed', -, hnil⟩ := hfeed.read hshort hL (Dir.bytes_upTo_initial _ e id) n
  have hstream := hR.stream
  rw [hheld] at hstream
  obtain ⟨hin, -, -, hpc'⟩ := QueueReader.readStep_cases .output S.outputSize ((S.content q).upTo e)
    hfeed.input
    (min (n + 1) ((S.lib.expand ib ib.need).size - (S.lib.expand ib ib.need).readpos)) now
  have hinput : (readInto S.lib ((S.content q).upTo e) s.reader.input ib n).1 =
      (Side.readFile S ((S.content q).upTo e) now n { s with ib := ib }).reader.input := by
    refine Eq.trans ?_ hin.symm
    rw [readInto, hfeed.input]
    rfl
  rw [hinput] at hfeed'
  refine ⟨⟨hfeed', hR.reached, fun h => absurd hheld h, ?_, hR.within⟩, ?_⟩
  · change h.delivered q ++ ((s.held.map _).toList ++ _) = _
    rw [hheld]
    exact hstream
  · rcases hpc' with ⟨hpc', -⟩ | ⟨hpc', hbs⟩
    · exact .inl (hpc'.trans hpc)
    · have hbytes : (readInto S.lib ((S.content q).upTo e) s.reader.input ib n).2.2 = [] := by
        rw [readInto, hfeed.input]
        exact hbs
      refine .inr ⟨hheld, (hnil hbytes).1, fun j hj => ?_⟩
      cases hpc'.symm.trans hj

/-- A turn's work on a queue the first file of which is open. -/
theorem Reading.poll (hR : Reading S msgs q s h cur id off rest) (hL : S.lib.Lawful)
    (hW : Whole S.lib (S.content q) (msgs q)) (hpc : s.reader.pc = .read) (now n : Nat) :
    QueueInv S msgs q (s.poll S ((S.content q).upTo e) now n) h cur e ∧
      (s.poll S ((S.content q).upTo e) now n).reader.input.fh.isSome = true := by
  unfold Side.poll
  cases hheld : s.held with
  | some pb => exact ⟨.inr ⟨id, off, rest, hR, .inl hpc⟩, hR.fh⟩
  | none =>
    rcases hR.feed.find hL with ⟨pb, ms, hrest, hfound, hfeed⟩ | ⟨hfound, hfeed, hshort⟩
    · generalize S.lib.find s.ib = r at hfound hfeed
      obtain ⟨ib, found⟩ := r
      simp only at hfound hfeed
      simp only [hfound]
      exact ⟨.inr ⟨_, _, _, hR.find hW hheld hrest hfeed, .inl hpc⟩, hR.fh⟩
    · generalize S.lib.find s.ib = r at hfound hfeed hshort
      obtain ⟨ib, found⟩ := r
      simp only at hfound hfeed hshort
      simp only [hfound]
      obtain ⟨hR', hpc'⟩ := hR.readFile (e := e) hL hheld hpc hfeed hshort now n
      rw [hheld] at hR' hpc'
      exact ⟨.inr ⟨_, _, _, hR', hpc'⟩, hR'.fh⟩

/-- The reader goes on with the next file there is. -/
theorem Reading.move (hR : Reading S msgs q s h cur id off []) (hW : Whole S.lib (S.content q) (msgs q))
    (hheld : s.held = none) {r : QueueReader} {j : Nat} (hin : r.input = .opened ⟨j, 0⟩)
    (hj : j ∈ (S.content q).ids) (hlt : id < j) (hleast : ∀ i ∈ (S.content q).ids, id < i → j ≤ i) :
    Reading S msgs q { s with reader := r } h cur j 0 (msgs q j) := by
  have hstream := hR.stream
  rw [hheld, SandboxLib.endPositions, List.nil_append, later_next hj hlt hleast] at hstream
  have hfeed := hR.feed.move hj (hW.bytes _ hj) (hW.accepts _ hj)
  rw [← hin] at hfeed
  refine ⟨hfeed, hR.reached.trans ?_, fun h => absurd hheld h, ?_, Nat.two_pow_pos 63⟩
  · exact Checkpoint.le_iff.mpr (.inl hlt)
  · change h.delivered q ++ ((s.held.map _).toList ++ _) = _
    rw [hheld]
    exact hstream

/-- A step after a read that returned nothing; a file that is left was read to its end. -/
theorem Reading.next (hR : Reading S msgs q s h cur id off rest) (hE : Ending S q s e id rest)
    (hW : Whole S.lib (S.content q) (msgs q)) (hid : ∀ i ∈ (S.content q).ids, i < ullongMax)
    (hread : s.leaves ((S.content q).upTo e) = true →
      ((S.content q).bytes s.reader.input.cp.id).length ≤ s.reader.input.cp.offset) :
    QueueInv S msgs q (s.next S ((S.content q).upTo e)) h cur e ∧
      (s.next S ((S.content q).upTo e)).reader.input.fh.isSome = true := by
  have hcp : s.reader.input.cp = ⟨id, off + s.ib.unscanned.length⟩ := by rw [hR.feed.input]; rfl
  have hlt : s.reader.input.cp.id < ullongMax := by
    rw [hcp]
    exact hid id hR.feed.mem
  -- a reader that stays at its file
  have hstay : ∀ r : QueueReader, r.input = s.reader.input →
      (∀ j, r.pc = .openFound j → j ∈ ((S.content q).upTo e).ids ∧ id < j ∧
        ∀ i ∈ (S.content q).ids, id < i → j ≤ i) →
      QueueInv S msgs q { s with reader := r } h cur e ∧ r.input.fh.isSome = true := by
    intro r hr hfound
    have hfeed := hR.feed
    rw [← hr] at hfeed
    refine ⟨.inr ⟨id, off, rest, ⟨hfeed, hR.reached, hR.held, hR.stream, hR.within⟩,
      .inr ⟨hE.held, hE.short, hfound⟩⟩, ?_⟩
    rw [hr]
    exact hR.fh
  have hmove : ∀ (r : QueueReader) (j : Nat), r.input = .opened ⟨j, 0⟩ → r.pc = .read →
      j ∈ ((S.content q).upTo e).ids → id < j → (∀ i ∈ (S.content q).ids, id < i → j ≤ i) →
      ((S.content q).bytes s.reader.input.cp.id).length ≤ s.reader.input.cp.offset →
      QueueInv S msgs q { s with reader := r } h cur e ∧ r.input.fh.isSome = true := by
    intro r j hin hpc hj hlt hleast hlen
    have hlen' : ((S.content q).bytes id).length ≤ s.reader.input.cp.offset := by
      rw [hcp] at hlen ⊢
      exact hlen
    cases hR.feed.rest_eq_nil hE.short hlen'
    refine ⟨.inr ⟨j, 0, msgs q j, hR.move hW hE.held hin (Dir.mem_upTo.mp hj).1 hlt hleast, .inl hpc⟩, ?_⟩
    rw [hin]
    rfl
  unfold Side.next
  cases hpc : s.reader.pc with
  | read =>
    refine hstay _ rfl fun j hj => ?_
    cases hpc.symm.trans hj
  | openNext =>
    simp only [GapSkip.openNext_eq hlt]
    obtain ⟨hm, hin, hread', -, -⟩ | ⟨hm, hin, -, hpc'⟩ :=
      QueueReader.openNext_cases .output S.outputSize ((S.content q).upTo e) hR.feed.input
    · refine hmove _ (id + 1) hin hread' hm (Nat.lt_succ_self id) (fun i _ hi => hi) (hread ?_)
      simp only [Side.leaves, hpc, HsInput.nextId_eq hlt, hcp]
      exact decide_eq_true hm
    · refine hstay _ (hin.trans hR.feed.input.symm) fun j hj => ?_
      rcases hpc' with ⟨hpc', -⟩ | hpc'
      all_goals cases hpc'.symm.trans hj
  | findNext =>
    simp only [GapSkip.findNext_eq hlt]
    obtain ⟨hin, -, ⟨hpc', -⟩ | ⟨j, hpc', hj, hlt, hleast⟩⟩ :=
      QueueReader.findNext_cases ((S.content q).upTo e) hR.feed.input
    · refine hstay _ (hin.trans hR.feed.input.symm) fun j hj => ?_
      cases hpc'.symm.trans hj
    · refine hstay _ (hin.trans hR.feed.input.symm) fun j' hj' => ?_
      cases hpc'.symm.trans hj'
      refine ⟨hj, by simp only at hlt; omega, fun i hi hidi => ?_⟩
      -- a file before the one that was found would be on disk too
      by_contra hlt'
      have hvis : i ∈ ((S.content q).upTo e).ids :=
        Dir.mem_upTo.mpr ⟨hi, by have := (Dir.mem_upTo.mp hj).2; omega⟩
      exact hlt' (hleast i hvis hidi)
  | openFound j =>
    obtain ⟨hj, hlt, hleast⟩ := hE.found j hpc
    have hne : id ≠ j := by omega
    have heq := QueueReader.openFound_eq (r := s.reader) hR.feed.input hj hne
    simp only
    rw [heq]
    exact hmove _ j rfl rfl hj hlt hleast (hread (by simp only [Side.leaves, hpc]))

/-- A try at the first file, at the starting position or the one of a reset. -/
theorem Waiting.openFirst (hw : Waiting S q s h cur) (hL : S.lib.Lawful)
    (hW : Whole S.lib (S.content q) (msgs q)) (now : Nat) (lookup : Checkpoint) (h' : History)
    (hstart : h'.start q = if s.resets now then lookup else h.start q)
    (hdelivered : h'.delivered q = h.delivered q) (hA : Aligned S msgs q (h'.start q)) :
    QueueInv S msgs q (s.openFirst ((S.content q).upTo e) lookup now) h' (h'.start q) e ∧
      (s.openFirst ((S.content q).upTo e) lookup now).reader.pc = .read := by
  have hempty : h'.delivered q = [] := hdelivered.trans hw.delivered
  by_cases hdue : s.reader.due .output now = true
  · -- the position the file of which is tried
    have hinput : (if s.reader.iwaitCnt + 1 > 60 then { s.reader.input with cp := lookup }
        else s.reader.input) = hsInitInput (h'.start q) := by
      rw [hstart, Side.resets, hdue, hw.input]
      by_cases hr : s.reader.iwaitCnt + 1 > 60
      · rw [if_pos hr, if_pos (by simpa using hr)]
        rfl
      · rw [if_neg hr, if_neg (by simpa using hr)]
    have hid : (hsInitInput (h'.start q)).cp.id = (h'.start q).id := rfl
    have hpc : (s.openFirst ((S.content q).upTo e) lookup now).reader.pc = .read := by
      simp only [Side.openFirst, QueueReader.openFirst, if_pos hdue, QueueReader.tick_pc]
      exact hw.pc
    have hin : (s.openFirst ((S.content q).upTo e) lookup now).reader.input =
        (hsOpenFile ((S.content q).upTo e) (hsInitInput (h'.start q)) (h'.start q).id).1 := by
      simp only [Side.openFirst, QueueReader.openFirst, if_pos hdue, QueueReader.tick_input,
        QueueReader.tick_iwaitCnt, hinput, hid]
    refine ⟨?_, hpc⟩
    rw [HsInput.hsOpenFile_init] at hin
    by_cases hm : (h'.start q).id ∈ ((S.content q).upTo e).ids
    · rw [if_pos hm] at hin
      have hmem : (h'.start q).id ∈ (S.content q).ids := (Dir.mem_upTo.mp hm).1
      have hib : (s.openFirst ((S.content q).upTo e) lookup now).ib = S.lib.initBuffer := hw.ib
      have hfeed : Feed S.lib (S.content q) (.opened (h'.start q))
          (s.openFirst ((S.content q).upTo e) lookup now).ib (h'.start q).id (h'.start q).offset
          (S.lib.restFrom (h'.start q).offset (msgs q (h'.start q).id)) := by
        refine feed_start ?_ ?_ hmem (hA.bytes hW hmem) fun pb hpb => ?_
        · rw [hib]
          exact ⟨hL.init_empty, hL.init_ok, hL.init_msglen⟩
        · rw [hib]
        · exact hW.accepts _ hmem pb (S.lib.mem_restFrom hpb)
      refine .inr ⟨_, _, S.lib.restFrom (h'.start q).offset (msgs q (h'.start q).id),
        ⟨?_, le_refl _, fun hheld => absurd hw.held hheld, ?_, hA.seek hW hmem⟩, .inl hpc⟩
      · rw [hin]
        exact hfeed
      · change h'.delivered q ++ ((s.held.map _).toList ++ _) = _
        rw [hempty, hw.held, stream, if_pos hmem]
        rfl
    · rw [if_neg hm] at hin
      exact .inl ⟨hin, hpc, hw.ib, hw.held, hempty, rfl⟩
  · have hsame : s.openFirst ((S.content q).upTo e) lookup now = s := by
      simp only [Side.openFirst, QueueReader.openFirst, if_neg hdue]
    have hstart' : h'.start q = h.start q := by
      rw [hstart, Side.resets]
      simp [hdue]
    rw [hsame]
    exact ⟨.inl ⟨by rw [hstart']; exact hw.input, hw.pc, hw.ib, hw.held, hempty, rfl⟩, hw.pc⟩

/-- A message that is held is given away. -/
theorem Reading.take (hR : Reading S msgs q s h cur id off rest) {pb : List UInt8}
    (hheld : s.held = some pb) {h' : History} (hstart : h'.start q = h.start q)
    (hdelivered : h'.delivered q = h.delivered q ++ [(pb, ⟨id, off⟩)]) :
    Reading S msgs q { s with held := none } h' ⟨id, off⟩ id off rest := by
  have hstream := hR.stream
  rw [hheld] at hstream
  refine ⟨hR.feed, le_refl _, fun h => absurd rfl h, ?_, hR.within⟩
  rw [hdelivered, hstart, List.append_assoc]
  exact hstream

/-- More of the queues is on disk. -/
theorem QueueInv.arrive {e' : Checkpoint} (hI : QueueInv S msgs q s h cur e) (hle : e ≤ e') :
    QueueInv S msgs q s h cur e' := by
  rcases hI with hw | ⟨id, off, rest, hR, hpc⟩
  · exact .inl hw
  · refine .inr ⟨id, off, rest, hR, hpc.imp_right fun hE => ⟨hE.held, hE.short, fun j hj => ?_⟩⟩
    obtain ⟨hm, hlt, hleast⟩ := hE.found j hj
    obtain ⟨hm, hid⟩ := Dir.mem_upTo.mp hm
    have := Checkpoint.le_iff.mp hle
    exact ⟨Dir.mem_upTo.mpr ⟨hm, by omega⟩, hlt, hleast⟩

end

/-! ## The plugin -/

section

variable {p p' : OutputPlugin} {e : OpEvent}

open OutputPlugin

/-- What the plugin does without its readers: `cp` moves to `cur` or forward to a slot of the ring, and
the ring takes `cur`. -/
structure Owned (p p' : OutputPlugin) : Prop where
  readQueue : p'.readQueue = p.readQueue
  asyncLen : p'.asyncLen = p.asyncLen
  opened : p'.opened = p.opened
  cur : p'.cur = p.cur
  cp : p'.cp = p.cp ∨ p'.cp = p.cur ∨ ∃ i < p.asyncLen, p'.cp = p.cp.merge (p.asyncCp i)
  ring : ∀ i, p'.asyncCp i = p.asyncCp i ∨ p'.asyncCp i = p.cur

theorem owned_control (h : p.step e = some p') (he : control e = true) : Owned p p' := by
  obtain ⟨pc, msg, stop, localStop, expires, running, rfl⟩ := control_frame h he
  exact ⟨rfl, rfl, rfl, rfl, .inl rfl, fun _ => .inl rfl⟩

theorem owned_advance (p : OutputPlugin) (ret : Ret) : Owned p (p.advance ret) := by
  rw [advance_eq]
  split
  · exact ⟨rfl, rfl, rfl, rfl, .inr (.inl rfl), fun _ => .inl rfl⟩
  · exact ⟨rfl, rfl, rfl, rfl, .inl rfl, fun _ => .inl rfl⟩

theorem owned_saveAsync (p : OutputPlugin) : Owned p p.saveAsync := by
  unfold OutputPlugin.saveAsync
  split
  · refine ⟨rfl, rfl, rfl, rfl, .inl rfl, fun i => ?_⟩
    by_cases hi : i = p.nextSequenceId % p.asyncLen
    · exact .inr (by rw [hi]; exact Function.update_self _ _ _)
    · exact .inl (Function.update_of_ne hi _ _)
  · exact ⟨rfl, rfl, rfl, rfl, .inl rfl, fun _ => .inl rfl⟩

theorem owned_callback (p : OutputPlugin) (seq : Nat) : Owned p (p.updateCheckpointCallback seq) := by
  by_cases h : seq ≠ 0 ∧ p.asyncLen ≠ 0
  · rw [updateCheckpointCallback_ack h.1 h.2]
    exact ⟨rfl, rfl, rfl, rfl, .inr (.inr ⟨_, Nat.mod_lt _ (Nat.pos_of_ne_zero h.2), rfl⟩),
      fun _ => .inl rfl⟩
  · rw [updateCheckpointCallback_null h]
    split
    · exact ⟨rfl, rfl, rfl, rfl, .inr (.inl rfl), fun _ => .inl rfl⟩
    · exact ⟨rfl, rfl, rfl, rfl, .inl rfl, fun _ => .inl rfl⟩

theorem own_step (he : own e = true) (h : p.step e = some p') : Owned p p' := by
  by_cases hc : control e = true
  · exact owned_control h hc
  cases e with
  | stop | head | idle | nothing | ticker | timerReturn | reoffer | shutdownReturn => exact absurd rfl hc
  | openFirst | reset | deliver => cases he
  | matcher matched =>
    obtain ⟨again, -, rfl⟩ := step_matcher h
    cases matched with
    | true =>
      have ho := owned_saveAsync p
      exact ⟨ho.readQueue, ho.asyncLen, ho.opened, ho.cur, ho.cp, ho.ring⟩
    | false =>
      have ho := owned_advance p .done
      exact ⟨ho.readQueue, ho.asyncLen, ho.opened, ho.cur, ho.cp, ho.ring⟩
  | callback seq =>
    rw [(step_callback h).2]
    exact owned_callback p seq
  | pmReturn r =>
    obtain ⟨again, -, rfl⟩ := step_pmReturn h
    obtain ⟨hcp, hcur, hring, hlen, hopened⟩ := OutputProgress.pmReturn_same p r
    have hrq : (p.pmReturn r).1.readQueue = p.readQueue := by
      cases r with
      | async =>
        simp only [OutputPlugin.pmReturn]
        split <;> rfl
      | _ => rfl
    have ho := owned_advance (p.pmReturn r).1 (p.pmReturn r).2
    have hcp' := ho.cp
    have hring' := ho.ring
    rw [hcp, hcur, hlen, hring] at hcp'
    rw [hring, hcur] at hring'
    exact ⟨ho.readQueue.trans hrq, ho.asyncLen.trans hlen, ho.opened.trans hopened, ho.cur.trans hcur, hcp',
      hring'⟩

/-- In the body of the loop only a stop request comes from outside. -/
theorem own_body (he : own e = true) (h : p.step e = some p') (hpc : p.pc = .body) :
    e = .stop ∧ p'.pc = .body := by
  cases e with
  | openFirst | reset | deliver | idle | nothing => cases he
  | stop =>
    cases h
    exact ⟨rfl, hpc⟩
  | head | callback | reoffer | shutdownReturn =>
    simp [OutputPlugin.step, hpc, inPlugin] at h
  | matcher | pmReturn | ticker | timerReturn =>
    simp [OutputPlugin.step, hpc] at h

end

/-! ## The invariant -/

theorem delivered_give_same (h : History) (q : Queue) (pb : List UInt8) (e : Checkpoint) :
    History.delivered { h with given := h.given ++ [(q, pb, e)] } q = h.delivered q ++ [(pb, e)] := by
  simp [History.delivered]

theorem delivered_give_other (h : History) {q r : Queue} (pb : List UInt8) (e : Checkpoint)
    (hr : r ≠ q) : History.delivered { h with given := h.given ++ [(q, pb, e)] } r = h.delivered r := by
  simp [History.delivered, Ne.symm hr]

/-- A position the plugin took: the start, or the end of a message delivered. -/
def On (h : History) (q : Queue) (c : Checkpoint) : Prop :=
  c = h.start q ∨ ∃ x ∈ h.delivered q, x.2 = c

structure Inv (S : Setup) (msgs : Queue → Nat → List (List UInt8)) (t : Thread) (h : History) :
    Prop where
  readQueue : t.plugin.readQueue = .both
  aligned : ∀ q, Aligned S msgs q (h.start q)
  queue : ∀ q, QueueInv S msgs q (t.side q) h (t.plugin.cur.get q) (t.arrived q)
  opened : ∀ q, t.plugin.opened q = (t.side q).reader.input.fh.isSome
  turn : ∀ q, (t.side q).reader.pc = .read ∨ t.turn = .next q ∧ t.plugin.pc = .body
  next : ∀ q, t.turn = .next q → (t.side q).reader.pc ≠ .read
  progress : OutputProgress.Inv t.plugin
  cur : ∀ q, t.plugin.cur.get q = lastEnd (h.start q) (h.delivered q)
  after : ∀ q, ∀ x ∈ h.delivered q, h.start q ≤ x.2
  cp : ∀ q, On h q (t.plugin.cp.get q)
  ring : ∀ i < t.plugin.asyncLen, ∀ q, On h q ((t.plugin.asyncCp i).get q) ∨
    (t.plugin.asyncCp i).get q ≤ h.start q

section

variable {S : Setup} {msgs : Queue → Nat → List (List UInt8)} {t t' : Thread} {h h' : History}
  {q : Queue} {c : Checkpoint}

theorem on_lastEnd (h : History) (q : Queue) : On h q (lastEnd (h.start q) (h.delivered q)) := by
  unfold lastEnd
  cases hl : (h.delivered q).getLast? with
  | none => exact .inl rfl
  | some x => exact .inr ⟨x, List.mem_of_getLast? hl, rfl⟩

theorem On.le (hc : On h q c) (hafter : ∀ x ∈ h.delivered q, h.start q ≤ x.2) : h.start q ≤ c := by
  rcases hc with rfl | ⟨x, hx, rfl⟩
  · exact le_refl _
  · exact hafter x hx

theorem On.mono (hc : On h q c) (hstart : h'.start q = h.start q)
    (hdelivered : h.delivered q ⊆ h'.delivered q) : On h' q c := by
  rcases hc with rfl | ⟨x, hx, rfl⟩
  · exact .inl hstart.symm
  · exact .inr ⟨x, hdelivered hx, rfl⟩

theorem Inv.cp_le (hI : Inv S msgs t h) (q : Queue) : t.plugin.cp.get q ≤ t.plugin.cur.get q :=
  hI.progress.cp q

theorem Inv.start_le (hI : Inv S msgs t h) (q : Queue) : h.start q ≤ t.plugin.cur.get q := by
  rw [hI.cur q]
  exact (on_lastEnd h q).le (hI.after q)

theorem Inv.safe (hI : Inv S msgs t h) (hW : ∀ q, Whole S.lib (S.content q) (msgs q)) :
    Safe S msgs (t, h) := by
  intro q
  refine ⟨(hI.queue q).delivered, hI.cur q, fun pb hheld => ?_, ?_⟩
  · rcases hI.queue q with hw | ⟨id, off, rest, hR, -⟩
    · have := hw.held
      rw [hheld] at this
      cases this
    · have hlt : t.plugin.cur.get q < ⟨id, off⟩ := hR.held (by rw [hheld]; simp)
      refine ⟨⟨id, off⟩, ?_, hlt, lt_of_le_of_lt (hI.cp_le q) hlt⟩
      have hstream := hR.stream
      rw [hheld] at hstream
      rw [← hstream]
      simp
  · rcases hI.cp q with hstart | ⟨x, hx, hend⟩
    · exact ⟨0, Nat.zero_le _, by rw [hstart, List.drop_zero]⟩
    · obtain ⟨k, hk, hget⟩ := List.mem_iff_getElem.mp hx
      refine ⟨k + 1, hk, ?_⟩
      obtain ⟨rest, hrest⟩ := (hI.queue q).delivered
      refine stream_of_end (m := x.1) (hI.aligned q) (hW q) ?_
      rw [← hrest, List.getElem?_append_left hk, List.getElem?_eq_getElem hk, hget, ← hend]

/-- A side whose history did not change. -/
theorem QueueInv.congr {s : Side} {cur e : Checkpoint} (hI : QueueInv S msgs q s h cur e)
    (hstart : h'.start q = h.start q) (hdelivered : h'.delivered q = h.delivered q) :
    QueueInv S msgs q s h' cur e := by
  rcases hI with hw | ⟨id, off, rest, hR, hpc⟩
  · exact .inl ⟨by rw [hstart]; exact hw.input, hw.pc, hw.ib, hw.held, hdelivered.trans hw.delivered,
      by rw [hstart]; exact hw.reached⟩
  · refine .inr ⟨id, off, rest, ⟨hR.feed, hR.reached, hR.held, ?_, hR.within⟩, hpc⟩
    rw [hstart, hdelivered]
    exact hR.stream

theorem Inv.own (hI : Inv S msgs t h) {e : OpEvent} {p : OutputPlugin} (he : own e = true)
    (hs : t.plugin.step e = some p) :
    Inv S msgs { t with plugin := p, turn := if e = .head then .poll .input else t.turn } h := by
  have ho := own_step he hs
  have hprogress := OutputProgress.step_inv (s := t.plugin.cp) hI.progress
    (by cases e <;> trivial) hs
  refine ⟨ho.readQueue.trans hI.readQueue, hI.aligned, fun q => ?_, fun q => ?_, fun q => ?_,
    fun q hnext => ?_, hprogress, fun q => ?_, hI.after, fun q => ?_, fun i hi q => ?_⟩
  · simp only [ho.cur]
    exact hI.queue q
  · simp only [ho.opened]
    exact hI.opened q
  · refine (hI.turn q).imp_right fun hturn => ?_
    obtain ⟨rfl, hpc⟩ := own_body he hs hturn.2
    exact ⟨hturn.1, hpc⟩
  · simp only at hnext
    split at hnext
    · cases hnext
    · exact hI.next q hnext
  · simp only [ho.cur]
    exact hI.cur q
  · -- a slot that is behind the start moves nothing
    rcases ho.cp with hcp | hcp | ⟨i, hi, hcp⟩
    · simp only [hcp]
      exact hI.cp q
    · simp only [hcp, hI.cur q]
      exact on_lastEnd h q
    · simp only [hcp, CheckpointPair.get_merge]
      have hle := (hI.cp q).le (hI.after q)
      rcases le_total ((t.plugin.asyncCp i).get q) (t.plugin.cp.get q) with h1 | h1
      · rw [max_eq_left h1]
        exact hI.cp q
      · rw [max_eq_right h1]
        rcases hI.ring i hi q with h2 | h2
        · exact h2
        · rw [le_antisymm (h2.trans hle) h1]
          exact hI.cp q
  · simp only [ho.asyncLen] at hi
    rcases ho.ring i with hring | hring
    · simp only [hring]
      exact hI.ring i hi q
    · simp only [hring, hI.cur q]
      exact .inl (on_lastEnd h q)

theorem after_ne_next (q r : Queue) : Thread.after q ≠ .next r := by
  cases q with
  | input => simp [Thread.after]
  | analysis => simp [Thread.after]

/-- The work on an open queue is done with the side `s`. -/
theorem Inv.leave (hI : Inv S msgs t h) (hbody : t.plugin.pc = .body) {s : Side}
    (hturn : ∀ r, r ≠ q → t.turn ≠ .next r)
    (hs : QueueInv S msgs q s h (t.plugin.cur.get q) (t.arrived q))
    (hfh : s.reader.input.fh.isSome = true) (hfh' : (t.side q).reader.input.fh.isSome = true) :
    Inv S msgs (t.leave q s) h := by
  have hside : ∀ r, (t.leave q s).side r = if r = q then s else t.side r := by
    intro r
    simp only [Thread.leave, Thread.setSide, Function.update_apply]
  refine ⟨hI.readQueue, hI.aligned, fun r => ?_, fun r => ?_, fun r => ?_, fun r hnext => ?_, hI.progress,
    hI.cur, hI.after, hI.cp, hI.ring⟩
  · rw [hside r]
    split
    · rename_i hr
      rw [hr]
      exact hs
    · exact hI.queue r
  · rw [hside r]
    split
    · rename_i hr
      rw [hr, hfh]
      exact (hI.opened q).trans hfh'
    · exact hI.opened r
  · rw [hside r]
    split
    · rename_i hr
      rw [hr]
      by_cases hpc : s.reader.pc = .read
      · exact .inl hpc
      · exact .inr ⟨if_neg hpc, hbody⟩
    · rename_i hr
      exact .inl ((hI.turn r).resolve_right fun hnext => hturn r hr hnext.1)
  · simp only [Thread.leave] at hnext
    by_cases hpc : s.reader.pc = .read
    · rw [if_pos hpc] at hnext
      exact absurd hnext (after_ne_next q r)
    · rw [if_neg hpc] at hnext
      cases hnext
      rw [hside q, if_pos rfl]
      exact hpc

theorem Thread.openFirst_reset (t : Thread) {now : Nat} {lookup : Checkpoint}
    (h : (t.side q).resets now = true) :
    t.openFirst S q now lookup = { t.setSide q ((t.side q).openFirst (t.view S q) lookup now) with
      plugin := { t.plugin with
        cur := t.plugin.cur.set q lookup
        cp := t.plugin.cp.set q lookup
        opened := if ((t.side q).openFirst (t.view S q) lookup now).reader.input.fh.isSome then
            Function.update t.plugin.opened q true
          else t.plugin.opened }
      turn := Thread.after q } := by
  simp only [Thread.openFirst, if_pos h]
  split <;> rfl

theorem Thread.openFirst_again (t : Thread) {now : Nat} {lookup : Checkpoint}
    (h : ¬(t.side q).resets now = true) :
    t.openFirst S q now lookup = { t.setSide q ((t.side q).openFirst (t.view S q) lookup now) with
      plugin := { t.plugin with
        opened := if ((t.side q).openFirst (t.view S q) lookup now).reader.input.fh.isSome then
            Function.update t.plugin.opened q true
          else t.plugin.opened }
      turn := Thread.after q } := by
  simp only [Thread.openFirst, if_neg h]
  split <;> rfl

/-- A try at the first file, which the position `c` is in. -/
theorem Inv.opening (hI : Inv S msgs t h) (hread : ∀ r, r ≠ q → (t.side r).reader.pc = .read)
    (hempty : h.delivered q = []) (hclosed : t.plugin.opened q = false) {s : Side} {c : Checkpoint}
    (hpc : s.reader.pc = .read) (hA : Aligned S msgs q c)
    (hring : ∀ i < t.plugin.asyncLen, (t.plugin.asyncCp i).get q ≤ c)
    (hq : QueueInv S msgs q s { h with start := Function.update h.start q c } c (t.arrived q)) :
    Inv S msgs
      { t.setSide q s with
        plugin := { t.plugin with
          cur := t.plugin.cur.set q c
          cp := t.plugin.cp.set q c
          opened := if s.reader.input.fh.isSome then Function.update t.plugin.opened q true
            else t.plugin.opened }
        turn := Thread.after q }
      { h with start := Function.update h.start q c } := by
  have hside : ∀ r, (t.setSide q s).side r = if r = q then s else t.side r := by
    intro r
    simp only [Thread.setSide, Function.update_apply]
  have hprogress := OutputProgress.reset_inv hI.progress hring
  -- nothing changes in the other queue
  have hstart : ∀ r, r ≠ q → Function.update h.start q c r = h.start r := fun r hr =>
    Function.update_of_ne hr _ _
  refine ⟨hI.readQueue, fun r => ?_, fun r => ?_, fun r => ?_, fun r => .inl ?_,
    fun r hr => absurd hr (after_ne_next q r), ⟨hprogress.cp, hprogress.ring⟩, fun r => ?_, fun r => ?_,
    fun r => ?_, fun i hi r => ?_⟩
  · by_cases hr : r = q
    · simp only [hr, Function.update_self]
      exact hA
    · simp only [hstart r hr]
      exact hI.aligned r
  · simp only [hside r]
    by_cases hr : r = q
    · simp only [hr, if_true, CheckpointPair.get_set_same]
      exact hq
    · simp only [if_neg hr, CheckpointPair.get_set_other _ _ hr]
      exact (hI.queue r).congr (hstart r hr) rfl
  · simp only [hside r]
    by_cases hr : r = q
    · simp only [hr, if_true]
      cases hfh : s.reader.input.fh.isSome with
      | true => simp only [if_true, Function.update_self]
      | false => simp only [Bool.false_eq_true, if_false, hclosed]
    · simp only [if_neg hr, ← hI.opened r]
      split
      · exact Function.update_of_ne hr _ _
      · rfl
  · simp only [hside r]
    split
    · exact hpc
    · exact hread r ‹_›
  · by_cases hr : r = q
    · simp only [hr, Function.update_self, CheckpointPair.get_set_same]
      change c = lastEnd c (h.delivered q)
      rw [hempty]
      rfl
    · simp only [hstart r hr, CheckpointPair.get_set_other _ _ hr]
      exact hI.cur r
  · by_cases hr : r = q
    · change ∀ x ∈ h.delivered r, _
      rw [hr, hempty]
      exact fun x hx => absurd hx List.not_mem_nil
    · simp only [hstart r hr]
      exact hI.after r
  · by_cases hr : r = q
    · simp only [hr, CheckpointPair.get_set_same]
      exact .inl (Function.update_self q c h.start).symm
    · simp only [CheckpointPair.get_set_other _ _ hr]
      exact (hI.cp r).mono (hstart r hr) (List.Subset.refl _)
  · by_cases hr : r = q
    · simp only [hr, Function.update_self]
      exact .inr (hring i hi)
    · simp only [hstart r hr]
      exact (hI.ring i hi r).imp_left fun hon => hon.mono (hstart r hr) (List.Subset.refl _)

theorem Inv.openFirst (hI : Inv S msgs t h) (hL : S.lib.Lawful)
    (hW : ∀ q, Whole S.lib (S.content q) (msgs q)) (hturn : t.turn = .poll q)
    (hfh : (t.side q).reader.input.fh = none) {now : Nat} {lookup : Checkpoint}
    (hadm : (t.side q).resets now = true → Aligned S msgs q lookup ∧
      ∀ i < t.plugin.asyncLen, (t.plugin.asyncCp i).get q ≤ lookup) :
    Inv S msgs (t.openFirst S q now lookup)
      (if (t.side q).resets now = true then { h with start := Function.update h.start q lookup }
      else h) := by
  have hread : ∀ r, r ≠ q → (t.side r).reader.pc = .read := by
    intro r _
    refine (hI.turn r).resolve_right fun hnext => ?_
    cases hturn.symm.trans hnext.1
  have hw : Waiting S q (t.side q) h (t.plugin.cur.get q) := by
    rcases hI.queue q with hw | ⟨id, off, rest, hR, -⟩
    · exact hw
    · have := hR.fh
      rw [hfh] at this
      cases this
  have hclosed : t.plugin.opened q = false := by
    rw [hI.opened q, hfh]
    rfl
  have hon : ∀ c, On h q c → c = h.start q := by
    rintro c (hc | ⟨x, hx, -⟩)
    · exact hc
    · rw [hw.delivered] at hx
      exact absurd hx List.not_mem_nil
  -- with no reset the position is the one there is
  obtain ⟨c, hc⟩ : ∃ c, c = if (t.side q).resets now = true then lookup else h.start q := ⟨_, rfl⟩
  have hcond : Aligned S msgs q c ∧ ∀ i < t.plugin.asyncLen, (t.plugin.asyncCp i).get q ≤ c := by
    rw [hc]
    split
    · exact hadm ‹_›
    · refine ⟨hI.aligned q, fun i hi => ?_⟩
      rcases hI.ring i hi q with hring | hring
      · exact (hon _ hring).le
      · exact hring
  have hstart : Function.update h.start q c q = c := Function.update_self _ _ _
  obtain ⟨hq, hpc⟩ := hw.openFirst (e := t.arrived q) hL (hW q) now lookup
    { h with start := Function.update h.start q c } (hstart.trans hc) rfl
    (by simp only [hstart]; exact hcond.1)
  simp only [hstart] at hq
  have hopening := hI.opening hread hw.delivered hclosed hpc hcond.1 hcond.2 hq
  by_cases hreset : (t.side q).resets now = true
  · rw [if_pos hreset] at hc
    subst hc
    rw [t.openFirst_reset hreset, if_pos hreset]
    exact hopening
  · rw [if_neg hreset] at hc
    rw [t.openFirst_again hreset, if_neg hreset]
    have hcur : t.plugin.cur.set q c = t.plugin.cur := by
      rw [hc, ← hw.reached, CheckpointPair.set_get]
    have hcp : t.plugin.cp.set q c = t.plugin.cp := by
      rw [hc, ← hon _ (hI.cp q), CheckpointPair.set_get]
    have hsame : Function.update h.start q c = h.start := by rw [hc, Function.update_eq_self]
    simp only [hcur, hcp, hsame] at hopening
    exact hopening

/-- The message taken is held, and one held of the other queue is not older. -/
theorem oldest_cases {m : Queue × List UInt8} (ho : t.oldest S = some m) :
    (m.1 = .input ∧ (t.side .input).held = some m.2 ∧
      ∀ am ∈ (t.side .analysis).held, S.timestamp m.2 ≤ S.timestamp am) ∨
    (m.1 = .analysis ∧ (t.side .analysis).held = some m.2 ∧
      ∀ im ∈ (t.side .input).held, S.timestamp m.2 < S.timestamp im) := by
  unfold Thread.oldest at ho
  cases hi : (t.side .input).held with
  | none =>
    cases ha : (t.side .analysis).held with
    | none =>
      rw [hi, ha] at ho
      cases ho
    | some am =>
      rw [hi, ha] at ho
      cases ho
      exact .inr ⟨rfl, rfl, fun im him => by cases him⟩
  | some im =>
    cases ha : (t.side .analysis).held with
    | none =>
      rw [hi, ha] at ho
      cases ho
      exact .inl ⟨rfl, rfl, fun am ham => by cases ham⟩
    | some am =>
      rw [hi, ha] at ho
      simp only at ho
      split at ho
      · rename_i hle
        cases ho
        refine .inl ⟨rfl, rfl, fun am' ham => ?_⟩
        cases ham
        exact hle
      · rename_i hlt
        cases ho
        refine .inr ⟨rfl, rfl, fun im' him => ?_⟩
        cases him
        exact not_le.mp hlt

theorem oldest_held {pb : List UInt8} (ho : t.oldest S = some (q, pb)) : (t.side q).held = some pb := by
  rcases oldest_cases ho with ⟨hq, hheld, -⟩ | ⟨hq, hheld, -⟩
  · obtain rfl : q = .input := hq
    exact hheld
  · obtain rfl : q = .analysis := hq
    exact hheld

/-- The plugin can take the message, and takes it as the event of its own machine. -/
theorem Inv.deliver (hI : Inv S msgs t h) (hbody : t.plugin.pc = .body) {pb : List UInt8}
    (hheld : (t.side q).held = some pb) :
    ∃ id off rest, Reading S msgs q (t.side q) h (t.plugin.cur.get q) id off rest ∧
      (t.side q).position = ⟨id, off⟩ ∧
      t.plugin.step (.deliver q (t.side q).position) = some { t.plugin with
        cur := t.plugin.cur.set q (t.side q).position
        msg := some ⟨q, (t.side q).position⟩
        pc := .offer false } := by
  rcases hI.queue q with hw | ⟨id, off, rest, hR, -⟩
  · have := hw.held
    rw [hheld] at this
    cases this
  · have hlt : t.plugin.cur.get q < (t.side q).position := by
      rw [hR.position]
      exact hR.held (by rw [hheld]; simp)
    have hopened : t.plugin.opened q = true := (hI.opened q).trans hR.fh
    refine ⟨id, off, rest, hR, hR.position, ?_⟩
    simp only [OutputPlugin.step, hbody, hI.readQueue, ReadQueue.reads, hopened, hlt, and_self, if_true]

theorem Inv.choose (hI : Inv S msgs t h) (hbody : t.plugin.pc = .body) (hturn : t.turn = .choose) :
    Inv S msgs (t.choose S) (see S t h .choose) := by
  have hread : ∀ r, (t.side r).reader.pc = .read := by
    intro r
    refine (hI.turn r).resolve_right fun hnext => ?_
    cases hturn.symm.trans hnext.1
  unfold Thread.choose see
  cases ho : t.oldest S with
  | none =>
    simp only
    split
    · exact ⟨hI.readQueue, hI.aligned, hI.queue, hI.opened, fun r => .inl (hread r), hI.next,
        ⟨hI.progress.cp, hI.progress.ring⟩, hI.cur, hI.after, hI.cp, hI.ring⟩
    · exact ⟨hI.readQueue, hI.aligned, hI.queue, hI.opened, fun r => .inl (hread r), hI.next,
        ⟨hI.progress.cp, hI.progress.ring⟩, hI.cur, hI.after, hI.cp, hI.ring⟩
  | some m =>
    obtain ⟨q, pb⟩ := m
    have hheld := oldest_held ho
    obtain ⟨id, off, rest, hR, hpos, hstep⟩ := hI.deliver hbody hheld
    have hprogress := OutputProgress.step_inv (s := t.plugin.cp) (e := .deliver q _) hI.progress trivial
      hstep
    simp only [hpos] at hprogress ⊢
    -- the history of the queue, and of the other one
    have hsame := delivered_give_same h q pb ⟨id, off⟩
    have hother : ∀ r, r ≠ q → _ := fun r hr => delivered_give_other h pb ⟨id, off⟩ hr
    have hmono : ∀ r c, On h r c → On { h with given := h.given ++ [(q, pb, ⟨id, off⟩)] } r c := by
      intro r c hon
      refine hon.mono rfl ?_
      by_cases hr : r = q
      · simp only [hr, hsame]
        exact List.subset_append_left _ _
      · simp only [hother r hr]
        exact List.Subset.refl _
    have hcur : ∀ r, (t.plugin.cur.set q ⟨id, off⟩).get r =
        if r = q then ⟨id, off⟩ else t.plugin.cur.get r := by
      intro r
      split
      · rename_i hr
        rw [hr, CheckpointPair.get_set_same]
      · exact CheckpointPair.get_set_other _ _ ‹_›
    have hside : ∀ r, (t.setSide q { t.side q with held := none }).side r =
        if r = q then { t.side q with held := none } else t.side r := by
      intro r
      simp only [Thread.setSide, Function.update_apply]
    refine ⟨hI.readQueue, hI.aligned, fun r => ?_, fun r => ?_, fun r => .inl ?_, fun r hr => ?_,
      hprogress, fun r => ?_, fun r => ?_, fun r => hmono r _ (hI.cp r),
      fun i hi r => (hI.ring i hi r).imp_left (hmono r _)⟩
    · simp only [hside r, hcur r]
      by_cases hr : r = q
      · subst hr
        simp only [if_true]
        exact .inr ⟨id, off, rest, hR.take hheld rfl hsame, .inl (hread r)⟩
      · simp only [if_neg hr]
        exact (hI.queue r).congr rfl (hother r hr)
    · simp only [hside r]
      split
      · rename_i hr
        rw [hr]
        exact hI.opened q
      · exact hI.opened r
    · simp only [hside r]
      split
      · exact hread q
      · exact hread r
    · cases hturn.symm.trans hr
    · simp only [hcur r]
      by_cases hr : r = q
      · simp only [hr, if_true, hsame, lastEnd, List.getLast?_concat]
      · simp only [if_neg hr, hother r hr]
        exact hI.cur r
    · by_cases hr : r = q
      · simp only [hr, hsame]
        intro x hx
        rcases List.mem_append.mp hx with hx | hx
        · exact hI.after q x hx
        · rw [List.mem_singleton.mp hx]
          exact (hI.start_le q).trans hR.reached
      · simp only [hother r hr]
        exact hI.after r

end

/-! ## Runs -/

section

variable {S : Setup} {msgs : Queue → Nat → List (List UInt8)} {s s' : State} {e : Event}

theorem start_inv {c : CheckpointPair} (hA : ∀ q, Aligned S msgs q (c.get q))
    (asyncLen tickerInterval tickerExpires : Nat) :
    Inv S msgs (start S asyncLen tickerInterval tickerExpires c).1
      (start S asyncLen tickerInterval tickerExpires c).2 := by
  refine ⟨rfl, hA, fun q => .inl ⟨rfl, rfl, rfl, rfl, rfl, rfl⟩, fun q => rfl, fun q => .inl rfl,
    fun q hq => (by cases hq), OutputProgress.init_inv .both asyncLen tickerInterval tickerExpires c,
    fun q => rfl, fun q x hx => absurd hx List.not_mem_nil, fun q => .inl rfl, fun i _ q => .inr ?_⟩
  cases q <;> exact Checkpoint.zero_le _

theorem step_inv (hL : S.lib.Lawful) (hW : ∀ q, Whole S.lib (S.content q) (msgs q))
    (hid : ∀ q, ∀ id ∈ (S.content q).ids, id < ullongMax) (hI : Inv S msgs s.1 s.2)
    (hadm : Admits S msgs s e) (h : machine S s e = some s') : Inv S msgs s'.1 s'.2 := by
  obtain ⟨t, hist⟩ := s
  obtain ⟨t', hist'⟩ := s'
  obtain ⟨hs, hl⟩ := Runs.observe_some.mp h
  simp only at hs hl hI ⊢
  rw [hl]
  cases e with
  | arrive q e =>
    obtain ⟨harr, rfl⟩ := step_arrive.mp hs
    refine ⟨hI.readQueue, hI.aligned, fun r => ?_, hI.opened, hI.turn, hI.next, hI.progress, hI.cur,
      hI.after, hI.cp, hI.ring⟩
    by_cases hr : r = q
    · rw [hr]
      simp only [Function.update_self]
      exact (hI.queue q).arrive harr
    · simp only [Function.update_of_ne hr]
      exact hI.queue r
  | plugin e =>
    obtain ⟨hown, p, hp, rfl⟩ := step_own.mp hs
    exact hI.own hown hp
  | poll n now lookup =>
    obtain ⟨q, hbody, hturn, rfl⟩ := step_poll.mp hs
    simp only [Admits, hturn] at hadm
    simp only [see, hturn]
    unfold Thread.poll
    by_cases hfh : (t.side q).reader.input.fh = none
    · rw [if_pos hfh]
      simp only [hfh, true_and]
      exact hI.openFirst hL hW hturn hfh (hadm hfh)
    · have hread : (t.side q).reader.pc = .read := by
        refine (hI.turn q).resolve_right fun hnext => ?_
        cases hturn.symm.trans hnext.1
      rw [if_neg hfh]
      simp only [hfh, false_and, if_false]
      obtain hw | ⟨id, off, rest, hR, -⟩ := hI.queue q
      · rw [hw.input] at hfh
        exact absurd rfl hfh
      · obtain ⟨hq, hq'⟩ := hR.poll (e := t.arrived q) hL (hW q) hread now n
        refine hI.leave hbody (fun r _ hnext => ?_) hq hq' hR.fh
        cases hturn.symm.trans hnext
  | next =>
    obtain ⟨q, hbody, hturn, rfl⟩ := step_next.mp hs
    simp only [Admits, hturn] at hadm
    have hnext : ∀ r, r ≠ q → t.turn ≠ .next r := by
      intro r hr hnext
      cases hturn.symm.trans hnext
      exact hr rfl
    obtain hw | ⟨id, off, rest, hR, hpc⟩ := hI.queue q
    · exact absurd hw.pc (hI.next q hturn)
    · rcases hpc with hpc | hE
      · exact absurd hpc (hI.next q hturn)
      · obtain ⟨hq, hq'⟩ := hR.next hE (hW q) (hid q) hadm
        exact hI.leave hbody hnext hq hq' hR.fh
  | choose =>
    obtain ⟨⟨hbody, hturn⟩, rfl⟩ := step_choose.mp hs
    exact hI.choose hbody hturn

end

theorem streams_safe (S : Setup) (msgs : Queue → Nat → List (List UInt8)) (hL : S.lib.Lawful)
    (hW : ∀ q, Whole S.lib (S.content q) (msgs q))
    (hid : ∀ q, ∀ id ∈ (S.content q).ids, id < ullongMax) (asyncLen tickerInterval tickerExpires : Nat)
    (c : CheckpointPair) (hA : ∀ q, Aligned S msgs q (c.get q)) (es : List Event)
    (hadm : Runs.Meets (machine S) (Admits S msgs) (start S asyncLen tickerInterval tickerExpires c) es) :
    Runs.Always (machine S) (Safe S msgs) (start S asyncLen tickerInterval tickerExpires c) es := by
  have hall := Runs.always_of_meets (I := fun s : State => Inv S msgs s.1 s.2)
    (fun s e s' hI hc h => step_inv hL hW hid hI hc h) (start_inv hA _ _ _) hadm
  exact hall.mono fun s hI => hI.safe hW

/-! ## Two small queues -/

/-- One message a file. -/
def smallMsgs : Queue → Nat → List (List UInt8)
  | .input, _ => [[1]]
  | .analysis, _ => [[0]]

/-- Two input files and one analysis file; the byte of a message is its timestamp. -/
def smallQueues : Setup where
  outputSize := 6
  lib := ReaderResume.smallLib
  timestamp pb := (pb.headD 0).toNat
  content q := ⟨if q = .input then [0, 1] else [0], fun id => ReaderResume.smallLib.frames (smallMsgs q id)⟩

theorem smallQueues_whole (q : Queue) : Whole smallQueues.lib (smallQueues.content q) (smallMsgs q) where
  bytes id hid := if_pos hid
  accepts id _ pb hpb := by
    change pb.length < 128
    cases q with
    | input =>
      rw [List.mem_singleton.mp hpb]
      decide
    | analysis =>
      rw [List.mem_singleton.mp hpb]
      decide
  size id hid := by
    rw [Dir.bytes, if_pos hid]
    cases q with
    | input =>
      change (ReaderResume.smallLib.frames [[1]]).length < 2 ^ 63
      decide
    | analysis =>
      change (ReaderResume.smallLib.frames [[0]]).length < 2 ^ 63
      decide

theorem smallQueues_ids (q : Queue) : ∀ id ∈ (smallQueues.content q).ids, id < ullongMax := by
  cases q <;> decide

theorem smallQueues_aligned (q : Queue) : Aligned smallQueues smallMsgs q ⟨0, 0⟩ :=
  fun hid => .inl ⟨hid, [], smallMsgs q 0, rfl, rfl⟩

/-- No reset, and a file that is left was read to its end. -/
def Quiet (s : State) (e : Event) : Prop :=
  match e, s.1.turn with
  | .poll _ now _, .poll q => (s.1.side q).resets now = false
  | .next, .next q => (s.1.side q).leaves (s.1.view smallQueues q) = true →
    ((smallQueues.content q).bytes (s.1.side q).reader.input.cp.id).length ≤
      (s.1.side q).reader.input.cp.offset
  | _, _ => True

instance (s : State) (e : Event) : Decidable (Quiet s e) := by
  unfold Quiet
  split <;> infer_instance

theorem Quiet.admits {s : State} {e : Event} (h : Quiet s e) : Admits smallQueues smallMsgs s e := by
  unfold Quiet at h
  unfold Admits
  split
  · simp only [*] at h
    intro _ hreset
    rw [h] at hreset
    cases hreset
  · simp only [*] at h
    exact h
  · trivial

/-- The message of the analysis queue is the oldest, and the one of the input queue is held meanwhile; then
the input reader goes on to its second file. -/
def streamsRun : List Event :=
  [.arrive .input ⟨1, 6⟩, .arrive .analysis ⟨0, 6⟩,
    .plugin .head, .poll 9 1 ⟨0, 0⟩, .poll 9 1 ⟨0, 0⟩, .choose, .plugin (.ticker 1),
    .plugin .head, .poll 9 2 ⟨0, 0⟩, .poll 9 2 ⟨0, 0⟩, .choose,
    .plugin .head, .poll 9 3 ⟨0, 0⟩, .poll 9 3 ⟨0, 0⟩, .choose,
    .plugin (.matcher false), .plugin (.ticker 3),
    .plugin .head, .poll 9 4 ⟨0, 0⟩, .poll 9 4 ⟨0, 0⟩, .next, .choose,
    .plugin (.matcher true), .plugin (.pmReturn .sent), .plugin (.ticker 4),
    .plugin .head, .poll 9 5 ⟨0, 0⟩, .next, .poll 9 5 ⟨0, 0⟩, .next, .choose, .plugin (.ticker 5),
    .plugin .head, .poll 9 6 ⟨0, 0⟩, .poll 9 6 ⟨0, 0⟩, .next, .choose,
    .plugin .head, .poll 9 7 ⟨0, 0⟩, .poll 9 7 ⟨0, 0⟩, .next, .choose]

theorem streams_safe_small :
    Runs.Always (machine smallQueues) (Safe smallQueues smallMsgs)
      (start smallQueues 0 0 0 ⟨⟨0, 0⟩, ⟨0, 0⟩⟩) streamsRun := by
  refine streams_safe smallQueues smallMsgs ReaderResume.smallLib_lawful smallQueues_whole smallQueues_ids 0 0 0
    ⟨⟨0, 0⟩, ⟨0, 0⟩⟩ (fun q => ?_) streamsRun ?_
  · cases q with
    | input => exact smallQueues_aligned .input
    | analysis => exact smallQueues_aligned .analysis
  · refine Runs.Meets.mono (C := Quiet) (fun s e h => h.admits) ?_
    decide

/-- The first input file is empty when it is read; then its message is written, and the second file, before
the reader tries that one. -/
def lateRun : List Event :=
  [.plugin .head, .poll 9 1 ⟨0, 0⟩, .poll 9 1 ⟨0, 0⟩, .choose, .plugin (.ticker 1),
    .plugin .head, .poll 9 2 ⟨0, 0⟩, .arrive .input ⟨1, 6⟩, .next, .poll 9 2 ⟨0, 0⟩, .next, .next,
    .choose, .plugin (.ticker 2),
    .plugin .head, .poll 9 3 ⟨0, 0⟩, .poll 9 3 ⟨0, 0⟩, .choose,
    .plugin .head, .poll 9 4 ⟨0, 0⟩, .poll 9 4 ⟨0, 0⟩, .choose]

theorem streams_lose :
    ¬∀ (S : Setup) (msgs : Queue → Nat → List (List UInt8)) (asyncLen tickerInterval tickerExpires : Nat)
      (c : CheckpointPair) (es : List Event), S.lib.Lawful →
      (∀ q, Whole S.lib (S.content q) (msgs q)) → (∀ q, Aligned S msgs q (c.get q)) →
      Runs.Always (machine S) (Safe S msgs) (start S asyncLen tickerInterval tickerExpires c) es := by
  intro h
  have hall := h smallQueues smallMsgs 0 0 0 ⟨⟨0, 0⟩, ⟨0, 0⟩⟩ lateRun ReaderResume.smallLib_lawful
    smallQueues_whole fun q => by
      cases q with
      | input => exact smallQueues_aligned .input
      | analysis => exact smallQueues_aligned .analysis
  obtain ⟨t, hrun, hgiven⟩ : ∃ t, Runs.run (machine smallQueues)
      (start smallQueues 0 0 0 ⟨⟨0, 0⟩, ⟨0, 0⟩⟩) lateRun = some t ∧
        (t.2.delivered .input, t.2.start .input) = ([([1], ⟨1, 6⟩)], ⟨0, 0⟩) := ⟨_, rfl, by decide⟩
  obtain ⟨hdelivered, hstart⟩ := Prod.mk.inj hgiven
  have hinitial := (hall.run hrun .input).delivered
  rw [hdelivered, hstart] at hinitial
  revert hinitial
  decide

/-! ## The machine of the plugin -/

section

variable {S : Setup} {msgs : Queue → Nat → List (List UInt8)} {t t' : Thread} {h : History}
  {q : Queue}

/-- A try at the first file is at most a reset and the mark that the file is open. -/
theorem Inv.openFirst_plugin (hI : Inv S msgs t h) (hbody : t.plugin.pc = .body)
    (hfh : (t.side q).reader.input.fh = none) (now : Nat) (lookup : Checkpoint) :
    ∃ os, Runs.run OutputPlugin.step t.plugin os = some (t.openFirst S q now lookup).plugin := by
  have hclosed : t.plugin.opened q = false := by
    rw [hI.opened q, hfh]
    rfl
  have hopen : ∀ p : OutputPlugin, p.pc = .body → p.readQueue = .both → p.opened q = false →
      p.step (.openFirst q) = some { p with opened := Function.update p.opened q true } := by
    intro p h1 h2 h3
    simp only [OutputPlugin.step, h1, h2, h3, ReadQueue.reads, and_self, if_true]
  have hreset : t.plugin.step (.reset q lookup) =
      some { t.plugin with cur := t.plugin.cur.set q lookup, cp := t.plugin.cp.set q lookup } := by
    simp only [OutputPlugin.step, hbody, hI.readQueue, ReadQueue.reads, hclosed, and_self, if_true]
  unfold Thread.openFirst
  by_cases hr : (t.side q).resets now = true <;>
    by_cases ho : ((t.side q).openFirst (t.view S q) lookup now).reader.input.fh.isSome = true
  · refine ⟨[.reset q lookup, .openFirst q], ?_⟩
    simp only [if_pos hr, if_pos ho, Runs.run, hreset]
    simp only [hopen { t.plugin with
      cur := t.plugin.cur.set q lookup, cp := t.plugin.cp.set q lookup } hbody hI.readQueue hclosed]
  · refine ⟨[.reset q lookup], ?_⟩
    simp only [if_pos hr, if_neg ho, Runs.run, hreset]
  · refine ⟨[.openFirst q], ?_⟩
    simp only [if_neg hr, if_pos ho, Runs.run, hopen _ hbody hI.readQueue hclosed]
  · refine ⟨[], ?_⟩
    simp only [if_neg hr, if_neg ho, Runs.run]

/-- What a turn does at its end is what the plugin does there. -/
theorem Inv.choose_plugin (hI : Inv S msgs t h) (hbody : t.plugin.pc = .body) :
    ∃ os, Runs.run OutputPlugin.step t.plugin os = some (t.choose S).plugin := by
  unfold Thread.choose
  cases ho : t.oldest S with
  | some m =>
    obtain ⟨id, off, rest, -, -, hstep⟩ := hI.deliver hbody (oldest_held ho)
    refine ⟨[.deliver m.1 (t.side m.1).position], ?_⟩
    simp only [Runs.run, hstep]
  | none =>
    simp only
    split
    · refine ⟨[.idle], ?_⟩
      simp only [Runs.run, OutputPlugin.step, hbody, if_true]
    · refine ⟨[.nothing], ?_⟩
      simp only [Runs.run, OutputPlugin.step, hbody, if_true]

theorem step_plugin {s s' : State} {e : Event} (hI : Inv S msgs s.1 s.2)
    (h : machine S s e = some s') :
    ∃ os, Runs.run OutputPlugin.step s.1.plugin os = some s'.1.plugin := by
  obtain ⟨t, hist⟩ := s
  obtain ⟨t', hist'⟩ := s'
  obtain ⟨hs, -⟩ := Runs.observe_some.mp h
  simp only at hs hI ⊢
  cases e with
  | arrive q e =>
    obtain ⟨-, rfl⟩ := step_arrive.mp hs
    exact ⟨[], rfl⟩
  | plugin e =>
    obtain ⟨-, p, hp, rfl⟩ := step_own.mp hs
    exact ⟨[e], by simp only [Runs.run, hp]⟩
  | poll n now lookup =>
    obtain ⟨q, hbody, -, rfl⟩ := step_poll.mp hs
    unfold Thread.poll
    split
    · exact hI.openFirst_plugin hbody ‹_› now lookup
    · exact ⟨[], rfl⟩
  | next =>
    obtain ⟨q, -, -, rfl⟩ := step_next.mp hs
    exact ⟨[], rfl⟩
  | choose =>
    obtain ⟨⟨hbody, -⟩, rfl⟩ := step_choose.mp hs
    exact hI.choose_plugin hbody

end

/-- The plugin of the thread is the machine of `OutputPlugin`. -/
theorem streams_plugin {S : Setup} {msgs : Queue → Nat → List (List UInt8)} (hL : S.lib.Lawful)
    (hW : ∀ q, Whole S.lib (S.content q) (msgs q))
    (hid : ∀ q, ∀ id ∈ (S.content q).ids, id < ullongMax) {asyncLen tickerInterval tickerExpires : Nat}
    {c : CheckpointPair} (hA : ∀ q, Aligned S msgs q (c.get q)) {es : List Event} {s : State}
    (hadm : Runs.Meets (machine S) (Admits S msgs) (start S asyncLen tickerInterval tickerExpires c) es)
    (hr : Runs.run (machine S) (start S asyncLen tickerInterval tickerExpires c) es = some s) :
    ∃ os, Runs.run OutputPlugin.step (.create .both asyncLen tickerInterval tickerExpires c) os =
      some s.1.plugin :=
  Runs.run_matched (I := fun s : State => Inv S msgs s.1 s.2) (f := fun s : State => s.1.plugin)
    (fun _ _ _ hI hc h => step_inv hL hW hid hI hc h) (fun _ _ _ hI h => step_plugin hI h)
    (start_inv hA _ _ _) hadm hr

end OutputStreams

end Hindsight
