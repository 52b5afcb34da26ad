import Hindsight.OutputStreams

/-!
# Hindsight.OutputOrder

The order in which an output plugin that reads both queues delivers their messages (service build), when
everything was on disk before the thread started and each queue is sorted by timestamp.

* `Disk`: a reader leaves a file when it has read all of it, and no position is reset.
* `Safe`: the messages delivered are sorted, an input message first on ties, and no message that is still to
  come belongs before one of them.
* `Admits`: a message delivered while none of the other queue is held is not newer than the next one there.
* `order_iff`: a run keeps `Safe` exactly when all its steps are admitted.
-/

namespace Hindsight

namespace OutputOrder

open OutputStreams QueueContent

def other : Queue → Queue
  | .input => .analysis
  | .analysis => .input

section

variable (S : Setup) (msgs : Queue → Nat → List (List UInt8))

/-- The order of delivery: by timestamp, an input message first on ties. -/
def Before (x y : Queue × List UInt8) : Prop :=
  S.timestamp x.2 < S.timestamp y.2 ∨
    S.timestamp x.2 = S.timestamp y.2 ∧ (x.1 = .input ∨ y.1 = .analysis)

/-- The messages given to `output_message`, each with its queue. -/
def sent (h : History) : List (Queue × List UInt8) := h.given.map fun x => (x.1, x.2.1)

/-- The messages of a queue that are not delivered yet. -/
def ahead (h : History) (q : Queue) : List (Queue × List UInt8) :=
  ((stream S msgs q (h.start q)).drop (h.delivered q).length).map fun y => (q, y.1)

def Sorted (h : History) : Prop := (sent h).Pairwise (Before S)

structure Safe (s : State) : Prop where
  sorted : Sorted S s.2
  oldest : ∀ x ∈ sent s.2, ∀ q, ∀ y ∈ ahead S msgs s.2 q, Before S x y

def Admits (s : State) : Event → Prop
  | .choose => ∀ m ∈ s.1.oldest S, (s.1.side (other m.1)).held = none →
    ∀ y ∈ (ahead S msgs s.2 (other m.1)).head?, Before S m y
  | _ => True

instance (x y : Queue × List UInt8) : Decidable (Before S x y) :=
  inferInstanceAs (Decidable (_ ∨ _ ∧ _))

instance : (s : State) → (e : Event) → Decidable (Admits S msgs s e)
  | s, .choose => inferInstanceAs (Decidable (∀ m ∈ s.1.oldest S,
      (s.1.side (other m.1)).held = none →
        ∀ y ∈ (ahead S msgs s.2 (other m.1)).head?, Before S m y))
  | _, .arrive _ _ => isTrue trivial
  | _, .plugin _ => isTrue trivial
  | _, .poll _ _ _ => isTrue trivial
  | _, .next => isTrue trivial

/-- The stream of a queue is sorted by timestamp. -/
def StreamSorted (q : Queue) (c : Checkpoint) : Prop :=
  (stream S msgs q c).Pairwise fun x y => S.timestamp x.1 ≤ S.timestamp y.1

/-- A thread that starts when the queues end at `ends`. -/
def start (asyncLen tickerInterval tickerExpires : Nat) (c : CheckpointPair)
    (ends : Queue → Checkpoint) : State :=
  ({ Thread.init S asyncLen tickerInterval tickerExpires c with arrived := ends }, ⟨c.get, []⟩)

end

/-! ## Everything is on disk -/

section

variable {S : Setup} {msgs : Queue → Nat → List (List UInt8)} {q : Queue} {s : Side} {h : History}
  {cur e : Checkpoint} {id off : Nat} {rest : List (List UInt8)}

/-- A reader that waits for its first file has not tried yet, and one that is past a read has read the whole
file. -/
structure SideDisk (S : Setup) (q : Queue) (s : Side) : Prop where
  waiting : s.reader.input.fh = none → s.reader.iwaitCnt = 0
  ended : s.reader.pc ≠ .read →
    ((S.content q).bytes s.reader.input.cp.id).length ≤ s.reader.input.cp.offset

/-- A position that was not tried yet is not reset. -/
theorem SideDisk.resets (hD : SideDisk S q s) (hfh : s.reader.input.fh = none) (now : Nat) :
    s.resets now = false := by
  rw [Side.resets, hD.waiting hfh]
  simp

/-- The first file is opened as soon as it is tried. -/
theorem SideDisk.openFirst (hw : Waiting S q s h cur) (hD : SideDisk S q s)
    (hm : (h.start q).id ∈ ((S.content q).upTo e).ids) (lookup : Checkpoint) (now : Nat) :
    SideDisk S q (s.openFirst ((S.content q).upTo e) lookup now) := by
  have hfh : s.reader.input.fh = none := by rw [hw.input]; rfl
  have hcnt : s.reader.iwaitCnt = 0 := hD.waiting hfh
  by_cases hdue : s.reader.due .output now = true
  · have hopen := QueueReader.openFirst_eq .output hw.input hm (by rw [hcnt]; decide) lookup now hdue
    refine ⟨fun hnone => ?_, fun hpc => absurd ?_ hpc⟩
    · simp only [Side.openFirst, hopen] at hnone
      cases hnone
    · simp only [Side.openFirst, hopen, QueueReader.tick_pc]
      exact hw.pc
  · have hsame : s.openFirst ((S.content q).upTo e) lookup now = s := by
      simp only [Side.openFirst, QueueReader.openFirst, if_neg hdue]
    rw [hsame]
    exact hD

/-- A read that leads to the next file has seen the end of the file. -/
theorem SideDisk.readFile (hfeed : Feed S.lib (S.content q) s.reader.input s.ib id off rest)
    (hshort : Short S.lib s.ib rest) (hL : S.lib.Lawful) (hE : (S.content q).Ends e)
    (hpc : s.reader.pc = .read) (now n : Nat) :
    SideDisk S q (Side.readFile S ((S.content q).upTo e) now n s) := by
  obtain ⟨-, -, hnil⟩ := hfeed.read hshort hL (Dir.bytes_upTo_initial _ e id) n
  obtain ⟨hin, -, -, hpc'⟩ := QueueReader.readStep_cases .output S.outputSize ((S.content q).upTo e)
    hfeed.input
    (min (n + 1) ((S.lib.expand s.ib s.ib.need).size - (S.lib.expand s.ib s.ib.need).readpos)) now
  have hinput : (Side.readFile S ((S.content q).upTo e) now n s).reader.input = _ := hin
  refine ⟨fun hnone => ?_, fun hne => ?_⟩
  · rw [hinput] at hnone
    cases hnone
  · rcases hpc' with ⟨hread, -⟩ | ⟨-, hbs⟩
    · exact absurd (hread.trans hpc) hne
    · have hbytes : (readInto S.lib ((S.content q).upTo e) s.reader.input s.ib n).2.2 = [] := by
        rw [readInto, hfeed.input]
        exact hbs
      have hrest : rest = [] := (hnil hbytes).2 (hE.bytes hfeed.mem)
      have hend : ((S.content q).bytes id).length ≤ off := by
        rw [← List.drop_eq_nil_iff, hfeed.bytes, hrest]
        rfl
      rw [hinput]
      change ((S.content q).bytes id).length ≤ off + s.ib.unscanned.length + _
      omega

/-- A turn's work on a queue the first file of which is open. -/
theorem SideDisk.poll (hR : Reading S msgs q s h cur id off rest) (hD : SideDisk S q s)
    (hL : S.lib.Lawful) (hE : (S.content q).Ends e) (hpc : s.reader.pc = .read) (now n : Nat) :
    SideDisk S q (s.poll S ((S.content q).upTo e) now n) := by
  unfold Side.poll
  cases hheld : s.held with
  | some pb => exact hD
  | none =>
    rcases hR.feed.find hL with ⟨pb, ms, -, hfound, -⟩ | ⟨hfound, hfeed, hshort⟩
    · generalize S.lib.find s.ib = r at hfound
      obtain ⟨ib, found⟩ := r
      simp only at hfound
      simp only [hfound]
      exact ⟨hD.waiting, hD.ended⟩
    · generalize S.lib.find s.ib = r at hfound hfeed hshort
      obtain ⟨ib, found⟩ := r
      simp only at hfound hfeed hshort
      simp only [hfound]
      exact SideDisk.readFile (s := { s with ib := ib, held := none }) hfeed hshort hL hE hpc now n

/-- A step after a read that returned nothing stays at the file or leaves it for good. -/
theorem SideDisk.next (hR : Reading S msgs q s h cur id off rest) (hEnd : Ending S q s e id rest)
    (hid : ∀ i ∈ (S.content q).ids, i < ullongMax) (hD : SideDisk S q s) (hne : s.reader.pc ≠ .read)
    (hfh : (s.next S ((S.content q).upTo e)).reader.input.fh.isSome = true) :
    SideDisk S q (s.next S ((S.content q).upTo e)) := by
  refine ⟨fun hnone => ?_, fun hne' => ?_⟩
  · rw [hnone] at hfh
    cases hfh
  -- the file is the one that was read
  have hstay : ∀ r : QueueReader, r.input = s.reader.input →
      ((S.content q).bytes r.input.cp.id).length ≤ r.input.cp.offset := by
    intro r hr
    rw [hr]
    exact hD.ended hne
  have hlt : s.reader.input.cp.id < ullongMax := by
    rw [hR.feed.input]
    exact hid id hR.feed.mem
  unfold Side.next at hne' ⊢
  cases hpc : s.reader.pc with
  | read => exact absurd hpc hne
  | openNext =>
    rw [hpc] at hne'
    simp only [GapSkip.openNext_eq hlt] at hne' ⊢
    obtain ⟨-, -, hread, -, -⟩ | ⟨-, hin, -, -⟩ :=
      QueueReader.openNext_cases .output S.outputSize ((S.content q).upTo e) hR.feed.input
    · exact absurd hread hne'
    · exact hstay _ (hin.trans hR.feed.input.symm)
  | findNext =>
    simp only [GapSkip.findNext_eq hlt]
    obtain ⟨hin, -, -⟩ := QueueReader.findNext_cases ((S.content q).upTo e) hR.feed.input
    exact hstay _ (hin.trans hR.feed.input.symm)
  | openFound j =>
    rw [hpc] at hne'
    obtain ⟨hj, hlt, -⟩ := hEnd.found j hpc
    have heq := QueueReader.openFound_eq (r := s.reader) hR.feed.input hj (by simp only; omega)
    simp only [heq] at hne'
    exact absurd rfl hne'

end

section

variable {S : Setup} {msgs : Queue → Nat → List (List UInt8)} {c : CheckpointPair} {t t' : Thread}
  {h h' : History}

/-- Everything is on disk, and no position was reset. -/
structure Disk (S : Setup) (c : CheckpointPair) (t : Thread) (h : History) : Prop where
  start : h.start = c.get
  ends : ∀ q, (S.content q).Ends (t.arrived q)
  side : ∀ q, SideDisk S q (t.side q)

/-- A file is left when it was read to its end, and no position is reset. -/
theorem Disk.admits (hD : Disk S c t h) (hI : Inv S msgs t h) (e : Event) :
    OutputStreams.Admits S msgs (t, h) e := by
  unfold OutputStreams.Admits
  split
  · rename_i q hturn
    intro hfh hreset
    rw [(hD.side q).resets hfh] at hreset
    cases hreset
  · rename_i q hturn
    exact fun _ => (hD.side q).ended (hI.next q hturn)
  · trivial

/-- A step that changes one reader only. -/
theorem Disk.setSide (hD : Disk S c t h) {q : Queue} {s : Side} (hs : SideDisk S q s) :
    Disk S c (t.setSide q s) h :=
  ⟨hD.start, hD.ends, (Function.forall_update_iff t.side (SideDisk S)).mpr ⟨hs, fun r _ => hD.side r⟩⟩

theorem Disk.leave (hD : Disk S c t h) {q : Queue} {s : Side} (hs : SideDisk S q s) :
    Disk S c (t.leave q s) h :=
  ⟨hD.start, hD.ends, (hD.setSide hs).side⟩

theorem Disk.choose (hD : Disk S c t h) : Disk S c (t.choose S) (see S t h .choose) := by
  unfold Thread.choose see
  cases ho : t.oldest S with
  | none =>
    simp only
    split <;> exact ⟨hD.start, hD.ends, hD.side⟩
  | some m =>
    -- only the message that was held is gone
    have hs : SideDisk S m.1 { t.side m.1 with held := none } :=
      ⟨(hD.side m.1).waiting, (hD.side m.1).ended⟩
    exact ⟨hD.start, hD.ends, (hD.setSide hs).side⟩

/-- The first file is tried. -/
theorem Disk.openFirst (hD : Disk S c t h) (hI : Inv S msgs t h) {q : Queue}
    (hm : (c.get q).id ∈ (S.content q).ids) (hfh : (t.side q).reader.input.fh = none) (now : Nat)
    (lookup : Checkpoint) : Disk S c (t.openFirst S q now lookup) h := by
  have hw : Waiting S q (t.side q) h (t.plugin.cur.get q) := by
    rcases hI.queue q with hw | ⟨id, off, rest, hR, -⟩
    · exact hw
    · have hopen := hR.fh
      rw [hfh] at hopen
      cases hopen
  have hdisk : (h.start q).id ∈ ((S.content q).upTo (t.arrived q)).ids := by
    rw [hD.start]
    exact (hD.ends q).mem.mpr hm
  have hs := SideDisk.openFirst hw (hD.side q) hdisk lookup now
  exact ⟨hD.start, hD.ends, (hD.setSide hs).side⟩

theorem Disk.step {e : Event} (hL : S.lib.Lawful) (hW : ∀ q, Whole S.lib (S.content q) (msgs q))
    (hid : ∀ q, ∀ id ∈ (S.content q).ids, id < ullongMax)
    (hm : ∀ q, (c.get q).id ∈ (S.content q).ids) (hI : Inv S msgs t h) (hD : Disk S c t h)
    (hs : step S t e = some t') : Disk S c t' (see S t h e) := by
  cases e with
  | arrive q e =>
    obtain ⟨harr, rfl⟩ := step_arrive.mp hs
    refine ⟨hD.start, fun r => ?_, hD.side⟩
    by_cases hr : r = q
    · subst hr
      simp only [Function.update_self]
      intro id hid
      have hend := hD.ends r id hid
      have hle := Checkpoint.le_iff.mp harr
      omega
    · simp only [Function.update_of_ne hr]
      exact hD.ends r
  | plugin e =>
    obtain ⟨-, p, -, rfl⟩ := step_own.mp hs
    exact ⟨hD.start, hD.ends, hD.side⟩
  | poll n now lookup =>
    obtain ⟨q, hbody, hturn, rfl⟩ := step_poll.mp hs
    have hread : (t.side q).reader.pc = .read := by
      refine (hI.turn q).resolve_right fun hnext => ?_
      cases hturn.symm.trans hnext.1
    simp only [see, hturn]
    unfold Thread.poll
    by_cases hfh : (t.side q).reader.input.fh = none
    · rw [if_pos hfh, if_neg (by rw [(hD.side q).resets hfh]; simp)]
      exact hD.openFirst hI (hm q) hfh now lookup
    · rw [if_neg hfh, if_neg (fun hboth => hfh hboth.1)]
      obtain hw | ⟨id, off, rest, hR, -⟩ := hI.queue q
      · rw [hw.input] at hfh
        exact absurd rfl hfh
      · exact hD.leave ((hD.side q).poll hR hL (hD.ends q) hread now n)
  | next =>
    obtain ⟨q, hbody, hturn, rfl⟩ := step_next.mp hs
    have hne := hI.next q hturn
    obtain hw | ⟨id, off, rest, hR, hpc⟩ := hI.queue q
    · exact absurd hw.pc hne
    · have hEnd := hpc.resolve_left hne
      have hnext := hR.next hEnd (hW q) (hid q) fun _ => (hD.side q).ended hne
      exact hD.leave ((hD.side q).next hR hEnd (hid q) hne hnext.2)
  | choose =>
    obtain ⟨-, rfl⟩ := step_choose.mp hs
    exact hD.choose

/-- What holds of every run that starts with everything on disk. -/
structure Kept (S : Setup) (msgs : Queue → Nat → List (List UInt8)) (c : CheckpointPair) (s : State) :
    Prop where
  streams : Inv S msgs s.1 s.2
  disk : Disk S c s.1 s.2

theorem Kept.step {s s' : State} {e : Event} (hL : S.lib.Lawful)
    (hW : ∀ q, Whole S.lib (S.content q) (msgs q)) (hid : ∀ q, ∀ id ∈ (S.content q).ids, id < ullongMax)
    (hm : ∀ q, (c.get q).id ∈ (S.content q).ids) (hK : Kept S msgs c s) (hs : machine S s e = some s') :
    Kept S msgs c s' := by
  refine ⟨step_inv hL hW hid hK.streams (hK.disk.admits hK.streams e) hs, ?_⟩
  obtain ⟨hstep, hsee⟩ := Runs.observe_some.mp hs
  rw [hsee]
  exact hK.disk.step hL hW hid hm hK.streams hstep

theorem Kept.start (hB : ∀ q, Boundary S.lib (S.content q) (msgs q) (c.get q)) {ends : Queue → Checkpoint}
    (hE : ∀ q, (S.content q).Ends (ends q)) (asyncLen tickerInterval tickerExpires : Nat) :
    Kept S msgs c (start S asyncLen tickerInterval tickerExpires c ends) := by
  have hI := start_inv (fun q _ => .inl (hB q)) asyncLen tickerInterval tickerExpires
  refine ⟨⟨hI.readQueue, hI.aligned, fun q => .inl ⟨rfl, rfl, rfl, rfl, rfl, rfl⟩, hI.opened, hI.turn, hI.next,
    hI.progress, hI.cur, hI.after, hI.cp, hI.ring⟩, rfl, hE, fun q => ⟨fun _ => rfl, fun hne => absurd rfl hne⟩⟩

end

/-! ## The order -/

section

variable {S : Setup} {msgs : Queue → Nat → List (List UInt8)} {x y z : Queue × List UInt8}
  {q r : Queue} {c : CheckpointPair}

theorem Before.trans (hxy : Before S x y) (hyz : Before S y z) : Before S x z := by
  unfold Before at *
  rcases hxy with hlt | ⟨heq, hq⟩
  · rcases hyz with hlt' | ⟨heq', -⟩
    · exact .inl (hlt.trans hlt')
    · exact .inl (heq' ▸ hlt)
  · rcases hyz with hlt' | ⟨heq', hq'⟩
    · exact .inl (heq ▸ hlt')
    · refine .inr ⟨heq.trans heq', ?_⟩
      -- `y` cannot be of both queues
      rcases hq with hx | hy
      · exact .inl hx
      · refine .inr (hq'.resolve_left fun hy' => ?_)
        cases hy.symm.trans hy'

theorem Before.of_le {a b : List UInt8} (h : S.timestamp a ≤ S.timestamp b) :
    Before S (q, a) (q, b) := by
  rcases lt_or_eq_of_le h with hlt | heq
  · exact .inl hlt
  · refine .inr ⟨heq, ?_⟩
    cases q with
    | input => exact .inl rfl
    | analysis => exact .inr rfl

/-- A message that comes before the first of a sorted list comes before all of it. -/
theorem before_all {l : List (Queue × List UInt8)} (hl : l.Pairwise (Before S))
    (hhead : ∀ y ∈ l.head?, Before S x y) : ∀ y ∈ l, Before S x y := by
  cases l with
  | nil => exact fun y hy => absurd hy List.not_mem_nil
  | cons a l =>
    obtain ⟨ha, -⟩ := List.pairwise_cons.mp hl
    have hxa : Before S x a := hhead a rfl
    intro y hy
    rcases List.mem_cons.mp hy with rfl | hy
    · exact hxa
    · exact hxa.trans (ha y hy)

/-- What is ahead of a queue is sorted. -/
theorem ahead_sorted {h : History} (hstart : h.start = c.get)
    (hs : StreamSorted S msgs q (c.get q)) : (ahead S msgs h q).Pairwise (Before S) := by
  rw [ahead, hstart, List.pairwise_map]
  exact (hs.sublist (List.drop_sublist _ _)).imp fun hle => .of_le hle

/-- The message taken comes before the other one that is held. -/
theorem oldest_before {t : Thread} (ho : t.oldest S = some x) {pb : List UInt8}
    (hheld : (t.side (other x.1)).held = some pb) : Before S x (other x.1, pb) := by
  rcases oldest_cases ho with ⟨hq, -, hle⟩ | ⟨hq, -, hlt⟩
  · rw [hq] at hheld ⊢
    rcases lt_or_eq_of_le (hle pb hheld) with hlt | heq
    · exact .inl hlt
    · exact .inr ⟨heq, .inl hq⟩
  · rw [hq] at hheld
    exact .inl (hlt pb hheld)

theorem other_of_ne (h : r ≠ q) : r = other q := by
  cases q <;> cases r <;> first | rfl | exact absurd rfl h

theorem other_ne (q : Queue) : other q ≠ q := by
  cases q <;> decide

/-- The message that is held is the next of its queue. -/
theorem ahead_held {t : Thread} {h : History} (hI : Inv S msgs t h)
    (hW : ∀ q, Whole S.lib (S.content q) (msgs q)) {pb : List UInt8}
    (hheld : (t.side q).held = some pb) (e : Checkpoint) :
    ahead S msgs h q = (q, pb) :: ahead S msgs { h with given := h.given ++ [(q, pb, e)] } q := by
  obtain ⟨e', hget, -⟩ := (hI.safe hW q).held pb hheld
  obtain ⟨hlt, hnext⟩ := List.getElem?_eq_some_iff.mp hget
  have hdelivered := delivered_give_same h q pb e
  rw [ahead, ahead, hdelivered, List.drop_eq_getElem_cons hlt, hnext, List.map_cons, List.length_append]
  rfl

theorem ahead_other {h : History} {pb : List UInt8} (e : Checkpoint) (hr : r ≠ q) :
    ahead S msgs { h with given := h.given ++ [(q, pb, e)] } r = ahead S msgs h r := by
  rw [ahead, delivered_give_other h pb e hr, ahead]

theorem sent_give (h : History) (q : Queue) (pb : List UInt8) (e : Checkpoint) :
    sent { h with given := h.given ++ [(q, pb, e)] } = sent h ++ [(q, pb)] := by
  rw [sent, List.map_append, sent]
  rfl

/-- The delivery of a message keeps the order exactly when it is admitted. -/
theorem give_safe {t : Thread} {h : History} (hK : Kept S msgs c (t, h))
    (hW : ∀ q, Whole S.lib (S.content q) (msgs q)) (hs : ∀ q, StreamSorted S msgs q (c.get q))
    (hS : Safe S msgs (t, h)) {pb : List UInt8} (ho : t.oldest S = some (q, pb)) (t' : Thread)
    (e : Checkpoint) :
    Safe S msgs (t', { h with given := h.given ++ [(q, pb, e)] }) ↔ Admits S msgs (t, h) .choose := by
  have hnext := ahead_held hK.streams hW (oldest_held ho) e
  have hothers : ahead S msgs { h with given := h.given ++ [(q, pb, e)] } (other q) =
      ahead S msgs h (other q) := ahead_other e (other_ne q)
  have hsorted : ∀ r, (ahead S msgs h r).Pairwise (Before S) := fun r =>
    ahead_sorted hK.disk.start (hs r)
  constructor
  · intro hS' m hm hnone y hy
    obtain rfl : (q, pb) = m := Option.some.inj (ho.symm.trans hm)
    refine hS'.oldest (q, pb) ?_ (other q) y ?_
    · simp only [sent_give]
      exact List.mem_append_right _ (List.mem_singleton_self _)
    · simp only [hothers]
      exact List.mem_of_mem_head? hy
  · intro hA
    -- the message comes before all that is ahead
    have hnew : ∀ r, ∀ y ∈ ahead S msgs { h with given := h.given ++ [(q, pb, e)] } r,
        Before S (q, pb) y := by
      intro r y hy
      by_cases hr : r = q
      · subst hr
        have hq := hsorted r
        rw [hnext] at hq
        exact (List.pairwise_cons.mp hq).1 y hy
      · rw [other_of_ne hr] at hy
        rw [hothers] at hy
        refine before_all (hsorted _) (fun z hz => ?_) y hy
        cases hheld : (t.side (other q)).held with
        | none => exact hA (q, pb) ho hheld z hz
        | some pb' =>
          rw [ahead_held hK.streams hW hheld e] at hz
          cases hz
          exact oldest_before ho hheld
    have hold : ∀ x ∈ sent h, ∀ r, ∀ y ∈ ahead S msgs { h with given := h.given ++ [(q, pb, e)] } r,
        Before S x y := by
      intro x hx r y hy
      refine hS.oldest x hx r y ?_
      by_cases hr : r = q
      · subst hr
        simp only [hnext]
        exact List.mem_cons_of_mem _ hy
      · rw [ahead_other e hr] at hy
        exact hy
    constructor
    · rw [Sorted, sent_give]
      refine List.pairwise_append.mpr ⟨hS.sorted, List.pairwise_singleton _ _, fun x hx y hy => ?_⟩
      rw [List.mem_singleton.mp hy]
      refine hS.oldest x hx q (q, pb) ?_
      simp only [hnext]
      exact List.mem_cons_self
    · intro x hx r y hy
      simp only [sent_give, List.mem_append, List.mem_singleton] at hx
      rcases hx with hx | rfl
      · exact hold x hx r y hy
      · exact hnew r y hy

theorem step_safe {s s' : State} {e : Event} (hW : ∀ q, Whole S.lib (S.content q) (msgs q))
    (hs : ∀ q, StreamSorted S msgs q (c.get q)) (hK : Kept S msgs c s) (hS : Safe S msgs s)
    (h : machine S s e = some s') : Safe S msgs s' ↔ Admits S msgs s e := by
  obtain ⟨t, hist⟩ := s
  obtain ⟨t', hist'⟩ := s'
  obtain ⟨hstep, hsee⟩ := Runs.observe_some.mp h
  simp only at hstep hsee
  have hkeep : hist' = hist → (Safe S msgs (t', hist') ↔ True) := by
    rintro rfl
    exact iff_true_intro ⟨hS.sorted, hS.oldest⟩
  cases e with
  | choose =>
    simp only [see] at hsee
    cases ho : t.oldest S with
    | none =>
      rw [ho] at hsee
      refine (hkeep hsee).trans (iff_of_true trivial fun m hm => ?_)
      cases ho.symm.trans hm
    | some m =>
      rw [ho] at hsee
      rw [hsee]
      exact give_safe hK hW hs hS ho t' _
  | poll n now lookup =>
    refine hkeep (hsee.trans ?_)
    obtain ⟨q, -, hturn, -⟩ := step_poll.mp hstep
    simp only [see, hturn]
    refine if_neg fun hboth => ?_
    rw [(hK.disk.side q).resets hboth.1] at hboth
    cases hboth.2
  | arrive | plugin | next => exact hkeep hsee

end

/-- Both queues are sorted and on disk when the thread starts, at positions where a message starts: what is
delivered is sorted in every state of a run exactly when no message overtakes an older one that is not
parsed yet. -/
theorem order_iff (S : Setup) (msgs : Queue → Nat → List (List UInt8)) (hL : S.lib.Lawful)
    (hW : ∀ q, Whole S.lib (S.content q) (msgs q))
    (hid : ∀ q, ∀ id ∈ (S.content q).ids, id < ullongMax) (asyncLen tickerInterval tickerExpires : Nat)
    (c : CheckpointPair) (hB : ∀ q, Boundary S.lib (S.content q) (msgs q) (c.get q))
    (ends : Queue → Checkpoint) (hE : ∀ q, (S.content q).Ends (ends q))
    (hs : ∀ q, StreamSorted S msgs q (c.get q)) (es : List Event) :
    Runs.Always (machine S) (Safe S msgs)
        (start S asyncLen tickerInterval tickerExpires c ends) es ↔
      Runs.Meets (machine S) (Admits S msgs)
        (start S asyncLen tickerInterval tickerExpires c ends) es :=
  Runs.always_iff_meets (I := Kept S msgs c)
    (fun _ _ _ hK h => hK.step hL hW hid (fun q => (hB q).1) h)
    (fun _ _ _ hK hS h => step_safe hW hs hK hS h) (.start hB hE _ _ _)
    ⟨List.Pairwise.nil, fun _ hx => absurd hx List.not_mem_nil⟩ es

/-! ## Two small queues -/

def pairMsgs : Queue → Nat → List (List UInt8)
  | .input, _ => [[1], [2]]
  | .analysis, _ => [[5]]

/-- Two input messages and one of the analysis queue; the byte of a message is its timestamp. -/
def pairQueues : Setup where
  outputSize := 100
  lib := ReaderResume.smallLib
  timestamp pb := (pb.headD 0).toNat
  content q := ⟨[0], fun id => ReaderResume.smallLib.frames (pairMsgs q id)⟩

def pairEnds : Queue → Checkpoint
  | .input => ⟨0, 12⟩
  | .analysis => ⟨0, 6⟩

theorem pairQueues_whole (q : Queue) : Whole pairQueues.lib (pairQueues.content q) (pairMsgs q) where
  bytes id hid := if_pos hid
  accepts id _ pb hpb := by
    change pb.length < 128
    have hlen : ∀ m ∈ pairMsgs q id, m.length = 1 := by
      cases q with
      | input => simp [pairMsgs]
      | analysis => simp [pairMsgs]
    rw [hlen pb hpb]
    decide
  size id hid := by
    rw [Dir.bytes, if_pos hid]
    cases q with
    | input =>
      change (ReaderResume.smallLib.frames [[1], [2]]).length < 2 ^ 63
      decide
    | analysis =>
      change (ReaderResume.smallLib.frames [[5]]).length < 2 ^ 63
      decide

theorem pairQueues_ids (q : Queue) : ∀ id ∈ (pairQueues.content q).ids, id < ullongMax := by
  cases q <;> decide

theorem pairQueues_boundary (q : Queue) :
    Boundary pairQueues.lib (pairQueues.content q) (pairMsgs q)
      (CheckpointPair.get ⟨⟨0, 0⟩, ⟨0, 0⟩⟩ q) := by
  have hget : CheckpointPair.get ⟨⟨0, 0⟩, ⟨0, 0⟩⟩ q = ⟨0, 0⟩ := by cases q <;> rfl
  rw [hget]
  exact ⟨List.mem_singleton_self _, [], pairMsgs q 0, rfl, rfl⟩

theorem pairQueues_sorted (q : Queue) :
    StreamSorted pairQueues pairMsgs q (CheckpointPair.get ⟨⟨0, 0⟩, ⟨0, 0⟩⟩ q) := by
  unfold StreamSorted
  cases q <;> decide

theorem pairQueues_ends (q : Queue) : (pairQueues.content q).Ends (pairEnds q) := by
  cases q <;> decide

/-- A read of the input queue returns at most `n + 1` bytes. -/
def pairRun (n : Nat) : List Event :=
  [.plugin .head, .poll 0 1 ⟨0, 0⟩, .poll 0 1 ⟨0, 0⟩, .choose, .plugin (.ticker 1),
    .plugin .head, .poll n 2 ⟨0, 0⟩, .poll 5 2 ⟨0, 0⟩, .choose,
    .plugin .head, .poll n 3 ⟨0, 0⟩, .poll 5 3 ⟨0, 0⟩, .choose, .plugin (.matcher false), .plugin (.ticker 3),
    .plugin .head, .poll n 4 ⟨0, 0⟩, .poll 5 4 ⟨0, 0⟩, .choose, .plugin (.matcher false), .plugin (.ticker 4),
    .plugin .head, .poll n 5 ⟨0, 0⟩]

/-- One read returns both input messages. -/
theorem order_iff_whole :
    Runs.Always (machine pairQueues) (Safe pairQueues pairMsgs)
      (start pairQueues 0 0 0 ⟨⟨0, 0⟩, ⟨0, 0⟩⟩ pairEnds)
      (pairRun 11 ++ [.next, .next, .poll 5 5 ⟨0, 0⟩, .choose]) := by
  refine (order_iff pairQueues pairMsgs ReaderResume.smallLib_lawful pairQueues_whole pairQueues_ids 0 0 0
    ⟨⟨0, 0⟩, ⟨0, 0⟩⟩ pairQueues_boundary pairEnds pairQueues_ends pairQueues_sorted _).mpr ?_
  decide

/-- Each read returns one message: the message of the analysis queue is delivered while the second input
message is in the buffer. -/
theorem order_fails :
    ¬ ∀ (S : Setup) (msgs : Queue → Nat → List (List UInt8)) (asyncLen tickerInterval tickerExpires : Nat)
      (c : CheckpointPair) (ends : Queue → Checkpoint) (es : List Event), S.lib.Lawful →
      (∀ q, Whole S.lib (S.content q) (msgs q)) →
      (∀ q, Boundary S.lib (S.content q) (msgs q) (c.get q)) → (∀ q, (S.content q).Ends (ends q)) →
      (∀ q, StreamSorted S msgs q (c.get q)) →
      Runs.Always (machine S) (fun s => Sorted S s.2)
        (start S asyncLen tickerInterval tickerExpires c ends) es := by
  intro h
  have hall := h pairQueues pairMsgs 0 0 0 ⟨⟨0, 0⟩, ⟨0, 0⟩⟩ pairEnds
    (pairRun 5 ++ [.poll 5 5 ⟨0, 0⟩, .next, .next, .choose]) ReaderResume.smallLib_lawful pairQueues_whole
    pairQueues_boundary pairQueues_ends pairQueues_sorted
  obtain ⟨s, hrun, hsent⟩ : ∃ s, Runs.run (machine pairQueues)
      (start pairQueues 0 0 0 ⟨⟨0, 0⟩, ⟨0, 0⟩⟩ pairEnds)
      (pairRun 5 ++ [.poll 5 5 ⟨0, 0⟩, .next, .next, .choose]) = some s ∧
        sent s.2 = [(.input, [1]), (.analysis, [5]), (.input, [2])] := ⟨_, rfl, by decide⟩
  have hsorted := hall.run hrun
  rw [Sorted, hsent] at hsorted
  revert hsorted
  decide

end OutputOrder

end Hindsight
