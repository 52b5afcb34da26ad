import Hindsight.CliService

/-!
# Hindsight.CliQueues

The queues of `hindsight_cli` while they are written, and a thread that reads them meanwhile.

* `Dir.Within`: a directory goes on from another. A step of the loop of a thread is the same with what the queue
  will hold in the end as with what it holds now (`step_on`).
* `Tracks`: the invariant of `CliDrain` for all contents the queues may have in the end. It is kept when the queues
  grow, by the steps of the loop, and when the thread is told to stop.
* `Stored` and `StartsAt`: what a queue holds with the buffer of its stream, and where a reader may start.
  `Change` is all that a step does to a queue; what there is to read grows by the messages added.
-/

namespace Hindsight

namespace Dir

/-- The same files with the same bytes. -/
structure Same (d d' : Dir) : Prop where
  ids : ∀ id, id ∈ d.ids ↔ id ∈ d'.ids
  bytes : ∀ id, d.bytes id = d'.bytes id

/-- `d'` goes on from `d`, in the last file and after it. -/
structure Within (d d' : Dir) : Prop where
  ids : ∀ id ≤ findLastId d, id ∈ d.ids ↔ id ∈ d'.ids
  bytes : ∀ id < findLastId d, d.bytes id = d'.bytes id
  last : d.bytes (findLastId d) <+: d'.bytes (findLastId d)

theorem ends_tip (d : Dir) : d.Ends d.tip := by
  intro id hid
  rcases (le_findLastId d hid).lt_or_eq with hlt | heq
  · exact .inl hlt
  · exact .inr ⟨heq, by rw [heq]; exact le_rfl⟩

theorem findLastId_mem {d : Dir} (h : findLastId d ≠ 0) : findLastId d ∈ d.ids := by
  rw [findLastId_greatest] at h ⊢
  obtain ⟨-, hfound, -⟩ : 0 ≤ Select.greatest (fun _ => True) 0 d.ids ∧ _ ∧ _ := Select.greatest_spec
  rcases hfound with hzero | ⟨hmem, -⟩
  · exact absurd hzero h
  · exact hmem

section

variable {d d' d'' : Dir}

theorem Within.refl (d : Dir) : d.Within d := ⟨fun _ _ => Iff.rfl, fun _ _ => rfl, List.prefix_refl _⟩

theorem Within.last_le (h : d.Within d') : findLastId d ≤ findLastId d' := by
  by_cases hzero : findLastId d = 0
  · rw [hzero]
    exact Nat.zero_le _
  · exact le_findLastId d' ((h.ids _ le_rfl).mp (findLastId_mem hzero))

theorem Within.initial (h : d.Within d') {id : Nat} (hid : id ≤ findLastId d) :
    d.bytes id <+: d'.bytes id := by
  rcases hid.lt_or_eq with hlt | rfl
  · rw [h.bytes id hlt]
  · exact h.last

theorem Within.trans (h : d.Within d') (h' : d'.Within d'') : d.Within d'' where
  ids id hid := (h.ids id hid).trans (h'.ids id (hid.trans h.last_le))
  bytes id hid := (h.bytes id hid).trans (h'.bytes id (hid.trans_le h.last_le))
  last := h.last.trans (h'.initial h.last_le)

/-- What is on disk is what the later directory has up to there. -/
theorem Within.upTo (h : d.Within d') : (d.upTo d.tip).Same (d'.upTo d.tip) := by
  have hids : ∀ id, id ∈ (d.upTo d.tip).ids ↔ id ∈ (d'.upTo d.tip).ids := fun id => by
    rw [mem_upTo, mem_upTo]
    exact and_congr_left fun hid => h.ids id hid
  refine ⟨hids, fun id => ?_⟩
  by_cases hm : id ∈ (d.upTo d.tip).ids
  · rw [bytes_upTo hm, bytes_upTo ((hids id).mp hm)]
    split
    · exact h.bytes id ‹_›
    · have hid : id = findLastId d := le_antisymm (mem_upTo.mp hm).2 (not_lt.mp ‹_›)
      have hlast := List.prefix_iff_eq_take.mp h.last
      rw [hid]
      change (d.bytes _).take (d.bytes _).length = (d'.bytes _).take (d.bytes _).length
      rw [← hlast, List.take_length]
  · exact (if_neg hm).trans (if_neg (mt (hids id).mpr hm)).symm

end

end Dir

/-! ## A thread and what it has in view -/

namespace CliExit

open CliThread CliService CliDrain QueueContent

section

variable {v v' : Dir}

theorem hsOpenFile_same (h : v.Same v') (i : HsInput) (id : Nat) : hsOpenFile v i id = hsOpenFile v' i id := by
  simp only [hsOpenFile, h.ids]

theorem readInto_same (h : v.Same v') (L : SandboxLib) (i : HsInput) (ib : InputBuffer) (n : Nat) :
    readInto L v i ib n = readInto L v' i ib n := by
  have havailable : i.available v = i.available v' := by
    unfold HsInput.available
    split
    · rfl
    · rw [h.bytes]
  simp only [readInto, hsReadFile, havailable]

theorem poll_same (h : v.Same v') (S : Setup) (n : Nat) (s : Side) : s.poll S v n = s.poll S v' n := by
  simp only [Side.poll, hsOpenFile_same h, readInto_same h]

end

/-- What the queues hold in the end, for a thread that has `disk` in view. -/
structure Future (S : Setup) (disk : Queue → Dir) (t : Thread) (msgs : Queue → Nat → List (List UInt8)) :
    Prop where
  within : ∀ q, S.readQueue.reads q = true → (disk q).Within (S.content q)
  onDisk : ∀ q, S.readQueue.reads q = true → OnDisk S msgs q
  full : ∀ q, S.readQueue.reads q = true → Full S q
  ended : t.stop = true → ∀ q, S.readQueue.reads q = true → (S.content q).Ends (disk q).tip

/-- The setup with other contents of the queues. -/
def on (S : Setup) (content : Queue → Dir) : Setup := { S with content := content }

/-- A step of the loop does not tell the contents from those that go on from them. -/
theorem step_on {S : Setup} {disk : Queue → Dir} {t : Thread} {e : CliThread.Event}
    (h : ∀ q, S.readQueue.reads q = true → (disk q).Within (S.content q)) (he : ofLoop e = true)
    (hopen : ∀ q, t.pc = .openNext q → S.readQueue.reads q = true) :
    CliThread.step (on S disk) (now disk t) e = CliThread.step S (now disk t) e := by
  have hview : ∀ q, S.readQueue.reads q = true →
      ((now disk t).view (on S disk) q).Same ((now disk t).view S q) := fun q hq => (h q hq).upTo
  cases e with
  | stop | arrive => cases he
  | head | choose | answer => rfl
  | poll n =>
    have hpoll : ∀ q, (now disk t).poll (on S disk) n q = (now disk t).poll S n q := fun q => by
      unfold Thread.poll
      by_cases hq : S.readQueue.reads q = true
      · rw [if_pos hq, if_pos (show (on S disk).readQueue.reads q = true from hq), poll_same (hview q hq)]
        rfl
      · rw [if_neg hq, if_neg (show ¬(on S disk).readQueue.reads q = true from hq)]
    simp only [CliThread.step, hpoll]
  | openNext =>
    have hnext : ∀ q, t.pc = .openNext q → (now disk t).openNext (on S disk) q = (now disk t).openNext S q :=
      fun q hpc => by
        simp only [Thread.openNext, Side.openNext, hsOpenFile_same (hview q (hopen q hpc))]
    simp only [CliThread.step]
    split
    · exact congrArg some (hnext _ ‹_›)
    · rfl

/-! ## The invariant of a thread, whatever comes -/

/-- What the loop leaves alone: `stop`, and the plugin of an output thread. -/
def Keeps (S : Setup) (t t' : Thread) : Prop := t'.stop = t.stop ∧ (S.kind = .output → t'.alive = t.alive)

section

variable {S : Setup} {t t' t'' : Thread}

theorem Keeps.trans (h : Keeps S t t') (h' : Keeps S t' t'') : Keeps S t t'' :=
  ⟨h'.1.trans h.1, fun hk => (h'.2 hk).trans (h.2 hk)⟩

theorem keeps_of_frame (h : t'.frame = t.frame) : Keeps S t t' := by
  refine ⟨?_, fun _ => Thread.alive_of_frame h⟩
  simp only [Thread.frame, Prod.mk.injEq] at h
  exact h.2.2.1

theorem keeps_terminate : Keeps S t (t.terminate S) := by
  unfold Thread.terminate
  split
  · rename_i hk
    exact ⟨rfl, fun hk' => (by rw [hk] at hk'; cases hk')⟩
  · exact ⟨rfl, fun _ => rfl⟩

theorem keeps_idle {fatal : Bool} : Keeps S t (t.idle S fatal) := by
  have htimer : Keeps S t ((t.idleClock S).timer S) :=
    (keeps_of_frame Thread.frame_idleClock).trans (keeps_of_frame Thread.frame_timer)
  simp only [Thread.idle]
  split
  · exact htimer.trans keeps_terminate
  · exact htimer

theorem keeps_choose {fatal : Bool} : Keeps S t (t.choose S fatal) := by
  unfold Thread.choose
  split
  · rename_i q pb _
    exact keeps_of_frame (t := t.setSide q { t.side q with held := none }) (Thread.frame_see (S.timestamp pb))
  · split
    · exact keeps_idle
    · exact ⟨rfl, fun _ => rfl⟩

theorem keeps_answer {q : Queue} {pb : List UInt8} {again fatal : Bool} {v : Verdict} :
    Keeps S t (t.answer S q pb again v fatal) := by
  have htimer : Keeps S t (t.timer S) := keeps_of_frame Thread.frame_timer
  unfold Thread.answer
  split
  · exact ⟨rfl, fun _ => rfl⟩
  · split
    · exact keeps_terminate
    · split
      · exact htimer.trans keeps_terminate
      · split
        · exact htimer
        · exact htimer

theorem keeps_of_step {e : CliThread.Event} (h : CliThread.step S t e = some t') (he : ofLoop e = true) :
    Keeps S t t' := by
  cases e with
  | stop | arrive => cases he
  | head =>
    obtain ⟨-, rfl⟩ := step_head.mp h
    unfold Thread.head
    split <;> exact ⟨rfl, fun _ => rfl⟩
  | poll n =>
    obtain ⟨q, -, rfl⟩ := step_poll.mp h
    unfold Thread.poll
    split
    · exact ⟨Thread.leave_stop, fun _ => Thread.leave_alive⟩
    · exact ⟨rfl, fun _ => rfl⟩
  | openNext =>
    obtain ⟨q, -, rfl⟩ := step_openNext.mp h
    exact ⟨Thread.leave_stop, fun _ => Thread.leave_alive⟩
  | choose fatal =>
    obtain ⟨-, rfl⟩ := step_choose.mp h
    exact keeps_choose
  | answer v fatal =>
    obtain ⟨q, pb, again, -, rfl⟩ := step_answer.mp h
    exact keeps_answer

end

/-- The invariant for all that the queues may hold in the end. -/
def Tracks (S : Setup) (disk : Queue → Dir) (t : Thread) (log : List Offer) : Prop :=
  ∀ content msgs, Future (on S content) disk t msgs → t.alive = true →
    CliDrain.Inv (on S content) msgs (now disk t) log

section

variable {S : Setup} {disk disk' : Queue → Dir} {t t' : Thread} {log : List Offer} {e : CliThread.Event}

theorem inv_now {msgs : Queue → Nat → List (List UInt8)} (hI : CliDrain.Inv S msgs t log)
    (h : t.stop = true → ∀ q, S.readQueue.reads q = true → (S.content q).Ends (disk q).tip) :
    CliDrain.Inv S msgs (now disk t) log :=
  ⟨h, hI.localStop, hI.side, hI.atEnd, hI.exited, hI.chain, hI.pending⟩

theorem tracks_start (clock : Nat) : Tracks S disk (Thread.init S clock) [] := by
  intro content msgs _ _
  exact inv_now (CliDrain.start_inv (on S content) msgs clock) fun h => (by cases h)

/-- The queues grow; those of a thread that is told to stop do not. -/
theorem Tracks.grow (h : Tracks S disk t log)
    (hw : ∀ q, S.readQueue.reads q = true → (disk q).Within (disk' q))
    (hstop : t.stop = true → ∀ q, S.readQueue.reads q = true → (disk' q).tip = (disk q).tip) :
    Tracks S disk' t log := by
  intro content msgs hF halive
  have hF₀ : Future (on S content) disk t msgs :=
    ⟨fun q hq => (hw q hq).trans (hF.within q hq), hF.onDisk, hF.full, fun hs q hq => by
      rw [← hstop hs q hq]
      exact hF.ended hs q hq⟩
  exact inv_now (t := now disk t) (h content msgs hF₀ halive) hF.ended

/-- A thread is told to stop when its queues are as they will be. -/
theorem Tracks.stop (h : Tracks S disk t log) : Tracks S disk { t with stop := true } log := by
  intro content msgs hF halive
  have hI := h content msgs ⟨hF.within, hF.onDisk, hF.full, fun _ => hF.ended rfl⟩ halive
  exact ⟨fun _ => hF.ended rfl, fun _ => rfl, hI.side, hI.atEnd, hI.exited, hI.chain, hI.pending⟩

theorem admits_on (h : ∀ q, S.readQueue.reads q = true → (disk q).Within (S.content q))
    (hopen : ∀ q, t.pc = .openNext q → S.readQueue.reads q = true)
    (hadm : Admits (on S disk) (now disk t, log) e) : Admits S (now disk t, log) e := by
  unfold Admits at hadm ⊢
  cases e with
  | openNext =>
    cases hpc : t.pc with
    | openNext q =>
      simp only [now, hpc] at hadm ⊢
      intro hnext
      have hW := h q (hopen q hpc)
      have hnow := (hW.upTo.ids _).mpr hnext
      have hlt : ((t.side q).input.cp.id) < findLastId (disk q) := (Dir.mem_upTo.mp hnow).2
      rw [← hW.bytes _ hlt]
      exact hadm hnow
    | _ => simp only [now, hpc]
  | answer v fatal =>
    cases hpc : t.pc with
    | offer => simpa only [now, hpc, on] using hadm
    | _ => simp only [now, hpc]
  | _ => trivial

theorem Tracks.step (h : Tracks S disk t log) (hL : S.lib.Lawful) (he : ofLoop e = true)
    (hadm : Admits (on S disk) (now disk t, log) e)
    (hstep : CliThread.step (on S disk) (now disk t) e = some t') :
    Tracks S disk t' (CliDrain.see (now disk t) log e) := by
  intro content msgs hF halive
  have hs : t'.stop = (now disk t).stop := (keeps_of_step hstep he).1
  have ha : (now disk t).alive = true := alive_of_step hstep halive
  have hF₀ : Future (on S content) disk t msgs :=
    ⟨hF.within, hF.onDisk, hF.full, fun hstop => hF.ended (hs.trans hstop)⟩
  have hI := h content msgs hF₀ ha
  have hopen : ∀ q, t.pc = .openNext q → (on S content).readQueue.reads q = true := fun q hpc =>
    (hI.atEnd q hpc).1
  have hstep' : CliThread.step (on S content) (now disk t) e = some t' :=
    (step_on (S := on S content) hF.within he hopen).symm.trans hstep
  have hadm' : Admits (on S content) (now disk t, log) e := admits_on (S := on S content) hF.within hopen hadm
  have hobserved : CliDrain.step (on S content) (now disk t, log) e =
      some (t', CliDrain.see (now disk t) log e) := Runs.observe_some.mpr ⟨hstep', rfl⟩
  have hI' := CliDrain.step_inv (S := on S content) hL hF.onDisk hF.full (fun _ => hI) hadm' hobserved halive
  exact inv_now hI' hF.ended

end

/-! ## A queue that is written -/

/-- The queue with what is still in the buffer of the stream: whole messages, in files without gaps. -/
structure Stored (L : SandboxLib) (o : Output) (msgs : Nat → List (List UInt8)) : Prop where
  fh : o.fh = some o.cp.id
  offset : o.cp.offset = (o.full o.cp.id).length
  mem : o.cp.id ∈ o.dir.ids
  top : ∀ id ∈ o.dir.ids, id ≤ o.cp.id
  next : ∀ id ∈ o.dir.ids, id < o.cp.id → id + 1 ∈ o.dir.ids
  whole : ∀ id ∈ o.dir.ids, o.full id = L.frames (msgs id)
  accepts : ∀ id ∈ o.dir.ids, ∀ pb ∈ msgs id, L.accepts pb
  ids : ∀ id ∈ o.dir.ids, id < ullongMax
  size : ∀ id ∈ o.dir.ids, (o.full id).length < 2 ^ 63

/-- A reader may start at `c`: between two messages, and with full files from there on. -/
structure StartsAt (L : SandboxLib) (size : Nat) (o : Output) (msgs : Nat → List (List UInt8))
    (c : Checkpoint) : Prop where
  mem : c.id ∈ o.dir.ids
  boundary : ∃ done rest, msgs c.id = done ++ rest ∧ c.offset = (L.frames done).length
  size : ∀ id ∈ o.dir.ids, c.id ≤ id → id < o.cp.id →
    size ≤ (o.full id).length ∨ id = c.id ∧ size ≤ c.offset

/-- The messages from `c` on in the files up to `last`. -/
def unread (L : SandboxLib) (msgs : Nat → List (List UInt8)) (last : Nat) (c : Checkpoint) :
    List (List UInt8) :=
  L.restFrom c.offset (msgs c.id) ++ Span.concat msgs (c.id + 1) (last - c.id)

section

variable {cfg : HsConfig} {L : SandboxLib} {size : Nat} {o o' : Output} {msgs : Nat → List (List UInt8)}
  {c : Checkpoint}

theorem Stored.isOpen (h : Stored L o msgs) : o.Open := ⟨o.cp.id, h.mem, h.fh⟩

theorem Stored.last (h : Stored L o msgs) : findLastId o.dir = o.cp.id :=
  le_antisymm (findLastId_le h.top) (le_findLastId o.dir h.mem)

/-- A closed file has nothing in the buffer. -/
theorem Stored.closed (h : Stored L o msgs) {id : Nat} (hid : id ≠ o.cp.id) :
    o.full id = o.dir.bytes id := by
  rw [Output.full, h.fh, if_neg fun he => hid (Option.some.inj he).symm, List.append_nil]

theorem Stored.congr (h : Stored L o msgs) (hfh : o'.fh = o.fh) (hcp : o'.cp = o.cp)
    (hids : o'.dir.ids = o.dir.ids) (hfull : ∀ id, o'.full id = o.full id) : Stored L o' msgs := by
  constructor
  · rw [hfh, hcp]
    exact h.fh
  · rw [hcp, hfull]
    exact h.offset
  · rw [hcp, hids]
    exact h.mem
  · rw [hcp, hids]
    exact h.top
  · rw [hcp, hids]
    exact h.next
  · simp only [hids, hfull]
    exact h.whole
  · rw [hids]
    exact h.accepts
  · rw [hids]
    exact h.ids
  · simp only [hids, hfull]
    exact h.size

theorem StartsAt.congr (h : StartsAt L size o msgs c) (hcp : o'.cp = o.cp)
    (hids : o'.dir.ids = o.dir.ids) (hfull : ∀ id, o'.full id = o.full id) : StartsAt L size o' msgs c := by
  refine ⟨by rw [hids]; exact h.mem, h.boundary, ?_⟩
  simp only [hids, hcp, hfull]
  exact h.size

/-- Past a boundary, a message that is added comes last. -/
theorem restFrom_append (h : ∃ done rest, msgs c.id = done ++ rest ∧ c.offset = (L.frames done).length)
    (pb : List UInt8) :
    L.restFrom c.offset (msgs c.id ++ [pb]) = L.restFrom c.offset (msgs c.id) ++ [pb] := by
  obtain ⟨done, rest, hmsgs, hoff⟩ := h
  rw [hoff, hmsgs, List.append_assoc, SandboxLib.restFrom_frames, SandboxLib.restFrom_frames]

/-! ### Appending a message -/

/-- The queue after the writes of a message, ahead of the roll-over. -/
def appended (L : SandboxLib) (o : Output) (pb : List UInt8) : Output :=
  { o.fwrite (frame L.varint pb) with cp := ⟨o.cp.id, o.cp.offset + (frame L.varint pb).length⟩ }

def addTo (msgs : Nat → List (List UInt8)) (id : Nat) (pb : List UInt8) : Nat → List (List UInt8) :=
  Function.update msgs id (msgs id ++ [pb])

theorem full_appended (h : Stored L o msgs) (pb : List UInt8) (id : Nat) :
    (appended L o pb).full id = o.full id ++ if id = o.cp.id then frame L.varint pb else [] := by
  have hfull : (appended L o pb).full id = (o.fwrite (frame L.varint pb)).full id := rfl
  rw [hfull, Output.full_fwrite, h.fh]
  congr 1
  simp only [Option.some.injEq, eq_comm]

theorem Stored.append (h : Stored L o msgs) {pb : List UInt8} (hpb : L.accepts pb)
    (hfits : o.cp.offset + (frame L.varint pb).length < 2 ^ 63) :
    Stored L (appended L o pb) (addTo msgs o.cp.id pb) where
  fh := h.fh
  offset := by
    have hcp : (appended L o pb).cp = ⟨o.cp.id, o.cp.offset + (frame L.varint pb).length⟩ := rfl
    rw [hcp, full_appended h, if_pos rfl, List.length_append, ← h.offset]
  mem := h.mem
  top := h.top
  next := h.next
  whole id hid := by
    rw [full_appended h, h.whole id hid, addTo]
    by_cases he : id = o.cp.id
    · rw [if_pos he, he, Function.update_self]
      simp [SandboxLib.frames]
    · rw [if_neg he, Function.update_of_ne he, List.append_nil]
  accepts id hid x hx := by
    rw [addTo] at hx
    by_cases he : id = o.cp.id
    · rw [he, Function.update_self] at hx
      rcases List.mem_append.mp hx with hx | hx
      · exact h.accepts _ h.mem x hx
      · rw [List.mem_singleton.mp hx]
        exact hpb
    · rw [Function.update_of_ne he] at hx
      exact h.accepts id hid x hx
  ids := h.ids
  size id hid := by
    rw [full_appended h, List.length_append]
    by_cases he : id = o.cp.id
    · rwa [if_pos he, he, ← h.offset]
    · rw [if_neg he]
      exact h.size id hid

theorem StartsAt.append (hs : StartsAt L size o msgs c) (h : Stored L o msgs) (pb : List UInt8) :
    StartsAt L size (appended L o pb) (addTo msgs o.cp.id pb) c where
  mem := hs.mem
  boundary := by
    obtain ⟨done, rest, hmsgs, hoff⟩ := hs.boundary
    rw [addTo]
    by_cases he : c.id = o.cp.id
    · refine ⟨done, rest ++ [pb], ?_, hoff⟩
      rw [he, Function.update_self, ← he, hmsgs, List.append_assoc]
    · exact ⟨done, rest, by rw [Function.update_of_ne he]; exact hmsgs, hoff⟩
  size id hid hle hlt := by
    have hne : id ≠ o.cp.id := Nat.ne_of_lt hlt
    rw [full_appended h, if_neg hne, List.append_nil]
    exact hs.size id hid hle hlt

theorem unread_append (hs : StartsAt L size o msgs c) (h : Stored L o msgs) (pb : List UInt8) :
    unread L (addTo msgs o.cp.id pb) o.cp.id c = unread L msgs o.cp.id c ++ [pb] := by
  rw [unread, unread, addTo]
  rcases (h.top c.id hs.mem).lt_or_eq with hlt | he
  · obtain ⟨n, hn⟩ : ∃ n, o.cp.id = c.id + 1 + n := ⟨o.cp.id - c.id - 1, by omega⟩
    have hcnt : o.cp.id - c.id = n + 1 := by omega
    have hlast := Span.concat_update_last msgs (c.id + 1) n [pb]
    rw [← hn] at hlast
    rw [Function.update_of_ne (Nat.ne_of_lt hlt), hcnt, hlast, List.append_assoc]
  · rw [← he, Nat.sub_self, Function.update_self, restFrom_append hs.boundary]
    simp only [Span.concat, List.range'_zero, List.flatMap_nil, List.append_nil]

/-! ### The roll-over -/

/-- The queue goes on in the next file. -/
def rolled (o : Output) : Output := hsOpenOutputFile { o with cp := ⟨o.cp.id + 1, o.cp.offset⟩ }

theorem full_rolled (h : Stored L o msgs) (id : Nat) : (rolled o).full id = o.full id :=
  full_hsOpenOutputFile (o := { o with cp := ⟨o.cp.id + 1, o.cp.offset⟩ }) ⟨o.cp.id, h.mem, h.fh⟩ id

theorem bytes_rolled (h : Stored L o msgs) (id : Nat) : (rolled o).dir.bytes id = o.full id :=
  bytes_hsOpenOutputFile (o := { o with cp := ⟨o.cp.id + 1, o.cp.offset⟩ }) ⟨o.cp.id, h.mem, h.fh⟩ id

theorem mem_rolled {id : Nat} : id ∈ (rolled o).dir.ids ↔ id ∈ o.dir.ids ∨ id = o.cp.id + 1 :=
  mem_ids_hsOpenOutputFile

theorem Stored.fresh (h : Stored L o msgs) : o.cp.id + 1 ∉ o.dir.ids := fun hm => by
  have := h.top _ hm
  omega

theorem Stored.empty (h : Stored L o msgs) : o.full (o.cp.id + 1) = [] := by
  rw [h.closed (Nat.succ_ne_self _), Dir.bytes, if_neg h.fresh]

theorem cp_rolled (h : Stored L o msgs) : (rolled o).cp = ⟨o.cp.id + 1, 0⟩ := by
  have hcp := cp_hsOpenOutputFile (o := { o with cp := ⟨o.cp.id + 1, o.cp.offset⟩ }) ⟨o.cp.id, h.mem, h.fh⟩
  have hempty : ({ o with cp := ⟨o.cp.id + 1, o.cp.offset⟩ } : Output).full (o.cp.id + 1) = [] := h.empty
  rw [hempty] at hcp
  exact hcp

theorem Stored.roll (h : Stored L o msgs) (hnext : o.cp.id + 1 < ullongMax) :
    Stored L (rolled o) (Function.update msgs (o.cp.id + 1) []) := by
  have hcp := cp_rolled h
  refine ⟨?_, ?_, ?_, fun id hid => ?_, fun id hid hlt => ?_, fun id hid => ?_, fun id hid pb hpb => ?_,
    fun id hid => ?_, fun id hid => ?_⟩
  · rw [hcp]
    exact fh_hsOpenOutputFile _
  · rw [full_rolled h, hcp, h.empty]
    rfl
  · rw [hcp]
    exact mem_rolled.mpr (.inr rfl)
  · rw [hcp]
    rcases mem_rolled.mp hid with hid | rfl
    · exact (h.top id hid).trans (Nat.le_succ _)
    · exact le_rfl
  · rw [hcp] at hlt
    rcases mem_rolled.mp hid with hid | rfl
    · rcases (Nat.le_of_lt_succ hlt).lt_or_eq with hlt | rfl
      · exact mem_rolled.mpr (.inl (h.next id hid hlt))
      · exact mem_rolled.mpr (.inr rfl)
    · exact absurd hlt (lt_irrefl _)
  · rw [full_rolled h]
    by_cases he : id = o.cp.id + 1
    · rw [he, h.empty, Function.update_self]
      rfl
    · rw [Function.update_of_ne he]
      exact h.whole id ((mem_rolled.mp hid).resolve_right he)
  · by_cases he : id = o.cp.id + 1
    · rw [he, Function.update_self] at hpb
      cases hpb
    · rw [Function.update_of_ne he] at hpb
      exact h.accepts id ((mem_rolled.mp hid).resolve_right he) pb hpb
  · rcases mem_rolled.mp hid with hid | rfl
    · exact h.ids id hid
    · exact hnext
  · rw [full_rolled h]
    rcases mem_rolled.mp hid with hid | rfl
    · exact h.size id hid
    · rw [h.empty]
      exact Nat.two_pow_pos 63

theorem StartsAt.roll (hs : StartsAt L size o msgs c) (h : Stored L o msgs) (hsize : size ≤ o.cp.offset) :
    StartsAt L size (rolled o) (Function.update msgs (o.cp.id + 1) []) c where
  mem := mem_rolled.mpr (.inl hs.mem)
  boundary := by
    have hne : c.id ≠ o.cp.id + 1 := fun he => h.fresh (he ▸ hs.mem)
    rw [Function.update_of_ne hne]
    exact hs.boundary
  size id hid hle hlt := by
    rw [cp_rolled h] at hlt
    rw [full_rolled h]
    have hid : id ∈ o.dir.ids := (mem_rolled.mp hid).resolve_right (Nat.ne_of_lt hlt)
    rcases (Nat.le_of_lt_succ hlt).lt_or_eq with hlt | rfl
    · exact hs.size id hid hle hlt
    · exact .inl (h.offset ▸ hsize)

theorem unread_roll (hs : StartsAt L size o msgs c) (h : Stored L o msgs) :
    unread L (Function.update msgs (o.cp.id + 1) []) (o.cp.id + 1) c = unread L msgs o.cp.id c := by
  have hle := h.top c.id hs.mem
  have hcnt : o.cp.id + 1 - c.id = o.cp.id - c.id + 1 := by omega
  have hlast : c.id + 1 + (o.cp.id - c.id) = o.cp.id + 1 := by omega
  have hsame : Span.concat (Function.update msgs (o.cp.id + 1) []) (c.id + 1) (o.cp.id - c.id) =
      Span.concat msgs (c.id + 1) (o.cp.id - c.id) :=
    Span.concat_congr fun j _ hj => Function.update_of_ne (by omega) _ _
  rw [unread, unread, Function.update_of_ne (by omega), hcnt, Span.concat_succ_last, hlast, hsame,
    Function.update_self, List.append_nil]

end

/-! ### All that happens to a queue -/

/-- A message that the readers take, in a file that does not grow too large; when it fills the file, the next
one has an id that does not wrap. -/
def Takes (cfg : HsConfig) (L : SandboxLib) (o : Output) (pb : List UInt8) : Prop :=
  L.accepts pb ∧ o.cp.offset + (frame L.varint pb).length < 2 ^ 63 ∧
    (cfg.outputSize ≤ o.cp.offset + (frame L.varint pb).length → o.cp.id + 1 < ullongMax)

/-- What a step does to a queue, with the messages it adds. -/
inductive Change (cfg : HsConfig) (L : SandboxLib) (o : Output) : Output → List (List UInt8) → Prop
  | none : Change cfg L o o []
  | spill (n : Nat) : Change cfg L o (o.spill n) []
  | inject (pb : List UInt8) (h : Takes cfg L o pb) :
    Change cfg L o (appendFrame cfg L.varint o pb) [pb]

section

variable {cfg : HsConfig} {L : SandboxLib} {o o' : Output} {msgs : Nat → List (List UInt8)}
  {added : List (List UInt8)}

theorem appendFrame_eq {pb : List UInt8} (h : Takes cfg L o pb) :
    appendFrame cfg L.varint o pb =
      if cfg.outputSize ≤ (appended L o pb).cp.offset then rolled (appended L o pb) else appended L o pb := by
  by_cases hroll : cfg.outputSize ≤ (appended L o pb).cp.offset
  · have hid : (o.cp.id + 1) % 2 ^ 64 = o.cp.id + 1 := by
      have hlt := h.2.2 hroll
      have hmax : ullongMax = 2 ^ 64 - 1 := rfl
      exact Nat.mod_eq_of_lt (by omega)
    rw [if_pos hroll]
    refine (if_pos hroll).trans ?_
    change hsOpenOutputFile { appended L o pb with cp := ⟨(o.cp.id + 1) % 2 ^ 64, _⟩ } = _
    rw [hid]
    rfl
  · rw [if_neg hroll]
    exact if_neg hroll

/-- The queue stays whole, and what there is to read after a checkpoint grows by the messages added. -/
theorem Change.stored (hc : Change cfg L o o' added) (h : Stored L o msgs) :
    ∃ msgs', Stored L o' msgs' ∧ ∀ c, StartsAt L cfg.outputSize o msgs c →
      StartsAt L cfg.outputSize o' msgs' c ∧
        unread L msgs' o'.cp.id c = unread L msgs o.cp.id c ++ added := by
  cases hc with
  | none => exact ⟨msgs, h, fun c hs => ⟨hs, (List.append_nil _).symm⟩⟩
  | spill n =>
    have hfull := Output.full_spill h.isOpen n
    refine ⟨msgs, h.congr (Output.fh_spill o n) (Output.cp_spill o n) (Output.ids_spill o n) hfull,
      fun c hs => ⟨hs.congr (Output.cp_spill o n) (Output.ids_spill o n) hfull, ?_⟩⟩
    rw [Output.cp_spill, List.append_nil]
  | inject pb htakes =>
    rw [appendFrame_eq htakes]
    have h₁ := h.append htakes.1 htakes.2.1
    split
    · rename_i hroll
      refine ⟨_, h₁.roll (htakes.2.2 hroll), fun c hs => ?_⟩
      have hs₁ := hs.append h pb
      refine ⟨hs₁.roll h₁ hroll, ?_⟩
      rw [cp_rolled h₁]
      exact (unread_roll hs₁ h₁).trans (unread_append hs h pb)
    · exact ⟨_, h₁, fun c hs => ⟨hs.append h pb, unread_append hs h pb⟩⟩

/-- The files go on from where they were. -/
theorem within_of_full (h : Stored L o msgs) (hids : ∀ id ≤ o.cp.id, id ∈ o'.dir.ids ↔ id ∈ o.dir.ids)
    (hclosed : ∀ id < o.cp.id, o'.dir.bytes id = o.full id)
    (hlast : o.dir.bytes o.cp.id <+: o'.dir.bytes o.cp.id) : o.dir.Within o'.dir where
  ids id hid := (hids id (h.last ▸ hid)).symm
  bytes id hid := by
    rw [h.last] at hid
    rw [hclosed id hid, h.closed (Nat.ne_of_lt hid)]
  last := by
    rw [h.last]
    exact hlast

theorem Change.within (hc : Change cfg L o o' added) (h : Stored L o msgs) : o.dir.Within o'.dir := by
  cases hc with
  | none => exact Dir.Within.refl _
  | spill n =>
    refine within_of_full h (fun id _ => by rw [Output.ids_spill]) (fun id hid => ?_)
      (Output.grows_spill h.isOpen n o.cp.id).2
    rw [Output.bytes_spill h.isOpen, h.fh, if_neg fun he => Nat.ne_of_gt hid (Option.some.inj he),
      List.append_nil, h.closed (Nat.ne_of_lt hid)]
  | inject pb htakes =>
    rw [appendFrame_eq htakes]
    have h₁ := h.append htakes.1 htakes.2.1
    split
    · refine within_of_full h (fun id hid => ?_) (fun id hid => ?_) ?_
      · refine mem_rolled.trans (or_iff_left ?_)
        exact Nat.ne_of_lt (Nat.lt_succ_of_le hid)
      · rw [bytes_rolled h₁, full_appended h, if_neg (Nat.ne_of_lt hid), List.append_nil]
      · rw [bytes_rolled h₁]
        exact List.prefix_append _ _
    · exact Dir.Within.refl _

/-- A queue that is flushed and gets no message stays as it is. -/
theorem Change.still (hc : Change cfg L o o' []) (h : Stored L o msgs) (hbuf : o.buf = []) :
    o'.buf = [] ∧ o'.dir.tip = o.dir.tip := by
  cases hc with
  | none => exact ⟨hbuf, rfl⟩
  | spill n =>
    have hbytes : ∀ id, (o.spill n).dir.bytes id = o.dir.bytes id := fun id => by
      rw [Output.bytes_spill h.isOpen, hbuf, List.take_nil, ite_self, List.append_nil]
    refine ⟨by rw [Output.buf_spill h.isOpen, hbuf, List.drop_nil], ?_⟩
    have hlast : findLastId (o.spill n).dir = findLastId o.dir := by
      rw [findLastId, findLastId, Output.ids_spill]
    rw [Dir.tip, Dir.tip, hlast, hbytes]

end

end CliExit

end Hindsight
