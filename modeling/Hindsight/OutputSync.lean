import Hindsight.Lib.Run
import Hindsight.OutputPlugin

/-!
# Hindsight.OutputSync

Delivery of a synchronous or batching output plugin (`async_len = 0`). An observer keeps a ledger
of the delivered messages and what has become of each: still `offered`, part of the open batch,
or settled.

* `Safe`: every message at or before `p->cp` is settled.
* `Admits`: `update_checkpoint()` is not called in an open batch while a delivered message is
  still to be sent again.
* `step_inv`: the invariant; `step_safe`: under it a step keeps `Safe` exactly when it is
  admitted.
* `sync_safe_iff`: a run keeps `Safe` exactly when all its steps are admitted.
-/

namespace Hindsight

namespace OutputSync

open OutputPlugin

/-- What has become of a delivered message. -/
inductive Fate where
  | offered
  | batched
  | settled
  deriving DecidableEq, Repr

structure Entry where
  queue : Queue
  stop : Checkpoint
  fate : Fate
  deriving DecidableEq, Repr

/-- A batched message is settled when its batch is. -/
def Entry.commit (x : Entry) : Entry :=
  if x.fate = .batched then { x with fate := .settled } else x

/-- The delivered messages, newest first, and whether a batch is open. -/
structure Ledger where
  entries : List Entry
  batchOpen : Bool
  deriving DecidableEq, Repr

namespace Ledger

def markLast (l : Ledger) (f : Fate) : Ledger :=
  match l.entries with
  | [] => l
  | x :: xs => { l with entries := { x with fate := f } :: xs }

def commit (l : Ledger) : Ledger := ⟨l.entries.map Entry.commit, false⟩

/-- `process_message` returned for the newest message. -/
def returned (l : Ledger) : PmRet → Ledger
  | .sent => (l.markLast .settled).commit
  | .fail | .skip => l.markLast (if l.batchOpen then .batched else .settled)
  | .batch => { l.markLast .batched with batchOpen := true }
  | .retry | .async | .fatal => l

/-- The observer. -/
def see (_ : OutputPlugin) (l : Ledger) : OpEvent → Ledger
  | .deliver q e => { l with entries := ⟨q, e, .offered⟩ :: l.entries }
  | .matcher false => l.markLast .settled
  | .callback _ => l.commit
  | .pmReturn r => l.returned r
  | _ => l

end Ledger

abbrev State := OutputPlugin × Ledger

def step : State → OpEvent → Option State := Runs.observe OutputPlugin.step Ledger.see

/-- A plugin without async buffer, before its first message. -/
def init (rq : ReadQueue) (tickerInterval tickerExpires : Nat) (start : CheckpointPair) : State :=
  (OutputPlugin.create rq 0 tickerInterval tickerExpires start, ⟨[], false⟩)

/-- Every message at or before `p->cp` is settled. -/
def Safe (s : State) : Prop :=
  ∀ x ∈ s.2.entries, x.stop ≤ s.1.cp.get x.queue → x.fate = .settled

/-- `update_checkpoint()` in an open batch finds no message that is still to be sent (again). -/
def Admits (s : State) : OpEvent → Prop
  | .callback _ => s.1.batching = true → ∀ x ∈ s.2.entries, x.fate ≠ .offered
  | _ => True

structure Inv (p : OutputPlugin) (l : Ledger) : Prop where
  noAsync : p.asyncLen = 0
  batch : l.batchOpen = p.batching
  read : ∀ x ∈ l.entries, p.opened x.queue = true ∧ x.stop ≤ p.cur.get x.queue
  cp_le : p.cp ≤ p.cur
  tail : ∀ x ∈ l.entries.tail, x.fate ≠ .offered
  batched : ∀ x ∈ l.entries, x.fate = .batched → p.batching = true
  answered : held p = false → ∀ x ∈ l.entries, x.fate ≠ .offered
  waiting : current p = true → p.msg ≠ none ∧ ∃ x xs, l.entries = x :: xs ∧ x.fate = .offered

/-! ## The ledger -/

@[simp] theorem commit_queue (x : Entry) : x.commit.queue = x.queue := by
  unfold Entry.commit; split <;> rfl

@[simp] theorem commit_stop (x : Entry) : x.commit.stop = x.stop := by
  unfold Entry.commit; split <;> rfl

theorem commit_fate (x : Entry) :
    x.commit.fate = if x.fate = .batched then .settled else x.fate := by
  unfold Entry.commit; split <;> rfl

theorem commit_offered (x : Entry) : x.commit.fate = .offered ↔ x.fate = .offered := by
  rw [commit_fate]
  cases x.fate <;> simp

theorem commit_not_batched (x : Entry) : x.commit.fate ≠ .batched := by
  rw [commit_fate]
  cases x.fate <;> simp

theorem commit_settled {x : Entry} (h : x.fate ≠ .offered) : x.commit.fate = .settled := by
  rw [commit_fate]
  cases hx : x.fate <;> simp_all

theorem settled_of {x : Entry} (ho : x.fate ≠ .offered) (hb : x.fate ≠ .batched) :
    x.fate = .settled := by
  cases hx : x.fate <;> simp_all

theorem markLast_cons {l : Ledger} {x : Entry} {xs : List Entry} (h : l.entries = x :: xs)
    (f : Fate) : l.markLast f = ⟨{ x with fate := f } :: xs, l.batchOpen⟩ := by
  simp only [Ledger.markLast, h]

theorem see_control {e : OpEvent} (he : control e = true) (p : OutputPlugin) (l : Ledger) :
    Ledger.see p l e = l := by
  cases e <;> first | rfl | cases he

/-! ## The invariant, event by event -/

section Events

variable {p p' : OutputPlugin} {l : Ledger}

theorem control_inv {e : OpEvent} (hI : Inv p l) (h : p.step e = some p')
    (he : control e = true) : Inv p' l := by
  have hcore := step_control h he
  simp only [core, Prod.mk.injEq] at hcore
  obtain ⟨hlen, -, hcp, hcur, -, -, hbatch, hopen⟩ := hcore
  obtain ⟨hheld, hcurrent⟩ := control_held h he fun hc => (hI.waiting hc).1
  exact
    { noAsync := hlen.trans hI.noAsync
      batch := hI.batch.trans hbatch.symm
      read := by rw [hopen, hcur]; exact hI.read
      cp_le := by rw [hcp, hcur]; exact hI.cp_le
      tail := hI.tail
      batched := by rw [hbatch]; exact hI.batched
      answered := fun hh => hI.answered (hheld hh)
      waiting := fun hc => by
        obtain ⟨hc, hm⟩ := hcurrent hc
        rw [hm]
        exact hI.waiting hc }

theorem openFirst_inv {q : Queue} (hI : Inv p l) (h : p.step (.openFirst q) = some p') :
    Inv p' l := by
  rw [step_openFirst h]
  refine ⟨hI.noAsync, hI.batch, fun x hx => ⟨?_, (hI.read x hx).2⟩, hI.cp_le, hI.tail, hI.batched,
    hI.answered, hI.waiting⟩
  by_cases hq : x.queue = q
  · simp [hq]
  · simpa [hq] using (hI.read x hx).1

theorem reset_other {q : Queue} {c : Checkpoint} (hI : Inv p l) (hq : p.opened q = false)
    (pair : CheckpointPair) {x : Entry} (hx : x ∈ l.entries) :
    (pair.set q c).get x.queue = pair.get x.queue := by
  apply CheckpointPair.get_set_other
  rintro rfl
  rw [(hI.read x hx).1] at hq
  cases hq

theorem reset_inv {q : Queue} {c : Checkpoint} (hI : Inv p l)
    (h : p.step (.reset q c) = some p') : Inv p' l := by
  obtain ⟨hq, rfl⟩ := step_reset h
  refine ⟨hI.noAsync, hI.batch, fun x hx => ?_, fun r => ?_, hI.tail, hI.batched, hI.answered,
    hI.waiting⟩
  · rw [reset_other hI hq _ hx]
    exact hI.read x hx
  · by_cases hr : r = q
    · subst hr
      simp
    · simp only [CheckpointPair.get_set_other _ _ hr]
      exact hI.cp_le r

theorem deliver_inv {q : Queue} {e : Checkpoint} (hI : Inv p l)
    (h : p.step (.deliver q e) = some p') :
    Inv p' { l with entries := ⟨q, e, .offered⟩ :: l.entries } := by
  obtain ⟨hpc, hopen, hlt, rfl⟩ := step_deliver h
  have hle : p.cur ≤ p.cur.set q e := CheckpointPair.le_set hlt.le
  have hnone : ∀ x ∈ l.entries, x.fate ≠ .offered := hI.answered (by simp [held, current, hpc])
  refine ⟨hI.noAsync, hI.batch, fun x hx => ?_, hI.cp_le.trans hle, hnone, fun x hx hb => ?_,
    fun hh => ?_, fun _ => ⟨by simp, _, _, rfl, rfl⟩⟩
  · rcases List.mem_cons.mp hx with rfl | hx
    · exact ⟨hopen, by simp⟩
    · exact ⟨(hI.read x hx).1, (hI.read x hx).2.trans (hle _)⟩
  · rcases List.mem_cons.mp hx with rfl | hx
    · cases hb
    · exact hI.batched x hx hb
  · simp [held, current] at hh

theorem offer_inv {again : Bool} (hI : Inv p l) (hpc : p.pc = .offer again) :
    Inv { p.saveAsync with pc := .process again } l := by
  have hsave : p.saveAsync = p := by simp [saveAsync, hI.noAsync]
  rw [hsave]
  refine ⟨hI.noAsync, hI.batch, hI.read, hI.cp_le, hI.tail, hI.batched, fun hh => ?_, fun _ => ?_⟩
  · simp [held, current] at hh
  · exact hI.waiting (by simp [current, hpc])

/-- An answer to the newest message: no message is left to send, and the checkpoint moves at most
to what has been read. -/
structure Answers (p p' : OutputPlugin) (l l' : Ledger) : Prop where
  asyncLen : p'.asyncLen = p.asyncLen
  cur : p'.cur = p.cur
  opened : p'.opened = p.opened
  cp : p'.cp = p.cp ∧ p'.batching = true ∨ p'.cp = p.cur ∧ p'.batching = false
  batch : l'.batchOpen = p'.batching
  place : ∀ y ∈ l'.entries, ∃ z ∈ l.entries, y.queue = z.queue ∧ y.stop = z.stop
  sent : ∀ y ∈ l'.entries, y.fate ≠ .offered
  batched : ∀ y ∈ l'.entries, y.fate = .batched → p'.batching = true
  done : current p' = false

theorem Answers.inv {l' : Ledger} (h : Answers p p' l l') (hI : Inv p l) : Inv p' l' where
  noAsync := h.asyncLen.trans hI.noAsync
  batch := h.batch
  read y hy := by
    obtain ⟨z, hz, hq, hs⟩ := h.place y hy
    rw [h.opened, h.cur, hq, hs]
    exact hI.read z hz
  cp_le := by
    rw [h.cur]
    rcases h.cp with ⟨hcp, -⟩ | ⟨hcp, -⟩
    · rw [hcp]; exact hI.cp_le
    · rw [hcp]
  tail y hy := h.sent y (List.mem_of_mem_tail hy)
  batched := h.batched
  answered _ := h.sent
  waiting hc := by rw [h.done] at hc; cases hc

/-- With nothing to send and no batch open, every message is settled. -/
theorem Answers.safe {l' : Ledger} (h : Answers p p' l l') (hb : p'.batching = false) :
    Safe (p', l') := by
  intro y hy _
  refine settled_of (h.sent y hy) fun hf => ?_
  rw [h.batched y hy hf] at hb
  cases hb

theorem advance_noAsync (hlen : p.asyncLen = 0) :
    p.advance .done = if p.batching then p else { p with cp := p.cur } := by
  cases hb : p.batching <;> simp [advance_eq, advances, pending, hlen, hb]

/-- The newest message is marked `f`, and the checkpoint is advanced unless a batch is open
(`p1` is the plugin between the two). -/
theorem mark_answers {p1 : OutputPlugin} {x : Entry} {xs : List Entry} {f : Fate} {again : Bool}
    (hI : Inv p l) (hl : l.entries = x :: xs) (hlen : p1.asyncLen = p.asyncLen)
    (hcp : p1.cp = p.cp) (hcur : p1.cur = p.cur) (hopen : p1.opened = p.opened)
    (hf : f ≠ .offered) (hfb : f = .batched → p1.batching = true)
    (hbb : p.batching = true → p1.batching = true) :
    Answers p { p1.advance .done with pc := .ticker again .done } l
      ⟨{ x with fate := f } :: xs, p1.batching⟩ := by
  have hadv := advance_noAsync (hlen.trans hI.noAsync)
  have hb : (p1.advance .done).batching = p1.batching := by rw [hadv]; split <;> rfl
  refine ⟨?_, ?_, ?_, ?_, hb.symm, fun y hy => ?_, fun y hy => ?_, fun y hy hyb => ?_, rfl⟩
  · rw [hadv]; split <;> exact hlen
  · rw [hadv]; split <;> exact hcur
  · rw [hadv]; split <;> exact hopen
  · rw [hadv]
    split
    · exact .inl ⟨hcp, ‹_›⟩
    · exact .inr ⟨hcur, Bool.eq_false_iff.mpr ‹_›⟩
  · rcases List.mem_cons.mp hy with rfl | hy
    · exact ⟨x, by simp [hl], rfl, rfl⟩
    · exact ⟨y, by simp [hl, hy], rfl, rfl⟩
  · rcases List.mem_cons.mp hy with rfl | hy
    · exact hf
    · exact hI.tail y (by simpa [hl] using hy)
  · rw [hb]
    rcases List.mem_cons.mp hy with rfl | hy
    · exact hfb hyb
    · exact hbb (hI.batched y (by simp [hl, hy]) hyb)

theorem reject_answers {x : Entry} {xs : List Entry} (again : Bool) (hI : Inv p l)
    (hl : l.entries = x :: xs) :
    Answers p { p.advance .done with pc := .ticker again .done } l (l.markLast .settled) := by
  rw [markLast_cons hl, hI.batch]
  exact mark_answers hI hl rfl rfl rfl rfl (by simp) (by simp) id

/-- `FAIL` and `SKIP` count for the open batch, if there is one. -/
theorem failSkip_answers {x : Entry} {xs : List Entry} (again : Bool) (hI : Inv p l)
    (hl : l.entries = x :: xs) :
    Answers p
      { ({ p with sequenceId := p.nextSequenceId } : OutputPlugin).advance .done with
        pc := .ticker again .done }
      l (l.markLast (if l.batchOpen then .batched else .settled)) := by
  rw [markLast_cons hl, hI.batch]
  refine mark_answers hI hl rfl rfl rfl rfl ?_ (fun h => ?_) id
  · split <;> simp
  · split at h
    · assumption
    · cases h

theorem batch_answers {x : Entry} {xs : List Entry} (again : Bool) (hI : Inv p l)
    (hl : l.entries = x :: xs) :
    Answers p
      { ({ p with batching := true, sequenceId := p.nextSequenceId } : OutputPlugin).advance .done
        with pc := .ticker again .done }
      l { l.markLast .batched with batchOpen := true } := by
  rw [markLast_cons hl]
  exact mark_answers hI hl rfl rfl rfl rfl (by simp) (fun _ => rfl) (fun _ => rfl)

theorem commit_place {l' : Ledger} (hl' : l'.entries = l.entries.map Entry.commit) :
    ∀ y ∈ l'.entries, ∃ z ∈ l.entries, y.queue = z.queue ∧ y.stop = z.stop := by
  intro y hy
  rw [hl', List.mem_map] at hy
  obtain ⟨z, hz, rfl⟩ := hy
  exact ⟨z, hz, commit_queue z, commit_stop z⟩

/-- `SENT` settles the message and the open batch. -/
theorem sent_answers {x : Entry} {xs : List Entry} (again : Bool) (hI : Inv p l)
    (hl : l.entries = x :: xs) :
    Answers p
      { ({ p with batching := false, sequenceId := p.nextSequenceId } : OutputPlugin).advance .done
        with pc := .ticker again .done }
      l (l.markLast .settled).commit := by
  have hadv := advance_noAsync
    (p := { p with batching := false, sequenceId := p.nextSequenceId }) hI.noAsync
  rw [hadv, markLast_cons hl]
  refine ⟨rfl, rfl, rfl, .inr ⟨rfl, rfl⟩, rfl, ?_, ?_, ?_, rfl⟩
  · intro y hy
    obtain ⟨z, hz, hq, hs⟩ := commit_place
      (l := ⟨{ x with fate := .settled } :: xs, l.batchOpen⟩) rfl y hy
    rcases List.mem_cons.mp hz with rfl | hz
    · exact ⟨x, by simp [hl], hq, hs⟩
    · exact ⟨z, by simp [hl, hz], hq, hs⟩
  · intro y hy
    obtain ⟨z, hz, rfl⟩ := List.mem_map.mp hy
    rw [ne_eq, commit_offered]
    rcases List.mem_cons.mp hz with rfl | hz
    · simp
    · exact hI.tail z (by simpa [hl] using hz)
  · intro y hy hb
    obtain ⟨z, -, rfl⟩ := List.mem_map.mp hy
    exact absurd hb (commit_not_batched z)

/-- A message that was still to be sent may be marked: it was not covered. -/
theorem mark_safe {x : Entry} {xs : List Entry} {f : Fate} {l' : Ledger} (hS : Safe (p, l))
    (hl : l.entries = x :: xs) (hx : x.fate = .offered)
    (hl' : l'.entries = { x with fate := f } :: xs) (hcp : p'.cp = p.cp) : Safe (p', l') := by
  intro y hy hcov
  simp only [hl', hcp, List.mem_cons] at hy hcov
  rcases hy with rfl | hy
  · have hset := hS x (by simp [hl]) hcov
    rw [hx] at hset
    cases hset
  · exact hS y (by simp [hl, hy]) hcov

theorem mark_answers_safe {x : Entry} {xs : List Entry} {f : Fate} {l' : Ledger}
    (h : Answers p p' l l') (hS : Safe (p, l)) (hl : l.entries = x :: xs)
    (hx : x.fate = .offered) (hl' : l' = l.markLast f ∨ l' = { l.markLast f with batchOpen := true }) :
    Safe (p', l') := by
  have hentries : l'.entries = { x with fate := f } :: xs := by
    rcases hl' with rfl | rfl <;> simp [markLast_cons hl]
  rcases h.cp with ⟨hcp, -⟩ | ⟨-, hb⟩
  · exact mark_safe hS hl hx hentries hcp
  · exact h.safe hb

/-- `RETRY` and fatal returns leave the message to be sent and the checkpoint where it is. -/
theorem unanswered_inv (p1 : OutputPlugin) (again : Bool) (ret : Ret) (hI : Inv p l)
    (hcur : current p = true) (hmsg : p1.msg = p.msg)
    (hcore : p1.asyncLen = p.asyncLen ∧ p1.cp = p.cp ∧ p1.cur = p.cur ∧
      p1.batching = p.batching ∧ p1.opened = p.opened) (hret : ret ≠ .done) :
    Inv { p1.advance ret with pc := .ticker again ret } l ∧
      ({ p1.advance ret with pc := .ticker again ret } : OutputPlugin).cp = p.cp := by
  have hadv : p1.advance ret = p1 := by
    rw [advance_eq, if_neg]
    simp [advances, hret]
  obtain ⟨hlen, hcp, hcurs, hbatch, hopen⟩ := hcore
  rw [hadv]
  refine ⟨⟨hlen.trans hI.noAsync, hI.batch.trans hbatch.symm, ?_, ?_, hI.tail, ?_, ?_, ?_⟩, hcp⟩
  · rw [hopen, hcurs]; exact hI.read
  · rw [hcp, hcurs]; exact hI.cp_le
  · rw [hbatch]; exact hI.batched
  · intro hh
    simp [held, current, hret] at hh
  · intro _
    rw [hmsg]
    exact hI.waiting hcur

theorem callback_null (hI : Inv p l) (seq : Nat) :
    p.updateCheckpointCallback seq =
      if p.batching then { p with cp := p.cur, batching := false } else p :=
  updateCheckpointCallback_null (by simp [hI.noAsync])

theorem callback_inv {seq : Nat} (hI : Inv p l) :
    Inv (p.updateCheckpointCallback seq) l.commit := by
  have htail : ∀ y ∈ l.commit.entries.tail, y.fate ≠ .offered := by
    intro y hy
    simp only [Ledger.commit, ← List.map_tail, List.mem_map] at hy
    obtain ⟨z, hz, rfl⟩ := hy
    rw [ne_eq, commit_offered]
    exact hI.tail z hz
  have hbatched : ∀ y ∈ l.commit.entries, y.fate ≠ .batched := by
    intro y hy
    obtain ⟨z, -, rfl⟩ := List.mem_map.mp hy
    exact commit_not_batched z
  have hanswered : held p = false → ∀ y ∈ l.commit.entries, y.fate ≠ .offered := by
    intro hh y hy
    obtain ⟨z, hz, rfl⟩ := List.mem_map.mp hy
    rw [ne_eq, commit_offered]
    exact hI.answered hh z hz
  have hwaiting : current p = true →
      p.msg ≠ none ∧ ∃ x xs, l.commit.entries = x :: xs ∧ x.fate = .offered := by
    intro hc
    obtain ⟨hm, x, xs, hl, hx⟩ := hI.waiting hc
    exact ⟨hm, x.commit, xs.map Entry.commit, by simp [Ledger.commit, hl],
      (commit_offered x).mpr hx⟩
  have hread : ∀ y ∈ l.commit.entries,
      p.opened y.queue = true ∧ y.stop ≤ p.cur.get y.queue := by
    intro y hy
    obtain ⟨z, hz, hq, hs⟩ := commit_place (l := l) rfl y hy
    rw [hq, hs]
    exact hI.read z hz
  rw [callback_null hI]
  cases hb : p.batching with
  | true =>
    exact ⟨hI.noAsync, rfl, hread, le_refl _, htail, fun y hy h => absurd h (hbatched y hy),
      hanswered, hwaiting⟩
  | false =>
    exact ⟨hI.noAsync, hb.symm, hread, hI.cp_le, htail, fun y hy h => absurd h (hbatched y hy),
      hanswered, hwaiting⟩

/-- The callback in an open batch covers everything read. -/
theorem callback_safe {seq : Nat} (hI : Inv p l) (hS : Safe (p, l)) :
    Safe (p.updateCheckpointCallback seq, l.commit) ↔
      (p.batching = true → ∀ x ∈ l.entries, x.fate ≠ .offered) := by
  rw [callback_null hI]
  by_cases hb : p.batching = true
  · rw [if_pos hb]
    constructor
    · intro h _ x hx hoff
      have hset := h x.commit (List.mem_map_of_mem hx) (by simpa using (hI.read x hx).2)
      rw [(commit_offered x).mpr hoff] at hset
      cases hset
    · intro h y hy _
      obtain ⟨z, hz, rfl⟩ := List.mem_map.mp hy
      exact commit_settled (h hb z hz)
  · rw [if_neg hb]
    refine ⟨fun _ h => absurd h hb, fun _ y hy hcov => ?_⟩
    obtain ⟨z, hz, rfl⟩ := List.mem_map.mp hy
    have hset : z.fate = .settled := hS z hz (by simpa using hcov)
    exact commit_settled (by rw [hset]; decide)

end Events

/-! ## Steps and runs -/

theorem step_some {s s' : State} {e : OpEvent} (h : step s e = some s') :
    s.1.step e = some s'.1 ∧ s'.2 = Ledger.see s.1 s.2 e :=
  Runs.observe_some.mp h

/-- Apart from `update_checkpoint()`, every step keeps the invariant and `Safe`. -/
theorem step_inv_safe {p p' : OutputPlugin} {l : Ledger} {e : OpEvent} (hI : Inv p l)
    (h : p.step e = some p') (he : ∀ seq, e ≠ .callback seq) :
    Inv p' (Ledger.see p l e) ∧ (Safe (p, l) → Safe (p', Ledger.see p l e)) := by
  by_cases hctl : control e = true
  · rw [see_control hctl]
    have hcore := step_control h hctl
    simp only [core, Prod.mk.injEq] at hcore
    refine ⟨control_inv hI h hctl, fun hS x hx hcov => hS x hx ?_⟩
    rw [← hcore.2.2.1]
    exact hcov
  cases e with
  | stop | head | idle | nothing | ticker | timerReturn | reoffer | shutdownReturn =>
    exact absurd rfl hctl
  | callback seq => exact absurd rfl (he seq)
  | openFirst q =>
    refine ⟨openFirst_inv hI h, fun hS => ?_⟩
    rw [step_openFirst h]
    exact hS
  | reset q c =>
    refine ⟨reset_inv hI h, fun hS x hx hcov => hS x hx ?_⟩
    obtain ⟨hq, rfl⟩ := step_reset h
    simpa only [reset_other hI hq _ hx] using hcov
  | deliver q e =>
    refine ⟨deliver_inv hI h, fun hS x hx hcov => ?_⟩
    obtain ⟨-, -, hlt, rfl⟩ := step_deliver h
    rcases List.mem_cons.mp hx with rfl | hx
    · exact absurd (hcov.trans (hI.cp_le q)) (not_le.mpr hlt)
    · exact hS x hx hcov
  | matcher matched =>
    obtain ⟨again, hpc, rfl⟩ := step_matcher h
    obtain ⟨-, x, xs, hl, hx⟩ := hI.waiting (by simp [current, hpc])
    cases matched with
    | true =>
      refine ⟨offer_inv hI hpc, fun hS => ?_⟩
      have hsave : p.saveAsync.cp = p.cp := by unfold saveAsync; split <;> rfl
      intro y hy hcov
      exact hS y hy (by rw [← hsave]; exact hcov)
    | false =>
      have hans := reject_answers again hI hl
      exact ⟨hans.inv hI, fun hS => mark_answers_safe hans hS hl hx (.inl rfl)⟩
  | pmReturn r =>
    obtain ⟨again, hpc, rfl⟩ := step_pmReturn h
    have hcur : current p = true := by simp [current, hpc]
    obtain ⟨-, x, xs, hl, hx⟩ := hI.waiting hcur
    cases r with
    | sent =>
      have hans := sent_answers again hI hl
      exact ⟨hans.inv hI, fun _ => hans.safe hans.batch.symm⟩
    | fail | skip =>
      have hans := failSkip_answers again hI hl
      exact ⟨hans.inv hI, fun hS => mark_answers_safe hans hS hl hx (.inl rfl)⟩
    | batch =>
      have hans := batch_answers again hI hl
      exact ⟨hans.inv hI, fun hS => mark_answers_safe hans hS hl hx (.inr rfl)⟩
    | retry =>
      obtain ⟨h1, h2⟩ := unanswered_inv p again .retry hI hcur rfl
        ⟨rfl, rfl, rfl, rfl, rfl⟩ (by simp)
      exact ⟨h1, fun hS y hy hcov => hS y hy (by rw [← h2]; exact hcov)⟩
    | fatal =>
      obtain ⟨h1, h2⟩ := unanswered_inv { p with running := false } again .fatal hI hcur rfl
        ⟨rfl, rfl, rfl, rfl, rfl⟩ (by simp)
      exact ⟨h1, fun hS y hy hcov => hS y hy (by rw [← h2]; exact hcov)⟩
    | async =>
      obtain ⟨h1, h2⟩ := unanswered_inv
        { p with running := false, sequenceId := p.nextSequenceId } again .fatal hI hcur rfl
        ⟨rfl, rfl, rfl, rfl, rfl⟩ (by simp)
      simp only [OutputPlugin.pmReturn, if_pos hI.noAsync]
      exact ⟨h1, fun hS y hy hcov => hS y hy (by rw [← h2]; exact hcov)⟩

theorem step_inv {s s' : State} {e : OpEvent} (hI : Inv s.1 s.2) (h : step s e = some s') :
    Inv s'.1 s'.2 := by
  obtain ⟨hp, hl⟩ := step_some h
  rw [hl]
  by_cases he : ∃ seq, e = .callback seq
  · obtain ⟨seq, rfl⟩ := he
    rw [(step_callback hp).2]
    exact callback_inv hI
  · exact (step_inv_safe hI hp fun seq heq => he ⟨seq, heq⟩).1

/-- A step keeps `Safe` exactly when it is admitted. -/
theorem step_safe {s s' : State} {e : OpEvent} (hI : Inv s.1 s.2) (hS : Safe s)
    (h : step s e = some s') : Safe s' ↔ Admits s e := by
  obtain ⟨p, l⟩ := s
  obtain ⟨p', l'⟩ := s'
  obtain ⟨hp, hl⟩ := step_some h
  simp only at hp hl
  subst hl
  by_cases he : ∃ seq, e = .callback seq
  · obtain ⟨seq, rfl⟩ := he
    rw [(step_callback hp).2]
    exact callback_safe hI hS
  · have hsafe := (step_inv_safe hI hp fun seq heq => he ⟨seq, heq⟩).2 hS
    refine ⟨fun _ => ?_, fun _ => hsafe⟩
    cases e with
    | callback seq => exact absurd ⟨seq, rfl⟩ he
    | _ => trivial

theorem init_inv (rq : ReadQueue) (ti te : Nat) (start : CheckpointPair) :
    Inv (init rq ti te start).1 (init rq ti te start).2 := by
  refine ⟨rfl, rfl, ?_, le_refl _, ?_, ?_, ?_, ?_⟩ <;> simp [init, create, held, current]

theorem init_safe (rq : ReadQueue) (ti te : Nat) (start : CheckpointPair) :
    Safe (init rq ti te start) := by
  intro x hx
  simp [init] at hx

/-- In a run of a plugin without async buffer, every message at or before the checkpoint is
settled all along exactly when no `update_checkpoint()` in an open batch comes while a message is
still to be sent. -/
theorem sync_safe_iff (rq : ReadQueue) (ti te : Nat) (start : CheckpointPair)
    (es : List OpEvent) :
    Runs.Always step Safe (init rq ti te start) es ↔
      Runs.Meets step Admits (init rq ti te start) es :=
  Runs.always_iff_meets (I := fun s => Inv s.1 s.2) (fun _ _ _ hI h => step_inv hI h)
    (fun _ _ _ hI hS h => step_safe hI hS h) (init_inv rq ti te start) (init_safe rq ti te start) es

/-- The calls of `update_checkpoint()` come from a `timer_event`. -/
def fromTimer (s : State) : OpEvent → Bool
  | .callback _ => match s.1.pc with
    | .timer _ _ _ | .shutdown => true
    | _ => false
  | _ => true

instance : DecidablePred Safe := fun s =>
  inferInstanceAs (Decidable (∀ x ∈ s.2.entries, x.stop ≤ s.1.cp.get x.queue → x.fate = .settled))

/-- A batch is open, the next message is answered with `RETRY`, and the timer event that fires
before the re-offer commits the batch. -/
def retryRun : List OpEvent :=
  [.head, .openFirst .input, .nothing,
   .head, .deliver .input ⟨0, 100⟩, .matcher true, .pmReturn .batch, .ticker 0,
   .head, .deliver .input ⟨0, 200⟩, .matcher true, .pmReturn .retry, .ticker 10,
   .callback 0, .timerReturn false]

theorem sync_unsafe : ¬∀ rq ti te start es,
    Runs.Meets step (fun s e => fromTimer s e = true) (init rq ti te start) es →
      Runs.Always step Safe (init rq ti te start) es := by
  intro h
  have hrun := h .input 60 10 ⟨⟨0, 0⟩, ⟨0, 0⟩⟩ retryRun (by decide)
  revert hrun
  decide

end OutputSync

end Hindsight
