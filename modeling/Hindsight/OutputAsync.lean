import Hindsight.Lib.Run
import Hindsight.OutputPlugin

/-!
# Hindsight.OutputAsync

Delivery of an asynchronous output plugin (`async_len > 0`). An observer numbers the deliveries
and keeps the messages in flight (returned `ASYNC`, not yet acknowledged) and, for every slot of
the ring `async_cp`, the delivery that last saved its position there.

* `Safe`: `p->cp` covers no message in flight.
* `Admits`: an acknowledgement finds in its slot the position of a delivery before every other
  message in flight; a batch is committed, and the checkpoint advanced by `output_message`, only
  when nothing is in flight.
* `Inv pos upTo`: `p->cp` is the position `pos upTo` after delivery number `upTo`.
* `async_safe_iff`: a run keeps `Safe` exactly when all its steps are admitted.
-/

namespace Hindsight

namespace OutputAsync

open OutputPlugin

/-- A message in flight: its delivery number, its sequence id, and where it ends. -/
structure Flight where
  n : Nat
  id : Nat
  queue : Queue
  stop : Checkpoint
  deriving DecidableEq, Repr

/-- `writer i` is the delivery whose position ring slot `i` holds; `0` is the start. -/
structure Ledger where
  count : Nat
  inflight : List Flight
  writer : Nat → Nat

namespace Ledger

/-- The observer. -/
def see (p : OutputPlugin) (l : Ledger) : OpEvent → Ledger
  | .deliver _ _ => { l with count := l.count + 1 }
  | .matcher true =>
    { l with writer := Function.update l.writer (p.nextSequenceId % p.asyncLen) l.count }
  | .callback seq =>
    if seq = 0 then l else { l with inflight := l.inflight.filter fun m => m.id ≠ seq }
  | .pmReturn .async =>
    match p.msg with
    | some m => { l with inflight := ⟨l.count, p.nextSequenceId, m.queue, m.stop⟩ :: l.inflight }
    | none => l
  | _ => l

end Ledger

abbrev State := OutputPlugin × Ledger

def step : State → OpEvent → Option State := Runs.observe OutputPlugin.step Ledger.see

def init (rq : ReadQueue) (asyncLen tickerInterval tickerExpires : Nat)
    (start : CheckpointPair) : State :=
  (OutputPlugin.create rq asyncLen tickerInterval tickerExpires start, ⟨0, [], fun _ => 0⟩)

/-- `p->cp` covers no message in flight. -/
def Safe (s : State) : Prop := ∀ m ∈ s.2.inflight, ¬m.stop ≤ s.1.cp.get m.queue

/-- A reader that gives up its position does not fall back behind it. -/
def Forward (s : State) : OpEvent → Prop
  | .reset q c => s.1.cur.get q ≤ c
  | _ => True

def Admits (s : State) : OpEvent → Prop
  | .callback 0 => s.1.batching = true → s.2.inflight = []
  | .callback seq =>
    ∀ m ∈ s.2.inflight, m.id ≠ seq → s.2.writer (seq % s.1.asyncLen) < m.n
  | .pmReturn .async =>
    (s.1.pmReturn .async).1.advances .done = false ∧
      ∀ m ∈ s.1.msg, ¬m.stop ≤ s.1.cp.get m.queue
  | .pmReturn r => (s.1.pmReturn r).1.advances (s.1.pmReturn r).2 = true → s.2.inflight = []
  | .matcher false => s.1.advances .done = true → s.2.inflight = []
  | _ => True

/-- Delivery `n` read the message that ends at `stop` in queue `q`. -/
def Placed (pos : Nat → CheckpointPair) (q : Queue) (stop : Checkpoint) (n : Nat) : Prop :=
  (pos n).get q = stop ∧ ∀ k < n, (pos k).get q < stop

/-- `pos n` is where the readers stood after delivery `n`. -/
structure Inv (pos : Nat → CheckpointPair) (upTo : Nat) (p : OutputPlugin) (l : Ledger) :
    Prop where
  len : p.asyncLen ≠ 0
  cur : p.cur = pos l.count
  mono : ∀ i j, i ≤ j → j ≤ l.count → pos i ≤ pos j
  cp : p.cp = pos upTo
  upTo : upTo ≤ l.count
  writer : ∀ i, l.writer i ≤ l.count
  slot : ∀ i, p.asyncCp i ≤ pos (l.writer i) ∧ pos (l.writer i) ≤ (p.asyncCp i).merge p.cp
  flight : ∀ m ∈ l.inflight,
    m.n ≤ l.count ∧ p.opened m.queue = true ∧ Placed pos m.queue m.stop m.n
  msg : ∀ m, p.msg = some m → p.opened m.queue = true ∧ Placed pos m.queue m.stop l.count
  busy : current p = true → p.msg ≠ none

/-! ## Positions -/

section

variable {pos : Nat → CheckpointPair} {upTo : Nat} {p p' : OutputPlugin} {l l' : Ledger}

/-- A position covers a message exactly when it is that of its delivery or a later one. -/
theorem covers_iff {q : Queue} {stop : Checkpoint} {n k : Nat}
    (hmono : ∀ i j, i ≤ j → j ≤ l.count → pos i ≤ pos j) (hp : Placed pos q stop n)
    (hk : k ≤ l.count) : stop ≤ (pos k).get q ↔ n ≤ k := by
  constructor
  · intro h
    by_contra hlt
    exact absurd h (not_le.mpr (hp.2 k (by omega)))
  · intro h
    rw [← hp.1]
    exact hmono n k h hk q

theorem Inv.safe_iff (hI : Inv pos upTo p l) :
    Safe (p, l) ↔ ∀ m ∈ l.inflight, upTo < m.n := by
  refine forall₂_congr fun m hm => ?_
  obtain ⟨-, -, hplaced⟩ := hI.flight m hm
  rw [hI.cp, covers_iff hI.mono hplaced hI.upTo, not_le]

/-- Merging the position saved in a slot moves the checkpoint to the delivery that saved it,
unless it is there already. -/
theorem Inv.merge_slot (hI : Inv pos upTo p l) (i : Nat) :
    p.cp.merge (p.asyncCp i) = pos (max upTo (l.writer i)) := by
  obtain ⟨hle, hge⟩ := hI.slot i
  rcases le_total (l.writer i) upTo with h | h
  · have hslot : p.asyncCp i ≤ p.cp := by
      rw [hI.cp]
      exact hle.trans (hI.mono _ _ h hI.upTo)
    rw [max_eq_left h, CheckpointPair.merge_eq_left hslot, hI.cp]
  · have hcp : p.cp ≤ pos (l.writer i) := by
      rw [hI.cp]
      exact hI.mono _ _ h (hI.writer i)
    rw [max_eq_right h]
    refine le_antisymm (CheckpointPair.merge_le hcp hle) (hge.trans ?_)
    exact CheckpointPair.merge_le (CheckpointPair.le_merge_right _ _)
      (CheckpointPair.le_merge_left _ _)

/-! ## The invariant, event by event -/

/-- A step that reads nothing new and saves no position: the checkpoint may move forward to the
position after a later delivery. -/
theorem Inv.advance (hI : Inv pos upTo p l) {k : Nat} (hk : upTo ≤ k) (hkc : k ≤ l.count)
    (hcp : p'.cp = pos k) (hlen : p'.asyncLen = p.asyncLen) (hslots : p'.asyncCp = p.asyncCp)
    (hcur : p'.cur = p.cur) (hopen : ∀ q, p.opened q = true → p'.opened q = true)
    (hmsg : ∀ m, p'.msg = some m → p.msg = some m) (hbusy : current p' = true → p'.msg ≠ none)
    (hcount : l'.count = l.count) (hwriter : l'.writer = l.writer)
    (hflight : ∀ m ∈ l'.inflight,
      m ∈ l.inflight ∨ m.n = l.count ∧ p.msg = some ⟨m.queue, m.stop⟩) :
    Inv pos k p' l' where
  len := by rw [hlen]; exact hI.len
  cur := by rw [hcur, hcount]; exact hI.cur
  mono := by rw [hcount]; exact hI.mono
  cp := hcp
  upTo := by rw [hcount]; exact hkc
  writer := by rw [hwriter, hcount]; exact hI.writer
  slot i := by
    rw [hslots, hwriter, hcp]
    obtain ⟨hle, hge⟩ := hI.slot i
    refine ⟨hle, hge.trans (CheckpointPair.merge_le (CheckpointPair.le_merge_left _ _) ?_)⟩
    rw [hI.cp]
    exact (hI.mono _ _ hk hkc).trans (CheckpointPair.le_merge_right _ _)
  flight m hm := by
    rw [hcount]
    rcases hflight m hm with hm | ⟨hn, hmsg⟩
    · obtain ⟨hn, hop, hplaced⟩ := hI.flight m hm
      exact ⟨hn, hopen _ hop, hplaced⟩
    · obtain ⟨hop, hplaced⟩ := hI.msg _ hmsg
      exact ⟨hn.le, hopen _ hop, by rw [hn]; exact hplaced⟩
  msg m hm := by
    obtain ⟨hop, hplaced⟩ := hI.msg m (hmsg m hm)
    rw [hcount]
    exact ⟨hopen _ hop, hplaced⟩
  busy := hbusy

theorem control_inv {e : OpEvent} (hI : Inv pos upTo p l) (h : p.step e = some p')
    (he : control e = true) : Inv pos upTo p' l ∧ (Safe (p', l) ↔ Safe (p, l)) := by
  have hcore := step_control h he
  simp only [core, Prod.mk.injEq] at hcore
  obtain ⟨hlen, hslots, hcp, hcur, -, -, -, hopen⟩ := hcore
  obtain ⟨-, hcurrent⟩ := control_held h he hI.busy
  refine ⟨hI.advance (le_refl _) hI.upTo (hcp.trans hI.cp) hlen hslots hcur ?_ ?_ ?_ rfl rfl
    fun m hm => .inl hm, ?_⟩
  · intro q hq
    rw [hopen]; exact hq
  · intro m hm
    rcases control_msg h he with heq | heq
    · rw [← heq]; exact hm
    · rw [heq] at hm; cases hm
  · intro hc
    obtain ⟨hc, heq⟩ := hcurrent hc
    rw [heq]
    exact hI.busy hc
  · simp only [Safe, hcp]

theorem openFirst_inv {q : Queue} (hI : Inv pos upTo p l)
    (h : p.step (.openFirst q) = some p') : Inv pos upTo p' l ∧ (Safe (p', l) ↔ Safe (p, l)) := by
  rw [step_openFirst h]
  refine ⟨hI.advance (le_refl _) hI.upTo hI.cp rfl rfl rfl (fun r hr => ?_) (fun _ hm => hm)
    hI.busy rfl rfl fun m hm => .inl hm, Iff.rfl⟩
  by_cases hq : r = q
  · simp [hq]
  · simpa [hq] using hr

/-- A reset moves the position of a queue nothing was read from, in all positions alike. -/
theorem reset_inv {q : Queue} {c : Checkpoint} (hI : Inv pos upTo p l)
    (h : p.step (.reset q c) = some p') (hfwd : p.cur.get q ≤ c) :
    Inv (fun n => (pos n).set q c) upTo p' l ∧ (Safe (p', l) ↔ Safe (p, l)) := by
  obtain ⟨hq, rfl⟩ := step_reset h
  have hother : ∀ {r : Queue} {pair : CheckpointPair}, p.opened r = true →
      (pair.set q c).get r = pair.get r := by
    intro r pair hr
    apply CheckpointPair.get_set_other
    rintro rfl
    rw [hq] at hr
    cases hr
  have hplaced : ∀ {r : Queue} {stop : Checkpoint} {n : Nat}, p.opened r = true →
      Placed pos r stop n → Placed (fun n => (pos n).set q c) r stop n := by
    intro r stop n hr hp
    refine ⟨(hother hr).trans hp.1, fun k hk => ?_⟩
    rw [hother hr]
    exact hp.2 k hk
  have hset : ∀ {a b : CheckpointPair}, a ≤ b → a.get q ≤ c → a ≤ b.set q c := by
    intro a b hab ha r
    by_cases hr : r = q
    · subst hr; simpa using ha
    · rw [CheckpointPair.get_set_other _ _ hr]; exact hab r
  have hle : ∀ i ≤ l.count, (pos i).get q ≤ c := by
    intro i hi
    refine le_trans ?_ hfwd
    rw [hI.cur]
    exact hI.mono _ _ hi (le_refl _) q
  refine ⟨⟨hI.len, ?_, ?_, ?_, hI.upTo, hI.writer, ?_, ?_, ?_, hI.busy⟩, ?_⟩
  · show p.cur.set q c = (pos l.count).set q c
    rw [hI.cur]
  · intro i j hij hj r
    by_cases hr : r = q
    · subst hr; simp
    · simp only [CheckpointPair.get_set_other _ _ hr]
      exact hI.mono i j hij hj r
  · show p.cp.set q c = (pos upTo).set q c
    rw [hI.cp]
  · intro i
    obtain ⟨hlo, hhi⟩ := hI.slot i
    refine ⟨hset hlo ((hlo q).trans (hle _ (hI.writer i))), fun r => ?_⟩
    by_cases hr : r = q
    · subst hr; simp
    · have := hhi r
      simpa [CheckpointPair.get_set_other _ _ hr] using this
  · intro m hm
    obtain ⟨hn, hop, hp⟩ := hI.flight m hm
    exact ⟨hn, hop, hplaced hop hp⟩
  · intro m hm
    obtain ⟨hop, hp⟩ := hI.msg m hm
    exact ⟨hop, hplaced hop hp⟩
  · refine forall₂_congr fun m hm => ?_
    obtain ⟨-, hop, -⟩ := hI.flight m hm
    simp only [hother hop]

theorem deliver_inv {q : Queue} {e : Checkpoint} (hI : Inv pos upTo p l)
    (h : p.step (.deliver q e) = some p') :
    Inv (Function.update pos (l.count + 1) p'.cur) upTo p' { l with count := l.count + 1 } ∧
      (Safe (p', { l with count := l.count + 1 }) ↔ Safe (p, l)) := by
  obtain ⟨-, hop, hlt, rfl⟩ := step_deliver h
  have hold : ∀ k ≤ l.count,
      Function.update pos (l.count + 1) (p.cur.set q e) k = pos k := by
    intro k hk
    exact Function.update_of_ne (by omega) _ _
  have hplaced : ∀ {r : Queue} {stop : Checkpoint} {n : Nat}, n ≤ l.count →
      Placed pos r stop n → Placed (Function.update pos (l.count + 1) (p.cur.set q e)) r stop n := by
    intro r stop n hn hp
    refine ⟨by rw [hold n hn]; exact hp.1, fun k hk => ?_⟩
    rw [hold k (by omega)]
    exact hp.2 k hk
  have hle : p.cur ≤ p.cur.set q e := CheckpointPair.le_set hlt.le
  refine ⟨⟨hI.len, ?_, ?_, ?_, Nat.le_succ_of_le hI.upTo, fun i => Nat.le_succ_of_le (hI.writer i),
    ?_, ?_, ?_, fun _ => by simp⟩, Iff.rfl⟩
  · simp
  · intro i j hij hj
    rcases Nat.lt_or_ge l.count j with hj' | hj'
    · obtain rfl : j = l.count + 1 := by simp only at hj; omega
      rw [Function.update_self]
      rcases Nat.lt_or_ge l.count i with hi | hi
      · obtain rfl : i = l.count + 1 := by omega
        rw [Function.update_self]
      · rw [hold i hi]
        refine le_trans ?_ hle
        rw [hI.cur]
        exact hI.mono _ _ hi (le_refl _)
    · rw [hold i (by omega), hold j hj']
      exact hI.mono i j hij hj'
  · rw [hold _ hI.upTo]
    exact hI.cp
  · intro i
    rw [hold _ (hI.writer i)]
    exact hI.slot i
  · intro m hm
    obtain ⟨hn, hop, hp⟩ := hI.flight m hm
    exact ⟨Nat.le_succ_of_le hn, hop, hplaced hn hp⟩
  · rintro m ⟨⟩
    refine ⟨hop, by simp, fun k hk => ?_⟩
    rw [hold k (by simp only at hk; omega)]
    refine lt_of_le_of_lt ?_ hlt
    rw [hI.cur]
    exact hI.mono _ _ (by simp only at hk; omega) (le_refl _) q

/-- An offer saves the current position in the slot of the next sequence id. -/
theorem offer_inv {again : Bool} (hI : Inv pos upTo p l) (hpc : p.pc = .offer again) :
    Inv pos upTo { p.saveAsync with pc := .process again }
      { l with writer := Function.update l.writer (p.nextSequenceId % p.asyncLen) l.count } ∧
      (Safe ({ p.saveAsync with pc := .process again },
        { l with writer := Function.update l.writer (p.nextSequenceId % p.asyncLen) l.count }) ↔
        Safe (p, l)) := by
  have hsave : p.saveAsync =
      { p with asyncCp := Function.update p.asyncCp (p.nextSequenceId % p.asyncLen) p.cur } := by
    rw [saveAsync, if_pos hI.len]
  rw [hsave]
  refine ⟨⟨hI.len, hI.cur, hI.mono, hI.cp, hI.upTo, fun i => ?_, fun i => ?_, hI.flight, hI.msg,
    fun _ => hI.busy (by simp [current, hpc])⟩, Iff.rfl⟩
  · by_cases hi : i = p.nextSequenceId % p.asyncLen
    · simp [hi]
    · simpa [hi] using hI.writer i
  · by_cases hi : i = p.nextSequenceId % p.asyncLen
    · subst hi
      simp only [Function.update_self]
      rw [hI.cur]
      exact ⟨le_refl _, CheckpointPair.le_merge_left _ _⟩
    · simp only [Function.update_of_ne hi]
      exact hI.slot i

/-- With the checkpoint at the last position read, only an empty flight is safe. -/
theorem Inv.safe_end_iff (hI : Inv pos l.count p l) : Safe (p, l) ↔ l.inflight = [] := by
  rw [hI.safe_iff, List.eq_nil_iff_forall_not_mem]
  refine forall₂_congr fun m hm => ?_
  have hn := (hI.flight m hm).1
  constructor
  · intro h
    omega
  · exact fun h => h.elim

theorem ack_inv {seq : Nat} (hI : Inv pos upTo p l) (hseq : seq ≠ 0) :
    (∃ k, Inv pos k (p.updateCheckpointCallback seq)
        { l with inflight := l.inflight.filter fun m => m.id ≠ seq }) ∧
      (Safe (p, l) → (Safe (p.updateCheckpointCallback seq,
          { l with inflight := l.inflight.filter fun m => m.id ≠ seq }) ↔
        ∀ m ∈ l.inflight, m.id ≠ seq → l.writer (seq % p.asyncLen) < m.n)) := by
  have hcb := updateCheckpointCallback_ack hseq hI.len
  have hinv : Inv pos (max upTo (l.writer (seq % p.asyncLen))) (p.updateCheckpointCallback seq)
      { l with inflight := l.inflight.filter fun m => m.id ≠ seq } := by
    refine hI.advance (le_max_left _ _) (max_le hI.upTo (hI.writer _)) ?_ ?_ ?_ ?_ ?_ ?_ ?_ rfl rfl
      fun m hm => .inl (List.mem_filter.mp hm).1
    · rw [hcb]; exact hI.merge_slot _
    · rw [hcb]
    · rw [hcb]
    · rw [hcb]
    · rw [hcb]; exact fun _ hq => hq
    · rw [hcb]; exact fun _ hm => hm
    · rw [hcb]; exact hI.busy
  refine ⟨⟨_, hinv⟩, fun hS => ?_⟩
  rw [hinv.safe_iff]
  rw [hI.safe_iff] at hS
  simp only [List.mem_filter, decide_eq_true_eq]
  constructor
  · intro h m hm hid
    exact lt_of_le_of_lt (le_max_right _ _) (h m ⟨hm, hid⟩)
  · rintro h m ⟨hm, hid⟩
    exact max_lt (hS m hm) (h m hm hid)

theorem commit_inv (hI : Inv pos upTo p l) :
    (∃ k, Inv pos k (p.updateCheckpointCallback 0) l) ∧
      (Safe (p, l) → (Safe (p.updateCheckpointCallback 0, l) ↔
        (p.batching = true → l.inflight = []))) := by
  rw [updateCheckpointCallback_null (by simp)]
  by_cases hb : p.batching = true
  · rw [if_pos hb]
    have hinv : Inv pos l.count { p with cp := p.cur, batching := false } l :=
      hI.advance hI.upTo (le_refl _) hI.cur rfl rfl rfl (fun _ hq => hq) (fun _ hm => hm) hI.busy
        rfl rfl fun m hm => .inl hm
    refine ⟨⟨_, hinv⟩, fun _ => hinv.safe_end_iff.trans ?_⟩
    simp [hb]
  · rw [if_neg hb]
    exact ⟨⟨_, hI⟩, fun hS => ⟨fun _ h => absurd h hb, fun _ => hS⟩⟩

/-- An answer of the sandbox does not touch positions, slots or the current message. -/
structure Keeps (p p1 : OutputPlugin) : Prop where
  asyncLen : p1.asyncLen = p.asyncLen
  asyncCp : p1.asyncCp = p.asyncCp
  cp : p1.cp = p.cp
  cur : p1.cur = p.cur
  opened : p1.opened = p.opened
  msg : p1.msg = p.msg

theorem keeps_pmReturn (p : OutputPlugin) (r : PmRet) : Keeps p (p.pmReturn r).1 := by
  cases r with
  | async => simp only [pmReturn]; split <;> exact ⟨rfl, rfl, rfl, rfl, rfl, rfl⟩
  | _ => exact ⟨rfl, rfl, rfl, rfl, rfl, rfl⟩

/-- The end of `output_message`: `p1` is the plugin before the test for advancing. The messages in
flight are `l'`. -/
theorem verdict_inv {p1 : OutputPlugin} (ret : Ret) (again : Bool) (l' : Ledger) (hI : Inv pos upTo p l)
    (hk : Keeps p p1) (hbusy : p.msg ≠ none) (hcount : l'.count = l.count) (hwriter : l'.writer = l.writer)
    (hflight : ∀ m ∈ l'.inflight,
      m ∈ l.inflight ∨ m.n = l.count ∧ p.msg = some ⟨m.queue, m.stop⟩) :
    Inv pos (if p1.advances ret then l.count else upTo)
      { p1.advance ret with pc := .ticker again ret } l' := by
  have hadv := advance_eq p1 ret
  refine hI.advance ?_ ?_ ?_ ?_ ?_ ?_ ?_ ?_ ?_ hcount hwriter hflight
  · split
    · exact hI.upTo
    · exact le_refl _
  · split
    · exact le_refl _
    · exact hI.upTo
  · rw [hadv]
    split
    · exact hk.cur.trans hI.cur
    · exact hk.cp.trans hI.cp
  · rw [hadv]; split <;> exact hk.asyncLen
  · rw [hadv]; split <;> exact hk.asyncCp
  · rw [hadv]; split <;> exact hk.cur
  · intro q hq
    rw [← hk.opened] at hq
    rw [hadv]
    split <;> exact hq
  · intro m hm
    rw [← hk.msg]
    rw [hadv] at hm
    split at hm <;> exact hm
  · intro _
    rw [← hk.msg] at hbusy
    rw [hadv]
    split <;> exact hbusy

/-- An answer that puts nothing in flight. -/
theorem settle_inv (p1 : OutputPlugin) (ret : Ret) (again : Bool) (hI : Inv pos upTo p l)
    (hk : Keeps p p1) (hbusy : p.msg ≠ none) :
    (∃ k, Inv pos k { p1.advance ret with pc := .ticker again ret } l) ∧
      (Safe (p, l) → (Safe ({ p1.advance ret with pc := .ticker again ret }, l) ↔
        (p1.advances ret = true → l.inflight = []))) := by
  have hinv := verdict_inv ret again l hI hk hbusy rfl rfl fun m hm => .inl hm
  refine ⟨⟨_, hinv⟩, fun hS => ?_⟩
  by_cases hadv : p1.advances ret = true
  · rw [if_pos hadv] at hinv
    rw [hinv.safe_end_iff]
    simp [hadv]
  · rw [if_neg hadv] at hinv
    rw [hinv.safe_iff, ← hI.safe_iff]
    exact ⟨fun _ h => absurd h hadv, fun _ => hS⟩

/-- `ASYNC` puts the current message in flight. -/
theorem async_inv (p1 : OutputPlugin) (again : Bool) (l' : Ledger) {m : Msg} (hI : Inv pos upTo p l)
    (hk : Keeps p p1) (hm : p.msg = some m) (id : Nat)
    (hl' : l' = { l with inflight := ⟨l.count, id, m.queue, m.stop⟩ :: l.inflight }) :
    (∃ k, Inv pos k { p1.advance .done with pc := .ticker again .done } l') ∧
      (Safe (p, l) → (Safe ({ p1.advance .done with pc := .ticker again .done }, l') ↔
        p1.advances .done = false ∧ ¬m.stop ≤ p.cp.get m.queue)) := by
  subst hl'
  have hinv := verdict_inv .done again
    { l with inflight := ⟨l.count, id, m.queue, m.stop⟩ :: l.inflight } hI hk (by simp [hm]) rfl rfl fun x hx => by
      rcases List.mem_cons.mp hx with rfl | hx
      · exact .inr ⟨rfl, hm⟩
      · exact .inl hx
  refine ⟨⟨_, hinv⟩, fun hS => ?_⟩
  obtain ⟨-, hplaced⟩ := hI.msg m hm
  rw [hI.cp, covers_iff hI.mono hplaced hI.upTo, not_le]
  by_cases hadv : p1.advances .done = true
  · rw [if_pos hadv] at hinv
    rw [hinv.safe_end_iff]
    simp [hadv]
  · rw [if_neg hadv] at hinv
    rw [hinv.safe_iff]
    rw [hI.safe_iff] at hS
    simp only [List.forall_mem_cons, Bool.not_eq_true] at hadv ⊢
    exact ⟨fun h => ⟨hadv, h.1⟩, fun h => ⟨h.2, hS⟩⟩

end

/-! ## Steps and runs -/

theorem step_some {s s' : State} {e : OpEvent} (h : step s e = some s') :
    s.1.step e = some s'.1 ∧ s'.2 = Ledger.see s.1 s.2 e :=
  Runs.observe_some.mp h

theorem see_control {e : OpEvent} (he : control e = true) (p : OutputPlugin) (l : Ledger) :
    Ledger.see p l e = l := by
  cases e <;> first | rfl | cases he

/-- The plugin side of a step: the invariant is kept, and `Safe` exactly when the step is
admitted. -/
theorem see_inv {p p' : OutputPlugin} {l : Ledger} {e : OpEvent} {pos : Nat → CheckpointPair}
    {upTo : Nat} (hI : Inv pos upTo p l) (hfwd : Forward (p, l) e)
    (h : p.step e = some p') :
    (∃ pos' upTo', Inv pos' upTo' p' (Ledger.see p l e)) ∧
      (Safe (p, l) → (Safe (p', Ledger.see p l e) ↔ Admits (p, l) e)) := by
  by_cases hctl : control e = true
  · rw [see_control hctl]
    obtain ⟨hinv, hsafe⟩ := control_inv hI h hctl
    refine ⟨⟨_, _, hinv⟩, fun hS => hsafe.trans ⟨fun _ => ?_, fun _ => hS⟩⟩
    cases e <;> trivial
  cases e with
  | stop | head | idle | nothing | ticker | timerReturn | reoffer | shutdownReturn =>
    exact absurd rfl hctl
  | openFirst q =>
    obtain ⟨hinv, hsafe⟩ := openFirst_inv hI h
    exact ⟨⟨_, _, hinv⟩, fun hS => hsafe.trans ⟨fun _ => trivial, fun _ => hS⟩⟩
  | reset q c =>
    obtain ⟨hinv, hsafe⟩ := reset_inv hI h hfwd
    exact ⟨⟨_, _, hinv⟩, fun hS => hsafe.trans ⟨fun _ => trivial, fun _ => hS⟩⟩
  | deliver q e =>
    obtain ⟨hinv, hsafe⟩ := deliver_inv hI h
    exact ⟨⟨_, _, hinv⟩, fun hS => hsafe.trans ⟨fun _ => trivial, fun _ => hS⟩⟩
  | callback seq =>
    rw [(step_callback h).2]
    cases seq with
    | zero =>
      obtain ⟨⟨k, hinv⟩, hsafe⟩ := commit_inv hI
      exact ⟨⟨_, k, hinv⟩, hsafe⟩
    | succ n =>
      obtain ⟨⟨k, hinv⟩, hsafe⟩ := ack_inv hI (Nat.succ_ne_zero n)
      exact ⟨⟨_, k, hinv⟩, hsafe⟩
  | matcher matched =>
    obtain ⟨again, hpc, rfl⟩ := step_matcher h
    cases matched with
    | true =>
      obtain ⟨hinv, hsafe⟩ := offer_inv hI hpc
      exact ⟨⟨_, _, hinv⟩, fun hS => hsafe.trans ⟨fun _ => trivial, fun _ => hS⟩⟩
    | false =>
      obtain ⟨⟨k, hinv⟩, hsafe⟩ := settle_inv p .done again hI
        ⟨rfl, rfl, rfl, rfl, rfl, rfl⟩ (hI.busy (by simp [current, hpc]))
      exact ⟨⟨_, k, hinv⟩, hsafe⟩
  | pmReturn r =>
    obtain ⟨again, hpc, rfl⟩ := step_pmReturn h
    have hbusy : p.msg ≠ none := hI.busy (by simp [current, hpc])
    cases r with
    | sent | fail | skip | retry | batch | fatal =>
      obtain ⟨⟨k, hinv⟩, hsafe⟩ := settle_inv (p.pmReturn _).1 (p.pmReturn _).2
        again hI (keeps_pmReturn p _) hbusy
      exact ⟨⟨_, k, hinv⟩, hsafe⟩
    | async =>
      obtain ⟨m, hm⟩ := Option.ne_none_iff_exists'.mp hbusy
      have hret : p.pmReturn .async = ({ p with sequenceId := p.nextSequenceId }, .done) := by
        simp [pmReturn, hI.len]
      obtain ⟨⟨k, hinv⟩, hsafe⟩ := async_inv
        { p with sequenceId := p.nextSequenceId } again (Ledger.see p l (.pmReturn .async)) hI
        ⟨rfl, rfl, rfl, rfl, rfl, rfl⟩ hm p.nextSequenceId (by simp [Ledger.see, hm])
      simp only [hret]
      refine ⟨⟨_, k, hinv⟩, fun hS => (hsafe hS).trans ?_⟩
      simp [Admits, hret, hm]

theorem init_inv (rq : ReadQueue) {asyncLen : Nat} (hlen : asyncLen ≠ 0) (ti te : Nat)
    (start : CheckpointPair) :
    Inv (fun _ => start) 0 (init rq asyncLen ti te start).1 (init rq asyncLen ti te start).2 := by
  refine ⟨hlen, rfl, fun _ _ _ _ => le_refl _, rfl, le_refl _, fun _ => le_refl _,
    fun i => ⟨fun q => ?_, CheckpointPair.le_merge_right _ _⟩, ?_, ?_, ?_⟩
  · cases q <;> exact Checkpoint.zero_le _
  all_goals simp [init, create, current]

theorem init_safe (rq : ReadQueue) (asyncLen ti te : Nat) (start : CheckpointPair) :
    Safe (init rq asyncLen ti te start) := by
  intro m hm
  simp [init] at hm

/-- In a run whose resets go forward, no message in flight is covered all along exactly when every
step is admitted. -/
theorem async_safe_iff (rq : ReadQueue) {asyncLen : Nat} (hlen : asyncLen ≠ 0) (ti te : Nat)
    (start : CheckpointPair) {es : List OpEvent}
    (hfwd : Runs.Meets step Forward (init rq asyncLen ti te start) es) :
    Runs.Always step Safe (init rq asyncLen ti te start) es ↔
      Runs.Meets step Admits (init rq asyncLen ti te start) es := by
  refine Runs.always_iff_meets_of (I := fun s => ∃ pos upTo, Inv pos upTo s.1 s.2) ?_ ?_
    ⟨_, _, init_inv rq hlen ti te start⟩ (init_safe rq asyncLen ti te start) hfwd
  · rintro ⟨p, l⟩ e s' ⟨pos, upTo, hI⟩ hf h
    obtain ⟨hp, hl⟩ := step_some h
    rw [hl]
    exact (see_inv hI hf hp).1
  · rintro ⟨p, l⟩ e ⟨p', l'⟩ ⟨pos, upTo, hI⟩ hf hS h
    obtain ⟨hp, hl⟩ := step_some h
    simp only at hp hl
    subst hl
    exact (see_inv hI hf hp).2 hS


/-- What an asynchronous plugin may do: it acknowledges messages in flight, and keeps at most
`async_len` of them. -/
def allowed (s : State) : OpEvent → Bool
  | .callback seq => s.2.inflight.any fun m => m.id == seq
  | .pmReturn .async => decide (s.2.inflight.length < s.1.asyncLen)
  | _ => true

instance : DecidablePred Safe := fun s =>
  inferInstanceAs (Decidable (∀ m ∈ s.2.inflight, ¬m.stop ≤ s.1.cp.get m.queue))

instance (s : State) (e : OpEvent) : Decidable (Forward s e) := by
  cases e <;> simp only [Forward] <;> infer_instance

instance (s : State) (e : OpEvent) : Decidable (Admits s e) := by
  cases e with
  | callback seq => cases seq <;> simp only [Admits] <;> infer_instance
  | pmReturn r => cases r <;> simp only [Admits] <;> infer_instance
  | matcher matched => cases matched <;> simp only [Admits] <;> infer_instance
  | _ => simp only [Admits]; infer_instance

/-- Two messages in flight, the second one acknowledged first. -/
def outOfOrderRun : List OpEvent :=
  [.head, .openFirst .input, .nothing,
   .head, .deliver .input ⟨0, 100⟩, .matcher true, .pmReturn .async, .ticker 0,
   .head, .deliver .input ⟨0, 200⟩, .matcher true, .pmReturn .async, .ticker 10, .callback 2]

theorem async_unsafe : ¬∀ rq asyncLen ti te start es, asyncLen ≠ 0 →
    Runs.Meets step (fun s e => allowed s e = true) (init rq asyncLen ti te start) es →
      Runs.Always step Safe (init rq asyncLen ti te start) es := by
  intro h
  have hrun := h .input 2 60 10 ⟨⟨0, 0⟩, ⟨0, 0⟩⟩ outOfOrderRun (by decide) (by decide)
  revert hrun
  decide

/-- The same messages acknowledged in order. -/
def inOrderRun : List OpEvent :=
  [.head, .openFirst .input, .nothing,
   .head, .deliver .input ⟨0, 100⟩, .matcher true, .pmReturn .async, .ticker 0,
   .head, .deliver .input ⟨0, 200⟩, .matcher true, .pmReturn .async, .ticker 10, .callback 1,
   .callback 2, .timerReturn false]

theorem async_safe_inOrder :
    Runs.Always step Safe (init .input 2 60 10 ⟨⟨0, 0⟩, ⟨0, 0⟩⟩) inOrderRun :=
  (async_safe_iff .input (by decide) 60 10 _ (by decide)).mpr (by decide)

end OutputAsync

end Hindsight
