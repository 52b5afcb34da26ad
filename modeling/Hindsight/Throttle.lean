import Hindsight.Lib.Run
import Hindsight.Output
import Hindsight.OutputPlugin

/-!
# Hindsight.Throttle

Checkpoint backpressure of one queue over a whole run: injections by any of the `inject_message`
functions, each with its own static variables, and passes of `hs_write_checkpoints` that publish
`min_cp_id`. An observer keeps the readers the last pass has seen and what the last call did.

* `Call.Ok`: a call turns the backpressure on only at a roll-over that leaves a reader more than the
  limit behind, and a check turns it off when no reader is on an older file.
* `Admits`: the last pass has seen a reader at or before the writer's file; otherwise the wrapped
  distance is within the limit at a roll-over, and `min_cp_id` is the writer's file at a check.
* `follows_iff`: the calls of a run are all `Ok` exactly when all its steps are admitted.
-/

namespace Hindsight

namespace Throttle

/-- The three `inject_message` functions. -/
inductive Injector where
  | input
  | analysis
  | output
  deriving DecidableEq, Repr

/-! ## A pass -/

/-- The minima of `checkpoint_info`. -/
structure CheckpointInfo where
  minInputId : Nat
  minAnalysisId : Nat

namespace CheckpointInfo

def minId (cpi : CheckpointInfo) : Queue → Nat
  | .input => cpi.minInputId
  | .analysis => cpi.minAnalysisId

/-- A reader of the queue is on file `id`. -/
def lower (cpi : CheckpointInfo) (q : Queue) (id : Nat) : CheckpointInfo :=
  if id < cpi.minId q then
    match q with
    | .input => { cpi with minInputId := id }
    | .analysis => { cpi with minAnalysisId := id }
  else cpi

theorem minId_lower_same (cpi : CheckpointInfo) (q : Queue) (id : Nat) :
    (cpi.lower q id).minId q = if id < cpi.minId q then id else cpi.minId q := by
  unfold lower
  split
  · cases q <;> rfl
  · rfl

theorem minId_lower_other (cpi : CheckpointInfo) {q r : Queue} (id : Nat) (h : r ≠ q) :
    (cpi.lower q id).minId r = cpi.minId r := by
  unfold lower
  split
  · cases q <;> cases r <;> first | rfl | exact absurd rfl h
  · rfl

end CheckpointInfo

/-- `analysis_stats` with the checkpoints of the threads. -/
def analysisStats (cpi : CheckpointInfo) (threads : List Checkpoint) : CheckpointInfo :=
  threads.foldl (fun cpi cp => cpi.lower .input cp.id) cpi

/-- The comparisons of `output_stats` for one plugin. -/
def lowerBy (cpi : CheckpointInfo) (p : ReadQueue × CheckpointPair) : CheckpointInfo :=
  let cpi1 := if p.1.reads .input then cpi.lower .input p.2.input.id else cpi
  if p.1.reads .analysis then cpi1.lower .analysis p.2.analysis.id else cpi1

/-- `output_stats` with the read positions of the plugins. -/
def outputStats (cpi : CheckpointInfo) (plugins : List (ReadQueue × CheckpointPair)) :
    CheckpointInfo :=
  plugins.foldl lowerBy cpi

/-- What `hs_write_checkpoints` publishes. -/
def hsWriteCheckpoints (threads : List Checkpoint) (plugins : List (ReadQueue × CheckpointPair)) :
    CheckpointInfo :=
  outputStats (analysisStats ⟨ullongMax, ullongMax⟩ threads) plugins

def readerOf (q : Queue) (p : ReadQueue × CheckpointPair) : Option Nat :=
  if p.1.reads q then some (p.2.get q).id else none

/-- The files the readers of a queue are on. -/
def readers (q : Queue) (threads : List Checkpoint) (plugins : List (ReadQueue × CheckpointPair)) :
    List Nat :=
  (if q = .input then threads.map Checkpoint.id else []) ++ plugins.filterMap (readerOf q)

/-- The least of the ids; `ULLONG_MAX` when there is none. -/
def slowest (ids : List Nat) (init : Nat) : Nat :=
  ids.foldl (fun m id => if id < m then id else m) init

theorem slowest_eq_least (ids : List Nat) (m : Nat) :
    slowest ids m = Select.least (fun _ => True) m ids :=
  Select.foldl_eq_least m ids

theorem slowest_le (ids : List Nat) (m : Nat) :
    slowest ids m ≤ m ∧ ∀ id ∈ ids, slowest ids m ≤ id := by
  rw [slowest_eq_least]
  obtain ⟨hle, -, hall⟩ : Select.least (fun _ => True) m ids ≤ m ∧ _ ∧ _ := Select.least_spec
  exact ⟨hle, fun id hid => hall id hid trivial⟩

theorem slowest_mem (ids : List Nat) (m : Nat) : slowest ids m = m ∨ slowest ids m ∈ ids := by
  rw [slowest_eq_least]
  exact Select.least_spec.2.1.imp_right And.left

theorem minId_analysisStats (q : Queue) (cpi : CheckpointInfo) (threads : List Checkpoint) :
    (analysisStats cpi threads).minId q =
      slowest (if q = .input then threads.map Checkpoint.id else []) (cpi.minId q) := by
  induction threads generalizing cpi with
  | nil => cases q <;> rfl
  | cons cp threads ih =>
    rw [analysisStats, List.foldl_cons, ← analysisStats, ih]
    by_cases hq : q = .input
    · subst hq
      rw [CheckpointInfo.minId_lower_same, if_pos rfl, if_pos rfl]
      rfl
    · rw [CheckpointInfo.minId_lower_other cpi cp.id hq, if_neg hq, if_neg hq]

theorem minId_lowerBy (q : Queue) (cpi : CheckpointInfo) (p : ReadQueue × CheckpointPair) :
    (lowerBy cpi p).minId q =
      if p.1.reads q then
        if (p.2.get q).id < cpi.minId q then (p.2.get q).id else cpi.minId q
      else cpi.minId q := by
  have hother : (Queue.analysis : Queue) ≠ .input := by decide
  cases q with
  | input =>
    have houter : (lowerBy cpi p).minId .input =
        (if p.1.reads .input then cpi.lower .input p.2.input.id else cpi).minId .input := by
      simp only [lowerBy]
      split
      · exact CheckpointInfo.minId_lower_other _ _ hother.symm
      · rfl
    rw [houter]
    split
    · exact CheckpointInfo.minId_lower_same _ _ _
    · rfl
  | analysis =>
    have hinner : (if p.1.reads .input then cpi.lower .input p.2.input.id else cpi).minId
        .analysis = cpi.minId .analysis := by
      split
      · exact CheckpointInfo.minId_lower_other _ _ hother
      · rfl
    simp only [lowerBy]
    split
    · rw [CheckpointInfo.minId_lower_same, hinner]
      rfl
    · exact hinner

theorem minId_outputStats (q : Queue) (cpi : CheckpointInfo)
    (plugins : List (ReadQueue × CheckpointPair)) :
    (outputStats cpi plugins).minId q =
      slowest (plugins.filterMap (readerOf q)) (cpi.minId q) := by
  induction plugins generalizing cpi with
  | nil => rfl
  | cons p plugins ih =>
    rw [outputStats, List.foldl_cons, ← outputStats, ih, minId_lowerBy, List.filterMap_cons,
      readerOf]
    by_cases hr : p.1.reads q = true
    · rw [if_pos hr, if_pos hr]
      rfl
    · rw [if_neg hr, if_neg hr]

/-- A pass publishes the file of the slowest reader. -/
theorem minId_hsWriteCheckpoints (q : Queue) (threads : List Checkpoint)
    (plugins : List (ReadQueue × CheckpointPair)) :
    (hsWriteCheckpoints threads plugins).minId q =
      slowest (readers q threads plugins) ullongMax := by
  rw [hsWriteCheckpoints, minId_outputStats, minId_analysisStats, readers, slowest, slowest,
    slowest, List.foldl_append]
  cases q <;> rfl

/-! ## Runs -/

/-- A queue and the static variables of the functions that inject into it. -/
structure QueueState where
  output : Output
  statics : Injector → Backpressure

inductive Event where
  | inject (who : Injector) (env : InjectEnv) (pb : List UInt8)
  | spill (n : Nat)
  | pass (threads : List Checkpoint) (plugins : List (ReadQueue × CheckpointPair))

/-- What a call of `inject_message` did: the backpressure before and after it, whether it rolled over
and whether it came in a new second, the file of the writer after it and the readers the last pass
had seen. -/
structure Call where
  before : Bool
  after : Bool
  rolled : Bool
  newSecond : Bool
  writer : Nat
  readers : List Nat

/-- The backpressure follows the slowest reader. -/
def Call.Ok (limit : Nat) (c : Call) : Prop :=
  (c.before = false → c.after = true →
    c.rolled = true ∧ ∃ r ∈ c.readers, r + limit < c.writer) ∧
  (c.before = true → c.newSecond = true → (∀ r ∈ c.readers, c.writer ≤ r) → c.after = false)

/-- The readers the last pass has seen and the last call. -/
structure Seen where
  readers : List Nat
  last : Option Call

abbrev State := QueueState × Seen

section

variable (cfg : HsConfig) (varint : Nat → List UInt8) (q : Queue)

def queueStep (s : QueueState) : Event → Option QueueState
  | .inject who env pb =>
    if pb = [] then none
    else
      let r := injectFrame cfg varint env s.output (s.statics who) pb
      some { output := r.1, statics := Function.update s.statics who r.2.1 }
  | .spill n => some { s with output := s.output.spill n }
  | .pass threads plugins =>
    some { s with
      output := { s.output with minCpId := (hsWriteCheckpoints threads plugins).minId q } }

def rolls (o : Output) (pb : List UInt8) : Bool :=
  decide (o.cp.offset + (frame varint pb).length ≥ cfg.outputSize)

/-- The file of the writer after the call. -/
def writerAfter (o : Output) (pb : List UInt8) : Nat :=
  if rolls cfg varint o pb then (o.cp.id + 1) % 2 ^ 64 else o.cp.id

def see (s : QueueState) (seen : Seen) : Event → Seen
  | .inject who env pb =>
    { seen with
      last := some
        { before := (s.statics who).backpressure
          after := (injectFrame cfg varint env s.output (s.statics who) pb).2.2
          rolled := rolls cfg varint s.output pb
          newSecond := decide ((s.statics who).lastBpCheck < env.now)
          writer := writerAfter cfg varint s.output pb
          readers := seen.readers } }
  | .spill _ => seen
  | .pass threads plugins => { seen with readers := readers q threads plugins }

def step : State → Event → Option State := Runs.observe (queueStep cfg varint q) (see cfg varint q)

def init (d : Dir) : State := (⟨hsInitOutput d, fun _ => ⟨0, false⟩⟩, ⟨[], none⟩)

def Safe (s : State) : Prop := ∀ c ∈ s.2.last, c.Ok cfg.backpressure

/-- The last pass has seen a reader at or before the file of the writer; otherwise the call makes no
roll-over at which the wrapped distance is over the limit, and no check unless `min_cp_id` is the file
of the writer. -/
def Admits (s : State) : Event → Prop
  | .inject who env pb =>
    (∃ r ∈ s.2.readers, r ≤ writerAfter cfg varint s.1.output pb) ∨
      if (s.1.statics who).backpressure = true then
        (s.1.statics who).lastBpCheck < env.now →
          writerAfter cfg varint s.1.output pb = s.1.output.minCpId
      else
        rolls cfg varint s.1.output pb = true →
          sub64 (writerAfter cfg varint s.1.output pb) s.1.output.minCpId ≤ cfg.backpressure
  | _ => True

end

/-! ## One call -/

section

variable {cfg : HsConfig} {varint : Nat → List UInt8} {q : Queue}

theorem cp_id_appendFrame (o : Output) (pb : List UInt8) :
    (appendFrame cfg varint o pb).cp.id = writerAfter cfg varint o pb := by
  simp only [appendFrame]
  split
  · rename_i h
    have hroll : rolls cfg varint o pb = true := decide_eq_true h
    rw [id_hsOpenOutputFile, writerAfter, if_pos hroll]
    rfl
  · rename_i h
    have hroll : ¬rolls cfg varint o pb = true := fun hr => h (of_decide_eq_true hr)
    rw [writerAfter, if_neg hroll]
    rfl

theorem minCpId_spill (o : Output) (n : Nat) : (o.spill n).minCpId = o.minCpId := by
  unfold Output.spill
  split <;> rfl

theorem minCpId_appendFrame (o : Output) (pb : List UInt8) :
    (appendFrame cfg varint o pb).minCpId = o.minCpId := by
  simp only [appendFrame]
  split
  · exact minCpId_spill _ _
  · rfl

theorem writerAfter_le {o : Output} (h : o.cp.id ≤ ullongMax) (pb : List UInt8) :
    writerAfter cfg varint o pb ≤ ullongMax := by
  have hmax : ullongMax = 2 ^ 64 - 1 := rfl
  unfold writerAfter
  split
  · have := Nat.mod_lt (o.cp.id + 1) (by decide : 0 < 2 ^ 64)
    omega
  · exact h

/-- The backpressure of a function after its test at a roll-over. -/
def applied (cfg : HsConfig) (varint : Nat → List UInt8) (o : Output) (on : Bool)
    (pb : List UInt8) : Bool :=
  on || (rolls cfg varint o pb &&
    decide (sub64 (writerAfter cfg varint o pb) o.minCpId > cfg.backpressure))

/-- Without a limit for the disk, only the positions count. -/
theorem injectFrame_throttled (hbp : 0 < cfg.backpressure) (hdf : cfg.backpressureDf = 0)
    (env : InjectEnv) (o : Output) (b : Backpressure) (pb : List UInt8) :
    (injectFrame cfg varint env o b pb).2.2 =
      if applied cfg varint o b.backpressure pb && decide (b.lastBpCheck < env.now) then
        !(writerAfter cfg varint o pb == o.minCpId)
      else applied cfg varint o b.backpressure pb := by
  have hne : (cfg.backpressure != 0) = true := by
    rw [bne_iff_ne]
    omega
  have happly : applyBackpressure cfg env (appendFrame cfg varint o pb) b.backpressure =
      (b.backpressure || decide (sub64 (writerAfter cfg varint o pb) o.minCpId >
        cfg.backpressure)) := by
    simp only [applyBackpressure, cp_id_appendFrame, minCpId_appendFrame, hne, hdf, bne_self_eq_false,
      Bool.true_and, Bool.false_and, Bool.or_false]
  have hb1 : (if o.cp.offset + (frame varint pb).length ≥ cfg.outputSize then
      { b with backpressure := applyBackpressure cfg env (appendFrame cfg varint o pb) b.backpressure }
      else b) = { b with backpressure := applied cfg varint o b.backpressure pb } := by
    rw [happly, applied, rolls]
    split
    · rename_i h
      simp only [h, decide_true, Bool.true_and]
    · rename_i h
      simp only [h, decide_false, Bool.false_and, Bool.or_false]
  simp only [injectFrame, hb1, releaseBackpressure, cp_id_appendFrame, minCpId_appendFrame, hdf,
    beq_self_eq_true, Bool.true_or, Bool.and_true]
  split <;> rfl

structure Inv (s : State) : Prop where
  id_le : s.1.output.cp.id ≤ ullongMax
  published : s.2.readers = [] ∨ s.1.output.minCpId = slowest s.2.readers ullongMax

theorem init_inv {d : Dir} (hd : ∀ id ∈ d.ids, id ≤ ullongMax) : Inv (init d) := by
  refine ⟨?_, .inl rfl⟩
  change (hsInitOutput d).cp.id ≤ ullongMax
  rw [hsInitOutput, id_hsOpenOutputFile]
  exact findLastId_le hd

theorem step_inv {s s' : State} {e : Event} (hI : Inv s) (h : step cfg varint q s e = some s') :
    Inv s' := by
  obtain ⟨hq, hs⟩ := Runs.observe_some.mp h
  cases e with
  | inject who env pb =>
    simp only [queueStep] at hq
    split at hq
    · cases hq
    · have hout : s'.1.output = appendFrame cfg varint s.1.output pb := by
        rw [← Option.some.inj hq]
        rfl
      have hseen : s'.2.readers = s.2.readers := by
        rw [hs]
        rfl
      refine ⟨?_, ?_⟩
      · rw [hout, cp_id_appendFrame]
        exact writerAfter_le hI.id_le pb
      · rw [hout, hseen, minCpId_appendFrame]
        exact hI.published
  | spill n =>
    have hout : s'.1.output = s.1.output.spill n := by
      rw [← Option.some.inj hq]
    have hseen : s'.2.readers = s.2.readers := by
      rw [hs]
      rfl
    refine ⟨?_, ?_⟩
    · rw [hout, Output.cp_spill]
      exact hI.id_le
    · rw [hout, hseen, minCpId_spill]
      exact hI.published
  | pass threads plugins =>
    have hout : s'.1.output =
        { s.1.output with minCpId := (hsWriteCheckpoints threads plugins).minId q } := by
      rw [← Option.some.inj hq]
    have hseen : s'.2.readers = readers q threads plugins := by
      rw [hs]
      rfl
    refine ⟨?_, .inr ?_⟩
    · rw [hout]
      exact hI.id_le
    · rw [hout, hseen]
      exact minId_hsWriteCheckpoints q threads plugins

/-- With a reader at or before the file of the writer, `min_cp_id` is the file of the slowest one. -/
theorem Inv.slowest_le {s : State} (hI : Inv s) {r w : Nat} (hr : r ∈ s.2.readers) (hle : r ≤ w)
    (hw : w ≤ ullongMax) :
    s.1.output.minCpId ∈ s.2.readers ∧ s.1.output.minCpId ≤ w := by
  have hmin : s.1.output.minCpId = slowest s.2.readers ullongMax := by
    rcases hI.published with h | h
    · rw [h] at hr
      exact absurd hr List.not_mem_nil
    · exact h
  obtain ⟨-, hall⟩ := Throttle.slowest_le s.2.readers ullongMax
  have hmr : s.1.output.minCpId ≤ r := hmin ▸ hall r hr
  refine ⟨?_, hmr.trans hle⟩
  rcases slowest_mem s.2.readers ullongMax with h | h
  · have hrm : r = s.1.output.minCpId := by
      rw [hmin, h] at hmr ⊢
      exact le_antisymm (hle.trans hw) hmr
    rw [← hrm]
    exact hr
  · rw [hmin]
    exact h

/-- The backpressure after a call, from what the call saw. -/
def outcome (limit w m : Nat) (before rolled newSecond : Bool) : Bool :=
  let on := before || (rolled && decide (sub64 w m > limit))
  if on && newSecond then !(w == m) else on

section

variable {limit w m : Nat} {rs : List Nat}

/-- Latched in this very call: `min_cp_id` is not the file of the writer. -/
theorem outcome_latch (hlimit : 0 < limit) (hw : w ≤ ullongMax) (newSecond : Bool) :
    outcome limit w m false true newSecond = decide (sub64 w m > limit) := by
  have hself : sub64 w w = 0 := by rw [sub64_of_le le_rfl hw, Nat.sub_self]
  simp only [outcome, Bool.false_or, Bool.true_and]
  by_cases hd : sub64 w m > limit
  · have hne : (w == m) = false := by
      rw [beq_eq_false_iff_ne]
      rintro rfl
      omega
    simp only [hd, decide_true, Bool.true_and, hne, Bool.not_false, ite_self]
  · simp only [hd, decide_false, Bool.false_and, Bool.false_eq_true, if_false]

theorem outcome_off (limit w m : Nat) (newSecond : Bool) :
    outcome limit w m false false newSecond = false := by
  simp only [outcome, Bool.false_or, Bool.false_and, Bool.false_eq_true, if_false]

theorem outcome_check (limit w m : Nat) (rolled : Bool) :
    outcome limit w m true rolled true = !(w == m) := by
  simp only [outcome, Bool.true_or, Bool.true_and, if_true]

/-- With `min_cp_id` the file of a reader that is not ahead, every call is right. -/
theorem ok_of_reader (before rolled newSecond : Bool) (hlimit : 0 < limit) (hw : w ≤ ullongMax)
    (hm : m ∈ rs) (hmw : m ≤ w) :
    Call.Ok limit ⟨before, outcome limit w m before rolled newSecond, rolled, newSecond, w, rs⟩ := by
  refine ⟨fun hb ha => ?_, fun hb hn hall => ?_⟩
  · change before = false at hb
    change outcome limit w m before rolled newSecond = true at ha
    subst hb
    cases rolled with
    | false =>
      rw [outcome_off] at ha
      cases ha
    | true =>
      rw [outcome_latch hlimit hw, decide_eq_true_eq, sub64_of_le hmw hw] at ha
      exact ⟨rfl, m, hm, by change m + limit < w; omega⟩
  · change before = true at hb
    change newSecond = true at hn
    subst hb hn
    change outcome limit w m true rolled true = false
    have hwm : w = m := le_antisymm (hall m hm) hmw
    rw [outcome_check, hwm, beq_self_eq_true, Bool.not_true]

/-- With all readers ahead no call may latch, and every check is to release. -/
theorem ok_iff_of_ahead (before rolled newSecond : Bool) (hlimit : 0 < limit) (hw : w ≤ ullongMax)
    (hahead : ∀ r ∈ rs, w < r) :
    Call.Ok limit ⟨before, outcome limit w m before rolled newSecond, rolled, newSecond, w, rs⟩ ↔
      if before = true then newSecond = true → w = m else rolled = true → sub64 w m ≤ limit := by
  have hnone : ¬∃ r ∈ rs, r + limit < w := by
    rintro ⟨r, hmem, hlt⟩
    have := hahead r hmem
    omega
  cases before with
  | false =>
    rw [if_neg Bool.false_ne_true]
    constructor
    · rintro ⟨hok, -⟩ rfl
      by_contra hd
      have ha : outcome limit w m false true newSecond = true := by
        rw [outcome_latch hlimit hw, decide_eq_true_eq]
        omega
      exact hnone (hok rfl ha).2
    · intro hq
      refine ⟨fun _ ha => ?_, fun hb => (by cases hb)⟩
      change outcome limit w m false rolled newSecond = true at ha
      cases rolled with
      | false =>
        rw [outcome_off] at ha
        cases ha
      | true =>
        rw [outcome_latch hlimit hw, decide_eq_true_eq] at ha
        exact absurd (hq rfl) (by omega)
  | true =>
    rw [if_pos rfl]
    constructor
    · rintro ⟨-, hok⟩ rfl
      have ha : outcome limit w m true rolled true = false := hok rfl rfl fun r hr => (hahead r hr).le
      rw [outcome_check, Bool.not_eq_false', beq_iff_eq] at ha
      exact ha
    · intro hq
      refine ⟨fun hb => (by cases hb), fun _ hn _ => ?_⟩
      change newSecond = true at hn
      subst hn
      change outcome limit w m true rolled true = false
      rw [outcome_check, hq rfl, beq_self_eq_true, Bool.not_true]

theorem ok_iff (before rolled newSecond : Bool) (hlimit : 0 < limit) (hw : w ≤ ullongMax)
    (hmin : ∀ r ∈ rs, r ≤ w → m ∈ rs ∧ m ≤ w) :
    Call.Ok limit ⟨before, outcome limit w m before rolled newSecond, rolled, newSecond, w, rs⟩ ↔
      (∃ r ∈ rs, r ≤ w) ∨
        if before = true then newSecond = true → w = m else rolled = true → sub64 w m ≤ limit := by
  by_cases hr : ∃ r ∈ rs, r ≤ w
  · obtain ⟨r, hmem, hle⟩ := hr
    obtain ⟨hm, hmw⟩ := hmin r hmem hle
    exact iff_of_true (ok_of_reader before rolled newSecond hlimit hw hm hmw) (.inl ⟨r, hmem, hle⟩)
  · rw [or_iff_right hr]
    refine ok_iff_of_ahead before rolled newSecond hlimit hw fun r hmem => ?_
    by_contra hlt
    exact hr ⟨r, hmem, by omega⟩

end

/-- A call is `Ok` exactly when it is admitted. -/
theorem call_ok_iff (hbp : 0 < cfg.backpressure) (hdf : cfg.backpressureDf = 0) {s : State}
    (hI : Inv s) (who : Injector) (env : InjectEnv) (pb : List UInt8) :
    (∀ c ∈ (see cfg varint q s.1 s.2 (.inject who env pb)).last, c.Ok cfg.backpressure) ↔
      Admits cfg varint s (.inject who env pb) := by
  have hw : writerAfter cfg varint s.1.output pb ≤ ullongMax := writerAfter_le hI.id_le pb
  have hiff := ok_iff (s.1.statics who).backpressure (rolls cfg varint s.1.output pb)
    (decide ((s.1.statics who).lastBpCheck < env.now)) hbp hw fun r hr hle => hI.slowest_le hr hle hw
  simp only [decide_eq_true_eq] at hiff
  rw [Admits, ← hiff, see]
  simp only [Option.mem_some_iff, forall_eq', injectFrame_throttled hbp hdf]
  rfl

theorem step_safe (hbp : 0 < cfg.backpressure) (hdf : cfg.backpressureDf = 0) {s s' : State}
    {e : Event} (hI : Inv s) (hS : Safe cfg s) (h : step cfg varint q s e = some s') :
    Safe cfg s' ↔ Admits cfg varint s e := by
  have hs := (Runs.observe_some.mp h).2
  rw [Safe, hs]
  cases e with
  | inject who env pb => exact call_ok_iff hbp hdf hI who env pb
  | spill n => exact iff_of_true hS trivial
  | pass threads plugins => exact iff_of_true hS trivial

end

/-- In every run the backpressure follows the slowest reader exactly when all steps are admitted. -/
theorem follows_iff (cfg : HsConfig) (varint : Nat → List UInt8) (q : Queue) (d : Dir)
    (hbp : 0 < cfg.backpressure) (hdf : cfg.backpressureDf = 0) (hd : ∀ id ∈ d.ids, id ≤ ullongMax)
    (es : List Event) :
    Runs.Always (step cfg varint q) (Safe cfg) (init d) es ↔
      Runs.Meets (step cfg varint q) (Admits cfg varint) (init d) es :=
  Runs.always_iff_meets (I := Inv) (fun _ _ _ hI h => step_inv hI h)
    (fun _ _ _ hI hS h => step_safe hbp hdf hI hS h) (init_inv hd)
    (fun c hc => by cases hc) es

instance (limit : Nat) (c : Call) : Decidable (c.Ok limit) := by
  unfold Call.Ok
  infer_instance

instance (cfg : HsConfig) : DecidablePred (Safe cfg) := fun s =>
  inferInstanceAs (Decidable (∀ c ∈ s.2.last, c.Ok cfg.backpressure))

instance (cfg : HsConfig) (varint : Nat → List UInt8) (s : State) (e : Event) :
    Decidable (Admits cfg varint s e) := by
  cases e <;> unfold Admits <;> infer_instance

/-- Two messages fill a file and the limit is one file. -/
def smallFiles : HsConfig := ⟨12, 1, 0⟩

def injectAt (now : Nat) : Event := .inject .analysis ⟨now, none, none⟩ [1]

/-- One reader: it falls behind, the fourth message turns the backpressure on, and a message in a later
second turns it off once a pass has seen the reader on the file of the writer. -/
def slowRun : List Event :=
  [.pass [] [(.both, ⟨⟨0, 0⟩, ⟨0, 0⟩⟩)], injectAt 5, injectAt 5, injectAt 5, injectAt 5,
    .pass [] [(.both, ⟨⟨0, 0⟩, ⟨2, 0⟩⟩)], injectAt 6]

theorem follows_iff_slow :
    Runs.Always (step smallFiles (fun _ => [1]) .analysis) (Safe smallFiles)
      (init ⟨[], fun _ => []⟩) slowRun :=
  (follows_iff smallFiles (fun _ => [1]) .analysis ⟨[], fun _ => []⟩ (by decide) rfl
    (by decide) slowRun).mpr (by decide)

/-- Nothing reads the queue: the first roll-over after a pass throttles it. -/
theorem follows_fails :
    ¬∀ (cfg : HsConfig) (varint : Nat → List UInt8) (q : Queue) (d : Dir) (es : List Event),
      0 < cfg.backpressure → cfg.backpressureDf = 0 → (∀ id ∈ d.ids, id ≤ ullongMax) →
        Runs.Always (step cfg varint q) (Safe cfg) (init d) es := by
  intro h
  have := h smallFiles (fun _ => [1]) .analysis ⟨[], fun _ => []⟩
    [.pass [] [], injectAt 5, injectAt 5] (by decide) rfl (by decide)
  revert this
  decide

end Throttle

end Hindsight
