import Hindsight.CliThread
import Hindsight.ReaderResume

/-!
# Hindsight.CliTimer

The periodic `timer_event` calls of the command line build. They are to follow the data: a call is made
at a message or an idle poll when the greatest timestamp so far is `ticker_interval` past the data time of
the call before. An observer keeps that time and what was done at each of these points.

* `Admits`: once the data has passed `ticker_interval`, it has passed the clock the thread was started
  with by as much; that clock counts for an output thread only.
* `timers_iff`: both runs follow the data and make the same calls exactly when all their steps are
  admitted.
-/

namespace Hindsight

namespace CliTimer

open CliThread

/-- `prev` is the data time of the last call, `seen` the greatest timestamp so far. `calls` has an entry
for each point after the first message at which a call can be made: the time of the call made there. -/
structure Calls where
  prev : Option Int
  seen : Option Int
  calls : List (Option Nat)
  ok : Bool

/-- The greatest timestamp in whole seconds; zero before the first message. -/
def Calls.dataTime (h : Calls) : Int :=
  match h.seen with
  | none => 0
  | some ns => ns / 1000000000

/-- A call is to be made. -/
def Calls.due (interval : Nat) (h : Calls) : Bool :=
  match h.prev with
  | none => true
  | some t => decide (t + interval ≤ h.dataTime)

/-- The timestamp of the message that is offered next. -/
def picked (S : Setup) (t : Thread) : Event → Option Int
  | .choose _ => (t.oldest S).map fun m => S.timestamp m.2
  | _ => none

/-- At a message that is not fatal and at an idle poll: whether a call is made, and the time it gets. -/
def decision (S : Setup) (t : Thread) : Event → Option (Bool × Nat)
  | .choose _ =>
    if t.oldest S = none ∧ (t.side .input).bytesRead = 0 ∧ (t.side .analysis).bytesRead = 0 ∧
        t.alive = true then
      some ((t.idleClock S).fires S, (t.idleClock S).currentT)
    else none
  | .answer v _ => if t.alive = true ∧ v ≠ .fatal then some (t.fires S, t.currentT) else none
  | _ => none

def Calls.message (h : Calls) (timestamp : Int) : Calls :=
  { h with
    seen := match h.seen with
      | none => some timestamp
      | some ns => some (max ns timestamp) }

def Calls.decide (interval : Nat) (h : Calls) (fired : Bool) (time : Nat) : Calls :=
  { h with
    prev := if fired then some h.dataTime else h.prev
    calls := if h.seen = none then h.calls else h.calls ++ [if fired then some time else none]
    ok := h.ok && fired == h.due interval }

def see (S : Setup) (t : Thread) (h : Calls) (e : Event) : Calls :=
  match picked S t e with
  | some timestamp => h.message timestamp
  | none =>
    match decision S t e with
    | some (fired, time) => h.decide S.tickerInterval fired time
    | none => h

abbrev State := Thread × Calls

/-- The machine with its observer. -/
def step (S : Setup) : State → Event → Option State := Runs.observe (CliThread.step S) (see S)

def start (S : Setup) (clock : Nat) : State := (Thread.init S clock, ⟨none, none, [], true⟩)

/-- So far calls were made exactly where they were due. -/
def Safe (s : State) : Prop := s.2.ok = true

/-- The clock of the thread before the first message. -/
def origin (S : Setup) (clock : Nat) : Nat := (Thread.init S clock).currentT

/-- The data has not come as far as the interval, or it is as far past the first clock. -/
def Admits (S : Setup) (clock : Nat) (s : State) (e : Event) : Prop :=
  decision S s.1 e ≠ none → S.tickerInterval ≤ s.2.dataTime →
    origin S clock + S.tickerInterval ≤ s.2.dataTime

/-! ## What a step does to the clocks -/

section

variable {S : Setup} {t t' : Thread} {e : Event}

def clocks (t : Thread) : Nat × Nat × Nat := (t.currentT, t.cliNs, t.tickerExpires)

@[simp] theorem clocks_terminate (t : Thread) : clocks (t.terminate S) = clocks t := by
  unfold Thread.terminate
  split <;> rfl

@[simp] theorem clocks_leave (t : Thread) (q : Queue) (s : Side) (o : Outcome) :
    clocks (t.leave q s o) = clocks t := by
  cases o <;> rfl

theorem clocks_see_setSide (t : Thread) (q : Queue) (s : Side) (timestamp : Int) :
    clocks ((t.setSide q s).see timestamp) = clocks (t.see timestamp) := by
  by_cases h : timestamp > t.cliNs
  · rw [Thread.see, Thread.see, if_pos h, if_pos (by exact h)]
    rfl
  · rw [Thread.see, Thread.see, if_neg h, if_neg (by exact h)]
    rfl

theorem fires_of_dead (h : t.alive = false) : t.fires S = false := by
  rw [Thread.fires, h]
  rfl

theorem clocks_idle (t : Thread) (fatal : Bool) :
    clocks (t.idle S fatal) = clocks ((t.idleClock S).timer S) := by
  unfold Thread.idle
  simp only
  split
  · exact clocks_terminate _
  · rfl

/-- A thread picks the oldest message, is idle, or has more to read. -/
theorem choose_clocks (t : Thread) (fatal : Bool) :
    (∃ ts, picked S t (.choose fatal) = some ts ∧ clocks (t.choose S fatal) = clocks (t.see ts)) ∨
    picked S t (.choose fatal) = none ∧ ∃ t₀, (t₀ = t ∨ t₀ = t.idleClock S) ∧
      (decision S t (.choose fatal) = none ∧ clocks (t.choose S fatal) = clocks t₀ ∨
        t.alive = true ∧ decision S t (.choose fatal) = some (t₀.fires S, t₀.currentT) ∧
          clocks (t.choose S fatal) = clocks (t₀.timer S)) := by
  unfold Thread.choose
  simp only [picked, decision]
  cases ho : t.oldest S with
  | some m => exact .inl ⟨_, rfl, clocks_see_setSide t _ _ _⟩
  | none =>
    refine .inr ⟨rfl, ?_⟩
    by_cases hidle : (t.side .input).bytesRead = 0 ∧ (t.side .analysis).bytesRead = 0
    · refine ⟨t.idleClock S, .inr rfl, ?_⟩
      simp only [if_pos hidle, clocks_idle]
      cases ha : t.alive with
      | true => exact .inr ⟨rfl, by simp [hidle], trivial⟩
      | false =>
        have hf : (t.idleClock S).fires S = false := fires_of_dead (by rw [Thread.alive_idleClock, ha])
        refine .inl ⟨by simp, ?_⟩
        rw [Thread.timer, hf]
        rfl
    · refine ⟨t, .inl rfl, .inl ⟨if_neg fun h => hidle ⟨h.2.1, h.2.2.1⟩, ?_⟩⟩
      simp only [if_neg hidle]
      rfl

theorem answer_clocks (t : Thread) (q : Queue) (pb : List UInt8) (again : Bool) (v : Verdict)
    (fatal : Bool) :
    decision S t (.answer v fatal) = none ∧ clocks (t.answer S q pb again v fatal) = clocks t ∨
      t.alive = true ∧ decision S t (.answer v fatal) = some (t.fires S, t.currentT) ∧
        clocks (t.answer S q pb again v fatal) = clocks (t.timer S) := by
  unfold Thread.answer
  simp only [decision]
  cases ha : t.alive with
  | false => exact .inl ⟨by simp, rfl⟩
  | true =>
    by_cases hv : v = .fatal
    · exact .inl ⟨by simp [hv], by simp [hv]⟩
    · refine .inr ⟨rfl, by simp [hv], ?_⟩
      simp only [Bool.true_eq_false, if_false, if_neg hv]
      split
      · exact clocks_terminate _
      · split <;> rfl

/-- A step picks a message, decides on a call, or leaves the clocks; an idle thread may set its clock
first. -/
theorem step_clocks (h : CliThread.step S t e = some t') :
    (∃ ts, picked S t e = some ts ∧ clocks t' = clocks (t.see ts)) ∨
    picked S t e = none ∧ ∃ t₀, (t₀ = t ∨ t₀ = t.idleClock S) ∧
      (decision S t e = none ∧ clocks t' = clocks t₀ ∨
        t.alive = true ∧ decision S t e = some (t₀.fires S, t₀.currentT) ∧
          clocks t' = clocks (t₀.timer S)) := by
  cases e with
  | stop =>
    obtain ⟨-, rfl⟩ := step_stop.mp h
    exact .inr ⟨rfl, t, .inl rfl, .inl ⟨rfl, rfl⟩⟩
  | arrive q e =>
    obtain ⟨-, rfl⟩ := step_arrive.mp h
    exact .inr ⟨rfl, t, .inl rfl, .inl ⟨rfl, rfl⟩⟩
  | head =>
    obtain ⟨-, rfl⟩ := step_head.mp h
    refine .inr ⟨rfl, t, .inl rfl, .inl ⟨rfl, ?_⟩⟩
    unfold Thread.head
    split <;> rfl
  | poll n =>
    obtain ⟨q, -, rfl⟩ := step_poll.mp h
    refine .inr ⟨rfl, t, .inl rfl, .inl ⟨rfl, ?_⟩⟩
    unfold Thread.poll
    split
    · exact clocks_leave t _ _ _
    · rfl
  | openNext =>
    obtain ⟨q, -, rfl⟩ := step_openNext.mp h
    exact .inr ⟨rfl, t, .inl rfl, .inl ⟨rfl, clocks_leave t _ _ _⟩⟩
  | choose fatal =>
    obtain ⟨-, rfl⟩ := step_choose.mp h
    exact choose_clocks t fatal
  | answer v fatal =>
    obtain ⟨q, pb, again, -, rfl⟩ := step_answer.mp h
    exact .inr ⟨rfl, t, .inl rfl, answer_clocks t q pb again v fatal⟩

end

/-! ## The first turn -/

/-- Nothing was read: before the first idle poll no file is open where the thread has not looked yet. -/
structure First (t : Thread) : Prop where
  alive : t.alive = true
  running : t.pc = .head → t.localStop = false
  empty : ∀ q, (t.side q).held = none ∧ (t.side q).bytesRead = 0
  closed : ∀ q, t.pc = .head ∨ t.pc = .poll .input ∨ t.pc = .poll q → (t.side q).input.fh = none
  pc : t.pc = .head ∨ (∃ q, t.pc = .poll q) ∨ t.pc = .choose

section

variable {S : Setup} {t t' : Thread} {e : Event}

theorem first_init (S : Setup) (clock : Nat) : First (Thread.init S clock) :=
  ⟨rfl, fun _ => rfl, fun _ => ⟨rfl, rfl⟩, fun _ _ => rfl, .inl rfl⟩

theorem First.oldest (hF : First t) : t.oldest S = none := by
  simp only [Thread.oldest, (hF.empty .input).1, (hF.empty .analysis).1]

theorem First.of_after (hF : First t) {q : Queue} (hpc : t.pc = .poll q)
    (hpc' : t'.pc = Thread.after q) (halive : t'.alive = t.alive)
    (hother : ∀ r, r ≠ q → t'.side r = t.side r)
    (hq : (t'.side q).held = none ∧ (t'.side q).bytesRead = 0) : First t' := by
  refine ⟨halive.trans hF.alive, fun h => ?_, fun r => ?_, fun r hr => ?_, ?_⟩
  · rw [hpc'] at h
    cases q <;> cases h
  · by_cases hr : r = q
    · rw [hr]
      exact hq
    · rw [hother r hr]
      exact hF.empty r
  · rw [hpc'] at hr
    cases q with
    | input =>
      have hne : r ≠ .input := by
        rintro rfl
        simp [Thread.after] at hr
      rw [hother r hne]
      exact hF.closed r (.inr (.inl hpc))
    | analysis => simp [Thread.after] at hr
  · rw [hpc']
    cases q with
    | input => exact .inr (.inl ⟨.analysis, rfl⟩)
    | analysis => exact .inr (.inr rfl)

theorem First.poll (hF : First t) {q : Queue} (hpc : t.pc = .poll q) (n : Nat) :
    First (t.poll S n q) := by
  have hfh := hF.closed q (.inr (.inr hpc))
  have hpoll : ((t.side q).poll S (t.view S q) n).1.held = none ∧
      ((t.side q).poll S (t.view S q) n).1.bytesRead = 0 ∧
      ((t.side q).poll S (t.view S q) n).2 ≠ .tryNext := by
    rw [Side.poll, hfh]
    refine ⟨(hF.empty q).1, (hF.empty q).2, ?_⟩
    simp only
    split <;> simp
  unfold Thread.poll
  split
  · generalize (t.side q).poll S (t.view S q) n = r at hpoll
    obtain ⟨s, o⟩ := r
    refine hF.of_after hpc ?_ ?_ (fun r hr => Thread.leave_other hr) ?_
    · cases o with
      | moveOn | atEnd => rfl
      | tryNext => exact absurd rfl hpoll.2.2
    · cases o <;> rfl
    · rw [Thread.leave_same]
      exact ⟨hpoll.1, hpoll.2.1⟩
  · exact hF.of_after hpc rfl rfl (fun _ _ => rfl) (hF.empty q)

/-- The first turn ends with a call. -/
theorem First.step (hF : First t) (h : CliThread.step S t e = some t') :
    picked S t e = none ∧ (decision S t e = none → First t') := by
  have hnot : ∀ q, t.pc ≠ .openNext q ∧ ∀ pb again, t.pc ≠ .offer q pb again := by
    intro q
    rcases hF.pc with hpc | ⟨q', hpc⟩ | hpc
    all_goals simp [hpc]
  cases e with
  | stop =>
    obtain ⟨-, rfl⟩ := step_stop.mp h
    exact ⟨rfl, fun _ => ⟨hF.alive, hF.running, hF.empty, hF.closed, hF.pc⟩⟩
  | arrive q e =>
    obtain ⟨-, rfl⟩ := step_arrive.mp h
    exact ⟨rfl, fun _ => ⟨hF.alive, hF.running, hF.empty, hF.closed, hF.pc⟩⟩
  | head =>
    obtain ⟨hpc, rfl⟩ := step_head.mp h
    refine ⟨rfl, fun _ => ?_⟩
    rw [Thread.head, hF.running hpc]
    exact ⟨hF.alive, fun h => (by cases h), hF.empty, fun q _ => hF.closed q (.inl hpc),
      .inr (.inl ⟨.input, rfl⟩)⟩
  | poll n =>
    obtain ⟨q, hpc, rfl⟩ := step_poll.mp h
    exact ⟨rfl, fun _ => hF.poll hpc n⟩
  | openNext =>
    obtain ⟨q, hpc, -⟩ := step_openNext.mp h
    exact absurd hpc (hnot q).1
  | choose fatal =>
    refine ⟨by simp only [picked, hF.oldest]; rfl, fun hd => ?_⟩
    simp [decision, hF.oldest, hF.empty, hF.alive] at hd
  | answer v fatal =>
    obtain ⟨q, pb, again, hpc, -⟩ := step_answer.mp h
    exact absurd hpc ((hnot q).2 pb again)

end

/-! ## The invariant -/

/-- The clocks of the thread against the calls so far. The last call was made with nothing of the data
seen, and the thread waits for its first clock and the interval to pass; or it was made when they had
passed. -/
structure Inv (S : Setup) (clock : Nat) (t : Thread) (h : Calls) : Prop where
  currentT : t.currentT = if t.cliNs = 0 then origin S clock else Thread.seconds t.cliNs
  seen : (t.cliNs : Int) = match h.seen with
    | none => 0
    | some ns => max 0 ns
  first : h.prev = none → First t ∧ t.tickerExpires = 0 ∧ h.seen = none
  call : ∀ p, h.prev = some p →
    p = 0 ∧ t.tickerExpires = origin S clock + S.tickerInterval ∨
      (t.tickerExpires : Int) = p + S.tickerInterval ∧
        ((origin S clock + S.tickerInterval : Nat) : Int) ≤ p ∧ p ≤ h.dataTime

section

variable {S : Setup} {clock : Nat} {t t' : Thread} {h : Calls} {e : Event}

/-- Once a timestamp after zero was seen, the seconds of `cli_ns` are the data time. -/
theorem Inv.dataTime (hI : Inv S clock t h) :
    t.cliNs = 0 ∧ h.dataTime ≤ 0 ∨ 0 < t.cliNs ∧ h.dataTime = Thread.seconds t.cliNs := by
  have hseen := hI.seen
  unfold Calls.dataTime Thread.seconds
  cases hs : h.seen with
  | none =>
    rw [hs] at hseen
    simp only at hseen ⊢
    omega
  | some ns =>
    rw [hs] at hseen
    simp only at hseen ⊢
    omega

theorem Inv.of_clocks (hI : Inv S clock t h) (hc : clocks t' = clocks t)
    (hF : h.prev = none → First t') : Inv S clock t' h := by
  simp only [clocks, Prod.mk.injEq] at hc
  obtain ⟨h1, h2, h3⟩ := hc
  refine ⟨?_, ?_, fun hp => ?_, fun p hp => ?_⟩
  · rw [h1, h2]
    exact hI.currentT
  · rw [h2]
    exact hI.seen
  · rw [h3]
    exact ⟨hF hp, (hI.first hp).2⟩
  · rw [h3]
    exact hI.call p hp

/-- An idle analysis thread sets its clock to what it is. -/
theorem Inv.idleClock (hI : Inv S clock t h) : clocks (t.idleClock S) = clocks t := by
  have hclock := hI.currentT
  unfold Thread.idleClock
  cases hk : S.kind with
  | output => rfl
  | analysis =>
    have horigin : origin S clock = 0 := by simp only [origin, Thread.init, hk]
    rw [horigin] at hclock
    have hsec : Thread.seconds t.cliNs = t.currentT := by
      rw [hclock]
      split
      · rename_i hz
        rw [hz]
        rfl
      · rfl
    simp only [clocks, hsec]

/-- With the clocks as they are, a call is made where it is due exactly when the step is admitted. -/
theorem Inv.fires_iff (hI : Inv S clock t h) (hti : 0 < S.tickerInterval) (ha : t.alive = true) :
    t.fires S = h.due S.tickerInterval ↔
      (S.tickerInterval ≤ h.dataTime → origin S clock + S.tickerInterval ≤ h.dataTime) := by
  have hfires : t.fires S = decide (t.currentT ≥ t.tickerExpires) := by
    have hne : (S.tickerInterval != 0) = true := by simp only [bne_iff_ne]; omega
    rw [Thread.fires, ha, hne]
    rfl
  have hclock := hI.currentT
  have hdata := hI.dataTime
  rw [hfires]
  unfold Calls.due
  cases hp : h.prev with
  | none =>
    obtain ⟨-, hexp, hseen⟩ := hI.first hp
    have hzero : h.dataTime = 0 := by rw [Calls.dataTime, hseen]
    simp only [hexp, hzero, decide_eq_true_eq]
    omega
  | some p =>
    simp only [decide_eq_decide]
    rcases hI.call p hp with ⟨rfl, hexp⟩ | ⟨hexp, hpast, hle⟩
    · rcases hdata with ⟨hz, hd⟩ | ⟨hpos, hd⟩
      · rw [if_pos hz] at hclock
        omega
      · rw [if_neg (by omega)] at hclock
        omega
    · rcases hdata with ⟨hz, hd⟩ | ⟨hpos, hd⟩
      · omega
      · rw [if_neg (by omega)] at hclock
        omega

theorem Inv.fires_first (hI : Inv S clock t h) (hti : 0 < S.tickerInterval) (ha : t.alive = true)
    (hp : h.prev = none) : t.fires S = true := by
  have hexp := (hI.first hp).2.1
  have hne : (S.tickerInterval != 0) = true := by simp only [bne_iff_ne]; omega
  rw [Thread.fires, ha, hne, hexp]
  simp

/-- A call that is made after the first message is made at the data time. -/
theorem Inv.fires_time (hI : Inv S clock t h) (hti : 0 < S.tickerInterval) (hs : h.seen ≠ none)
    (hf : t.fires S = true) : h.dataTime = t.currentT ∧
      ((origin S clock + S.tickerInterval : Nat) : Int) ≤ h.dataTime := by
  have hclock := hI.currentT
  have hdata := hI.dataTime
  have hge : t.currentT ≥ t.tickerExpires := by
    simp only [Thread.fires, Bool.and_eq_true, decide_eq_true_eq] at hf
    exact hf.2
  cases hp : h.prev with
  | none => exact absurd (hI.first hp).2.2 hs
  | some p =>
    have hcall := hI.call p hp
    rcases hdata with ⟨hz, hd⟩ | ⟨hpos, hd⟩
    · rw [if_pos hz] at hclock
      omega
    · rw [if_neg (by omega)] at hclock
      omega

theorem Inv.message (hI : Inv S clock t h) (hti : 0 < S.tickerInterval) {ts : Int}
    (hp : h.prev ≠ none) (hc : clocks t' = clocks (t.see ts)) : Inv S clock t' (h.message ts) := by
  have hclock := hI.currentT
  have hseen := hI.seen
  have hcall := hI.call
  have hdata := hI.dataTime
  simp only [clocks, Prod.mk.injEq] at hc
  obtain ⟨h1, h2, h3⟩ := hc
  -- the greatest of the timestamps and zero
  have hns : (t'.cliNs : Int) = max (t.cliNs : Int) ts := by
    rw [h2]
    unfold Thread.see
    split
    · simp only
      omega
    · omega
  have hexp : t'.tickerExpires = t.tickerExpires := by
    rw [h3]
    unfold Thread.see
    split <;> rfl
  have hcur : t'.currentT = if t'.cliNs = 0 then origin S clock else Thread.seconds t'.cliNs := by
    rw [h1, h2]
    unfold Thread.see
    split
    · simp only
      rw [if_neg (by omega)]
    · exact hclock
  have hseen' : (t'.cliNs : Int) = match (h.message ts).seen with
      | none => 0
      | some ns => max 0 ns := by
    rw [hns]
    unfold Calls.message
    cases hs : h.seen with
    | none =>
      rw [hs] at hseen
      simp only at hseen ⊢
      omega
    | some ns =>
      rw [hs] at hseen
      simp only at hseen ⊢
      omega
  refine ⟨hcur, hseen', fun hn => absurd hn hp, fun p hpp => ?_⟩
  rw [hexp]
  rcases hcall p hpp with hA | ⟨hB, hpast, hle⟩
  · exact .inl hA
  · refine .inr ⟨hB, hpast, hle.trans ?_⟩
    unfold Calls.dataTime Calls.message at *
    cases hs : h.seen with
    | none =>
      rw [hs] at hle
      simp only at hle
      omega
    | some ns =>
      simp only
      omega

theorem Inv.decide (hI : Inv S clock t h) (hti : 0 < S.tickerInterval) (ha : t.alive = true)
    (hc : clocks t' = clocks (t.timer S)) (time : Nat) :
    Inv S clock t' (h.decide S.tickerInterval (t.fires S) time) := by
  have hclock := hI.currentT
  have hdata := hI.dataTime
  simp only [clocks, Prod.mk.injEq] at hc
  obtain ⟨h1, h2, h3⟩ := hc
  have hsame : (t.timer S).currentT = t.currentT ∧ (t.timer S).cliNs = t.cliNs := by
    unfold Thread.timer
    split <;> exact ⟨rfl, rfl⟩
  rw [hsame.1] at h1
  rw [hsame.2] at h2
  have hseen : (t'.cliNs : Int) = match (h.decide S.tickerInterval (t.fires S) time).seen with
      | none => 0
      | some ns => max 0 ns := by
    rw [h2]
    exact hI.seen
  have hcur : t'.currentT = if t'.cliNs = 0 then origin S clock else Thread.seconds t'.cliNs := by
    rw [h1, h2]
    exact hclock
  have hprev : (h.decide S.tickerInterval (t.fires S) time).prev =
      if t.fires S then some h.dataTime else h.prev := rfl
  have hexp : t'.tickerExpires =
      if t.fires S then t.currentT + S.tickerInterval else t.tickerExpires := by
    rw [h3]
    unfold Thread.timer
    split <;> rfl
  cases hf : t.fires S with
  | false =>
    rw [hf] at hprev hexp hseen
    refine ⟨hcur, hseen, fun hn => ?_, fun p hp => ?_⟩
    · have := hI.fires_first hti ha (hprev.symm.trans hn)
      rw [hf] at this
      cases this
    · rw [hexp]
      exact hI.call p (hprev.symm.trans hp)
  | true =>
    rw [hf] at hprev hexp hseen
    refine ⟨hcur, hseen, fun hn => (by cases hprev.symm.trans hn), fun p hp => ?_⟩
    cases hprev.symm.trans hp
    rw [hexp]
    change _ ∨ _ ∧ _ ∧ h.dataTime ≤ h.dataTime
    simp only [if_true]
    cases hs : h.seen with
    | none =>
      have hz : t.cliNs = 0 := by
        have := hI.seen
        rw [hs] at this
        simp only at this
        omega
      rw [if_pos hz] at hclock
      rw [hclock]
      exact .inl ⟨by rw [Calls.dataTime, hs], rfl⟩
    | some ns =>
      have hne : h.seen ≠ none := by rw [hs]; simp
      obtain ⟨hd, hpast⟩ := hI.fires_time hti hne hf
      exact .inr ⟨by rw [hd]; push_cast; rfl, hpast, le_rfl⟩

theorem fires_congr {a b : Thread} (hc : clocks a = clocks b) (ha : a.alive = b.alive) :
    a.fires S = b.fires S := by
  simp only [clocks, Prod.mk.injEq] at hc
  rw [Thread.fires, Thread.fires, hc.1, hc.2.2, ha]

theorem timer_congr {a b : Thread} (hc : clocks a = clocks b) (ha : a.alive = b.alive) :
    clocks (a.timer S) = clocks (b.timer S) := by
  have hf := fires_congr (S := S) hc ha
  simp only [clocks, Prod.mk.injEq] at hc
  unfold Thread.timer
  rw [hf]
  split <;> simp only [clocks, hc]

theorem Inv.step_cases (hI : Inv S clock t h) (hs : CliThread.step S t e = some t') :
    (∃ ts, picked S t e = some ts ∧ clocks t' = clocks (t.see ts)) ∨
    picked S t e = none ∧ (decision S t e = none ∧ clocks t' = clocks t ∨
      t.alive = true ∧ decision S t e = some (t.fires S, t.currentT) ∧
        clocks t' = clocks (t.timer S)) := by
  rcases step_clocks hs with hp | ⟨hp, t₀, ht₀, hd⟩
  · exact .inl hp
  · have hsame : clocks t₀ = clocks t ∧ t₀.alive = t.alive := by
      rcases ht₀ with rfl | rfl
      · exact ⟨rfl, rfl⟩
      · exact ⟨hI.idleClock, Thread.alive_idleClock⟩
    refine .inr ⟨hp, ?_⟩
    rcases hd with ⟨hd, hc⟩ | ⟨ha, hd, hc⟩
    · exact .inl ⟨hd, hc.trans hsame.1⟩
    · refine .inr ⟨ha, ?_, hc.trans (timer_congr hsame.1 hsame.2)⟩
      have htime : t₀.currentT = t.currentT := by
        have := hsame.1
        simp only [clocks, Prod.mk.injEq] at this
        exact this.1
      rw [hd, fires_congr hsame.1 hsame.2, htime]

end

/-! ## Runs -/

section

variable {S : Setup} {clock : Nat} {s s' : State} {e : Event}

theorem start_inv (S : Setup) (clock : Nat) : Inv S clock (start S clock).1 (start S clock).2 :=
  ⟨rfl, rfl, fun _ => ⟨first_init S clock, rfl, rfl⟩, fun p hp => (by cases hp)⟩

theorem step_inv (hti : 0 < S.tickerInterval) (hI : Inv S clock s.1 s.2)
    (h : step S s e = some s') : Inv S clock s'.1 s'.2 := by
  obtain ⟨hs, hl⟩ := Runs.observe_some.mp h
  rw [hl]
  unfold see
  rcases hI.step_cases hs with ⟨ts, hp, hc⟩ | ⟨hp, ⟨hd, hc⟩ | ⟨ha, hd, hc⟩⟩
  · rw [hp]
    refine hI.message hti (fun hn => ?_) hc
    have hpick := ((hI.first hn).1.step hs).1
    rw [hp] at hpick
    cases hpick
  · rw [hp, hd]
    exact hI.of_clocks hc fun hn => ((hI.first hn).1.step hs).2 hd
  · rw [hp, hd]
    exact hI.decide hti ha hc _

theorem step_safe (hti : 0 < S.tickerInterval) (hI : Inv S clock s.1 s.2) (hS : Safe s)
    (h : step S s e = some s') : Safe s' ↔ Admits S clock s e := by
  obtain ⟨hs, hl⟩ := Runs.observe_some.mp h
  unfold Safe Admits at *
  rw [hl]
  unfold see
  rcases hI.step_cases hs with ⟨ts, hp, -⟩ | ⟨hp, ⟨hd, -⟩ | ⟨ha, hd, -⟩⟩
  · have hd : decision S s.1 e = none := by
      cases e with
      | choose fatal =>
        have ho : s.1.oldest S ≠ none := by
          intro ho
          simp only [picked, ho] at hp
          cases hp
        exact if_neg fun h => ho h.1
      | stop | arrive | head | poll | openNext => rfl
      | answer => cases hp
    rw [hp, hd]
    exact ⟨fun _ h => absurd rfl h, fun _ => hS⟩
  · rw [hp, hd]
    exact ⟨fun _ h => absurd rfl h, fun _ => hS⟩
  · rw [hp, hd]
    have hiff := hI.fires_iff hti ha
    simp only [Calls.decide, hS, Bool.true_and, beq_iff_eq, hiff]
    exact ⟨fun h _ => by exact_mod_cast h, fun h => by exact_mod_cast h (by simp)⟩

theorem follows_data (hti : 0 < S.tickerInterval) (clock : Nat) (es : List Event) :
    Runs.Always (step S) Safe (start S clock) es ↔
      Runs.Meets (step S) (Admits S clock) (start S clock) es :=
  Runs.always_iff_meets (I := fun s => Inv S clock s.1 s.2) (fun _ _ _ hI h => step_inv hti hI h)
    (fun _ _ _ hI hS h => step_safe hti hI hS h) (start_inv S clock) (by rfl) es

end

/-! ## Two clocks -/

/-- The same thread with another clock. -/
def retime (t : Thread) (a b : Nat) : Thread := { t with currentT := a, tickerExpires := b }

section

variable {S : Setup} {t u : Thread} {a b : Nat}

theorem timer_retime (t : Thread) (a b : Nat) :
    ∃ a' b', (retime t a b).timer S = retime (t.timer S) a' b' := by
  refine ⟨((retime t a b).timer S).currentT, ((retime t a b).timer S).tickerExpires, ?_⟩
  unfold Thread.timer
  split <;> split <;> rfl

theorem terminate_retime (t : Thread) (a b : Nat) :
    (retime t a b).terminate S = retime (t.terminate S) a b := by
  unfold Thread.terminate
  split <;> rfl

theorem idleClock_retime (t : Thread) (a b : Nat) :
    ∃ a' b', (retime t a b).idleClock S = retime (t.idleClock S) a' b' := by
  refine ⟨((retime t a b).idleClock S).currentT, b, ?_⟩
  unfold Thread.idleClock
  split <;> rfl

theorem head_retime (t : Thread) (a b : Nat) : (retime t a b).head = retime t.head a b := by
  have hcond : ((retime t a b).localStop && ((retime t a b).side .input).stopped &&
      ((retime t a b).side .analysis).stopped) =
      (t.localStop && (t.side .input).stopped && (t.side .analysis).stopped) := rfl
  unfold Thread.head
  rw [hcond]
  split <;> rfl

theorem leave_retime (t : Thread) (a b : Nat) (q : Queue) (s : Side) (o : Outcome) :
    (retime t a b).leave q s o = retime (t.leave q s o) a b := by
  cases o <;> rfl

theorem poll_retime (t : Thread) (a b n : Nat) (q : Queue) :
    (retime t a b).poll S n q = retime (t.poll S n q) a b := by
  unfold Thread.poll
  split
  · exact leave_retime t a b _ _ _
  · rfl

theorem see_retime (t : Thread) (a b : Nat) (ts : Int) :
    ∃ a' b', (retime t a b).see ts = retime (t.see ts) a' b' := by
  refine ⟨((retime t a b).see ts).currentT, b, ?_⟩
  unfold Thread.see
  by_cases h : ts > t.cliNs
  · rw [if_pos h, if_pos (by exact h)]
    rfl
  · rw [if_neg h, if_neg (by exact h)]
    rfl

theorem idle_retime (fatal : Bool)
    (hf : ((retime t a b).idleClock S).fires S = (t.idleClock S).fires S) :
    ∃ a' b', (retime t a b).idle S fatal = retime (t.idle S fatal) a' b' := by
  obtain ⟨a₁, b₁, h₁⟩ := idleClock_retime (S := S) t a b
  obtain ⟨a₂, b₂, h₂⟩ := timer_retime (S := S) (t.idleClock S) a₁ b₁
  rw [h₁] at hf
  refine ⟨a₂, b₂, ?_⟩
  unfold Thread.idle
  simp only [h₁, hf, h₂]
  split
  · exact terminate_retime _ _ _
  · rfl

theorem answer_retime {q : Queue} {pb : List UInt8} {again : Bool} {v : Verdict} {fatal : Bool}
    (hf : t.alive = true → v ≠ .fatal → (retime t a b).fires S = t.fires S) :
    ∃ a' b', (retime t a b).answer S q pb again v fatal =
      retime (t.answer S q pb again v fatal) a' b' := by
  obtain ⟨a₁, b₁, h₁⟩ := timer_retime (S := S) t a b
  have halive : (retime t a b).alive = t.alive := rfl
  unfold Thread.answer
  rw [halive]
  split
  · exact ⟨a, b, rfl⟩
  · rename_i ha
    rw [Bool.not_eq_false] at ha
    split
    · exact ⟨a, b, terminate_retime t a b⟩
    · rename_i hv
      rw [hf ha hv, h₁]
      refine ⟨a₁, b₁, ?_⟩
      split
      · exact terminate_retime _ _ _
      · split <;> rfl

theorem choose_retime {fatal : Bool}
    (hf : ∀ x y, decision S t (.choose fatal) = some x →
      decision S (retime t a b) (.choose fatal) = some y → y.1 = x.1) :
    ∃ a' b', (retime t a b).choose S fatal = retime (t.choose S fatal) a' b' := by
  have hold : (retime t a b).oldest S = t.oldest S := rfl
  unfold Thread.choose
  simp only [decision, hold] at hf ⊢
  cases ho : t.oldest S with
  | some m =>
    obtain ⟨a', b', hsee⟩ := see_retime (t.setSide m.1 { t.side m.1 with held := none }) a b
      (S.timestamp m.2)
    exact ⟨a', b', congrArg (fun x : Thread => { x with pc := .offer m.1 m.2 false }) hsee⟩
  | none =>
    simp only
    by_cases hidle : (t.side .input).bytesRead = 0 ∧ (t.side .analysis).bytesRead = 0
    · rw [if_pos hidle, if_pos (by exact hidle)]
      refine idle_retime fatal ?_
      cases ha : t.alive with
      | true => exact hf _ _ (if_pos ⟨ho, hidle.1, hidle.2, ha⟩) (if_pos ⟨ho, hidle.1, hidle.2, ha⟩)
      | false =>
        have hdead : (t.idleClock S).alive = false := Thread.alive_idleClock.trans ha
        have hdead' : ((retime t a b).idleClock S).alive = false := Thread.alive_idleClock.trans ha
        rw [fires_of_dead hdead, fires_of_dead hdead']
    · rw [if_neg hidle, if_neg (by exact hidle)]
      exact ⟨a, b, rfl⟩

/-- A step depends on the clocks in the calls it makes only. -/
theorem step_retime {e : Event}
    (hf : ∀ x y, decision S t e = some x → decision S (retime t a b) e = some y → y.1 = x.1)
    (h : CliThread.step S t e = some u) :
    ∃ a' b', CliThread.step S (retime t a b) e = some (retime u a' b') := by
  cases e with
  | stop =>
    obtain ⟨hg, rfl⟩ := step_stop.mp h
    exact ⟨a, b, step_stop.mpr ⟨hg, rfl⟩⟩
  | arrive q e =>
    obtain ⟨hg, rfl⟩ := step_arrive.mp h
    exact ⟨a, b, step_arrive.mpr ⟨hg, rfl⟩⟩
  | head =>
    obtain ⟨hpc, rfl⟩ := step_head.mp h
    exact ⟨a, b, step_head.mpr ⟨hpc, (head_retime t a b).symm⟩⟩
  | poll n =>
    obtain ⟨q, hpc, rfl⟩ := step_poll.mp h
    exact ⟨a, b, step_poll.mpr ⟨q, hpc, (poll_retime t a b n q).symm⟩⟩
  | openNext =>
    obtain ⟨q, hpc, rfl⟩ := step_openNext.mp h
    exact ⟨a, b, step_openNext.mpr ⟨q, hpc, (leave_retime t a b _ _ _).symm⟩⟩
  | choose fatal =>
    obtain ⟨hpc, rfl⟩ := step_choose.mp h
    obtain ⟨a', b', hc⟩ := choose_retime hf
    exact ⟨a', b', step_choose.mpr ⟨hpc, hc.symm⟩⟩
  | answer v fatal =>
    obtain ⟨q, pb, again, hpc, rfl⟩ := step_answer.mp h
    have hfires : t.alive = true → v ≠ .fatal → (retime t a b).fires S = t.fires S :=
      fun ha hv => hf _ _ (if_pos ⟨ha, hv⟩) (if_pos ⟨ha, hv⟩)
    obtain ⟨a', b', ha⟩ := answer_retime hfires
    exact ⟨a', b', step_answer.mpr ⟨q, pb, again, hpc, ha.symm⟩⟩

/-- An enabled event is so with any clock. -/
theorem enabled_retime {e : Event} (h : CliThread.step S t e = some u) (a b : Nat) :
    ∃ u', CliThread.step S (retime t a b) e = some u' := by
  cases e with
  | stop => exact ⟨_, step_stop.mpr ⟨(step_stop.mp h).1, rfl⟩⟩
  | arrive q e => exact ⟨_, step_arrive.mpr ⟨(step_arrive.mp h).1, rfl⟩⟩
  | head => exact ⟨_, step_head.mpr ⟨(step_head.mp h).1, rfl⟩⟩
  | poll n =>
    obtain ⟨q, hpc, -⟩ := step_poll.mp h
    exact ⟨_, step_poll.mpr ⟨q, hpc, rfl⟩⟩
  | openNext =>
    obtain ⟨q, hpc, -⟩ := step_openNext.mp h
    exact ⟨_, step_openNext.mpr ⟨q, hpc, rfl⟩⟩
  | choose fatal => exact ⟨_, step_choose.mpr ⟨(step_choose.mp h).1, rfl⟩⟩
  | answer v fatal =>
    obtain ⟨q, pb, again, hpc, -⟩ := step_answer.mp h
    exact ⟨_, step_answer.mpr ⟨q, pb, again, hpc, rfl⟩⟩

end

/-- Two runs at the same point. -/
structure Alike (s s' : State) : Prop where
  thread : ∃ a b, s'.1 = retime s.1 a b
  prev : s'.2.prev = s.2.prev
  seen : s'.2.seen = s.2.seen
  calls : s'.2.calls = s.2.calls

section

variable {S : Setup} {clock clock' : Nat} {s s' u u' : State} {e : Event}

theorem Alike.symm (hA : Alike s s') : Alike s' s := by
  obtain ⟨a, b, ht⟩ := hA.thread
  exact ⟨⟨s.1.currentT, s.1.tickerExpires, by rw [ht]; rfl⟩, hA.prev.symm, hA.seen.symm,
    hA.calls.symm⟩

theorem Alike.enabled (hA : Alike s s') (h : step S s e = some u) : ∃ u', step S s' e = some u' := by
  obtain ⟨a, b, ht⟩ := hA.thread
  obtain ⟨v, hv⟩ := enabled_retime (Runs.observe_some.mp h).1 a b
  rw [← ht] at hv
  exact ⟨(v, see S s'.1 s'.2 e), Runs.observe_some.mpr ⟨hv, rfl⟩⟩

theorem Alike.picked (hA : Alike s s') (e : Event) : picked S s'.1 e = picked S s.1 e := by
  obtain ⟨a, b, ht⟩ := hA.thread
  rw [ht]
  cases e <;> rfl

theorem Alike.decision_none (hA : Alike s s') (h : decision S s.1 e = none) :
    decision S s'.1 e = none := by
  obtain ⟨a, b, ht⟩ := hA.thread
  rw [ht]
  cases e with
  | stop | arrive | head | poll | openNext => rfl
  | choose | answer =>
    simp only [decision, ite_eq_right_iff, reduceCtorEq, imp_false] at h ⊢
    exact h

/-- Where a call is decided on, it is made when it is due. -/
theorem decided (hI : Inv S clock s.1 s.2) (h : CliTimer.step S s e = some u) (hu : Safe u)
    {x : Bool × Nat} (hd : decision S s.1 e = some x) :
    x = (s.1.fires S, s.1.currentT) ∧ s.1.fires S = s.2.due S.tickerInterval ∧
      u.2 = s.2.decide S.tickerInterval (s.1.fires S) s.1.currentT := by
  obtain ⟨hs, hl⟩ := Runs.observe_some.mp h
  rcases hI.step_cases hs with ⟨ts, hp, -⟩ | ⟨hp, ⟨hn, -⟩ | ⟨-, hd', -⟩⟩
  · cases e with
    | choose fatal =>
      have ho : s.1.oldest S = none := by
        by_contra ho
        rw [decision, if_neg fun h => ho h.1] at hd
        cases hd
      rw [CliTimer.picked, ho] at hp
      cases hp
    | stop | arrive | head | poll | openNext => cases hd
    | answer => cases hp
  · rw [hn] at hd
    cases hd
  · rw [hd'] at hd
    cases hd
    unfold see at hl
    rw [hp, hd'] at hl
    refine ⟨rfl, ?_, hl⟩
    unfold Safe at hu
    rw [hl] at hu
    simp only [Calls.decide, Bool.and_eq_true, beq_iff_eq] at hu
    exact hu.2

/-- Where both runs make their calls as they are due, they make the same. -/
theorem Alike.step (hti : 0 < S.tickerInterval) (hI : Inv S clock s.1 s.2)
    (hI' : Inv S clock' s'.1 s'.2) (hA : Alike s s') (h : CliTimer.step S s e = some u)
    (h' : CliTimer.step S s' e = some u') (hu : Safe u) (hu' : Safe u') : Alike u u' := by
  obtain ⟨hs, hl⟩ := Runs.observe_some.mp h
  obtain ⟨hs', hl'⟩ := Runs.observe_some.mp h'
  have htime : s'.2.dataTime = s.2.dataTime := by rw [Calls.dataTime, Calls.dataTime, hA.seen]
  have hdue : s'.2.due S.tickerInterval = s.2.due S.tickerInterval := by
    rw [Calls.due, Calls.due, hA.prev, htime]
  have hflag : ∀ x y, decision S s.1 e = some x → decision S s'.1 e = some y → y.1 = x.1 := by
    intro x y hx hy
    obtain ⟨hx, hfx, -⟩ := decided hI h hu hx
    obtain ⟨hy, hfy, -⟩ := decided hI' h' hu' hy
    rw [hx, hy]
    exact hfy.trans (hdue.trans hfx.symm)
  have hthread : ∃ a b, u'.1 = retime u.1 a b := by
    obtain ⟨a, b, ht⟩ := hA.thread
    rw [ht] at hflag hs'
    obtain ⟨a', b', hr⟩ := step_retime hflag hs
    exact ⟨a', b', Option.some.inj (hs'.symm.trans hr)⟩
  have hpick := hA.picked (S := S) e
  rcases hI.step_cases hs with ⟨ts, hp, -⟩ | ⟨hp, ⟨hn, -⟩ | ⟨-, hd, -⟩⟩
  · have hl : u.2 = s.2.message ts := by rw [hl, see, hp]
    have hl' : u'.2 = s'.2.message ts := by rw [hl', see, hpick, hp]
    refine ⟨hthread, ?_, ?_, ?_⟩
    · rw [hl, hl']
      exact hA.prev
    · rw [hl, hl']
      simp only [Calls.message, hA.seen]
    · rw [hl, hl']
      exact hA.calls
  · have hl : u.2 = s.2 := by rw [hl, see, hp, hn]
    have hl' : u'.2 = s'.2 := by rw [hl', see, hpick, hp, hA.decision_none hn]
    refine ⟨hthread, ?_, ?_, ?_⟩
    · rw [hl, hl']
      exact hA.prev
    · rw [hl, hl']
      exact hA.seen
    · rw [hl, hl']
      exact hA.calls
  · obtain ⟨y, hd'⟩ : ∃ y, decision S s'.1 e = some y := by
      by_contra hn
      rw [not_exists, ← Option.eq_none_iff_forall_ne_some] at hn
      rw [hA.symm.decision_none hn] at hd
      cases hd
    obtain ⟨-, hf, hl⟩ := decided hI h hu hd
    obtain ⟨-, hf', hl'⟩ := decided hI' h' hu' hd'
    have hff : s'.1.fires S = s.1.fires S := hf'.trans (hdue.trans hf.symm)
    rw [hff] at hl'
    refine ⟨hthread, ?_, ?_, ?_⟩
    · rw [hl, hl']
      simp only [Calls.decide, htime, hA.prev]
    · rw [hl, hl']
      exact hA.seen
    · rw [hl, hl']
      simp only [Calls.decide, hA.seen, hA.calls]
      split
      · rfl
      · rename_i hs
        split
        · rename_i hfire
          have h1 := (hI.fires_time hti hs hfire).1
          have h2 := (hI'.fires_time hti (hA.seen ▸ hs) (hff.trans hfire)).1
          have heq : s'.1.currentT = s.1.currentT := by omega
          rw [heq]
        · rfl

theorem Alike.run (hti : 0 < S.tickerInterval) {es : List Event} (hI : Inv S clock s.1 s.2)
    (hI' : Inv S clock' s'.1 s'.2) (hA : Alike s s') (hs : Runs.Always (CliTimer.step S) Safe s es)
    (hs' : Runs.Always (CliTimer.step S) Safe s' es) :
    (Runs.run (CliTimer.step S) s es).map (fun u => u.2.calls) =
      (Runs.run (CliTimer.step S) s' es).map fun u => u.2.calls := by
  induction es generalizing s s' with
  | nil =>
    simp only [Runs.run, Option.map_some, hA.calls]
  | cons e es ih =>
    cases h : CliTimer.step S s e with
    | none =>
      have h' : CliTimer.step S s' e = none := by
        by_contra hne
        obtain ⟨u', hu'⟩ := Option.ne_none_iff_exists'.mp hne
        obtain ⟨u, hu⟩ := hA.symm.enabled hu'
        rw [h] at hu
        cases hu
      simp only [Runs.run, h, h']
    | some u =>
      obtain ⟨u', h'⟩ := hA.enabled h
      have hu := hs.2 u h
      have hu' := hs'.2 u' h'
      simp only [Runs.run, h, h']
      exact ih (step_inv hti hI h) (step_inv hti hI' h')
        (hA.step hti hI hI' h h' hu.head hu'.head) hu hu'

end

/-- A run with two clocks: calls are made where they are due in both, and they are the same. -/
def Follows (S : Setup) (clock clock' : Nat) (es : List Event) : Prop :=
  Runs.Always (step S) Safe (start S clock) es ∧ Runs.Always (step S) Safe (start S clock') es ∧
    (Runs.run (step S) (start S clock) es).map (fun u => u.2.calls) =
      (Runs.run (step S) (start S clock') es).map fun u => u.2.calls

theorem timers_iff (S : Setup) (hti : 0 < S.tickerInterval) (clock clock' : Nat) (es : List Event) :
    Follows S clock clock' es ↔
      Runs.Meets (step S) (Admits S clock) (start S clock) es ∧
        Runs.Meets (step S) (Admits S clock') (start S clock') es := by
  rw [← follows_data hti clock es, ← follows_data hti clock' es]
  refine ⟨fun h => ⟨h.1, h.2.1⟩, fun h => ⟨h.1, h.2, ?_⟩⟩
  exact Alike.run hti (start_inv S clock) (start_inv S clock')
    ⟨⟨origin S clock', 0, rfl⟩, rfl, rfl, rfl⟩ h.1 h.2

/-! ## Old data -/

instance (s : State) : Decidable (Safe s) := inferInstanceAs (Decidable (_ = true))

instance (S : Setup) (clock : Nat) (s : State) (e : Event) : Decidable (Admits S clock s e) :=
  inferInstanceAs (Decidable (_ → _ → _))

/-- One message at 100 s for an output plugin with an interval of a minute. -/
def oldData : Setup where
  kind := .output
  readQueue := .input
  single := single_output .input
  outputSize := 100
  tickerInterval := 60
  lib := ReaderResume.smallLib
  timestamp _ := 100000000000
  content
    | .input => ⟨[0], fun _ => ReaderResume.smallLib.frames [[1]]⟩
    | .analysis => ⟨[], fun _ => []⟩
  start _ := ⟨0, 0⟩

/-- The idle first turn, the turn that reads the file, and the one that offers the message. -/
def oldRun : List Event :=
  [.arrive .input ⟨0, 6⟩, .head, .poll 0, .poll 0, .choose false, .head, .poll 99, .poll 0,
    .choose false, .head, .poll 0, .poll 0, .choose false, .answer .final false]

/-- A clock that is not far on does no harm. -/
theorem timers_iff_old : Follows oldData 0 40 oldRun :=
  (timers_iff oldData (by decide) 0 40 oldRun).mpr ⟨by decide, by decide⟩

/-- When the clock is past the data, the first call of an output plugin puts off those that follow. -/
theorem timers_differ :
    ¬∀ S clock clock' es, 0 < S.tickerInterval → Follows S clock clock' es := by
  intro h
  have hcalls := (h oldData 0 1000 oldRun (by decide)).2.2
  revert hcalls
  decide

end CliTimer

end Hindsight
