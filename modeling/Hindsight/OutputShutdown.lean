import Hindsight.Lib.Run

/-!
# Hindsight.OutputShutdown

`list_lock` between the main thread and the threads of the output plugins. The main thread holds it
in the pass of `output_stats`, in `hs_stop_output_plugins`, and in `remove_from_output_plugins` and
`hs_wait_output_plugins` while it joins a thread it has taken off the list. A plugin thread that
leaves its loop on a fatal error takes it to leave the list, unless its copy of `stop` says that it
is being stopped.

* `Safe`: the main thread does not wait for a thread that waits for `list_lock`.
* `Admits`: a thread that is taken off the list by the main thread has not left its loop for
  `list_lock`, and does not do so afterwards.
* `shutdown_safe`: a run keeps `Safe` if all its steps are admitted, and from a step that is not
  admitted on `Safe` can be lost.
-/

namespace Hindsight

namespace OutputShutdown

/-- Where a plugin thread is: at the head of its loop, processing a message, sleeping before the
message is offered again, on its way to `list_lock`, waiting for it, gone. -/
inductive ThreadPc where
  | head
  | body
  | retry
  | detaching
  | locking
  | exited
  deriving DecidableEq, Repr

/-- What `output_message` returns. -/
inductive Ret where
  | done
  | retry
  | fatal
  deriving DecidableEq, Repr

/-- `localStop` is the copy of `stop` the thread made last. -/
structure Thread where
  listIndex : Nat
  stop : Bool
  localStop : Bool
  pc : ThreadPc
  deriving DecidableEq, Repr

/-- Where the main thread is; it holds `list_lock` everywhere but in `idle`. `removeStop` and
`removeJoin` are in `remove_plugin`, `waitJoin` is the join of `hs_wait_output_plugins`. -/
inductive MainPc where
  | idle
  | stats
  | stopAll (i : Nat)
  | waitAll (i : Nat)
  | waitJoin (i t : Nat)
  | removeStop (t : Nat)
  | removeJoin (t : Nat)
  deriving DecidableEq, Repr

structure System where
  list : Nat → Option Nat
  listCap : Nat
  thread : Nat → Option Thread
  main : MainPc

inductive Event where
  | head (t : Nat)
  | message (t : Nat) (ret : Ret)
  | arrive (t : Nat)
  | detach (t : Nat)
  | load (t i : Nat)
  | stats
  | stopAll
  | waitAll
  | remove (i : Nat)
  | main
  deriving DecidableEq, Repr

namespace Thread

/-- The test of the loop, and the copy of `stop` at its top. A stopped thread ends without the
lock. -/
def head (p : Thread) : Option Thread :=
  if p.pc = .head then
    if p.localStop then some { p with pc := .exited }
    else some { p with localStop := p.stop, pc := .body }
  else none

/-- `output_message` returns, for the first offer of a message or for a later one. The retry loop
reads `stop` again after each later offer. -/
def message (p : Thread) (ret : Ret) : Option Thread :=
  if p.pc = .body ∨ p.pc = .retry then
    let stop := if p.pc = .retry ∧ ret = .retry then p.stop else p.localStop
    match ret with
    | .done => some { p with pc := .head }
    | .fatal => some { p with pc := if p.localStop then .exited else .detaching }
    | .retry => some { p with localStop := stop, pc := if stop then .head else .retry }
  else none

end Thread

namespace System

def setThread (s : System) (t : Nat) (p : Thread) : System :=
  { s with thread := Function.update s.thread t (some p) }

/-- The next step of the main thread in one of its critical sections. A join returns when the thread
has ended. -/
def mainStep (s : System) : Option System :=
  match s.main with
  | .idle => none
  | .stats => some { s with main := .idle }
  | .stopAll i =>
    if i < s.listCap then
      match s.list i with
      | some t =>
        some { s with
          thread := Function.update s.thread t
            ((s.thread t).map fun p => { p with stop := true })
          main := .stopAll (i + 1) }
      | none => some { s with main := .stopAll (i + 1) }
    else some { s with main := .idle }
  | .waitAll i =>
    if i < s.listCap then
      match s.list i with
      | some t => some { s with list := Function.update s.list i none, main := .waitJoin i t }
      | none => some { s with main := .waitAll (i + 1) }
    else some { s with main := .idle }
  | .waitJoin i t =>
    if (s.thread t).all fun p => p.pc = .exited then some { s with main := .waitAll (i + 1) }
    else none
  | .removeStop t =>
    some { s with
      thread := Function.update s.thread t ((s.thread t).map fun p => { p with stop := true })
      main := .removeJoin t }
  | .removeJoin t =>
    if (s.thread t).all fun p => p.pc = .exited then some { s with main := .idle } else none

def step (s : System) : Event → Option System
  | .head t => (s.thread t).bind fun p => p.head.map (s.setThread t)
  | .message t ret => (s.thread t).bind fun p => (p.message ret).map (s.setThread t)
  | .arrive t =>
    (s.thread t).bind fun p =>
      if p.pc = .detaching then some (s.setThread t { p with pc := .locking }) else none
  | .detach t =>
    (s.thread t).bind fun p =>
      if p.pc = .locking ∧ s.main = .idle then
        some { s.setThread t { p with pc := .exited } with
          list := Function.update s.list p.listIndex none }
      else none
  | .load t i =>
    if s.main = .idle ∧ s.thread t = none ∧ i ≤ s.listCap ∧ s.list i = none ∧
        ∀ j < i, s.list j ≠ none then
      some { s.setThread t ⟨i, false, false, .head⟩ with
        list := Function.update s.list i (some t)
        listCap := max s.listCap (i + 1) }
    else none
  | .stats => if s.main = .idle then some { s with main := .stats } else none
  | .stopAll => if s.main = .idle then some { s with main := .stopAll 0 } else none
  | .waitAll => if s.main = .idle then some { s with main := .waitAll 0 } else none
  | .remove i =>
    if s.main = .idle then
      (s.list i).map fun t =>
        { s with list := Function.update s.list i none, main := .removeStop t }
    else none
  | .main => s.mainStep

def start : System := ⟨fun _ => none, 0, fun _ => none, .idle⟩

end System

/-- The main thread has taken the plugin of thread `t` off the list and does not go on without
it. -/
def Taken (s : System) (t : Nat) : Prop :=
  (∃ i, s.main = .waitJoin i t) ∨ s.main = .removeStop t ∨ s.main = .removeJoin t

/-- The main thread waits for thread `t`, with `list_lock` in its hands. -/
def Joins (s : System) (t : Nat) : Prop := (∃ i, s.main = .waitJoin i t) ∨ s.main = .removeJoin t

/-- The thread has left its loop for `list_lock`. -/
def Leaving (p : Thread) : Prop := p.pc = .detaching ∨ p.pc = .locking

def Safe (s : System) : Prop :=
  ∀ t, Joins s t → ∀ p ∈ s.thread t, p.pc ≠ .locking

/-- No thread leaves its loop for `list_lock` when the main thread has taken its plugin off the list,
and the main thread takes no plugin off the list whose thread has done so before. -/
def Admits (s : System) : Event → Prop
  | .message t .fatal => Taken s t → ∀ p ∈ s.thread t, p.localStop = true
  | .remove i => ∀ t ∈ s.list i, ∀ p ∈ s.thread t, ¬Leaving p
  | .main => ∀ i, s.main = .waitAll i → i < s.listCap → ∀ t ∈ s.list i, ∀ p ∈ s.thread t, ¬Leaving p
  | _ => True

/-- No thread the main thread has taken off the list is on its way to `list_lock`. -/
def Inv (s : System) : Prop := ∀ t, Taken s t → ∀ p ∈ s.thread t, ¬Leaving p

theorem Inv.safe {s : System} (hI : Inv s) : Safe s := by
  intro t hj p hp hpc
  refine hI t ?_ p hp (.inr hpc)
  rcases hj with h | h
  · exact .inl h
  · exact .inr (.inr h)

section

variable {s s' : System} {t : Nat} {p p' : Thread}

theorem setThread_inv (hI : Inv s) (hp : Taken s t → ¬Leaving p') : Inv (s.setThread t p') := by
  intro u hu x hx
  have hu : Taken s u := hu
  have hx : Function.update s.thread t (some p') u = some x := hx
  by_cases hut : u = t
  · subst hut
    rw [Function.update_self] at hx
    cases hx
    exact hp hu
  · rw [Function.update_of_ne hut] at hx
    exact hI u hu x hx

/-- Setting `stop` leaves every thread where it is. -/
theorem inv_stop (hI : Inv s) {main : MainPc} (htaken : ∀ u, Taken { s with main := main } u →
    Taken s u) : Inv { s with
      thread := Function.update s.thread t ((s.thread t).map fun p => { p with stop := true })
      main := main } := by
  intro u hu x hx
  have hx : Function.update s.thread t ((s.thread t).map fun p => { p with stop := true }) u =
    some x := hx
  by_cases hut : u = t
  · subst hut
    rw [Function.update_self, Option.map_eq_some_iff] at hx
    obtain ⟨y, hy, rfl⟩ := hx
    exact hI u (htaken u hu) y hy
  · rw [Function.update_of_ne hut] at hx
    exact hI u (htaken u hu) x hx

theorem not_taken {main : MainPc} (h : s.main = main) (hj : ∀ i t, main ≠ .waitJoin i t)
    (hs : ∀ t, main ≠ .removeStop t) (hr : ∀ t, main ≠ .removeJoin t) (u : Nat) : ¬Taken s u := by
  rintro (⟨i, h'⟩ | h' | h')
  · exact hj i u (h.symm.trans h')
  · exact hs u (h.symm.trans h')
  · exact hr u (h.symm.trans h')

/-- The main thread holds the lock for something else, or not at all. -/
theorem inv_main {main : MainPc} (hj : ∀ i t, main ≠ .waitJoin i t)
    (hs : ∀ t, main ≠ .removeStop t) (hr : ∀ t, main ≠ .removeJoin t) :
    Inv { s with main := main } :=
  fun u hu => absurd hu (not_taken rfl hj hs hr u)

theorem message_cases {ret : Ret} (h : p.message ret = some p') :
    ¬Leaving p' ∨ ret = .fatal ∧ p.localStop = false ∧ p' = { p with pc := .detaching } := by
  simp only [Thread.message] at h
  split at h
  · cases ret with
    | done =>
      cases h
      left
      rintro (h | h) <;> cases h
    | retry =>
      cases h
      left
      have hpc : ∀ b : Bool, (if b = true then ThreadPc.head else .retry) ≠ .detaching ∧
          (if b = true then ThreadPc.head else .retry) ≠ .locking := by decide
      rintro (hl | hl)
      · exact (hpc _).1 hl
      · exact (hpc _).2 hl
    | fatal =>
      cases h
      cases hl : p.localStop with
      | true =>
        left
        rintro (h | h) <;> cases h
      | false => exact .inr ⟨rfl, rfl, rfl⟩
  · cases h

theorem main_inv (hI : Inv s) (hadm : Admits s .main) (h : s.mainStep = some s') : Inv s' := by
  unfold System.mainStep at h
  cases hm : s.main with
  | idle => simp [hm] at h
  | stats =>
    simp only [hm] at h
    cases h
    exact inv_main (by simp) (by simp) (by simp)
  | stopAll i =>
    simp only [hm] at h
    split at h
    · split at h
      · cases h
        exact inv_stop hI fun u hu => absurd hu (not_taken rfl (by simp) (by simp) (by simp) u)
      · cases h
        exact inv_main (by simp) (by simp) (by simp)
    · cases h
      exact inv_main (by simp) (by simp) (by simp)
  | waitAll i =>
    simp only [hm] at h
    split at h
    · rename_i hi
      split at h
      · rename_i t ht
        cases h
        intro u hu x hx
        have hut : u = t := by
          rcases hu with ⟨j, hu⟩ | hu | hu <;> cases hu
          rfl
        subst hut
        exact hadm i hm hi u ht x hx
      · cases h
        exact inv_main (by simp) (by simp) (by simp)
    · cases h
      exact inv_main (by simp) (by simp) (by simp)
  | waitJoin i t =>
    simp only [hm] at h
    split at h
    · cases h
      exact inv_main (by simp) (by simp) (by simp)
    · cases h
  | removeStop t =>
    simp only [hm] at h
    cases h
    refine inv_stop hI fun u hu => ?_
    rcases hu with ⟨j, hu⟩ | hu | hu <;> cases hu
    exact .inr (.inl hm)
  | removeJoin t =>
    simp only [hm] at h
    split at h
    · cases h
      exact inv_main (by simp) (by simp) (by simp)
    · cases h

theorem step_inv {e : Event} (hI : Inv s) (hadm : Admits s e) (h : s.step e = some s') :
    Inv s' := by
  cases e with
  | head t =>
    obtain ⟨p, -, h⟩ := Option.bind_eq_some_iff.mp h
    obtain ⟨p', hp', rfl⟩ := Option.map_eq_some_iff.mp h
    refine setThread_inv hI fun _ hl => ?_
    simp only [Thread.head] at hp'
    split at hp'
    · split at hp' <;> cases hp' <;> rcases hl with hl | hl <;> cases hl
    · cases hp'
  | message t ret =>
    obtain ⟨p, hp, h⟩ := Option.bind_eq_some_iff.mp h
    obtain ⟨p', hp', rfl⟩ := Option.map_eq_some_iff.mp h
    refine setThread_inv hI fun ht => ?_
    rcases message_cases hp' with hl | ⟨rfl, hl, -⟩
    · exact hl
    · have := hadm ht p hp
      rw [hl] at this
      cases this
  | arrive t =>
    obtain ⟨p, hp, h⟩ := Option.bind_eq_some_iff.mp h
    split at h
    · rename_i hpc
      cases h
      exact setThread_inv hI fun ht => absurd (.inl hpc) (hI t ht p hp)
    · cases h
  | detach t =>
    obtain ⟨p, hp, h⟩ := Option.bind_eq_some_iff.mp h
    split at h
    · rename_i hpc
      cases h
      exact fun u hu => absurd hu (not_taken hpc.2 (by simp) (by simp) (by simp) u)
    · cases h
  | load t i =>
    simp only [System.step] at h
    split at h
    · rename_i hm
      cases h
      exact fun u hu => absurd hu (not_taken hm.1 (by simp) (by simp) (by simp) u)
    · cases h
  | stats | stopAll | waitAll =>
    simp only [System.step] at h
    split at h
    · cases h
      exact inv_main (by simp) (by simp) (by simp)
    · cases h
  | remove i =>
    simp only [System.step] at h
    split at h
    · obtain ⟨t, ht, rfl⟩ := Option.map_eq_some_iff.mp h
      intro u hu x hx
      have hut : u = t := by
        rcases hu with ⟨j, hu⟩ | hu | hu <;> cases hu
        rfl
      subst hut
      exact hadm u ht x hx
    · cases h
  | main => exact main_inv hI hadm h

/-! ## What an inadmissible step leads to -/

/-- A thread that wants `list_lock` is not waited for in vain only if it got it in time. -/
theorem deadlock_of_taken (ht : Taken s t) (hp : s.thread t = some p) (hl : Leaving p) :
    ∃ fs u, Runs.run System.step s fs = some u ∧ ¬Safe u := by
  -- the thread gets to the lock
  obtain ⟨s₁, q, es, hrun, hm₁, hq, hpc⟩ : ∃ s₁ q es, Runs.run System.step s es = some s₁ ∧
      s₁.main = s.main ∧ s₁.thread t = some q ∧ q.pc = .locking := by
    rcases hl with hl | hl
    · refine ⟨s.setThread t { p with pc := .locking }, _, [.arrive t], ?_, rfl,
        Function.update_self _ _ _, rfl⟩
      simp [Runs.run, System.step, hp, hl]
    · exact ⟨s, p, [], rfl, rfl, hp, hl⟩
  have hbad : ∀ u : System, Joins u t → (∀ r, u.thread t = some r → r.pc = .locking) →
      u.thread t ≠ none → ¬Safe u := by
    intro u hu hr hne hsafe
    obtain ⟨r, hrt⟩ := Option.ne_none_iff_exists'.mp hne
    exact hsafe t hu r hrt (hr r hrt)
  have hlocking : ∀ r, s₁.thread t = some r → r.pc = .locking := by
    intro r hr
    cases hq.symm.trans hr
    exact hpc
  have hne : s₁.thread t ≠ none := by rw [hq]; simp
  rcases ht with ⟨i, hm⟩ | hm | hm
  · exact ⟨es, s₁, hrun, hbad s₁ (.inl ⟨i, hm₁.trans hm⟩) hlocking hne⟩
  · -- the main thread sets `stop` and goes on to join
    have hstep : s₁.step .main = some { s₁ with
        thread := Function.update s₁.thread t ((s₁.thread t).map fun p => { p with stop := true })
        main := .removeJoin t } := by
      simp only [System.step, System.mainStep, hm₁, hm]
    have hrun' : Runs.run System.step s (es ++ [.main]) = s₁.step .main := by
      rw [Runs.run_append, hrun]
      simp only [Option.bind_some, Runs.run, hstep]
    refine ⟨es ++ [.main], _, hrun'.trans hstep, hbad _ (.inr rfl) (fun r hr => ?_) ?_⟩
    · simp only [Function.update_self, Option.map_eq_some_iff] at hr
      obtain ⟨y, hy, rfl⟩ := hr
      exact hlocking y hy
    · simp [hq]
  · exact ⟨es, s₁, hrun, hbad s₁ (.inr (hm₁.trans hm)) hlocking hne⟩

theorem deadlock_of_step {e : Event} (h : s.step e = some s') (hadm : ¬Admits s e) :
    ∃ fs u, Runs.run System.step s' fs = some u ∧ ¬Safe u := by
  cases e with
  | head | arrive | detach | load | stats | stopAll | waitAll => exact absurd trivial hadm
  | message t ret =>
    cases ret with
    | done | retry => exact absurd trivial hadm
    | fatal =>
      simp only [Admits, not_forall] at hadm
      obtain ⟨ht, p, hp, hl⟩ := hadm
      obtain ⟨q, hq, h⟩ := Option.bind_eq_some_iff.mp h
      cases hp.symm.trans hq
      obtain ⟨p', hp', rfl⟩ := Option.map_eq_some_iff.mp h
      have hpc : p'.pc = .detaching := by
        simp only [Thread.message] at hp'
        split at hp'
        · cases hp'
          rfl
        · cases hp'
      exact deadlock_of_taken (s := s.setThread t p') ht (Function.update_self _ _ _) (.inl hpc)
  | remove i =>
    simp only [Admits, not_forall, not_not] at hadm
    obtain ⟨t, ht, p, hp, hl⟩ := hadm
    simp only [System.step] at h
    split at h
    · rw [show s.list i = some t from ht] at h
      cases h
      exact deadlock_of_taken (.inr (.inl rfl)) hp hl
    · cases h
  | main =>
    simp only [Admits, not_forall, not_not] at hadm
    obtain ⟨i, hm, hi, t, ht, p, hp, hl⟩ := hadm
    simp only [System.step, System.mainStep, hm, if_pos hi, show s.list i = some t from ht] at h
    cases h
    exact deadlock_of_taken (.inl ⟨i, rfl⟩) hp hl

end

theorem start_inv : Inv System.start :=
  fun u hu => absurd hu
    (not_taken (show _ = MainPc.idle from rfl) (by simp) (by simp) (by simp) u)

/-- A run never reaches a state in which the main thread, holding `list_lock`, waits for a thread that
waits for `list_lock`, if all its steps are admitted; and any step that is not admitted can be
followed by steps that lead to such a state. -/
theorem shutdown_safe (es : List Event) :
    (Runs.Meets System.step Admits System.start es → Runs.Always System.step Safe System.start es) ∧
    ∀ s e s', System.step s e = some s' → ¬Admits s e →
      ∃ fs t, Runs.run System.step s' fs = some t ∧ ¬Safe t := by
  refine ⟨fun hm => ?_, fun s e s' h hadm => deadlock_of_step h hadm⟩
  have hall := Runs.always_of_meets (I := Inv) (fun _ _ _ hI hc h => step_inv hI hc h) start_inv hm
  exact hall.mono fun _ hI => hI.safe

/-- One plugin fails and leaves the list; the other is waiting to offer a message again when it is removed,
and its thread is joined. -/
def joinedRun : List Event :=
  [.load 0 0, .load 1 1, .head 0, .message 0 .fatal, .arrive 0, .detach 0, .head 1, .message 1 .retry,
    .remove 1, .main, .message 1 .retry, .head 1, .main]

theorem shutdown_safe_joined :
    Runs.Always System.step Safe System.start joinedRun ∧
      ∃ t, Runs.run System.step System.start joinedRun = some t ∧ t.main = .idle ∧
        t.list 0 = none ∧ t.list 1 = none ∧ t.thread 1 = some ⟨1, true, true, .exited⟩ := by
  refine ⟨(shutdown_safe joinedRun).1 ?_, _, rfl, rfl, rfl, rfl, rfl⟩
  refine .cons rfl trivial (.cons rfl trivial (.cons rfl trivial (.cons rfl ?_ (.cons rfl trivial
    (.cons rfl trivial (.cons rfl trivial (.cons rfl trivial (.cons rfl ?_ (.cons rfl (fun _ h => nomatch h)
      (.cons rfl trivial (.cons rfl trivial (.cons rfl (fun _ h => nomatch h) trivial))))))))))))
  · -- the first plugin fails while nobody joins it
    intro h
    exact absurd h (not_taken (show _ = MainPc.idle from rfl) (by simp) (by simp) (by simp) 0)
  · -- the second is removed while its thread is in its retry loop
    intro t ht p hp
    cases ht
    cases hp
    rintro (h | h) <;> cases h

/-- The plugin fails on a message while the main thread takes it off the list for a reload. -/
def deadlockRun : List Event :=
  [.load 0 0, .head 0, .message 0 .fatal, .arrive 0, .remove 0, .main]

theorem shutdown_unsafe : ¬∀ es, Runs.Always System.step Safe System.start es := by
  intro h
  obtain ⟨t, hrun, hmain, hthread⟩ : ∃ t, Runs.run System.step System.start deadlockRun = some t ∧
      t.main = .removeJoin 0 ∧ t.thread 0 = some ⟨0, true, false, .locking⟩ :=
    ⟨_, rfl, rfl, rfl⟩
  exact (h _).run hrun 0 (.inr hmain) _ hthread rfl

end OutputShutdown

end Hindsight
