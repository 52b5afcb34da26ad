import Hindsight.Lib.Run

/-!
# Locks taken in order

Threads with mutexes that are not recursive, as far as the locks go. A `Code` is the lock footprint of a
piece of a program: critical sections that nest, in sequence, in branches and in loops. Which branch is taken and
how often a loop runs is left to the events. A thread that asks for a taken lock, its own included, cannot move.

* `Ordered`: inside a section only locks of a higher rank are taken.
* `inv_step`: what every thread holds, and has yet to give back, agrees along every run.
* `Inv.exclusive`: two threads never hold one lock.
* `Inv.moves`: with ordered code a thread can move until all are done: the waiting thread that asks for the
  lock of the highest rank asks for one whose holder is not waiting.
* `Inv.drains`: from every state the threads can all be run to their ends, where no lock is held.
-/

namespace Locks

/-- The lock footprint of a piece of code. -/
inductive Code (L : Type*)
  | skip
  | seq (first second : Code L)
  | branch (yes no : Code L)
  | loop (body : Code L)
  | locked (l : L) (body : Code L)
  deriving Repr

namespace Code

variable {L α : Type*}

/-- An `if` without `else`. -/
def maybe (c : Code L) : Code L := .branch c .skip

/-- One after the other. -/
def block : List (Code L) → Code L
  | [] => .skip
  | c :: cs => .seq c (block cs)

/-- For each element in turn. -/
def each (as : List α) (c : α → Code L) : Code L := block (as.map c)

/-- Take a lock and give it back. -/
def touch (l : L) : Code L := .locked l .skip

/-- Sections nest in the order of the rank; `n` is above the rank of every lock that is held. -/
@[simp] def Ordered (rank : L → Nat) : Nat → Code L → Prop
  | _, .skip => True
  | n, .seq a b => a.Ordered rank n ∧ b.Ordered rank n
  | n, .branch a b => a.Ordered rank n ∧ b.Ordered rank n
  | n, .loop a => a.Ordered rank n
  | n, .locked l a => n ≤ rank l ∧ a.Ordered rank (rank l + 1)

/-- The moves that lead through the code with every loop left at once. -/
def length : Code L → Nat
  | .skip => 1
  | .seq a b => 1 + a.length + b.length
  | .branch a b => 1 + a.length + b.length
  | .loop _ => 1
  | .locked _ a => 2 + a.length

variable {rank : L → Nat}

instance decidableOrdered : ∀ (n : Nat) (c : Code L), Decidable (c.Ordered rank n)
  | _, .skip => isTrue trivial
  | n, .seq a b =>
    have := decidableOrdered n a
    have := decidableOrdered n b
    inferInstanceAs (Decidable (a.Ordered rank n ∧ b.Ordered rank n))
  | n, .branch a b =>
    have := decidableOrdered n a
    have := decidableOrdered n b
    inferInstanceAs (Decidable (a.Ordered rank n ∧ b.Ordered rank n))
  | n, .loop a => decidableOrdered n a
  | n, .locked l a =>
    have := decidableOrdered (rank l + 1) a
    inferInstanceAs (Decidable (n ≤ rank l ∧ a.Ordered rank (rank l + 1)))

/-- Code that may run under more locks may run under fewer. -/
theorem Ordered.mono {c : Code L} {n m : Nat} (h : c.Ordered rank n) (hm : m ≤ n) :
    c.Ordered rank m := by
  induction c with
  | skip => trivial
  | seq a b iha ihb => exact ⟨iha h.1, ihb h.2⟩
  | branch a b iha ihb => exact ⟨iha h.1, ihb h.2⟩
  | loop a ih => exact ih h
  | locked l a _ => exact ⟨Nat.le_trans hm h.1, h.2⟩

@[simp] theorem ordered_maybe {n : Nat} {c : Code L} :
    (maybe c).Ordered rank n ↔ c.Ordered rank n := by
  simp [maybe]

@[simp] theorem ordered_block {n : Nat} {cs : List (Code L)} :
    (block cs).Ordered rank n ↔ ∀ c ∈ cs, c.Ordered rank n := by
  induction cs with
  | nil => simp [block]
  | cons c cs ih => simp [block, ih]

@[simp] theorem ordered_each {n : Nat} {as : List α} {c : α → Code L} :
    (each as c).Ordered rank n ↔ ∀ a ∈ as, (c a).Ordered rank n := by
  simp [each]

@[simp] theorem ordered_touch {n : Nat} {l : L} :
    (touch l).Ordered rank n ↔ n ≤ rank l := by
  simp [touch]

end Code

/-- What a thread does next. -/
inductive Task (L : Type*)
  | code (c : Code L)
  | unlock (l : L)
  deriving Repr

/-- A thread: the locks it holds, the last one first, and what it has yet to do. -/
structure Thread (L : Type*) where
  held : List L
  todo : List (Task L)
  deriving Repr

section

variable {ι L : Type*} [DecidableEq ι] [DecidableEq L]

/-- One move of a thread. `free` tells which locks can be taken; `b` chooses at branches and loops. -/
def move (free : L → Bool) (b : Bool) (t : Thread L) : Option (Thread L) :=
  match t.todo with
  | [] => none
  | .code .skip :: k => some { t with todo := k }
  | .code (.seq c d) :: k => some { t with todo := .code c :: .code d :: k }
  | .code (.branch c d) :: k => some { t with todo := .code (if b then c else d) :: k }
  | .code (.loop c) :: k =>
    some { t with todo := if b then .code c :: .code (.loop c) :: k else k }
  | .code (.locked l c) :: k =>
    if free l then some ⟨l :: t.held, .code c :: .unlock l :: k⟩ else none
  | .unlock l :: k => some ⟨t.held.erase l, k⟩

variable [Fintype ι]

/-- No thread holds the lock. -/
def free (s : ι → Thread L) (l : L) : Bool := decide (∀ i, l ∉ (s i).held)

/-- The machine: the thread `e.1` makes a move and chooses `e.2`. -/
def step (s : ι → Thread L) (e : ι × Bool) : Option (ι → Thread L) :=
  (move (free s) e.2 (s e.1)).map (Function.update s e.1)

/-- Each thread before its code. -/
def start (code : ι → Code L) : ι → Thread L := fun i => ⟨[], [.code (code i)]⟩

/-! ## The invariant -/

/-- Above the rank of every lock of the list, when it is in descending order. -/
def above (rank : L → Nat) : List L → Nat
  | [] => 0
  | l :: _ => rank l + 1

/-- What is to be done is ordered under the locks that are held then, and gives all of them back. -/
def Fits (rank : L → Nat) : List L → List (Task L) → Prop
  | held, [] => held = []
  | held, .code c :: k => c.Ordered rank (above rank held) ∧ Fits rank held k
  | held, .unlock l :: k => held.head? = some l ∧ Fits rank held.tail k

/-- A thread in order: it took its locks by rank, and what it has to do fits them. -/
structure Thread.Good (rank : L → Nat) (t : Thread L) : Prop where
  descending : t.held.Pairwise fun l m => rank m < rank l
  fits : Fits rank t.held t.todo

structure Inv (rank : L → Nat) (s : ι → Thread L) : Prop where
  good : ∀ i, (s i).Good rank
  exclusive : ∀ i j l, l ∈ (s i).held → l ∈ (s j).held → i = j

/-- The lock the thread waits for, if its next move is to take one. -/
def Thread.wants (t : Thread L) : Option L :=
  match t.todo with
  | .code (.locked l _) :: _ => some l
  | _ => none

variable {rank : L → Nat} {f : L → Bool} {b : Bool} {t t' : Thread L}

omit [DecidableEq ι] [Fintype ι] [DecidableEq L] in
theorem Thread.Good.lt_above (h : t.Good rank) {l : L} (hl : l ∈ t.held) :
    rank l < above rank t.held := by
  have hd := h.descending
  cases hheld : t.held with
  | nil => simp [hheld] at hl
  | cons m ms =>
    rw [hheld] at hl hd
    rcases List.mem_cons.mp hl with rfl | hm
    · exact Nat.lt_succ_self _
    · exact Nat.lt_succ_of_lt ((List.pairwise_cons.mp hd).1 l hm)

omit [DecidableEq ι] [Fintype ι] [DecidableEq L] in
/-- A lock that is asked for ranks above all that are held. -/
theorem Thread.Good.above_le (h : t.Good rank) {l : L} (hl : t.wants = some l) :
    above rank t.held ≤ rank l := by
  have hf := h.fits
  unfold Thread.wants at hl
  split at hl
  · cases hl
    simp only [*, Fits, Code.Ordered] at hf
    exact hf.1.1
  · cases hl

omit [DecidableEq ι] [Fintype ι] [DecidableEq L] in
/-- A thread that holds a lock is not done. -/
theorem Thread.Good.busy (h : t.Good rank) {l : L} (hl : l ∈ t.held) : t.todo ≠ [] := by
  intro hdone
  have hf := h.fits
  rw [hdone] at hf
  rw [show t.held = [] from hf] at hl
  cases hl

omit [DecidableEq ι] [Fintype ι] in
/-- Only a thread that is done, or asks for a taken lock, cannot move. -/
theorem move_eq_none (h : move f b t = none) :
    t.todo = [] ∨ ∃ l, t.wants = some l ∧ f l = false := by
  unfold move at h
  split at h
  · exact Or.inl ‹_›
  all_goals try cases h
  split at h
  · cases h
  · refine Or.inr ⟨_, ?_, Bool.eq_false_iff.mpr ‹_›⟩
    simp only [Thread.wants, *]

omit [DecidableEq ι] [Fintype ι] in
/-- A move keeps the thread in order, and takes only a free lock. -/
theorem Thread.Good.move (h : t.Good rank) (hm : Locks.move f b t = some t') :
    t'.Good rank ∧ ∀ l ∈ t'.held, l ∈ t.held ∨ f l = true := by
  obtain ⟨hd, hf⟩ := h
  have hlt := fun l => Thread.Good.lt_above (l := l) ⟨hd, hf⟩
  obtain ⟨held, todo⟩ := t
  simp only at hd hf hlt
  unfold Locks.move at hm
  split at hm
  · cases hm
  · -- skip
    cases hm
    simp only at *
    subst todo
    exact ⟨⟨hd, hf.2⟩, fun l hl => Or.inl hl⟩
  · -- seq
    cases hm
    simp only at *
    subst todo
    exact ⟨⟨hd, hf.1.1, hf.1.2, hf.2⟩, fun l hl => Or.inl hl⟩
  · -- branch
    cases hm
    simp only at *
    subst todo
    refine ⟨⟨hd, ?_, hf.2⟩, fun l hl => Or.inl hl⟩
    cases b
    · exact hf.1.2
    · exact hf.1.1
  · -- loop
    cases hm
    simp only at *
    subst todo
    refine ⟨⟨hd, ?_⟩, fun l hl => Or.inl hl⟩
    cases b
    · exact hf.2
    · exact ⟨hf.1, hf.1, hf.2⟩
  · -- locked
    rename_i l c k htodo
    split at hm
    · cases hm
      simp only at *
      subst todo
      refine ⟨⟨?_, hf.1.2, rfl, hf.2⟩, fun m hm => ?_⟩
      · exact List.pairwise_cons.mpr
          ⟨fun m hm => Nat.lt_of_lt_of_le (hlt m hm) hf.1.1, hd⟩
      · rcases List.mem_cons.mp hm with rfl | hm
        · exact Or.inr ‹_›
        · exact Or.inl hm
    · cases hm
  · -- unlock
    rename_i l k htodo
    cases hm
    simp only at *
    subst todo
    obtain ⟨ms, rfl⟩ : ∃ ms, held = l :: ms := by
      cases held with
      | nil => exact absurd hf.1 (by simp)
      | cons m ms => exact ⟨ms, by simpa using hf.1⟩
    simp only [List.erase_cons_head]
    exact ⟨⟨(List.pairwise_cons.mp hd).2, hf.2⟩, fun m hm => Or.inl (List.mem_cons_of_mem _ hm)⟩

/-! ## Runs -/

variable {s s' : ι → Thread L} {e : ι × Bool}

theorem of_step (h : step s e = some s') :
    ∃ t, move (free s) e.2 (s e.1) = some t ∧ s' = Function.update s e.1 t := by
  obtain ⟨t, ht, rfl⟩ := Option.map_eq_some_iff.mp h
  exact ⟨t, ht, rfl⟩

omit [DecidableEq ι] in
theorem free_iff {l : L} : free s l = true ↔ ∀ i, l ∉ (s i).held := by simp [free]

omit [DecidableEq ι] [Fintype ι] [DecidableEq L] in
theorem inv_start {code : ι → Code L} (h : ∀ i, (code i).Ordered rank 0) :
    Inv rank (start code) where
  good i := ⟨List.Pairwise.nil, h i, rfl⟩
  exclusive i j l hi := by simp [start] at hi

theorem inv_step (hi : Inv rank s) (h : step s e = some s') : Inv rank s' := by
  obtain ⟨t, ht, rfl⟩ := of_step h
  obtain ⟨hgood, hheld⟩ := (hi.good e.1).move ht
  have hother : ∀ j l, j ≠ e.1 → l ∈ (s j).held → l ∉ t.held := by
    intro j l hj hl hlt
    rcases hheld l hlt with hold | hfree
    · exact hj (hi.exclusive j e.1 l hl hold)
    · exact free_iff.mp hfree j hl
  constructor
  · intro i
    by_cases hie : i = e.1
    · simpa [hie] using hgood
    · simpa [hie] using hi.good i
  · intro i j l hli hlj
    by_cases hie : i = e.1 <;> by_cases hje : j = e.1
    · rw [hie, hje]
    · simp only [hie, Function.update_self, hje, ne_eq, not_false_eq_true,
        Function.update_of_ne] at hli hlj
      exact absurd hli (hother j l hje hlj)
    · simp only [hje, Function.update_self, hie, ne_eq, not_false_eq_true,
        Function.update_of_ne] at hli hlj
      exact absurd hlj (hother i l hie hli)
    · simp only [hie, hje, ne_eq, not_false_eq_true, Function.update_of_ne] at hli hlj
      exact hi.exclusive i j l hli hlj

/-- The invariant holds along every run of ordered code. -/
theorem always_inv {code : ι → Code L} (h : ∀ i, (code i).Ordered rank 0) (es : List (ι × Bool)) :
    Runs.Always step (Inv rank) (start code) es :=
  Runs.always_of_invariant (fun _ _ _ hi hs => inv_step hi hs) (inv_start h) es

/-- Until all threads are done, one can move, whichever way it goes. -/
theorem Inv.moves (hi : Inv rank s) (hbusy : ∃ i, (s i).todo ≠ []) :
    ∃ i, (s i).todo ≠ [] ∧ ∀ b, (step s (i, b)).isSome := by
  by_contra hstuck
  push Not at hstuck
  -- every thread that is not done waits for a lock that is held
  have hwait : ∀ i, (s i).todo ≠ [] → ∃ l j, (s i).wants = some l ∧ l ∈ (s j).held := by
    intro i hbi
    obtain ⟨b, hb⟩ := hstuck i hbi
    have hnone : move (free s) b (s i) = none := by simpa [step] using hb
    rcases move_eq_none hnone with hdone | ⟨l, hl, hfree⟩
    · exact absurd hdone hbi
    · simp only [free, decide_eq_false_iff_not, not_forall, not_not] at hfree
      obtain ⟨j, hj⟩ := hfree
      exact ⟨l, j, hl, hj⟩
  -- of these, one whose locks reach highest
  obtain ⟨i, hbi, hmax⟩ := Finset.exists_max_image (Finset.univ.filter fun i => (s i).todo ≠ [])
    (fun i => above rank (s i).held) (by simpa [Finset.Nonempty] using hbusy)
  obtain ⟨l, j, hl, hj⟩ := hwait i (by simpa using hbi)
  have hle : above rank (s j).held ≤ above rank (s i).held :=
    hmax j (by simpa using (hi.good j).busy hj)
  have hlt : rank l < above rank (s j).held := (hi.good j).lt_above hj
  have hge : above rank (s i).held ≤ rank l := (hi.good i).above_le hl
  omega

/-! ## Running to the end -/

def Task.length : Task L → Nat
  | .code c => c.length
  | .unlock _ => 1

/-- The moves to the end of the thread when loops are left. -/
def Thread.left (t : Thread L) : Nat := (t.todo.map Task.length).sum

omit [DecidableEq ι] [Fintype ι] in
theorem left_move (h : move f false t = some t') : t'.left < t.left := by
  unfold move at h
  split at h
  · cases h
  case h_6 =>
    split at h
    · cases h
      simp only [Thread.left, *, List.map_cons, Task.length, Code.length, List.sum_cons]
      omega
    · cases h
  all_goals
    cases h
    simp [Thread.left, Task.length, Code.length, *]
  all_goals omega

theorem left_step {i : ι} (h : step s (i, false) = some s') :
    ∑ j, (s' j).left < ∑ j, (s j).left := by
  obtain ⟨t, ht, rfl⟩ := of_step h
  refine Finset.sum_lt_sum (fun j _ => ?_) ⟨i, Finset.mem_univ i, ?_⟩
  · by_cases hj : j = i
    · subst hj
      simpa using (left_move ht).le
    · simp [hj]
  · simpa using left_move ht

/-- From every state the threads can be run to their ends; no lock is held there. -/
theorem Inv.drains (hi : Inv rank s) :
    ∃ es t, Runs.run step s es = some t ∧ ∀ i, (t i).todo = [] ∧ (t i).held = [] := by
  induction hn : ∑ j, (s j).left using Nat.strong_induction_on generalizing s with
  | _ n ih =>
    by_cases hbusy : ∃ i, (s i).todo ≠ []
    · obtain ⟨i, -, hmove⟩ := hi.moves hbusy
      obtain ⟨s', hs'⟩ := Option.isSome_iff_exists.mp (hmove false)
      obtain ⟨es, t, hr, ht⟩ := ih _ (hn ▸ left_step hs') (inv_step hi hs') rfl
      exact ⟨(i, false) :: es, t, by simp only [Runs.run, hs', hr], ht⟩
    · push Not at hbusy
      refine ⟨[], s, rfl, fun i => ⟨hbusy i, ?_⟩⟩
      have hf := (hi.good i).fits
      rw [hbusy i] at hf
      exact hf

end

end Locks
