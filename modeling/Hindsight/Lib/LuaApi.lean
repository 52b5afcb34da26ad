import Mathlib

/-!
# Hindsight.Lib.LuaApi

The part of the Lua C API that reads options out of a state after a chunk was run in it. Tables are
shared: a value holds the number of a table, so a removal is seen through every name of the table.

* `M`: a C function that returns an error code; an error leaves its message and what else it pushed on
  the stack, and indexing a value that is not a table ends the process.
* `bind_ok`: how a sequence of calls succeeds; `Ensures`: what holds of every value it returns.
* `attempt`: a call whose error code is ignored.
* `Keeps`, `Took`: what a sequence of calls leaves of the globals, and of a table it reads options from.
-/

namespace LuaApi

/-- A double. -/
inductive Number where
  | finite (q : ℚ)
  | infinite (negative : Bool)
  | nan
  deriving DecidableEq

inductive Value where
  | nil
  | boolean (b : Bool)
  | number (n : Number)
  | string (s : String)
  | table (ref : Nat)
  | other
  deriving DecidableEq

/-- The entries in the order of `lua_next`. -/
abbrev Table := List (Value × Value)

namespace Table

def get (t : Table) (name : String) : Value :=
  match t.find? fun e => e.1 == .string name with
  | none => .nil
  | some e => e.2

def remove (t : Table) (name : String) : Table := t.filter fun e => e.1 != .string name

theorem get_remove_other (t : Table) {name other : String} (h : other ≠ name) :
    (t.remove name).get other = t.get other := by
  have hfind : (t.remove name).find? (fun e => e.1 == .string other) =
      t.find? fun e => e.1 == .string other := by
    induction t with
    | nil => rfl
    | cons e t ih =>
      by_cases he : e.1 = .string name
      · have hkey : (e.1 == Value.string other) = false := by
          rw [he, beq_eq_false_iff_ne]
          intro heq
          exact h (Value.string.inj heq).symm
        rw [remove, List.filter_cons_of_neg (by simp [he]), List.find?_cons_of_neg (by simp [hkey])]
        exact ih
      · rw [remove, List.filter_cons_of_pos (by simp [he]), List.find?_cons, List.find?_cons]
        split
        · rfl
        · exact ih
  rw [get, get, hfind]

/-- The names are removed one after another, the last of the list first. -/
def removeAll (t : Table) : List String → Table
  | [] => t
  | name :: names => (t.removeAll names).remove name

theorem get_removeAll (t : Table) {names : List String} {other : String} (h : other ∉ names) :
    (t.removeAll names).get other = t.get other := by
  induction names with
  | nil => rfl
  | cons name names ih =>
    rw [List.mem_cons, not_or] at h
    rw [removeAll, get_remove_other _ h.1]
    exact ih h.2

theorem removeAll_append (t : Table) (names earlier : List String) :
    t.removeAll (names ++ earlier) = (t.removeAll earlier).removeAll names := by
  induction names with
  | nil => rfl
  | cons name names ih => rw [List.cons_append, removeAll, removeAll, ih]

/-- A table that is empty after removals had no other keys. -/
theorem key_of_removeAll {t : Table} {names : List String} (h : t.removeAll names = []) :
    ∀ e ∈ t, ∃ name ∈ names, e.1 = .string name := by
  have hkept : ∀ e ∈ t, e ∈ t.removeAll names ∨ ∃ name ∈ names, e.1 = .string name := by
    intro e he
    clear h
    induction names with
    | nil => exact .inl he
    | cons name names ih =>
      rcases ih with hin | ⟨other, hmem, hkey⟩
      · by_cases hkey : e.1 = .string name
        · exact .inr ⟨name, List.mem_cons_self, hkey⟩
        · refine .inl (List.mem_filter.mpr ⟨hin, ?_⟩)
          simp [hkey]
      · exact .inr ⟨other, List.mem_cons_of_mem _ hmem, hkey⟩
  intro e he
  refine (hkept e he).resolve_left fun hin => ?_
  rw [h] at hin
  exact List.not_mem_nil hin

end Table

/-- The tables, the table of the globals and the stack, bottom first. -/
structure State where
  heap : Nat → Table
  globals : Nat
  stack : List Value

inductive Index where
  | globals
  | bottom
  deriving DecidableEq

namespace State

def push (L : State) (vs : List Value) : State := { L with stack := L.stack ++ vs }

/-- The table at an index; `none` when the value there is not a table. -/
def tableAt (L : State) : Index → Option Nat
  | .globals => some L.globals
  | .bottom =>
    match L.stack.head? with
    | some (.table r) => some r
    | _ => none

def global (L : State) (name : String) : Value := (L.heap L.globals).get name

/-- Setting a field of table `r` to nil. -/
def remove (L : State) (r : Nat) (name : String) : State :=
  { L with heap := Function.update L.heap r ((L.heap r).remove name) }

theorem global_remove_other (L : State) {name other : String} (h : other ≠ name) :
    (L.remove L.globals name).global other = L.global other := by
  simp only [global, remove, Function.update_self]
  exact Table.get_remove_other _ h

/-- A removal leaves the other globals alone, whatever table it is made in. -/
theorem global_remove (L : State) (r : Nat) {name other : String} (h : other ≠ name) :
    (L.remove r name).global other = L.global other := by
  by_cases hr : r = L.globals
  · rw [hr, global_remove_other L h]
  · simp only [global, remove, Function.update_of_ne (Ne.symm hr)]

theorem global_push (L : State) (vs : List Value) (name : String) :
    (L.push vs).global name = L.global name := rfl

end State

/-- `none`: the process ends. -/
def M (α : Type) : Type := State → Option (Except String α × State)

namespace M

variable {α β : Type}

def pure (a : α) : M α := fun L => some (.ok a, L)

def bind (x : M α) (f : α → M β) : M β := fun L =>
  match x L with
  | none => none
  | some (.error msg, L') => some (.error msg, L')
  | some (.ok a, L') => f a L'

instance : Monad M where
  pure := pure
  bind := bind

/-- A call whose error code is ignored: what it would set keeps its value, what it pushed stays. -/
def attempt (x : M α) (val : α) : M α := fun L =>
  match x L with
  | none => none
  | some (.error _, L') => some (.ok val, L')
  | some (.ok a, L') => some (.ok a, L')

/-- `lua_pushstring` and an error code. -/
def fail (msg : String) : M α := fun L => some (.error msg, L.push [.string msg])

def checkThat (c : Bool) (msg : String) : M Unit := if c then Pure.pure () else fail msg

theorem bind_ok {x : M α} {f : α → M β} {L L' : State} {b : β}
    (h : (x >>= f) L = some (.ok b, L')) :
    ∃ a L1, x L = some (.ok a, L1) ∧ f a L1 = some (.ok b, L') := by
  change bind x f L = some (.ok b, L') at h
  unfold bind at h
  cases hx : x L with
  | none =>
    rw [hx] at h
    cases h
  | some r =>
    obtain ⟨e, L1⟩ := r
    cases e with
    | error msg =>
      rw [hx] at h
      cases h
    | ok a =>
      rw [hx] at h
      exact ⟨a, L1, rfl, h⟩

theorem pure_ok {a b : α} {L L' : State} (h : (Pure.pure a : M α) L = some (.ok b, L')) :
    a = b ∧ L = L' := by
  cases h
  exact ⟨rfl, rfl⟩

/-- Every value the call can return is as `P` says. -/
def Ensures (x : M α) (P : α → Prop) : Prop :=
  ∀ ⦃L L' : State⦄ ⦃a : α⦄, x L = some (.ok a, L') → P a

theorem Ensures.pure {P : α → Prop} {a : α} (h : P a) : Ensures (Pure.pure a : M α) P := by
  intro L L' b hb
  rw [← (pure_ok hb).1]
  exact h

/-- What is said of the last call of a sequence is said of the sequence. -/
theorem Ensures.bind {P : β → Prop} {x : M α} {f : α → M β} (h : ∀ a, Ensures (f a) P) :
    Ensures (x >>= f) P := by
  intro L L' b hb
  obtain ⟨a, L1, -, hf⟩ := bind_ok hb
  exact h a hf

theorem checkThat_ok {c : Bool} {msg : String} {L L' : State}
    (h : checkThat c msg L = some (.ok (), L')) : c = true ∧ L = L' := by
  unfold checkThat at h
  split at h
  · exact ⟨by assumption, (pure_ok h).2⟩
  · cases h

/-- The getters of a configuration: push the field `name` of the table at `idx`, read it, and remove the
option from the table. An error leaves the field and the message on the stack. -/
def getItem (idx : Index) (name : String) (read : Value → Except String α) : M α := fun L =>
  match L.tableAt idx with
  | none => none
  | some r =>
    let v := (L.heap r).get name
    match read v with
    | .ok a => some (.ok a, L.remove r name)
    | .error msg => some (.error msg, L.push [v, .string msg])

theorem getItem_ok {idx : Index} {name : String} {read : Value → Except String α} {L L' : State}
    {a : α} (h : getItem idx name read L = some (.ok a, L')) :
    ∃ r, L.tableAt idx = some r ∧ read ((L.heap r).get name) = .ok a ∧ L' = L.remove r name := by
  unfold getItem at h
  cases hr : L.tableAt idx with
  | none =>
    rw [hr] at h
    cases h
  | some r =>
    rw [hr] at h
    dsimp only at h
    cases hv : read ((L.heap r).get name) with
    | error msg =>
      rw [hv] at h
      cases h
    | ok b =>
      rw [hv] at h
      cases h
      exact ⟨r, rfl, hv, rfl⟩

/-- A call that does not touch a global. -/
def Keeps (name : String) (x : M α) : Prop :=
  ∀ ⦃L L' : State⦄ ⦃a : α⦄, x L = some (.ok a, L') →
    L'.globals = L.globals ∧ L'.global name = L.global name

section

variable {name other : String}

theorem Keeps.pure (a : α) : Keeps name (Pure.pure a : M α) := by
  intro L L' b h
  obtain ⟨-, rfl⟩ := pure_ok h
  exact ⟨rfl, rfl⟩

theorem Keeps.bind {x : M α} {f : α → M β} (hx : Keeps name x) (hf : ∀ a, Keeps name (f a)) :
    Keeps name (x >>= f) := by
  intro L L' b h
  obtain ⟨a, L1, h1, h2⟩ := bind_ok h
  obtain ⟨hg1, hv1⟩ := hx h1
  obtain ⟨hg2, hv2⟩ := hf a h2
  exact ⟨hg2.trans hg1, hv2.trans hv1⟩

theorem Keeps.checkThat (c : Bool) (msg : String) : Keeps name (checkThat c msg) := by
  intro L L' a h
  obtain ⟨-, rfl⟩ := checkThat_ok h
  exact ⟨rfl, rfl⟩

theorem Keeps.getItem {idx : Index} {read : Value → Except String α} (h : name ≠ other) :
    Keeps name (getItem idx other read) := by
  intro L L' a ha
  obtain ⟨r, -, -, rfl⟩ := getItem_ok ha
  exact ⟨rfl, State.global_remove L r h⟩

theorem Keeps.attempt {idx : Index} {read : Value → Except String α} {val : α} (h : name ≠ other) :
    Keeps name ((M.getItem idx other read).attempt val) := by
  intro L L' a ha
  simp only [M.attempt, M.getItem] at ha
  cases hr : L.tableAt idx with
  | none =>
    rw [hr] at ha
    cases ha
  | some r =>
    rw [hr] at ha
    dsimp only at ha
    cases hread : read ((L.heap r).get other) with
    | error msg =>
      rw [hread] at ha
      cases ha
      exact ⟨rfl, rfl⟩
    | ok b =>
      rw [hread] at ha
      cases ha
      exact ⟨rfl, State.global_remove L r h⟩

/-- An option of the globals the error of which was ignored stays where it is. -/
theorem attempt_of_gone {read : Value → Except String α} {val a : α} {L L' : State}
    (hnil : ∃ b, read .nil = .ok b) (hgone : L'.global name = .nil)
    (h : (M.getItem .globals name read).attempt val L = some (.ok a, L')) :
    M.getItem .globals name read L = some (.ok a, L') := by
  simp only [M.attempt, M.getItem, State.tableAt] at h ⊢
  cases hread : read ((L.heap L.globals).get name) with
  | error msg =>
    rw [hread] at h
    cases h
    rw [State.global_push, State.global] at hgone
    obtain ⟨b, hb⟩ := hnil
    rw [hgone, hb] at hread
    cases hread
  | ok b =>
    rw [hread] at h
    exact h

end

/-- Since `L₀` the names were removed from table `r`, and nothing else happened. -/
structure Took (L₀ L : State) (r : Nat) (names : List String) : Prop where
  globals : L.globals = L₀.globals
  heap : L.heap = Function.update L₀.heap r ((L₀.heap r).removeAll names)
  stack : L.stack = L₀.stack

section

variable {L₀ L L' : State} {r : Nat} {names : List String} {name : String}

theorem Took.refl (L : State) (r : Nat) : Took L L r [] :=
  ⟨rfl, (Function.update_eq_self r L.heap).symm, rfl⟩

theorem Took.table (hT : Took L₀ L r names) : L.heap r = (L₀.heap r).removeAll names := by
  rw [hT.heap, Function.update_self]

theorem Took.tableAt (hT : Took L₀ L r names) (idx : Index) : L.tableAt idx = L₀.tableAt idx := by
  cases idx with
  | globals => rw [State.tableAt, State.tableAt, hT.globals]
  | bottom => rw [State.tableAt, State.tableAt, hT.stack]

/-- The next option is read as the table had it at first. -/
theorem Took.getItem {idx : Index} {read : Value → Except String α} {a : α} (hT : Took L₀ L r names)
    (hr : L₀.tableAt idx = some r) (hn : name ∉ names)
    (h : M.getItem idx name read L = some (.ok a, L')) :
    read ((L₀.heap r).get name) = .ok a ∧ Took L₀ L' r (name :: names) := by
  obtain ⟨r', hr', hread, rfl⟩ := getItem_ok h
  rw [hT.tableAt, hr] at hr'
  cases hr'
  rw [hT.table, Table.get_removeAll _ hn] at hread
  refine ⟨hread, hT.globals, ?_, hT.stack⟩
  simp only [State.remove, hT.heap, Function.update_idem, Function.update_self, Table.removeAll]

end

end M

end LuaApi
