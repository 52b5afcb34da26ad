import Hindsight.Output

/-!
# Hindsight.Input

The reader side of a queue: `hs_input.c`, and the part of the two `input_thread` loops that decides
when to leave a file. The buffer the bytes are read into is not part of it. In the steps of `QueueReader` file
ids do not wrap around, and a checkpoint is where `fseek` can go, below 2^63.

* `hsOpenFile`, `hsReadFile`: the handle, its position and the checkpoint of `hs_input`.
* `QueueReader`: where the loop is between a read that returned nothing and the next read, and what
  it remembers.
-/

namespace Hindsight

/-- An open file and the position of the next read. -/
structure FileHandle where
  id : Nat
  pos : Nat
  deriving DecidableEq, Repr

/-- `hs_input` without its buffer. `fn` is the id in the name of the open file. -/
structure HsInput where
  fh : Option FileHandle
  fn : Option Nat
  cp : Checkpoint
  deriving DecidableEq, Repr

/-- `hs_init_input`, with the checkpoint that was looked up. -/
def hsInitInput (cp : Checkpoint) : HsInput := ⟨none, none, cp⟩

/-- `hs_open_file`: the seek to `cp.offset` is made in the file of the checkpoint only, any other
file is read from its start. -/
def hsOpenFile (d : Dir) (i : HsInput) (id : Nat) : HsInput × Bool :=
  if i.fn = some id then (i, true)
  else if id ∈ d.ids then
    let cp : Checkpoint := if i.cp.id = id then i.cp else ⟨id, 0⟩
    (⟨some ⟨id, cp.offset⟩, some id, cp⟩, true)
  else (i, false)

/-- The id after that of the checkpoint, of 64 bits. -/
def HsInput.nextId (i : HsInput) : Nat := (i.cp.id + 1) % 2 ^ 64

/-- The bytes `fread` finds at the handle. -/
def HsInput.available (d : Dir) (i : HsInput) : List UInt8 :=
  match i.fh with
  | none => []
  | some f => (d.bytes f.id).drop f.pos

/-- `hs_read_file` into a buffer with `space` free bytes. -/
def hsReadFile (d : Dir) (i : HsInput) (space : Nat) : HsInput × List UInt8 :=
  let bs := (i.available d).take space
  ({ i with
      fh := i.fh.map fun f => { f with pos := f.pos + bs.length }
      cp := { i.cp with offset := i.cp.offset + bs.length } }, bs)

/-- `hs_find_next_id`: the smallest id above `start_id`, zero when there is none. `ULLONG_MAX` stands
for none. -/
def hsFindNextId (d : Dir) (startId : Nat) : Nat :=
  let id := d.ids.foldl (fun next id => if id > startId ∧ id < next then id else next) ullongMax
  if id = ullongMax then 0 else id

namespace HsInput

theorem nextId_eq {i : HsInput} (h : i.cp.id < ullongMax) : i.nextId = i.cp.id + 1 := by
  have hmax : ullongMax = 2 ^ 64 - 1 := rfl
  exact Nat.mod_eq_of_lt (by omega)

/-- The handle at a checkpoint. -/
def opened (c : Checkpoint) : HsInput := ⟨some ⟨c.id, c.offset⟩, some c.id, c⟩

theorem hsOpenFile_init (d : Dir) (c : Checkpoint) :
    hsOpenFile d (hsInitInput c) c.id =
      if c.id ∈ d.ids then (opened c, true) else (hsInitInput c, false) := by
  simp only [hsOpenFile, hsInitInput, opened, if_true, reduceCtorEq, if_false]

theorem hsOpenFile_opened (d : Dir) {c : Checkpoint} {id : Nat} (h : c.id ≠ id) :
    hsOpenFile d (opened c) id =
      if id ∈ d.ids then (opened ⟨id, 0⟩, true) else (opened c, false) := by
  simp only [hsOpenFile, opened, Option.some.injEq, h, if_false]

theorem hsReadFile_opened (d : Dir) (c : Checkpoint) (space : Nat) :
    hsReadFile d (opened c) space =
      let bs := ((d.bytes c.id).drop c.offset).take space
      (opened ⟨c.id, c.offset + bs.length⟩, bs) := rfl

end HsInput

section FindNextId

variable (startId : Nat)

/-- The search is one for the least id above, with `ULLONG_MAX` for none. -/
theorem hsFindNextId_eq_least {d : Dir}
    (h : Select.least (startId < ·) ullongMax d.ids ≠ ullongMax) :
    hsFindNextId d startId = Select.least (startId < ·) ullongMax d.ids :=
  if_neg h

/-- A next id is the smallest of the ids above. -/
theorem hsFindNextId_spec {d : Dir} (h : hsFindNextId d startId ≠ 0) :
    hsFindNextId d startId ∈ d.ids ∧ startId < hsFindNextId d startId ∧
      ∀ id ∈ d.ids, startId < id → hsFindNextId d startId ≤ id := by
  have hfound : Select.least (startId < ·) ullongMax d.ids ≠ ullongMax := fun hnone => h (if_pos hnone)
  obtain ⟨⟨hmem, habove⟩, hleast⟩ := Select.isLeast_least hfound
  rw [hsFindNextId_eq_least startId hfound]
  exact ⟨hmem, habove, fun id hid hs => hleast ⟨hid, hs⟩⟩

theorem hsFindNextId_ne_zero {d : Dir} {id : Nat} (hm : id ∈ d.ids) (hs : startId < id)
    (hid : id < ullongMax) : hsFindNextId d startId ≠ 0 := by
  have hle : Select.least (startId < ·) ullongMax d.ids ≤ id := Select.least_spec.2.2 id hm hs
  have hfound := (hle.trans_lt hid).ne
  have habove := (Select.isLeast_least hfound).1.2
  rw [hsFindNextId_eq_least startId hfound]
  exact Nat.ne_zero_of_lt habove

end FindNextId

/-- The threads that read a queue. -/
inductive ReaderKind where
  | analysis
  | output
  deriving DecidableEq, Repr

/-- Where `input_thread` is: ahead of a read, or at one of the steps that follow a read at the end
of the file. -/
inductive ReaderPc where
  | read
  | openNext
  | findNext
  | openFound (id : Nat)
  deriving DecidableEq, Repr

/-- `next`, `iwait_cnt` and `itimer` are the variables of `input_thread`. The analysis thread has no
`itimer`. -/
structure QueueReader where
  input : HsInput
  pc : ReaderPc
  next : Bool
  iwaitCnt : Nat
  itimer : Nat
  deriving DecidableEq, Repr

namespace QueueReader

def init (cp : Checkpoint) : QueueReader := ⟨hsInitInput cp, .read, false, 0, 0⟩

/-- The output plugin tries at most once a second. -/
def due (kind : ReaderKind) (r : QueueReader) (now : Nat) : Bool :=
  match kind with
  | .analysis => true
  | .output => now != r.itimer

def tick (kind : ReaderKind) (r : QueueReader) (now : Nat) : QueueReader :=
  match kind with
  | .analysis => r
  | .output => { r with itimer := now }

/-- Still waiting on the first file: after sixty failures the checkpoint is looked up again, as
`lookup`. -/
def openFirst (kind : ReaderKind) (d : Dir) (lookup : Checkpoint) (now : Nat) (r : QueueReader) :
    QueueReader :=
  if r.due kind now then
    let r := r.tick kind now
    let reset := r.iwaitCnt + 1 > 60
    let input := if reset then { r.input with cp := lookup } else r.input
    let cnt := if reset then 0 else r.iwaitCnt + 1
    let opened := hsOpenFile d input input.cp.id
    { r with input := opened.1, next := opened.2, iwaitCnt := if opened.2 then 0 else cnt }
  else r

/-- A read into `space` free bytes. One that returns nothing leads to the next file when the file is
full or the last open succeeded. -/
def readStep (kind : ReaderKind) (outputSize : Nat) (d : Dir) (space now : Nat) (r : QueueReader) :
    QueueReader :=
  let result := hsReadFile d r.input space
  let r := { r with input := result.1 }
  if result.2 = [] ∧ (r.input.cp.offset ≥ outputSize ∨ r.next = true) ∧ r.due kind now = true then
    { r.tick kind now with pc := .openNext }
  else r

/-- `hs_open_file` of the next id; without that file, the gap is looked at when it has been missing
for long or the file read is not full. -/
def openNext (kind : ReaderKind) (outputSize : Nat) (d : Dir) (r : QueueReader) : QueueReader :=
  let opened := hsOpenFile d r.input (r.input.cp.id + 1)
  if opened.2 then
    { r with
      input := opened.1
      pc := .read
      next := true
      iwaitCnt := match kind with
        | .analysis => r.iwaitCnt
        | .output => 0 }
  else if r.iwaitCnt + 1 > 60 ∨ r.input.cp.offset < outputSize then
    { r with pc := .findNext, next := false, iwaitCnt := r.iwaitCnt + 1 }
  else { r with pc := .read, next := false, iwaitCnt := r.iwaitCnt + 1 }

def findNext (d : Dir) (r : QueueReader) : QueueReader :=
  let nextId := hsFindNextId d r.input.cp.id
  { r with
    pc := if nextId > r.input.cp.id + 1 then .openFound nextId else .read
    iwaitCnt := 0 }

def openFound (d : Dir) (id : Nat) (r : QueueReader) : QueueReader :=
  let opened := hsOpenFile d r.input id
  { r with input := opened.1, pc := .read, next := opened.2 }

/-! ### What each step does -/

section

variable {kind : ReaderKind} {outputSize : Nat} {d : Dir} {r : QueueReader} {c : Checkpoint}

@[simp] theorem tick_input (now : Nat) : (r.tick kind now).input = r.input := by
  cases kind <;> rfl

@[simp] theorem tick_pc (now : Nat) : (r.tick kind now).pc = r.pc := by
  cases kind <;> rfl

@[simp] theorem tick_iwaitCnt (now : Nat) : (r.tick kind now).iwaitCnt = r.iwaitCnt := by
  cases kind <;> rfl

variable (kind d) in
theorem openFirst_cases (hr : r.input = hsInitInput c) (lookup : Checkpoint) (now : Nat) :
    (r.openFirst kind d lookup now).pc = r.pc ∧
      ∃ c', (r.openFirst kind d lookup now).input = hsInitInput c' ∨
        (r.openFirst kind d lookup now).input = .opened c' ∧ c'.id ∈ d.ids := by
  by_cases hdue : r.due kind now = true
  · refine ⟨by simp only [openFirst, if_pos hdue, tick_pc], ?_⟩
    -- the checkpoint the file of which is tried
    obtain ⟨c', hc⟩ : ∃ c', (if r.iwaitCnt + 1 > 60 then { r.input with cp := lookup }
        else r.input) = hsInitInput c' := by
      rw [hr]
      split
      · exact ⟨lookup, rfl⟩
      · exact ⟨c, rfl⟩
    have hid : (hsInitInput c').cp.id = c'.id := rfl
    refine ⟨c', ?_⟩
    simp only [openFirst, if_pos hdue, tick_input, tick_iwaitCnt, hc, hid, HsInput.hsOpenFile_init]
    split
    · exact .inr ⟨rfl, ‹_›⟩
    · exact .inl rfl
  · have : r.openFirst kind d lookup now = r := by simp only [openFirst, if_neg hdue]
    rw [this]
    exact ⟨rfl, c, .inl hr⟩

variable (kind) in
/-- The first file is there, and it is time to try. -/
theorem openFirst_eq (hr : r.input = hsInitInput c) (hm : c.id ∈ d.ids) (hw : r.iwaitCnt < 60)
    (lookup : Checkpoint) (now : Nat) (hdue : r.due kind now = true) :
    r.openFirst kind d lookup now =
      { r.tick kind now with input := .opened c, next := true, iwaitCnt := 0 } := by
  have hid : (hsInitInput c).cp.id = c.id := rfl
  have hreset : ¬r.iwaitCnt + 1 > 60 := by omega
  simp only [openFirst, if_pos hdue, tick_input, tick_iwaitCnt, hreset, if_false, hr, hid,
    HsInput.hsOpenFile_init, if_pos hm, if_true]

variable (kind outputSize d) in
/-- A read moves the handle past the bytes it returns, and only one that returns nothing leaves the
loop. -/
theorem readStep_cases (hr : r.input = .opened c) (space now : Nat) :
    let bs := ((d.bytes c.id).drop c.offset).take space
    let r' := r.readStep kind outputSize d space now
    r'.input = .opened ⟨c.id, c.offset + bs.length⟩ ∧ r'.next = r.next ∧ r'.iwaitCnt = r.iwaitCnt ∧
      (r'.pc = r.pc ∧ (bs = [] → (outputSize ≤ c.offset ∨ r.next = true) → r.due kind now = false) ∨
        r'.pc = .openNext ∧ bs = []) := by
  simp only [readStep, hr, HsInput.hsReadFile_opened]
  split
  · rename_i h
    cases kind <;> exact ⟨rfl, rfl, rfl, .inr ⟨rfl, h.1⟩⟩
  · rename_i h
    refine ⟨rfl, rfl, rfl, .inl ⟨rfl, fun hnil hsize => ?_⟩⟩
    rw [hnil] at h
    have hdue : r.due kind now ≠ true := fun hdue => h ⟨rfl, hsize, hdue⟩
    simpa using hdue

variable (kind outputSize d) in
theorem openNext_cases (hr : r.input = .opened c) :
    let r' := r.openNext kind outputSize d
    c.id + 1 ∈ d.ids ∧ r'.input = .opened ⟨c.id + 1, 0⟩ ∧ r'.pc = .read ∧ r'.next = true ∧
        r'.iwaitCnt ≤ r.iwaitCnt ∨
      c.id + 1 ∉ d.ids ∧ r'.input = .opened c ∧ r'.iwaitCnt = r.iwaitCnt + 1 ∧
        (r'.pc = .read ∧ r.iwaitCnt < 60 ∧ outputSize ≤ c.offset ∨ r'.pc = .findNext) := by
  have hid : (HsInput.opened c).cp.id = c.id := rfl
  have hne : c.id ≠ c.id + 1 := by omega
  simp only [openNext, hr, hid, HsInput.hsOpenFile_opened d hne]
  by_cases hm : c.id + 1 ∈ d.ids
  · simp only [if_pos hm, if_true]
    refine .inl ⟨hm, trivial, trivial, trivial, ?_⟩
    cases kind
    · exact le_rfl
    · exact Nat.zero_le _
  · simp only [if_neg hm, Bool.false_eq_true, if_false]
    refine .inr ⟨hm, ?_⟩
    split
    · exact ⟨rfl, rfl, .inr rfl⟩
    · rename_i hwait
      rw [not_or] at hwait
      have hcp : (HsInput.opened c).cp.offset = c.offset := rfl
      exact ⟨rfl, rfl, .inl ⟨rfl, by omega, by omega⟩⟩

variable (d) in
theorem findNext_cases (hr : r.input = .opened c) :
    let r' := r.findNext d
    r'.input = .opened c ∧ r'.iwaitCnt = 0 ∧
      (r'.pc = .read ∧ hsFindNextId d c.id ≤ c.id + 1 ∨
        ∃ id, r'.pc = .openFound id ∧ id ∈ d.ids ∧ c.id + 1 < id ∧
          ∀ i ∈ d.ids, c.id < i → id ≤ i) := by
  refine ⟨hr, rfl, ?_⟩
  have hid : r.input.cp.id = c.id := by rw [hr]; rfl
  simp only [findNext, hid]
  split
  · rename_i hgt
    obtain ⟨hm, -, hleast⟩ := hsFindNextId_spec c.id (d := d) (by omega)
    exact .inr ⟨_, rfl, hm, hgt, hleast⟩
  · rename_i hle
    exact .inl ⟨rfl, by omega⟩

theorem openFound_eq (hr : r.input = .opened c) {id : Nat} (hm : id ∈ d.ids) (hne : c.id ≠ id) :
    r.openFound d id = { r with input := .opened ⟨id, 0⟩, pc := .read, next := true } := by
  simp only [openFound, hr, HsInput.hsOpenFile_opened d hne, if_pos hm]

end

end QueueReader

end Hindsight
