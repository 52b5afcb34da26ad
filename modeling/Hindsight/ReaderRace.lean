import Hindsight.Lib.Run
import Hindsight.Lib.Span
import Hindsight.Input

/-!
# Hindsight.ReaderRace

One queue with its writer and one reader, single steps of both interleaved. The writer buffers
frames, hands any part of the buffer to the file, and at a roll-over closes the file and then
creates the next one. The reader reads, and a read that returns nothing may be followed, in a later
step, by the open of the next file.

* `Safe`: the files the reader left hold nothing past where it left them, and the bytes it consumed
  are a prefix of the queue from its starting checkpoint.
* `Admits`: the reader opens the next file only if nothing past its position came to the file
  after its last read.
* `queue_safe_iff`: a run keeps `Safe` exactly when all its steps are admitted.
* `queue_unsafe`: a reader that loses a whole file.
-/

namespace Hindsight

namespace Output

/-- The bytes of the queue from a position on. -/
def bytesFrom (o : Output) (c : Checkpoint) : List UInt8 :=
  (o.full c.id).drop c.offset ++ Span.concat o.full (c.id + 1) (o.cp.id - c.id)

end Output

namespace ReaderRace

/-- Where the writer is in a roll-over. -/
inductive WriterPc where
  | write
  | fclose
  | fopen
  deriving DecidableEq, Repr

structure System where
  out : Output
  wpc : WriterPc
  reader : QueueReader

inductive Event where
  | inject (pb : List UInt8)
  | spill (n : Nat)
  | fclose
  | fopen
  | openFirst (lookup : Checkpoint) (now : Nat)
  | read (space now : Nat)
  | openNext
  | findNext
  | openFound
  deriving DecidableEq, Repr

section

variable (kind : ReaderKind) (cfg : HsConfig) (varint : Nat → List UInt8)

def step (s : System) : Event → Option System
  | .inject pb =>
    if s.wpc = .write then
      let fr := frame varint pb
      let cp : Checkpoint := { s.out.cp with offset := s.out.cp.offset + fr.length }
      let o := s.out.fwrite fr
      if cp.offset ≥ cfg.outputSize then
        some { s with out := { o with cp := { cp with id := cp.id + 1 } }, wpc := .fclose }
      else some { s with out := { o with cp := cp } }
    else none
  | .spill n => some { s with out := s.out.spill n }
  | .fclose =>
    if s.wpc = .fclose then some { s with out := s.out.fclose, wpc := .fopen } else none
  | .fopen =>
    if s.wpc = .fopen then some { s with out := s.out.fopen, wpc := .write } else none
  | .openFirst lookup now =>
    if s.reader.input.fh = none then
      some { s with reader := s.reader.openFirst kind s.out.dir lookup now }
    else none
  | .read space now =>
    if s.reader.pc = .read ∧ s.reader.input.fh ≠ none ∧ 0 < space then
      some { s with reader := s.reader.readStep kind cfg.outputSize s.out.dir space now }
    else none
  | .openNext =>
    if s.reader.pc = .openNext then
      some { s with reader := s.reader.openNext kind cfg.outputSize s.out.dir }
    else none
  | .findNext =>
    if s.reader.pc = .findNext then some { s with reader := s.reader.findNext s.out.dir } else none
  | .openFound =>
    match s.reader.pc with
    | .openFound id => some { s with reader := s.reader.openFound s.out.dir id }
    | _ => none

/-- What is kept of the run: where the reader started, what it consumed, the positions at which it
left files, and whether anything past its position came to its file after its last read. -/
structure History where
  start : Checkpoint
  consumed : List UInt8
  passed : List Checkpoint
  late : Bool
  deriving DecidableEq, Repr

/-- The file of `c` holds bytes past `c`. -/
def unread (o : Output) (c : Checkpoint) : Bool := c.offset < (o.dir.bytes c.id).length

/-- The reader went from `r` to `r'`. -/
def History.leave (h : History) (r r' : QueueReader) : History :=
  if r'.input.cp.id = r.input.cp.id then h else { h with passed := h.passed ++ [r.input.cp] }

/-- After a writer step it is noted whether the file of the reader has something new for it. -/
def see (s : System) (h : History) : Event → History
  | .openFirst lookup now =>
    { h with start := (s.reader.openFirst kind s.out.dir lookup now).input.cp }
  | .read space _ =>
    { h with consumed := h.consumed ++ (hsReadFile s.out.dir s.reader.input space).2, late := false }
  | .openNext => h.leave s.reader (s.reader.openNext kind cfg.outputSize s.out.dir)
  | .openFound =>
    match s.reader.pc with
    | .openFound id => h.leave s.reader (s.reader.openFound s.out.dir id)
    | _ => h
  | .findNext => h
  | e =>
    match step kind cfg varint s e with
    | some s' => { h with late := h.late || unread s'.out s.reader.input.cp }
    | none => h

abbrev observed : System × History → Event → Option (System × History) :=
  Runs.observe (step kind cfg varint) (see kind cfg varint)

/-- Nothing is left behind in the files the reader left. -/
def Exhausted (o : Output) (passed : List Checkpoint) : Prop :=
  ∀ c ∈ passed, (o.full c.id).length ≤ c.offset

instance (o : Output) (passed : List Checkpoint) : Decidable (Exhausted o passed) :=
  inferInstanceAs (Decidable (∀ c ∈ passed, _))

def Safe (p : System × History) : Prop :=
  Exhausted p.1.out p.2.passed ∧ p.2.consumed <+: p.1.out.bytesFrom p.2.start

instance : DecidablePred Safe := fun p =>
  inferInstanceAs (Decidable (Exhausted p.1.out p.2.passed ∧
    p.2.consumed <+: p.1.out.bytesFrom p.2.start))

def Admits (p : System × History) : Event → Prop
  | .openNext => p.1.reader.input.cp.id + 1 ∈ p.1.out.dir.ids → p.2.late = false
  | _ => True

/-- A queue on the directory `d`, a reader that will start at `cp`. -/
def start (d : Dir) (cp : Checkpoint) : System × History :=
  (⟨hsInitOutput d, .write, .init cp⟩, ⟨cp, [], [], false⟩)

end

/-! ## The writer -/

/-- The writer is at file `w`; from `w₀` on the ids have no gap. -/
structure WriterInv (w₀ w : Nat) (o : Output) (pc : WriterPc) : Prop where
  le : w₀ ≤ w
  mem : ∀ i, w₀ ≤ i → i ≤ w → i ∈ o.dir.ids
  top : ∀ i ∈ o.dir.ids, i ≤ w
  fh : o.fh = if pc = .fopen then none else some w
  cp : o.cp.id = if pc = .write then w else w + 1
  buf : pc = .fopen → o.buf = []

/-- What a writer step may do to the queue: `fr` is appended to file `w`, more of it becomes
visible, new files come after `w`. -/
structure Extends (w : Nat) (fr : List UInt8) (o o' : Output) : Prop where
  full : ∀ i, o'.full i = o.full i ++ if i = w then fr else []
  bytes : ∀ i, o.dir.bytes i <+: o'.dir.bytes i
  frozen : ∀ i, i ≠ w → o'.dir.bytes i = o.dir.bytes i
  ids : ∀ i ∈ o.dir.ids, i ∈ o'.dir.ids
  fresh : ∀ i ∈ o'.dir.ids, i ∈ o.dir.ids ∨ w < i
  bound : o.cp.id ≤ o'.cp.id

namespace WriterInv

variable {w₀ w : Nat} {o : Output} {pc : WriterPc} (h : WriterInv w₀ w o pc)
include h

theorem w_mem : w ∈ o.dir.ids := h.mem w h.le le_rfl

theorem isOpen (hpc : pc ≠ .fopen) : o.Open := ⟨w, h.w_mem, by rw [h.fh, if_neg hpc]⟩

theorem fh_other {i : Nat} (hi : i ≠ w) : o.fh ≠ some i := by
  rw [h.fh]
  split
  · simp
  · exact fun he => hi (Option.some.inj he).symm

/-- A file the writer is not at is complete. -/
theorem full_other {i : Nat} (hi : i ≠ w) : o.full i = o.dir.bytes i := by
  rw [Output.full, if_neg (h.fh_other hi), List.append_nil]

theorem bytes_above {i : Nat} (hi : w < i) : o.dir.bytes i = [] :=
  if_neg fun hm => by have := h.top i hm; omega

theorem full_above {i : Nat} (hi : w < i) : o.full i = [] := by
  rw [h.full_other (by omega), h.bytes_above hi]

theorem full_missing {i : Nat} (hi : i ∉ o.dir.ids) : o.full i = [] := by
  have hne : i ≠ w := fun he => hi (he ▸ h.w_mem)
  rw [h.full_other hne]
  exact if_neg hi

theorem w_le_cp : w ≤ o.cp.id := by
  rw [h.cp]
  split <;> omega

theorem inject (fr : List UInt8) (c : Checkpoint) (pc' : WriterPc) (hpc : pc = .write)
    (hc : c.id = if pc' = .write then w else w + 1) (hpc' : pc' ≠ .fopen) :
    WriterInv w₀ w { o.fwrite fr with cp := c } pc' ∧
      Extends w fr o { o.fwrite fr with cp := c } := by
  subst hpc
  have hfh : o.fh = some w := h.fh
  refine ⟨⟨h.le, h.mem, h.top, ?_, hc, fun hp => absurd hp hpc'⟩, ?_, fun i => List.prefix_refl _,
    fun i _ => rfl, fun i hi => hi, fun i hi => .inl hi, ?_⟩
  · rw [if_neg hpc']
    exact hfh
  · intro i
    change (o.fwrite fr).full i = _
    rw [Output.full_fwrite, hfh]
    simp only [Option.some.injEq, eq_comm]
  · change o.cp.id ≤ c.id
    rw [hc, h.cp, if_pos rfl]
    split <;> omega

theorem spill (n : Nat) : WriterInv w₀ w (o.spill n) pc ∧ Extends w [] o (o.spill n) := by
  by_cases hpc : pc = .fopen
  · have : o.spill n = o := by
      have hfh : o.fh = none := by rw [h.fh, if_pos hpc]
      simp only [Output.spill, hfh]
    rw [this]
    exact ⟨h, by simp, fun i => List.prefix_refl _, fun i _ => rfl, fun i hi => hi,
      fun i hi => .inl hi, le_rfl⟩
  · have ho := h.isOpen hpc
    have hids := o.ids_spill n
    refine ⟨⟨h.le, by rw [hids]; exact h.mem, by rw [hids]; exact h.top, ?_, ?_,
      fun hp => absurd hp hpc⟩, ?_, ?_, ?_, by rw [hids]; exact fun i hi => hi,
      by rw [hids]; exact fun i hi => .inl hi, by rw [Output.cp_spill]⟩
    · rw [Output.fh_spill]
      exact h.fh
    · rw [Output.cp_spill]
      exact h.cp
    · intro i
      rw [Output.full_spill ho]
      simp
    · intro i
      exact (Output.grows_spill ho n i).2
    · intro i hi
      rw [Output.bytes_spill ho, if_neg (h.fh_other hi), List.append_nil]

theorem fclose (hpc : pc = .fclose) :
    WriterInv w₀ w o.fclose .fopen ∧ Extends w [] o o.fclose := by
  have ho := h.isOpen (by simp [hpc])
  obtain ⟨hi, he⟩ := h.spill o.buf.length
  refine ⟨⟨h.le, hi.mem, hi.top, rfl, ?_, fun _ => Output.buf_fflush ho⟩, ?_, he.bytes, he.frozen,
    he.ids, he.fresh, he.bound⟩
  · have := hi.cp
    rw [hpc] at this
    exact this
  · intro i
    simp only [Output.full, Output.fclose]
    rw [Output.bytes_fflush ho]
    simp [Output.full]

theorem fopen (hpc : pc = .fopen) :
    WriterInv w₀ (w + 1) o.fopen .write ∧ Extends w [] o o.fopen := by
  have hcp : o.cp.id = w + 1 := by rw [h.cp, if_neg (by simp [hpc])]
  have hids : ∀ i, i ∈ o.fopen.dir.ids ↔ i ∈ o.dir.ids ∨ i = w + 1 := by
    intro i
    simp only [Output.fopen, hcp]
    exact Dir.mem_ids_create
  have hbytes : ∀ i, o.fopen.dir.bytes i = o.dir.bytes i := fun i => Dir.bytes_create _ _ _
  refine ⟨⟨by have := h.le; omega, ?_, ?_, ?_, ?_, by simp⟩, ?_, ?_, fun i _ => hbytes i, ?_, ?_,
    le_rfl⟩
  · intro i hi hi'
    rw [hids]
    rcases Nat.lt_or_ge w i with hw | hw
    · exact .inr (by omega)
    · exact .inl (h.mem i hi hw)
  · intro i hi
    rcases (hids i).mp hi with hi | hi
    · have := h.top i hi
      omega
    · omega
  · simp only [Output.fopen, hcp, reduceCtorEq, if_false]
  · simp only [Output.fopen, hcp, if_true]
  · intro i
    have hfull : ∀ j, o.fopen.full j = o.dir.bytes j := by
      intro j
      rw [Output.full, hbytes]
      simp only [Output.fopen, h.buf hpc, ite_self, List.append_nil]
    have hfull' : o.full i = o.dir.bytes i := by
      rw [Output.full, h.buf hpc, ite_self, List.append_nil]
    rw [hfull, hfull', ite_self, List.append_nil]
  · intro i
    rw [hbytes]
  · intro i hi
    exact (hids i).mpr (.inl hi)
  · intro i hi
    rcases (hids i).mp hi with hi | hi
    · exact .inl hi
    · exact .inr (by omega)

end WriterInv

/-! ## The bytes of the queue -/

theorem Extends.files {w : Nat} {fr : List UInt8} {o o' : Output} (h : Extends w fr o o')
    (habove : ∀ j, w < j → o.full j = []) (i n : Nat) :
    Span.concat o'.full i n =
      Span.concat o.full i n ++ if i ≤ w ∧ w < i + n then fr else [] := by
  induction n with
  | zero =>
    rw [if_neg (by omega)]
    rfl
  | succ n ih =>
    rw [Span.concat_succ_last, Span.concat_succ_last, ih, h.full, List.append_assoc,
      List.append_assoc]
    congr 1
    by_cases hw : i + n = w
    · rw [if_neg (by omega), if_pos hw, if_pos (by omega), List.nil_append]
    · rw [if_neg hw, List.append_nil]
      by_cases hb : i ≤ w ∧ w < i + n
      · rw [if_pos hb, if_pos (by omega), habove _ hb.2, List.append_nil, List.nil_append]
      · rw [if_neg hb, if_neg (by omega), List.append_nil, List.nil_append]

/-- A writer step appends to the bytes of the queue from any position it has reached. -/
theorem Extends.bytesFrom {w₀ w : Nat} {pc : WriterPc} {fr : List UInt8} {o o' : Output}
    (h : Extends w fr o o') (hw : WriterInv w₀ w o pc) {c : Checkpoint} (hc : c.id ≤ w)
    (hlen : c.id = w → c.offset ≤ (o.full w).length) :
    o'.bytesFrom c = o.bytesFrom c ++ fr := by
  have habove : ∀ j, w < j → o.full j = [] := fun j hj => hw.full_above hj
  -- the files above `w` are empty, so the bound of the queue does not matter
  have htail : Span.concat o'.full (c.id + 1) (o'.cp.id - c.id) =
      Span.concat o.full (c.id + 1) (o.cp.id - c.id) ++ if c.id < w then fr else [] := by
    have hcp := hw.w_le_cp
    have hb := h.bound
    have hk : o'.cp.id - c.id = (o.cp.id - c.id) + (o'.cp.id - o.cp.id) := by omega
    have h0 : ∀ j, c.id + 1 + (o.cp.id - c.id) ≤ j → o.full j = [] :=
      fun j hj => habove j (by omega)
    rw [h.files habove, hk, Span.concat_add h0]
    by_cases hlt : c.id < w
    · rw [if_pos (by omega), if_pos hlt]
    · rw [if_neg (by omega), if_neg hlt]
  rw [Output.bytesFrom, htail, h.full, Output.bytesFrom]
  by_cases hlt : c.id < w
  · rw [if_neg (by omega), if_pos hlt, List.append_nil, List.append_assoc]
  · have hcw : c.id = w := by omega
    have hnil : Span.concat o.full (c.id + 1) (o.cp.id - c.id) = [] :=
      Span.concat_nil (fun j hj => habove j (by omega)) _
    rw [if_pos hcw, if_neg hlt, hcw, List.drop_append_of_le_length (hlen hcw)]
    rw [hcw] at hnil
    rw [hnil, List.append_nil, List.append_nil, List.append_nil]

/-- At the end of its file a position stands at the start of the next one. -/
theorem bytesFrom_next {o : Output} {c : Checkpoint} (hc : (o.full c.id).length ≤ c.offset) {id : Nat}
    (hlt : c.id < id) (hid : id ≤ o.cp.id) (hgap : ∀ j, c.id < j → j < id → o.full j = []) :
    o.bytesFrom c = o.bytesFrom ⟨id, 0⟩ := by
  rw [Output.bytesFrom, List.drop_eq_nil_of_le hc, List.nil_append,
    Span.concat_next hlt hid hgap]
  rfl

/-! ## The invariant -/

/-- The reader has no file yet. -/
structure Waiting (p : System × History) : Prop where
  input : p.1.reader.input = hsInitInput p.2.start
  pc : p.1.reader.pc = .read
  consumed : p.2.consumed = []
  passed : p.2.passed = []

/-- The reader is at `c`. -/
structure Reading (w₀ : Nat) (p : System × History) (c : Checkpoint) : Prop where
  input : p.1.reader.input = .opened c
  mem : c.id ∈ p.1.out.dir.ids
  reached : c = p.2.start ∧ p.2.consumed = [] ∨
    p.2.start ≤ c ∧ c.offset ≤ (p.1.out.dir.bytes c.id).length
  passed : ∀ b ∈ p.2.passed, b.id < c.id
  consumed : Exhausted p.1.out p.2.passed →
    p.2.consumed ++ p.1.out.bytesFrom c = p.1.out.bytesFrom p.2.start
  late : p.1.reader.pc ≠ .read → p.2.late = unread p.1.out c
  old : p.1.reader.pc ≠ .read → c.id < w₀ → unread p.1.out c = false
  found : ∀ id, p.1.reader.pc = .openFound id →
    id ∈ p.1.out.dir.ids ∧ c.id + 1 < id ∧ c.id < w₀ ∧ ∀ i ∈ p.1.out.dir.ids, c.id < i → id ≤ i

structure Inv (w₀ : Nat) (p : System × History) : Prop where
  writer : ∃ w, WriterInv w₀ w p.1.out p.1.wpc
  reader : Waiting p ∨ ∃ c, Reading w₀ p c

/-- What is left behind in the files the reader left is all that can go wrong. -/
theorem Inv.safe_iff {w₀ : Nat} {p : System × History} (h : Inv w₀ p) :
    Safe p ↔ Exhausted p.1.out p.2.passed := by
  refine ⟨And.left, fun he => ⟨he, ?_⟩⟩
  rcases h.reader with hr | ⟨c, hr⟩
  · rw [hr.consumed]
    exact List.nil_prefix
  · rw [← hr.consumed he]
    exact List.prefix_append _ _

/-- A read that returned nothing found the end of the file. -/
theorem length_le_of_take_drop_nil {bs : List UInt8} {offset space : Nat} (hs : 0 < space)
    (h : (bs.drop offset).take space = []) : bs.length ≤ offset := by
  rw [List.take_eq_nil_iff, List.drop_eq_nil_iff] at h
  omega

theorem exhausted_concat {o : Output} {passed : List Checkpoint} {c : Checkpoint} :
    Exhausted o (passed ++ [c]) ↔ Exhausted o passed ∧ (o.full c.id).length ≤ c.offset := by
  simp [Exhausted, or_imp, forall_and]

theorem unread_eq_false {o : Output} {c : Checkpoint} :
    unread o c = false ↔ (o.dir.bytes c.id).length ≤ c.offset := by
  simp [unread]

theorem unread_mono {w : Nat} {fr : List UInt8} {o o' : Output} (h : Extends w fr o o')
    {c : Checkpoint} (hu : unread o c = true) : unread o' c = true := by
  simp only [unread, decide_eq_true_eq] at hu ⊢
  exact lt_of_lt_of_le hu (h.bytes c.id).length_le

section Writer

variable {w₀ w : Nat} {fr : List UInt8} {o o' : Output} {pc : WriterPc}

/-- The files the reader left are not the writer's any more. -/
theorem exhausted_extends (h : Extends w fr o o') {passed : List Checkpoint}
    (hp : ∀ b ∈ passed, b.id < w) : Exhausted o' passed ↔ Exhausted o passed := by
  refine forall₂_congr fun b hb => ?_
  have := hp b hb
  rw [h.full, if_neg (by omega), List.append_nil]

theorem Reading.extends {p : System × History} {c : Checkpoint} (hr : Reading w₀ p c)
    (hw : WriterInv w₀ w p.1.out p.1.wpc) (h : Extends w fr p.1.out o') :
    Reading w₀ (⟨o', pc, p.1.reader⟩, { p.2 with late := p.2.late || unread o' c }) c := by
  have hcw : c.id ≤ w := hw.top _ hr.mem
  have hbytes : ∀ i, (p.1.out.dir.bytes i).length ≤ (o'.dir.bytes i).length :=
    fun i => (h.bytes i).length_le
  have hfull : (p.1.out.dir.bytes c.id).length ≤ (p.1.out.full c.id).length := by
    rw [Output.full, List.length_append]
    omega
  refine ⟨hr.input, h.ids _ hr.mem, ?_, hr.passed, ?_, ?_, ?_, ?_⟩
  · exact hr.reached.imp_right fun hs => ⟨hs.1, hs.2.trans (hbytes _)⟩
  · intro he
    rw [exhausted_extends h fun b hb => (hr.passed b hb).trans_le hcw] at he
    rcases hr.reached with ⟨rfl, hnil⟩ | ⟨hs, hlen⟩
    · change p.2.consumed ++ _ = _
      rw [hnil]
      rfl
    · have hstart := Checkpoint.le_iff.mp hs
      have hc := h.bytesFrom hw hcw fun hcw => hcw ▸ hlen.trans hfull
      have hs := h.bytesFrom hw (c := p.2.start) (by omega) fun hsw => by
        have : p.2.start.offset ≤ c.offset := by omega
        have hcid : c.id = w := by omega
        rw [← hcid]
        omega
      change p.2.consumed ++ o'.bytesFrom c = o'.bytesFrom p.2.start
      rw [hc, hs, ← List.append_assoc, hr.consumed he]
  · intro hpc
    change (p.2.late || unread o' c) = unread o' c
    rw [hr.late hpc]
    cases hu : unread p.1.out c with
    | false => rfl
    | true => rw [unread_mono h hu, Bool.true_or]
  · intro hpc hold
    have hle := hw.le
    have := hr.old hpc hold
    rw [unread_eq_false] at this ⊢
    rw [h.frozen c.id (by omega)]
    exact this
  · intro id hid
    obtain ⟨hm, hgt, hold, hleast⟩ := hr.found id hid
    refine ⟨h.ids id hm, hgt, hold, fun i hi hci => ?_⟩
    rcases h.fresh i hi with hi | hi
    · exact hleast i hi hci
    · have := hw.top id hm
      omega

end Writer

/-! ## The steps -/

section

variable {kind : ReaderKind} {cfg : HsConfig} {varint : Nat → List UInt8} {w₀ : Nat}

def Event.ofWriter : Event → Bool
  | .inject _ | .spill _ | .fclose | .fopen => true
  | _ => false

theorem step_writer {s s' : System} {e : Event} (he : e.ofWriter = true)
    (h : step kind cfg varint s e = some s') {w : Nat} (hw : WriterInv w₀ w s.out s.wpc) :
    s'.reader = s.reader ∧
      ∃ w' fr, WriterInv w₀ w' s'.out s'.wpc ∧ Extends w fr s.out s'.out := by
  cases e with
  | inject pb =>
    simp only [step] at h
    split at h
    · rename_i hpc
      have hcp : s.out.cp.id = w := by rw [hw.cp, if_pos hpc]
      split at h
      · cases h
        obtain ⟨hi, he⟩ := hw.inject (frame varint pb)
          ⟨s.out.cp.id + 1, s.out.cp.offset + (frame varint pb).length⟩ .fclose hpc (by rw [hcp]; rfl) nofun
        exact ⟨rfl, w, _, hi, he⟩
      · cases h
        obtain ⟨hi, he⟩ := hw.inject (frame varint pb)
          ⟨s.out.cp.id, s.out.cp.offset + (frame varint pb).length⟩ .write hpc (by rw [hcp]; rfl) nofun
        exact ⟨rfl, w, _, hpc ▸ hi, he⟩
    · cases h
  | spill n =>
    cases h
    exact ⟨rfl, w, _, (hw.spill n).1, (hw.spill n).2⟩
  | fclose =>
    simp only [step] at h
    split at h
    · cases h
      exact ⟨rfl, w, _, (hw.fclose ‹_›).1, (hw.fclose ‹_›).2⟩
    · cases h
  | fopen =>
    simp only [step] at h
    split at h
    · cases h
      exact ⟨rfl, w + 1, _, (hw.fopen ‹_›).1, (hw.fopen ‹_›).2⟩
    · cases h
  | _ => cases he

theorem see_writer {s s' : System} {e : Event} (he : e.ofWriter = true)
    (h : step kind cfg varint s e = some s') (hist : History) :
    see kind cfg varint s hist e =
      { hist with late := hist.late || unread s'.out s.reader.input.cp } := by
  cases e with
  | inject pb => simp only [see, h]
  | spill n => simp only [see, h]
  | fclose => simp only [see, h]
  | fopen => simp only [see, h]
  | _ => cases he

theorem inv_writer {p q : System × History} {e : Event} (he : e.ofWriter = true)
    (h : observed kind cfg varint p e = some q) (hi : Inv w₀ p) :
    Inv w₀ q ∧ (Exhausted q.1.out q.2.passed ↔ Exhausted p.1.out p.2.passed) := by
  obtain ⟨hstep, hsee⟩ := Runs.observe_some.mp h
  rw [see_writer he hstep] at hsee
  obtain ⟨w, hw⟩ := hi.writer
  obtain ⟨hreader, w', fr, hw', hx⟩ := step_writer he hstep hw
  obtain ⟨⟨out, wpc, reader⟩, hist⟩ := q
  simp only at hsee hreader hw' hx
  subst hsee hreader
  rcases hi.reader with hr | ⟨c, hr⟩
  · refine ⟨⟨⟨w', hw'⟩, .inl ⟨hr.input, hr.pc, hr.consumed, hr.passed⟩⟩, ?_⟩
    simp only [hr.passed, Exhausted, List.not_mem_nil, false_imp_iff, implies_true]
  · have hcp : p.1.reader.input.cp = c := by rw [hr.input]; rfl
    have hcw := hw.top _ hr.mem
    rw [hcp]
    exact ⟨⟨⟨w', hw'⟩, .inr ⟨c, hr.extends hw hx⟩⟩,
      exhausted_extends hx fun b hb => (hr.passed b hb).trans_le hcw⟩

theorem inv_openFirst {p q : System × History} {lookup : Checkpoint} {now : Nat}
    (h : observed kind cfg varint p (.openFirst lookup now) = some q) (hi : Inv w₀ p) :
    Inv w₀ q ∧ (Exhausted q.1.out q.2.passed ↔ Exhausted p.1.out p.2.passed) := by
  obtain ⟨hstep, hsee⟩ := Runs.observe_some.mp h
  obtain ⟨s', hist⟩ := q
  simp only [see] at hsee
  simp only [step] at hstep
  split at hstep
  · rename_i hfh
    cases hstep
    subst hsee
    refine ⟨⟨hi.writer, ?_⟩, Iff.rfl⟩
    rcases hi.reader with hr | ⟨c, hr⟩
    · obtain ⟨hpc, c, hc⟩ := QueueReader.openFirst_cases kind p.1.out.dir hr.input lookup
        now
      rw [hr.pc] at hpc
      rcases hc with hc | ⟨hc, hm⟩
      · exact .inl ⟨by simp only [hc]; rfl, hpc, hr.consumed, hr.passed⟩
      · refine .inr ⟨c, hc, hm, .inl ⟨by simp only [hc]; rfl, hr.consumed⟩, by simp [hr.passed], ?_,
          fun hn => absurd hpc hn, fun hn => absurd hpc hn, fun id hid => ?_⟩
        · intro _
          simp only [hr.consumed, List.nil_append, hc]
          rfl
        · simp only [hpc] at hid
          cases hid
    · rw [hr.input] at hfh
      cases hfh
  · cases hstep

theorem inv_read {p q : System × History} {space now : Nat}
    (h : observed kind cfg varint p (.read space now) = some q) (hi : Inv w₀ p) :
    Inv w₀ q ∧ (Exhausted q.1.out q.2.passed ↔ Exhausted p.1.out p.2.passed) := by
  obtain ⟨hstep, hsee⟩ := Runs.observe_some.mp h
  obtain ⟨s', hist⟩ := q
  simp only [see] at hsee
  simp only [step] at hstep
  split at hstep
  · rename_i hen
    obtain ⟨hpc, hfh, hspace⟩ := hen
    cases hstep
    subst hsee
    refine ⟨⟨hi.writer, ?_⟩, Iff.rfl⟩
    rcases hi.reader with hr | ⟨c, hr⟩
    · rw [hr.input] at hfh
      exact absurd rfl hfh
    · obtain ⟨hin, -, -, hpc'⟩ := QueueReader.readStep_cases kind cfg.outputSize p.1.out.dir hr.input
        space now
      rw [hpc] at hpc'
      replace hpc' := hpc'.imp_left And.left
      simp only [hr.input, HsInput.hsReadFile_opened]
      generalize hbs : ((p.1.out.dir.bytes c.id).drop c.offset).take space = bs at hin hpc' ⊢
      have hlen : bs.length ≤ (p.1.out.dir.bytes c.id).length - c.offset := by
        rw [← hbs, List.length_take, List.length_drop]
        omega
      -- what was read and what is left make up what was left before
      have hsplit : p.1.out.bytesFrom c = bs ++ p.1.out.bytesFrom ⟨c.id, c.offset + bs.length⟩ := by
        have hpre : bs <+: (p.1.out.full c.id).drop c.offset := by
          rw [← hbs]
          exact (List.take_prefix _ _).trans ((List.prefix_append _ _).drop _)
        obtain ⟨rest, hrest⟩ := hpre
        simp only [Output.bytesFrom, ← List.drop_drop]
        rw [← hrest, List.drop_left, List.append_assoc]
      refine .inr ⟨⟨c.id, c.offset + bs.length⟩, hin, hr.mem, ?_, hr.passed, ?_, ?_, ?_, ?_⟩
      · by_cases hnil : bs = []
        · subst hnil
          simpa using hr.reached
        · have hpos : 0 < bs.length := List.length_pos_iff.mpr hnil
          refine .inr ⟨?_, by simp only; omega⟩
          have hle : p.2.start ≤ c := by
            rcases hr.reached with ⟨rfl, -⟩ | ⟨hle, -⟩
            · exact le_rfl
            · exact hle
          refine hle.trans (Checkpoint.le_iff.mpr (.inr ⟨rfl, ?_⟩))
          simp only
          omega
      · intro he
        have := hr.consumed he
        rw [hsplit, ← List.append_assoc] at this
        exact this
      · intro hn
        rcases hpc' with hpc' | ⟨-, hnil⟩
        · exact absurd hpc' hn
        · symm
          subst hnil
          rw [unread_eq_false]
          exact length_le_of_take_drop_nil hspace hbs
      · intro hn _
        rcases hpc' with hpc' | ⟨-, hnil⟩
        · exact absurd hpc' hn
        · subst hnil
          rw [unread_eq_false]
          exact length_le_of_take_drop_nil hspace hbs
      · intro id hid
        rcases hpc' with hpc' | ⟨hpc', -⟩ <;> simp only [hpc'] at hid <;> cases hid
  · cases hstep

/-- The reader leaves its file for the file `id`, with no file between the two. -/
theorem Reading.leave {p : System × History} {c : Checkpoint} (hr : Reading w₀ p c) {w : Nat}
    (hw : WriterInv w₀ w p.1.out p.1.wpc) {r : QueueReader} {id : Nat}
    (hin : r.input = .opened ⟨id, 0⟩) (hpc : r.pc = .read) (hm : id ∈ p.1.out.dir.ids)
    (hlt : c.id < id) (hgap : ∀ i ∈ p.1.out.dir.ids, c.id < i → id ≤ i) :
    Reading w₀ ({ p.1 with reader := r }, p.2.leave p.1.reader r) ⟨id, 0⟩ ∧
      (p.2.leave p.1.reader r).passed = p.2.passed ++ [c] := by
  have hcp : p.1.reader.input.cp = c := by rw [hr.input]; rfl
  have hleave : p.2.leave p.1.reader r = { p.2 with passed := p.2.passed ++ [c] } := by
    have hne : r.input.cp.id ≠ p.1.reader.input.cp.id := by
      rw [hin, hcp]
      exact (show id ≠ c.id by omega)
    rw [History.leave, if_neg hne, hcp]
  rw [hleave]
  refine ⟨⟨hin, hm, .inr ⟨?_, Nat.zero_le _⟩, ?_, ?_, fun hn => absurd hpc hn,
    fun hn => absurd hpc hn, fun i hi => ?_⟩, rfl⟩
  · have hle : p.2.start.id ≤ c.id := by
      rcases hr.reached with ⟨rfl, -⟩ | ⟨hle, -⟩
      · exact le_rfl
      · have := Checkpoint.le_iff.mp hle
        omega
    exact Checkpoint.le_iff.mpr (.inl (lt_of_le_of_lt hle hlt))
  · intro b hb
    rcases List.mem_append.mp hb with hb | hb
    · exact (hr.passed b hb).trans hlt
    · rw [List.mem_singleton.mp hb]
      exact hlt
  · intro he
    obtain ⟨he, hc⟩ := exhausted_concat.mp he
    have hid : id ≤ p.1.out.cp.id := (hw.top id hm).trans hw.w_le_cp
    rw [← hr.consumed he, bytesFrom_next hc hlt hid]
    intro j hcj hjid
    refine hw.full_missing fun hj => ?_
    have := hgap j hj hcj
    omega
  · rw [hpc] at hi
    cases hi

theorem inv_openNext {p q : System × History}
    (h : observed kind cfg varint p .openNext = some q) (hi : Inv w₀ p) :
    Inv w₀ q ∧ (Exhausted p.1.out p.2.passed →
      (Exhausted q.1.out q.2.passed ↔ Admits p .openNext)) := by
  obtain ⟨hstep, hsee⟩ := Runs.observe_some.mp h
  obtain ⟨s', hist⟩ := q
  simp only [see] at hsee
  simp only [step] at hstep
  split at hstep
  · rename_i hpc
    cases hstep
    subst hsee
    obtain ⟨w, hw⟩ := hi.writer
    rcases hi.reader with hr | ⟨c, hr⟩
    · rw [hr.pc] at hpc
      cases hpc
    · have hcp : p.1.reader.input.cp = c := by rw [hr.input]; rfl
      rcases QueueReader.openNext_cases kind cfg.outputSize p.1.out.dir hr.input with
        ⟨hm, hin, hpc', -⟩ | ⟨hm, hin, -, hpc'⟩
      · obtain ⟨hq, hpassed⟩ := hr.leave hw hin hpc' hm (Nat.lt_succ_self _) fun i _ hci => hci
        refine ⟨⟨⟨w, hw⟩, .inr ⟨_, hq⟩⟩, fun he => ?_⟩
        have hwm := hw.top _ hm
        have hlate := hr.late (by simp [hpc])
        -- the file is complete, so what is unread in it is what is left behind
        simp only [hpassed, exhausted_concat, Admits, hcp, hlate, unread_eq_false,
          hw.full_other (show c.id ≠ w by omega)]
        exact ⟨fun h _ => h.2, fun h => ⟨he, h hm⟩⟩
      · have hcp' : (p.1.reader.openNext kind cfg.outputSize p.1.out.dir).input.cp = c := by
          rw [hin]; rfl
        have hleave : p.2.leave p.1.reader
            (p.1.reader.openNext kind cfg.outputSize p.1.out.dir) = p.2 := by
          rw [History.leave, hcp', hcp, if_pos rfl]
        have hne : p.1.reader.pc ≠ .read := by simp [hpc]
        simp only [hleave]
        refine ⟨⟨⟨w, hw⟩, .inr ⟨c, hin, hr.mem, hr.reached, hr.passed, hr.consumed,
          fun _ => hr.late hne, fun _ => hr.old hne, fun id hid => ?_⟩⟩, fun he => ?_⟩
        · rcases hpc' with ⟨hpc', -⟩ | hpc' <;> simp only [hpc'] at hid <;> cases hid
        · exact ⟨fun _ hm' => absurd (hcp ▸ hm') hm, fun _ => he⟩
  · cases hstep

theorem inv_findNext {p q : System × History}
    (h : observed kind cfg varint p .findNext = some q) (hi : Inv w₀ p) :
    Inv w₀ q ∧ (Exhausted q.1.out q.2.passed ↔ Exhausted p.1.out p.2.passed) := by
  obtain ⟨hstep, hsee⟩ := Runs.observe_some.mp h
  obtain ⟨s', hist⟩ := q
  simp only [see] at hsee
  simp only [step] at hstep
  split at hstep
  · rename_i hpc
    cases hstep
    subst hsee
    obtain ⟨w, hw⟩ := hi.writer
    rcases hi.reader with hr | ⟨c, hr⟩
    · rw [hr.pc] at hpc
      cases hpc
    · obtain ⟨hin, -, hpc'⟩ := QueueReader.findNext_cases p.1.out.dir hr.input
      have hne : p.1.reader.pc ≠ .read := by simp [hpc]
      refine ⟨⟨⟨w, hw⟩, .inr ⟨c, hin, hr.mem, hr.reached, hr.passed, hr.consumed,
        fun _ => hr.late hne, fun _ => hr.old hne, fun id hid => ?_⟩⟩, Iff.rfl⟩
      simp only at hid
      rcases hpc' with ⟨hpc', -⟩ | ⟨id', hpc', hm, hgt, hleast⟩
      · rw [hpc'] at hid
        cases hid
      · rw [hpc'] at hid
        cases hid
        refine ⟨hm, hgt, ?_, hleast⟩
        -- from `w₀` on there are no gaps
        by_contra hold
        have := hw.top _ hm
        have := hleast _ (hw.mem (c.id + 1) (by omega) (by omega)) (by omega)
        omega
  · cases hstep

theorem inv_openFound {p q : System × History}
    (h : observed kind cfg varint p .openFound = some q) (hi : Inv w₀ p) :
    Inv w₀ q ∧ (Exhausted q.1.out q.2.passed ↔ Exhausted p.1.out p.2.passed) := by
  obtain ⟨hstep, hsee⟩ := Runs.observe_some.mp h
  obtain ⟨s', hist⟩ := q
  simp only [see] at hsee
  simp only [step] at hstep
  split at hstep
  · rename_i id hpc
    cases hstep
    rw [hpc] at hsee
    subst hsee
    obtain ⟨w, hw⟩ := hi.writer
    rcases hi.reader with hr | ⟨c, hr⟩
    · rw [hr.pc] at hpc
      cases hpc
    · obtain ⟨hm, hgt, hold, hleast⟩ := hr.found id hpc
      have heq := QueueReader.openFound_eq hr.input hm (show c.id ≠ id by omega)
      obtain ⟨hq, hpassed⟩ := hr.leave hw (congrArg QueueReader.input heq) rfl hm (by omega) hleast
      refine ⟨⟨⟨w, hw⟩, .inr ⟨_, hq⟩⟩, ?_⟩
      have hwle := hw.le
      have hread := unread_eq_false.mp (hr.old (by simp [hpc]) hold)
      simp only [hpassed, exhausted_concat, hw.full_other (show c.id ≠ w by omega), hread,
        and_true]
  · cases hstep

theorem inv_step {p q : System × History} {e : Event}
    (h : observed kind cfg varint p e = some q) (hi : Inv w₀ p) :
    Inv w₀ q ∧ (Exhausted p.1.out p.2.passed →
      (Exhausted q.1.out q.2.passed ↔ Admits p e)) := by
  -- only the open of the next file can leave something behind
  have other : ∀ {a b : Prop}, a ∧ (b ↔ Exhausted p.1.out p.2.passed) →
      a ∧ (Exhausted p.1.out p.2.passed → (b ↔ True)) :=
    fun h => ⟨h.1, fun he => iff_true_intro (h.2.mpr he)⟩
  cases e with
  | inject pb => exact other (inv_writer rfl h hi)
  | spill n => exact other (inv_writer rfl h hi)
  | fclose => exact other (inv_writer rfl h hi)
  | fopen => exact other (inv_writer rfl h hi)
  | openFirst lookup now => exact other (inv_openFirst h hi)
  | read space now => exact other (inv_read h hi)
  | openNext => exact inv_openNext h hi
  | findNext => exact other (inv_findNext h hi)
  | openFound => exact other (inv_openFound h hi)

end

theorem inv_start (d : Dir) (cp : Checkpoint) : Inv (findLastId d) (start d cp) := by
  refine ⟨⟨findLastId d, le_rfl, ?_, ?_, rfl, rfl, nofun⟩, .inl ⟨rfl, rfl, rfl, rfl⟩⟩
  · intro i hi hi'
    rw [show i = findLastId d by omega]
    exact Dir.mem_create _ _
  · intro i hi
    have : i ∈ (d.create (findLastId d)).ids := hi
    unfold Dir.create at this
    split at this
    · exact le_findLastId d this
    · rcases List.mem_append.mp this with h | h
      · exact le_findLastId d h
      · exact (List.mem_singleton.mp h).le

/-- The reader consumes a prefix of the queue and leaves nothing behind exactly when it moves on
only to a file that was there before anything more came to the file it leaves. -/
theorem queue_safe_iff (kind : ReaderKind) (cfg : HsConfig) (varint : Nat → List UInt8) (d : Dir)
    (cp : Checkpoint) (es : List Event) :
    Runs.Always (observed kind cfg varint) Safe (start d cp) es ↔
      Runs.Meets (observed kind cfg varint) Admits (start d cp) es := by
  refine Runs.always_iff_meets (I := Inv (findLastId d)) (fun s e s' hi h => (inv_step h hi).1) ?_
    (inv_start d cp) ?_ es
  · intro s e s' hi hs h
    obtain ⟨hi', hiff⟩ := inv_step h hi
    rw [hi'.safe_iff]
    exact hiff (hi.safe_iff.mp hs)
  · rw [(inv_start d cp).safe_iff]
    exact fun c hc => nomatch hc

/-- An empty queue with files of four bytes. The reader finds file 0 empty, the writer fills it,
closes it and creates file 1, and the reader opens file 1. -/
def raceRun : List Event :=
  [.openFirst ⟨0, 0⟩ 1, .read 10 1, .inject [1, 2], .fclose, .fopen, .openNext]

theorem queue_unsafe :
    ¬ Runs.Always (observed .analysis ⟨4, 0, 0⟩ fun n => [UInt8.ofNat n]) Safe
      (start ⟨[], fun _ => []⟩ ⟨0, 0⟩) raceRun := by decide

end ReaderRace

end Hindsight
