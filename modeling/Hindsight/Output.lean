import Hindsight.Checkpoint
import Hindsight.Lib.Chunk
import Hindsight.Lib.Select
import Mathlib

/-!
# Hindsight.Output

The writer side of a queue (`hs_output.c` and the body the three `inject_message` functions
share). A queue is a directory of files `<id>.log`; the writer appends to one of them through a
stdio stream, so part of what it wrote may still be in the stream's buffer.

* `Output.full o id`: what file `id` holds once the stream is flushed.
* `Output.InQueue o r`, `Output.OnDisk o r`: the frame `r` stands where it was written, counting
  the buffered bytes or only those on disk.
* `Grows`: all operations only append, so both are stable; `fflush` and the roll-over turn
  `InQueue` into `OnDisk`.
-/

namespace Hindsight

/-- The canonically named files of a queue directory: the ids in `readdir` order and the bytes of
each file. -/
structure Dir where
  ids : List Nat
  data : Nat → List UInt8

namespace Dir

/-- The bytes of file `id`; a missing file has none. -/
def bytes (d : Dir) (id : Nat) : List UInt8 := if id ∈ d.ids then d.data id else []

/-- `fopen` in append mode: an existing file is kept. -/
def create (d : Dir) (id : Nat) : Dir :=
  if id ∈ d.ids then d else { ids := d.ids ++ [id], data := Function.update d.data id [] }

def append (d : Dir) (id : Nat) (bs : List UInt8) : Dir :=
  { d with data := Function.update d.data id (d.data id ++ bs) }

@[simp] theorem bytes_create (d : Dir) (id k : Nat) : (d.create id).bytes k = d.bytes k := by
  unfold create
  split
  · rfl
  · rename_i h
    by_cases hk : k = id
    · subst hk
      simp [bytes, h]
    · simp [bytes, hk]

theorem mem_create (d : Dir) (id : Nat) : id ∈ (d.create id).ids := by
  unfold create
  split
  · assumption
  · simp

theorem mem_ids_create {d : Dir} {id k : Nat} : k ∈ (d.create id).ids ↔ k ∈ d.ids ∨ k = id := by
  unfold create
  split
  · exact ⟨.inl, fun h => h.elim (fun h => h) fun h => h ▸ ‹_›⟩
  · simp

@[simp] theorem ids_append (d : Dir) (id : Nat) (bs : List UInt8) :
    (d.append id bs).ids = d.ids := rfl

theorem bytes_append_same {d : Dir} {id : Nat} (h : id ∈ d.ids) (bs : List UInt8) :
    (d.append id bs).bytes id = d.bytes id ++ bs := by
  simp [bytes, append, h]

theorem bytes_append_other {d : Dir} {id k : Nat} (h : k ≠ id) (bs : List UInt8) :
    (d.append id bs).bytes k = d.bytes k := by
  simp [bytes, append, h]

end Dir

/-- The options of `hs_config` the queue writers read. -/
structure HsConfig where
  outputSize : Nat
  backpressure : Nat
  backpressureDf : Nat

/-- `hs_output`. `fh` is the id of the file the stream is open on, `buf` the bytes still in the
stream's buffer. -/
structure Output where
  dir : Dir
  fh : Option Nat
  buf : List UInt8
  cp : Checkpoint
  minCpId : Nat

namespace Output

def fwrite (o : Output) (bs : List UInt8) : Output := { o with buf := o.buf ++ bs }

/-- The stream hands the first `n` buffered bytes to the file. -/
def spill (o : Output) (n : Nat) : Output :=
  match o.fh with
  | none => o
  | some id => { o with dir := o.dir.append id (o.buf.take n), buf := o.buf.drop n }

def fflush (o : Output) : Output := o.spill o.buf.length

def fclose (o : Output) : Output := { o.fflush with fh := none }

/-- `fopen(fqfn, "a+e")` and the `ftell` at the end of the file. -/
def fopen (o : Output) : Output :=
  { o with
    dir := o.dir.create o.cp.id
    fh := some o.cp.id
    cp := { o.cp with offset := (o.dir.bytes o.cp.id).length } }

end Output

def hsOpenOutputFile (o : Output) : Output := o.fclose.fopen

def findLastId (d : Dir) : Nat := d.ids.foldl (fun last id => if id > last then id else last) 0

theorem findLastId_greatest (d : Dir) : findLastId d = Select.greatest (fun _ => True) 0 d.ids :=
  Select.foldl_eq_greatest 0 d.ids

theorem le_findLastId (d : Dir) {i : Nat} (hi : i ∈ d.ids) : i ≤ findLastId d := by
  rw [findLastId_greatest]
  exact Select.greatest_spec.2.2 i hi trivial

theorem findLastId_le {d : Dir} {b : Nat} (h : ∀ id ∈ d.ids, id ≤ b) : findLastId d ≤ b := by
  rw [findLastId_greatest]
  obtain ⟨-, hfound, -⟩ : 0 ≤ Select.greatest (fun _ => True) 0 d.ids ∧ _ ∧ _ := Select.greatest_spec
  rcases hfound with hzero | ⟨hmem, -⟩
  · exact hzero.trans_le (Nat.zero_le b)
  · exact h _ hmem

/-- `hs_init_output` on the directory `d`. -/
def hsInitOutput (d : Dir) : Output :=
  hsOpenOutputFile
    { dir := d, fh := none, buf := [], cp := ⟨findLastId d, 0⟩, minCpId := findLastId d }

/-! ## Injecting a message -/

/-- The frame `inject_message` writes: record separator, header length, tag `0x08` and the length
of the message as `lsb_pb_output_varint` encodes it (`varint`), unit separator, message. -/
def frame (varint : Nat → List UInt8) (pb : List UInt8) : List UInt8 :=
  [0x1e, UInt8.ofNat ((varint pb.length).length + 1), 0x08] ++ varint pb.length ++ [0x1f] ++ pb

theorem frame_ne_nil (varint : Nat → List UInt8) (pb : List UInt8) : frame varint pb ≠ [] := by
  simp [frame]

/-- The two `fwrite`s, the new offset and the roll-over of `inject_message`. The id is a 64-bit
number. -/
def appendFrame (cfg : HsConfig) (varint : Nat → List UInt8) (o : Output) (pb : List UInt8) :
    Output :=
  let fr := frame varint pb
  let o1 := o.fwrite fr
  let o2 : Output := { o1 with cp := { o1.cp with offset := o1.cp.offset + fr.length } }
  if o2.cp.offset ≥ cfg.outputSize then
    hsOpenOutputFile { o2 with cp := { o2.cp with id := (o2.cp.id + 1) % 2 ^ 64 } }
  else o2

/-- What `statfs` reports: block size and blocks available. -/
structure StatFs where
  bsize : Nat
  bavail : Nat

/-- `hs_disk_free_ob`; `none` is a failing `statfs`. -/
def hsDiskFreeOb (fs : Option StatFs) (obSize : Nat) : Nat :=
  match fs with
  | none => 0
  | some b => if obSize = 0 then 0 else b.bsize * b.bavail % 2 ^ 64 / obSize % 2 ^ 32

/-- The static variables of one `inject_message`. -/
structure Backpressure where
  lastBpCheck : Nat
  backpressure : Bool

/-- What a call reads from outside: the clock and the results of the two `statfs` calls. -/
structure InjectEnv where
  now : Nat
  applyFs : Option StatFs
  releaseFs : Option StatFs

/-- Unsigned 64-bit subtraction. -/
def sub64 (a b : Nat) : Nat := (a + (2 ^ 64 - b % 2 ^ 64)) % 2 ^ 64

theorem sub64_of_le {a b : Nat} (h : b ≤ a) (ha : a ≤ ullongMax) : sub64 a b = a - b := by
  have hmax : ullongMax = 2 ^ 64 - 1 := rfl
  rw [sub64, Nat.mod_eq_of_lt (by omega : b < 2 ^ 64)]
  omega

/-- The test at a roll-over. -/
def applyBackpressure (cfg : HsConfig) (env : InjectEnv) (o : Output) (on : Bool) : Bool :=
  let on' := on ||
    (cfg.backpressure != 0 && decide (sub64 o.cp.id o.minCpId > cfg.backpressure))
  on' || (cfg.backpressureDf != 0 &&
    decide (hsDiskFreeOb env.applyFs cfg.outputSize ≤ cfg.backpressureDf))

/-- The once-per-second test for releasing the backpressure. -/
def releaseBackpressure (cfg : HsConfig) (env : InjectEnv) (o : Output) (b : Backpressure) :
    Backpressure :=
  if b.backpressure && decide (b.lastBpCheck < env.now) then
    let release := cfg.backpressureDf == 0 ||
      decide (hsDiskFreeOb env.releaseFs cfg.outputSize > cfg.backpressureDf)
    { lastBpCheck := env.now
      backpressure := !(o.cp.id == o.minCpId && release) }
  else b

/-- The critical section of `inject_message` under the lock of the queue: the queue, the statics
of this `inject_message`, and whether the caller is throttled. -/
def injectFrame (cfg : HsConfig) (varint : Nat → List UInt8) (env : InjectEnv) (o : Output)
    (b : Backpressure) (pb : List UInt8) : Output × Backpressure × Bool :=
  let rolled := o.cp.offset + (frame varint pb).length ≥ cfg.outputSize
  let o' := appendFrame cfg varint o pb
  let b1 : Backpressure :=
    if rolled then { b with backpressure := applyBackpressure cfg env o' b.backpressure } else b
  let b2 := releaseBackpressure cfg env o' b1
  (o', b2, b2.backpressure)

/-! ## What is in the queue and what is on disk -/

namespace Output

/-- The stream is open on a file that exists. -/
def Open (o : Output) : Prop := ∃ id ∈ o.dir.ids, o.fh = some id

/-- The bytes of file `id`, those in the buffer of the stream included. -/
def full (o : Output) (id : Nat) : List UInt8 :=
  o.dir.bytes id ++ if o.fh = some id then o.buf else []

/-- `o'` is `o` with bytes appended. -/
def Grows (o o' : Output) : Prop :=
  ∀ id, o.full id <+: o'.full id ∧ o.dir.bytes id <+: o'.dir.bytes id

/-- A frame and the place it was written to. -/
structure Written where
  file : Nat
  start : Nat
  bytes : List UInt8
  deriving DecidableEq

def InQueue (o : Output) (r : Written) : Prop := Chunk.At (o.full r.file) r.start r.bytes

def OnDisk (o : Output) (r : Written) : Prop := Chunk.At (o.dir.bytes r.file) r.start r.bytes

instance (o : Output) (r : Written) : Decidable (o.OnDisk r) :=
  inferInstanceAs (Decidable (Chunk.At (o.dir.bytes r.file) r.start r.bytes))

/-- Where the next write of `bs` goes: the end of the file the stream is open on. -/
def next (o : Output) (bs : List UInt8) : Written :=
  ⟨o.fh.getD 0, (o.full (o.fh.getD 0)).length, bs⟩

theorem Grows.refl (o : Output) : Grows o o := fun _ => ⟨List.prefix_refl _, List.prefix_refl _⟩

theorem Grows.trans {a b c : Output} (h : Grows a b) (h' : Grows b c) : Grows a c :=
  fun id => ⟨(h id).1.trans (h' id).1, (h id).2.trans (h' id).2⟩

theorem OnDisk.mono {o o' : Output} {r : Written} (h : o.OnDisk r) (hg : Grows o o') :
    o'.OnDisk r := Chunk.At.mono h (hg r.file).2

theorem InQueue.mono {o o' : Output} {r : Written} (h : o.InQueue r) (hg : Grows o o') :
    o'.InQueue r := Chunk.At.mono h (hg r.file).1

theorem OnDisk.inQueue {o : Output} {r : Written} (h : o.OnDisk r) : o.InQueue r :=
  Chunk.At.mono h (List.prefix_append _ _)

/-! ### The stdio operations -/

theorem bytes_spill {o : Output} (ho : o.Open) (n id : Nat) :
    (o.spill n).dir.bytes id = o.dir.bytes id ++ if o.fh = some id then o.buf.take n else [] := by
  obtain ⟨f, hf, hfh⟩ := ho
  simp only [spill, hfh, Option.some.injEq]
  by_cases h : f = id
  · subst h
    rw [if_pos rfl, Dir.bytes_append_same hf]
  · rw [if_neg h, Dir.bytes_append_other (Ne.symm h), List.append_nil]

@[simp] theorem fh_spill (o : Output) (n : Nat) : (o.spill n).fh = o.fh := by
  unfold spill; split <;> simp_all

@[simp] theorem cp_spill (o : Output) (n : Nat) : (o.spill n).cp = o.cp := by
  unfold spill; split <;> rfl

@[simp] theorem ids_spill (o : Output) (n : Nat) : (o.spill n).dir.ids = o.dir.ids := by
  unfold spill; split <;> rfl

theorem buf_spill {o : Output} (ho : o.Open) (n : Nat) : (o.spill n).buf = o.buf.drop n := by
  obtain ⟨f, -, hfh⟩ := ho
  simp [spill, hfh]

theorem open_spill {o : Output} (ho : o.Open) (n : Nat) : (o.spill n).Open := by
  obtain ⟨f, hf, hfh⟩ := ho
  exact ⟨f, by simpa [spill, hfh] using hf, by simpa using hfh⟩

theorem full_spill {o : Output} (ho : o.Open) (n id : Nat) : (o.spill n).full id = o.full id := by
  rw [full, bytes_spill ho, fh_spill, buf_spill ho, full]
  by_cases h : o.fh = some id
  · simp [h]
  · simp [h]

theorem grows_spill {o : Output} (ho : o.Open) (n : Nat) : Grows o (o.spill n) := by
  intro id
  rw [full_spill ho, bytes_spill ho]
  exact ⟨List.prefix_refl _, List.prefix_append _ _⟩

/-- After a flush the files hold everything that was written. -/
theorem bytes_fflush {o : Output} (ho : o.Open) (id : Nat) : o.fflush.dir.bytes id = o.full id := by
  rw [fflush, bytes_spill ho, List.take_length, full]

theorem buf_fflush {o : Output} (ho : o.Open) : o.fflush.buf = [] := by
  rw [fflush, buf_spill ho, List.drop_length]

theorem open_fflush {o : Output} (ho : o.Open) : o.fflush.Open := open_spill ho _

theorem grows_fflush {o : Output} (ho : o.Open) : Grows o o.fflush := grows_spill ho _

theorem InQueue.fflush {o : Output} {r : Written} (h : o.InQueue r) (ho : o.Open) :
    o.fflush.OnDisk r := by
  unfold OnDisk
  rw [bytes_fflush ho]
  exact h

/-- A write appends to the file the stream is open on. -/
theorem full_fwrite (o : Output) (bs : List UInt8) (id : Nat) :
    (o.fwrite bs).full id = o.full id ++ if o.fh = some id then bs else [] := by
  by_cases h : o.fh = some id
  · simp [full, fwrite, h]
  · simp [full, fwrite, h]

theorem grows_fwrite (o : Output) (bs : List UInt8) : Grows o (o.fwrite bs) := by
  intro id
  rw [full_fwrite]
  exact ⟨List.prefix_append _ _, List.prefix_refl _⟩

theorem inQueue_fwrite {o : Output} (ho : o.Open) (bs : List UInt8) :
    (o.fwrite bs).InQueue (o.next bs) := by
  obtain ⟨f, -, hfh⟩ := ho
  have hnext : o.next bs = ⟨f, (o.full f).length, bs⟩ := by simp [next, hfh]
  rw [InQueue, hnext, full_fwrite, if_pos hfh]
  exact Chunk.at_end _ _

/-- The file state and the stream, without the bookkeeping of `hs_output`. -/
theorem full_congr {o o' : Output} (hd : o'.dir = o.dir) (hf : o'.fh = o.fh)
    (hb : o'.buf = o.buf) (id : Nat) : o'.full id = o.full id := by
  simp only [full, hd, hf, hb]

end Output

open Output

/-- Opening the next file closes, and so flushes, the current one. -/
theorem bytes_hsOpenOutputFile {o : Output} (ho : o.Open) (id : Nat) :
    (hsOpenOutputFile o).dir.bytes id = o.full id := by
  simp only [hsOpenOutputFile, fopen, fclose, Dir.bytes_create]
  exact bytes_fflush ho id

theorem full_hsOpenOutputFile {o : Output} (ho : o.Open) (id : Nat) :
    (hsOpenOutputFile o).full id = o.full id := by
  rw [full, bytes_hsOpenOutputFile ho]
  simp only [hsOpenOutputFile, fopen, fclose, buf_fflush ho, ite_self, List.append_nil]

/-- The offset is the size of the file that was opened. -/
theorem cp_hsOpenOutputFile {o : Output} (ho : o.Open) :
    (hsOpenOutputFile o).cp = ⟨o.cp.id, (o.full o.cp.id).length⟩ := by
  rw [← bytes_fflush ho]
  simp [hsOpenOutputFile, fopen, fclose, fflush]

theorem id_hsOpenOutputFile (o : Output) : (hsOpenOutputFile o).cp.id = o.cp.id := by
  simp [hsOpenOutputFile, fopen, fclose, fflush]

theorem fh_hsOpenOutputFile (o : Output) : (hsOpenOutputFile o).fh = some o.cp.id := by
  simp [hsOpenOutputFile, fopen, fclose, fflush]

theorem mem_ids_hsOpenOutputFile {o : Output} {id : Nat} :
    id ∈ (hsOpenOutputFile o).dir.ids ↔ id ∈ o.dir.ids ∨ id = o.cp.id := by
  simp [hsOpenOutputFile, fopen, fclose, fflush, Dir.mem_ids_create]

theorem open_hsOpenOutputFile (o : Output) : (hsOpenOutputFile o).Open :=
  ⟨o.fclose.cp.id, Dir.mem_create _ _, rfl⟩

theorem grows_hsOpenOutputFile {o : Output} (ho : o.Open) : Grows o (hsOpenOutputFile o) := by
  intro id
  rw [full_hsOpenOutputFile ho, bytes_hsOpenOutputFile ho]
  exact ⟨List.prefix_refl _, List.prefix_append _ _⟩

theorem open_hsInitOutput (d : Dir) : (hsInitOutput d).Open := open_hsOpenOutputFile _

section AppendFrame

variable {cfg : HsConfig} {varint : Nat → List UInt8}

variable (cfg varint) in
/-- `appendFrame` writes the frame and possibly rolls over; either way the stream is left on an
existing file and what was there is kept. -/
theorem appendFrame_cases (o : Output) (pb : List UInt8) :
    ∃ o1 : Output, o1.dir = o.dir ∧ o1.fh = o.fh ∧ o1.buf = o.buf ++ frame varint pb ∧
      (appendFrame cfg varint o pb = o1 ∨ appendFrame cfg varint o pb = hsOpenOutputFile o1) := by
  simp only [appendFrame]
  split
  · refine ⟨_, ?_, ?_, ?_, .inr rfl⟩ <;> rfl
  · refine ⟨_, ?_, ?_, ?_, .inl rfl⟩ <;> rfl

theorem open_appendFrame {o : Output} (ho : o.Open) (pb : List UInt8) :
    (appendFrame cfg varint o pb).Open := by
  obtain ⟨o1, hd, hf, -, h | h⟩ := appendFrame_cases cfg varint o pb
  · obtain ⟨f, hmem, hfh⟩ := ho
    rw [h]
    exact ⟨f, by rw [hd]; exact hmem, by rw [hf]; exact hfh⟩
  · rw [h]
    exact open_hsOpenOutputFile _

theorem grows_appendFrame {o : Output} (ho : o.Open) (pb : List UInt8) :
    Grows (o.fwrite (frame varint pb)) (appendFrame cfg varint o pb) := by
  obtain ⟨o1, hd, hf, hb, h | h⟩ := appendFrame_cases cfg varint o pb
  · intro id
    rw [h, full_congr (o := o.fwrite (frame varint pb)) hd hf hb, hd]
    exact ⟨List.prefix_refl _, List.prefix_refl _⟩
  · have ho1 : o1.Open := by
      obtain ⟨f, hmem, hfh⟩ := ho
      exact ⟨f, by rw [hd]; exact hmem, by rw [hf]; exact hfh⟩
    intro id
    have hg := grows_hsOpenOutputFile ho1 id
    rw [full_congr (o := o.fwrite (frame varint pb)) hd hf hb, hd] at hg
    rw [h]
    exact hg

theorem grows_append {o : Output} (ho : o.Open) (pb : List UInt8) :
    Grows o (appendFrame cfg varint o pb) :=
  (grows_fwrite o _).trans (grows_appendFrame ho pb)

/-- The frame is in the queue, at the place it was written to. -/
theorem inQueue_appendFrame {o : Output} (ho : o.Open) (pb : List UInt8) :
    (appendFrame cfg varint o pb).InQueue (o.next (frame varint pb)) :=
  (inQueue_fwrite ho _).mono (grows_appendFrame ho pb)

end AppendFrame

end Hindsight
