import Hindsight.ReaderResume

/-!
# Hindsight.ByteOrigins

Where the bytes in a reader's buffer were read. `hs_open_file` goes on to the next file without emptying
the buffer, so they may be of several files.

* `Traced`: the bytes are of earlier files first, and then of the reader's file up to its position.
* `endsAt_iff`: the position recorded for a message is its end exactly when the message lies behind the
  bytes of earlier files.
* `Scans`: what is relied on of the sandbox library.
* `Tracks`: the invariant of a reader and its buffer, kept by a search, a read and the open of a later file.
-/

namespace Hindsight

namespace ByteOrigins

open ReaderResume (Delivery)

/-! ## The bytes of a buffer -/

/-- `n` bytes of file `id` from `start` on, each as the position after it. -/
def positions (id start n : Nat) : List Checkpoint :=
  (List.range n).map fun i => ⟨id, start + i + 1⟩

@[simp] theorem length_positions (id start n : Nat) : (positions id start n).length = n := by
  simp [positions]

theorem positions_append (id start m n : Nat) :
    positions id start m ++ positions id (start + m) n = positions id start (m + n) := by
  simp only [positions, List.range_add, List.map_append, List.map_map]
  congr 1
  refine List.map_congr_left fun i _ => ?_
  simp only [Function.comp_apply, Nat.add_assoc]

theorem positions_drop (id start n k : Nat) :
    (positions id start n).drop k = positions id (start + k) (n - k) := by
  rcases Nat.le_total n k with h | h
  · rw [List.drop_of_length_le (by rw [length_positions]; exact h), Nat.sub_eq_zero_of_le h]
    rfl
  · have hsplit := positions_append id start k (n - k)
    rw [Nat.add_sub_cancel' h] at hsplit
    rw [← hsplit]
    exact List.drop_left' (length_positions id start k)

theorem mem_positions {id start n : Nat} {o : Checkpoint} (h : o ∈ positions id start n) : o.id = id := by
  obtain ⟨i, -, rfl⟩ := List.mem_map.mp h
  rfl

/-- The bytes of a reader at `c`: some of earlier files, and then those of its file up to `c`. The file is
read from its start where there are bytes of earlier ones. -/
structure Split (c : Checkpoint) (os carried : List Checkpoint) (start : Nat) : Prop where
  eq : os = carried ++ positions c.id start (c.offset - start)
  start_le : start ≤ c.offset
  zero : carried ≠ [] → start = 0
  earlier : ∀ o ∈ carried, o.id < c.id

def Traced (c : Checkpoint) (os : List Checkpoint) : Prop := ∃ carried start, Split c os carried start

section

variable {c : Checkpoint} {os carried : List Checkpoint} {start : Nat}

theorem traced_nil (c : Checkpoint) : Traced c [] := by
  refine ⟨[], c.offset, ⟨?_, le_rfl, fun h => absurd rfl h, fun o ho => (by cases ho)⟩⟩
  rw [Nat.sub_self]
  rfl

theorem traced_drop (h : Traced c os) (n : Nat) : Traced c (os.drop n) := by
  obtain ⟨carried, start, ⟨heq, hle, hzero, hearlier⟩⟩ := h
  by_cases hn : n ≤ carried.length
  · refine ⟨carried.drop n, start, ⟨?_, hle, fun hne => hzero ?_, fun o ho => ?_⟩⟩
    · rw [heq, List.drop_append_of_le_length hn]
    · rintro rfl
      exact hne List.drop_nil
    · exact hearlier o (List.mem_of_mem_drop ho)
  · obtain ⟨k, rfl⟩ := Nat.exists_eq_add_of_le (Nat.le_of_not_le hn)
    by_cases hk : k ≤ c.offset - start
    · refine ⟨[], start + k, ⟨?_, by omega, fun hne => absurd rfl hne, fun o ho => (by cases ho)⟩⟩
      rw [heq, List.drop_length_add_append, positions_drop, Nat.sub_sub]
      rfl
    · have hnil : os.drop (carried.length + k) = [] := by
        rw [heq, List.drop_length_add_append, positions_drop, Nat.sub_eq_zero_of_le (by omega)]
        rfl
      rw [hnil]
      exact traced_nil c

/-- A read goes on where the last one ended. -/
theorem traced_read (h : Traced c os) (n : Nat) :
    Traced ⟨c.id, c.offset + n⟩ (os ++ positions c.id c.offset n) := by
  obtain ⟨carried, start, ⟨heq, hle, hzero, hearlier⟩⟩ := h
  refine ⟨carried, start, ⟨?_, by simp only; omega, hzero, hearlier⟩⟩
  have happend := positions_append c.id start (c.offset - start) n
  rw [Nat.add_sub_cancel' hle] at happend
  have hlen : c.offset + n - start = c.offset - start + n := by omega
  rw [heq, List.append_assoc, happend, hlen]

/-- All bytes are of earlier files when a later one is opened. -/
theorem traced_open (h : Traced c os) {id : Nat} (hlt : c.id < id) : Traced ⟨id, 0⟩ os := by
  obtain ⟨carried, start, ⟨heq, hle, hzero, hearlier⟩⟩ := h
  refine ⟨os, 0, ⟨(List.append_nil os).symm, le_rfl, fun _ => rfl, fun o ho => ?_⟩⟩
  rw [heq] at ho
  rcases List.mem_append.mp ho with ho | ho
  · exact (hearlier o ho).trans hlt
  · exact (mem_positions ho).trans_lt hlt

/-- The bytes of other files. -/
def carriedCount (id : Nat) (os : List Checkpoint) : Nat := os.countP fun o => decide (o.id ≠ id)

theorem Split.carriedCount_eq (h : Split c os carried start) : carriedCount c.id os = carried.length := by
  rw [h.eq, carriedCount, List.countP_append]
  have hall : carried.countP (fun o => decide (o.id ≠ c.id)) = carried.length :=
    List.countP_eq_length.mpr fun o ho => decide_eq_true (h.earlier o ho).ne
  have hnone : (positions c.id start (c.offset - start)).countP (fun o => decide (o.id ≠ c.id)) = 0 :=
    List.countP_eq_zero.mpr fun o ho => by simp [mem_positions ho]
  rw [hall, hnone, Nat.add_zero]

/-- `n` bytes were passed over, of which the last `len` are the message: it ends where `rest` bytes
before `c` end, and all of it is of that file. -/
def EndsAt (c : Checkpoint) (len rest : Nat) (scanned : List Checkpoint) : Prop :=
  rest ≤ c.offset ∧ scanned.getLast? = some ⟨c.id, c.offset - rest⟩ ∧
    ∀ o ∈ scanned.drop (scanned.length - len), o.id = c.id

/-- The message lies behind the bytes of earlier files. -/
theorem endsAt_iff (h : Traced c os) {n len : Nat} (hpos : 0 < n) (hn : n ≤ os.length)
    (hlen : len ≤ n) :
    EndsAt c len (os.length - n) (os.take n) ↔
      carriedCount c.id os + len ≤ n ∧ carriedCount c.id os < n := by
  obtain ⟨carried, start, hsplit⟩ := h
  rw [hsplit.carriedCount_eq]
  obtain ⟨heq, hle, hzero, hearlier⟩ := hsplit
  have hlength : os.length = carried.length + (c.offset - start) := by
    rw [heq, List.length_append, length_positions]
  have htake : (os.take n).length = n := by rw [List.length_take, Nat.min_eq_left hn]
  have hlast : (os.take n).getLast? = os[n - 1]? := by
    rw [List.getLast?_eq_getElem?, htake, List.getElem?_take_of_lt (by omega)]
  rw [EndsAt, htake, hlast]
  by_cases hbehind : carried.length < n
  · have hrest : os.length - n ≤ c.offset := by
      by_cases hnil : carried = []
      · rw [hnil] at hlength
        simp only [List.length_nil] at hlength
        omega
      · have := hzero hnil
        omega
    have hget : os[n - 1]? = some ⟨c.id, c.offset - (os.length - n)⟩ := by
      have hi : n - 1 - carried.length < c.offset - start := by omega
      have hstop : start + (n - 1 - carried.length) + 1 = c.offset - (os.length - n) := by omega
      rw [heq, List.getElem?_append_right (by omega), ← heq, positions, List.getElem?_map,
        List.getElem?_range hi, Option.map_some, hstop]
    rw [and_iff_right hrest, and_iff_right hget, and_iff_left hbehind]
    constructor
    · intro hall
      by_contra hnot
      -- the first byte of the message is of an earlier file
      have hi : n - len < carried.length := by omega
      have hmem : carried[n - len] ∈ (os.take n).drop (n - len) := by
        refine List.mem_iff_getElem?.mpr ⟨0, ?_⟩
        rw [List.getElem?_drop, Nat.add_zero, List.getElem?_take_of_lt (by omega), heq,
          List.getElem?_append_left hi, List.getElem?_eq_getElem hi]
      exact (hearlier _ (List.getElem_mem hi)).ne (hall _ hmem)
    · intro hbefore o ho
      have hj : n - len = carried.length + (n - len - carried.length) := by omega
      rw [List.drop_take, hj, ← List.drop_drop] at ho
      have ho := List.mem_of_mem_drop (List.mem_of_mem_take ho)
      rw [heq, List.drop_left] at ho
      exact mem_positions ho
  · refine iff_of_false (fun h => ?_) fun h => hbehind h.2
    have hi : n - 1 < carried.length := by omega
    have hget := h.2.1
    rw [heq, List.getElem?_append_left hi, List.getElem?_eq_getElem hi] at hget
    have hid := congrArg Checkpoint.id (Option.some.inj hget)
    exact (hearlier _ (List.getElem_mem hi)).ne hid

end

/-! ## A search and what is observed of it -/

/-- What is relied on of `lsb_find_heka_message` and `lsb_expand_input_buffer`: the one moves `scanpos`
forward, to the end of a message that it finds behind its header, and the other moves the bytes that are not
scanned yet. -/
structure Scans (L : SandboxLib) : Prop where
  init_ok : L.initBuffer.Ok
  init_empty : L.initBuffer.unscanned = []
  find_ok : ∀ ib, ib.Ok → (L.find ib).1.Ok
  find_suffix : ∀ ib, ib.Ok → (L.find ib).1.unscanned <:+ ib.unscanned
  find_message : ∀ ib pb, ib.Ok → (L.find ib).2 = some pb →
    ∃ t, t ≠ [] ∧ ib.unscanned = t ++ pb ++ (L.find ib).1.unscanned
  expand_ok : ∀ ib n, ib.Ok → (L.expand ib n).Ok
  expand_same : ∀ ib n, ib.Ok → (L.expand ib n).unscanned = ib.unscanned

/-- A message that was found, and where the bytes were read that were passed over to find it. -/
structure Found where
  delivery : Delivery
  scanned : List Checkpoint
  deriving DecidableEq, Repr

/-- Where the bytes were read that are not scanned yet, and what was found. -/
structure Origins where
  unscanned : List Checkpoint
  found : List Found
  deriving DecidableEq, Repr

/-- The bytes a search passes over. -/
def scannedCount (L : SandboxLib) (ib : InputBuffer) : Nat :=
  ib.unscanned.length - (L.find ib).1.unscanned.length

namespace Origins

/-- `lsb_find_heka_message`, and where it finds nothing `hs_read_file`, which leads to `i'`. What is recorded
for a message is computed when it is taken up; until then nothing else is read. -/
def search (L : SandboxLib) (g : Origins) (i : HsInput) (ib : InputBuffer) (i' : HsInput) : Origins :=
  let n := scannedCount L ib
  let rest := (L.find ib).1
  match (L.find ib).2 with
  | some pb =>
    ⟨g.unscanned.drop n,
      g.found ++ [⟨⟨pb, i.cp, rest.readpos - rest.scanpos⟩, g.unscanned.take n⟩]⟩
  | none =>
    ⟨g.unscanned.drop n ++ positions i.cp.id i.cp.offset (i'.cp.offset - i.cp.offset), g.found⟩

/-- The checkpoint of each message found so far is its end. -/
def Safe (g : Origins) : Prop :=
  ∀ f ∈ g.found, EndsAt f.delivery.cp f.delivery.message.length f.delivery.pending f.scanned

/-- A message that is found lies behind the bytes of earlier files. -/
def Behind (L : SandboxLib) (g : Origins) (i : HsInput) (ib : InputBuffer) : Prop :=
  ∀ pb, (L.find ib).2 = some pb →
    carriedCount i.cp.id g.unscanned + pb.length ≤ scannedCount L ib ∧
      carriedCount i.cp.id g.unscanned < scannedCount L ib

end Origins

/-- Every byte that is not scanned yet is traced to its file. -/
structure Tracks (i : HsInput) (ib : InputBuffer) (os : List Checkpoint) (c : Checkpoint) : Prop where
  input : i = .opened c
  ok : ib.Ok
  length : os.length = ib.unscanned.length
  traced : Traced c os

/-- The first file is not open yet, or the bytes are traced. -/
def Follows (i : HsInput) (ib : InputBuffer) (os : List Checkpoint) : Prop :=
  ((∃ c, i = hsInitInput c) ∧ ib.Ok ∧ ib.unscanned = [] ∧ os = []) ∨ ∃ c, Tracks i ib os c

section

variable {L : SandboxLib} {g : Origins} {i i' : HsInput} {ib : InputBuffer} {os : List Checkpoint}
  {c : Checkpoint}

theorem Follows.tracks (h : Follows i ib os) (hfh : i.fh ≠ none) : ∃ c, Tracks i ib os c := by
  refine h.resolve_left ?_
  rintro ⟨⟨c, rfl⟩, -⟩
  exact hfh rfl

theorem Follows.ok (h : Follows i ib os) : ib.Ok := by
  rcases h with ⟨-, hok, -⟩ | ⟨c, h⟩
  · exact hok
  · exact h.ok

theorem follows_init (hL : Scans L) (c : Checkpoint) : Follows (hsInitInput c) L.initBuffer [] :=
  .inl ⟨⟨c, rfl⟩, hL.init_ok, hL.init_empty, rfl⟩

/-- The first file is opened with nothing in the buffer. -/
theorem follows_open (hok : ib.Ok) (hnil : ib.unscanned = []) (c : Checkpoint) :
    Follows (.opened c) ib [] :=
  .inr ⟨c, rfl, hok, by rw [hnil]; rfl, traced_nil c⟩

theorem Tracks.fh (h : Tracks i ib os c) : i.fh ≠ none := by
  rw [h.input]
  exact nofun

theorem Tracks.cp (h : Tracks i ib os c) : i.cp = c := by
  rw [h.input]
  rfl

/-- The reader goes on to a later file with the bytes it has. -/
theorem Tracks.open (h : Tracks i ib os c) {id : Nat} (hlt : c.id < id) :
    Tracks (.opened ⟨id, 0⟩) ib os ⟨id, 0⟩ :=
  ⟨rfl, h.ok, h.length, traced_open h.traced hlt⟩

theorem scannedCount_le (ib : InputBuffer) : scannedCount L ib ≤ ib.unscanned.length :=
  Nat.sub_le _ _

/-- The search leaves what it did not pass over. -/
theorem length_find (hL : Scans L) (hok : ib.Ok) :
    (L.find ib).1.unscanned.length = ib.unscanned.length - scannedCount L ib := by
  have := (hL.find_suffix ib hok).length_le
  unfold scannedCount
  omega

theorem length_lt_scanned (hL : Scans L) (hok : ib.Ok) {pb : List UInt8}
    (hfind : (L.find ib).2 = some pb) : pb.length < scannedCount L ib := by
  obtain ⟨t, ht, heq⟩ := hL.find_message ib pb hok hfind
  have hpos := List.length_pos_iff.mpr ht
  have hlen := congrArg List.length heq
  rw [List.length_append, List.length_append] at hlen
  unfold scannedCount
  omega

theorem search_some {pb : List UInt8} (hfind : (L.find ib).2 = some pb) :
    g.search L i ib i' =
      ⟨g.unscanned.drop (scannedCount L ib), g.found ++
        [⟨⟨pb, i.cp, (L.find ib).1.readpos - (L.find ib).1.scanpos⟩,
          g.unscanned.take (scannedCount L ib)⟩]⟩ := by
  simp only [Origins.search, hfind]

theorem search_none (hfind : (L.find ib).2 = none) :
    g.search L i ib i' =
      ⟨g.unscanned.drop (scannedCount L ib) ++
        positions i.cp.id i.cp.offset (i'.cp.offset - i.cp.offset), g.found⟩ := by
  simp only [Origins.search, hfind]

theorem Tracks.length_drop (h : Tracks i ib os c) (hL : Scans L) :
    (os.drop (scannedCount L ib)).length = (L.find ib).1.unscanned.length := by
  rw [List.length_drop, h.length, length_find hL h.ok]

theorem Tracks.found (h : Tracks i ib g.unscanned c) (hL : Scans L) {pb : List UInt8}
    (hfind : (L.find ib).2 = some pb) :
    Tracks i (L.find ib).1 (g.search L i ib i').unscanned c := by
  rw [search_some hfind]
  exact ⟨h.input, hL.find_ok ib h.ok, h.length_drop hL, traced_drop h.traced _⟩

/-- The bytes a read adds are those of the file from the checkpoint on. -/
theorem Tracks.read (h : Tracks i ib g.unscanned c) (hL : Scans L) (hfind : (L.find ib).2 = none) (v : Dir)
    (n : Nat) :
    ∃ k, Tracks (readInto L v i (L.find ib).1 n).1 (readInto L v i (L.find ib).1 n).2.1
      (g.search L i ib (readInto L v i (L.find ib).1 n).1).unscanned ⟨c.id, c.offset + k⟩ := by
  have hok := hL.expand_ok _ (L.find ib).1.need (hL.find_ok _ h.ok)
  have hsame := hL.expand_same _ (L.find ib).1.need (hL.find_ok _ h.ok)
  rw [search_none hfind, readInto, h.input, HsInput.hsReadFile_opened]
  generalize L.expand (L.find ib).1 (L.find ib).1.need = ib' at hok hsame
  generalize hbs : ((v.bytes c.id).drop c.offset).take (min (n + 1) (ib'.size - ib'.readpos)) = bs
  have hroom : bs.length ≤ ib'.size - ib'.readpos := by
    rw [← hbs, List.length_take]
    omega
  refine ⟨bs.length, rfl, InputBuffer.ok_append hok hroom, ?_, ?_⟩
  · simp only [HsInput.opened, Nat.add_sub_cancel_left]
    rw [InputBuffer.unscanned_append hok, hsame, List.length_append, List.length_append, h.length_drop hL,
      length_positions]
  · simp only [HsInput.opened, Nat.add_sub_cancel_left]
    exact traced_read (traced_drop h.traced _) bs.length

theorem safe_append {f : Found} (hS : g.Safe) :
    Origins.Safe ⟨os, g.found ++ [f]⟩ ↔
      EndsAt f.delivery.cp f.delivery.message.length f.delivery.pending f.scanned := by
  constructor
  · intro h
    exact h f (List.mem_append_right _ (List.mem_singleton_self f))
  · intro h x hx
    rcases List.mem_append.mp hx with hx | hx
    · exact hS x hx
    · rw [List.mem_singleton.mp hx]
      exact h

/-- A search records the end of a message exactly when the message lies behind the bytes of earlier
files. -/
theorem Tracks.safe_iff (h : Tracks i ib g.unscanned c) (hL : Scans L) (hS : g.Safe) :
    (g.search L i ib i').Safe ↔ g.Behind L i ib := by
  cases hfind : (L.find ib).2 with
  | none =>
    rw [search_none hfind]
    exact iff_of_true hS fun pb hpb => (by cases hfind.symm.trans hpb)
  | some pb =>
    have hlt := length_lt_scanned hL h.ok hfind
    have hpending : (L.find ib).1.readpos - (L.find ib).1.scanpos =
        g.unscanned.length - scannedCount L ib := by
      rw [← InputBuffer.length_unscanned, length_find hL h.ok, h.length]
    have hends := endsAt_iff h.traced (by omega : 0 < scannedCount L ib)
      (by rw [h.length]; exact scannedCount_le _) hlt.le
    rw [search_some hfind, safe_append hS]
    simp only [h.cp, hpending]
    refine hends.trans ⟨fun hbehind pb' hfind' => ?_, fun hbehind => ?_⟩
    · obtain rfl : pb = pb' := Option.some.inj (hfind.symm.trans hfind')
      rw [h.cp]
      exact hbehind
    · rw [← h.cp]
      exact hbehind pb hfind

end

end ByteOrigins

end Hindsight
