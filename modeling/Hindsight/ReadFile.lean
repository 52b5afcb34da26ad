import Hindsight.InputBuffer
import Hindsight.Lib.Run
import Hindsight.Lib.Varint

/-!
# Hindsight.ReadFile

`hs_read_file` in the two `input_thread` loops, on a queue of any bytes. The search for a message and
the read that follows a search without a result are two steps, so that the buffer the read starts from is
a state. What the sandbox library does with the buffer is a parameter, `BufferLib`, and its searches may
stop at any header.

* `Short`: where a search may stop. Less than a header is in the buffer, or a header without the whole of
  its message.
* `ReadRight`: the request is the bytes that are missing, and a read that returns nothing is at the end of
  the file.
* `readRight_iff`: in a short buffer the request is right exactly when the length byte of the pending
  header is not negative as a `char`.
* `need_exact_iff`: so it is in all the states of a run.
-/

namespace Hindsight

namespace ReadFile

/-- `LSB_MAX_HDR_SIZE`. -/
def lsbMaxHdrSize : Nat := 255 + InputBuffer.lsbHdrFrameSize

/-- `initBuffer` is `lsb_init_input_buffer`, `find` is `lsb_find_heka_message`, and `expand` is
`lsb_expand_input_buffer`, which may fail. -/
structure BufferLib where
  maxMessageSize : Nat
  initBuffer : InputBuffer
  find : InputBuffer → InputBuffer × Option (List UInt8)
  expand : InputBuffer → Nat → Option InputBuffer

namespace BufferLib

/-- The size a buffer may grow to. -/
def maxsize (L : BufferLib) : Nat := L.maxMessageSize + lsbMaxHdrSize

/-- The header at `scanpos` is in the buffer, and its message is not too large. -/
def Pending (L : BufferLib) (ib : InputBuffer) : Prop :=
  ib.lengthByte.toNat + InputBuffer.lsbHdrFrameSize ≤ ib.unscanned.length ∧
    ib.msglen ≤ L.maxMessageSize

/-- The message length is set only when the header is complete. -/
def Known (L : BufferLib) (ib : InputBuffer) : Prop := ib.msglen ≠ 0 → L.Pending ib

/-- A buffer without a whole message at `scanpos`. -/
def Short (L : BufferLib) (ib : InputBuffer) : Prop :=
  if ib.msglen ≠ 0 then L.Pending ib ∧ ib.unscanned.length < ib.frameLength
  else ib.unscanned.length < 2 ∨
    ib.unscanned.length < ib.lengthByte.toNat + InputBuffer.lsbHdrFrameSize

/-- `b` holds what `a` holds, in as much room or more. -/
structure Keeps (L : BufferLib) (a b : InputBuffer) : Prop where
  unscanned : b.unscanned = a.unscanned
  msglen : b.msglen = a.msglen
  ok : b.Ok
  size : a.size ≤ b.size
  fits : b.size ≤ L.maxsize

/-- What is relied on: a new buffer has room for a header; a search takes the length byte of a header as
unsigned, and without a result it leaves a short buffer; an expansion gives the room it is asked for, or
fails on what is beyond the maximum size. -/
structure Lawful (L : BufferLib) : Prop where
  max_lt : L.maxMessageSize < 2 ^ 32
  init_ok : L.initBuffer.Ok
  init_msglen : L.initBuffer.msglen = 0
  init_room : lsbMaxHdrSize ≤ L.initBuffer.size
  init_fits : L.initBuffer.size ≤ L.maxsize
  find_ok : ∀ ib, ib.Ok → L.Known ib → (L.find ib).1.Ok
  find_size : ∀ ib, ib.Ok → L.Known ib → (L.find ib).1.size = ib.size
  find_some : ∀ ib, ib.Ok → L.Known ib → (L.find ib).2 ≠ none → (L.find ib).1.msglen = 0
  find_none : ∀ ib, ib.Ok → L.Known ib → (L.find ib).2 = none → L.Short (L.find ib).1
  expand_some : ∀ ib n ib', ib.Ok → ib.size ≤ L.maxsize → L.expand ib n = some ib' →
    L.Keeps ib ib' ∧ n ≤ ib'.size - ib'.readpos
  expand_none : ∀ ib n, ib.Ok → L.expand ib n = none → L.maxsize < ib.unscanned.length + n

end BufferLib

/-- What a pass of the loop meets: the directory as it is then, the bytes `fread` returns at most, the
time, and the checkpoint a reset looks up. -/
structure Turn where
  dir : Dir
  chunk : Nat
  now : Nat
  lookup : Checkpoint

/-- `reads` says that the search returned nothing and `hs_read_file` is next. -/
structure Thread where
  reader : QueueReader
  ib : InputBuffer
  reads : Bool
  deriving DecidableEq, Repr

section

variable (kind : ReaderKind) (outputSize : Nat) (L : BufferLib)

/-- `lsb_find_heka_message` in the loop. -/
def search (s : Thread) : Thread :=
  { s with ib := (L.find s.ib).1, reads := (L.find s.ib).2.isNone }

/-- `hs_read_file` and what the loop does with its result. It exits when the expansion fails. -/
def readFile (s : Thread) (t : Turn) : Option Thread :=
  (L.expand s.ib s.ib.need).map fun ib =>
    let space := min (t.chunk + 1) (ib.size - ib.readpos)
    { reader := s.reader.readStep kind outputSize t.dir space t.now
      ib := ib.append (hsReadFile t.dir s.reader.input space).2
      reads := false }

/-- The searches are the steps without a read that are taken with a file open. -/
def searches (s : Thread) : Bool :=
  !s.reads && decide (s.reader.pc = .read) && s.reader.input.fh.isSome

def step (s : Thread) (t : Turn) : Option Thread :=
  if s.reads then readFile kind outputSize L s t
  else if searches s then some (search L s)
  else
    match s.reader.pc with
    | .read => some { s with reader := s.reader.openFirst kind t.dir t.lookup t.now }
    | .openNext => some { s with reader := s.reader.openNext kind outputSize t.dir }
    | .findNext => some { s with reader := s.reader.findNext t.dir }
    | .openFound id => some { s with reader := s.reader.openFound t.dir id }

/-- A fresh reader at `c`. -/
def start (c : Checkpoint) : Thread := ⟨.init c, L.initBuffer, false⟩

end

/-! ## The request -/

/-- The bytes missing from the pending frame, or with no pending frame the free capacity. -/
def wanted (ib : InputBuffer) : Int :=
  if ib.msglen ≠ 0 then ib.frameLength - (ib.readpos - ib.scanpos) else ib.size - (ib.readpos - ib.scanpos)

/-- The request is what is wanted, there is room after the expansion, and a read that returns nothing
has all of the file behind it. -/
structure ReadRight (L : BufferLib) (s : Thread) : Prop where
  need : (s.ib.need : Int) = wanted s.ib
  room : ∃ ib, L.expand s.ib s.ib.need = some ib ∧ ib.readpos < ib.size
  zero : ∀ (d : Dir) (n : Nat) (ib : InputBuffer), L.expand s.ib s.ib.need = some ib →
    (hsReadFile d s.reader.input (min (n + 1) (ib.size - ib.readpos))).2 = [] →
      s.reader.input.available d = []

/-- The length byte of a pending header is not negative as a `char`. -/
def Unsigned (ib : InputBuffer) : Prop := ib.msglen ≠ 0 → ib.lengthByte.toNat < 128

instance (ib : InputBuffer) : Decidable (Unsigned ib) :=
  inferInstanceAs (Decidable (_ → _))

/-- What holds of the buffer in every state: before a read it is short. -/
structure Inv (L : BufferLib) (s : Thread) : Prop where
  ok : s.ib.Ok
  known : L.Known s.ib
  room : L.initBuffer.size ≤ s.ib.size
  fits : s.ib.size ≤ L.maxsize
  short : s.reads = true → L.Short s.ib

section

variable {L : BufferLib} {ib : InputBuffer}

theorem length_unscanned_int (h : ib.Ok) : (ib.unscanned.length : Int) = ib.readpos - ib.scanpos := by
  have hlen := ib.length_unscanned
  have hle := h.1
  omega

theorem wanted_pending (h : ib.Ok) (hm : ib.msglen ≠ 0) :
    wanted ib = ib.frameLength - ib.unscanned.length := by
  rw [wanted, if_pos hm, length_unscanned_int h]

theorem wanted_free (h : ib.Ok) (hm : ib.msglen = 0) : wanted ib = ib.size - ib.unscanned.length := by
  rw [wanted, if_neg (by simp [hm]), length_unscanned_int h]

/-- A pending frame fits into the largest buffer. -/
theorem frameLength_le (h : L.Pending ib) : ib.frameLength ≤ L.maxsize := by
  have hbyte := ib.lengthByte.toNat_lt
  have hmsg := h.2
  unfold InputBuffer.frameLength BufferLib.maxsize lsbMaxHdrSize
  omega

theorem short_pending (hs : L.Short ib) (hm : ib.msglen ≠ 0) :
    L.Pending ib ∧ ib.unscanned.length < ib.frameLength := by
  rw [BufferLib.Short, if_pos hm] at hs
  exact hs

/-- Without a pending message less than the largest header is in the buffer. -/
theorem short_free (hs : L.Short ib) (hm : ib.msglen = 0) : ib.unscanned.length < lsbMaxHdrSize := by
  have hbyte := ib.lengthByte.toNat_lt
  rw [BufferLib.Short, if_neg (by simp [hm])] at hs
  unfold lsbMaxHdrSize
  unfold InputBuffer.lsbHdrFrameSize at hs ⊢
  omega

theorem short_known (hs : L.Short ib) : L.Known ib := fun hm => (short_pending hs hm).1

/-- A negative length byte makes the request 256 bytes too small, or almost the largest number. -/
theorem need_negative (hL : L.Lawful) (h : ib.Ok) (hs : L.Short ib) (hm : ib.msglen ≠ 0)
    (hc : 128 ≤ ib.lengthByte.toNat) : (ib.need : Int) ≠ wanted ib := by
  have hbyte := ib.lengthByte.toNat_lt
  have hmax : ullongMax = 2 ^ 64 - 1 := rfl
  obtain ⟨⟨-, hmsg⟩, hlt⟩ := short_pending hs hm
  have hsmall := hL.max_lt
  have hread := InputBuffer.sub64_scanpos h
  have hchar : InputBuffer.sizeOfChar ib.lengthByte = ib.lengthByte.toNat + (2 ^ 64 - 256) :=
    if_neg (by omega)
  rw [wanted_pending h hm, InputBuffer.need, if_pos hm, hread, hchar, sub64]
  unfold InputBuffer.frameLength InputBuffer.lsbHdrFrameSize at *
  omega

/-- Otherwise the request is exact, at least one byte, and fits into the largest buffer. -/
theorem need_of_unsigned (hL : L.Lawful) (h : ib.Ok) (hs : L.Short ib)
    (hroom : L.initBuffer.size ≤ ib.size) (hfits : ib.size ≤ L.maxsize) (hu : Unsigned ib) :
    (ib.need : Int) = wanted ib ∧ 0 < ib.need ∧ ib.unscanned.length + ib.need ≤ L.maxsize := by
  by_cases hm : ib.msglen = 0
  · have hneed := InputBuffer.need_free h hm
    have hinit := hL.init_room
    have hfree := short_free hs hm
    rw [wanted_free h hm, hneed]
    omega
  · obtain ⟨hpend, hlt⟩ := short_pending hs hm
    have hframe := frameLength_le hpend
    have hword : ullongMax = 2 ^ 64 - 1 := rfl
    have hsmall := hL.max_lt
    have hlargest : L.maxsize ≤ ullongMax := by
      unfold BufferLib.maxsize lsbMaxHdrSize InputBuffer.lsbHdrFrameSize
      omega
    have hneed := InputBuffer.need_pending h hm (hu hm) hlt.le (hframe.trans hlargest)
    rw [wanted_pending h hm, hneed]
    omega

end

/-- Where the loop reads, it reads right exactly when the length byte is not negative. -/
theorem readRight_iff {L : BufferLib} (hL : L.Lawful) {s : Thread} (h : Inv L s) (hs : s.reads = true) :
    ReadRight L s ↔ Unsigned s.ib := by
  have hshort := h.short hs
  constructor
  · intro hr hm
    by_contra hc
    exact need_negative hL h.ok hshort hm (by omega) hr.need
  · intro hu
    obtain ⟨hneed, hpos, hfit⟩ := need_of_unsigned hL h.ok hshort h.room h.fits hu
    have hroom : ∀ ib, L.expand s.ib s.ib.need = some ib → ib.readpos < ib.size := by
      intro ib he
      have hspace := (hL.expand_some s.ib s.ib.need ib h.ok h.fits he).2
      omega
    refine ⟨hneed, ?_, fun d n ib he hnil => ?_⟩
    · cases he : L.expand s.ib s.ib.need with
      | none =>
        have := hL.expand_none s.ib s.ib.need h.ok he
        omega
      | some ib => exact ⟨ib, rfl, hroom ib he⟩
    · have hspace := hroom ib he
      have htake : (s.reader.input.available d).take (min (n + 1) (ib.size - ib.readpos)) = [] := hnil
      rw [List.take_eq_nil_iff] at htake
      rcases htake with hzero | hend
      · omega
      · exact hend

/-! ## What a step does -/

section

variable {kind : ReaderKind} {outputSize : Nat} {L : BufferLib} {s s' : Thread} {t : Turn}

/-- A step reads, searches, or leaves the buffer alone. -/
theorem step_cases (h : step kind outputSize L s t = some s') :
    (s.reads = true ∧ s'.reads = false ∧ ∃ ib bs, L.expand s.ib s.ib.need = some ib ∧
        bs.length ≤ ib.size - ib.readpos ∧ s'.ib = ib.append bs) ∨
      (searches s = true ∧ s' = search L s) ∨
      (s.reads = false ∧ searches s = false ∧ s'.ib = s.ib ∧ s'.reads = false) := by
  unfold step at h
  split at h
  · rename_i hr
    obtain ⟨ib, he, rfl⟩ := Option.map_eq_some_iff.mp h
    refine .inl ⟨hr, rfl, ib, _, he, ?_, rfl⟩
    change ((s.reader.input.available t.dir).take _).length ≤ _
    rw [List.length_take]
    omega
  · rename_i hr
    have hreads : s.reads = false := by simpa using hr
    split at h
    · rename_i hsearch
      exact .inr (.inl ⟨hsearch, (Option.some.inj h).symm⟩)
    · rename_i hsearch
      refine .inr (.inr ⟨hreads, by simpa using hsearch, ?_⟩)
      cases hpc : s.reader.pc with
      | read | openNext | findNext | openFound id =>
        rw [hpc] at h
        obtain rfl := Option.some.inj h
        exact ⟨rfl, hreads⟩

theorem reads_of_searches (h : searches s = true) : s.reads = false := by
  unfold searches at h
  simp only [Bool.and_eq_true, Bool.not_eq_true'] at h
  exact h.1.1

/-- Bytes behind a complete header do not change it. -/
theorem known_append {ib : InputBuffer} (hok : ib.Ok) (hk : L.Known ib) (bs : List UInt8) :
    L.Known (ib.append bs) := by
  intro hm
  obtain ⟨hhdr, hmsg⟩ := hk hm
  have hun := InputBuffer.unscanned_append hok bs
  have hbyte : (ib.append bs).lengthByte = ib.lengthByte := by
    have hone : 1 < ib.unscanned.length := by
      unfold InputBuffer.lsbHdrFrameSize at hhdr
      omega
    rw [InputBuffer.lengthByte_eq, InputBuffer.lengthByte_eq, hun]
    simp [List.getD_eq_getElem?_getD, List.getElem?_append_left hone]
  refine ⟨?_, hmsg⟩
  rw [hbyte, hun, List.length_append]
  omega

theorem known_keeps {ib ib' : InputBuffer} (h : L.Keeps ib ib') (hk : L.Known ib) : L.Known ib' := by
  intro hm
  rw [h.msglen] at hm
  obtain ⟨hhdr, hmsg⟩ := hk hm
  refine ⟨?_, h.msglen ▸ hmsg⟩
  rw [InputBuffer.lengthByte_eq, h.unscanned, ← InputBuffer.lengthByte_eq]
  exact hhdr

theorem inv_search (hL : L.Lawful) (h : Inv L s) : Inv L (search L s) where
  ok := hL.find_ok s.ib h.ok h.known
  known := by
    cases hf : (L.find s.ib).2 with
    | none => exact short_known (hL.find_none s.ib h.ok h.known hf)
    | some pb =>
      intro hm
      exact absurd (hL.find_some s.ib h.ok h.known (by rw [hf]; exact Option.some_ne_none pb)) hm
  room := by
    change _ ≤ (L.find s.ib).1.size
    rw [hL.find_size s.ib h.ok h.known]
    exact h.room
  fits := by
    change (L.find s.ib).1.size ≤ _
    rw [hL.find_size s.ib h.ok h.known]
    exact h.fits
  short hr := hL.find_none s.ib h.ok h.known (Option.isNone_iff_eq_none.mp hr)

theorem inv_step (hL : L.Lawful) (h : Inv L s) (hs : step kind outputSize L s t = some s') :
    Inv L s' := by
  rcases step_cases hs with ⟨-, hr, ib, bs, he, hbs, hib⟩ | ⟨-, rfl⟩ | ⟨-, -, hib, hr⟩
  · obtain ⟨hkeep, -⟩ := hL.expand_some s.ib s.ib.need ib h.ok h.fits he
    refine ⟨?_, ?_, ?_, ?_, fun hr' => ?_⟩
    · rw [hib]
      exact InputBuffer.ok_append hkeep.ok hbs
    · rw [hib]
      exact known_append hkeep.ok (known_keeps hkeep h.known) bs
    · rw [hib]
      exact h.room.trans hkeep.size
    · rw [hib]
      exact hkeep.fits
    · rw [hr] at hr'
      cases hr'
  · exact inv_search hL h
  · refine ⟨hib ▸ h.ok, hib ▸ h.known, hib ▸ h.room, hib ▸ h.fits, fun hr' => ?_⟩
    rw [hr] at hr'
    cases hr'

theorem inv_start (hL : L.Lawful) (c : Checkpoint) : Inv L (start L c) where
  ok := hL.init_ok
  known hm := absurd hL.init_msglen hm
  room := le_rfl
  fits := hL.init_fits
  short hr := by cases hr

/-- Where the loop reads, it reads right. -/
def Safe (L : BufferLib) (s : Thread) : Prop := s.reads = true → ReadRight L s

/-- A search that finds nothing does not leave a pending header with a length byte from 128 on. -/
def Admits (L : BufferLib) (s : Thread) (_ : Turn) : Prop :=
  searches s = true → (L.find s.ib).2 = none → Unsigned (L.find s.ib).1

theorem safe_step (hL : L.Lawful) (h : Inv L s) (hs : step kind outputSize L s t = some s') :
    Safe L s' ↔ Admits L s t := by
  rcases step_cases hs with ⟨hr, hr', -⟩ | ⟨hsearch, rfl⟩ | ⟨-, hsearch, -, hr'⟩
  · refine iff_of_true (fun hreads => ?_) fun hsearch => ?_
    · rw [hr'] at hreads
      cases hreads
    · rw [reads_of_searches hsearch] at hr
      cases hr
  · have hinv := inv_search hL h
    constructor
    · intro hsafe _ hnone
      have hreads : (search L s).reads = true := Option.isNone_iff_eq_none.mpr hnone
      exact (readRight_iff hL hinv hreads).mp (hsafe hreads)
    · intro hadm hreads
      exact (readRight_iff hL hinv hreads).mpr (hadm hsearch (Option.isNone_iff_eq_none.mp hreads))
  · refine iff_of_true (fun hreads => ?_) fun hs' => ?_
    · rw [hr'] at hreads
      cases hreads
    · rw [hsearch] at hs'
      cases hs'

end

/-- In every run of a reader loop the requests are exact, and a read returns nothing only at the end of
the file, exactly when no search stops at a pending header with a length byte from 128 on. -/
theorem need_exact_iff (kind : ReaderKind) (outputSize : Nat) {L : BufferLib} (hL : L.Lawful)
    (c : Checkpoint) (ts : List Turn) :
    Runs.Always (step kind outputSize L) (Safe L) (start L c) ts ↔
      Runs.Meets (step kind outputSize L) (Admits L) (start L c) ts :=
  Runs.always_iff_meets (I := Inv L) (fun s t s' hi hs => inv_step hL hi hs)
    (fun s t s' hi _ hs => safe_step hL hi hs) (inv_start hL c) (fun hr => by cases hr) ts

/-! ## A library that searches -/

/-- The message length in a header, which is its first field. -/
def decodeHeader (limit : Nat) : List UInt8 → Option Nat
  | [] => none
  | tag :: t =>
    if tag = 8 then ((Varint.decode t).map Prod.fst).filter fun n => 0 < n ∧ n ≤ limit else none

/-- The message length of the frame whose bytes after the record separator are `t`, if its header ends in
a unit separator. -/
def headerAt (limit : Nat) (t : List UInt8) : Option Nat :=
  let hlen := (t.getD 0 0).toNat
  if t.getD (hlen + 1) 0 = 31 then decodeHeader limit ((t.drop 1).take hlen) else none

/-- Any length of header, and the search goes on behind a record separator that starts none. What is left,
the length that is known, and the message. -/
def scan (limit : Nat) : List UInt8 → List UInt8 × Nat × Option (List UInt8)
  | [] => ([], 0, none)
  | c :: t =>
    if c = 30 then
      let hend := (t.getD 0 0).toNat + 2
      if t.length < hend then (c :: t, 0, none)
      else
        match headerAt limit t with
        | none => scan limit t
        | some n =>
          if t.length < hend + n then (c :: t, n, none)
          else (t.drop (hend + n), 0, some ((t.drop hend).take n))
    else scan limit t

theorem headerAt_pos {limit n : Nat} {t : List UInt8} (h : headerAt limit t = some n) : 0 < n ∧ n ≤ limit := by
  simp only [headerAt] at h
  split at h
  · unfold decodeHeader at h
    split at h
    · cases h
    · split at h
      · simpa using (Option.filter_eq_some_iff.mp h).2
      · cases h
  · cases h

theorem scan_suffix (limit : Nat) (u : List UInt8) : (scan limit u).1 <:+ u := by
  fun_induction scan limit u with
  | case1 | case2 | case4 => exact List.suffix_refl _
  | case3 _ _ _ _ ih | case6 _ _ _ ih => exact ih.trans (List.suffix_cons _ _)
  | case5 t => exact (List.drop_suffix _ _).trans (List.suffix_cons _ _)

/-- A search ends with a message, or at a header that is not whole or whose message is not. -/
theorem scan_cases (limit : Nat) (u : List UInt8) :
    ((scan limit u).2.2 ≠ none ∧ (scan limit u).2.1 = 0) ∨
      ((scan limit u).2.2 = none ∧
        if (scan limit u).2.1 ≠ 0 then
          (scan limit u).2.1 ≤ limit ∧ ((scan limit u).1.getD 1 0).toNat + 3 ≤ (scan limit u).1.length ∧
            (scan limit u).1.length < (scan limit u).2.1 + ((scan limit u).1.getD 1 0).toNat + 3
        else (scan limit u).1.length < 2 ∨
          (scan limit u).1.length < ((scan limit u).1.getD 1 0).toNat + 3) := by
  fun_induction scan limit u with
  | case1 => exact .inr ⟨rfl, .inl (by decide)⟩
  | case2 t hend hlt =>
    refine .inr ⟨rfl, .inr ?_⟩
    simp only [List.getD_cons_succ, List.length_cons]
    omega
  | case3 _ _ _ _ ih | case6 _ _ _ ih => exact ih
  | case4 t hend hle n hn hlt =>
    obtain ⟨hpos, hmax⟩ := headerAt_pos hn
    have hne : n ≠ 0 := by omega
    refine .inr ⟨rfl, ?_⟩
    rw [if_pos hne]
    simp only [List.getD_cons_succ, List.length_cons]
    omega
  | case5 => exact .inl ⟨Option.some_ne_none _, rfl⟩

/-- Searches with a buffer of `room` bytes at first. -/
def scanLib (room limit : Nat) : BufferLib where
  maxMessageSize := limit
  initBuffer := ⟨[], room, 0, 0⟩
  find ib :=
    let r := scan limit ib.unscanned
    ({ ib with scanpos := ib.readpos - r.1.length, msglen := r.2.1 }, r.2.2)
  expand ib n :=
    if ib.unscanned.length + n ≤ limit + lsbMaxHdrSize then
      some { ib with
        buf := ib.unscanned
        scanpos := 0
        size := max ib.size (ib.unscanned.length + n) }
    else none

section

variable {room limit : Nat}

theorem scanLib_unscanned (ib : InputBuffer) :
    ((scanLib room limit).find ib).1.unscanned = (scan limit ib.unscanned).1 :=
  (List.suffix_iff_eq_drop.mp ((scan_suffix limit _).trans (List.drop_suffix _ _))).symm

theorem scanLib_short {ib : InputBuffer} (h : ((scanLib room limit).find ib).2 = none) :
    (scanLib room limit).Short ((scanLib room limit).find ib).1 := by
  rcases scan_cases limit ib.unscanned with ⟨hsome, -⟩ | ⟨-, hshort⟩
  · exact absurd h hsome
  · have hbyte := ((scanLib room limit).find ib).1.lengthByte_eq
    have hm : ((scanLib room limit).find ib).1.msglen = (scan limit ib.unscanned).2.1 := rfl
    rw [scanLib_unscanned] at hbyte
    rw [← hm] at hshort
    unfold BufferLib.Short BufferLib.Pending InputBuffer.frameLength InputBuffer.lsbHdrFrameSize
    rw [hbyte, scanLib_unscanned]
    split at hshort
    · rename_i hne
      obtain ⟨hmax, hhdr, hlt⟩ := hshort
      rw [if_pos hne]
      exact ⟨⟨hhdr, hmax⟩, hlt⟩
    · rename_i hzero
      rw [if_neg hzero]
      exact hshort

theorem scanLib_expand {ib : InputBuffer} {n : Nat}
    (h : ib.unscanned.length + n ≤ (scanLib room limit).maxsize) :
    (scanLib room limit).expand ib n = some { ib with
      buf := ib.unscanned
      scanpos := 0
      size := max ib.size (ib.unscanned.length + n) } :=
  if_pos h

theorem scanLib_lawful (hroom : lsbMaxHdrSize ≤ room) (hlimit : limit < 2 ^ 32)
    (hfits : room ≤ limit + lsbMaxHdrSize) : (scanLib room limit).Lawful where
  max_lt := hlimit
  init_ok := by
    refine ⟨Nat.zero_le _, Nat.zero_le _, ?_⟩
    change room < 2 ^ 63
    unfold lsbMaxHdrSize InputBuffer.lsbHdrFrameSize at hfits
    omega
  init_msglen := rfl
  init_room := hroom
  init_fits := hfits
  find_ok ib hok _ := ⟨Nat.sub_le _ _, hok.2⟩
  find_size _ _ _ := rfl
  find_some ib _ _ h := by
    rcases scan_cases limit ib.unscanned with ⟨-, hm⟩ | ⟨hnone, -⟩
    · exact hm
    · exact absurd hnone h
  find_none ib _ _ h := scanLib_short h
  expand_some ib n ib' hok hsize h := by
    obtain ⟨hfit, he⟩ := Option.ite_none_right_eq_some.mp h
    obtain rfl := Option.some.inj he
    have hlt := hok.2.2
    have hle : max ib.size (ib.unscanned.length + n) ≤ limit + lsbMaxHdrSize :=
      sup_le hsize hfit
    have hun := Nat.le_max_right ib.size (ib.unscanned.length + n)
    refine ⟨⟨rfl, rfl, ⟨Nat.zero_le _, ?_, ?_⟩, Nat.le_max_left _ _, hle⟩, ?_⟩
    · change ib.unscanned.length ≤ max ib.size (ib.unscanned.length + n)
      omega
    · change max ib.size (ib.unscanned.length + n) < 2 ^ 63
      unfold lsbMaxHdrSize InputBuffer.lsbHdrFrameSize at hle
      omega
    · change n ≤ max ib.size (ib.unscanned.length + n) - ib.unscanned.length
      omega
  expand_none ib n _ h := by
    by_contra hle
    have hsome : ((scanLib room limit).expand ib n).isSome := by
      rw [scanLib_expand (not_lt.mp hle)]
      rfl
    rw [h] at hsome
    cases hsome

end

/-! ## A header with a length byte from 128 on -/

/-- A frame whose header is the message length and `pad` zeros. -/
def paddedFrame (pad n : Nat) : List UInt8 :=
  [30, UInt8.ofNat (1 + (Varint.encode n).length + pad), 8] ++ Varint.encode n ++
    List.replicate pad 0 ++ [31] ++ List.replicate n 65

def paddedDir (pad n : Nat) : Dir := ⟨[0], fun _ => paddedFrame pad n⟩

/-- The directory is there in every turn, and a read takes all that fits. -/
def turns (pad n k : Nat) : List Turn := List.replicate k ⟨paddedDir pad n, 1000, 0, ⟨0, 0⟩⟩

instance (L : BufferLib) : ∀ s t, Decidable (Admits L s t) := fun s _ =>
  inferInstanceAs (Decidable (searches s = true → (L.find s.ib).2 = none → Unsigned (L.find s.ib).1))

theorem scanLib_first : (scanLib 258 65536).Lawful := scanLib_lawful (by decide) (by decide) (by decide)

/-- A frame of 306 bytes is read in two parts. -/
theorem need_exact_iff_padded :
    Runs.Always (step .analysis 1000 (scanLib 258 65536)) (Safe (scanLib 258 65536))
        (start (scanLib 258 65536) ⟨0, 0⟩) (turns 0 300 8) ∧
      (Runs.run (step .analysis 1000 (scanLib 258 65536)) (start (scanLib 258 65536) ⟨0, 0⟩)
          (turns 0 300 4)).map (fun s => (s.reads, s.ib.need, s.ib.msglen)) = some (true, 48, 300) :=
  ⟨(need_exact_iff .analysis 1000 scanLib_first ⟨0, 0⟩ (turns 0 300 8)).mpr (by decide +kernel),
    by decide +kernel⟩

/-- With 256 bytes missing of a frame whose header is 200 bytes long nothing is asked for, and the read
returns nothing in the middle of the file. -/
theorem need_not_exact :
    ¬Runs.Always (step .analysis 1000 (scanLib 258 65536)) (Safe (scanLib 258 65536))
        (start (scanLib 258 65536) ⟨0, 0⟩) (turns 197 311 4) ∧
      (Runs.run (step .analysis 1000 (scanLib 258 65536)) (start (scanLib 258 65536) ⟨0, 0⟩)
          (turns 197 311 5)).map (fun s =>
            (s.reads, s.reader.input.cp, (s.reader.input.available (paddedDir 197 311)).length)) =
        some (false, ⟨0, 258⟩, 256) := by
  refine ⟨fun hsafe => ?_, by decide +kernel⟩
  obtain ⟨s, hs, hreads, hneed, hwanted⟩ : ∃ s,
      Runs.run (step .analysis 1000 (scanLib 258 65536)) (start (scanLib 258 65536) ⟨0, 0⟩)
        (turns 197 311 4) = some s ∧ s.reads = true ∧ s.ib.need = 0 ∧ wanted s.ib = 256 :=
    ⟨_, rfl, by decide +kernel, by decide +kernel, by decide +kernel⟩
  have hright := (hsafe.run hs hreads).need
  rw [hneed, hwanted] at hright
  cases hright

end ReadFile

end Hindsight
