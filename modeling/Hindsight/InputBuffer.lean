import Hindsight.Input

/-!
# Hindsight.InputBuffer

The buffer of `hs_input` (`lsb_input_buffer`) and `hs_read_file` with it. The functions that find a
message in the buffer, make room in it and encode a length belong to the sandbox library; they are
parameters, `SandboxLib`, and `Lawful` is what is relied on.
-/

namespace Hindsight

/-- `buf` holds the bytes up to `readpos`; `size` is the room. `msglen` is the length in the header
at `scanpos` once it is known. -/
structure InputBuffer where
  buf : List UInt8
  size : Nat
  scanpos : Nat
  msglen : Nat
  deriving DecidableEq, Repr

namespace InputBuffer

def readpos (ib : InputBuffer) : Nat := ib.buf.length

/-- The bytes read and not scanned. -/
def unscanned (ib : InputBuffer) : List UInt8 := ib.buf.drop ib.scanpos

/-- The positions are in order, and the buffer is no larger than an object can be. -/
def Ok (ib : InputBuffer) : Prop :=
  ib.scanpos ≤ ib.readpos ∧ ib.readpos ≤ ib.size ∧ ib.size < 2 ^ 63

theorem length_unscanned (ib : InputBuffer) : ib.unscanned.length = ib.readpos - ib.scanpos := by
  rw [unscanned, List.length_drop, readpos]

/-- `LSB_HDR_FRAME_SIZE`. -/
def lsbHdrFrameSize : Nat := 3

/-- `(size_t)` of a `char`. The type is signed: a byte from 128 on becomes a word near the top. -/
def sizeOfChar (c : UInt8) : Nat := if c.toNat < 128 then c.toNat else c.toNat + (2 ^ 64 - 256)

/-- The length byte of the header at `scanpos`. -/
def lengthByte (ib : InputBuffer) : UInt8 := ib.buf.getD (ib.scanpos + 1) 0

/-- The bytes of the frame at `scanpos`, its length known. -/
def frameLength (ib : InputBuffer) : Nat := ib.msglen + ib.lengthByte.toNat + lsbHdrFrameSize

/-- The room `hs_read_file` asks for: the rest of the message, or all that shifting gives. -/
def need (ib : InputBuffer) : Nat :=
  if ib.msglen ≠ 0 then
    sub64 (ib.msglen + sizeOfChar ib.lengthByte + lsbHdrFrameSize)
      (sub64 ib.readpos ib.scanpos)
  else sub64 (ib.scanpos + ib.size) ib.readpos

/-- The bytes `fread` puts behind `readpos`. -/
def append (ib : InputBuffer) (bs : List UInt8) : InputBuffer := { ib with buf := ib.buf ++ bs }

theorem unscanned_append {ib : InputBuffer} (h : ib.Ok) (bs : List UInt8) :
    (ib.append bs).unscanned = ib.unscanned ++ bs := by
  rw [unscanned, append, unscanned, List.drop_append_of_le_length h.1]

theorem ok_append {ib : InputBuffer} (h : ib.Ok) {bs : List UInt8}
    (hbs : bs.length ≤ ib.size - ib.readpos) : (ib.append bs).Ok := by
  obtain ⟨h1, h2, h3⟩ := h
  simp only [Ok, readpos, append, List.length_append] at *
  omega

theorem length_unscanned_le {ib : InputBuffer} (h : ib.Ok) : ib.unscanned.length ≤ ib.size := by
  have hlen := ib.length_unscanned
  obtain ⟨h1, h2, h3⟩ := h
  omega

/-- What the loops compute of the unscanned bytes. -/
theorem sub64_scanpos {ib : InputBuffer} (h : ib.Ok) : sub64 ib.readpos ib.scanpos = ib.unscanned.length := by
  have hword : ullongMax = 2 ^ 64 - 1 := rfl
  obtain ⟨h1, h2, h3⟩ := h
  rw [sub64_of_le h1 (by omega), ib.length_unscanned]

theorem lengthByte_eq (ib : InputBuffer) : ib.lengthByte = ib.unscanned.getD 1 0 := by
  simp [lengthByte, unscanned, List.getD_eq_getElem?_getD, List.getElem?_drop]

theorem sizeOfChar_of_lt {c : UInt8} (h : c.toNat < 128) : sizeOfChar c = c.toNat := if_pos h

/-- Without a pending message `hs_read_file` asks for all the room the scanned bytes leave. -/
theorem need_free {ib : InputBuffer} (h : ib.Ok) (hm : ib.msglen = 0) :
    ib.need = ib.size - ib.unscanned.length := by
  have hmax : ullongMax = 2 ^ 64 - 1 := rfl
  have hlen := ib.length_unscanned
  obtain ⟨h1, h2, h3⟩ := h
  rw [need, if_neg (by simp [hm]), sub64_of_le (by omega) (by omega)]
  omega

/-- With one it asks for the rest of it, as long as the length byte of the header is not negative. -/
theorem need_pending {ib : InputBuffer} (h : ib.Ok) (hm : ib.msglen ≠ 0)
    (hc : ib.lengthByte.toNat < 128) (hle : ib.unscanned.length ≤ ib.frameLength)
    (hmax : ib.frameLength ≤ ullongMax) : ib.need = ib.frameLength - ib.unscanned.length := by
  rw [need, if_pos hm, sizeOfChar_of_lt hc, sub64_scanpos h, ← frameLength, sub64_of_le hle hmax]

end InputBuffer

/-- `varint` is `lsb_pb_output_varint`, `accepts` the messages `lsb_decode_heka_message` takes,
`find` is `lsb_find_heka_message` and `expand` is `lsb_expand_input_buffer`, in buffers that may grow to
`maxsize`. -/
structure SandboxLib where
  maxsize : Nat
  varint : Nat → List UInt8
  accepts : List UInt8 → Prop
  initBuffer : InputBuffer
  find : InputBuffer → InputBuffer × Option (List UInt8)
  expand : InputBuffer → Nat → InputBuffer

namespace SandboxLib

/-- The length of the frame header of a message. -/
def headerLength (L : SandboxLib) (pb : List UInt8) : Nat := 4 + (L.varint pb.length).length

theorem length_frame (L : SandboxLib) (pb : List UInt8) :
    (frame L.varint pb).length = L.headerLength pb + pb.length := by
  simp only [frame, headerLength, List.length_append, List.length_cons, List.length_nil]
  omega

/-- `ib'` holds `bs` unscanned, in as much room as `ib` or more. -/
structure Holds (ib ib' : InputBuffer) (bs : List UInt8) : Prop where
  unscanned : ib'.unscanned = bs
  ok : ib'.Ok
  size : ib.size ≤ ib'.size

/-- The message length is known exactly when the whole header of `pb` is in the buffer. -/
def KnowsLength (L : SandboxLib) (ib : InputBuffer) (pb : List UInt8) : Prop :=
  ib.msglen = if L.headerLength pb ≤ ib.unscanned.length then pb.length else 0

/-- What is known of the message at `scanpos` before it is looked for: nothing, or its length. -/
def MayKnow (L : SandboxLib) (ib : InputBuffer) (pb : List UInt8) : Prop :=
  ib.msglen = 0 ∨ L.headerLength pb ≤ ib.unscanned.length ∧ ib.msglen = pb.length

/-- `lsb_find_heka_message` returns the next whole frame and moves `scanpos` past it, and returns
false on an incomplete one; `lsb_expand_input_buffer` only shifts or grows the buffer, and does so for
what fits into it as it is or up to the maximum. The header of a message holds no more than its length, its
frame fits into the largest buffer, and a new buffer has room for a header. -/
structure Lawful (L : SandboxLib) : Prop where
  max_lt : L.maxsize < 2 ^ 63
  length_byte : ∀ pb, L.accepts pb → (L.varint pb.length).length + 1 < 128
  frame_fits : ∀ pb, L.accepts pb → (frame L.varint pb).length ≤ L.maxsize
  init_ok : L.initBuffer.Ok
  init_empty : L.initBuffer.unscanned = []
  init_msglen : L.initBuffer.msglen = 0
  init_room : ∀ pb, L.accepts pb → L.headerLength pb ≤ L.initBuffer.size
  find_empty : ∀ ib, ib.Ok → ib.unscanned = [] → ib.msglen = 0 →
    (L.find ib).2 = none ∧ Holds ib (L.find ib).1 [] ∧ (L.find ib).1.msglen = 0
  find_whole : ∀ ib pb rest, L.accepts pb → ib.Ok → L.MayKnow ib pb →
    ib.unscanned = frame L.varint pb ++ rest →
    (L.find ib).2 = some pb ∧ Holds ib (L.find ib).1 rest ∧ (L.find ib).1.msglen = 0
  find_part : ∀ ib pb, L.accepts pb → ib.Ok → L.MayKnow ib pb → ib.unscanned ≠ [] →
    ib.unscanned <+: frame L.varint pb → ib.unscanned ≠ frame L.varint pb →
    (L.find ib).2 = none ∧ Holds ib (L.find ib).1 ib.unscanned ∧ L.KnowsLength (L.find ib).1 pb
  expand : ∀ ib n, ib.Ok → ib.unscanned.length + n ≤ max ib.size L.maxsize →
    Holds ib (L.expand ib n) ib.unscanned ∧ (L.expand ib n).msglen = ib.msglen ∧
      n ≤ (L.expand ib n).size - (L.expand ib n).readpos

end SandboxLib

end Hindsight
