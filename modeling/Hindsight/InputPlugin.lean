import Mathlib

/-!
# Hindsight.InputPlugin

The checkpoint of an input plugin (`hs_ip_checkpoint`) and the first critical section of its
`inject_message`. Numbers are of an arbitrary type `δ`; `none` stands for NaN. Strings are C
strings without their final zero byte.
-/

namespace Hindsight

/-- `HS_MAX_IP_CHECKPOINT`. -/
def hsMaxIpCheckpoint : Nat := 8192

inductive CpType where
  | none
  | numeric
  | string
  deriving DecidableEq, Repr

/-- The union `value`: the number, or the string buffer (`none` is the null pointer). -/
inductive CpValue (δ : Type) where
  | d (x : δ)
  | s (buf : Option (List UInt8))
  deriving DecidableEq, Repr

structure IpCheckpoint (δ : Type) where
  type : CpType
  len : Nat
  cap : Nat
  value : CpValue δ
  deriving DecidableEq, Repr

/-- A value of the checkpoint store. -/
inductive LuaValue (δ : Type) where
  | nil
  | num (x : δ)
  | str (bytes : List UInt8)
  deriving DecidableEq, Repr

namespace IpCheckpoint

variable {δ : Type}

def init : IpCheckpoint δ := ⟨.none, 0, 0, .s none⟩

/-- The string member of the union. A number that is in the union is given up first; the zero of a
new checkpoint reads as the null pointer. -/
def stringMember (cp : IpCheckpoint δ) : Option (List UInt8) :=
  match cp.type, cp.value with
  | .numeric, _ => none
  | _, .s buf => buf
  | _, .d _ => none

/-- `memcpy` of `src` into the string buffer, which is replaced when it is too short: the new buffer
and its capacity. A buffer that is long enough keeps its tail. -/
def place (cp : IpCheckpoint δ) (src : List UInt8) : Option (List UInt8) × Nat :=
  if src.length > cp.cap then (some src, src.length)
  else (cp.stringMember.map fun b => src ++ b.drop src.length, cp.cap)

/-- A number frees the string. -/
def setNumber (x : δ) (cp : IpCheckpoint δ) : IpCheckpoint δ :=
  match cp.type with
  | .string => ⟨.numeric, 0, 0, .d x⟩
  | _ => { cp with type := .numeric, value := .d x }

/-- `update_checkpoint`: the new checkpoint and whether the call succeeded. `len` is an unsigned int,
and counts the final zero byte. -/
def updateCheckpoint (d : Option δ) (s : Option (List UInt8)) (cp : IpCheckpoint δ) :
    IpCheckpoint δ × Bool :=
  match d, s with
  | some x, _ => (cp.setNumber x, true)
  | none, some str =>
    let len := (str.length + 1) % 2 ^ 32
    if len ≤ hsMaxIpCheckpoint then
      let buf := cp.place ((str ++ [0]).take len)
      (⟨.string, len, buf.2, .s buf.1⟩, true)
    else (⟨.string, len, cp.cap, .s cp.stringMember⟩, false)
  | none, none => (cp, true)

/-- What `hs_update_checkpoint` puts into the store. -/
def toLua (cp : IpCheckpoint δ) : LuaValue δ :=
  match cp.type, cp.value with
  | .string, .s (some b) => .str (b.take cp.len)
  | .string, .s none => .str []
  | .numeric, .d x => .num x
  | _, _ => .nil

end IpCheckpoint

/-- `hs_input_plugin`. `call` is the message of an `inject_message` call between its two critical
sections. -/
structure InputPlugin (δ : Type) where
  cp : IpCheckpoint δ
  call : Option (List UInt8)
  deriving DecidableEq, Repr

namespace InputPlugin

variable {δ : Type}

/-- The first critical section of `inject_message`. A call without a message or with a rejected
checkpoint returns after it. -/
def injectMessage (p : InputPlugin δ) (pb : Option (List UInt8)) (d : Option δ)
    (s : Option (List UInt8)) : InputPlugin δ :=
  let (cp, ok) := p.cp.updateCheckpoint d s
  { cp := cp, call := if ok then pb else none }

end InputPlugin

end Hindsight
