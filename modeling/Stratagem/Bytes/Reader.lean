import Stratagem.Bytes.Item
import Stratagem.Text.Quoted

/-
  Reading bytes.

  A read that fails for want of bytes stays where it was.

  Key definitions include:
    * `DecodeError`
    * `ByteReader`
    * `Decoder`
    * `Decoder.take`
    * `Item.Kind`
    * `Decoder.item`
-/

namespace Stratagem

------------------------------------------------------------
-- Errors
------------------------------------------------------------

/- Bytes that are not what they should be. -/
inductive DecodeError where
  | unexpectedEnd (offset : Nat)
  | invalidText (offset : Nat)
  | invalidTag (tag : UInt8) (offset : Nat)
  | invalidMagic (magic : UInt32)
  | invalidOpcode (byte : UInt8) (offset : Nat)
deriving DecidableEq

/- The wording of an error. -/
def DecodeError.message : DecodeError → String
  | .unexpectedEnd offset =>
      s!"Unexpected end of input at offset {offset}"
  | .invalidText offset =>
      s!"Invalid modified UTF-8 string at offset {offset}"
  | .invalidTag tag offset =>
      s!"Invalid constant pool tag {tag.toNat} at offset " ++
        s!"{offset}"
  | .invalidMagic magic =>
      s!"Invalid magic number 0x" ++
        Text.paddedHex 8 magic.toNat
  | .invalidOpcode byte offset =>
      "Invalid opcode 0x" ++ Text.paddedHex 1 byte.toNat ++
        s!" at offset {offset}"

------------------------------------------------------------
-- Readers
------------------------------------------------------------

/- Bytes and the position of the next one to read. -/
structure ByteReader where
  data : Array UInt8
  position : Nat := 0

namespace ByteReader

/- Whether a byte is left. -/
def hasMore
    (r : ByteReader) : Bool :=
  r.position < r.data.size

/- How many bytes are left. -/
def remaining
    (r : ByteReader) : Nat :=
  r.data.size - r.position

/- The bytes that are left. -/
def rest
    (r : ByteReader) : List UInt8 :=
  r.data.toList.drop r.position

end ByteReader

/- A reading step; a failure does not undo earlier steps. -/
abbrev Decoder :=
  ExceptT DecodeError (StateM ByteReader)

namespace Decoder

/- The position of the next byte. -/
def position : Decoder Nat := do
  return (← get).position

/- Whether a byte is left. -/
def hasMore : Decoder Bool := do
  return (← get).hasMore

/- The next `count` bytes. -/
def take
    (count : Nat) : Decoder (List UInt8) := do
  let r ← get
  let stop := r.position + count
  if stop ≤ r.data.size then
    set { r with position := stop }
    return (r.data.extract r.position stop).toList
  else
    throw (.unexpectedEnd r.position)

/- A number of `width` bytes. -/
def number
    (width : Nat) : Decoder Nat := do
  return ofBigEndian (← take width)

/- One byte. -/
def u8 : Decoder UInt8 := do
  return UInt8.ofNat (← number 1)

/- Two bytes. -/
def u16 : Decoder UInt16 := do
  return UInt16.ofNat (← number 2)

/- Four bytes. -/
def u32 : Decoder UInt32 := do
  return UInt32.ofNat (← number 4)

/- Eight bytes. -/
def u64 : Decoder UInt64 := do
  return UInt64.ofNat (← number 8)

/- A text behind its length. -/
def text : Decoder String := do
  let length ← u16
  let start ← position
  let bytes ← take length.toNat
  match ModifiedUtf8.decode? bytes with
  | some s => return s
  | none => throw (.invalidText start)

/- So many more of the same, behind those already read. -/
def collect
    {α : Type}
    (d : Decoder α) : Nat → List α → Decoder (List α)
  | 0, acc => return acc.reverse
  | n + 1, acc => do
      let x ← d
      collect d n (x :: acc)

/- So many of the same, one after another. -/
def repeated
    {α : Type}
    (d : Decoder α)
    (count : Nat) : Decoder (List α) :=
  collect d count []

end Decoder

------------------------------------------------------------
-- Items
------------------------------------------------------------

/- What an item is, its value apart. -/
inductive Item.Kind where
  | u8
  | i8
  | u16
  | i16
  | u32
  | i32
  | i64
  | f32
  | f64
  | bytes (count : Nat)
  | text

/- An item of a given kind. -/
def Decoder.item : Item.Kind → Decoder Item
  | .u8 => return .u8 (← u8)
  | .i8 => return .i8 (← u8).toInt8
  | .u16 => return .u16 (← u16)
  | .i16 => return .i16 (← u16).toInt16
  | .u32 => return .u32 (← u32)
  | .i32 => return .i32 (← u32).toInt32
  | .i64 => return .i64 (← u64).toInt64
  | .f32 => return .f32 ⟨← u32⟩
  | .f64 => return .f64 ⟨← u64⟩
  | .bytes count => return .bytes (← take count)
  | .text => return .text (← text)

/- Run a decoder on bytes from their start. -/
def Decoder.runOn
    {α : Type}
    (d : Decoder α)
    (bytes : Array UInt8) : Except DecodeError α :=
  (d.run { data := bytes }).1

end Stratagem
