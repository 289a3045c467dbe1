import Stratagem.Binary.Number
import Stratagem.Bytes.BigEndian
import Stratagem.Bytes.ModifiedUtf8

/-
  The items that binary files are made of.

  Key definitions include:
    * `Item`
    * `Item.encode`
    * `encodeText`
-/

namespace Stratagem

/- A text behind its length, which has sixteen bits. -/
def encodeText
    (s : String) : List UInt8 :=
  let bytes := ModifiedUtf8.encode s
  bigEndian 2 bytes.length ++ bytes

/- A number of a fixed width, a run of bytes or a text. -/
inductive Item where
  | u8 (value : UInt8)
  | i8 (value : Int8)
  | u16 (value : UInt16)
  | i16 (value : Int16)
  | u32 (value : UInt32)
  | i32 (value : Int32)
  | i64 (value : Int64)
  | f32 (value : Binary32)
  | f64 (value : Binary64)
  | bytes (value : List UInt8)
  | text (value : String)

/- The bytes of an item. -/
def Item.encode : Item → List UInt8
  | .u8 n => [n]
  | .i8 n => [n.toUInt8]
  | .u16 n => be16 n
  | .i16 n => be16 n.toUInt16
  | .u32 n => be32 n
  | .i32 n => be32 n.toUInt32
  | .i64 n => be64 n.toUInt64
  | .f32 x => be32 x.bits
  | .f64 x => be64 x.bits
  | .bytes bs => bs
  | .text s => encodeText s

end Stratagem
