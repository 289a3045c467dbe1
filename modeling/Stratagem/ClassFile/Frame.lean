import Stratagem.ClassFile.Pool
import Stratagem.Jvm.VType

/-
  Frames: what code checking knows at a jump target.

  Key definitions include:
    * `Frame`
    * `Frame.compactLocals`
    * `Frame.encodeTable`
-/

namespace Stratagem

open Jvm

/-
  The types of the locals by slot and of the stack from the
  bottom.  A type of two slots is followed by a filler.
-/
structure Frame where
  offset : UInt16
  locals : List VType
  stack : List VType

namespace Frame

/- Leave out the filler behind each type of two slots. -/
def dropFillers : List VType → List VType
  | [] => []
  | .long :: rest => .long :: dropFillers rest.tail
  | .double :: rest => .double :: dropFillers rest.tail
  | v :: rest => v :: dropFillers rest
termination_by vs => vs.length

/- Leave out what is unusable at the end. -/
def dropTrailingTops
    (vs : List VType) : List VType :=
  (vs.reverse.dropWhile (· == .top)).reverse

/- The locals as a class file lists them. -/
def compactLocals
    (f : Frame) : List VType :=
  dropTrailingTops (dropFillers f.locals)

/- The bytes of a type. -/
def encodeType
    (v : VType) : Pooling (List UInt8) :=
  match v with
  | .top => return [0]
  | .int => return [1]
  | .float => return [2]
  | .double => return [3]
  | .long => return [4]
  | .null => return [5]
  | .uninitThis => return [6]
  | .object name => return 7 :: be16 (← Pooling.classRef name)
  | .uninit offset => return 8 :: bigEndian 2 offset

/- The bytes of types behind their number. -/
def encodeTypes
    (vs : List VType) : Pooling (List UInt8) := do
  let bodies ← vs.mapM encodeType
  return bigEndian 2 vs.length ++ bodies.flatten

/- The bytes of a frame at a distance from the one before. -/
def encode
    (f : Frame)
    (delta : UInt16) : Pooling (List UInt8) := do
  let locals ← encodeTypes f.compactLocals
  let stack ← encodeTypes f.stack
  return 255 :: be16 delta ++ locals ++ stack

/-
  The bytes of frames in a row.  The first is found by its
  offset, and each other by its distance from the byte behind
  the frame before.
-/
def encodeFrom
    (previous : Option UInt16) :
    List Frame → Pooling (List UInt8)
  | [] => return []
  | f :: rest => do
      let delta :=
        match previous with
        | none => f.offset
        | some o => f.offset - o - 1
      let bytes ← f.encode delta
      let more ← encodeFrom (some f.offset) rest
      return bytes ++ more

/- The bytes of a table of frames. -/
def encodeTable
    (fs : List Frame) : Pooling (List UInt8) := do
  let bytes ← encodeFrom none fs
  return bigEndian 2 fs.length ++ bytes

end Frame

end Stratagem
