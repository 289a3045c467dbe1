import Stratagem.Bytes.Item

/-
  Writing bytes, some of them later.

  A place can be reserved and filled in once its value is
  known.

  Key definitions include:
    * `ByteWriter`
    * `ByteWriter.append`
    * `ByteWriter.emit`
    * `ByteWriter.reserve`
    * `ByteWriter.patch`
-/

namespace Stratagem

/- The bytes written so far. -/
structure ByteWriter where
  bytes : Array UInt8 := #[]

namespace ByteWriter

/- How many bytes were written. -/
def offset
    (w : ByteWriter) : Nat :=
  w.bytes.size

/- Write bytes at the end. -/
def append
    (w : ByteWriter)
    (bs : List UInt8) : ByteWriter :=
  ⟨bs.foldl Array.push w.bytes⟩

/- Write an item at the end. -/
def emit
    (w : ByteWriter)
    (item : Item) : ByteWriter :=
  w.append item.encode

/- Leave room at the end; it holds zeros until it is patched. -/
def reserve
    (w : ByteWriter)
    (width : Nat) : ByteWriter :=
  w.append (List.replicate width 0)

/- Overwrite bytes from an offset on. -/
def patch
    (w : ByteWriter)
    (offset : Nat) : List UInt8 → ByteWriter
  | [] => w
  | b :: bs =>
      patch ⟨w.bytes.setIfInBounds offset b⟩ (offset + 1) bs

end ByteWriter

end Stratagem
