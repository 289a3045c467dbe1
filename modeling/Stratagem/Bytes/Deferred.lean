import Stratagem.Bytes.Reader
import Stratagem.Bytes.Writer

/-
  Writing step by step, with places that are filled later.

  A place has room for a number of two or four bytes, and a
  number that is put into it replaces what was there.  The same
  bytes can be written at once by someone who knows in advance
  which number comes last.

  Key definitions include:
    * `Item.kind`
    * `Decoder.items`
    * `ByteWriter.Step`
    * `ByteWriter.runAll`
    * `ByteWriter.Proper`
    * `ByteWriter.direct`
-/

namespace Stratagem

------------------------------------------------------------
-- Reading Items
------------------------------------------------------------

/- What an item has to be read as. -/
def Item.kind : Item → Item.Kind
  | .u8 _ => .u8
  | .i8 _ => .i8
  | .u16 _ => .u16
  | .i16 _ => .i16
  | .u32 _ => .u32
  | .i32 _ => .i32
  | .i64 _ => .i64
  | .f32 _ => .f32
  | .f64 _ => .f64
  | .bytes bs => .bytes bs.length
  | .text _ => .text

/- Items of given kinds, one after another. -/
def Decoder.items
    (kinds : List Item.Kind) : Decoder (List Item) :=
  kinds.mapM Decoder.item

namespace ByteWriter

------------------------------------------------------------
-- Places
------------------------------------------------------------

/- How much room a place has. -/
inductive Room where
  | two
  | four
deriving DecidableEq

/- The bytes that a place takes. -/
def Room.width : Room → Nat
  | .two => 2
  | .four => 4

/- What a place holds before a number is put into it. -/
def Room.zero : Room → Item
  | .two => .u16 0
  | .four => .u32 0

/- A number that can be put into a place. -/
inductive Filling where
  | u16 (value : UInt16)
  | i16 (value : Int16)
  | u32 (value : UInt32)

/- The room that a number needs. -/
def Filling.room : Filling → Room
  | .u16 _ => .two
  | .i16 _ => .two
  | .u32 _ => .four

/- A number as it would be written at once. -/
def Filling.item : Filling → Item
  | .u16 n => .u16 n
  | .i16 n => .i16 n
  | .u32 n => .u32 n

------------------------------------------------------------
-- Steps
------------------------------------------------------------

/- A step of writing. -/
inductive Step where
  | emit (item : Item)
  | reserve (room : Room)
  | patch (offset : Nat) (filling : Filling)

/- The writer after a step. -/
def Step.apply
    (w : ByteWriter) : Step → ByteWriter
  | .emit item => w.emit item
  | .reserve room => w.reserve room.width
  | .patch offset filling => w.patch offset filling.item.encode

/- The writer after steps in turn. -/
def runAll
    (steps : List Step)
    (w : ByteWriter) : ByteWriter :=
  steps.foldl Step.apply w

/-
  Every number is put into a place of its width that was
  reserved before, be it among the given ones or by a step.
-/
def Proper
    (places : List (Nat × Room))
    (w : ByteWriter) : List Step → Prop
  | [] => True
  | .emit item :: steps => Proper places (w.emit item) steps
  | .reserve room :: steps =>
      Proper ((w.offset, room) :: places) (w.reserve room.width)
        steps
  | .patch offset filling :: steps =>
      (offset, filling.room) ∈ places ∧
        Proper places (w.patch offset filling.item.encode) steps

instance decidableProper
    (places : List (Nat × Room))
    (w : ByteWriter) :
    ∀ steps, Decidable (Proper places w steps)
  | [] => isTrue trivial
  | .emit item :: steps =>
      decidableProper places (w.emit item) steps
  | .reserve room :: steps =>
      decidableProper ((w.offset, room) :: places)
        (w.reserve room.width) steps
  | .patch offset filling :: steps =>
      have := decidableProper places
        (w.patch offset filling.item.encode) steps
      inferInstanceAs
        (Decidable ((offset, filling.room) ∈ places ∧
          Proper places (w.patch offset filling.item.encode) steps))

------------------------------------------------------------
-- Writing at Once
------------------------------------------------------------

/- The number that a step puts into the place at an offset. -/
def Step.fillingAt?
    (offset : Nat) : Step → Option Filling
  | .emit _ => none
  | .reserve _ => none
  | .patch place filling =>
      if place = offset then some filling else none

/-
  What the place at an offset holds in the end: the number that
  is put into it last, or zero.
-/
def lastItem
    (offset : Nat)
    (room : Room)
    (steps : List Step) : Item :=
  match (steps.filterMap (Step.fillingAt? offset)).getLast? with
  | some filling => filling.item
  | none => room.zero

/-
  The items that steps leave behind: what they emit, and for
  each place what it holds in the end, also by later steps.
-/
def itemsOf
    (w : ByteWriter)
    (later : List Step) : List Step → List Item
  | [] => []
  | .emit item :: steps => item :: itemsOf (w.emit item) later steps
  | .reserve room :: steps =>
      lastItem w.offset room (steps ++ later) ::
        itemsOf (w.reserve room.width) later steps
  | .patch offset filling :: steps =>
      itemsOf (w.patch offset filling.item.encode) later steps

/- The items with which the same bytes can be written at once. -/
def direct
    (steps : List Step) : List Item :=
  itemsOf {} [] steps

end ByteWriter

end Stratagem
