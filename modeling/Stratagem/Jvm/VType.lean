import Stratagem.Jvm.Ty.Printer

/-
  Types of values as code checking sees them.

  Key definitions include:
    * `Jvm.VType`
    * `Jvm.VType.ofTy`
    * `Jvm.VType.slots`
-/

namespace Stratagem

namespace Jvm

/-
  The type of a local slot or of a stack entry.  An object
  that `new` made has no class yet: it is known by the offset
  of the instruction until its constructor ran.
-/
inductive VType where
  | top
  | int
  | float
  | long
  | double
  | null
  | uninitThis
  | object (name : String)
  | uninit (offset : Nat)
deriving DecidableEq

namespace VType

/- Any initialized object. -/
def anyObject : VType :=
  .object "java/lang/Object"

mutual

/- The type of the values of a type. -/
def ofTy : Ty → VType
  | .primitive .void => .top
  | .primitive .long => .long
  | .primitive .float => .float
  | .primitive .double => .double
  | .primitive _ => .int
  | .array t =>
      match (Ty.array t).descriptor with
      | .ok d => .object d
      | .error _ => anyObject
  | .object c => .object c.internalName
  | .variable _ => anyObject
  | .argument a => ofArg a

def ofArg : ArgTy → VType
  | .invariant t => ofTy t
  | .covariant t => ofTy t
  | .contravariant t => ofTy t
  | .wildcard => anyObject

end

/- Slots that a value takes. -/
def slots : VType → Nat
  | .long => 2
  | .double => 2
  | _ => 1

/- Slots that several values take. -/
def totalSlots
    (vs : List VType) : Nat :=
  vs.foldr (fun v n => v.slots + n) 0

end VType

end Jvm

end Stratagem
