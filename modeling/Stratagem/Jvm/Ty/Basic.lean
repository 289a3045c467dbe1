/-
  Types of the Java virtual machine.

  A type is a primitive, an array, a class, a type variable
  or an argument of a generic class.  A class nested in
  another is either inner (it belongs to an instance of the
  outer class) or static.

  Key definitions include:
    * `Jvm.Primitive`
    * `Jvm.Ty`
    * `Jvm.ClassTy`
    * `Jvm.ArgTy`
    * `Jvm.Ty.ofName`
    * `Jvm.Ty.slots`
    * `Jvm.Ty.raw`
-/

namespace Stratagem

namespace Jvm

------------------------------------------------------------
-- Types
------------------------------------------------------------

/- Types without identity; `void` counts as one. -/
inductive Primitive where
  | void
  | boolean
  | char
  | byte
  | short
  | int
  | long
  | float
  | double
deriving DecidableEq

mutual

/- A type. -/
inductive Ty where
  | primitive (p : Primitive)
  | array (element : Ty)
  | object (c : ClassTy)
  | variable (name : String)
  | argument (a : ArgTy)

/-
  A class: top-level by its full name, or nested in another
  by its own name.
-/
inductive ClassTy where
  | top (name : String) (args : List Ty)
  | inner (outer : ClassTy) (name : String) (args : List Ty)
  | nested (outer : ClassTy) (name : String) (args : List Ty)

/- An argument of a generic class. -/
inductive ArgTy where
  | invariant (bound : Ty)
  | covariant (bound : Ty)
  | contravariant (bound : Ty)
  | wildcard

end

------------------------------------------------------------
-- Equality
------------------------------------------------------------

mutual

/- Structural equality. -/
def Ty.beq : Ty → Ty → Bool
  | .primitive p, .primitive q => p == q
  | .array t, .array u => Ty.beq t u
  | .object c, .object d => ClassTy.beq c d
  | .variable x, .variable y => x == y
  | .argument a, .argument b => ArgTy.beq a b
  | _, _ => false

def ClassTy.beq : ClassTy → ClassTy → Bool
  | .top n ts, .top m us => n == m && beqTypes ts us
  | .inner c n ts, .inner d m us =>
      ClassTy.beq c d && n == m && beqTypes ts us
  | .nested c n ts, .nested d m us =>
      ClassTy.beq c d && n == m && beqTypes ts us
  | _, _ => false

def ArgTy.beq : ArgTy → ArgTy → Bool
  | .invariant t, .invariant u => Ty.beq t u
  | .covariant t, .covariant u => Ty.beq t u
  | .contravariant t, .contravariant u => Ty.beq t u
  | .wildcard, .wildcard => true
  | _, _ => false

def beqTypes : List Ty → List Ty → Bool
  | [], [] => true
  | t :: ts, u :: us => Ty.beq t u && beqTypes ts us
  | _, _ => false

end

instance : BEq Ty :=
  ⟨Ty.beq⟩

------------------------------------------------------------
-- Primitives
------------------------------------------------------------

namespace Primitive

/- The keyword of a primitive. -/
def keyword : Primitive → String
  | .void => "void"
  | .boolean => "boolean"
  | .char => "char"
  | .byte => "byte"
  | .short => "short"
  | .int => "int"
  | .long => "long"
  | .float => "float"
  | .double => "double"

/- The letter that encodes a primitive. -/
def letter : Primitive → Char
  | .void => 'V'
  | .boolean => 'Z'
  | .char => 'C'
  | .byte => 'B'
  | .short => 'S'
  | .int => 'I'
  | .long => 'J'
  | .float => 'F'
  | .double => 'D'

/- All primitives. -/
def all : List Primitive :=
  [.void, .boolean, .char, .byte, .short, .int, .long,
    .float, .double]

/- The primitive with a letter. -/
def ofLetter?
    (c : Char) : Option Primitive :=
  all.find? fun p => p.letter == c

/- The primitive with a keyword. -/
def ofKeyword?
    (s : String) : Option Primitive :=
  all.find? fun p => p.keyword == s

end Primitive

------------------------------------------------------------
-- Classes
------------------------------------------------------------

namespace ClassTy

/- The name of the last class of the chain. -/
def name : ClassTy → String
  | .top n _ => n
  | .inner _ n _ => n
  | .nested _ n _ => n

/- The arguments of the last class of the chain. -/
def args : ClassTy → List Ty
  | .top _ ts => ts
  | .inner _ _ ts => ts
  | .nested _ _ ts => ts

/- Replace the arguments of the last class of the chain. -/
def setArgs
    (c : ClassTy)
    (ts : List Ty) : ClassTy :=
  match c with
  | .top n _ => .top n ts
  | .inner o n _ => .inner o n ts
  | .nested o n _ => .nested o n ts

end ClassTy

/- The bound of an argument, if it has one. -/
def ArgTy.bound? : ArgTy → Option Ty
  | .invariant t => some t
  | .covariant t => some t
  | .contravariant t => some t
  | .wildcard => none

------------------------------------------------------------
-- Queries
------------------------------------------------------------

namespace Ty

/- A top-level class without arguments. -/
def ofClass
    (name : String) : Ty :=
  .object (.top name [])

/- Read a name from its end: `[]` makes an array. -/
def ofReversedName : List Char → Ty
  | ']' :: '[' :: rest => .array (ofReversedName rest)
  | cs =>
      let s := String.ofList cs.reverse
      match Primitive.ofKeyword? s with
      | some p => .primitive p
      | none =>
          ofClass
            (String.ofList
              (cs.reverse.map fun c => if c = '.' then '/' else c))

/-
  The type with a name as programs write it.  Points part
  packages, so a nested class cannot be told from one in a
  package.
-/
def ofName
    (s : String) : Ty :=
  ofReversedName s.toList.reverse

/- Primitives, `void` among them. -/
def isPrimitive : Ty → Bool
  | .primitive _ => true
  | _ => false

/- Types whose values are references. -/
def isReference
    (t : Ty) : Bool :=
  !t.isPrimitive

/- Classes with arguments. -/
def isGeneric : Ty → Bool
  | .object c => !c.args.isEmpty
  | _ => false

/- Type variables and arguments of generic classes. -/
def isParameter : Ty → Bool
  | .variable _ => true
  | .argument _ => true
  | _ => false

/- The element of an array or the bound of an argument. -/
def element? : Ty → Option Ty
  | .array t => some t
  | .argument a => a.bound?
  | _ => none

/- How many times a type is an array. -/
def dimensions : Ty → Nat
  | .array t => t.dimensions + 1
  | _ => 0

/- Slots that a value takes in a frame. -/
def slots : Ty → Nat
  | .primitive .void => 0
  | .primitive .long => 2
  | .primitive .double => 2
  | _ => 1

/- Slots that values of several types take. -/
def totalSlots
    (ts : List Ty) : Nat :=
  ts.foldr (fun t n => t.slots + n) 0

/- The class with every argument made a wildcard. -/
def raw : Ty → Ty
  | .object c =>
      .object (c.setArgs (c.args.map fun _ => .argument .wildcard))
  | t => t

end Ty

end Jvm

end Stratagem
