import Stratagem.Jvm.Ty.Basic

/-
  Texts of types.

  A descriptor is the erased form that code refers to, and a
  signature the full form.  The internal name of a class
  parts packages by slashes; the class path and the display
  part them by points.

  Key definitions include:
    * `Jvm.TypeError`
    * `Jvm.Ty.signature`
    * `Jvm.Ty.descriptor`
    * `Jvm.Ty.internalName`
    * `Jvm.Ty.classPath`
    * `Jvm.Ty.simpleName`
    * `Jvm.Ty.display`
-/

namespace Stratagem

namespace Jvm

------------------------------------------------------------
-- Signatures
------------------------------------------------------------

/- The name in class files, arguments left out. -/
def ClassTy.renderName : ClassTy → List Char
  | .top n _ => n.toList
  | .inner o n _ => o.renderName ++ '.' :: n.toList
  | .nested o n _ => o.renderName ++ '$' :: n.toList

mutual

/- The full form. -/
def Ty.renderSignature : Ty → List Char
  | .primitive p => [p.letter]
  | .array t => '[' :: Ty.renderSignature t
  | .object c => 'L' :: ClassTy.renderSignature c ++ [';']
  | .variable x => 'T' :: x.toList ++ [';']
  | .argument a => ArgTy.renderSignature a

/-
  The chain of a class.  An inner class keeps the arguments
  of its outer class, and a static one drops them.
-/
def ClassTy.renderSignature : ClassTy → List Char
  | .top n ts => n.toList ++ renderArgs ts
  | .inner o n ts =>
      ClassTy.renderSignature o ++ '.' :: n.toList ++
        renderArgs ts
  | .nested o n ts =>
      o.renderName ++ '$' :: n.toList ++ renderArgs ts

def ArgTy.renderSignature : ArgTy → List Char
  | .invariant t => Ty.renderSignature t
  | .covariant t => '+' :: Ty.renderSignature t
  | .contravariant t => '-' :: Ty.renderSignature t
  | .wildcard => ['*']

/- Arguments in angle brackets, if there are any. -/
def renderArgs : List Ty → List Char
  | [] => []
  | t :: ts => '<' :: Ty.renderSignature t ++ renderMoreArgs ts

/- Arguments after the first, and the closing bracket. -/
def renderMoreArgs : List Ty → List Char
  | [] => ['>']
  | t :: ts => Ty.renderSignature t ++ renderMoreArgs ts

end

/- The full form of a type. -/
def Ty.signature
    (t : Ty) : String :=
  String.ofList t.renderSignature

/- The full form of a class. -/
def ClassTy.signature
    (c : ClassTy) : String :=
  (Ty.object c).signature

/- The internal name of a class. -/
def ClassTy.internalName
    (c : ClassTy) : String :=
  String.ofList c.renderName

------------------------------------------------------------
-- Display
------------------------------------------------------------

/- Points in place of slashes. -/
def dotted
    (cs : List Char) : List Char :=
  cs.map fun c => if c = '/' then '.' else c

mutual

/- A type as programs write it. -/
def Ty.render : Ty → List Char
  | .primitive p => p.keyword.toList
  | .array t => Ty.render t ++ ['[', ']']
  | .object c => ClassTy.render c
  | .variable x => x.toList
  | .argument a => ArgTy.render a

def ClassTy.render : ClassTy → List Char
  | .top n ts => dotted n.toList ++ renderShownArgs ts
  | .inner o n ts =>
      ClassTy.render o ++ '.' :: dotted n.toList ++
        renderShownArgs ts
  | .nested o n ts =>
      dotted o.renderName ++ '$' :: dotted n.toList ++
        renderShownArgs ts

def ArgTy.render : ArgTy → List Char
  | .invariant t => Ty.render t
  | .covariant t => "? extends ".toList ++ Ty.render t
  | .contravariant t => "? super ".toList ++ Ty.render t
  | .wildcard => ['?']

def renderShownArgs : List Ty → List Char
  | [] => []
  | t :: ts => '<' :: Ty.render t ++ renderMoreShownArgs ts

def renderMoreShownArgs : List Ty → List Char
  | [] => ['>']
  | t :: ts => ',' :: Ty.render t ++ renderMoreShownArgs ts

end

/- A type as programs write it. -/
def Ty.display
    (t : Ty) : String :=
  String.ofList t.render

/- A class as programs write it. -/
def ClassTy.display
    (c : ClassTy) : String :=
  String.ofList c.render

/-
  The path of a class: its name behind what encloses it.  An
  inner class shows the arguments of the classes around it.
-/
def ClassTy.classPath
    (c : ClassTy) : String :=
  (c.setArgs []).display

/- What stands behind the last slash of a name. -/
def afterLastSlash
    (cs : List Char) : List Char :=
  (cs.reverse.takeWhile (· != '/')).reverse

/- The name behind the last slash. -/
def ClassTy.simpleName
    (c : ClassTy) : String :=
  String.ofList (afterLastSlash c.name.toList)

------------------------------------------------------------
-- Errors
------------------------------------------------------------

/- What only some types have. -/
inductive Property where
  | simpleName
  | internalName
  | classPath
  | descriptor

/- The wording of a property. -/
def Property.wording : Property → String
  | .simpleName => "a simple name"
  | .internalName => "an internal name"
  | .classPath => "a class path"
  | .descriptor => "a descriptor"

/- What a type is called. -/
def Ty.kindName : Ty → String
  | .array _ => "Array type"
  | .object _ => "Object type"
  | .variable _ => "A type variable"
  | .argument _ => "A type argument"
  | .primitive p => s!"Primitive {p.keyword}"

/- A type used as what it is not. -/
inductive TypeError where
  | noSuchProperty (ty : Ty) (property : Property)
  | notAnObject (ty : Ty)
  | argumentCount (expected actual : Nat)
  | missingEnclosing (name : String)

/- The wording of an error. -/
def TypeError.message : TypeError → String
  | .noSuchProperty ty property =>
      s!"{ty.kindName} does not have {property.wording}"
  | .notAnObject ty =>
      s!"Expected an object type, got {ty.display}"
  | .argumentCount expected actual =>
      s!"Expected {expected} type arguments, got {actual}"
  | .missingEnclosing name =>
      s!"Inner class {name} requires an enclosing class"

------------------------------------------------------------
-- Names of Types
------------------------------------------------------------

namespace Ty

/-
  The erased form.  A type variable erases to the class of
  all objects, and a type argument has no erased form.
-/
def renderDescriptor : Ty → Except TypeError (List Char)
  | .primitive p => .ok [p.letter]
  | .array t => do return '[' :: (← renderDescriptor t)
  | .object c => .ok ('L' :: c.renderName ++ [';'])
  | .variable _ => .ok "Ljava/lang/Object;".toList
  | .argument a =>
      .error (.noSuchProperty (.argument a) .descriptor)

/- The erased form of a type. -/
def descriptor
    (t : Ty) : Except TypeError String := do
  return String.ofList (← t.renderDescriptor)

/- The name without its package. -/
def simpleName : Ty → Except TypeError String
  | .primitive p => .ok p.keyword
  | .array t => do return (← simpleName t) ++ "[]"
  | .object c => .ok c.simpleName
  | .variable x => .ok x
  | .argument a =>
      .error (.noSuchProperty (.argument a) .simpleName)

/- The name in class constants; an array's is its descriptor. -/
def internalName
    (t : Ty) : Except TypeError String :=
  match t with
  | .object c => .ok c.internalName
  | .array _ => t.descriptor
  | _ => .error (.noSuchProperty t .internalName)

/- The path of a class. -/
def classPath
    (t : Ty) : Except TypeError String :=
  match t with
  | .object c => .ok c.classPath
  | _ => .error (.noSuchProperty t .classPath)

/- Replace all arguments of a class, as many as it has. -/
def parameterized
    (t : Ty)
    (args : List ArgTy) : Except TypeError Ty :=
  match t with
  | .object c =>
      if args.length = c.args.length then
        .ok (.object (c.setArgs (args.map .argument)))
      else
        .error (.argumentCount c.args.length args.length)
  | _ => .error (.notAnObject t)

end Ty

/- A class from its parts; an inner one needs an outer one. -/
def ClassTy.ofParts
    (name : String)
    (args : List Ty)
    (outer : Option ClassTy)
    (inner : Bool) : Except TypeError ClassTy :=
  match outer, inner with
  | none, false => .ok (.top name args)
  | none, true => .error (.missingEnclosing name)
  | some o, true => .ok (.inner o name args)
  | some o, false => .ok (.nested o name args)

end Jvm

end Stratagem
