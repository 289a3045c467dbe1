import Stratagem.Jvm.Ty.Basic

/-
  Classes of the standard library that code refers to.

  Key definitions include:
    * `Jvm.Known.object`
    * `Jvm.Ty.boxed?`
    * `Jvm.Ty.unboxMethod?`
    * `Jvm.Ty.asReference`
-/

namespace Stratagem

namespace Jvm

------------------------------------------------------------
-- Classes
------------------------------------------------------------

namespace Known

/- The class of all objects. -/
def object : Ty :=
  .ofClass "java/lang/Object"

/- The class of strings. -/
def string : Ty :=
  .ofClass "java/lang/String"

/- The class of classes. -/
def classOf : Ty :=
  .object (.top "java/lang/Class" [.variable "T"])

/- The class that puts strings together. -/
def stringBuilder : Ty :=
  .ofClass "java/lang/StringBuilder"

/- The class of nothing but null. -/
def voidObject : Ty :=
  .ofClass "java/lang/Void"

/- What is thrown when null is no answer. -/
def nullPointerException : Ty :=
  .ofClass "java/lang/NullPointerException"

/- What is thrown when an assertion fails. -/
def assertionError : Ty :=
  .ofClass "java/lang/AssertionError"

/- The interface of lists. -/
def list : Ty :=
  .object (.top "java/util/List" [.variable "E"])

end Known

------------------------------------------------------------
-- Boxing
------------------------------------------------------------

namespace Primitive

/- The class that wraps values of a primitive. -/
def boxClass? : Primitive → Option String
  | .void => none
  | .boolean => some "java/lang/Boolean"
  | .char => some "java/lang/Character"
  | .byte => some "java/lang/Byte"
  | .short => some "java/lang/Short"
  | .int => some "java/lang/Integer"
  | .long => some "java/lang/Long"
  | .float => some "java/lang/Float"
  | .double => some "java/lang/Double"

end Primitive

namespace Ty

/- The type that wraps values of a primitive. -/
def boxed? : Ty → Option Ty
  | .primitive p => p.boxClass?.map .ofClass
  | _ => none

/- The method that unwraps values of a primitive. -/
def unboxMethod? : Ty → Option String
  | .primitive .void => none
  | .primitive p => some (p.keyword ++ "Value")
  | _ => none

/- A type as it may stand for an argument of a class. -/
def asReference
    (t : Ty) : Ty :=
  t.boxed?.getD t

end Ty

end Jvm

end Stratagem
