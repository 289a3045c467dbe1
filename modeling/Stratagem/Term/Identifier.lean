import Stratagem.Text.Letter
import Stratagem.Text.Numeral

/-
  Constructor names.

  Key definitions include:
    * `Term.isNameStart`
    * `Term.isNameChar`
    * `Term.startsNumber`
    * `Term.isIdentifier`
-/

namespace Stratagem

namespace Term

/- Signs that may stand in a name beside letters. -/
def isNameSign
    (c : Char) : Bool :=
  c == '_' || c == '-' || c == '+' || c == '*' || c == '$'

/- Characters that a name may start with. -/
def isNameStart
    (c : Char) : Bool :=
  Text.isLetter c || isNameSign c

/- Characters that a name may go on with. -/
def isNameChar
    (c : Char) : Bool :=
  Text.isLetter c || Text.isNumeral c || isNameSign c

/- Characters that a number may start with, its sign apart. -/
def startsNumber
    (c : Char) : Bool :=
  c == '.' || c.isDigit

/-
  Names that read back as constructors.  The empty name is the
  one of tuples, and a dash before a digit would read as the
  sign of a number.
-/
def isIdentifier : List Char → Bool
  | [] => true
  | c :: cs =>
      isNameStart c && cs.all isNameChar &&
        !(c == '-' && cs.head?.any startsNumber)

end Term

end Stratagem
