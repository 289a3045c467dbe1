/-
  Names of packages and of what they hold.

  A simple name has letters, digits, underscores and dollar
  signs and does not start with a digit.  A package name is
  empty, or it has such segments without capitals, parted by
  slashes.

  Key definitions include:
    * `PackageName`
    * `PackageName.ofText?`
    * `QName`
    * `QName.ofText?`
-/

namespace Stratagem

------------------------------------------------------------
-- Packages
------------------------------------------------------------

namespace PackageName

/- Characters that a segment can start with. -/
def isStart
    (c : Char) : Bool :=
  c.isLower || c == '_' || c == '$'

/- Characters of a segment. -/
def isPart
    (c : Char) : Bool :=
  isStart c || c.isDigit

/- Segments parted by slashes; `fresh` is set before each. -/
def isSegments
    (fresh : Bool) : List Char → Bool
  | [] => !fresh
  | c :: rest =>
      if fresh then isStart c && isSegments false rest
      else if c = '/' then isSegments true rest
      else isPart c && isSegments false rest

/- Whether a text names a package. -/
def isLegal
    (text : String) : Bool :=
  text.isEmpty || isSegments true text.toList

end PackageName

/- The name of a package. -/
structure PackageName where
  text : String
  legal : PackageName.isLegal text = true
deriving DecidableEq

namespace PackageName

/- The package with a name. -/
def ofText?
    (text : String) : Option PackageName :=
  if legal : isLegal text = true then some ⟨text, legal⟩
  else none

/- The package without a name. -/
def root : PackageName :=
  ⟨"", by simp [isLegal]⟩

/- Whether a package is the one without a name. -/
def isRoot
    (p : PackageName) : Bool :=
  p.text.isEmpty

end PackageName

------------------------------------------------------------
-- Qualified Names
------------------------------------------------------------

namespace QName

/- Characters that a simple name can start with. -/
def isStart
    (c : Char) : Bool :=
  c.isAlpha || c == '_' || c == '$'

/- Characters of a simple name. -/
def isPart
    (c : Char) : Bool :=
  isStart c || c.isDigit

/- Whether characters make a simple name. -/
def isSimple : List Char → Bool
  | [] => false
  | c :: rest => isStart c && rest.all isPart

/- Whether a text is a simple name. -/
def isLegal
    (text : String) : Bool :=
  isSimple text.toList

end QName

/- A simple name in a package. -/
structure QName where
  package : PackageName
  simple : String
  legal : QName.isLegal simple = true
deriving DecidableEq

namespace QName

/- The simple name with a text, in a package. -/
def ofText?
    (package : PackageName)
    (simple : String) : Option QName :=
  if legal : isLegal simple = true then
    some ⟨package, simple, legal⟩
  else
    none

/- The name with its package. -/
def display
    (q : QName) : String :=
  s!"{q.package.text}::{q.simple}"

/- The name of a class made for a name. -/
def internalName
    (q : QName)
    (suffix : String) : String :=
  if q.package.isRoot then q.simple ++ suffix
  else q.package.text ++ "/" ++ q.simple ++ suffix

end QName

end Stratagem
