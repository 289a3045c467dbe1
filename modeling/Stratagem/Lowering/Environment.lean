import Stratagem.Assembly.Draft

/-
  Names in scope.

  Key definitions include:
    * `Environment`
    * `Environment.bind`
    * `Environment.get?`
-/

namespace Stratagem

/- Names with their locals, the newest first. -/
structure Environment where
  bindings : List (String × Local) := []

namespace Environment

/- One more name; it hides an older one that is the same. -/
def bind
    (e : Environment)
    (name : String)
    (l : Local) : Environment :=
  { bindings := (name, l) :: e.bindings }

/- The local of a name. -/
def get?
    (e : Environment)
    (name : String) : Option Local :=
  e.bindings.lookup name

/- The number of names, the hidden ones included. -/
def size
    (e : Environment) : Nat :=
  e.bindings.length

/- Names bound one after another. -/
def ofList
    (bindings : List (String × Local)) : Environment :=
  bindings.foldl (fun e (name, l) => e.bind name l) {}

end Environment

end Stratagem
