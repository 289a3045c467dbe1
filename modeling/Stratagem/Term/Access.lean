import Stratagem.Term.Display

/-
  Reading the parts of a term of an expected sort.

  Each accessor either gives the part or says what was found
  instead.

  Key definitions include:
    * `TermError`
    * `TermError.message`
    * `Term.asAppl`
    * `Term.asList`
    * `Term.asStr`
    * `Term.asInt`
    * `Term.get`
-/

namespace Stratagem

------------------------------------------------------------
-- Errors
------------------------------------------------------------

/- A term that is not what was asked for. -/
inductive TermError where
  | unexpectedKind (expected : String) (term : Term)
  | indexOutOfRange (index : Nat) (term : Term)

/- The wording of an error. -/
def TermError.message : TermError → String
  | .unexpectedKind expected term =>
      s!"Expected {expected}, got {term.kindName}: " ++
        term.display
  | .indexOutOfRange index term =>
      s!"Subterm {index} out of range for term of arity " ++
        s!"{term.arity}: {term.display}"

------------------------------------------------------------
-- Accessors
------------------------------------------------------------

namespace Term

/- The constructor and the arguments of an application. -/
def asAppl
    (t : Term) : Except TermError (String × List Term) :=
  match t.payload with
  | .appl constructor args => .ok (constructor, args)
  | _ => .error (.unexpectedKind "constructor application" t)

/- The constructor of an application. -/
def constructor
    (t : Term) : Except TermError String := do
  return (← t.asAppl).1

/- The elements of a list. -/
def asList
    (t : Term) : Except TermError (List Term) :=
  match t.payload with
  | .list elements => .ok elements
  | _ => .error (.unexpectedKind "list term" t)

/- The value of a string. -/
def asStr
    (t : Term) : Except TermError String :=
  match t.payload with
  | .str value => .ok value
  | _ => .error (.unexpectedKind "string term" t)

/- The value of an integer. -/
def asInt
    (t : Term) : Except TermError Int64 :=
  match t.payload with
  | .int value => .ok value
  | _ => .error (.unexpectedKind "integer term" t)

/- The value of a real. -/
def asReal
    (t : Term) : Except TermError Binary64 :=
  match t.payload with
  | .real value => .ok value
  | _ => .error (.unexpectedKind "real term" t)

/- The template of a placeholder. -/
def template
    (t : Term) : Except TermError Term :=
  match t.template? with
  | some template => .ok template
  | none => .error (.unexpectedKind "placeholder term" t)

/- The subterm at an index. -/
def get
    (t : Term)
    (index : Nat) : Except TermError Term :=
  match t.subterms[index]? with
  | some u => .ok u
  | none => .error (.indexOutOfRange index t)

end Term

end Stratagem
