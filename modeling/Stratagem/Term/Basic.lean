import Stratagem.Binary.Number

/-
  Terms: the trees in which programs are written down.

  A term is a payload with attachments.  The payload is a
  constructor applied to arguments (a tuple when the
  constructor is empty), a list, a string, an integer, a
  real, a placeholder around a template, an opaque blob or a
  variable.  The attachments hold at most one value of each
  sort.  The annotations are one sort; any other is named, and
  nothing here depends on what is attached under its name.

  Key definitions include:
    * `Term`
    * `Payload`
    * `Attached`
    * `Attachments`
    * `Term.annotated`
    * `Term.subterms`
    * `Term.same`
-/

namespace Stratagem

------------------------------------------------------------
-- The Tree
------------------------------------------------------------

/- What can be attached besides annotations. -/
inductive Attached where
  | text (value : String)
  | number (value : Int)

mutual

/- A payload with attachments. -/
inductive Term where
  | mk (payload : Payload) (attachments : Attachments)

/- What a term is, its attachments apart. -/
inductive Payload where
  | appl (constructor : String) (args : List Term)
  | list (elements : List Term)
  | str (value : String)
  | int (value : Int64)
  | real (value : Binary64)
  | placeholder (template : Term)
  | blob (id : Nat)
  | var (name : String)

/- At most one value of each sort. -/
inductive Attachments where
  | mk
      (annotations : Option (List Term))
      (others : List (String × Attached))

end

------------------------------------------------------------
-- Attachments
------------------------------------------------------------

namespace Attachments

/- No attachment. -/
def empty : Attachments :=
  .mk none []

/- The attached annotations. -/
def annotations : Attachments → Option (List Term)
  | .mk a _ => a

/- The values of all other sorts, by their names. -/
def others : Attachments → List (String × Attached)
  | .mk _ os => os

/- The value of a named sort. -/
def get?
    (a : Attachments)
    (sort : String) : Option Attached :=
  a.others.lookup sort

/- Attach or detach annotations. -/
def setAnnotations
    (a : Attachments)
    (terms : Option (List Term)) : Attachments :=
  .mk terms a.others

/- Attach or detach the value of a named sort. -/
def set
    (a : Attachments)
    (sort : String)
    (value : Option Attached) : Attachments :=
  .mk a.annotations
    (a.others.filter (·.1 != sort) ++
      value.toList.map fun v => (sort, v))

/- How many sorts are attached. -/
def size
    (a : Attachments) : Nat :=
  a.annotations.isSome.toNat + a.others.length

end Attachments

------------------------------------------------------------
-- Construction
------------------------------------------------------------

namespace Term

/- The payload. -/
def payload : Term → Payload
  | .mk p _ => p

/- The attachments. -/
def attachments : Term → Attachments
  | .mk _ a => a

/- A term without attachments. -/
def plain
    (p : Payload) : Term :=
  .mk p .empty

/- A constructor applied to arguments. -/
def appl
    (constructor : String)
    (args : List Term) : Term :=
  plain (.appl constructor args)

/- The same payload with other attachments. -/
def setAttachments
    (t : Term)
    (a : Attachments) : Term :=
  .mk t.payload a

/- The annotations, none when nothing is attached. -/
def annotations
    (t : Term) : List Term :=
  t.attachments.annotations.getD []

/- Replace the annotations; an empty list detaches them. -/
def annotated
    (t : Term)
    (terms : List Term) : Term :=
  t.setAttachments
    (t.attachments.setAnnotations
      (if terms.isEmpty then none else some terms))

------------------------------------------------------------
-- Parts
------------------------------------------------------------

/- Arguments of an application and elements of a list. -/
def subterms
    (t : Term) : List Term :=
  match t.payload with
  | .appl _ args => args
  | .list elements => elements
  | _ => []

/- The number of subterms. -/
def arity
    (t : Term) : Nat :=
  t.subterms.length

/- The constructor of an application. -/
def constructor?
    (t : Term) : Option String :=
  match t.payload with
  | .appl constructor _ => some constructor
  | _ => none

/- The template of a placeholder. -/
def template?
    (t : Term) : Option Term :=
  match t.payload with
  | .placeholder template => some template
  | _ => none

/- Whether a term applies a constructor to so many arguments. -/
def isAppl
    (t : Term)
    (constructor : String)
    (arity : Nat) : Bool :=
  match t.payload with
  | .appl c args => c == constructor && args.length == arity
  | _ => false

/- The first term with a constructor and, if given, an arity. -/
def find?
    (terms : List Term)
    (constructor : String)
    (arity : Option Nat) : Option Term :=
  terms.find? fun t =>
    t.constructor? == some constructor &&
      arity.all (· == t.arity)

/- The first annotation with a constructor and an arity. -/
def annotation?
    (t : Term)
    (constructor : String)
    (arity : Option Nat) : Option Term :=
  find? t.annotations constructor arity

end Term

/- What a payload is called. -/
def Payload.kindName : Payload → String
  | .appl constructor _ =>
      if constructor.isEmpty then
        "tuple"
      else
        "constructor application"
  | .list _ => "list term"
  | .str _ => "string term"
  | .int _ => "integer term"
  | .real _ => "real term"
  | .placeholder _ => "placeholder term"
  | .blob _ => "blob term"
  | .var _ => "term variable"

/- What a term is called. -/
def Term.kindName
    (t : Term) : String :=
  t.payload.kindName

------------------------------------------------------------
-- Equality
------------------------------------------------------------

/-
  Terms are the same when their payloads are, whatever is
  attached to them or to their parts.
-/
mutual

def Term.same : Term → Term → Bool
  | .mk p _, .mk q _ => Payload.same p q

def Payload.same : Payload → Payload → Bool
  | .appl c args, .appl d brgs => c == d && sameTerms args brgs
  | .list ts, .list us => sameTerms ts us
  | .str s, .str r => s == r
  | .int n, .int m => n == m
  | .real x, .real y => x.same y
  | .placeholder t, .placeholder u => Term.same t u
  | .blob i, .blob j => i == j
  | .var x, .var y => x == y
  | _, _ => false

def sameTerms : List Term → List Term → Bool
  | [], [] => true
  | t :: ts, u :: us => Term.same t u && sameTerms ts us
  | _, _ => false

end

end Stratagem
