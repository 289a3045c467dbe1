import Stratagem.Term.Display
import Stratagem.Term.Identifier

/-
  Writing terms so that they read back.

  Blobs, variables, infinities and constructors that are no
  names have no written form.  The error reported is that of
  the node found first when parts are visited from the last
  to the first: annotations, then the template or the
  subterms, each before what comes earlier.

  Key definitions include:
    * `WriteError`
    * `WriteError.message`
    * `Term.fault?`
    * `Term.write`
-/

namespace Stratagem

------------------------------------------------------------
-- Errors
------------------------------------------------------------

/- A node that has no written form. -/
inductive WriteError where
  | blob
  | var (name : String)
  | real (value : Binary64)
  | constructor (name : String)

/- The wording of an error. -/
def WriteError.message : WriteError → String
  | .blob => "blob terms cannot be written"
  | .var name => s!"term variable {name} cannot be written"
  | .real value =>
      s!"real {value.display} cannot be written"
  | .constructor name =>
      s!"constructor {Text.quoted name} is not an identifier"

------------------------------------------------------------
-- Search for a Faulty Node
------------------------------------------------------------

/- What is wrong with a node, its parts apart. -/
def Payload.nodeFault? : Payload → Option WriteError
  | .blob _ => some .blob
  | .var name => some (.var name)
  | .real value =>
      if value.isFinite then none else some (.real value)
  | .appl constructor _ =>
      if Term.isIdentifier constructor.toList then
        none
      else
        some (.constructor constructor)
  | _ => none

mutual

/-
  The first fault of a term: the node itself, then its
  annotations from the last, then its parts from the last.
-/
def Term.fault? : Term → Option WriteError
  | .mk p a =>
      p.nodeFault?.or
        ((Attachments.fault? a).or (Payload.fault? p))

def Attachments.fault? : Attachments → Option WriteError
  | .mk (some ts) _ => faultIn? ts
  | .mk none _ => none

def Payload.fault? : Payload → Option WriteError
  | .appl _ args => faultIn? args
  | .list elements => faultIn? elements
  | .placeholder template => Term.fault? template
  | _ => none

def faultIn? : List Term → Option WriteError
  | [] => none
  | t :: ts => (faultIn? ts).or (Term.fault? t)

end

namespace Term

/- The written form of a term, if it has one. -/
def write
    (t : Term) : Except WriteError String :=
  match t.fault? with
  | some e => .error e
  | none => .ok t.display

end Term

end Stratagem
