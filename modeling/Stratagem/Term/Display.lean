import Stratagem.Term.Basic
import Stratagem.Text.Blank
import Stratagem.Text.Quoted

/-
  The text of a term.

  Key definitions include:
    * `Term.render`
    * `Term.display`
    * `Term.displayAnnotations`
-/

namespace Stratagem

------------------------------------------------------------
-- Leaves
------------------------------------------------------------

namespace Term

/- One character of a string literal. -/
def escapeChar
    (c : Char) : List Char :=
  if c = '\\' then
    ['\\', '\\']
  else if c = '"' then
    ['\\', '"']
  else if c = '\n' then
    ['\\', 'n']
  else if c = '\r' then
    ['\\', 'r']
  else if c = '\t' then
    ['\\', 't']
  else if c = '\x0c' then
    ['\\', 'f']
  else if Text.isControl c then
    ['\\', 'u'] ++ Text.padLeft 4 '0' (Text.hex c.toNat)
  else
    [c]

/- A string literal. -/
def renderString
    (s : String) : List Char :=
  '"' :: s.toList.flatMap escapeChar ++ ['"']

/- An integer in decimal. -/
def renderInt
    (n : Int64) : List Char :=
  if n.toInt < 0 then
    '-' :: Nat.toDigits 10 n.toInt.natAbs
  else
    Nat.toDigits 10 n.toInt.natAbs

/- A real always shows a point, so it reads as a real. -/
def renderReal
    (x : Binary64) : List Char :=
  let text := x.render
  if text.contains '.' then text else text ++ ['.', '0']

end Term

------------------------------------------------------------
-- Terms
------------------------------------------------------------

mutual

/- The payload's text, then the annotations' if there are any. -/
def Term.render : Term → List Char
  | .mk p a => Payload.render p ++ Attachments.render a

def Payload.render : Payload → List Char
  | .appl constructor args =>
      constructor.toList ++ '(' :: renderTerms args ++ [')']
  | .list elements => '[' :: renderTerms elements ++ [']']
  | .str value => Term.renderString value
  | .int value => Term.renderInt value
  | .real value => Term.renderReal value
  | .placeholder template =>
      '<' :: Term.render template ++ ['>']
  | .blob _ => "<blob>".toList
  | .var name => name.toList

/- Only annotations show, and only if there are some. -/
def Attachments.render : Attachments → List Char
  | .mk (some (t :: ts)) _ =>
      '\x7b' :: renderTerms (t :: ts) ++ ['\x7d']
  | .mk _ _ => []

/- Terms separated by commas. -/
def renderTerms : List Term → List Char
  | [] => []
  | t :: ts => Term.render t ++ renderMore ts

/- Terms after the first, each behind a comma. -/
def renderMore : List Term → List Char
  | [] => []
  | t :: ts => ',' :: ' ' :: Term.render t ++ renderMore ts

end

namespace Term

/- The text of a term. -/
def display
    (t : Term) : String :=
  String.ofList t.render

/- Annotations in braces, even when there are none. -/
def displayAnnotations
    (terms : List Term) : String :=
  String.ofList ('\x7b' :: renderTerms terms ++ ['\x7d'])

end Term

end Stratagem
