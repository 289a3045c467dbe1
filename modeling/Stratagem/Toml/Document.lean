import Stratagem.Toml.Scalar

/-
  Reading TOML documents.

  Key definitions include:
    * `Toml.keyPath?`
    * `Toml.value?`
    * `Toml.document?`
-/

namespace Stratagem

namespace Toml

------------------------------------------------------------
-- Blanks and Keys
------------------------------------------------------------

/- Leave out blanks. -/
def skipBlanks
    (cs : List Char) : List Char :=
  cs.dropWhile fun c => c == ' ' || c == '\t'

/- What stands behind a comment, which has no odd characters. -/
def skipComment? : List Char → Option (List Char)
  | '#' :: rest =>
      let after := rest.dropWhile isTextChar
      match after with
      | [] => some []
      | '\n' :: _ => some after
      | '\r' :: '\n' :: _ => some after
      | _ => none
  | cs => some cs

/- What stands behind the end of a line. -/
def endLine?
    (cs : List Char) : Option (List Char) := do
  match ← skipComment? (skipBlanks cs) with
  | [] => some []
  | '\n' :: rest => some rest
  | '\r' :: '\n' :: rest => some rest
  | _ => none

/- What stands behind blanks, comments and line ends. -/
def skipSpace? : Nat → List Char → Option (List Char)
  | 0, cs => some cs
  | n + 1, cs => do
      match ← skipComment? (skipBlanks cs) with
      | '\n' :: rest => skipSpace? n rest
      | '\r' :: '\n' :: rest => skipSpace? n rest
      | rest => some rest

/- Characters of a key without quotes. -/
def isBareChar
    (c : Char) : Bool :=
  c.isAlphanum || c == '_' || c == '-'

/- One part of a key. -/
def keyPart? : List Char → Option (String × List Char)
  | '"' :: rest => basicText? [] rest
  | '\'' :: rest => literalText? [] rest
  | cs =>
      let name := cs.takeWhile isBareChar
      if name.isEmpty then none
      else some (String.ofList name, cs.dropWhile isBareChar)

/- Parts of a key with points between them. -/
def keyParts? :
    Nat → List Char → Option (List String × List Char)
  | 0, _ => none
  | n + 1, cs => do
      let (part, rest) ← keyPart? (skipBlanks cs)
      match skipBlanks rest with
      | '.' :: rest =>
          let (path, rest) ← keyParts? n rest
          return (part :: path, rest)
      | rest => return ([part], rest)

/- How deep values may nest, and how many parts a key has. -/
def maxDepth : Nat :=
  79

/- A key, which does not have too many parts. -/
def keyPath?
    (cs : List Char) : Option (List String × List Char) := do
  let (path, rest) ← keyParts? cs.length cs
  if path.length ≤ maxDepth then some (path, rest) else none

------------------------------------------------------------
-- Values
------------------------------------------------------------

/- Characters of a value without quotes. -/
def isScalarChar
    (c : Char) : Bool :=
  c.isAlphanum || c ∈ ['_', '+', '-', '.', ':']

/-
  A value without quotes.  Between a date and a time there may
  be a blank.
-/
def scalarToken
    (cs : List Char) : List Char × List Char :=
  let token := cs.takeWhile isScalarChar
  let rest := cs.dropWhile isScalarChar
  match rest with
  | ' ' :: more =>
      if isDate token && more.head?.any Char.isDigit then
        (token ++ ' ' :: more.takeWhile isScalarChar,
          more.dropWhile isScalarChar)
      else
        (token, rest)
  | _ => (token, rest)

/- A value without parts. -/
def plain?
    (cs : List Char) : Option (Value × List Char) :=
  match cs with
  | '"' :: _ => do
      let (s, rest) ← quotedText? cs
      return (.string s, rest)
  | '\'' :: _ => do
      let (s, rest) ← quotedText? cs
      return (.string s, rest)
  | _ => do
      let (token, rest) := scalarToken cs
      let v ← scalar? token
      return (v, rest)

/-
  What stands behind the elements of an array.  The number
  bounds how many there are.
-/
def elements?
    (element : List Char → Option (Value × List Char)) :
    Nat → List Char → Option (List Char)
  | 0, _ => none
  | n + 1, cs => do
      match ← skipSpace? cs.length cs with
      | ']' :: rest => some rest
      | cs =>
          let (_, rest) ← element cs
          match ← skipSpace? rest.length rest with
          | ',' :: rest => elements? element n rest
          | ']' :: rest => some rest
          | _ => none

/-
  What stands behind the fields of a table on one line.  The
  number bounds how many there are.
-/
def fields?
    (field : List Char → Option (Value × List Char)) :
    Nat → Table → List Char → Option (List Char)
  | 0, _, _ => none
  | n + 1, t, cs => do
      let (path, rest) ← keyPath? cs
      match rest with
      | '=' :: rest =>
          let (v, rest) ← field (skipBlanks rest)
          let t ← t.insert? v path
          match skipBlanks rest with
          | ',' :: rest => fields? field n t rest
          | '\x7d' :: rest => some rest
          | _ => none
      | _ => none

/- A value whose parts nest at most so deep. -/
def value? : Nat → List Char → Option (Value × List Char)
  | 0, cs =>
      match cs with
      | '[' :: _ => none
      | '\x7b' :: _ => none
      | _ => plain? cs
  | depth + 1, cs =>
      match cs with
      | '[' :: rest => do
          let rest ← elements? (value? depth) cs.length rest
          return (.other, rest)
      | '\x7b' :: rest =>
          match skipBlanks rest with
          | '\x7d' :: rest => some (.other, rest)
          | rest => do
              let rest ← fields? (value? depth) cs.length [] rest
              return (.other, rest)
      | _ => plain? cs

------------------------------------------------------------
-- Documents
------------------------------------------------------------

/- The table that a key belongs to, and the whole. -/
structure Reading where
  root : Table := []
  path : List String := []

/- One line of a document. -/
def line?
    (r : Reading)
    (cs : List Char) : Option (Reading × List Char) := do
  match skipBlanks cs with
  | [] => some (r, [])
  | '\n' :: rest => some (r, rest)
  | '\r' :: '\n' :: rest => some (r, rest)
  | '#' :: rest =>
      let rest ← endLine? ('#' :: rest)
      return (r, rest)
  | '[' :: '[' :: rest =>
      let (path, rest) ← keyPath? rest
      match rest with
      | ']' :: ']' :: rest =>
          let root ← r.root.append? path
          let rest ← endLine? rest
          return ({ root, path }, rest)
      | _ => none
  | '[' :: rest =>
      let (path, rest) ← keyPath? rest
      match rest with
      | ']' :: rest =>
          let root ← r.root.open? path
          let rest ← endLine? rest
          return ({ root, path }, rest)
      | _ => none
  | cs =>
      let (path, rest) ← keyPath? cs
      match rest with
      | '=' :: rest =>
          let (v, rest) ← value? maxDepth (skipBlanks rest)
          let root ← r.root.inHeader? (·.insert? v path) r.path
          let rest ← endLine? rest
          return ({ r with root }, rest)
      | _ => none

/- All lines of a document; their number bounds the steps. -/
def lines? : Nat → Reading → List Char → Option Table
  | _, r, [] => some r.root
  | 0, _, _ => none
  | n + 1, r, cs => do
      let (r, rest) ← line? r cs
      lines? n r rest

/- The table that a document spells. -/
def document?
    (text : String) : Option Table :=
  let cs :=
    match text.toList with
    | '\ufeff' :: rest => rest
    | cs => cs
  lines? (cs.length + 1) {} cs

end Toml

end Stratagem
