import Stratagem.Jvm.Ty.Basic
import Stratagem.Text.Size

/-
  Reading descriptors and signatures.

  The first character decides what a type is.  A reader
  returns the text behind the type, so that types can follow
  one another.  What is wrong is reported with the text from
  the faulty type on.

  Key definitions include:
    * `Jvm.SignatureError`
    * `Jvm.Parser.ty`
    * `Jvm.Ty.parse`
    * `Jvm.Ty.parseAt`
    * `Jvm.parseMethodDescriptor`
-/

namespace Stratagem

namespace Jvm

------------------------------------------------------------
-- Errors
------------------------------------------------------------

/- A text that encodes no type. -/
inductive SignatureError where
  | empty
  | malformed (fragment : String)
  | incomplete (text : String)
  | methodUnsupported (fragment : String)
  | unsupportedLead (fragment : String)

/- The wording of an error. -/
def SignatureError.message : SignatureError → String
  | .empty => "Empty signature"
  | .malformed fragment => s!"Malformed signature: {fragment}"
  | .incomplete text => s!"Incomplete signature: {text}"
  | .methodUnsupported fragment =>
      s!"Method signature is not supported: {fragment}"
  | .unsupportedLead fragment =>
      s!"Signature type is not supported: {fragment}"

namespace Parser

/- What is wrong, with the text from the faulty type on. -/
inductive Fault where
  | malformed (rest : List Char)
  | method (rest : List Char)
  | lead (rest : List Char)

/- The text from the faulty type on. -/
def Fault.rest : Fault → List Char
  | .malformed cs => cs
  | .method cs => cs
  | .lead cs => cs

/- The error that shows a fragment. -/
def Fault.toError
    (f : Fault)
    (fragment : String) : SignatureError :=
  match f with
  | .malformed _ => .malformed fragment
  | .method _ => .methodUnsupported fragment
  | .lead _ => .unsupportedLead fragment

------------------------------------------------------------
-- Types
------------------------------------------------------------

/- Characters that end the name of a class. -/
def endsName
    (c : Char) : Bool :=
  c == ';' || c == '.' || c == '$' || c == '<' || c == '>'

/- A type between angle brackets is an argument. -/
def asArgument : Ty → Ty
  | .argument a => .argument a
  | t => .argument (.invariant t)

/- A type variable behind its `T`. -/
def variableTy
    (whole cs : List Char) : Except Fault (Ty × List Char) :=
  let name := cs.takeWhile (· != ';')
  match name, cs.dropWhile (· != ';') with
  | _ :: _, _ :: rest =>
      .ok (.variable (String.ofList name), rest)
  | _, _ => .error (.malformed whole)

/- Whether a bounded argument may go on so. -/
def startsBound : List Char → Bool
  | 'L' :: _ => true
  | 'T' :: _ => true
  | '[' :: _ => true
  | _ => false

mutual

/-
  A type and the text behind it.  The first argument bounds
  how deep calls nest; every second nested call is behind one
  more character.
-/
def ty : Nat → Bool → List Char →
    Except Fault (Ty × List Char)
  | 0, _, cs => .error (.malformed cs)
  | _ + 1, _, [] => .error (.malformed [])
  | n + 1, erased, c :: rest =>
      match Primitive.ofLetter? c with
      | some p => .ok (.primitive p, rest)
      | none =>
          if c = '[' then
            if rest.isEmpty then
              .error (.malformed (c :: rest))
            else
              (ty n erased rest).map fun (t, rest) =>
                (.array t, rest)
          else if c = 'L' then
            (segments n erased (c :: rest) .top rest).map
              fun (o, rest) => (.object o, rest)
          else if c = '(' then
            .error (.method (c :: rest))
          else if
              c = 'T' ∨ c = '+' ∨ c = '-' ∨ c = '*' then
            if erased then
              .error (.malformed (c :: rest))
            else if c = 'T' then
              variableTy (c :: rest) rest
            else if c = '*' then
              .ok (.argument .wildcard, rest)
            else if startsBound rest then
              (ty n false rest).map fun (t, rest) =>
                (.argument
                  (if c = '+' then .covariant t
                  else .contravariant t), rest)
            else
              .error (.malformed (c :: rest))
          else
            .error (.lead (c :: rest))

/-
  The classes of a chain from here on.  `whole` is the text
  from the chain's `L` on, and `make` puts one more class
  into what encloses it.
-/
def segments : Nat → Bool → List Char →
    (String → List Ty → ClassTy) → List Char →
    Except Fault (ClassTy × List Char)
  | 0, _, whole, _, _ => .error (.malformed whole)
  | n + 1, erased, whole, make, cs => do
      let name := cs.takeWhile (!endsName ·)
      let rest := cs.dropWhile (!endsName ·)
      if name.isEmpty then
        .error (.malformed whole)
      else
        let (args, rest) ←
          match rest with
          | '<' :: inside =>
              if erased then
                .error (.malformed whole)
              else
                arguments n whole inside
          | _ => pure ([], rest)
        let made := make (String.ofList name) args
        match rest with
        | ';' :: rest => return (made, rest)
        | '.' :: rest =>
            segments n erased whole (.inner made) rest
        | '$' :: rest =>
            segments n erased whole (.nested made) rest
        | _ => .error (.malformed whole)

/- One argument or more up to the closing bracket. -/
def arguments : Nat → List Char → List Char →
    Except Fault (List Ty × List Char)
  | 0, whole, _ => .error (.malformed whole)
  | n + 1, whole, cs =>
      match cs with
      | [] => .error (.malformed whole)
      | '>' :: _ => .error (.malformed whole)
      | cs => do
          let (t, rest) ← ty n false cs
          match rest with
          | '>' :: rest => return ([asArgument t], rest)
          | rest => do
              let (ts, rest) ← arguments n whole rest
              return (asArgument t :: ts, rest)

end

/- A type at the start of a text, and the text behind it. -/
def run
    (erased : Bool)
    (cs : List Char) : Except Fault (Ty × List Char) :=
  ty (2 * cs.length + 1) erased cs

end Parser

------------------------------------------------------------
-- Whole Texts
------------------------------------------------------------

/- The type that a whole text encodes. -/
def Ty.parse
    (erased : Bool)
    (text : String) : Except SignatureError Ty :=
  match text.toList with
  | [] => .error .empty
  | cs =>
      match Parser.run erased cs with
      | .error f => .error (f.toError (String.ofList f.rest))
      | .ok (t, []) => .ok t
      | .ok (_, _ :: _) => .error (.incomplete text)

/- The type with a descriptor. -/
def Ty.ofDescriptor
    (text : String) : Except SignatureError Ty :=
  Ty.parse true text

/- The type with a signature. -/
def Ty.ofSignature
    (text : String) : Except SignatureError Ty :=
  Ty.parse false text

------------------------------------------------------------
-- Parts of a Text
------------------------------------------------------------

/- Drop so many bytes, if a character ends there. -/
def dropBytes : Nat → List Char → Option (List Char)
  | 0, cs => some cs
  | _ + 1, [] => none
  | n + 1, c :: cs =>
      if c.utf8Size ≤ n + 1 then
        dropBytes (n + 1 - c.utf8Size) cs
      else
        none
termination_by _ cs => cs.length

/-
  The characters that start within so many bytes, and whether
  the last one also ends there.
-/
def takeBytes : Nat → List Char → List Char × Bool
  | 0, _ => ([], true)
  | _ + 1, [] => ([], false)
  | n + 1, c :: cs =>
      if c.utf8Size ≤ n + 1 then
        let (ds, exact) := takeBytes (n + 1 - c.utf8Size) cs
        (c :: ds, exact)
      else
        ([c], false)
termination_by _ cs => cs.length

/-
  One type from the bytes `start` to `stop` of a text, and
  the offset behind it.

  A cut inside a character leaves no fragment to show, so the
  whole text is shown instead; and no type starts inside a
  character.
-/
def Ty.parseAt
    (text : String)
    (start stop : Nat)
    (erased : Bool) : Except SignatureError (Ty × Nat) :=
  let cs := text.toList
  match dropBytes start cs with
  | none =>
      if start < stop ∧ stop ≤ Text.byteCount cs then
        .error (.unsupportedLead text)
      else
        .error (.malformed text)
  | some tail =>
      if start < stop ∧ stop ≤ Text.byteCount cs then
        let (part, exact) := takeBytes (stop - start) tail
        match Parser.run erased part with
        | .ok (t, rest) =>
            let used := Text.byteCount part - Text.byteCount rest
            .ok (t, start + used)
        | .error f =>
            .error
              (f.toError
                (if exact then String.ofList f.rest else text))
      else if start = stop then
        .error (.malformed "")
      else
        .error (.malformed text)

------------------------------------------------------------
-- Method Descriptors
------------------------------------------------------------

namespace Parser

/- Parameters up to the closing parenthesis. -/
def parameters : Nat → List Char → List Char →
    Except Fault (List Ty × List Char)
  | 0, whole, _ => .error (.malformed whole)
  | n + 1, whole, cs =>
      match cs with
      | [] => .error (.malformed whole)
      | ')' :: rest => .ok ([], rest)
      | cs => do
          let (t, rest) ← run true cs
          let (ts, rest) ← parameters n whole rest
          return (t :: ts, rest)

/- Parameters and result, and the text behind them. -/
def method
    (cs : List Char) :
    Except Fault ((List Ty × Ty) × List Char) :=
  match cs with
  | '(' :: rest => do
      let (params, rest) ← parameters cs.length cs rest
      let (result, rest) ← run true rest
      return ((params, result), rest)
  | _ => .error (.malformed cs)

end Parser

/- The parameter types and the result type of a method. -/
def parseMethodDescriptor
    (text : String) :
    Except SignatureError (List Ty × Ty) :=
  match Parser.method text.toList with
  | .error f => .error (f.toError (String.ofList f.rest))
  | .ok (m, []) => .ok m
  | .ok (_, _ :: _) => .error (.incomplete text)

end Jvm

end Stratagem
