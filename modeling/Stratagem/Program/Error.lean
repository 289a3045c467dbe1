import Stratagem.ClassFile.Check
import Stratagem.Program.Exp
import Stratagem.Program.Name
import Stratagem.Term.Access
import Stratagem.Term.Reader

/-
  Why a program cannot be compiled.

  Key definitions include:
    * `Unsupported`
    * `Mismatch`
    * `ConfigFault`
    * `CompileError`
    * `CompileError.message`
-/

namespace Stratagem

open Jvm

/- A constructor with its number of arguments, or a sort. -/
def Term.describe
    (t : Term) : String :=
  match t.payload with
  | .appl c args => s!"{c}/{args.length}"
  | p => p.kindName

------------------------------------------------------------
-- Causes
------------------------------------------------------------

/- Something that the compiler does not handle. -/
inductive Unsupported where
  | form (role : String) (term : Term)
  | unexpected (term : Term) (constructor : String)
  | missingNote (term : Term) (note : String)
  | missingIndex (note : String)
  | termIndex (position : Int64)
  | literalText (text : String)
  | literalRange (value : Int64)
  | packageName (text : String)
  | simpleName (text : String)
  | normalizedSequence
  | sequence
  | tupleType (ty : ValueType)
  | errorType
  | arity (count limit : Nat)
  | classAsValue (name : QName)

/- The wording of what is not handled. -/
def Unsupported.message : Unsupported → String
  | .form role term => s!"{role} " ++ term.describe
  | .unexpected term constructor =>
      term.describe ++ s!" where {constructor} was expected"
  | .missingNote term note =>
      term.describe ++ s!" without an {note} annotation"
  | .missingIndex note =>
      s!"{note} reference without a TermIndex"
  | .termIndex position => s!"term index {position.toInt}"
  | .literalText text => s!"integer literal `{text}`"
  | .literalRange value =>
      s!"integer literal {value.toInt} outside 32 bits"
  | .packageName text => s!"illegal package name `{text}`"
  | .simpleName text => s!"illegal simple name `{text}`"
  | .normalizedSequence =>
      "sequential composition (Seq) cannot be normalized"
  | .sequence => "sequential composition (Seq)"
  | .tupleType ty => s!"tuple type {ty.display}"
  | .errorType => "the error type"
  | .arity count limit =>
      s!"strategies with {count} parameters " ++
        s!"(at most {limit} supported)"
  | .classAsValue name => s!"class {name.display} used as a value"

/- Parts of a program that do not fit together. -/
inductive Mismatch where
  | tooManyArguments (count : Nat) (strategy : StrategyType)
  | notStrategy (what : String) (ty : ValueType)
  | declarationType (ty : ValueType)
  | notNormal (name : String)
  | conversion (source target : Ty)
  | letOperand
  | notImmediate (kind : String)
  | missingArguments (count : Nat)
  | parameterCount (name : QName) (declared defined : Nat)
  | missingContext
  | missingParameter (name : String)
  | missingChecked (name : String)
  | missingForwarded (position : Nat)
  | missingLocal (position : Nat)

/- The wording of what does not fit. -/
def Mismatch.message : Mismatch → String
  | .tooManyArguments count strategy =>
      s!"cannot apply {count} arguments to strategy " ++
        s!"{strategy.display} of arity {strategy.arity}"
  | .notStrategy what ty =>
      s!"{what} must be a strategy, got {ty.display}"
  | .declarationType ty =>
      s!"strategy declaration typed as {ty.display}"
  | .notNormal name =>
      s!"body of {name} is not in A-normal form"
  | .conversion source target =>
      s!"cannot convert {source.display} to {target.display}"
  | .letOperand => "let in operand position"
  | .notImmediate kind =>
      s!"expected a variable or constant, found {kind}"
  | .missingArguments count =>
      "expected a fully applied strategy, missing " ++
        s!"{count} arguments"
  | .parameterCount name declared defined =>
      s!"{name.display} declares {declared} parameters but " ++
        s!"its definition has {defined}"
  | .missingContext => "eval without a context parameter"
  | .missingParameter name => s!"eval without parameter {name}"
  | .missingChecked name => s!"no parameter {name}"
  | .missingForwarded position =>
      s!"bridge without parameter {position}"
  | .missingLocal position => s!"no local {position}"

/- A setting that cannot be used. -/
inductive ConfigFault where
  | classVersion (version least greatest : UInt16)
  | package (key value : String)

/- The wording of what is wrong with a setting. -/
def ConfigFault.message : ConfigFault → String
  | .classVersion version least greatest =>
      s!"class_version {version.toNat} is outside " ++
        s!"{least.toNat}..={greatest.toNat}"
  | .package key value =>
      s!"{key} `{value}` is not a package name"

------------------------------------------------------------
-- Errors
------------------------------------------------------------

/- Why a program cannot be compiled. -/
inductive CompileError where
  | format (e : FormatError)
  | unsupported (what : Unsupported)
  | unresolved (symbol : String)
  | duplicate (declaration : String)
  | mismatch (what : Mismatch)
  | verification (e : VerifyError)
  | term (e : TermError)
  | type (e : TypeError)
  | classFile (e : ClassFileError)
  | config (what : ConfigFault)
  | configSyntax
  | io (e : IoError)

/- The wording of an error. -/
def CompileError.message : CompileError → String
  | .format e => s!"Format error: {e.message}"
  | .unsupported what =>
      s!"Unsupported construct: {what.message}"
  | .unresolved symbol => s!"Unresolved symbol: {symbol}"
  | .duplicate declaration =>
      s!"Duplicate declaration: {declaration}"
  | .mismatch what =>
      s!"Arity or shape mismatch: {what.message}"
  | .verification e => s!"Verification failed: {e.message}"
  | .term e => s!"Term error: {e.message}"
  | .type e => s!"Type error: {e.message}"
  | .classFile e => s!"Class file error: {e.message}"
  | .config what => s!"Invalid configuration: {what.message}"
  | .configSyntax => "Failed to parse configuration"
  | .io e => s!"I/O error: {e.message}"

------------------------------------------------------------
-- Names and Types with Errors
------------------------------------------------------------

/- The package with a name. -/
def PackageName.ofText
    (text : String) : Except CompileError PackageName :=
  match ofText? text with
  | some p => .ok p
  | none => .error (.unsupported (.packageName text))

/- The simple name with a text, in a package. -/
def QName.ofText
    (package : PackageName)
    (simple : String) : Except CompileError QName :=
  match ofText? package simple with
  | some q => .ok q
  | none => .error (.unsupported (.simpleName simple))

/- What is left once arguments are supplied. -/
def StrategyType.supply
    (s : StrategyType)
    (count : Nat) : Except CompileError StrategyType :=
  match s.drop? count with
  | some rest => .ok rest
  | none => .error (.mismatch (.tooManyArguments count s))

/- The strategy that something has to be. -/
def ValueType.asStrategy
    (t : ValueType)
    (what : String) : Except CompileError StrategyType :=
  match t.strategy? with
  | some s => .ok s
  | none => .error (.mismatch (.notStrategy what t))

end Stratagem
