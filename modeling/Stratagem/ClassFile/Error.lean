import Stratagem.Bytes.Reader
import Stratagem.Jvm.Ty.Parser
import Stratagem.Jvm.Ty.Printer
import Stratagem.Storage.Error

/-
  Why a class file cannot be made.

  Key definitions include:
    * `ClassFileError`
    * `ClassFileError.message`
-/

namespace Stratagem

/- What does not fit into a class file, or cannot be stored. -/
inductive ClassFileError where
  | constantPoolOverflow
  | stringTooLong (length : Nat)
  | unboundLabel (label : Nat) (method : String)
  | labelRebound (label : Nat) (method : String)
  | branchOutOfRange (offset target : Nat)
  | codeTooLarge (method : String) (size : Nat)
  | localIndexOverflow (method : String)
  | stackUnderflow (method : String) (offset : Nat)
  | type (e : Jvm.TypeError)
  | signature (e : Jvm.SignatureError)
  | decode (e : DecodeError)
  | io (e : IoError)

/- The wording of an error. -/
def ClassFileError.message : ClassFileError → String
  | .constantPoolOverflow => "Constant pool overflow"
  | .stringTooLong length =>
      s!"String constant too long: {length} bytes"
  | .unboundLabel label method =>
      s!"Label {label} was never bound in method {method}"
  | .labelRebound label method =>
      s!"Label {label} bound twice in method {method}"
  | .branchOutOfRange offset target =>
      s!"Branch at {offset} to {target} is out of range"
  | .codeTooLarge method size =>
      s!"Code of method {method} too large: {size} bytes"
  | .localIndexOverflow method =>
      s!"Too many local variables in method {method}"
  | .stackUnderflow method offset =>
      s!"Operand stack underflow at offset {offset} in " ++
        s!"method {method}"
  | .type e => s!"Type error: {e.message}"
  | .signature e => s!"Signature error: {e.message}"
  | .decode e => s!"Decode error: {e.message}"
  | .io e => s!"I/O error: {e.message}"

end Stratagem
