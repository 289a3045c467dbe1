import Stratagem.Storage.Error
import Stratagem.Term.Reader

/-
  Terms in files.

  Key definitions include:
    * `ReadError`
    * `ReadError.message`
    * `textOfBytes`
    * `Term.readBytes`
-/

namespace Stratagem

/- Bytes that hold no text, or a text that is no term. -/
inductive ReadError where
  | io (e : IoError)
  | format (e : FormatError)

/- The wording of an error. -/
def ReadError.message : ReadError → String
  | .io e => s!"I/O error: {e.message}"
  | .format e => s!"Format error: {e.message}"

/- The text that a file holds. -/
def textOfBytes
    (bytes : Array UInt8) : Except IoError String :=
  match String.fromUTF8? ⟨bytes⟩ with
  | some text => .ok text
  | none => .error .invalidText

/- The term that a file holds. -/
def Term.readBytes
    (bytes : Array UInt8) : Except ReadError Term :=
  match textOfBytes bytes with
  | .error e => .error (.io e)
  | .ok text =>
      match Term.read text with
      | .error e => .error (.format e)
      | .ok t => .ok t

end Stratagem
