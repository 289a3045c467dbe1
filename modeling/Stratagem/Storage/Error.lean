/-
  Why reading or writing a file fails.

  Key definitions include:
    * `IoError`
    * `IoError.message`
-/

namespace Stratagem

/- A refusal of the file system, or bytes that are no text. -/
inductive IoError where
  | notFound
  | alreadyExists
  | notADirectory
  | isADirectory
  | nameTooLong
  | zeroInName
  | invalidText
deriving DecidableEq

/- The wording of an error. -/
def IoError.message : IoError → String
  | .notFound => "No such file or directory (os error 2)"
  | .alreadyExists => "File exists (os error 17)"
  | .notADirectory => "Not a directory (os error 20)"
  | .isADirectory => "Is a directory (os error 21)"
  | .nameTooLong => "File name too long (os error 36)"
  | .zeroInName =>
      "file name contained an unexpected NUL byte"
  | .invalidText => "stream did not contain valid UTF-8"

end Stratagem
