/-
  Sizes of texts in bytes.

  Key definitions include:
    * `Text.byteCount`
-/

namespace Stratagem

namespace Text

/- The number of bytes that characters take as UTF-8. -/
def byteCount
    (cs : List Char) : Nat :=
  cs.foldr (fun c n => c.utf8Size + n) 0

end Text

end Stratagem
