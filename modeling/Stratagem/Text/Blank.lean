import Stratagem.Text.Ranges

/-
  Blank characters and control characters.

  Key definitions include:
    * `Text.isBlank`
    * `Text.isControl`
-/

namespace Stratagem

namespace Text

/- The Unicode property White_Space. -/
def blanks : Ranges := [
  (0x9, 0xd), (0x20, 0x20), (0x85, 0x85), (0xa0, 0xa0),
  (0x1680, 0x1680), (0x2000, 0x200a), (0x2028, 0x2029),
  (0x202f, 0x202f), (0x205f, 0x205f), (0x3000, 0x3000)]

/- Characters that separate tokens and mean nothing else. -/
def isBlank
    (c : Char) : Bool :=
  blanks.contains c

/- The two blocks of control codes. -/
def isControl
    (c : Char) : Bool :=
  c.toNat < 0x20 || (0x7f ≤ c.toNat && c.toNat < 0xa0)

end Text

end Stratagem
