/-
  Sets of characters given as closed intervals of code
  points.

  Key definitions include:
    * `Text.Ranges`
    * `Text.Ranges.contains`
-/

namespace Stratagem

namespace Text

/- Closed intervals of code points, in ascending order. -/
abbrev Ranges :=
  List (Nat × Nat)

/- A character belongs to the set when one interval holds it. -/
def Ranges.contains
    (rs : Ranges)
    (c : Char) : Bool :=
  rs.any fun r => r.1 ≤ c.toNat && c.toNat ≤ r.2

end Text

end Stratagem
