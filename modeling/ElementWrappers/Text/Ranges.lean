/-!
# Ranges of code points

A character class beyond ASCII is a list of inclusive ranges.
-/

namespace ElementWrappers.Text

/-- Inclusive ranges of code points. -/
abbrev Ranges := List (Nat × Nat)

/-- Whether `c` lies in one of the ranges. -/
def Ranges.has (rs : Ranges) (c : Char) : Bool :=
  rs.any fun r => decide (r.1 ≤ c.toNat) && decide (c.toNat ≤ r.2)

end ElementWrappers.Text
