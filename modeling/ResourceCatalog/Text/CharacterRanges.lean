/-!
# Sets of characters

A property of characters holds on a few ranges of code points. A set of characters is the list of
these ranges, in ascending order.
-/

namespace ResourceCatalog.Text

/-- Whether a character lies in one of the ranges. Behind it there is nothing to look for. -/
def inRanges (c : Char) : List (Nat × Nat) → Bool
  | [] => false
  | (first, last) :: rest => if c.toNat < first then false else c.toNat ≤ last || inRanges c rest

end ResourceCatalog.Text
