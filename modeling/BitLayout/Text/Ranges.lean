/-!
# BitLayout.Text.Ranges

Sets of characters as sorted lists of code point ranges, both ends included. The tables of this
folder are of this form, and `within` is the one way they are asked.
-/

namespace BitLayout.Text

/-- Whether a code point lies in one of the ranges. -/
def within (ranges : List (Nat × Nat)) (c : Char) : Bool :=
  ranges.any fun (low, high) => low ≤ c.toNat && c.toNat ≤ high

end BitLayout.Text
