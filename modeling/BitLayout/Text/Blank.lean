/-!
# BitLayout.Text.Blank

White space: the Unicode property `White_Space`, and the two direction marks that separate tokens
as well.
-/

namespace BitLayout.Text

/-- A character with the property `White_Space`. -/
def isBlank (c : Char) : Bool :=
  let n := c.toNat
  (9 ≤ n && n ≤ 13) || n = 32 || n = 0x85 || n = 0xA0 || n = 0x1680 || (0x2000 ≤ n && n ≤ 0x200A) ||
    n = 0x2028 || n = 0x2029 || n = 0x202F || n = 0x205F || n = 0x3000

/-- A character that stands between tokens and means nothing: white space and the left-to-right and
right-to-left marks. -/
def isSeparator (c : Char) : Bool :=
  isBlank c || c.toNat = 0x200E || c.toNat = 0x200F

end BitLayout.Text
