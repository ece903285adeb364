import BitLayout.Source.Fragment

/-!
# BitLayout.Source.Attribute

Attributes: `#[path]`, `#[path(tokens)]` with any brackets, and `#[path = value]`. What stands in
the brackets of an attribute is kept as tokens and has no grammar here.
-/

namespace BitLayout

/-- What follows the path of an attribute. -/
inductive AttributeContent where
  | empty
  | group (delimiter : Delimiter) (tokens : Tokens)
  | value (value : Fragment)
deriving DecidableEq, Repr

/-- An attribute; an inner one belongs to what encloses it. -/
structure Attribute where
  inner : Bool
  path : Fragment
  content : AttributeContent
deriving DecidableEq, Repr

namespace Attribute

/-- Whether the path is this single word. -/
def isNamed (word : String) (a : Attribute) : Bool := a.path = .ofWord word

/-- The attribute as a part of the source. -/
def fragment (a : Attribute) : Fragment :=
  .ofSign "#" ++ (if a.inner then .ofSign "!" else ∅) ++
    Fragment.enclosed .bracket (a.path ++
      match a.content with
      | .empty => ∅
      | .group d inner => .ofTokens (Tokens.enclosed d inner)
      | .value value => .ofSign "=" ++ value)

end Attribute

/-- Attributes in a row, as a part of the source. -/
def attributeFragment (attrs : List Attribute) : Fragment :=
  .flatten (attrs.map Attribute.fragment)

end BitLayout
