import BitLayout.Source.Fragment

/-!
# BitLayout.Source.TypeExpr

A type as it is written. Only the forms that a layout can look through are told apart: a bare name,
parentheses, an invisible group, and an array. Every other type is kept as it is printed and was
read.
-/

namespace BitLayout

/-- The length of an array, and the literal that it is, if it is one; attributes may stand before it
and invisible groups around it. -/
structure ArrayLength where
  fragment : Fragment
  literal? : Option String
deriving DecidableEq, Repr

/-- A written type. -/
inductive TypeExpr where
  /-- A path of one name without arguments. -/
  | name (ident : String)
  | paren (inner : TypeExpr)
  /-- A type that was substituted as a whole, within delimiters that are not printed. What is read
  from text has none. -/
  | group (inner : TypeExpr)
  | array (elem : TypeExpr) (length : ArrayLength)
  | other (fragment : Fragment)
deriving DecidableEq, Repr

namespace TypeExpr

/-- The type as a part of the source. -/
def fragment : TypeExpr → Fragment
  | name ident => .ofWord ident
  | paren inner => inner.fragment.enclosed .paren
  | group inner => inner.fragment
  | array elem length => (elem.fragment ++ .ofSign ";" ++ length.fragment).enclosed .bracket
  | other fragment => fragment

/-- The tokens of a type. -/
def tokens (t : TypeExpr) : Tokens := t.fragment.tokens

/-- The type without the parentheses and invisible groups around it. -/
def unwrapped : TypeExpr → TypeExpr
  | paren inner => inner.unwrapped
  | group inner => inner.unwrapped
  | type => type

end TypeExpr

end BitLayout
