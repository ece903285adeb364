import BitLayout.Source.Literal
import BitLayout.Source.Symbol

/-!
# BitLayout.Source.Grammar.Attribute

Reading attributes, and the blocks that may begin with attributes of their own.
-/

namespace BitLayout.Grammar

open Reading

/-- The words of a plain path that are left, and the separators between them. -/
def plainSegments : (fuel : Nat) → Reading Fragment
  | 0 => return ∅
  | fuel + 1 => do
    if ← peekAny (.name :: .word "Self" :: pathWords) then
      let first ← anyWordFragment
      if ← peek (.sign "::") then
        let separator ← sign "::"
        return first ++ separator ++ (← plainSegments fuel)
      else return first
    else return ∅

/-- Read a path of words alone. -/
def plainPath : Reading Fragment := do
  let root ← sign? "::"
  let segments ← plainSegments ((← ahead).length + 1)
  if segments.isEmpty then return root ++ (← nameFragment)
  if segments.source.getLast?.any (Token.isPunct ':') then expected "path segment after `::`"
  return root ++ segments

/-- Read what stands in the square brackets of an attribute. -/
def attributeContent (r : Readers) (inner : Bool) : Reading Attribute := do
  let path ← if ← peek (.word "unsafe") then word "unsafe" else plainPath
  if ← peekAny [.group .paren, .group .bracket, .group .brace] then
    let (d, tokens) ← anyGroup
    return ⟨inner, path, .group d tokens⟩
  if ← peekSign "=" ["==", "=>"] then
    discard (sign "=")
    if let some value ← attempt aloneLiteral then return ⟨inner, path, .value value⟩
    if (← peek (.sign "#")) && (← peekBehind 1 (.group .bracket)) then refuse .attributeInAttribute
    return ⟨inner, path, .value (← r.valueFragment)⟩
  return ⟨inner, path, .empty⟩
where
  /-- A literal with nothing behind it. -/
  aloneLiteral : Reading Fragment := do
    let value ← literal
    if ← ended then return value else expected "the end"

/-- Read an attribute of what follows it. -/
def outerAttribute (r : Readers) : Reading Attribute := do
  discard (sign "#")
  group .bracket (attributeContent r false)

/-- Read an attribute of what encloses it. -/
def innerAttribute (r : Readers) : Reading Attribute := do
  discard (sign "#")
  discard (sign "!")
  group .bracket (attributeContent r true)

/-- Read the attributes of what follows. -/
def outerAttributes (r : Readers) : Reading (List Attribute) := do
  repeated (peek (.sign "#")) (outerAttribute r) (← ahead).length

/-- Read the attributes of what encloses them. -/
def innerAttributes (r : Readers) : Reading (List Attribute) := do
  repeated (return (← peek (.sign "#")) && (← peekBehind 1 (.sign "!"))) (innerAttribute r)
    (← ahead).length

/-- Read the attributes of what follows, as a part of the source. -/
def outerFragment (r : Readers) : Reading Fragment := return attributeFragment (← outerAttributes r)

/-- Read the attributes of what encloses them, as a part of the source. -/
def innerFragment (r : Readers) : Reading Fragment := return attributeFragment (← innerAttributes r)

/-- Read a block. -/
def block (r : Readers) : Reading Fragment := groupFragment .brace (r .statements)

/-- Read a block that may begin with attributes: those, and its statements. -/
def blockParts (r : Readers) : Reading (Fragment × Fragment) :=
  group .brace do
    let attrs ← innerFragment r
    return (attrs, ← r .statements)

/-- Read a block that may begin with attributes. -/
def attributedBlock (r : Readers) : Reading Fragment := do
  let (attrs, content) ← blockParts r
  return (attrs ++ content).enclosed .brace

end BitLayout.Grammar
