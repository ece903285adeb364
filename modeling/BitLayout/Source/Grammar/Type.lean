import BitLayout.Source.Grammar.Bound

/-!
# BitLayout.Source.Grammar.Type

Types.

A path may be followed by an exclamation mark and a group, which makes it an invocation, or by plus
signs and bounds, which make it the first bound of a trait object. A type in parentheses may be the
first bound too. A form that is built into the language is kept as it is written.
-/

namespace BitLayout.Grammar

open Reading

/-! ## Trait objects -/

/-- Bounds in a row. The last tells how the row ends. -/
structure BoundRow where
  fragment : Fragment
  bare : Bool

namespace BoundRow

/-- No bounds behind something that ends so. -/
def empty (bare : Bool) : BoundRow := ⟨∅, bare⟩

/-- Bounds in a row. -/
def ofList (bounds : List Bound) : BoundRow :=
  ⟨.flatten (bounds.map (·.fragment)), bounds.getLast?.any (·.bare)⟩

/-- A bound before others. -/
def behind (first : Fragment) (row : BoundRow) : BoundRow :=
  { row with fragment := first ++ row.fragment }

end BoundRow

/-- Further bounds behind a first one, each behind a plus sign. -/
def furtherBounds (r : Readers) : (fuel : Nat) → (bare : Bool) → Reading BoundRow
  | 0, bare => return .empty bare
  | fuel + 1, bare => do
    if ← peek (.sign "+") then
      let plus ← sign "+"
      let next ← r (.bound false false)
      return (← furtherBounds r fuel next.bare).behind (plus ++ next.fragment)
    else return .empty bare

/-- Further bounds behind a first one. A plus sign may end them. -/
def openBounds (r : Readers) : (fuel : Nat) → (bare : Bool) → Reading BoundRow
  | 0, bare => return .empty bare
  | fuel + 1, bare => do
    if ← peek (.sign "+") then
      let plus ← sign "+"
      if ← peekAny [.anyWord, .sign "::", .sign "?", .lifetime, .group .paren] then
        let next ← r (.bound false false)
        return (← openBounds r fuel next.bare).behind (plus ++ next.fragment)
      else return ⟨plus, bare⟩
    else return .empty bare

/-- Read the bounds of a trait object. -/
def objectBounds (r : Readers) (plus : Bool) : Reading BoundRow := do
  let bounds ← boundsOf r plus false false ((← ahead).length + 1)
  if bounds.any (·.isTrait) then return .ofList bounds else refuse .objectWithoutTrait

/-! ## Parentheses -/

/-- What stands in the parentheses of a type. -/
inductive Parenthesized where
  /-- Nothing, or types with commas between them. -/
  | tuple (types : Fragment)
  /-- A trait object that begins with a lifetime. -/
  | object (bounds : BoundRow)
  /-- A bound that makes a trait optional. -/
  | optional (bound : Bound)
  | type (t : ReadType)

/-- Read what stands in the parentheses of a type. -/
def parenthesized (r : Readers) : Reading Parenthesized := do
  if ← ended then return .tuple ∅
  if ← peek .lifetime then return .object (← objectBounds r true)
  if ← peek (.sign "?") then return .optional (← traitBound r false).2
  let first ← r (.type true)
  if ← peek (.sign ",") then
    let comma ← sign ","
    return .tuple (first.fragment ++ comma ++ (← commaList (r.typeFragment true)))
  return .type first

/-- A bound in parentheses, of which one pair is kept. -/
def parenBound (f : Fragment) : Fragment :=
  if f.source.head? = some (.opening .paren) then f else f.enclosed .paren

/-- Read a type that begins with parentheses. -/
def parenType (r : Readers) (plus : Bool) : Reading ReadType := do
  match ← group .paren (parenthesized r) with
  | .tuple types => return .plain (types.enclosed .paren)
  | .object bounds => return ⟨.paren (.other bounds.fragment), .other, false⟩
  | .optional bound =>
    let further ← furtherBounds r ((← ahead).length + 1) bound.bare
    let form := if further.fragment.isEmpty then .bound else .other
    return ⟨.other (bound.fragment.enclosed .paren ++ further.fragment), form, further.bare⟩
  | .type first =>
    if plus && first.form ≠ .other && (← peek (.sign "+")) then
      let further ← furtherBounds r ((← ahead).length + 1) first.bare
      return .endingLike further.bare (parenBound first.fragment ++ further.fragment)
    return ⟨.paren first.type, .other, false⟩

/-! ## Functions -/

/-- Read the calling convention of a function, if it has one. -/
def convention : Reading Fragment := do
  if ← peek (.word "extern") then
    let head ← word "extern"
    return head ++ (← if ← peek .textLiteral then literal else pure ∅)
  else return ∅

/-- What may name a parameter of a function type. -/
def parameterName : List Expectation := [.name, .word "_"]

/-- Whether a single colon stands behind the next word. -/
def colonBehind : Reading Bool :=
  return (← peekBehind 1 (.sign ":")) && !(← peekBehind 1 (.sign "::"))

/-- Read the dots for further parameters of a function type. -/
def furtherParameters : Reading Fragment := do
  let name ← if ← peekAny parameterName then
      let name ← anyWordFragment
      pure (name ++ (← sign ":"))
    else pure ∅
  let dots ← sign "..."
  return name ++ dots ++ (← sign? ",")

/-- Read a parameter of a function type. A first one may be named `self`, and the word for what
changes may stand before it or in place of a type; such a parameter is kept as it is written. -/
def typeOfParameter (r : Readers) (first : Bool) : Reading Fragment := do
  let changingSelf := return (← peek (.word "mut")) && (← peekBehind 1 (.word "self"))
  let ((canonical, found), written) ← captured do
    let changes ← if first && (← changingSelf) then word "mut" else pure ∅
    let isSelf := first && (← peek (.word "self"))
    let name ← if (isSelf || (← peekAny parameterName)) && (← colonBehind) then
        let name ← anyWordFragment
        pure (name ++ (← sign ":"))
      else pure ∅
    let namedSelf := isSelf && !name.isEmpty
    if first && !namedSelf && (← changingSelf) then
      discard (word "mut")
      discard (word "self")
      return (false, name)
    if !changes.isEmpty && name.isEmpty then
      discard (word "self")
      return (false, name)
    let type ← r.typeFragment true
    return (changes.isEmpty, name ++ type)
  return if canonical then found else .ofTokens written

/-- Read the parameters of a function type. Dots stand for further ones, and end them. -/
def parametersOfType (r : Readers) (first : Bool) : (fuel : Nat) → Reading Fragment
  | 0 => return ∅
  | fuel + 1 => do
    if ← ended then return ∅
    let attrs ← outerFragment r
    let further := (← peek (.sign "...")) ||
      ((← peekAny parameterName) && (← peekBehind 1 (.sign ":")) &&
        (← peekBehind 2 (.sign "...")))
    if further then return attrs ++ (← furtherParameters)
    let type ← typeOfParameter r first
    if ← ended then return attrs ++ type
    let comma ← sign ","
    return attrs ++ type ++ comma ++ (← parametersOfType r false fuel)

/-- Read the type of a function behind its binder. -/
def functionType (r : Readers) (lifetimes : Fragment) : Reading ReadType := do
  let head := (← word? "unsafe") ++ (← convention) ++ (← word "fn")
  let parameters ← groupFragment .paren do
    parametersOfType r true ((← ahead).length + 1)
  let (result, bare) ← result r false
  return .endingLike bare (lifetimes ++ head ++ parameters ++ result)

/-! ## Types -/

/-- Read a type that begins with a path; `lifetimes` stand before it. -/
def pathType (r : Readers) (plus : Bool) (lifetimes : Fragment) : Reading ReadType := do
  let found ← qualifiedPath r false
  if found.qualified then return found.toType
  if found.isPlain && (← peekSign "!" ["!="]) then
    return .plain (found.fragment ++ (← invocation).2)
  if !lifetimes.isEmpty || (plus && (← peek (.sign "+"))) then
    let further ← if plus then openBounds r ((← ahead).length + 1) found.isBare
      else pure (.empty found.isBare)
    let form := if further.fragment.isEmpty then .bound else .other
    return ⟨.other (lifetimes ++ found.fragment ++ further.fragment), form, further.bare⟩
  return found.toType

/-- Read a trait object with the word for it. With an asterisk it is kept as it is written. -/
def objectType (r : Readers) (plus : Bool) : Reading ReadType := do
  let ((starred, head, bounds), written) ← captured do
    let head ← word "dyn"
    let star ← sign? "*"
    return (!star.isEmpty, head, ← objectBounds r plus)
  if starred then return .plain (.ofTokens written)
  return .endingLike bounds.bare (head ++ bounds.fragment)

/-- Read a pointer. -/
def pointerType (r : Readers) : Reading ReadType := do
  let star ← sign "*"
  let kind ← if ← peek (.word "const") then word "const"
    else if ← peek (.word "mut") then word "mut"
    else expectedOneOf [.word "const", .word "mut"]
  let target ← r (.type false)
  return .endingLike target.bare (star ++ kind ++ target.fragment)

/-- Read a reference. -/
def referenceType (r : Readers) : Reading ReadType := do
  let head := (← sign "&") ++ (← lifetime?) ++ (← word? "mut")
  let target ← r (.type false)
  return .endingLike target.bare (head ++ target.fragment)

/-- Read an array or a slice. -/
def arrayType (r : Readers) : Reading ReadType :=
  group .bracket do
    let elem ← r (.type true)
    if ← peek (.sign ";") then
      discard (sign ";")
      let length ← r (.value true)
      return ⟨.array elem.type ⟨length.fragment, length.literal?⟩, .other, false⟩
    else return .plain (elem.fragment.enclosed .bracket)

/-- Read an opaque type. -/
def opaqueType (r : Readers) (plus : Bool) : Reading ReadType := do
  let head ← word "impl"
  let bounds ← boundsOf r plus true true ((← ahead).length + 1)
  let row := BoundRow.ofList bounds
  if bounds.any (·.isTrait) then return .endingLike row.bare (head ++ row.fragment)
  else refuse .opaqueWithoutTrait

/-- What can begin the type of a function. -/
def functionWords : List Expectation := ["fn", "unsafe", "extern"].map .word

/-- What can follow the binder of a type. -/
def boundTypeStarts : List Expectation :=
  .name :: functionWords ++ ["super", "self", "Self", "crate"].map .word

/-- Read a type behind its binder. -/
def typeBehindBinder (r : Readers) (plus : Bool) (lifetimes : Fragment) : Reading ReadType := do
  if ← peek (.group .paren) then parenType r plus
  else if ← peekAny functionWords then functionType r lifetimes
  else if ← peekAny (.name :: .sign "::" :: .sign "<" :: .word "Self" :: pathWords) then
    pathType r plus lifetimes
  else if ← peek (.word "dyn") then objectType r plus
  else if ← peek (.group .bracket) then arrayType r
  else if ← peek (.sign "*") then pointerType r
  else if ← peek (.sign "&") then referenceType r
  else if ← peek (.sign "!") then return .plain (← sign "!")
  else if ← peek (.word "impl") then opaqueType r plus
  else if ← peek (.word "_") then return .plain (← word "_")
  else if ← peek .lifetime then
    let bounds ← objectBounds r true
    return .endingLike bounds.bare bounds.fragment
  else expectedOneOf (.word "for" :: .group .paren :: functionWords ++ [.name, .sign "::",
    .sign "<", .word "dyn", .group .bracket, .sign "*", .sign "&", .sign "!", .word "impl",
    .word "_", .lifetime])

/-- Read a type; with `plus`, it may go on with bounds behind a path or parentheses. -/
def type (r : Readers) (plus : Bool) : Reading ReadType := do
  let (found, written) ← captured do
    let lifetimes ← binder r
    if !lifetimes.isEmpty && !(← peekAny boundTypeStarts) then expectedOneOf boundTypeStarts
    if ← builtinAhead then
      builtinForm
      return none
    return some (← typeBehindBinder r plus lifetimes)
  return found.getD (.plain (.ofTokens written))

end BitLayout.Grammar
