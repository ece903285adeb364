import BitLayout.Source.Grammar.Function

/-!
# BitLayout.Source.Grammar.Member

The items inside traits, implementations and foreign blocks, and what they share with items of a
module: constants, types and invocations.

What the language has no use for, such as a visibility in a trait, is read and kept as it is
written.
-/

namespace BitLayout.Grammar

open Reading

/-! ## What all items share -/

/-- Read something that is printed in canonical form, or kept as it is written if the reader finds
no such form. -/
def orWritten (reader : Reading (Option Fragment)) : Reading Fragment := do
  let (found, written) ← captured reader
  return found.getD (.ofTokens written)

/-- What can begin a path without arguments. -/
def plainStarts : List Expectation := .name :: pathWords ++ [.sign "::"]

/-- A constant. -/
structure ConstantItem where
  fragment : Fragment
  hasValue : Bool
  /-- It has no parameters and no conditions on them. -/
  isPlain : Bool

/-- Read a constant. -/
def constantItem (r : Readers) : Reading ConstantItem := do
  let head ← word "const"
  let names := [Expectation.name, .word "_"]
  let name ← if ← peekAny names then anyWordFragment else expectedOneOf names
  let generic ← peek (.sign "<")
  discard (parameters r)
  let colon ← sign ":"
  let type ← r.typeFragment true
  let value ← if ← peek (.sign "=") then
      let equals ← sign "="
      pure (equals ++ (← r.valueFragment))
    else pure ∅
  let (_, bounded) ← whereClause? r
  let semicolon ← sign ";"
  return ⟨head ++ name ++ colon ++ type ++ value ++ semicolon, !value.isEmpty, !generic && !bounded⟩

/-- Where the conditions on the parameters of a type may stand. -/
inductive Clauses where
  | beforeType
  | behindType
  | either
deriving DecidableEq

/-- A type with a name. -/
structure TypeItem where
  name : String
  generics : Fragment
  hasColon : Bool
  /-- The bounds with the colon before them. -/
  bounds : Fragment
  clause : Fragment
  type : Option TypeExpr

/-- The type that the name stands for, with the equals sign before it. -/
def TypeItem.definition (t : TypeItem) : Fragment :=
  match t.type with
  | some type => .ofSign "=" ++ type.fragment
  | none => ∅

/-- The type with these parts behind its parameters. -/
def TypeItem.fragmentWith (t : TypeItem) (parts : Fragment) : Fragment :=
  .ofWord "type" ++ .ofWord t.name ++ t.generics ++ parts ++ .ofSign ";"

/-- Read a type with a name. -/
def typeItem (r : Readers) (clauses : Clauses) : Reading TypeItem := do
  discard (word "type")
  let name ← name
  let generics ← parameters r
  let colon ← sign? ":"
  let bounds ← if colon.isEmpty then pure ∅ else
    itemBounds r true [.word "where", .sign "=", .sign ";"]
  let (before, bounded) ← if clauses = .behindType then pure (∅, false) else whereClause? r
  let type ← if ← peek (.sign "=") then
      discard (sign "=")
      pure (some (← r (.type true)).type)
    else pure none
  let behind ← if clauses = .beforeType || bounded then pure ∅ else whereClause r
  discard (sign ";")
  return {
    name
    generics
    hasColon := !colon.isEmpty
    bounds := colonFragment colon bounds
    clause := before ++ behind
    type }

/-- Read an invocation. A semicolon has to follow unless it has braces. -/
def invocationItem : Reading Fragment := do
  let path ← plainPath
  let (d, group) ← invocation
  let semicolon ← if d = .brace then pure ∅ else sign ";"
  return path ++ group ++ semicolon

/-! ## Members of a trait -/

/-- Read a function of a trait, with or without a body. -/
def traitFunction (r : Readers) : Reading Fragment := do
  let (head, _) ← signature r false
  if ← peek (.group .brace) then return head ++ (← attributedBlock r)
  else if ← peek (.sign ";") then return head ++ (← sign ";")
  else expectedOneOf [.group .brace, .sign ";"]

/-- Read a member of a trait behind its attributes; `plain` says that nothing stands between. -/
def traitMemberBody (r : Readers) (plain : Bool) : Reading (Option Fragment) := do
  if (← peek (.word "fn")) || (← signatureAhead false) then return some (← traitFunction r)
  else if ← peek (.word "const") then
    let follows := [Expectation.name, .word "_"] ++ ["async", "unsafe", "extern", "fn"].map .word
    let tokens ← ahead
    if (← peekBehind 1 .name) || (← peekBehind 1 (.word "_")) then
      let found ← constantItem r
      return if found.isPlain then some found.fragment else none
    else if follows.any fun e => e.holds (tokens.drop 1) then return some (← traitFunction r)
    else
      discard (word "const")
      expectedOneOf follows
  else if ← peek (.word "type") then
    let found ← typeItem r .behindType
    return some (found.fragmentWith (found.bounds ++ found.definition ++ found.clause))
  else if plain && (← peekAny plainStarts) then return some (← invocationItem)
  else expectedOneOf ([.word "fn", .word "const", .word "type"] ++
    if plain then plainStarts else [])

/-- Read a member of a trait. -/
def traitMember (r : Readers) : Reading Fragment := orWritten do
  let attrs ← outerFragment r
  let visibility ← visibility
  let plain := (visibility ++ (← word? "default")).isEmpty
  let found ← traitMemberBody r plain
  return if plain then found.map (attrs ++ ·) else none

/-! ## Members of an implementation -/

/-- Read a member of an implementation behind its attributes, its visibility, and the word that
makes it a default one. -/
def memberBody (r : Readers) (visible preset : Bool) : Reading (Option Fragment) := do
  let plain := !visible && !preset
  if (← peek (.word "fn")) || (← signatureAhead false) then
    let (head, _) ← signature r false
    if ← peek (.sign ";") then
      discard (sign ";")
      return none
    return some (head ++ (← attributedBlock r))
  else if ← peek (.word "const") then
    let found ← constantItem r
    return if found.isPlain && found.hasValue then some found.fragment else none
  else if ← peek (.word "type") then
    let found ← typeItem r .behindType
    if found.hasColon || found.type.isNone then return none
    return some (found.fragmentWith (found.definition ++ found.clause))
  else if plain && (← peekAny plainStarts) then return some (← invocationItem)
  else expectedOneOf ((if preset then [] else [.word "default"]) ++
    [.word "fn", .word "const", .word "type"] ++ if plain then plainStarts else [])

/-- Read a member of an implementation. -/
def implMember (r : Readers) : Reading Fragment := orWritten do
  let attrs ← outerFragment r
  let visibility ← visibility
  let preset ← if (← peek (.word "default")) && !(← peekBehind 1 (.sign "!")) then word "default"
    else pure ∅
  let found ← memberBody r (!visibility.isEmpty) (!preset.isEmpty)
  return found.map (attrs ++ visibility ++ preset ++ ·)

/-! ## Members of a foreign block -/

/-- Read a function of a foreign block. With a body, or said to be safe, it has no canonical form.
-/
def foreignFunction (r : Readers) : Reading (Option Fragment) := do
  let (head, assured) ← signature r true
  if ← peek (.group .brace) then
    discard (attributedBlock r)
    return none
  let semicolon ← sign ";"
  return if assured then none else some (head ++ semicolon)

/-- Read a static value of a foreign block. -/
def foreignStatic (r : Readers) : Reading (Option Fragment) := do
  let risky ← word? "unsafe"
  let assured ← if risky.isEmpty then word? "safe" else pure ∅
  let head := (← word "static") ++ (← word? "mut") ++ (← nameFragment) ++ (← sign ":")
  let type ← r.typeFragment true
  let value ← if ← peek (.sign "=") then
      let equals ← sign "="
      pure (equals ++ (← r.valueFragment))
    else pure ∅
  let semicolon ← sign ";"
  return if (risky ++ assured ++ value).isEmpty then some (head ++ type ++ semicolon) else none

/-- Read a member of a foreign block. -/
def foreignMember (r : Readers) : Reading Fragment := orWritten do
  let attrs ← outerFragment r
  let visibility ← visibility
  let staticBehind ← peekBehind 1 (.word "static")
  let found ← if (← peek (.word "fn")) || (← signatureAhead true) then foreignFunction r
    else if (← peek (.word "static")) ||
        ((← peekAny [.word "unsafe", .word "safe"]) && staticBehind) then foreignStatic r
    else if ← peek (.word "type") then
      let found ← typeItem r .either
      pure (if found.hasColon || found.type.isSome then none
        else some (found.fragmentWith found.clause))
    else if visibility.isEmpty && (← peekAny plainStarts) then some <$> invocationItem
    else expectedOneOf ([.word "fn", .word "static", .word "type"] ++
      if visibility.isEmpty then plainStarts else [])
  return found.map (attrs ++ visibility ++ ·)

end BitLayout.Grammar
