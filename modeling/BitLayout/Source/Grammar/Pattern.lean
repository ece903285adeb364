import BitLayout.Source.Grammar.Path

/-!
# BitLayout.Source.Grammar.Pattern

Patterns.

A range in a pattern may be written with three dots, which are printed as two dots and an equals
sign.
-/

namespace BitLayout.Grammar

open Reading

/-- A pattern of which nothing else depends. -/
def plainPattern (fragment : Fragment) : Pattern := ⟨.other, fragment⟩

/-! ## Alternatives -/

/-- Alternatives behind a first pattern, each behind a bar. -/
def alternatives (r : Readers) : (fuel : Nat) → Reading Fragment
  | 0 => return ∅
  | fuel + 1 => do
    if ← peekSign "|" ["||", "|="] then
      let bar ← sign "|"
      let next ← r.patternFragment
      return bar ++ next ++ (← alternatives r fuel)
    else return ∅

/-- Read a pattern with alternatives; a bar may stand before the first. -/
def patternOf (r : Readers) : Reading Pattern := do
  let bar ← sign? "|"
  let first ← r .pattern
  let others ← alternatives r (← ahead).length
  if bar.isEmpty && others.isEmpty then return first
  return plainPattern (bar ++ first.fragment ++ others)

/-- Read a pattern with alternatives, as a part of the source. -/
def patternOfFragment (r : Readers) : Reading Fragment := return (← patternOf r).fragment

/-! ## Ranges -/

/-- Read the dots of a range in a pattern, and whether an end has to follow them. -/
def patternDots : Reading (Fragment × Bool) := do
  if ← peek (.sign "..=") then return (← sign "..=", true)
  else if ← peek (.sign "...") then
    discard (sign "...")
    return (.ofSign "..=", true)
  else if ← peek (.sign "..") then return (← sign "..", false)
  else expectedOneOf [.sign ".."]

/-- Read a block whose value is constant: the block, and the block without the attributes inside it.
-/
def constantBlock (r : Readers) : Reading (Fragment × Fragment) := do
  let head ← word "const"
  let (attrs, content) ← blockParts r
  return (head ++ (attrs ++ content).enclosed .brace, head ++ content.enclosed .brace)

/-- Read an end of a range, if one stands here: a literal, a path or a constant. -/
def patternEnd? (r : Readers) : Reading (Option Pattern) := do
  let absent := (← ended) || (← peekAny [.sign "|", .sign "=", .sign ",", .sign ";", .word "if"]) ||
    (← peekSign ":" ["::"])
  if absent then return none
  let pathStarts : List Expectation :=
    .name :: .sign "::" :: .sign "<" :: .word "self" :: .word "Self" :: .word "super" ::
      [.word "crate"]
  if ← peek .literal then return some (plainPattern (← literal))
  else if ← peekAny pathStarts then return some (plainPattern (← qualifiedPath r true).fragment)
  else if ← peek (.word "const") then
    let (block, plain) ← constantBlock r
    return some ⟨.constant plain, block⟩
  else expectedOneOf (.literal :: pathStarts ++ [.word "const"])

/-- Read the end of a range behind its start. -/
def patternRange (r : Readers) (start : Fragment) : Reading Pattern := do
  let (dots, closed) ← patternDots
  match ← patternEnd? r with
  | some last => return ⟨.range, start ++ dots ++ last.fragment⟩
  | none =>
    if closed then expected "range upper bound"
    return ⟨.openRange, start ++ dots⟩

/-- Read a range without a start, or the two dots that stand for the rest. -/
def patternRest (r : Readers) : Reading Pattern := do
  let closed ← peek (.sign "..=")
  let dots ← sign (if closed then "..=" else "..")
  match ← patternEnd? r with
  | some last => return ⟨.openRange, dots ++ last.fragment⟩
  | none => if closed then expected "range upper bound" else return ⟨.rest, dots⟩

/-- Read a literal, or a range that begins with a literal or a constant. -/
def literalPattern (r : Readers) : Reading Pattern := do
  match ← patternEnd? r with
  | some start => if ← peek (.sign "..") then patternRange r start.fragment else return start
  | none => throw (.unexpected (← ended))

/-! ## Groups of patterns -/

/-- Read a field of a struct in a pattern. -/
def patternField (r : Readers) : Reading Fragment := do
  let (found, written) ← captured do
    let boxed ← word? "box"
    let modifiers := (← word? "ref") ++ (← word? "mut")
    if !(boxed ++ modifiers).isEmpty then return (boxed.isEmpty, modifiers ++ (← nameFragment))
    let (name, named) ← member
    if !named || (← peek (.sign ":")) then
      let colon ← sign ":"
      return (true, name ++ colon ++ (← patternOfFragment r))
    return (true, name)
  return if found.1 then found.2 else .ofTokens written

/-- The fields of a struct in a pattern; two dots for the rest end them. -/
def patternFields (r : Readers) : (fuel : Nat) → Reading Fragment
  | 0 => return ∅
  | fuel + 1 => do
    if ← ended then return ∅
    let attrs ← outerFragment r
    if ← peek (.sign "..") then return attrs ++ (← sign "..")
    let field ← patternField r
    if ← ended then return attrs ++ field
    let comma ← sign ","
    return attrs ++ field ++ comma ++ (← patternFields r fuel)

/-- Read a pattern that begins with a path. -/
def pathPattern (r : Readers) : Reading Pattern := do
  let found ← qualifiedPath r true
  if !found.qualified && found.isPlain && (← peekSign "!" ["!="]) then
    return plainPattern (found.fragment ++ (← invocation).2)
  if ← peek (.group .brace) then
    let fields ← groupFragment .brace do patternFields r ((← ahead).length + 1)
    return plainPattern (found.fragment ++ fields)
  if ← peek (.group .paren) then
    let parts ← groupFragment .paren (commaList (patternOfFragment r))
    return plainPattern (found.fragment ++ parts)
  if ← peek (.sign "..") then patternRange r found.fragment
  else return plainPattern found.fragment

/-- Read patterns in parentheses. -/
def parenPattern (r : Readers) : Reading Pattern := do
  return plainPattern (← groupFragment .paren (commaList (patternOfFragment r)))

/-- Read patterns in square brackets, none of which is a range without both ends. -/
def slicePattern (r : Readers) : Reading Pattern := do
  return plainPattern (← groupFragment .bracket (commaList do
    let found ← patternOf r
    if found.form = .openRange then refuse .openRangeInSlice
    return found.fragment))

/-! ## Patterns -/

/-- Read a name that what matches is bound to. -/
def namePattern (r : Readers) : Reading Pattern := do
  let modifiers := (← word? "ref") ++ (← word? "mut")
  let name ← if ← peek (.word "self") then anyWordFragment else nameFragment
  if ← peek (.sign "@") then
    let binding ← sign "@"
    return plainPattern (modifiers ++ name ++ binding ++ (← r.patternFragment))
  return plainPattern (modifiers ++ name)

/-- Read a pattern without alternatives. -/
def pattern (r : Readers) : Reading Pattern := do
  let named ← peek .name
  let pathBehind := (← peekBehind 1 (.sign "::")) || (← peekBehind 1 (.sign "!")) ||
    (← peekBehind 1 (.group .brace)) || (← peekBehind 1 (.group .paren)) ||
    (← peekBehind 1 (.sign ".."))
  let fromSelf := (← peek (.word "self")) && (← peekBehind 1 (.sign "::"))
  if (named && pathBehind) || fromSelf ||
      (← peekAny [.sign "::", .sign "<", .word "Self", .word "super", .word "crate"]) then
    pathPattern r
  else if ← peek (.word "_") then return plainPattern (← word "_")
  else if ← peek (.word "box") then
    let (_, written) ← captured do
      discard (word "box")
      discard r.patternFragment
    return ⟨.raw, .ofTokens written⟩
  else if ← peekAny [.sign "-", .literal, .word "const"] then literalPattern r
  else if ← peekAny [.word "ref", .word "mut", .word "self", .name] then namePattern r
  else if ← peek (.sign "&") then
    let head := (← sign "&") ++ (← word? "mut")
    return plainPattern (head ++ (← r.patternFragment))
  else if ← peek (.group .paren) then parenPattern r
  else if ← peek (.group .bracket) then slicePattern r
  else if ← peekSign ".." ["..."] then patternRest r
  else expectedOneOf [.name, .sign "::", .sign "<", .word "_", .literal, .word "const", .word "ref",
    .word "mut", .sign "&", .group .paren, .group .bracket, .sign "..", .word "const"]

end BitLayout.Grammar
