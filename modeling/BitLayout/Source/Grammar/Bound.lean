import BitLayout.Source.Grammar.Path

/-!
# BitLayout.Source.Grammar.Bound

Bounds, generic parameters and `where` clauses.

A colon without bounds behind it is not printed, nor are an empty list of parameters and a clause
without a condition.
-/

namespace BitLayout.Grammar

open Reading

/-! ## Bounds -/

/-- Read the captured parameters of an opaque type. -/
def captures : Reading Fragment := do
  let use ← word "use"
  discard (sign "<")
  let parts ← separatedFrom "," more part ((← ahead).length + 1)
  discard (sign ">")
  return use ++ angled (lifetimesFirst (parts.map fun ((isLifetime, fragment), comma) =>
    ⟨isLifetime, fragment, comma⟩))
where
  /-- Whether the list goes on. -/
  more : Reading Bool := return !(← peek (.sign ">"))
  /-- One parameter; behind it, a comma or the end has to follow. -/
  part : Reading (Bool × Fragment) := do
    let found ← if ← peek .lifetime then pure (true, ← lifetime)
      else if ← peekAny [.name, .word "Self"] then pure (false, ← anyWordFragment)
      else expectedOneOf [.lifetime, .name, .sign ">"]
    if ← peekAny [.sign ",", .sign ">"] then return found
    else expectedOneOf [.sign ",", .sign ">"]

/-- Bounds of lifetimes behind a colon, up to one of these. -/
def lifetimeBounds (stops : List Expectation) : Reading Fragment := do
  plusFrom (return !(← ended) && !(← peekAny stops)) lifetime ((← ahead).length + 1)

/-- Bounds behind a colon, as long as `more` holds. -/
def boundsWhile (r : Readers) (more : Reading Bool) : Reading Fragment := do
  plusFrom more (return (← r (.bound false true)).fragment) ((← ahead).length + 1)

/-- Bounds behind the colon of an item, up to one of these. A plus sign follows each but the last.
-/
def itemBounds (r : Readers) (const : Bool) (stops : List Expectation) : Reading Fragment := do
  let parts ← separatedFrom "+" (return !(← peekAny stops))
    (return (← r (.bound false const)).fragment) ((← ahead).length + 1)
  return .flatten (parts.map fun (part, plus) => part ++ plus)

/-- A colon and bounds. The colon is not printed if there are none. -/
def colonFragment (colon bounds : Fragment) : Fragment :=
  if bounds.isEmpty then colon.hidden else colon ++ bounds

/-! ## Parameters -/

/-- Read a lifetime parameter. -/
def lifetimeParameter : Reading Fragment := do
  let name ← lifetime
  if ← peek (.sign ":") then
    let colon ← sign ":"
    return name ++ colonFragment colon (← lifetimeBounds [.sign ",", .sign ">"])
  else return name

/-- Read a type parameter. -/
def typeParameter (r : Readers) : Reading Fragment := do
  let name ← nameFragment
  let colon ← sign? ":"
  let bounds ← if colon.isEmpty then pure ∅ else
    boundsWhile r (return !(← ended) && !(← peekAny [.sign ",", .sign ">", .sign "="]))
  let equals ← sign? "="
  let default ← if equals.isEmpty then pure ∅ else r.typeFragment true
  return name ++ colonFragment colon bounds ++ equals ++ default

/-- Read a constant parameter. -/
def constantParameter (r : Readers) : Reading Fragment := do
  let head ← word "const"
  let name ← nameFragment
  let colon ← sign ":"
  let type ← r.typeFragment true
  let value ← if ← peek (.sign "=") then
      let equals ← sign "="
      pure (equals ++ (← constant r))
    else pure ∅
  return head ++ name ++ colon ++ type ++ value

/-- Read a parameter, and whether it is a lifetime. -/
def parameter (r : Readers) : Reading (Bool × Fragment) := do
  let attrs ← outerFragment r
  if ← peek .lifetime then return (true, attrs ++ (← lifetimeParameter))
  else if ← peek .name then return (false, attrs ++ (← typeParameter r))
  else if ← peek (.word "const") then return (false, attrs ++ (← constantParameter r))
  else expectedOneOf [.name, .lifetime, .word "const"]

/-- Read generic parameters, which may be absent. Brackets without parameters are not printed. An
underscore may stand for a parameter. -/
def parameters (r : Readers) : Reading Fragment := do
  if !(← peek (.sign "<")) then return ∅
  let parts ← angledParts part
  let list := angled (lifetimesFirst parts)
  return if parts.isEmpty then list.hidden else list
where
  /-- One parameter. -/
  part : Reading (Bool × Fragment) := do
    let attrs ← outerFragment r
    if ← peek .lifetime then return (true, attrs ++ (← lifetimeParameter))
    else if ← peek .name then return (false, attrs ++ (← typeParameter r))
    else if ← peek (.word "const") then return (false, attrs ++ (← constantParameter r))
    else if ← peek (.word "_") then return (false, attrs ++ (← anyWordFragment))
    else expectedOneOf [.lifetime, .name, .word "const"]

/-- Read the binder of a higher-ranked bound, type or closure, if there is one. Its parameters stay
in order. -/
def binder (r : Readers) : Reading Fragment := do
  if ← peek (.word "for") then
    let head ← word "for"
    let parts ← angledParts (parameter r)
    return head ++ angled (angledRow parts)
  else return ∅

/-- Whether generic parameters stand behind so many others, and not the angle bracket of a qualified
path. -/
def parametersBehind (count : Nat) : Reading Bool := do
  let first := peekBehind (count + 1)
  let second := peekBehind (count + 2)
  if !(← peekBehind count (.sign "<")) then return false
  if (← first (.sign ">")) || (← first (.sign "#")) || (← first (.word "const")) then return true
  if !((← first .lifetime) || (← first .name)) then return false
  return ((← second (.sign ":")) && !(← second (.sign "::"))) || (← second (.sign ",")) ||
    (← second (.sign ">")) || (← second (.sign "="))

/-! ## Bounds of traits -/

/-- Read what bounds by a trait, without parentheses around it. The flag says that it asks for
constant methods, and is kept as it is written. -/
def traitBound (r : Readers) (const : Bool) : Reading (Bool × Bound) := do
  let first ← binder r
  let asked ← if ← peek (.group .bracket) then
      discard (group .bracket (word "const"))
      if !const then refuse .conditionalConstBound
      pure true
    else if ← peek (.word "const") then
      discard (word "const")
      if !const then refuse .constBound
      pure true
    else pure false
  let modifier ← sign? "?"
  let late ← if first.isEmpty && !modifier.isEmpty then binder r else pure ∅
  let trait ← path r false
  let callable := trait.last.arguments.empty && ((← peek (.group .paren)) ||
    ((← peek (.sign "::")) && (← peekBehind 2 (.group .paren))))
  let (trait, bare) ← if callable then
      discard (sign? "::")
      let (arguments, bare) ← functionArguments r
      pure (trait.withoutArguments.fragment ++ arguments, bare)
    else pure (trait.fragment, trait.isBare)
  if !modifier.isEmpty && !(first ++ late).isEmpty then refuse .optionalBinder
  return (asked, ⟨true, modifier ++ first ++ late ++ trait, bare⟩)

/-- Read a bound. -/
def bound (r : Readers) (captured const : Bool) : Reading Bound := do
  if ← peek .lifetime then return ⟨false, ← lifetime, false⟩
  if ← peek (.word "use") then
    let found ← captures
    if captured then return ⟨false, found, false⟩ else refuse .captures
  let parens ← peek (.group .paren)
  let ((asked, found), written) ← Reading.captured (if parens then group .paren (traitBound r const)
    else traitBound r const)
  if asked then return ⟨true, .ofTokens written, false⟩
  if parens then return { found with fragment := found.fragment.enclosed .paren }
  return found

/-- Bounds with plus signs between them, as those of a trait object. With `plus`, there may be more
than one, and a plus sign may end them. -/
def boundsOf (r : Readers) (plus captured const : Bool) : (fuel : Nat) → Reading (List Bound)
  | 0 => return []
  | fuel + 1 => do
    let first ← r (.bound captured const)
    if !(plus && (← peek (.sign "+"))) then return [first]
    let first := { first with fragment := first.fragment ++ (← sign "+") }
    let asked := if const then [Expectation.group .bracket, .word "const"] else []
    if ← peekAny ([.anyWord, .sign "::", .sign "?", .lifetime, .group .paren] ++ asked) then
      return first :: (← boundsOf r plus captured const fuel)
    else return [first]

/-! ## Conditions -/

/-- Read one condition of a `where` clause. -/
def condition (r : Readers) : Reading Fragment := do
  if (← peek .lifetime) && (← peekBehind 1 (.sign ":")) then
    let name ← lifetime
    let colon ← sign ":"
    return name ++ colon ++ (← lifetimeBounds (.sign ":" :: stops))
  else
    let lifetimes ← binder r
    let bounded ← r.typeFragment true
    let colon ← sign ":"
    let bounds ← boundsWhile r (return !(← ended) && !(← peekAny stops) &&
      !(← peekSign ":" ["::"]))
    return lifetimes ++ bounded ++ colon ++ bounds
where
  /-- What ends bounds. -/
  stops : List Expectation := [.group .brace, .sign ",", .sign ";", .sign "="]

/-- Conditions with commas between them. -/
def conditions (r : Readers) : (fuel : Nat) → Reading Fragment
  | 0 => return ∅
  | fuel + 1 => do
    if (← ended) || (← peekAny [.group .brace, .sign ",", .sign ";", .sign "="]) ||
        (← peekSign ":" ["::"]) then return ∅
    let first ← condition r
    if ← peek (.sign ",") then
      let comma ← sign ","
      return first ++ comma ++ (← conditions r fuel)
    else return first

/-- Read a `where` clause, which may be absent, and whether it is there. It is not printed without
conditions. -/
def whereClause? (r : Readers) : Reading (Fragment × Bool) := do
  if !(← peek (.word "where")) then return (∅, false)
  let head ← word "where"
  if ← parametersBehind 0 then refuse .whereParameters
  let found ← conditions r ((← ahead).length + 1)
  return (if found.isEmpty then head.hidden else head ++ found, true)

/-- Read a `where` clause, which may be absent. It is not printed without conditions. -/
def whereClause (r : Readers) : Reading Fragment := return (← whereClause? r).1

end BitLayout.Grammar
