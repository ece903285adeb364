import BitLayout.Source.Grammar.Block
import BitLayout.Source.Grammar.Bound

/-!
# BitLayout.Source.Grammar.Value

Values: what stands between operators, with the operators before it and what is selected from it or
applied to it behind it.
-/

namespace BitLayout.Grammar

open Reading

/-! ## Values behind a word -/

/-- Whether what stands ahead can begin a value. -/
def valueAhead : Reading Bool := do
  if ← peek (.word "as") then return false
  if ← peekAny ([.anyWord, .group .paren, .group .bracket, .group .brace, .literal, .sign "..",
      .sign "::", .lifetime, .sign "#"]) then return true
  return (← peekSign "!" ["!="]) || (← peekSign "-" ["-=", "->"]) || (← peekSign "*" ["*="]) ||
    (← peekSign "|" ["|="]) || (← peekSign "&" ["&="]) || (← peekSign "<" ["<=", "<<="])

/-- Read a word that leaves a function, and the value behind it if there is one. -/
def givingBack (r : Readers) (w : String) : Reading Value := do
  let head ← word w
  return .jump ∅ .giveBack head (← if ← valueAhead then some <$> r (.value true) else pure none)

/-- Read what leaves a loop. -/
def leaving (r : Readers) (structs : Bool) : Reading Value := do
  let head ← word "break"
  if (← peek .lifetime) && (← peekBehind 1 (.sign ":")) then
    discard (r (.value true))
    refuse .labelledBreak
  let label ← lifetime?
  let result ← if (← valueAhead) && (structs || !(← peek (.group .brace))) then
      some <$> r (.value true)
    else pure none
  return .jump ∅ (.leave !label.isEmpty) (head ++ label) result

/-- Read a condition that matches a pattern. -/
def patternCondition (r : Readers) (structs : Bool) : Reading Value := do
  let head ← word "let"
  let pattern ← patternOfFragment r
  let equals ← sign "="
  let first ← r (.operand structs)
  return .condition ∅ (head ++ pattern ++ equals)
    (← operationsBehind r structs .comparison first)

/-! ## Closures -/

/-- Read a parameter of a closure. Without a type, attributes before it take the place of those that
it has. -/
def closureParameter (r : Readers) : Reading Fragment := do
  let attrs ← outerFragment r
  let pattern ← r .pattern
  if ← peek (.sign ":") then
    let colon ← sign ":"
    return attrs ++ pattern.fragment ++ colon ++ (← r.typeFragment true)
  return pattern.withAttributes attrs

/-- Read a closure. With a result type, its value is a block. -/
def closure (r : Readers) (structs : Bool) : Reading Value := do
  let lifetimes ← binder r
  let words := (← word? "const") ++ (← word? "static") ++ (← word? "async") ++ (← word? "move")
  let opening ← sign "|"
  let parameters ← separatedFrom "," (return !(← peek (.sign "|"))) (closureParameter r)
    ((← ahead).length + 1)
  let closing ← sign "|"
  let head := lifetimes ++ words ++ opening ++
    .flatten (parameters.map fun (part, comma) => part ++ comma) ++ closing
  if ← peek (.sign "->") then
    let arrow ← sign "->"
    let type ← r.typeFragment true
    return .closure ∅ (head ++ arrow ++ type) true (.atom ∅ .block (← block r))
  else return .closure ∅ head false (← r (.value structs))

/-- Whether a closure stands ahead. -/
def closureAhead : Reading Bool := do
  let moves := (← peekBehind 1 (.sign "|")) || (← peekBehind 1 (.word "move"))
  return (← peekAny [.sign "|", .word "move", .word "static"]) || (← binderAhead) ||
    ((← peek (.word "const")) && !(← peekBehind 1 (.group .brace))) ||
    ((← peek (.word "async")) && moves)

/-! ## Groups -/

/-- Read a field of a struct value. -/
def fieldValue (r : Readers) : Reading Fragment := do
  let attrs ← outerFragment r
  let (name, named) ← member
  if !named || (← peek (.sign ":")) then
    let colon ← sign ":"
    return attrs ++ name ++ colon ++ (← r.valueFragment)
  return attrs ++ name

/-- The fields of a struct value; two dots end them, with the value that has the rest. -/
def fieldValues (r : Readers) : (fuel : Nat) → Reading Fragment
  | 0 => return ∅
  | fuel + 1 => do
    if ← ended then return ∅
    if ← peek (.sign "..") then
      let dots ← sign ".."
      return dots ++ (← if ← ended then pure ∅ else r.valueFragment)
    let field ← fieldValue r
    if ← ended then return field
    let comma ← sign ","
    return field ++ comma ++ (← fieldValues r fuel)

/-- Read a value that begins with a path: an invocation, a struct value, or the path alone. -/
def pathValue (r : Readers) (structs : Bool) : Reading Value := do
  let found ← qualifiedPath r true
  if !found.qualified && found.isPlain && (← peekSign "!" ["!="]) then
    let (d, group) ← invocation
    return .atom ∅ (if d = .brace then .invocation else .other) (found.fragment ++ group)
  if structs && (← peek (.group .brace)) then
    let fields ← groupFragment .brace do fieldValues r ((← ahead).length + 1)
    return .atom ∅ .struct (found.fragment ++ fields)
  return .atom ∅ .path found.fragment

/-- Read what stands in square brackets: values, or one value and how often it is repeated. -/
def elements (r : Readers) : Reading Fragment := do
  if ← ended then return ∅
  let first ← r.valueFragment
  if ← ended then return first
  if ← peek (.sign ",") then
    let comma ← sign ","
    return first ++ comma ++ (← commaList (r.valueFragment))
  if ← peek (.sign ";") then
    let semicolon ← sign ";"
    return first ++ semicolon ++ (← r.valueFragment)
  expected "`,` or `;`"

/-! ## Atoms -/

/-- Read something that is kept as it is written. -/
def rawValue (reader : Reading Unit) : Reading Value := do
  return .atom ∅ .raw (.ofTokens (← captured reader).2)

/-- Read a value without operators, and without what is selected from it or applied to it. -/
def atom (r : Readers) (structs : Bool) : Reading Value := do
  let asyncBlock := (← peekBehind 1 (.group .brace)) ||
    ((← peekBehind 1 (.word "move")) && (← peekBehind 2 (.group .brace)))
  let triedPath := (← peekBehind 1 (.sign "!")) || (← peekBehind 1 (.sign "::"))
  if ← peek .literal then return .atom ∅ .literal (← literal)
  else if (← peek (.word "async")) && asyncBlock then
    let head := (← word "async") ++ (← word? "move")
    return .plain (head ++ (← block r))
  else if ← closureAhead then closure r structs
  else if ← builtinAhead then rawValue builtinForm
  else if (← peekAny (.name :: .sign "::" :: .sign "<" :: .word "Self" :: pathWords)) ||
      ((← peek (.word "try")) && triedPath) then pathValue r structs
  else if ← peek (.group .paren) then
    return .plain (← groupFragment .paren (commaList r.valueFragment))
  else if ← peek (.word "break") then leaving r structs
  else if ← peek (.word "continue") then return .plain ((← word "continue") ++ (← lifetime?))
  else if ← peek (.word "return") then givingBack r "return"
  else if ← peek (.word "become") then rawValue do
    discard (word "become")
    discard (r (.value true))
  else if ← peek (.group .bracket) then return .plain (← groupFragment .bracket (elements r))
  else if ← peek (.word "let") then patternCondition r structs
  else if ← peek (.word "yield") then givingBack r "yield"
  else if ← peek (.sign "..") then
    let (dots, closed) ← rangeDots
    return .range ∅ none dots (← rangeEnd? r structs closed)
  else if ← peek (.word "_") then return .plain (← word "_")
  else match ← blockValue? r with
    | some found => return found
    | none => expected "an expression"

/-! ## What stands behind a value -/

/-- Read what selects a part of a value, or what applies a method to it, behind the point. -/
def selector (r : Readers) : Reading Fragment := do
  if ← peek (.word "await") then return ← word "await"
  let (name, named) ← member
  let turbofish := named && (← peek (.sign "::"))
  let generic ← if turbofish then Arguments.fragment <$> arguments r else pure ∅
  if named && (!generic.isEmpty || (← peek (.group .paren))) then
    return name ++ generic ++ (← groupFragment .paren (commaList (r.valueFragment)))
  return name ++ generic

/-- Read a point and what it selects. A decimal stands for the numbers of two fields, one inside
the other; with a point at its end, more has to follow. -/
def selected (r : Readers) : Reading Fragment := do
  let point ← sign "."
  if !(← peek .decimal) then return point ++ (← selector r)
  match Expectation.literalAhead? (← ahead) with
  | some (negative, text) =>
    discard literal
    let (indices, pointed) ← decimalIndices negative text
    let numbers := .flatten (indices.map fun n => point ++ indexFragment n)
    return numbers ++ (← if pointed then pure (point ++ (← selector r)) else pure ∅)
  | none => expected "identifier or integer"

/-- Whether a point stands ahead that selects something, or a question mark. -/
def selectionAhead : Reading Bool := return (← peekSign "." [".."]) || (← peek (.sign "?"))

/-- A value with all that is applied to it or selected from it. -/
def applications (r : Readers) : (fuel : Nat) → Value → Reading Value
  | 0, v => return v
  | fuel + 1, v => do
    if ← peek (.group .paren) then
      let arguments ← groupFragment .paren (commaList r.valueFragment)
      applications r fuel (.application ∅ v arguments)
    else if ← peek (.group .bracket) then
      let index ← groupFragment .bracket r.valueFragment
      applications r fuel (.application ∅ v index)
    else if !v.isRange && (← selectionAhead) then
      let selector ← if ← peek (.sign "?") then sign "?" else selected r
      applications r fuel (.selection ∅ v selector)
    else return v

/-! ## Operands and whole values -/

/-- Read an ampersand and the words behind it that belong to it. -/
def referenceSign : Reading Fragment := do
  let ampersand ← sign "&"
  let rawBehind := (← peekBehind 1 (.word "mut")) || (← peekBehind 1 (.word "const"))
  let raw ← if (← peek (.word "raw")) && rawBehind then word "raw" else pure ∅
  let changed ← word? "mut"
  let fixed ← if !raw.isEmpty && changed.isEmpty then word "const" else pure ∅
  return ampersand ++ raw ++ changed ++ fixed

/-- Read an operator that can stand before an operand, if one does. -/
def signBefore? : Reading (Option Fragment) := do
  if ← peek (.sign "&") then return some (← referenceSign)
  let tokens ← ahead
  match ["*", "!", "-"].find? fun s => (Expectation.sign s).holds tokens with
  | some s => return some (← sign s)
  | none => return none

/-- Read a value with the operators before it. -/
def operand (r : Readers) (structs : Bool) : Reading Value := do
  let ((attrs, v), written) ← captured do
    let attrs ← outerFragment r
    match ← signBefore? with
    | some sign => return (attrs, .signed ∅ sign (← r (.operand structs)))
    | none =>
      let first ← atom r structs
      return (attrs, ← applications r (← ahead).length first)
  if v.isRaw then return .atom ∅ .raw (.ofTokens written)
  if !attrs.isEmpty && v.isRange then refuse .rangeAttributes
  return v.behindAttributes attrs

/-- Read a value. -/
def value (r : Readers) (structs : Bool) : Reading Value := do
  let first ← operand r structs
  operationsBehind r structs .jump first

/-- Read a value in the place of a statement. A value that ends with a block is the whole of it,
unless something is selected from it. -/
def action (r : Readers) : Reading Value := do
  let attrs ← outerFragment r
  match ← blockValue? r with
  | some v =>
    if ← selectionAhead then
      let v ← applications r (← ahead).length v
      operationsBehind r true .jump (v.behindAttributes attrs)
    else return v.behindAttributes attrs
  | none =>
    let first ← operand r true
    operationsBehind r true .jump (first.behindAttributes attrs)

end BitLayout.Grammar
