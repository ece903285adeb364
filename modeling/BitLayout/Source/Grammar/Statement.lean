import BitLayout.Source.Grammar.Value

/-!
# BitLayout.Source.Grammar.Statement

Statements: items, definitions of local names, invocations with braces, and values.
-/

namespace BitLayout.Grammar

open Reading

/-! ## Telling statements apart -/

/-- What an invocation that stands ahead makes of a statement. -/
inductive InvocationRole where
  /-- With a name behind the exclamation mark it is an item. -/
  | item
  /-- With braces and nothing selected from it, it is the whole statement. -/
  | statement
  /-- It begins a value, or there is none. -/
  | value
deriving DecidableEq

/-- The role of the invocation ahead. -/
def invocationRole : Reading InvocationRole := fun remaining =>
  match look remaining with
  | .ok (role, _) => .ok (role, remaining)
  | .error _ => .ok (.value, remaining)
where
  /-- The role, for which the path has to be read. -/
  look : Reading InvocationRole := do
    discard plainPath
    if !(← peek (.sign "!")) then return .value
    if (← peekBehind 1 .name) || (← peekBehind 1 (.word "try")) then return .item
    let selects := ((← peekBehind 2 (.sign ".")) && !(← peekBehind 2 (.sign ".."))) ||
      (← peekBehind 2 (.sign "?"))
    return if (← peekBehind 1 (.group .brace)) && !selects then .statement else .value

/-- Whether one of these words stands behind so many others. -/
def wordBehind (count : Nat) (words : List String) : Reading Bool := do
  let tokens := (← ahead).behindTrees? count
  return words.any fun w => tokens.any (Expectation.word w).holds

/-- Whether an item stands ahead, an invocation apart. -/
def itemAhead : Reading Bool := do
  if ← wordBehind 0 ["pub", "extern", "use", "fn", "mod", "type", "struct", "enum", "trait", "impl",
      "macro"] then return true
  let braceBehind ← peekBehind 1 (.group .brace)
  match ← ahead with
  | .ident "crate" :: _ => return !(← peekBehind 1 (.sign "::"))
  | .ident "static" :: _ => return (← wordBehind 1 ["mut"]) || (← peekBehind 1 .name)
  | .ident "const" :: _ =>
    let function ← wordBehind 2 ["unsafe", "extern", "fn"]
    return !(braceBehind || (← wordBehind 1 ["static", "move"]) || (← peekBehind 1 (.sign "|")) ||
      ((← wordBehind 1 ["async"]) && !function))
  | .ident "unsafe" :: _ => return !braceBehind
  | .ident "async" :: _ => wordBehind 1 ["unsafe", "extern", "fn"]
  | .ident "union" :: _ => peekBehind 1 .name
  | .ident "auto" :: _ => wordBehind 1 ["trait"]
  | .ident "default" :: _ => wordBehind 1 ["unsafe", "impl"]
  | _ => return false

/-! ## Statements -/

/-- Read the definition of local names. Behind its value, a block may say what happens when the
pattern does not match. -/
def localDefinition (r : Readers) : Reading Fragment := do
  let head ← word "let"
  let pattern ← r.patternFragment
  let type ← if ← peek (.sign ":") then
      let colon ← sign ":"
      pure (colon ++ (← r.typeFragment true))
    else pure ∅
  let value ← if ← peek (.sign "=") then
      let equals ← sign "="
      let value ← r (.value true)
      let otherwise ← if !value.fragment.endsWithBrace && (← peek (.word "else")) then
          let head ← word "else"
          pure (head ++ (← block r))
        else pure ∅
      pure (equals ++ value.fragment ++ otherwise)
    else pure ∅
  return head ++ pattern ++ type ++ value ++ (← sign ";")

/-- Read a value as a statement behind its attributes, which have been read from `start` on. A value
that is kept as it is written keeps them; of any other they are those of its first operand. -/
def valueStatement (r : Readers) (start : Tokens) (attrs : Fragment) : Reading Value := do
  let v ← r .action
  if v.isRaw then return .atom ∅ .raw (.ofTokens (start.before (← ahead)))
  return v.behindStatementAttributes attrs

/-- Read a statement, and whether a semicolon is missing behind it. -/
def statement (r : Readers) : Reading (Fragment × Bool) := do
  let start ← get
  let attrs ← outerFragment r
  let role ← invocationRole
  if role = .statement then
    let path ← plainPath
    let (_, group) ← invocation
    return (attrs ++ path ++ group ++ (← sign? ";"), false)
  if ← peek (.word "let") then return (attrs ++ (← localDefinition r), false)
  if role = .item || (← itemAhead) then
    set start
    return ((← r .item).fragment, false)
  let v ← valueStatement r start.tokens attrs
  let semicolon ← sign? ";"
  return (v.statementFragment ++ semicolon, semicolon.isEmpty && v.needsSemicolon)

/-- The statements of a block, up to its end. -/
def statementsOf (r : Readers) : (fuel : Nat) → Reading Fragment
  | 0 => return ∅
  | fuel + 1 => do
    if ← peek (.sign ";") then
      let semicolon ← sign ";"
      return semicolon ++ (← statementsOf r fuel)
    if ← ended then return ∅
    let (found, unfinished) ← statement r
    if ← ended then return found
    if unfinished then refuse .unfinishedStatement
    return found ++ (← statementsOf r fuel)

/-- Read the statements of a block. -/
def statements (r : Readers) : Reading Fragment := do statementsOf r ((← ahead).length + 1)

end BitLayout.Grammar
