import BitLayout.Source.Grammar.Type

/-!
# BitLayout.Source.Grammar.Function

Visibilities, and the signatures of functions.
-/

namespace BitLayout.Grammar

open Reading

/-! ## Visibility -/

/-- Read a visibility, which may be absent. Parentheses that do not name a module belong to what
follows. -/
def visibility : Reading Fragment := do
  if !(← peek (.word "pub")) then return ∅
  let head ← word "pub"
  match ← ahead with
  | .opening .paren :: inner =>
    match (Tokens.splitGroup inner).1 with
    | [.ident w] =>
      if ["crate", "self", "super"].contains w then
        return head ++ (← groupFragment .paren (.ofTokens <$> everything))
      else return head
    | .ident "in" :: _ =>
      return head ++ (← groupFragment .paren do
        let kind ← word "in"
        return kind ++ (← plainPath))
    | _ => return head
  | _ => return head

/-! ## Parameters -/

/-- Whether a `self` parameter stands ahead, and not a path from the module. -/
def receiverAhead : Reading Bool := looking do
  if ← peek (.sign "&") then
    discard (sign "&")
    discard lifetime?
  discard (word? "mut")
  return (← peek (.word "self")) && !(← peekBehind 1 (.sign "::"))

/-- Read a `self` parameter. -/
def receiver (r : Readers) : Reading Fragment := do
  let reference ← if ← peek (.sign "&") then pure ((← sign "&") ++ (← lifetime?)) else pure ∅
  let head := reference ++ (← word? "mut") ++ (← word "self")
  if reference.isEmpty && (← peek (.sign ":")) then
    let colon ← sign ":"
    return head ++ colon ++ (← r.typeFragment true)
  return head

/-- The parameters of a function up to the end. `self` is possible only as the `first`, and has been
`received` at most once; dots stand for further parameters, and end them. -/
def parametersFrom (r : Readers) :
    (fuel : Nat) → (first received : Bool) → Reading Fragment
  | 0, _, _ => return ∅
  | fuel + 1, first, received => do
    if ← ended then return ∅
    let attrs ← outerFragment r
    if ← peek (.sign "...") then return attrs ++ (← dots)
    if ← receiverAhead then
      let self ← receiver r
      if received then refuse .secondReceiver
      if !first then refuse .lateReceiver
      return attrs ++ self ++ (← others (parametersFrom r fuel false true))
    let others := others (parametersFrom r fuel false received)
    if (← peek .name) && (← peekBehind 1 (.sign "<")) then
      let type ← r.typeFragment true
      return attrs ++ .ofWord "_" ++ .ofSign ":" ++ type ++ (← others)
    let pattern ← r.patternFragment
    let colon ← sign ":"
    if ← peek (.sign "...") then return attrs ++ pattern ++ colon ++ (← dots)
    let type ← r.typeFragment true
    return attrs ++ pattern ++ colon ++ type ++ (← others)
where
  /-- The dots, and the comma that has to follow them before the end. -/
  dots : Reading Fragment := do
    let tokens ← sign "..."
    return tokens ++ (← if ← ended then pure ∅ else sign ",")
  /-- The comma behind a parameter and the parameters behind it. -/
  others (next : Reading Fragment) : Reading Fragment := do
    if ← ended then return ∅
    let comma ← sign ","
    return comma ++ (← next)

/-! ## Signatures -/

/-- Whether a signature stands ahead, up to the word that all signatures have. -/
def signatureAhead (safe : Bool) : Reading Bool := looking do
  discard (word? "const")
  discard (word? "async")
  if safe && (← peek (.word "safe")) then discard (word "safe") else discard (word? "unsafe")
  discard convention
  peek (.word "fn")

/-- Read a signature, and whether it says that the function is safe. -/
def signature (r : Readers) (safe : Bool) : Reading (Fragment × Bool) := do
  let qualifiers := (← word? "const") ++ (← word? "async")
  let unchecked ← word? "unsafe"
  let assured ← if safe && unchecked.isEmpty then word? "safe" else pure ∅
  let head := qualifiers ++ unchecked ++ (← convention) ++ (← word "fn") ++ (← nameFragment)
  let generics ← parameters r
  let parameters ← groupFragment .paren do
    parametersFrom r ((← ahead).length + 1) true false
  let (output, _) ← result r true
  return (head ++ generics ++ parameters ++ output ++ (← whereClause r), !assured.isEmpty)

end BitLayout.Grammar
