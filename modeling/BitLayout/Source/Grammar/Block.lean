import BitLayout.Source.Grammar.Bound
import BitLayout.Source.Grammar.Operation
import BitLayout.Source.Grammar.Pattern

/-!
# BitLayout.Source.Grammar.Block

Values that end with a block: branches, loops, and blocks of their own. Where such a value stands as
a statement or as an arm, the statement ends with it.
-/

namespace BitLayout.Grammar

open Reading

/-! ## Branches -/

/-- Read branches on conditions. -/
def conditional (r : Readers) : (fuel : Nat) → Reading Fragment
  | 0 => return ∅
  | fuel + 1 => do
    let head ← word "if"
    let condition ← r.conditionFragment
    let first := head ++ condition ++ (← block r)
    if !(← peek (.word "else")) then return first
    let otherwise ← word "else"
    if ← peek (.word "if") then return first ++ otherwise ++ (← conditional r fuel)
    else if ← peek (.group .brace) then return first ++ otherwise ++ (← block r)
    else expectedOneOf [.word "if", .group .brace]

/-- Read an arm. Behind a value that does not end with a block, a comma has to follow unless the arm
is the last. -/
def arm (r : Readers) : Reading Fragment := do
  let attrs ← outerFragment r
  let pattern ← patternOfFragment r
  let guard ← if ← peek (.word "if") then
      let head ← word "if"
      pure (head ++ (← r.valueFragment))
    else pure ∅
  let arrow ← sign "=>"
  let body ← r .action
  let comma ← if body.needsComma && !(← ended) then sign "," else sign? ","
  return attrs ++ pattern ++ guard ++ arrow ++ body.armFragment ++ comma

/-- Read a branch on patterns. -/
def selection (r : Readers) : Reading Fragment := do
  let head ← word "match"
  let subject ← r.conditionFragment
  let arms ← groupFragment .brace do
    let attrs ← innerFragment r
    return attrs ++ .flatten (← untilEnd (arm r))
  return head ++ subject ++ arms

/-! ## Loops -/

/-- Read a loop under a condition. -/
def whileLoop (r : Readers) : Reading Fragment := do
  let head ← word "while"
  let condition ← r.conditionFragment
  return head ++ condition ++ (← attributedBlock r)

/-- Read a loop over what a value yields. -/
def forLoop (r : Readers) : Reading Fragment := do
  let head ← word "for"
  let pattern ← patternOfFragment r
  let among ← word "in"
  let values ← r.conditionFragment
  return head ++ pattern ++ among ++ values ++ (← attributedBlock r)

/-- Read a loop or a block behind its label. -/
def labelled (r : Readers) : Reading Fragment := do
  let label ← lifetime
  let colon ← sign ":"
  let loop ← if ← peek (.word "while") then whileLoop r
    else if ← peek (.word "for") then forLoop r
    else if ← peek (.word "loop") then pure ((← word "loop") ++ (← attributedBlock r))
    else if ← peek (.group .brace) then attributedBlock r
    else expected "loop or block expression"
  return label ++ colon ++ loop

/-! ## Any value that ends with a block -/

/-- Whether the binder of a closure stands ahead, and not a loop. -/
def binderAhead : Reading Bool := return (← peek (.word "for")) && (← parametersBehind 1)

/-- Read a block by itself, which may begin with attributes, as a value. -/
def blockAlone (r : Readers) : Reading Value := do
  let (attrs, content) ← blockParts r
  return .atom ∅ (if attrs.isEmpty then .block else .blockLike false)
    ((attrs ++ content).enclosed .brace)

/-- Read a value that ends with a block, if one stands here. -/
def blockValue? (r : Readers) : Reading (Option Value) := do
  let bracedBehind ← peekBehind 1 (.group .brace)
  let found := fun (f : Fragment) => some (Value.atom ∅ (.blockLike false) f)
  if ← peek (.word "if") then return found (← conditional r (← ahead).length)
  else if ← peek (.word "while") then return found (← whileLoop r)
  else if (← peek (.word "for")) && !(← binderAhead) then return found (← forLoop r)
  else if ← peek (.word "loop") then return found ((← word "loop") ++ (← attributedBlock r))
  else if ← peek (.word "match") then return found (← selection r)
  else if (← peek (.word "try")) && bracedBehind then
    return found ((← word "try") ++ (← block r))
  else if ← peek (.word "unsafe") then return found ((← word "unsafe") ++ (← attributedBlock r))
  else if (← peek (.word "const")) && bracedBehind then return found (← constantBlock r).1
  else if ← peek (.group .brace) then return some (← blockAlone r)
  else if ← peek .lifetime then return some (.atom ∅ (.blockLike true) (← labelled r))
  else return none

end BitLayout.Grammar
