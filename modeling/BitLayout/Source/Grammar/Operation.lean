import BitLayout.Source.Grammar.Path

/-!
# BitLayout.Source.Grammar.Operation

Operators between operands. An operator takes as its right operand everything behind it that binds
more tightly than itself; among operators that bind alike, only assignments group from the right.
-/

namespace BitLayout.Grammar

open Reading

/-! ## What stands ahead -/

/-- The operator that stands ahead, a plain assignment apart. -/
def operatorAhead? (tokens : Tokens) : Option Operator :=
  Operator.all.find? fun op => (Expectation.sign op.sign).holds tokens

/-- Whether an equals sign stands ahead that is not the beginning of an arrow. -/
def equalsAhead {ε : Type} : ReadingWith ε Bool := peekSign "=" ["=>"]

/-- How tightly what stands ahead binds the operand before it. -/
def precedenceAhead : Reading Precedence := do
  if let some op := operatorAhead? (← ahead) then return op.precedence
  if ← equalsAhead then return .assignment
  if ← peek (.sign "..") then return .range
  if ← peek (.word "as") then return .cast
  return .jump

/-! ## Ranges and casts -/

/-- Read the dots of a range, and whether an end has to follow them. -/
def rangeDots : Reading (Fragment × Bool) := do
  if ← peek (.sign "..=") then return (← sign "..=", true)
  else if ← peekSign ".." ["..."] then return (← sign "..", false)
  else expectedOneOf [.sign "..", .sign "..="]

/-- Whether a range has no end: what stands ahead cannot begin a value, or belongs to what is around
the range. -/
def rangeEndAbsent (structs : Bool) : Reading Bool := do
  return (← ended) || (← peekSign "." [".."]) || (!structs && (← peek (.group .brace))) ||
    (← peek (.word "as")) ||
    (← peekAny ([",", ";", "?", "=", "+", "/", "%", "^", ">", "<=", "!=", "-=", "*=", "&=", "|=",
      "<<="].map .sign))

/-- Refuse what would belong to the operand of a cast, behind its type. -/
def checkCast : Reading Unit := do
  if ← peekSign "." [".."] then
    if ← peekBehind 1 (.word "await") then refuse (.castFollowed "`.await`")
    if (← peekBehind 1 .name) &&
        ((← peekBehind 2 (.group .paren)) || (← peekBehind 2 (.sign "::"))) then
      refuse (.castFollowed "a method call")
    refuse (.castFollowed "a field access")
  if ← peek (.sign "?") then refuse (.castFollowed "`?`")
  if ← peek (.group .bracket) then refuse (.castFollowed "indexing")
  if ← peek (.group .paren) then refuse (.castFollowed "a function call")

/-! ## Operations -/

mutual

/-- What a left operand becomes by the operators behind it that bind at least as tightly as `base`.
-/
def operations (r : Readers) (structs : Bool) :
    (fuel : Nat) → (base : Precedence) → (left : Value) → Reading Value
  | 0, _, left => return left
  | fuel + 1, base, left => do
    if left.isRange then return left
    if let some op := operatorAhead? (← ahead) then
      if op.precedence < base then return left
      if op.precedence = .comparison && left.isComparison then refuse .chainedComparison
      discard (sign op.sign)
      let right ← r (.operand structs)
      let right ← rightOperand r structs fuel op.precedence right
      operations r structs fuel base (.operation ∅ left op right)
    else if base ≤ Precedence.assignment && (← equalsAhead) then
      discard (sign "=")
      let right ← r (.operand structs)
      let right ← rightOperand r structs fuel .assignment right
      operations r structs fuel base (.operation ∅ left .equals right)
    else if base ≤ Precedence.range && (← peek (.sign "..")) then
      let (dots, closed) ← rangeDots
      if !closed && (← rangeEndAbsent structs) then return .range ∅ (some left) dots none
      let right ← r (.operand structs)
      let right ← rightOperand r structs fuel .range right
      return .range ∅ (some left) dots (some right)
    else if ← peek (.word "as") then
      discard (word "as")
      let type ← r (.type false)
      checkCast
      operations r structs fuel base (.cast ∅ left type.fragment type.bare)
    else return left

/-- What a right operand becomes by the operators behind it that bind more tightly than the one
before it. -/
def rightOperand (r : Readers) (structs : Bool) :
    (fuel : Nat) → (before : Precedence) → (right : Value) → Reading Value
  | 0, _, right => return right
  | fuel + 1, before, right => do
    let next ← precedenceAhead
    if next > before || (next = before && before = .assignment) then
      let start ← ahead
      let right ← operations r structs fuel next right
      if (← ahead).length = start.length then return right
      rightOperand r structs fuel before right
    else return right

end

/-- As many steps as the operators that are left can take. -/
def operationSteps : Reading Nat := return 2 * (← ahead).length + 2

/-- Read the operators behind a left operand, and their right operands. -/
def operationsBehind (r : Readers) (structs : Bool) (base : Precedence) (left : Value) :
    Reading Value := do
  operations r structs (← operationSteps) base left

/-- Read the end of a range behind its dots, if it has one. -/
def rangeEnd? (r : Readers) (structs closed : Bool) : Reading (Option Value) := do
  if !closed && (← rangeEndAbsent structs) then return none
  let right ← r (.operand structs)
  return some (← rightOperand r structs (← operationSteps) .range right)

end BitLayout.Grammar
