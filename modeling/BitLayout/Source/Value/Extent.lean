import BitLayout.Source.Value

/-!
# BitLayout.Source.Value.Extent

Where a value ends when it is printed without parentheses. What stands around it decides: the
operator before it, the operator behind it, and whether it stands in a statement, in an arm or in a
condition, where a brace or the end of a block can cut it short.

`Value.extent` follows a reader through the last operand of the value and tells whether the reader
stops in front of the operator behind the value, takes it as a part of the value, or cannot go on at
all. From this follows how tightly the value holds together at its place.
-/

namespace BitLayout

/-- What stands behind a value. -/
structure Follower where
  precedence : Precedence
  /-- It can also begin a value. -/
  beginsValue : Bool
  /-- It can also begin generic arguments. -/
  beginsArguments : Bool
deriving DecidableEq, Repr

/-- The operator behind its left operand. -/
def Operator.follower (op : Operator) : Follower :=
  ⟨op.precedence, op.beginsValue, op.beginsArguments⟩

/-- Where a value stands in a statement or an arm. -/
inductive Role where
  /-- It does not begin one. -/
  | inner
  /-- It is a statement, or the beginning of one. -/
  | statement (whole : Bool)
  /-- It is the value of an arm, or the beginning of one. -/
  | arm (whole : Bool)
deriving DecidableEq, Repr

/-- The role of the left operand of a value. -/
def Role.ofLeft : Role → Role
  | inner => inner
  | statement _ => statement false
  | arm _ => arm false

/-- The role of what something is selected from. -/
def Role.ofBase : Role → Role
  | inner => inner
  | statement _ => statement true
  | arm _ => arm true

/-- What stands around a value. -/
structure Surroundings where
  /-- How tightly the operator before the value binds it. -/
  before : Precedence
  behind : Option Follower
  role : Role
  /-- A brace ends the value, for it is a condition or a part of one. -/
  condition : Bool
  /-- The value is the end of a condition. -/
  endsCondition : Bool
  /-- The value stands in a condition behind something that needs no operand. -/
  optional : Bool
deriving DecidableEq, Repr

namespace Surroundings

/-- Nothing stands around the value. -/
def alone : Surroundings := ⟨.jump, none, .inner, false, false, false⟩

/-- The value is a statement. -/
def statement : Surroundings := { alone with role := .statement true }

/-- The value is that of an arm. -/
def arm : Surroundings := { alone with role := .arm true }

/-- The value is a condition. -/
def wholeCondition : Surroundings := { alone with condition := true, endsCondition := true }

/-- Around the left operand of an operator. -/
def ofLeft (s : Surroundings) (next : Follower) : Surroundings :=
  { s with behind := some next, role := s.role.ofLeft, endsCondition := false }

/-- Around what something is selected from. -/
def ofBase (s : Surroundings) : Surroundings :=
  { s with behind := some ⟨.atom, false, false⟩, role := s.role.ofBase, endsCondition := false }

/-- Around the right operand of an operator. -/
def ofRight (s : Surroundings) (before : Precedence) : Surroundings :=
  { s with before, role := .inner, optional := false }

/-- Around a right operand that could be absent. -/
def ofOptional (s : Surroundings) (before : Precedence) : Surroundings :=
  { s with before, role := .inner, optional := s.condition }

/-- Around what a jump leaves a loop or a block with. -/
def ofResult (s : Surroundings) (target : Jump) : Surroundings :=
  { s.ofRight .jump with
    condition := false
    optional := match target with
      | .leave _ => s.condition
      | .giveBack => false }

/-- How tightly what stands behind the value binds it. -/
def next (s : Surroundings) : Precedence := s.behind.elim .jump Follower.precedence

/-- Whether what stands behind the value can also begin a value. -/
def nextBeginsValue (s : Surroundings) : Bool := s.behind.any Follower.beginsValue

/-- Whether parentheses stand around the value although its operators do not ask for them. -/
def guards (s : Surroundings) (v : Value) : Bool :=
  let cut := match s.role with
    | .inner => false
    | .statement whole => (!whole && !v.needsSemicolon) || v.isCondition
    | .arm whole => !whole && !v.needsComma
  let atEnd := match v with
    | .jump _ .giveBack _ none => true
    | .jump _ (.leave _) _ none => !s.condition
    | .range _ _ _ none => !s.condition
    | v => !s.condition && v.isPath
  cut || (s.condition && v.isStruct) || (s.endsCondition && atEnd) || (s.optional && v.isBlock)

/-- How tightly a value holds together with what stands behind it. -/
def precedence (s : Surroundings) (v : Value) : Precedence :=
  match s.behind, v with
  | none, .jump _ _ _ _ => .sign
  | none, .closure _ _ _ _ => .sign
  | none, .condition _ _ _ => .sign
  | none, .range _ none _ _ => .sign
  | none, v => v.precedence
  | some f, v =>
    if f.beginsValue && v.isBareJump then .jump
    else match v with
      | .cast _ _ _ true => if f.beginsArguments then .jump else .cast
      | v => v.precedence

end Surroundings

/-! ## Reading through a value -/

/-- How far a reader gets. -/
inductive Extent where
  /-- It cannot go on. -/
  | stuck
  /-- It stops at what stands behind the value. -/
  | ends
  /-- It takes what stands behind the value as a part of it. -/
  | goesOn
deriving DecidableEq, Repr

namespace Surroundings

/-- How far a reader gets that has an operand of the operator before it, as the precedences have it.
-/
def extentFrom (s : Surroundings) (binding : Precedence) : Extent :=
  let alike := binding = .assignment || binding = .comparison
  if s.behind.isNone || binding < s.next || (alike && binding ≤ s.next) then .goesOn else .ends

/-- The same, behind a value that has nothing open at its end. -/
def closedExtent (s : Surroundings) (binding : Precedence) : Extent :=
  if binding = .range && (s.next = .assignment || s.next = .range) then .stuck
  else if binding = .condition && s.next < .condition then .stuck
  else s.extentFrom binding

/-- Whether the operator before the value leaves the value its first operator. -/
def leavesLeft (s : Surroundings) : Value → Bool
  | .operation _ _ op _ =>
    if op.precedence = .assignment then s.before ≤ .assignment else s.before < op.precedence
  | .cast _ _ _ _ => s.before < .cast
  | .range _ (some _) _ _ => s.before < .assignment
  | _ => true

/-- How tightly a right operand holds together; `extent` tells where it ends. -/
def rightPrecedenceBy (s : Surroundings) (v : Value)
    (extent : Surroundings → Precedence → Bool → Extent) : Precedence :=
  let found := s.precedence v
  let lower := match s.before with
    | .assignment => found < .assignment
    | .condition => found < .condition
    | .sign => found < .sign
    | before => found ≤ before
  let separate := match s.next with
    | .range => true
    | .disjunction => true
    | .conjunction => true
    | _ => !s.nextBeginsValue
  if lower && separate && extent s s.before true ≠ .goesOn && s.leavesLeft v then .sign
  else found

end Surroundings

namespace Value

/-- How far a reader gets in a value behind an operator that binds it by `binding`. If it is no
matter whether the reader stops or goes on, `endCounts` is false. -/
def extent : Value → (s : Surroundings) → (binding : Precedence) → (endCounts : Bool) → Extent
  | v@(operation attrs _ op right), s, binding, endCounts =>
    let selected := s.next = .atom
    let dead := if selected then Extent.stuck else .ends
    if s.guards v then s.extentFrom binding
    else if !attrs.isEmpty then s.closedExtent binding
    else if !selected && !endCounts then .goesOn
    else if op = .equals then
      match right.extent (s.ofRight .assignment) .assignment false with
      | .stuck => dead
      | _ => .goesOn
    else if op.precedence = .comparison && s.next = .comparison then .goesOn
    else
      let inner := s.ofRight op.precedence
      let found := s.extentFrom binding
      match right.extent inner op.precedence (found = .ends) with
      | .goesOn => .goesOn
      | .ends => found
      | .stuck =>
        if op.precedence ≠ .assignment &&
            inner.rightPrecedenceBy right right.extent ≤ op.precedence then found
        else dead
  | v@(signed _ _ operand), s, binding, endCounts =>
    let selected := s.next = .atom
    if s.guards v then s.extentFrom binding
    else if !selected && !endCounts then .goesOn
    else
      let inner := s.ofRight .sign
      let found := s.extentFrom binding
      match operand.extent inner binding (found = .ends) with
      | .goesOn => .goesOn
      | .ends => found
      | .stuck =>
        if inner.rightPrecedenceBy operand operand.extent < .sign then found
        else if selected then .stuck
        else .ends
  | v@(range attrs _ _ (some stop)), s, binding, _ =>
    let inner := s.ofOptional .range
    let loose := s.next = .assignment || s.next = .range
    if s.guards v then s.extentFrom binding
    else if !attrs.isEmpty then s.closedExtent binding
    else
      let found := stop.extent inner .range loose
      if found = .goesOn || (found = .ends && !loose) then .goesOn
      else if inner.rightPrecedenceBy stop stop.extent ≤ .range then .goesOn
      else .stuck
  | v@(range attrs _ _ none), s, binding, _ =>
    if s.guards v then s.extentFrom binding
    else if !attrs.isEmpty then s.closedExtent binding
    else if s.nextBeginsValue then .goesOn
    else .stuck
  | v@(jump _ target _ (some result)), s, binding, endCounts =>
    let misread := target = .leave false && result.leadsWithLabel
    if s.guards v then s.extentFrom binding
    else if !endCounts || misread then .goesOn
    else match result.extent (s.ofResult target) .jump false with
      | .stuck => .ends
      | _ => .goesOn
  | v@(jump _ _ _ none), s, binding, _ =>
    if s.guards v then s.extentFrom binding
    else if s.next = .assignment && .assignment < binding then .stuck
    else .goesOn
  | v@(closure _ _ _ body), s, binding, endCounts =>
    if s.guards v then s.extentFrom binding
    else if !endCounts then .goesOn
    else match body.extent (s.ofRight .jump) .jump false with
      | .stuck => .ends
      | _ => .goesOn
  | v@(condition _ _ subject), s, binding, endCounts =>
    let inner := s.ofRight .condition
    let looser := decide (s.next < .condition)
    if s.guards v then s.extentFrom binding
    else if !endCounts then .goesOn
    else
      let found := subject.extent inner .condition looser
      if found = .goesOn then .goesOn
      else if looser then .ends
      else if inner.rightPrecedenceBy subject subject.extent < .condition then .goesOn
      else if found = .stuck then .ends
      else .goesOn
  | v, s, binding, _ =>
    if s.guards v then s.extentFrom binding else s.closedExtent binding

end Value

namespace Surroundings

/-- How tightly a right operand holds together. -/
def rightPrecedence (s : Surroundings) (v : Value) : Precedence := s.rightPrecedenceBy v v.extent

/-- How tightly a left operand holds together. -/
def leftPrecedence (s : Surroundings) (v : Value) : Precedence :=
  if (!s.nextBeginsValue || s.next = .range) && v.extent s .jump true = .ends &&
      s.leavesLeft v then .atom
  else s.precedence v

end Surroundings

end BitLayout
