import BitLayout.Source.Value.Extent

/-!
# BitLayout.Source.Value.Printer

Printing values, with the parentheses that their place asks for: around an operand that holds
together more loosely than its operator binds it, around a value that its statement, arm or
condition would cut short, and around operands behind attributes that belong to all of them.
Parentheses that were written are values of their own, and stay.
-/

namespace BitLayout

namespace Surroundings

/-- Print a value at its place. Parentheses keep off what stands around it. -/
def place (s : Surroundings) (guard : Bool) (print : Surroundings → Fragment) : Fragment :=
  if guard then (print alone).guarded else print s

/-- Whether the left operand of an operator needs parentheses. -/
def guardsLeft (s : Surroundings) (op : Operator) (left : Value) : Bool :=
  match op.precedence with
  | .assignment => s.leftPrecedence left ≤ .range
  | .comparison => s.leftPrecedence left ≤ .comparison
  | precedence => s.leftPrecedence left < precedence

/-- Whether the right operand of an operator needs parentheses. -/
def guardsRight (s : Surroundings) (op : Operator) (right : Value) : Bool :=
  op.precedence ≠ .assignment && s.rightPrecedence right ≤ op.precedence

end Surroundings

namespace Value

/-- The value as a part of the source, by what stands around it. -/
def printed : Value → Surroundings → Fragment
  | v@(atom attrs _ content), s => s.place (s.guards v) fun _ => attrs ++ content
  | v@(operation attrs left op right), s => s.place (s.guards v) fun s =>
    attrs ++ s.place (!attrs.isEmpty) fun s =>
      let before := s.ofLeft op.follower
      let behind := s.ofRight op.precedence
      before.place (before.guardsLeft op left) left.printed ++ .ofSign op.sign ++
        behind.place (behind.guardsRight op right) right.printed
  | v@(cast attrs operand type _), s => s.place (s.guards v) fun s =>
    attrs ++ s.place (!attrs.isEmpty) fun s =>
      let before := s.ofLeft ⟨.cast, false, false⟩
      before.place (before.leftPrecedence operand < .cast) operand.printed ++ .ofWord "as" ++ type
  | v@(application attrs base arguments), s => s.place (s.guards v) fun s =>
    let before := s.ofLeft ⟨.atom, true, false⟩
    attrs ++ before.place (before.leftPrecedence base < .atom) base.printed ++ arguments
  | v@(selection attrs base selector), s => s.place (s.guards v) fun s =>
    let before := s.ofBase
    attrs ++ before.place (before.leftPrecedence base < .atom) base.printed ++ selector
  | v@(signed attrs sign operand), s => s.place (s.guards v) fun s =>
    let behind := s.ofRight .sign
    attrs ++ sign ++ behind.place (behind.rightPrecedence operand < .sign) operand.printed
  | v@(range attrs start dots stop), s => s.place (s.guards v) fun s =>
    attrs ++ s.place (!attrs.isEmpty) fun s =>
      let before := s.ofLeft ⟨.range, true, false⟩
      let behind := s.ofOptional .range
      (match start with
      | some left => before.place (before.leftPrecedence left ≤ .range) left.printed
      | none => ∅) ++ dots ++
      match stop with
      | some right => behind.place (behind.rightPrecedence right ≤ .range) right.printed
      | none => ∅
  | v@(jump attrs target head result), s => s.place (s.guards v) fun s =>
    attrs ++ head ++
      match result with
      | some result =>
        (s.ofResult target).place (target = .leave false && result.leadsWithLabel) result.printed
      | none => ∅
  | v@(closure attrs head _ body), s => s.place (s.guards v) fun s =>
    attrs ++ head ++ body.printed (s.ofRight .jump)
  | v@(condition attrs head subject), s => s.place (s.guards v) fun s =>
    let behind := s.ofRight .condition
    attrs ++ head ++ behind.place (behind.rightPrecedence subject < .condition) subject.printed

/-- The value by itself. -/
def fragment (v : Value) : Fragment := v.printed .alone

/-- The value as the condition of a branch or a loop. -/
def conditionFragment (v : Value) : Fragment := v.printed .wholeCondition

/-- The value as that of an arm. -/
def armFragment (v : Value) : Fragment := v.printed .arm

/-- The value as a statement. -/
def statementFragment (v : Value) : Fragment := v.printed .statement

end Value

end BitLayout
