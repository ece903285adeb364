import BitLayout.Source.Precedence

/-!
# BitLayout.Source.Value

Values as trees. Of a value without operators, only the forms are told apart on which something
depends: where a statement ends, and where parentheses are needed. What stands inside it, in
brackets or blocks, has been printed already.

Every value can have attributes before it. Those of a value that begins with an operand belong to
the whole value, not to the operand.
-/

namespace BitLayout

/-- The forms of values without operators. -/
inductive AtomForm where
  | literal
  | path
  /-- A struct with its fields. -/
  | struct
  /-- An invocation with braces: a statement, but not an arm, ends with it. -/
  | invocation
  /-- A block by itself, without attributes inside. -/
  | block
  /-- Another value that ends with a block, and the statement with it. -/
  | blockLike (labelled : Bool)
  /-- Something kept as it is written, which carries no attributes. -/
  | raw
  | other
deriving DecidableEq, Repr

/-- What a word leaves. -/
inductive Jump where
  /-- A loop or a block, which a label may name. -/
  | leave (labelled : Bool)
  /-- A function. -/
  | giveBack
deriving DecidableEq, Repr

/-- A value. -/
inductive Value where
  | atom (attrs : Fragment) (form : AtomForm) (content : Fragment)
  /-- Two operands with an operator between them. -/
  | operation (attrs : Fragment) (left : Value) (op : Operator) (right : Value)
  /-- A value as one of another type. If the type ends `bare`, an angle bracket behind it would
  begin its arguments. -/
  | cast (attrs : Fragment) (operand : Value) (type : Fragment) (bare : Bool)
  /-- A call or an index, with its brackets. -/
  | application (attrs : Fragment) (base : Value) (arguments : Fragment)
  /-- What is selected from a value behind a point, or a question mark behind it. -/
  | selection (attrs : Fragment) (base : Value) (selector : Fragment)
  /-- A value behind an operator. -/
  | signed (attrs : Fragment) (sign : Fragment) (operand : Value)
  | range (attrs : Fragment) (start : Option Value) (dots : Fragment) (stop : Option Value)
  /-- A word that leaves something, and what it leaves it with. -/
  | jump (attrs : Fragment) (target : Jump) (head : Fragment) (result : Option Value)
  /-- A closure; with a result type in its head, its body is a block. -/
  | closure (attrs : Fragment) (head : Fragment) (typed : Bool) (body : Value)
  /-- A condition that matches a pattern, which stands in its head. -/
  | condition (attrs : Fragment) (head : Fragment) (subject : Value)
deriving Repr

namespace Value

/-- A value without operators of which nothing depends. -/
def plain (content : Fragment) : Value := atom ∅ .other content

/-- The value behind more attributes. -/
def behindAttributes (more : Fragment) : Value → Value
  | atom attrs form content =>
    if form = .raw then atom attrs form content else atom (more ++ attrs) form content
  | operation attrs left op right => operation (more ++ attrs) left op right
  | cast attrs operand type bare => cast (more ++ attrs) operand type bare
  | application attrs base arguments => application (more ++ attrs) base arguments
  | selection attrs base selector => selection (more ++ attrs) base selector
  | signed attrs sign operand => signed (more ++ attrs) sign operand
  | range attrs start dots stop => range (more ++ attrs) start dots stop
  | jump attrs target head result => jump (more ++ attrs) target head result
  | closure attrs head typed body => closure (more ++ attrs) head typed body
  | condition attrs head subject => condition (more ++ attrs) head subject

/-- The value as a statement behind attributes: they belong to its first operand. -/
def behindStatementAttributes (more : Fragment) : Value → Value
  | operation attrs left op right =>
    operation attrs (left.behindStatementAttributes more) op right
  | cast attrs operand type bare => cast attrs (operand.behindStatementAttributes more) type bare
  | v => v.behindAttributes more

/-! ## Forms -/

/-- Something kept as it is written. -/
def isRaw : Value → Bool
  | atom _ form _ => form = .raw
  | _ => false

/-- A range. -/
def isRange : Value → Bool
  | range _ _ _ _ => true
  | _ => false

/-- A comparison, which is no operand of another one. -/
def isComparison : Value → Bool
  | operation _ _ op _ => op.precedence = .comparison
  | _ => false

/-- A condition that matches a pattern. -/
def isCondition : Value → Bool
  | condition _ _ _ => true
  | _ => false

/-- A path alone. -/
def isPath : Value → Bool
  | atom _ form _ => form = .path
  | _ => false

/-- A struct with its fields. -/
def isStruct : Value → Bool
  | atom _ form _ => form = .struct
  | _ => false

/-- A block by itself, without attributes. -/
def isBlock : Value → Bool
  | atom attrs form _ => form = .block && attrs.isEmpty
  | _ => false

/-- A word that leaves something with nothing behind it. -/
def isBareJump : Value → Bool
  | jump _ _ _ none => true
  | _ => false

/-- The literal that a value is. -/
def literal? : Value → Option String
  | atom _ .literal content =>
    match content.source with
    | [.literal text] => some text
    | _ => none
  | _ => none

/-- Whether a comma has to follow the value of an arm that is not the last. -/
def needsComma : Value → Bool
  | atom _ .block _ => false
  | atom _ (.blockLike _) _ => false
  | _ => true

/-- Whether a semicolon has to follow the value as a statement that is not the last. -/
def needsSemicolon : Value → Bool
  | atom _ .invocation _ => false
  | v => v.needsComma

/-- Whether a label is the first thing in the value, attributes apart. -/
def leadsWithLabel : Value → Bool
  | atom _ form _ => form = .blockLike true
  | operation _ left _ _ => left.leadsWithLabel
  | cast _ operand _ _ => operand.leadsWithLabel
  | application _ base _ => base.leadsWithLabel
  | selection _ base _ => base.leadsWithLabel
  | range _ (some start) _ _ => start.leadsWithLabel
  | _ => false

/-! ## Precedence -/

/-- How tightly a value holds together that has attributes and no operators. -/
def attributedPrecedence (attrs : Fragment) : Precedence := if attrs.isEmpty then .atom else .sign

/-- How tightly a value holds together. -/
def precedence : Value → Precedence
  | atom attrs form _ => if form = .raw then .atom else attributedPrecedence attrs
  | operation _ _ op _ => op.precedence
  | cast _ _ _ _ => .cast
  | application attrs _ _ => attributedPrecedence attrs
  | selection attrs _ _ => attributedPrecedence attrs
  | signed _ _ _ => .sign
  | range _ _ _ _ => .range
  | jump _ _ _ (some _) => .jump
  | jump _ _ _ none => .atom
  | closure attrs _ typed _ => if typed then attributedPrecedence attrs else .jump
  | condition _ _ _ => .condition

end Value

end BitLayout
