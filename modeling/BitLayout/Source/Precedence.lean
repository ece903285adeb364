import BitLayout.Source.Fragment

/-!
# BitLayout.Source.Precedence

How tightly the parts of a value hold together, and the operators that stand between two operands.
-/

namespace BitLayout

/-- How tightly an operator binds its operands, the loosest first. -/
inductive Precedence where
  /-- What leaves a loop or a function, and a closure: it reaches as far as it can. -/
  | jump
  | assignment
  | range
  | disjunction
  | conjunction
  /-- A condition that matches a pattern. -/
  | condition
  | comparison
  | bitOr
  | bitXor
  | bitAnd
  | shift
  | sum
  | product
  | cast
  /-- An operator before its operand. -/
  | sign
  /-- What stands behind its operand, or has none. -/
  | atom
deriving DecidableEq, Repr

namespace Precedence

/-- The position in the order from the loosest. -/
def rank : Precedence → Nat
  | jump => 0
  | assignment => 1
  | range => 2
  | disjunction => 3
  | conjunction => 4
  | condition => 5
  | comparison => 6
  | bitOr => 7
  | bitXor => 8
  | bitAnd => 9
  | shift => 10
  | sum => 11
  | product => 12
  | cast => 13
  | sign => 14
  | atom => 15

instance : LT Precedence := ⟨fun a b => a.rank < b.rank⟩

instance : LE Precedence := ⟨fun a b => a.rank ≤ b.rank⟩

instance (a b : Precedence) : Decidable (a < b) := inferInstanceAs (Decidable (a.rank < b.rank))

instance (a b : Precedence) : Decidable (a ≤ b) := inferInstanceAs (Decidable (a.rank ≤ b.rank))

end Precedence

/-- An operator between two operands. -/
structure Operator where
  sign : String
  precedence : Precedence
deriving DecidableEq, Repr

namespace Operator

/-- The operator of a plain assignment. -/
def equals : Operator := ⟨"=", .assignment⟩

/-- All operators but that one. Where one begins another, the longer comes first. -/
def all : List Operator :=
  ["+=", "-=", "*=", "/=", "%=", "^=", "&=", "|=", "<<=", ">>="].map (⟨·, .assignment⟩) ++
    [⟨"&&", .conjunction⟩, ⟨"||", .disjunction⟩, ⟨"<<", .shift⟩, ⟨">>", .shift⟩] ++
    ["==", "<=", "!=", ">="].map (⟨·, .comparison⟩) ++
    [⟨"+", .sum⟩, ⟨"-", .sum⟩, ⟨"*", .product⟩, ⟨"/", .product⟩, ⟨"%", .product⟩, ⟨"^", .bitXor⟩,
      ⟨"&", .bitAnd⟩, ⟨"|", .bitOr⟩, ⟨"<", .comparison⟩, ⟨">", .comparison⟩]

/-- Whether the sign can also begin a value. -/
def beginsValue (op : Operator) : Bool :=
  ["-", "*", "&&", "||", "&", "|", "<<", "<"].contains op.sign

/-- Whether the sign can also begin generic arguments. -/
def beginsArguments (op : Operator) : Bool := ["<<", "<"].contains op.sign

end Operator

end BitLayout
