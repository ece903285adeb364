import BitLayout.Source.Definition
import BitLayout.Source.Reading
import BitLayout.Source.Value.Printer

/-!
# BitLayout.Source.Symbol

The symbols of the grammar: what can stand inside something of another kind, or of its own. Types
hold values in the lengths of arrays, values hold types, patterns and items in their blocks, and
items hold all of them.

The grammar is written in open form. The reader of each construct is a function of `Readers`, which
says how symbols are read inside it, and calls itself only in loops along one level. One definition
at the end of the grammar closes it.
-/

namespace BitLayout

/-- Which of the forms that depend on what follows a type has. -/
inductive TypeForm where
  /-- A path of one segment. -/
  | segment
  /-- A longer path, or one from the root. -/
  | path
  /-- One bound, without the word for a trait object before it. -/
  | bound
  | other
deriving DecidableEq, Repr

/-- A type that has been read. -/
structure ReadType where
  type : TypeExpr
  form : TypeForm
  /-- It ends with a path without arguments; an angle bracket behind it would begin some. -/
  bare : Bool

namespace ReadType

/-- A type that is not looked into. -/
def plain (fragment : Fragment) : ReadType := ⟨.other fragment, .other, false⟩

/-- A type that is not looked into, and ends like another one. -/
def endingLike (last : Bool) (fragment : Fragment) : ReadType := ⟨.other fragment, .other, last⟩

/-- A type that has been read, as a part of the source. -/
def fragment (t : ReadType) : Fragment := t.type.fragment

end ReadType

/-- Which of the forms that depend on what surrounds a pattern has. -/
inductive PatternForm where
  /-- Two dots, for the rest. -/
  | rest
  | range
  /-- A range that lacks an end. -/
  | openRange
  /-- A block whose value is constant; without the attributes inside it, it is the one given here.
  -/
  | constant (plain : Fragment)
  /-- Something kept as it is written, which carries no attributes. -/
  | raw
  | other
deriving DecidableEq, Repr

/-- A bound that has been read. -/
structure Bound where
  /-- It names a trait, and not a lifetime or captured parameters. -/
  isTrait : Bool
  fragment : Fragment
  /-- It ends with a path without arguments, parentheses apart. -/
  bare : Bool

/-- A pattern that has been read. -/
structure Pattern where
  form : PatternForm
  fragment : Fragment

namespace Pattern

/-- The pattern with these attributes in place of its own. -/
def withAttributes (attrs : Fragment) (p : Pattern) : Fragment :=
  match p.form with
  | .raw => p.fragment
  | .constant plain => attrs ++ plain
  | .range => attrs ++ guarded
  | .openRange => attrs ++ guarded
  | _ => attrs ++ p.fragment
where
  /-- A range behind attributes is printed in parentheses. -/
  guarded : Fragment := if attrs.isEmpty then p.fragment else p.fragment.guarded

end Pattern

/-- A kind of construct that others are made of. -/
inductive Symbol where
  /-- A type; with `plus`, bounds may follow it. -/
  | type (plus : Bool)
  /-- A bound. It may list captured parameters or ask for constant methods where that is allowed. -/
  | bound (captures const : Bool)
  /-- A value; with `structs`, a brace behind a path begins a struct value. -/
  | value (structs : Bool)
  /-- A value up to its first operator between operands. -/
  | operand (structs : Bool)
  /-- A value in the place of a statement, where a block ends it. -/
  | action
  /-- A pattern without alternatives. -/
  | pattern
  /-- The statements of a block. -/
  | statements
  /-- An item. -/
  | item
  /-- What an import names; with `roots`, a path may begin at the root. -/
  | importTree (roots : Bool)

/-- What reading a symbol yields. -/
abbrev Symbol.Meaning : Symbol → Type
  | type _ => ReadType
  | bound _ _ => Bound
  | value _ => Value
  | operand _ => Value
  | action => Value
  | pattern => Pattern
  | statements => Fragment
  | item => Definition
  | importTree _ => Option Fragment

/-- A reader for every symbol. -/
abbrev Readers := (s : Symbol) → Reading s.Meaning

namespace Readers

/-- Read a type, as a part of the source. -/
def typeFragment (r : Readers) (plus : Bool) : Reading Fragment :=
  return (← r (.type plus)).fragment

/-- Read a value by itself, as a part of the source. -/
def valueFragment (r : Readers) : Reading Fragment := return (← r (.value true)).fragment

/-- Read the condition of a branch or a loop, as a part of the source. -/
def conditionFragment (r : Readers) : Reading Fragment :=
  return (← r (.value false)).conditionFragment

/-- Read a pattern without alternatives, as a part of the source. -/
def patternFragment (r : Readers) : Reading Fragment := return (← r .pattern).fragment

end Readers

end BitLayout
