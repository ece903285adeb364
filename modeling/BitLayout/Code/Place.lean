import BitLayout.Code.Phrase
import BitLayout.Item.Basic

/-!
# BitLayout.Code.Place

Places: what generated code reads and assigns. A place begins at a reference to an object or at a
local for a value on the wire, and goes on through fields and indices. What is reached through a
field of a union may only be touched in an unsafe block.

Loops and locals are numbered from the outside in, so that nested ones have different names.
-/

namespace BitLayout

/-- An index in generated code. -/
inductive PlaceIndex where
  | constant (n : Nat)
  /-- The variable of a loop. -/
  | loop (number : Nat)
deriving DecidableEq, Repr

/-- What code reads and assigns. -/
inductive Place where
  /-- What a reference of this name refers to. -/
  | object (name : String)
  /-- The local of a value on the wire. -/
  | wire (number : Nat)
  | field (owner : Place) (name : String) (ofUnion : Bool)
  | element (array : Place) (index : PlaceIndex)
deriving DecidableEq, Repr

/-- The name of the variable of a loop. -/
def loopName (number : Nat) : String := "__i" ++ toString number

/-- The name of the local of a value on the wire. -/
def wireName (number : Nat) : String := "__w" ++ toString number

/-- The text of an index. -/
def PlaceIndex.tokens : PlaceIndex → Tokens
  | constant n => Phrase.number n
  | loop number => Phrase.word (loopName number)

namespace Place

/-- The text of a place. -/
def tokens : Place → Tokens
  | object name => Phrase.parens (.sign '*' :: Phrase.word name)
  | wire number => Phrase.word (wireName number)
  | field owner name _ => owner.tokens ++ .sign '.' :: Phrase.word name
  | element array index => array.tokens ++ Phrase.brackets index.tokens

/-- Whether the place is reached through a field of a union. -/
def isInUnion : Place → Bool
  | object _ => false
  | wire _ => false
  | field owner _ ofUnion => owner.isInUnion || ofUnion
  | element array _ => array.isInUnion

/-- A phrase that touches the place. -/
def guarded (p : Place) (phrase : Tokens) : Tokens :=
  if p.isInUnion then .ident "unsafe" :: Phrase.braces phrase else phrase

/-- The value at the place. -/
def value (p : Place) : Tokens := p.guarded p.tokens

/-- A reference to the place. -/
def shared (p : Place) : Tokens := p.guarded (Phrase.shared p.tokens)

/-- A reference to the place that may be written through. -/
def exclusive (p : Place) : Tokens := p.guarded (Phrase.exclusive p.tokens)

/-- The text of a whole row. -/
def row (p : Place) : Tokens := p.tokens ++ Phrase.brackets [.punct '.' true, .sign '.']

/-- A reference to the row at the place. -/
def sharedRow (p : Place) : Tokens := p.guarded (Phrase.shared p.row)

/-- A reference to the row at the place that may be written through. -/
def exclusiveRow (p : Place) : Tokens := p.guarded (Phrase.exclusive p.row)

/-- The statement that puts a value into the place. -/
def assign (p : Place) (value : Tokens) : Tokens :=
  Phrase.statement (p.guarded (p.tokens ++ .sign '=' :: value))

end Place

/-- A loop over the indices of an array rank. -/
structure Loop where
  number : Nat
  start : Nat
  stop : Nat
deriving DecidableEq, Repr

/-- A place, the element of a record that it is a field of, and the loops around it. -/
structure Locus where
  place : Place
  owner : Option Place
  /-- Outermost first. -/
  loops : List Loop
deriving DecidableEq, Repr

namespace Locus

/-- Go on to the elements of a run of indices, in a loop of the next number. -/
def slice (l : Locus) (start stop : Nat) : Locus :=
  { l with
    place := .element l.place (.loop l.loops.length)
    loops := l.loops ++ [⟨l.loops.length, start, stop⟩] }

/-- Go on to what an access takes. -/
def access (l : Locus) (a : Access) : Locus :=
  if a.isSlice then l.slice a.start a.stop
  else { l with place := .element l.place (.constant a.start) }

/-- Go on to a field of a record. -/
def field (l : Locus) (ofUnion : Bool) (s : Step) : Locus :=
  s.accesses.foldl access
    { l with place := .field l.place s.decl.name ofUnion, owner := some l.place }

/-- Go on along the steps of a path behind one of them. -/
def along (l : Locus) (behind : Step) : List Step → Locus
  | [] => l
  | s :: rest => (l.field behind.decl.isUnionInMemory s).along s rest

end Locus

/-- Where a path leads, except that ranks behind the last access are not entered. -/
def Path.locus (p : Path) : Locus :=
  let start := fun (s : Step) =>
    s.accesses.foldl Locus.access ⟨.object s.decl.name, none, []⟩
  match p.owners with
  | [] => start p.last
  | first :: rest => (start first).along first (rest ++ [p.last])

end BitLayout
