import BitLayout.Decl.Basic

/-!
# BitLayout.Item.Basic

Items: the addressable pieces of the data objects, in the order in which they travel. An item is a
value or padding. A value is found by a path, which leads from a data object through members and
indices; behind the last declaration of the path, ranks that are not indexed are taken whole.

An item may stand under conditions. A condition says that a tag has the id of one variant of a
union, and the item travels only if all its conditions hold.

Paths, conditions and items are compared by the numbers of the declarations in them.
-/

namespace BitLayout

/-- A run of indices of one array rank. -/
structure Access where
  start : Nat
  count : Nat
deriving DecidableEq, Repr

namespace Access

/-- A single index. -/
def single (index : Nat) : Access := ⟨index, 1⟩

/-- Whether the run is other than a single index. -/
def isSlice (a : Access) : Bool := a.count != 1

/-- The index behind the run. -/
def stop (a : Access) : Nat := a.start + a.count

/-- The indices of the run, one by one. -/
def singles (a : Access) : List Access := (List.range' a.start a.count).map single

end Access

/-- A declaration on a path, and the indices applied to it, outermost first. -/
structure Step where
  decl : Decl
  accesses : List Access

namespace Step

/-- A declaration with all its elements. -/
def whole (d : Decl) : Step := ⟨d, []⟩

instance : BEq Step := ⟨fun a b => a.decl.number == b.decl.number && a.accesses == b.accesses⟩

/-- The ranks that are not indexed. -/
def remaining (s : Step) : List Nat := s.decl.extents.drop s.accesses.length

/-- The last access, if it is a slice. -/
def slice? (s : Step) : Option Access := s.accesses.getLast?.filter Access.isSlice

/-- Whether the step stands for elements of an array, rather than for one element. -/
def isArray (s : Step) : Bool := s.slice?.isSome || !s.remaining.isEmpty

/-- How many elements the step stands for, apart from slices before the last access. -/
def elements (s : Step) : Nat := (s.slice?.elim 1 Access.count) * Decl.elementCount s.remaining

/-- The bits of these elements. -/
def bits (s : Step) : Nat := s.decl.elementBits * s.elements

end Step

/-- A way from a data object to a value. -/
structure Path where
  /-- The steps before the last, outermost first. -/
  owners : List Step
  last : Step

namespace Path

/-- All steps, outermost first. -/
def steps (p : Path) : List Step := p.owners ++ [p.last]

instance : BEq Path := ⟨fun p q => p.owners == q.owners && p.last == q.last⟩

/-- The path to a member of what a path leads to. -/
def member (p : Path) (d : Decl) : Path := ⟨p.steps, .whole d⟩

/-- The path to another member of the same owner. -/
def sibling (p : Path) (d : Decl) : Path := ⟨p.owners, .whole d⟩

/-- The path with other accesses at its last step. -/
def withAccesses (p : Path) (accesses : List Access) : Path :=
  { p with last := { p.last with accesses } }

/-- The path with one more access at its last step. -/
def access (p : Path) (a : Access) : Path := p.withAccesses (p.last.accesses ++ [a])

end Path

/-- A tag has the id of one variant of a union. -/
structure Condition where
  union : Path
  tag : Path
  value : Int

namespace Condition

instance : BEq Condition :=
  ⟨fun c d => c.union == d.union && c.tag == d.tag && c.value == d.value⟩

/-- Whether two conditions select variants of the same union. -/
def sameSwitch (c d : Condition) : Bool := c.union == d.union

end Condition

/-- What travels. -/
inductive Content where
  | value (path : Path)
  /-- Bits without meaning. Behind trailing ones, nothing of the same branch follows in the
  sector. -/
  | padding (bits : Nat) (trailing : Bool)

namespace Content

instance : BEq Content where
  beq
    | value p, value q => p == q
    | padding bits trailing, padding bits' trailing' => bits == bits' && trailing == trailing'
    | _, _ => false

end Content

/-- A piece of the data, and when it travels. -/
structure Item where
  conditions : List Condition
  content : Content

namespace Item

instance : BEq Item := ⟨fun a b => a.conditions == b.conditions && a.content == b.content⟩

/-- A whole data object. -/
def root (d : Decl) : Item := ⟨[], .value ⟨[], .whole d⟩⟩

/-- Bits without meaning. -/
def padding (conditions : List Condition) (bits : Nat) (trailing : Bool) : Item :=
  ⟨conditions, .padding bits trailing⟩

/-- The path of a value. -/
def path? (i : Item) : Option Path :=
  match i.content with
  | .value path => some path
  | .padding _ _ => none

/-- The last step on the path of a value. -/
def last? (i : Item) : Option Step := i.path?.map Path.last

/-- Whether the item is padding. -/
def isPadding (i : Item) : Bool := i.path?.isNone

/-- Whether the item is a value that is left out. -/
def isOmitted (i : Item) : Bool := i.last?.any (·.decl.isOmitted)

/-- Whether the item is a value that has a default. -/
def isDefaulted (i : Item) : Bool := i.last?.any (·.decl.encoding.default.isSome)

/-- The ranks that are not indexed. -/
def remaining (i : Item) : List Nat := i.last?.elim [] Step.remaining

/-- How many elements the item stands for; padding counts as one. -/
def elements (i : Item) : Nat := i.last?.elim 1 Step.elements

/-- The bits of an item, without a bound, as those of its declaration are. -/
def bits (i : Item) : Nat :=
  match i.content with
  | .value path => path.last.bits
  | .padding bits _ => bits

/-- Whether the item is one whole union. -/
def isWholeUnion (i : Item) : Bool :=
  i.last?.any fun s =>
    !s.isArray &&
      match s.decl.kind with
      | .union _ _ => true
      | _ => false

end Item

/-- Whether a list is another one with at least one more entry behind it. -/
def isNarrowing {α : Type} [BEq α] (list start : List α) : Bool :=
  start.isPrefixOf list && start.length < list.length

end BitLayout
