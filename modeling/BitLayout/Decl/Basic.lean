import BitLayout.Encoding.Basic
import BitLayout.Registry.TypeRef

/-!
# BitLayout.Decl.Basic

Declarations of data: a data object, a field of a record, or the value that a transformed one
becomes on the wire. A declaration of a struct or a union has one member for each field of its
record, and a transformed one has its wire value below it, so a data object is a tree.

Its size in bits is

```
bits(d)  =  elementBits(d) * product of the extents of d
```

where an element of a struct takes the sum of its members and one of a union the largest of them.
Sizes and counts are numbers without a bound, here and in everything that is made of declarations.
Counting in words of 64 bits comes to the same for all data of less than 2^64 bits.

Every declaration has a number, and those below it have smaller ones. Declarations with the same
number are the same one: a record is taken apart once, however often it is used.
-/

namespace BitLayout

/-- What is known of a declaration apart from the declarations below it. -/
structure DeclInfo where
  number : Nat
  name : String
  /-- The type of an element. -/
  type : TypeExpr
  /-- What an element is, unless nothing is known of its type. -/
  shape : Option ElementShape
  /-- The extents that are walked element by element. -/
  extents : List Nat
  encoding : Encoding
  /-- How many leading members the variants of an internally tagged union share: those through the
  tag. -/
  sharedFields : Nat
deriving DecidableEq, Repr

/-- A declaration with those below it. -/
inductive Decl where
  | mk (info : DeclInfo) (members : List Decl) (wire : Option Decl)

namespace Decl

/-- What is known of the declaration itself. -/
def info : Decl → DeclInfo
  | mk info _ _ => info

/-- The fields of its record. -/
def members : Decl → List Decl
  | mk _ members _ => members

/-- The value that it becomes on the wire. -/
def wire : Decl → Option Decl
  | mk _ _ wire => wire

/-- The number of a declaration. -/
def number (d : Decl) : Nat := d.info.number

/-- The name of a declaration. -/
def name (d : Decl) : String := d.info.name

/-- The type of an element. -/
def type (d : Decl) : TypeExpr := d.info.type

/-- What an element is. -/
def shape (d : Decl) : Option ElementShape := d.info.shape

/-- The extents that are walked. -/
def extents (d : Decl) : List Nat := d.info.extents

/-- How the declaration travels. -/
def encoding (d : Decl) : Encoding := d.info.encoding

/-- The kind of an element. -/
def kind (d : Decl) : Kind := d.encoding.kind

/-- Whether the declaration is left out. -/
def isOmitted (d : Decl) : Bool := d.encoding.isOmitted

/-- The shared leading members of an internally tagged union. -/
def sharedFields (d : Decl) : Nat := d.info.sharedFields

/-- The record of an element, if it is one. -/
def record? (d : Decl) : Option String :=
  match d.shape with
  | some (.record name _) => some name
  | _ => none

/-- Whether an element is a union in memory. -/
def isUnionInMemory (d : Decl) : Bool :=
  match d.shape with
  | some (.record _ .union) => true
  | _ => false

/-- Whether the declaration is one scalar, as a tag must be. -/
def isScalar (d : Decl) : Bool := d.kind.isScalar && d.extents.isEmpty

/-- The first member of a name. -/
def member? (d : Decl) (name : String) : Option Decl := d.members.find? (·.name = name)

/-- The variant through which the shared fields of an internally tagged union are moved. -/
def leadVariant? (d : Decl) : Option Decl := d.members.find? (!·.isOmitted)

/-- The declaration left out after all. -/
def dropped : Decl → Decl
  | mk info members wire => mk { info with encoding := .dropped, extents := [] } members wire

/-! ## Sizes -/

/-- The number of elements of an array with these extents, without a bound. -/
def elementCount : List Nat → Nat
  | [] => 1
  | n :: rest => n * elementCount rest

mutual

/-- The bits of one element. -/
def elementBits : Decl → Nat
  | mk info members wire =>
    match info.encoding.kind with
    | .omitted => 0
    | .boolean => 1
    | .integer range => range.bits
    | .text length terminated => Kind.textBytes length terminated * 8
    | .buffer bytes _ => bytes * 8
    | .transformed _ => wireBits wire
    | .union _ _ => maxBits members
    | .struct => sumBits members

/-- The bits of a value on the wire, if there is one. -/
def wireBits : Option Decl → Nat
  | none => 0
  | some d => d.elementBits * elementCount d.extents

/-- The bits of declarations in a row. -/
def sumBits : List Decl → Nat
  | [] => 0
  | d :: rest => d.elementBits * elementCount d.extents + sumBits rest

/-- The bits of the largest of some declarations. -/
def maxBits : List Decl → Nat
  | [] => 0
  | d :: rest => max (d.elementBits * elementCount d.extents) (maxBits rest)

end

/-- The bits of a declaration. -/
def bits (d : Decl) : Nat := d.elementBits * elementCount d.extents

theorem sumBits_append (a b : List Decl) : sumBits (a ++ b) = sumBits a + sumBits b := by
  induction a with
  | nil => simp [sumBits]
  | cons d a ih => simp [sumBits, ih, Nat.add_assoc]

theorem bits_le_maxBits {d : Decl} {ds : List Decl} (h : d ∈ ds) : d.bits ≤ maxBits ds := by
  induction ds with
  | nil => cases h
  | cons e ds ih =>
    simp only [maxBits]
    rcases List.mem_cons.1 h with rfl | h
    · exact Nat.le_max_left ..
    · exact Nat.le_trans (ih h) (Nat.le_max_right ..)

/-! ## Enumeration -/

mutual

/-- Add a declaration behind those found so far, after the ones below it. One that has been found is
passed over. -/
def collect (found : List Decl) : Decl → List Decl
  | mk info members wire =>
    if info.number < found.length then found
    else collectWire (collectAll found members) wire ++ [mk info members wire]

/-- Add the value on the wire, if there is one. -/
def collectWire (found : List Decl) : Option Decl → List Decl
  | none => found
  | some d => collect found d

/-- Add declarations in a row. -/
def collectAll (found : List Decl) : List Decl → List Decl
  | [] => found
  | d :: rest => collectAll (collect found d) rest

end

end Decl

end BitLayout
