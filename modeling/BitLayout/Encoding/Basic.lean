import BitLayout.Encoding.Integer
import BitLayout.Request.Basic

/-!
# BitLayout.Encoding.Basic

How a declaration travels, when all requests about it have been settled.
-/

namespace BitLayout

/-- The kinds of values on the wire. -/
inductive Kind where
  /-- Not on the wire at all. -/
  | omitted
  | boolean
  | integer (range : IntegerRange)
  /-- A byte array of this length in memory; the last byte of a terminated one is always zero and
  stays off the wire. -/
  | text (length : Nat) (terminated : Bool)
  /-- Bytes as they are: a whole row of bytes, or those of one number. -/
  | buffer (bytes : Nat) (row : Bool)
  | transformed (t : Transform)
  /-- A union whose variant is selected by a tag. -/
  | union (tag : String) (internal : Bool)
  | struct
deriving DecidableEq, Repr

namespace Kind

/-- The bytes of a text on the wire. -/
def textBytes (length : Nat) (terminated : Bool) : Nat := if terminated then length - 1 else length

/-- A kind that is never split into parts. -/
def isLeaf : Kind → Bool
  | struct => false
  | union _ _ => false
  | _ => true

/-- A kind that a tag can have: one integer or truth value. -/
def isScalar : Kind → Bool
  | integer _ => true
  | boolean => true
  | _ => false

end Kind

/-- How a declaration travels. -/
structure Encoding where
  kind : Kind
  /-- The value that an omitted declaration gets when it is read. -/
  default : Option Fragment
  /-- The tag value that selects this variant. -/
  variantId : Option Int
deriving DecidableEq, Repr

namespace Encoding

/-- Left out, without a default. -/
def dropped : Encoding := ⟨.omitted, none, none⟩

/-- Whether the declaration is left out. -/
def isOmitted (e : Encoding) : Bool := e.kind = .omitted

end Encoding

end BitLayout
