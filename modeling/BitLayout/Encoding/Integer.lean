import BitLayout.Width

/-!
# BitLayout.Encoding.Integer

How an integer travels: clamped to a range, as its distance from the lower end, in a fixed number of
bits.

A number of bits alone allows the values that many bits can show. A range alone takes the fewest
bits that its length needs, and at least one. With both, the bits must suffice for the range.
-/

namespace BitLayout

/-- The bits of an integer on the wire, and the values that it can have. -/
structure IntegerRange where
  bits : Nat
  min : Int
  max : Int
deriving DecidableEq, Repr

/-- Why an integer cannot travel as asked. -/
inductive IntegerError where
  | bitsOutOfRange (bits width : Nat)
  | reversed (min max : Int)
  | outsideType (min max typeMin typeMax : Int)
  | tooFewBits (bits : Nat) (min max : Int) (needed : Nat)
deriving DecidableEq, Repr

/-- The wording of an error. -/
def IntegerError.message : IntegerError → String
  | bitsOutOfRange bits width =>
    "bitcount " ++ toString bits ++ " is out of range for a " ++ toString width ++ "-bit integer"
  | reversed min max =>
    "range min " ++ toString min ++ " is greater than max " ++ toString max
  | outsideType min max typeMin typeMax =>
    "range (" ++ toString min ++ ", " ++ toString max ++ ") does not fit the type's range ("
      ++ toString typeMin ++ ", " ++ toString typeMax ++ ")"
  | tooFewBits bits min max needed =>
    "bitcount " ++ toString bits ++ " is too small for range (" ++ toString min ++ ", "
      ++ toString max ++ "); it needs " ++ toString needed ++ " bits"

namespace IntegerRange

/-- All values that so many bits can show. -/
def representable (signed : Bool) (bits : Nat) : IntegerRange :=
  if signed then ⟨bits, -patterns (bits - 1), patterns (bits - 1) - 1⟩
  else ⟨bits, 0, patterns bits - 1⟩

/-- All values of an integer type. -/
def natural (signed : Bool) (width : Nat) : IntegerRange := representable signed width

/-- The range of an integer type under the bits and the range asked for. -/
def ofRequest (signed : Bool) (width : Nat) (bits : Option Nat) (range : Option (Int × Int)) :
    Except IntegerError IntegerRange :=
  match bits.filter fun b => b = 0 || b > width with
  | some b => .error (.bitsOutOfRange b width)
  | none =>
    match range with
    | none => .ok (representable signed (bits.getD width))
    | some (min, max) =>
      let all := natural signed width
      let needed := Nat.max 1 (bitLength (max - min).toNat)
      if min > max then .error (.reversed min max)
      else if min < all.min ∨ max > all.max then .error (.outsideType min max all.min all.max)
      else match bits with
        | some b =>
          if b < needed then .error (.tooFewBits b min max needed) else .ok ⟨b, min, max⟩
        | none => .ok ⟨needed, min, max⟩

end IntegerRange

end BitLayout
