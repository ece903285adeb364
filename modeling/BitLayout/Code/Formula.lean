import BitLayout.Code.Phrase
import BitLayout.Config.Basic
import BitLayout.Encoding.Integer

/-!
# BitLayout.Code.Formula

The arithmetic that leads an integer to the wire and back:

```
write  v  as  (clamp(v) - min)        in a word of the stream
read   w  as  (w + min)               in the type of the integer
```

Both are computed in 128 bits. A formula has a text, for generated code, and a value.
-/

namespace BitLayout

/-- An integer type, as it is written. -/
structure IntegerType where
  signed : Bool
  bits : Nat
  name : Tokens
deriving DecidableEq, Repr

namespace IntegerType

/-- The type that formulas are computed in. -/
def wide : IntegerType := ⟨true, 128, [.ident "i128"]⟩

/-- The type of a word of the stream. -/
def ofCarrier (c : Carrier) : IntegerType := ⟨false, c.bits, [.ident c.typeName]⟩

/-- The value of the type that a number becomes when only the low bits are kept. -/
def wrap (t : IntegerType) (n : Int) : Int :=
  if t.signed then n.bmod (patterns t.bits) else n % patterns t.bits

end IntegerType

/-- Arithmetic on one operand. -/
inductive Formula where
  | operand
  | grouped (f : Formula)
  | cast (f : Formula) (type : IntegerType)
  | plus (f : Formula) (n : Int)
  | minus (f : Formula) (n : Int)
  | clamp (f : Formula) (min max : Int)
deriving DecidableEq, Repr

namespace Formula

/-- The text of a formula on an operand. -/
def tokens (operand : Tokens) : Formula → Tokens
  | .operand => operand
  | grouped f => Phrase.parens (f.tokens operand)
  | cast f type => f.tokens operand ++ .ident "as" :: type.name
  | plus f n => f.tokens operand ++ .sign '+' :: Phrase.typedNumber n "i128"
  | minus f n => f.tokens operand ++ .sign '-' :: Phrase.typedNumber n "i128"
  | clamp f min max =>
    f.tokens operand ++ .sign '.' :: Phrase.call (Phrase.word "clamp")
      [Phrase.typedNumber min "i128", Phrase.typedNumber max "i128"]

/-- The value of a formula on an operand. -/
def eval (operand : Int) : Formula → Int
  | .operand => operand
  | grouped f => f.eval operand
  | cast f type => type.wrap (f.eval operand)
  | plus f n => f.eval operand + n
  | minus f n => f.eval operand - n
  | clamp f min max => Max.max min (Min.min max (f.eval operand))

/-- From a word of the stream to the integer. -/
def fromWire (range : IntegerRange) (type : IntegerType) : Formula :=
  .cast (.grouped (.plus (.grouped (.cast .operand .wide)) range.min)) type

/-- From the integer to a word of the stream. -/
def toWire (range : IntegerRange) : Formula :=
  .cast
    (.grouped (.minus (.clamp (.grouped (.cast (.grouped .operand) .wide)) range.min range.max)
      range.min))
    (.ofCarrier (.ofBits range.bits))

end Formula

end BitLayout
