import BitLayout.Source.Reading
import BitLayout.Text.Quoted
import BitLayout.Width

/-!
# BitLayout.Source.Literal

Literals by kind. A token of a literal keeps its spelling; here the spelling is taken apart as far
as something depends on it: the magnitude of an integer, the value of a text, and the numbers that a
decimal like `0.1` names when it stands for two fields.

A minus sign before a number belongs to the literal wherever a literal is wanted.
-/

namespace BitLayout

/-! ## Numbers -/

/-- The magnitude of an integer literal and its suffix: `_` is skipped, and a literal with a point
or an exponent is no integer. -/
def integerParts? (text : String) : Option (Nat × List Char) :=
  match text.toList with
  | '0' :: 'x' :: rest => digits 16 none rest
  | '0' :: 'o' :: rest => digits 8 none rest
  | '0' :: 'b' :: rest => digits 2 none rest
  | '0' :: rest => digits 10 (some 0) rest
  | first :: rest => if first.isDigit then digits 10 none (first :: rest) else none
  | [] => none
where
  /-- The value so far, none before the first digit. -/
  digits (base : Nat) : Option Nat → List Char → Option (Nat × List Char)
    | value, [] => value.map (·, [])
    | value, c :: rest =>
      if c = '_' then digits base value rest
      else if base = 10 && c = '.' then none
      else if base = 10 && (c = 'e' || c = 'E') && exponent rest then none
      else match Text.Quoted.hexDigit? c with
        | some digit =>
          if digit < base then digits base (some (value.getD 0 * base + digit)) rest
          else if c.isDigit then none
          else value.map (·, c :: rest)
        | none => value.map (·, c :: rest)
  /-- What follows the letter is an exponent: a sign, or digits up to the end or to a suffix. -/
  exponent : List Char → Bool
    | [] => false
    | c :: rest =>
      if c = '_' then exponent rest
      else if c = '+' || c = '-' then true
      else c.isDigit

/-- The magnitude of an integer literal. -/
def integerMagnitude? (text : String) : Option Nat := (integerParts? text).map (·.1)

/-- Whether a literal is a number: an integer or a decimal. -/
def isNumber (text : String) : Bool := text.toList.head?.any Char.isDigit

/-- Whether a literal is a decimal, with a point or an exponent. -/
def isDecimal (text : String) : Bool := isNumber text && (integerParts? text).isNone

/-- Whether a literal is a text of characters. -/
def isText (text : String) : Bool := text.toList.head?.any fun c => c = '"' || c = 'r'

/-- An integer literal; the sign belongs to it. -/
structure IntLiteral where
  negative : Bool
  magnitude : Nat
  suffixed : Bool
deriving DecidableEq, Repr

namespace IntLiteral

/-- The integer that a spelling without its sign denotes. -/
def ofText? (negative : Bool) (text : String) : Option IntLiteral :=
  (integerParts? text).map fun (magnitude, suffix) => ⟨negative, magnitude, !suffix.isEmpty⟩

/-- The number that a literal denotes. -/
def value (n : IntLiteral) : Int := if n.negative then -n.magnitude else n.magnitude

/-- The literal as a magnitude of so many bits. A sign is refused, even before zero. -/
def toUnsigned (bits : Nat) (n : IntLiteral) : Except ReadError Nat :=
  if n.negative then .error .invalidDigit
  else if n.magnitude < patterns bits then .ok n.magnitude
  else .error .numberTooLarge

/-- The literal as a signed number of so many bits. -/
def toSigned (bits : Nat) (n : IntLiteral) : Except ReadError Int :=
  if n.value < -patterns (bits - 1) then .error .numberTooSmall
  else if n.value < patterns (bits - 1) then .ok n.value
  else .error .numberTooLarge

/-- The literal as the number of a field. -/
def toIndex (n : IntLiteral) : Except ReadError Nat :=
  if n.suffixed then .error (.refused .suffixedIndex) else n.toUnsigned 32

end IntLiteral

/-! ## Literals ahead -/

namespace Expectation

/-- The literal that stands ahead, with the minus sign before it. -/
def literalAhead? : Tokens → Option (Bool × String)
  | .literal text :: _ => some (false, text)
  | .punct '-' _ :: .literal text :: _ => if isNumber text then some (true, text) else none
  | _ => none

/-- A literal of any kind. -/
def literal : Expectation where
  holds tokens := (literalAhead? tokens).isSome ||
    tokens.head? = some (.ident "true") || tokens.head? = some (.ident "false")
  title := "literal"

/-- A text of characters. -/
def textLiteral : Expectation where
  holds
    | .literal text :: _ => isText text
    | _ => false
  title := "string literal"

/-- An integer. -/
def integer : Expectation where
  holds tokens := (literalAhead? tokens).any fun (_, text) => (integerParts? text).isSome
  title := "integer literal"

/-- A decimal. -/
def decimal : Expectation where
  holds tokens := (literalAhead? tokens).any fun (_, text) => isDecimal text
  title := "floating point literal"

end Expectation

namespace Reading

/-- Read a literal of any kind. -/
def literal : Reading Fragment := do
  match ← ahead with
  | .literal text :: rest =>
    goOn rest
    return .ofTokens [.literal text]
  | .punct '-' _ :: .literal text :: rest =>
    if isNumber text then
      goOn rest
      return .ofTokens [.sign '-', .literal text]
    else expected "literal"
  | .ident "true" :: rest =>
    goOn rest
    return .ofWord "true"
  | .ident "false" :: rest =>
    goOn rest
    return .ofWord "false"
  | _ => expected "literal"

/-- Read an integer literal. -/
def integer : Reading IntLiteral := do
  match Expectation.literalAhead? (← ahead) with
  | some (negative, text) =>
    match IntLiteral.ofText? negative text with
    | some n =>
      discard literal
      return n
    | none => expected "integer literal"
  | none => expected "integer literal"

/-- Read a magnitude of so many bits. -/
def unsigned (bits : Nat) : Reading Nat := do
  let literal ← integer
  literal.toUnsigned bits

/-- Read a number of 128 bits: a minus sign may stand before the literal, which may have one of its
own. -/
def signed : Reading Int := do
  let negative ← sign? "-"
  let literal ← integer
  let value ← literal.toSigned 128
  return if negative.isEmpty then value else -value

/-- Read a text of characters: its value. -/
def string : Reading String := do
  match ← ahead with
  | .literal text :: rest =>
    match Text.Quoted.value? text with
    | some value =>
      goOn rest
      return value
    | none => expected "string literal"
  | _ => expected "string literal"

/-- Read `true` or `false`. -/
def boolean : Reading Bool := do
  match ← ahead with
  | .ident "true" :: rest =>
    goOn rest
    return true
  | .ident "false" :: rest =>
    goOn rest
    return false
  | _ => expected "boolean literal"

/-! ## Fields by name or number -/

/-- The number of a field, as it is printed. -/
def indexFragment (n : Nat) : Fragment := .ofTokens [.literal (toString n)]

/-- Read a field of a value, and whether it has a name. -/
def member : Reading (Fragment × Bool) := do
  if ← peek .name then return (← nameFragment, true)
  if ← peek .integer then
    let n ← integer
    return (indexFragment (← n.toIndex), false)
  expected "identifier or integer"

/-- The numbers of fields that a decimal stands for, and whether it ends with a point. -/
def decimalIndices (negative : Bool) (text : String) : Except ReadError (List Nat × Bool) := do
  let parts := text.splitOn "."
  let pointed := parts.getLast? = some ""
  let parts := if pointed then parts.dropLast else parts
  let index := fun (first : Bool) part =>
    match IntLiteral.ofText? (negative && first) part with
    | some n => n.toIndex
    | none => .error (.expected "integer literal" false)
  match parts with
  | [] => return ([], pointed)
  | first :: others => return ((← index true first) :: (← others.mapM (index false)), pointed)

end Reading

end BitLayout
