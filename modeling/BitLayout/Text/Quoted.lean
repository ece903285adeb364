import BitLayout.Text.Printable

/-!
# BitLayout.Text.Quoted

Texts between double quotes.

* Writing: a quote, a backslash, tab, line feed, carriage return and NUL have short forms; every
  other character that is not printable, or that would join the one before it, is written as its
  code point. A single quote stands as it is.
* Reading: `Quoted.value` undoes the escapes of a literal, cooked or raw.

The two writers differ in one place. In a literal, NUL before an octal digit is spelled in
hexadecimal, so that the digit is not taken for a part of the escape.
-/

namespace BitLayout.Text.Quoted

/-! ## Writing -/

/-- The code point escape of a character. -/
def codeEscape (c : Char) : List Char :=
  ['\\', 'u', '\x7b'] ++ Nat.toDigits 16 c.toNat ++ ['\x7d']

/-- One character inside a quoted text. -/
def escapeChar (c : Char) : List Char :=
  if c = '\x00' then ['\\', '0']
  else if c = '\t' then ['\\', 't']
  else if c = '\r' then ['\\', 'r']
  else if c = '\n' then ['\\', 'n']
  else if c = '\\' then ['\\', '\\']
  else if c = '"' then ['\\', '"']
  else if extendsGrapheme c || !isPrintable c then codeEscape c
  else [c]

/-- The characters of a literal's text, between the quotes. -/
def escapeLiteral : List Char → List Char
  | [] => []
  | c :: rest =>
    if c = '\x00' && (rest.head?.any fun d => '0' ≤ d && d ≤ '7') then
      ['\\', 'x', '0', '0'] ++ escapeLiteral rest
    else escapeChar c ++ escapeLiteral rest

/-- A text as a string literal. -/
def literal (s : String) : String :=
  String.ofList ('"' :: escapeLiteral s.toList ++ ['"'])

/-- A text as it is shown in a message. -/
def shown (s : String) : String :=
  String.ofList ('"' :: s.toList.flatMap escapeChar ++ ['"'])

/-! ## Reading -/

/-- The value of a hexadecimal digit. -/
def hexDigit? (c : Char) : Option Nat :=
  if '0' ≤ c && c ≤ '9' then some (c.toNat - '0'.toNat)
  else if 'a' ≤ c && c ≤ 'f' then some (c.toNat - 'a'.toNat + 10)
  else if 'A' ≤ c && c ≤ 'F' then some (c.toNat - 'A'.toNat + 10)
  else none

/-- Where a reader stands inside a cooked text. -/
inductive Mode where
  /-- Between characters. -/
  | plain
  /-- Behind a backslash. -/
  | escaped
  /-- Behind a backslash at the end of a line: spaces, tabs and line ends are dropped. -/
  | joining
  /-- In a two-digit escape: the value so far and how many digits are due. -/
  | byte (value due : Nat)
  /-- In a code point escape, with the value so far. -/
  | code (value : Nat)

/-- The value of a cooked text, up to the closing quote. -/
def cooked : Mode → List Char → List Char
  | _, [] => []
  | .plain, c :: rest =>
    if c = '"' then []
    else if c = '\\' then cooked .escaped rest
    else if c = '\r' then cooked .plain rest
    else c :: cooked .plain rest
  | .escaped, c :: rest =>
    if c = 'n' then '\n' :: cooked .plain rest
    else if c = 'r' then '\r' :: cooked .plain rest
    else if c = 't' then '\t' :: cooked .plain rest
    else if c = '0' then '\x00' :: cooked .plain rest
    else if c = 'x' then cooked (.byte 0 2) rest
    else if c = 'u' then cooked (.code 0) rest
    else if c = '\n' || c = '\r' then cooked .joining rest
    else c :: cooked .plain rest
  | .joining, c :: rest =>
    if c = ' ' || c = '\t' || c = '\n' || c = '\r' then cooked .joining rest
    else if c = '"' then []
    else if c = '\\' then cooked .escaped rest
    else c :: cooked .plain rest
  | .byte value due, c :: rest =>
    let value := value * 16 + (hexDigit? c).getD 0
    if due ≤ 1 then Char.ofNat value :: cooked .plain rest else cooked (.byte value (due - 1)) rest
  | .code value, c :: rest =>
    if c = '\x7d' then Char.ofNat value :: cooked .plain rest
    else match hexDigit? c with
      | some digit => cooked (.code (value * 16 + digit)) rest
      | none => cooked (.code value) rest

/-- The content of a raw text that is closed by a quote and `hashes` hash signs. -/
def raw (hashes : Nat) : List Char → List Char
  | [] => []
  | c :: rest =>
    if c = '"' && rest.take hashes = List.replicate hashes '#' then [] else c :: raw hashes rest

/-- The value of a string literal: `none` for any other literal. -/
def value? (text : String) : Option String :=
  match text.toList with
  | '"' :: rest => some (String.ofList (cooked .plain rest))
  | 'r' :: rest =>
    let hashes := (rest.takeWhile (· = '#')).length
    some (String.ofList (raw hashes (rest.drop (hashes + 1))))
  | _ => none

end BitLayout.Text.Quoted
