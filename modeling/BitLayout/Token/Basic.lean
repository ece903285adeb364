/-!
# BitLayout.Token.Basic

Rust source as a flat list of tokens. A bracket is a token of its own kind, so the tree that
brackets span stays implicit: `splitGroup` finds the end of a group.

Every punctuation character is one token. `joint` says that the next token is punctuation too and
follows without a gap, which is what tells `::` from two colons.
-/

namespace BitLayout

/-- The three kinds of brackets. -/
inductive Delimiter where
  | paren
  | bracket
  | brace
deriving DecidableEq, Repr

namespace Delimiter

/-- The opening character. -/
def openChar : Delimiter → Char
  | paren => '('
  | bracket => '['
  | brace => '\x7b'

/-- The closing character. -/
def closeChar : Delimiter → Char
  | paren => ')'
  | bracket => ']'
  | brace => '\x7d'

/-- The name of a group in messages. -/
def title : Delimiter → String
  | paren => "parentheses"
  | bracket => "square brackets"
  | brace => "curly braces"

/-- The kind of bracket that a character opens. -/
def ofOpen? (c : Char) : Option Delimiter :=
  if c = '(' then some paren else if c = '[' then some bracket
  else if c = '\x7b' then some brace else none

/-- The kind of bracket that a character closes. -/
def ofClose? (c : Char) : Option Delimiter :=
  if c = ')' then some paren else if c = ']' then some bracket
  else if c = '\x7d' then some brace else none

end Delimiter

/-- One token. A raw identifier keeps its `r#`, and a literal its spelling. -/
inductive Token where
  | ident (name : String)
  | punct (char : Char) (joint : Bool)
  | literal (text : String)
  | opening (delimiter : Delimiter)
  | closing (delimiter : Delimiter)
deriving DecidableEq, Repr

/-- A run of tokens. -/
abbrev Tokens := List Token

namespace Token

/-- The written form of a token. -/
def text : Token → String
  | ident name => name
  | punct char _ => String.singleton char
  | literal text => text
  | opening d => String.singleton d.openChar
  | closing d => String.singleton d.closeChar

/-- A punctuation character that stands alone. -/
def sign (char : Char) : Token := punct char false

/-- Whether the token is this punctuation character, joint or not. -/
def isPunct (char : Char) : Token → Bool
  | punct c _ => c = char
  | _ => false

end Token

namespace Tokens

/-- The tokens up to the bracket that closes `depth` open groups and the enclosing one, and the
tokens behind that bracket. -/
def splitGroupAt : Nat → Tokens → Tokens × Tokens
  | _, [] => ([], [])
  | 0, .closing _ :: rest => ([], rest)
  | depth + 1, .closing d :: rest =>
    let (inner, rest) := splitGroupAt depth rest
    (.closing d :: inner, rest)
  | depth, .opening d :: rest =>
    let (inner, rest) := splitGroupAt (depth + 1) rest
    (.opening d :: inner, rest)
  | depth, token :: rest =>
    let (inner, rest) := splitGroupAt depth rest
    (token :: inner, rest)

/-- The content of the group whose opening bracket has just been read, and what follows it. -/
def splitGroup (tokens : Tokens) : Tokens × Tokens := splitGroupAt 0 tokens

/-- The tokens of `tokens` in front of `rest`, which is a tail of it. -/
def before (tokens rest : Tokens) : Tokens := tokens.take (tokens.length - rest.length)

/-- The tokens with brackets around them. -/
def enclosed (d : Delimiter) (inner : Tokens) : Tokens := .opening d :: inner ++ [.closing d]

/-- The tokens of a sign: its characters, of which all but the last are joint. -/
def ofSign : List Char → Tokens
  | [] => []
  | [c] => [.punct c false]
  | c :: rest => .punct c true :: ofSign rest

/-- What follows a sign of these characters, or `none` if it does not stand here. -/
def behindSign? : List Char → Tokens → Option Tokens
  | [], tokens => some tokens
  | [c], .punct found _ :: rest => if found = c then some rest else none
  | c :: chars, .punct found true :: rest => if found = c then behindSign? chars rest else none
  | _, _ => none

/-- What follows the next token, lifetime or group. -/
def behindTree? : Tokens → Option Tokens
  | [] => none
  | .punct '\'' true :: .ident _ :: rest => some rest
  | .opening _ :: inner => some (splitGroup inner).2
  | _ :: rest => some rest

/-- What follows so many tokens, lifetimes or groups. -/
def behindTrees? : Nat → Tokens → Option Tokens
  | 0, tokens => some tokens
  | count + 1, tokens => tokens.behindTree?.bind (behindTrees? count)

end Tokens

end BitLayout
