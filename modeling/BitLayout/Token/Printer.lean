import BitLayout.Token.Basic

/-!
# BitLayout.Token.Printer

Three ways to write tokens down.

* `text`: every token, one space between two of them.
* `lines`: the same, cut behind every brace and behind every semicolon that is not directly inside
  parentheses or square brackets.
* `spaced`: the customary form, where joint signs touch, round and square brackets hug their
  content and braces stand off. Generated checks are sorted by it.
-/

namespace BitLayout.Tokens

/-- Every token, separated by single spaces. -/
def text (tokens : Tokens) : String := " ".intercalate (tokens.map Token.text)

/-! ## Lines -/

/-- Whether a line ends behind a token, given the brackets open before it, innermost first. -/
def endsLine (enclosing : List Delimiter) : Token → Bool
  | .opening .brace => true
  | .closing .brace => true
  | .punct ';' _ => enclosing.head?.all (· == .brace)
  | _ => false

/-- The brackets that are open behind a token. -/
def enclosingAfter (enclosing : List Delimiter) : Token → List Delimiter
  | .opening d => d :: enclosing
  | .closing _ => enclosing.tail
  | _ => enclosing

/-- The token runs of the lines, where `line` holds the current line so far, last token first. -/
def linesFrom (enclosing : List Delimiter) (line : Tokens) : Tokens → List Tokens
  | [] => if line.isEmpty then [] else [line.reverse]
  | token :: rest =>
    if endsLine enclosing token then
      (token :: line).reverse :: linesFrom (enclosingAfter enclosing token) [] rest
    else linesFrom (enclosingAfter enclosing token) (token :: line) rest

/-- The lines of a text. -/
def lines (tokens : Tokens) : List String := (linesFrom [] [] tokens).map text

/-! ## Customary spacing -/

/-- What stands before the next token. -/
inductive Gap where
  /-- Nothing: at the start, in a group, or behind a joint sign. -/
  | none
  /-- Nothing, behind an opening brace. -/
  | braceOpened
  /-- A space. -/
  | space
deriving DecidableEq

/-- The pieces of the customary form. -/
def spacedFrom : Gap → Tokens → List String
  | _, [] => []
  | gap, .closing .brace :: rest =>
    (if gap = .braceOpened then "\x7d" else " \x7d") :: spacedFrom .space rest
  | _, .closing d :: rest => String.singleton d.closeChar :: spacedFrom .space rest
  | gap, token :: rest =>
    let lead := if gap = .space then " " else ""
    match token with
    | .opening .brace => (lead ++ "\x7b ") :: spacedFrom .braceOpened rest
    | .opening d => (lead ++ String.singleton d.openChar) :: spacedFrom .none rest
    | .punct c joint =>
      (lead ++ String.singleton c) :: spacedFrom (if joint then .none else .space) rest
    | other => (lead ++ other.text) :: spacedFrom .space rest

/-- The customary form of a run of tokens. -/
def spaced (tokens : Tokens) : String := String.join (spacedFrom .none tokens)

end BitLayout.Tokens
