import BitLayout.Text.Blank
import BitLayout.Text.Identifier
import BitLayout.Text.Quoted
import BitLayout.Token.Basic

/-!
# BitLayout.Token.Lexer

From source text to tokens. At each place the first of these that applies is taken:

1. white space and comments are skipped;
2. a documentation comment becomes the attribute `#[doc = "text"]`;
3. the mark for something that could not be read, which is a literal;
4. a bracket, which must close the innermost open one if it closes;
5. a literal, the longest spelling first: texts, bytes, characters, decimals, integers;
6. a punctuation character;
7. an identifier.

Every reader takes the characters that are left and returns those behind what it has read, or
`none` when it does not apply.
-/

namespace BitLayout

open Text

namespace Lexer

/-- The characters of `chars` in front of `rest`, which is a tail of it. -/
def taken (chars rest : List Char) : String :=
  String.ofList (chars.take (chars.length - rest.length))

/-- What is left of `chars` behind the word `word`. -/
def after? (word : String) (chars : List Char) : Option (List Char) :=
  if word.toList.isPrefixOf chars then some (chars.drop word.length) else none

/-- Whether the text begins with one of the words. -/
def startsWithAny (words : List String) (chars : List Char) : Bool :=
  words.any fun w => w.toList.isPrefixOf chars

/-! ## Blanks and comments -/

/-- Behind the block comment whose opening marks are `depth` deep. -/
def blockCommentEnd? : Nat → List Char → Option (List Char)
  | depth, '/' :: '*' :: rest => blockCommentEnd? (depth + 1) rest
  | depth, '*' :: '/' :: rest => if depth ≤ 1 then some rest else blockCommentEnd? (depth - 1) rest
  | depth, _ :: rest => blockCommentEnd? depth rest
  | _, [] => none

/-- The text of a line, and what follows it. A carriage return before the line feed belongs to
neither. -/
def splitLine : List Char → List Char × List Char
  | [] => ([], [])
  | '\n' :: rest => ([], '\n' :: rest)
  | '\r' :: '\n' :: rest => ([], '\n' :: rest)
  | c :: rest => let (line, rest) := splitLine rest; (c :: line, rest)

/-- Behind one blank character or one comment that documents nothing. -/
def skipOne? (chars : List Char) : Option (List Char) :=
  if startsWithAny ["//"] chars && !startsWithAny ["//!"] chars
      && (!startsWithAny ["///"] chars || startsWithAny ["////"] chars) then
    some (splitLine chars).2
  else if startsWithAny ["/**/"] chars then some (chars.drop 4)
  else if startsWithAny ["/*"] chars && !startsWithAny ["/*!"] chars
      && (!startsWithAny ["/**"] chars || startsWithAny ["/***"] chars) then
    blockCommentEnd? 0 chars
  else match chars with
    | c :: rest => if isSeparator c then some rest else none
    | [] => none

/-- Behind all blanks and comments. -/
def skipBlanks (chars : List Char) : List Char :=
  match skipOne? chars with
  | some rest => if rest.length < chars.length then skipBlanks rest else chars
  | none => chars
termination_by chars.length

theorem length_skipBlanks_le (chars : List Char) : (skipBlanks chars).length ≤ chars.length := by
  fun_induction skipBlanks chars with
  | case1 chars rest _ hlt ih => omega
  | case2 => omega
  | case3 => omega

/-- A carriage return that no line feed follows. -/
def hasBareReturn : List Char → Bool
  | [] => false
  | '\r' :: '\n' :: rest => hasBareReturn rest
  | c :: rest => c = '\r' || hasBareReturn rest

/-- The text of a documentation comment, and whether it documents what encloses it. -/
def docComment? (chars : List Char) : Option ((List Char × Bool) × List Char) :=
  let block := fun (inner : Bool) =>
    (blockCommentEnd? 0 chars).map fun rest =>
      let length := chars.length - rest.length
      (((chars.take (length - 2)).drop 3, inner), rest)
  let found :=
    if startsWithAny ["//!"] chars then
      let (line, rest) := splitLine (chars.drop 3)
      some ((line, true), rest)
    else if startsWithAny ["/*!"] chars then block true
    else if startsWithAny ["///"] chars then
      if startsWithAny ["////"] chars then none
      else
        let (line, rest) := splitLine (chars.drop 3)
        some ((line, false), rest)
    else if startsWithAny ["/**"] chars && !startsWithAny ["/***"] chars then block false
    else none
  found.filter fun ((text, _), _) => !hasBareReturn text

/-- The attribute that a documentation comment stands for. -/
def docTokens (text : List Char) (inner : Bool) : Tokens :=
  [.sign '#'] ++ (if inner then [.sign '!'] else []) ++
    Tokens.enclosed .bracket
      [.ident "doc", .sign '=', .literal (Quoted.literal (String.ofList text))]

/-! ## Identifiers -/

/-- Behind a plain identifier. -/
def word? : List Char → Option (List Char)
  | c :: rest => if isIdentStart c then some (rest.dropWhile isIdentContinue) else none
  | [] => none

/-- Behind an optional suffix, which is spelled like an identifier. -/
def skipSuffix (chars : List Char) : List Char := (word? chars).getD chars

/-- The words that cannot be raw identifiers. -/
def neverRaw : List String := ["_", "super", "self", "Self", "crate"]

/-- Behind an identifier, raw or plain. -/
def identifier? (chars : List Char) : Option (List Char) :=
  match after? "r#" chars with
  | some word => (word? word).filter fun rest => !neverRaw.contains (taken word rest)
  | none => word? chars

/-! ## Texts -/

/-- What a quoted text may hold. -/
inductive Charset where
  /-- Any character. -/
  | unicode
  /-- ASCII, and bytes as escapes. -/
  | bytes
  /-- Any character but NUL. -/
  | nonzero
deriving DecidableEq

/-- Behind a code point escape, from its opening brace on, and the code point. -/
def codePoint? : List Char → Option (Nat × List Char)
  | '\x7b' :: rest => digits 0 0 rest
  | _ => none
where
  /-- The digits so far have this value and number. -/
  digits (value count : Nat) : List Char → Option (Nat × List Char)
    | [] => none
    | c :: rest =>
      match Quoted.hexDigit? c with
      | some digit => if count = 6 then none else digits (value * 16 + digit) (count + 1) rest
      | none =>
        if count = 0 then none
        else if c = '_' then digits value count rest
        else if c = '\x7d' && value.isValidChar then some (value, rest)
        else none

/-- Behind the two digits of a byte escape. -/
def byteEscape? (set : Charset) : List Char → Option (List Char)
  | a :: b :: rest =>
    match Quoted.hexDigit? a, Quoted.hexDigit? b with
    | some high, some low =>
      if set = .unicode && 8 ≤ high then none
      else if set = .nonzero && high = 0 && low = 0 then none
      else some rest
    | _, _ => none
  | _ => none

/-- Behind an escape, from the character after the backslash on. -/
def escape? (set : Charset) : List Char → Option (List Char)
  | 'x' :: rest => byteEscape? set rest
  | 'u' :: rest =>
    if set = .bytes then none
    else (codePoint? rest).bind fun (value, rest) =>
      if set = .nonzero && value = 0 then none else some rest
  | c :: rest =>
    if ['n', 'r', 't', '\\', '\'', '"'].contains c || (c = '0' && set ≠ .nonzero) then some rest
    else none
  | [] => none

/-- Behind the blanks that follow a backslash at the end of a line; `returned` says that the last
character was a carriage return. -/
def joinLines? : Bool → List Char → Option (List Char)
  | true, '\n' :: rest => joinLines? false rest
  | true, _ => none
  | false, c :: rest =>
    if c = ' ' || c = '\t' || c = '\n' then joinLines? false rest
    else if c = '\r' then joinLines? true rest
    else some (c :: rest)
  | false, [] => none

/-- A character that a text of this kind may hold as it is. -/
def Charset.admits : Charset → Char → Bool
  | .unicode, _ => true
  | .bytes, c => c.toNat < 128
  | .nonzero, c => c ≠ '\x00'

/-- Behind the closing quote of a cooked text; `fuel` bounds the number of its characters. -/
def cookedEnd? (set : Charset) : Nat → List Char → Option (List Char)
  | 0, _ => none
  | _, [] => none
  | fuel + 1, c :: rest =>
    if c = '"' then some (skipSuffix rest)
    else if c = '\r' then
      match rest with
      | '\n' :: rest => cookedEnd? set fuel rest
      | _ => none
    else if c = '\\' then
      match rest with
      | '\n' :: rest => (joinLines? false rest).bind (cookedEnd? set fuel)
      | '\r' :: rest => (joinLines? true rest).bind (cookedEnd? set fuel)
      | rest => (escape? set rest).bind (cookedEnd? set fuel)
    else if set.admits c then cookedEnd? set fuel rest
    else none

/-- Behind the closing quote of a raw text with this many hash signs. -/
def rawEnd? (set : Charset) (hashes : Nat) : List Char → Option (List Char)
  | [] => none
  | '\r' :: '\n' :: rest => rawEnd? set hashes rest
  | c :: rest =>
    if c = '"' && rest.take hashes = List.replicate hashes '#' then
      some (skipSuffix (rest.drop hashes))
    else if c = '\r' || !set.admits c then none
    else rawEnd? set hashes rest

/-- Behind a raw text, from its hash signs on. -/
def rawText? (set : Charset) (chars : List Char) : Option (List Char) :=
  let hashes := (chars.takeWhile (· = '#')).length
  match chars.drop hashes with
  | '"' :: rest => if hashes ≤ 255 then rawEnd? set hashes rest else none
  | _ => none

/-- Behind a text: `mark` is what stands before the quote, or before the `r` of a raw text. -/
def text? (mark : String) (set : Charset) (chars : List Char) : Option (List Char) :=
  match after? (mark ++ "\"") chars with
  | some rest => cookedEnd? set (rest.length + 1) rest
  | none => (after? (mark ++ "r") chars).bind (rawText? set)

/-- Behind a character or byte literal. -/
def character? (mark : String) (set : Charset) (chars : List Char) : Option (List Char) := do
  let body ← after? (mark ++ "'") chars
  let rest ← match body with
    | '\\' :: rest => escape? set rest
    | c :: rest => if set.admits c then some rest else none
    | [] => none
  skipSuffix <$> after? "'" rest

/-! ## Numbers -/

/-- A digit of a number, or the underscore between digits. -/
def isDigitOrGap (c : Char) : Bool := c.isDigit || c = '_'

/-- Behind an exponent, from behind its letter on: at most one sign before the first digit, and at
least one digit. -/
def exponent? : (signed valued : Bool) → List Char → Option (List Char)
  | _, valued, [] => if valued then some [] else none
  | signed, valued, c :: rest =>
    if c = '+' || c = '-' then
      if valued then some (c :: rest) else if signed then none else exponent? true valued rest
    else if c.isDigit then exponent? signed true rest
    else if c = '_' then exponent? signed valued rest
    else if valued then some (c :: rest)
    else none

/-- Behind the digits of a decimal fraction or of a number with an exponent. A point that a second
point or a name follows belongs to no number. -/
def fraction? : List Char → Option (List Char)
  | [] => none
  | first :: rest =>
    if !first.isDigit then none
    else
      let withExponent := fun (pointed : Bool) (chars : List Char) =>
        match chars with
        | c :: rest =>
          if c = 'e' || c = 'E' then
            (exponent? false false rest).or (if pointed then some chars else none)
          else if pointed then some chars else none
        | [] => if pointed then some [] else none
      match rest.dropWhile isDigitOrGap with
      | '.' :: rest =>
        if rest.head?.any fun c => c = '.' || isIdentStart c then none
        else withExponent true (rest.dropWhile isDigitOrGap)
      | rest => withExponent false rest

/-- Behind the digits of an integer in this base. -/
def digits? (base : Nat) : (empty : Bool) → List Char → Option (List Char)
  | empty, [] => if empty then none else some []
  | empty, c :: rest =>
    let stop := if empty then none else some (c :: rest)
    if c = '_' then
      if empty && base = 10 then none else digits? base empty rest
    else match Quoted.hexDigit? c with
      | some digit =>
        if digit < base then digits? base false rest
        else if c.isDigit then none
        else stop
      | none => stop

/-- Behind the digits of an integer. -/
def integer? (chars : List Char) : Option (List Char) :=
  match chars with
  | '0' :: 'x' :: rest => digits? 16 true rest
  | '0' :: 'o' :: rest => digits? 8 true rest
  | '0' :: 'b' :: rest => digits? 2 true rest
  | _ => digits? 10 true chars

/-- Behind the suffix of a number, where no identifier character may follow. -/
def numberEnd? (chars : List Char) : Option (List Char) :=
  some (skipSuffix chars) |>.filter fun rest => !rest.head?.any isIdentContinue

/-- Behind a literal. -/
def literal? (chars : List Char) : Option (List Char) :=
  text? "" .unicode chars <|> text? "b" .bytes chars <|> text? "c" .nonzero chars <|>
    character? "b" .bytes chars <|> character? "" .unicode chars <|>
    (fraction? chars).bind numberEnd? <|> (integer? chars).bind numberEnd?

/-! ## Punctuation and the whole text -/

/-- The punctuation character that begins the text, unless it begins a comment. -/
def punctuation? (chars : List Char) : Option (Char × List Char) :=
  match chars with
  | c :: rest =>
    if startsWithAny ["//", "/*"] chars then none
    else if "~!@#$%^&*-=+|;:,<.>/?'".toList.contains c then some (c, rest)
    else none
  | [] => none

/-- A punctuation token. The single quote is one only before a name: it marks a lifetime. -/
def punct? (chars : List Char) : Option (Token × List Char) := do
  let (c, rest) ← punctuation? chars
  if c = '\'' then
    let behind ← identifier? rest
    if behind.head? = some '\'' || (behind.head? = some '#' && !startsWithAny ["r#"] rest) then none
    else some (.punct c true, rest)
  else some (.punct c (punctuation? rest).isSome, rest)

/-- A token that is no bracket. -/
def leaf? (chars : List Char) : Option (Token × List Char) :=
  match literal? chars with
  | some rest => some (.literal (taken chars rest), rest)
  | none =>
    match punct? chars with
    | some found => some found
    | none =>
      if startsWithAny
          ["r\"", "r#\"", "r##", "b\"", "b'", "br\"", "br#", "c\"", "cr\"", "cr#"] chars
      then none
      else (identifier? chars).map fun rest => (.ident (taken chars rest), rest)

/-- The mark that stands for something that could not be read. Though it begins like a group, it is
a literal. -/
def unreadableMark : String := "(/*ERROR*/)"

/-- The next tokens, with the brackets that are open behind them. -/
def step? (enclosing : List Delimiter) (chars : List Char) :
    Option (Tokens × List Delimiter × List Char) :=
  match docComment? chars with
  | some ((text, inner), rest) => some (docTokens text inner, enclosing, rest)
  | none =>
    match after? unreadableMark chars, chars with
    | some rest, _ => some ([.literal unreadableMark], enclosing, rest)
    | none, [] => none
    | none, c :: rest =>
      match Delimiter.ofOpen? c, Delimiter.ofClose? c with
      | some d, _ => some ([.opening d], d :: enclosing, rest)
      | none, some d =>
        match enclosing with
        | e :: outer => if e = d then some ([.closing d], outer, rest) else none
        | [] => none
      | none, none => (leaf? chars).map fun (token, rest) => ([token], enclosing, rest)

/-- The tokens of a text inside open brackets, all of which the text must close. -/
def run? (enclosing : List Delimiter) (chars : List Char) : Option Tokens :=
  if (skipBlanks chars).isEmpty then if enclosing.isEmpty then some [] else none
  else match step? enclosing (skipBlanks chars) with
    | some (tokens, enclosing, rest) =>
      if rest.length < (skipBlanks chars).length then (run? enclosing rest).map (tokens ++ ·)
      else none
    | none => none
termination_by chars.length
decreasing_by
  have := length_skipBlanks_le chars
  omega

end Lexer

/-- The tokens of a source text, or `none` when it has no reading as balanced tokens. A byte order
mark at its beginning is not part of the text. -/
def Tokens.ofSource? (source : String) : Option Tokens :=
  match source.toList with
  | '\ufeff' :: chars => Lexer.run? [] chars
  | chars => Lexer.run? [] chars

end BitLayout
