import BitLayout.Source.Fragment

/-!
# BitLayout.Source.Reading

Reading tokens from the front: the errors that can stop a reader, the tests of what stands ahead,
and the readers of single words, signs and groups on which the grammar is built.

Tokens left at the end of a group do not stop a reader. The first group that has some is remembered,
and it becomes an error only when everything else could be read.
-/

namespace BitLayout

/-! ## Errors -/

/-- Why something that has a form of its own is not allowed where it stands. -/
inductive Refusal where
  /-- A comparison is an operand of another one. -/
  | chainedComparison
  /-- Behind the type of a cast, something follows that would belong to the operand. -/
  | castFollowed (what : String)
  /-- Attributes stand before a range without a start. -/
  | rangeAttributes
  /-- What a `break` ends with begins with a label. -/
  | labelledBreak
  /-- A trait object consists of lifetimes. -/
  | objectWithoutTrait
  /-- What an opaque type implements names no trait. -/
  | opaqueWithoutTrait
  /-- The number of a field has a suffix. -/
  | suffixedIndex
  /-- A `where` clause begins with parameters. -/
  | whereParameters
  /-- A range without both ends stands in a slice pattern. -/
  | openRangeInSlice
  /-- A `self` parameter is not the first parameter. -/
  | lateReceiver
  /-- There is more than one `self` parameter. -/
  | secondReceiver
  /-- Captured parameters are listed where nothing is captured. -/
  | captures
  /-- A bound asks for constant methods where none can be called. -/
  | constBound
  /-- The same, for a bound that asks on a condition. -/
  | conditionalConstBound
  /-- A bound that makes a trait optional has a binder. -/
  | optionalBinder
  /-- An implementation is negative, and of no trait. -/
  | negativeInherent
  /-- The value of an attribute begins with an attribute. -/
  | attributeInAttribute
  /-- A statement does not end where it has to. -/
  | unfinishedStatement
deriving DecidableEq, Repr

/-- The wording of a refusal. -/
def Refusal.message : Refusal → String
  | chainedComparison => "comparison operators cannot be chained"
  | castFollowed what => "casts cannot be followed by " ++ what
  | rangeAttributes => "attributes are not allowed on range expressions starting with `..`"
  | labelledBreak => "parentheses required"
  | objectWithoutTrait => "at least one trait is required for an object type"
  | opaqueWithoutTrait => "at least one trait must be specified"
  | suffixedIndex => "expected unsuffixed integer"
  | whereParameters => "generic parameters on `where` clauses are reserved for future use"
  | openRangeInSlice => "range pattern is not allowed unparenthesized inside slice pattern"
  | lateReceiver => "unexpected method receiver"
  | secondReceiver => "unexpected second method receiver"
  | captures => "`use<...>` precise capturing syntax is not allowed here"
  | constBound => "`const` is not allowed here"
  | conditionalConstBound => "`[const]` is not allowed here"
  | optionalBinder => "`for<...>` binder not allowed with `?` trait polarity modifier"
  | negativeInherent => "inherent impls cannot be negative"
  | attributeInAttribute => "unexpected attribute inside of attribute"
  | unfinishedStatement => "unexpected token, expected `;`"

/-- Why tokens could not be read. -/
inductive ReadError where
  /-- Something else stands here, or the enclosing group is at its end. -/
  | expected (what : String) (atEnd : Bool)
  /-- A sign is missing. -/
  | missingSign (sign : String)
  /-- A keyword stands where a name is wanted. -/
  | keyword (word : String)
  /-- A literal stands where the name of an option is wanted. -/
  | literalForName
  /-- Some other token stands where the name of an option is wanted. -/
  | tokenForName
  /-- A negative number stands where only a magnitude can be kept. -/
  | invalidDigit
  /-- A number is above the range of what it is kept in. -/
  | numberTooLarge
  /-- A number is below the range of what it is kept in. -/
  | numberTooSmall
  /-- Nothing that could stand here has a name. -/
  | unexpected (atEnd : Bool)
  /-- Tokens are left at the end of a group. -/
  | leftover (group : Delimiter)
  | refused (reason : Refusal)
deriving DecidableEq, Repr

/-- The wording of an error. -/
def ReadError.message : ReadError → String
  | expected what false => "expected " ++ what
  | expected what true => "unexpected end of input, expected " ++ what
  | missingSign sign => "expected `" ++ sign ++ "`"
  | keyword word => "expected identifier, found keyword `" ++ word ++ "`"
  | literalForName => "unexpected literal in nested attribute, expected ident"
  | tokenForName => "unexpected token in nested attribute, expected ident"
  | invalidDigit => "invalid digit found in string"
  | numberTooLarge => "number too large to fit in target type"
  | numberTooSmall => "number too small to fit in target type"
  | unexpected false => "unexpected token"
  | unexpected true => "unexpected end of input"
  | leftover d => "unexpected token, expected `" ++ String.singleton d.closeChar ++ "`"
  | refused reason => reason.message

/-! ## Readers -/

/-- What a reader has before it: the tokens up to the end of the group, and the first group so far
at whose end tokens were left. -/
structure Remaining where
  tokens : Tokens
  leftover : Option Delimiter
deriving DecidableEq, Repr

/-- A reader whose errors are of the type `ε`: it takes tokens off the front, or stops. -/
abbrev ReadingWith (ε : Type) := StateT Remaining (Except ε)

/-- A reader. -/
abbrev Reading := ReadingWith ReadError

/-- All that there is to read, at first. -/
def Remaining.start (tokens : Tokens) : Remaining := ⟨tokens, none⟩

namespace Reading

/-- The tokens ahead. -/
def ahead {ε : Type} : ReadingWith ε Tokens := return (← get).tokens

/-- Go on with these tokens. -/
def goOn {ε : Type} (tokens : Tokens) : ReadingWith ε Unit := modify ({ · with tokens })

/-- Whether the enclosing group is used up. -/
def ended {ε : Type} : ReadingWith ε Bool := return (← ahead).isEmpty

/-- Stop here, where `what` is wanted. -/
def expected {α : Type} (what : String) : Reading α := do
  throw (.expected what (← ended))

/-- Refuse what stands here. -/
def refuse {α : Type} (reason : Refusal) : Reading α := throw (.refused reason)

/-- What a reader returns, and the tokens that it has taken, as they were written. -/
def captured {ε α : Type} (reader : ReadingWith ε α) : ReadingWith ε (α × Tokens) := do
  let start ← ahead
  let found ← reader
  return (found, start.before (← ahead))

/-- Read something if it can be read; otherwise nothing has been taken. -/
def attempt {α : Type} (reader : Reading α) : Reading (Option α) := fun remaining =>
  match reader remaining with
  | .ok (found, behind) => .ok (some found, behind)
  | .error _ => .ok (none, remaining)

/-- Look ahead with a reader that tells something; nothing is taken. What it cannot read tells
no. -/
def looking (reader : Reading Bool) : Reading Bool := fun remaining =>
  match reader remaining with
  | .ok (found, _) => .ok (found, remaining)
  | .error _ => .ok (false, remaining)

/-- The end of a group in which `content` has been read: what is left there is remembered. -/
def closeGroup {ε : Type} (d : Delimiter) (content : Remaining) (rest : Tokens) :
    ReadingWith ε Unit :=
  set (⟨rest, content.leftover.or (if content.tokens.isEmpty then none else some d)⟩ : Remaining)

/-- Run a reader on the content of a group, and go on with `rest` behind it. -/
def within {ε α : Type} (d : Delimiter) (content rest : Tokens) (reader : ReadingWith ε α) :
    ReadingWith ε α := do
  match reader ⟨content, (← get).leftover⟩ with
  | .ok (found, content) =>
    closeGroup d content rest
    return found
  | .error e => throw e

end Reading

/-- Run a reader on tokens that it has to use up. -/
def Reading.whole {α : Type} (reader : Reading α) (tokens : Tokens) : Except ReadError α :=
  match reader (.start tokens) with
  | .ok (found, ⟨[], none⟩) => .ok found
  | .ok (_, ⟨_, some d⟩) => .error (.leftover d)
  | .ok (_, ⟨_ :: _, none⟩) => .error (.unexpected false)
  | .error e => .error e

/-! ## Names -/

/-- The words that cannot name anything unless they are raw. -/
def keywords : List String :=
  ["_", "abstract", "as", "async", "await", "become", "box", "break", "const", "continue", "crate",
    "do", "dyn", "else", "enum", "extern", "false", "final", "fn", "for", "if", "impl", "in", "let",
    "loop", "macro", "match", "mod", "move", "mut", "override", "priv", "pub", "ref", "return",
    "Self", "self", "static", "struct", "super", "trait", "true", "try", "type", "typeof", "unsafe",
    "unsized", "use", "virtual", "where", "while", "yield"]

/-- Whether a word can name something. -/
def isName (word : String) : Bool := !keywords.contains word

/-! ## What stands ahead -/

/-- What may stand at a place: a test of the tokens there, and its name in messages. -/
structure Expectation where
  holds : Tokens → Bool
  title : String

namespace Expectation

/-- A certain word. -/
def word (w : String) : Expectation where
  holds tokens := tokens.head? = some (.ident w)
  title := "`" ++ w ++ "`"

/-- A certain sign. Longer signs that begin with it count as well. -/
def sign (s : String) : Expectation where
  holds tokens := (tokens.behindSign? s.toList).isSome
  title := "`" ++ s ++ "`"

/-- A name. -/
def name : Expectation where
  holds
    | .ident w :: _ => isName w
    | _ => false
  title := "identifier"

/-- Any word, keyword or not. -/
def anyWord : Expectation where
  holds
    | .ident _ :: _ => true
    | _ => false
  title := "identifier"

/-- A group. -/
def group (d : Delimiter) : Expectation where
  holds tokens := tokens.head? = some (.opening d)
  title := d.title

/-- A lifetime. -/
def lifetime : Expectation where
  holds
    | .punct '\'' _ :: .ident _ :: _ => true
    | _ => false
  title := "lifetime"

end Expectation

/-- The words that can begin a path although they name nothing. -/
def pathWords : List Expectation := ["self", "super", "crate"].map Expectation.word

namespace Reading

/-- Whether this stands ahead. -/
def peek {ε : Type} (e : Expectation) : ReadingWith ε Bool := return e.holds (← ahead)

/-- Whether this stands behind the next `count` words, signs, lifetimes or groups. -/
def peekBehind {ε : Type} (count : Nat) (e : Expectation) : ReadingWith ε Bool :=
  return ((← ahead).behindTrees? count).any e.holds

/-- Whether one of these stands ahead. -/
def peekAny {ε : Type} (es : List Expectation) : ReadingWith ε Bool := do
  let tokens ← ahead
  return es.any (·.holds tokens)

/-- Whether a sign stands ahead that is not the beginning of one of the longer signs. -/
def peekSign {ε : Type} (s : String) (longer : List String) : ReadingWith ε Bool := do
  return (← peek (.sign s)) && !(← peekAny (longer.map Expectation.sign))

/-- Stop here, where one of these is wanted; those that do stand here are passed over in the
message, for something else was wrong with them. -/
def expectedOneOf {α : Type} (es : List Expectation) : Reading α := do
  let tokens ← ahead
  match (es.filter fun e => !e.holds tokens).map Expectation.title with
  | [] => throw (.unexpected tokens.isEmpty)
  | [a] => expected a
  | [a, b] => expected (a ++ " or " ++ b)
  | titles => expected ("one of: " ++ ", ".intercalate titles)

/-! ## Words, signs and groups -/

/-- Read a certain word. -/
def word (w : String) : Reading Fragment := do
  match ← ahead with
  | .ident found :: rest =>
    if found = w then
      goOn rest
      return .ofWord w
    else expected ("`" ++ w ++ "`")
  | _ => expected ("`" ++ w ++ "`")

/-- Read a certain word if it stands here. -/
def word? (w : String) : Reading Fragment := do
  if ← peek (.word w) then word w else return ∅

/-- Read a certain sign. -/
def sign (s : String) : Reading Fragment := do
  match (← ahead).behindSign? s.toList with
  | some rest =>
    goOn rest
    return .ofSign s
  | none => throw (.missingSign s)

/-- Read a certain sign if it stands here. -/
def sign? (s : String) : Reading Fragment := do
  if ← peek (.sign s) then sign s else return ∅

/-- Read a name. -/
def name : Reading String := do
  match ← ahead with
  | .ident w :: rest =>
    if isName w then
      goOn rest
      return w
    else throw (.keyword w)
  | _ => expected "identifier"

/-- Read a name, as a part of the source. -/
def nameFragment : Reading Fragment := return .ofWord (← name)

/-- Read any word, keyword or not. -/
def anyWord : Reading String := do
  match ← ahead with
  | .ident w :: rest =>
    goOn rest
    return w
  | _ => expected "ident"

/-- Read any word, as a part of the source. -/
def anyWordFragment : Reading Fragment := return .ofWord (← anyWord)

/-- Read a lifetime. -/
def lifetime : Reading Fragment := do
  match ← ahead with
  | .punct '\'' _ :: .ident w :: rest =>
    goOn rest
    return .ofTokens [.punct '\'' true, .ident w]
  | _ => expected "lifetime"

/-- Read a lifetime if one stands here. -/
def lifetime? : Reading Fragment := do
  if ← peek .lifetime then lifetime else return ∅

/-- The content of the group ahead, and what follows the group. -/
def groupAhead (d : Delimiter) : Reading (Tokens × Tokens) := do
  match ← ahead with
  | .opening found :: inner =>
    if found = d then return Tokens.splitGroup inner else expected d.title
  | _ => expected d.title

/-- Read a group and its content. -/
def group {α : Type} (d : Delimiter) (reader : Reading α) : Reading α := do
  let (content, rest) ← groupAhead d
  within d content rest reader

/-- Read a group, and give it back with its brackets. -/
def groupFragment (d : Delimiter) (reader : Reading Fragment) : Reading Fragment :=
  Fragment.enclosed d <$> group d reader

/-- Take all that is left of the enclosing group, as it is written. -/
def everything {ε : Type} : ReadingWith ε Tokens := do
  let tokens ← ahead
  goOn []
  return tokens

/-- Read any group, with its content as it is written. -/
def anyGroup : Reading (Delimiter × Tokens) := do
  match ← ahead with
  | .opening d :: inner =>
    let (content, rest) := Tokens.splitGroup inner
    goOn rest
    return (d, content)
  | _ => expected "delimiter"

/-! ## Repetition -/

/-- Read something again and again, as long as `more` holds; `fuel` bounds the number of times. -/
def repeated {α : Type} (more : Reading Bool) (item : Reading α) : (fuel : Nat) → Reading (List α)
  | 0 => return []
  | fuel + 1 => do
    if ← more then
      let first ← item
      return first :: (← repeated more item fuel)
    else return []

/-- Read something again and again up to the end of the group. Every time takes a token. -/
def untilEnd {α : Type} (item : Reading α) : Reading (List α) := do
  repeated (return !(← ended)) item (← ahead).length

/-- Parts with a sign between them, each with the sign behind it, as long as `more` holds before a
part. -/
def separatedFrom {α : Type} (separator : String) (more : Reading Bool) (part : Reading α) :
    (fuel : Nat) → Reading (List (α × Fragment))
  | 0 => return []
  | fuel + 1 => do
    if !(← more) then return []
    let first ← part
    if !(← more) then return [(first, ∅)]
    let comma ← sign separator
    return (first, comma) :: (← separatedFrom separator more part fuel)

/-- Parts with commas between them, up to the end of the group. -/
def commaParts {α : Type} (part : Reading α) : Reading (List (α × Fragment)) := do
  separatedFrom "," (return !(← ended)) part ((← ahead).length + 1)

/-- Parts with commas between them, up to the end of the group, in a row. -/
def commaList (part : Reading Fragment) : Reading Fragment := do
  return .flatten ((← commaParts part).map fun (part, comma) => part ++ comma)

/-- Parts with plus signs between them. A part is read if `more` holds; behind it, a plus sign leads
to the next. -/
def plusFrom (more : Reading Bool) (part : Reading Fragment) : (fuel : Nat) → Reading Fragment
  | 0 => return ∅
  | fuel + 1 => do
    if !(← more) then return ∅
    let first ← part
    if !(← peek (.sign "+")) then return first
    let plus ← sign "+"
    return first ++ plus ++ (← plusFrom more part fuel)

end Reading

end BitLayout
