import BitLayout.Token.Basic

/-!
# BitLayout.Code.Phrase

Phrases that generated code is put together from.
-/

namespace BitLayout.Phrase

/-- An identifier or keyword. -/
def word (name : String) : Tokens := [.ident name]

/-- A number without a suffix. -/
def number (n : Nat) : Tokens := [.literal (toString n)]

/-- A number with its type behind it. A minus sign is a token of its own. -/
def typedNumber (n : Int) (type : String) : Tokens :=
  (if n < 0 then [.sign '-'] else []) ++ [.literal (toString n.natAbs ++ type)]

/-- A phrase in parentheses. -/
def parens (inner : Tokens) : Tokens := Tokens.enclosed .paren inner

/-- A phrase in square brackets. -/
def brackets (inner : Tokens) : Tokens := Tokens.enclosed .bracket inner

/-- A phrase in braces. -/
def braces (inner : Tokens) : Tokens := Tokens.enclosed .brace inner

/-- Phrases with commas between them. -/
def commas (phrases : List Tokens) : Tokens := List.intercalate [.sign ','] phrases

/-- A call. -/
def call (function : Tokens) (arguments : List Tokens) : Tokens :=
  function ++ parens (commas arguments)

/-- A phrase as a statement. -/
def statement (phrase : Tokens) : Tokens := phrase ++ [.sign ';']

/-- The separator of paths. -/
def pathSep : Tokens := [.punct ':' true, .sign ':']

/-- A path of names that begins with a separator. -/
def absolute (names : List String) : Tokens := names.flatMap fun name => pathSep ++ word name

/-- An attribute. -/
def attr (inner : Tokens) : Tokens := .sign '#' :: brackets inner

/-- A name with a type. -/
def typed (name : String) (type : Tokens) : Tokens := word name ++ .sign ':' :: type

/-- A reference, or the type of one. -/
def shared (phrase : Tokens) : Tokens := .sign '&' :: phrase

/-- A reference that may be written through, or the type of one. -/
def exclusive (phrase : Tokens) : Tokens := .sign '&' :: .ident "mut" :: phrase

end BitLayout.Phrase
