import BitLayout.Token.Basic

/-!
# BitLayout.Source.Fragment

A part of the source that has been read. It is printed in canonical form, which can leave something
out that has no meaning, such as a `where` without conditions, put something in, such as
parentheses, and move lifetimes to the front. What was read is kept beside it, for two parts are
the same only if they were read alike.

Spaces are no difference: in a sign of several characters all but the last are joint, and every
other sign stands alone. Only where tokens have no grammar, as in an invocation, they are kept as
they were spaced.
-/

namespace BitLayout

/-- A part of the source: what it is printed as, and what it was read from. -/
structure Fragment where
  tokens : Tokens
  source : Tokens
deriving DecidableEq, Repr

namespace Fragment

/-- A part that is printed as it was read. -/
def ofTokens (tokens : Tokens) : Fragment := ⟨tokens, tokens⟩

/-- A word. -/
def ofWord (word : String) : Fragment := ofTokens [.ident word]

/-- A sign. -/
def ofSign (sign : String) : Fragment := ofTokens (Tokens.ofSign sign.toList)

instance : EmptyCollection Fragment := ⟨⟨[], []⟩⟩

instance : Append Fragment := ⟨fun a b => ⟨a.tokens ++ b.tokens, a.source ++ b.source⟩⟩

/-- Whether nothing was read. -/
def isEmpty (f : Fragment) : Bool := f.source.isEmpty

/-- What was read is not printed. -/
def hidden (f : Fragment) : Fragment := { f with tokens := [] }

/-- A part in brackets. -/
def enclosed (d : Delimiter) (f : Fragment) : Fragment :=
  ⟨Tokens.enclosed d f.tokens, Tokens.enclosed d f.source⟩

/-- A part that is printed in parentheses, although it was read without them. -/
def guarded (f : Fragment) : Fragment := { f with tokens := Tokens.enclosed .paren f.tokens }

/-- Parts in a row. -/
def flatten (parts : List Fragment) : Fragment := parts.foldr (· ++ ·) ∅

/-- Whether what was read ends with a brace. -/
def endsWithBrace (f : Fragment) : Bool := f.source.getLast? = some (.closing .brace)

/-! ## What is printed, and what was read -/

@[simp]
theorem tokens_empty : (∅ : Fragment).tokens = [] := rfl

@[simp]
theorem source_empty : (∅ : Fragment).source = [] := rfl

@[simp]
theorem tokens_append (a b : Fragment) : (a ++ b).tokens = a.tokens ++ b.tokens := rfl

@[simp]
theorem source_append (a b : Fragment) : (a ++ b).source = a.source ++ b.source := rfl

@[simp]
theorem source_guarded (f : Fragment) : f.guarded.source = f.source := rfl

@[simp]
theorem tokens_flatten (parts : List Fragment) :
    (flatten parts).tokens = parts.flatMap tokens := by
  induction parts with
  | nil => rfl
  | cons f rest ih => simpa [flatten] using ih

@[simp]
theorem source_flatten (parts : List Fragment) :
    (flatten parts).source = parts.flatMap source := by
  induction parts with
  | nil => rfl
  | cons f rest ih => simpa [flatten] using ih

end Fragment

end BitLayout
