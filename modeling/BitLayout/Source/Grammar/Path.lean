import BitLayout.Source.Grammar.Attribute

/-!
# BitLayout.Source.Grammar.Path

Paths and generic arguments.

Lifetimes come first among arguments and parameters: those written behind others move to the front,
and a comma is added where they meet what they were moved over.
-/

namespace BitLayout.Grammar

open Reading

/-! ## Lists in angle brackets -/

/-- A part of a list in angle brackets, with the comma behind it. -/
structure AngledPart where
  isLifetime : Bool
  fragment : Fragment
  comma : Fragment

/-- Parts in a row. -/
def angledRow (parts : List AngledPart) : Fragment :=
  .flatten (parts.map fun p => p.fragment ++ p.comma)

/-- The parts, printed with lifetimes first. -/
def lifetimesFirst (parts : List AngledPart) : Fragment :=
  let (lifetimes, others) := parts.partition (·.isLifetime)
  let gap := !others.isEmpty && lifetimes.getLast?.any fun last => last.comma.isEmpty
  { angledRow parts with
    tokens := (angledRow lifetimes).tokens ++ (if gap then Tokens.ofSign [','] else []) ++
      (angledRow others).tokens }

/-- Read a list in angle brackets: its parts. -/
def angledParts (part : Reading (Bool × Fragment)) : Reading (List AngledPart) := do
  discard (sign "<")
  let parts ← separatedFrom "," (return !(← peek (.sign ">"))) part ((← ahead).length + 1)
  discard (sign ">")
  return parts.map fun ((isLifetime, fragment), comma) => ⟨isLifetime, fragment, comma⟩

/-- A part of the source in angle brackets. -/
def angled (f : Fragment) : Fragment := .ofSign "<" ++ f ++ .ofSign ">"

/-! ## Generic arguments -/

/-- Read a constant as it may stand among arguments: a literal, a name, or a block. -/
def constant (r : Readers) : Reading Fragment := do
  if ← peek .literal then literal
  else if ← peek .name then nameFragment
  else if ← peek (.group .brace) then attributedBlock r
  else throw (.unexpected (← ended))

/-- Read one generic argument, and whether it is a lifetime: besides lifetimes there are constants,
types, and what is said of an associated type or constant. -/
def argument (r : Readers) : Reading (Bool × Fragment) := do
  if (← peek .lifetime) && !(← peekBehind 1 (.sign "+")) then return (true, ← lifetime)
  let constantAhead := peekAny [.literal, .group .brace]
  if ← constantAhead then return (false, ← constant r)
  let type ← r (.type true)
  if type.form = .segment then
    if ← peek (.sign "=") then
      let equals ← sign "="
      let value ← if ← constantAhead then constant r else r.typeFragment true
      return (false, type.fragment ++ equals ++ value)
    if ← peek (.sign ":") then
      let colon ← sign ":"
      let bounds ← plusFrom (return !(← peekAny [.sign ",", .sign ">"]))
        (return (← r (.bound false true)).fragment) ((← ahead).length + 1)
      return (false, type.fragment ++ colon ++ bounds)
  return (false, type.fragment)

/-- Generic arguments in angle brackets, which may be absent. -/
structure Arguments where
  fragment : Fragment
  /-- The brackets are there. -/
  present : Bool
  /-- Nothing stands in the brackets. -/
  empty : Bool

/-- No arguments and no brackets. -/
def Arguments.absent : Arguments := ⟨∅, false, true⟩

/-- Read generic arguments, with the path separator that may stand before them. -/
def arguments (r : Readers) : Reading Arguments := do
  let separator ← sign? "::"
  let parts ← angledParts (argument r)
  return ⟨separator ++ angled (lifetimesFirst parts), true, parts.isEmpty⟩

/-! ## Paths -/

/-- A segment of a path that has been read. -/
structure Segment where
  /-- The name, with the separator before it. -/
  name : Fragment
  arguments : Arguments

/-- A segment, as a part of the source. -/
def Segment.fragment (s : Segment) : Fragment := s.name ++ s.arguments.fragment

/-- A path that has been read. -/
structure ReadPath where
  /-- What stands before the first segment. -/
  head : Fragment
  /-- It begins with a type in angle brackets. -/
  qualified : Bool
  /-- The segments up to the last. -/
  inner : List Segment
  last : Segment

namespace ReadPath

/-- The segments. -/
def segments (p : ReadPath) : List Segment := p.inner ++ [p.last]

/-- The path, as a part of the source. -/
def fragment (p : ReadPath) : Fragment := p.head ++ .flatten (p.segments.map Segment.fragment)

/-- No segment has arguments. -/
def isPlain (p : ReadPath) : Bool := !p.segments.any (·.arguments.present)

/-- The last segment has no arguments. -/
def isBare (p : ReadPath) : Bool := !p.last.arguments.present

/-- The path without the brackets of its last segment. -/
def withoutArguments (p : ReadPath) : ReadPath :=
  { p with last := { p.last with arguments := .absent } }

/-- The form that the path has as a type. -/
def form (p : ReadPath) : TypeForm :=
  if p.qualified then .other
  else if p.head.isEmpty && p.inner.isEmpty then .segment
  else .path

/-- The path as a type. -/
def toType (p : ReadPath) : ReadType :=
  match p.form, p.fragment.source with
  | .segment, [.ident w] => ⟨.name w, .segment, true⟩
  | form, _ => ⟨.other p.fragment, form, p.isBare⟩

end ReadPath

/-- Read one segment. In a value, its arguments need a separator before them. -/
def segment (r : Readers) (inValue : Bool) : Reading Segment := do
  if ← peekAny (.word "try" :: pathWords) then return ⟨← anyWordFragment, .absent⟩
  let name ← if ← peek (.word "Self") then anyWordFragment else nameFragment
  let direct := !inValue && (← peekSign "<" ["<=", "<<="])
  if direct || ((← peek (.sign "::")) && (← peekBehind 2 (.sign "<"))) then
    return ⟨name, ← arguments r⟩
  return ⟨name, .absent⟩

/-- The segments behind a first one, each behind a separator, as long as `more` holds: those up to
the last, and the last. -/
def segmentsBehind (r : Readers) (inValue : Bool) (more : Reading Bool) :
    (fuel : Nat) → (first : Segment) → Reading (List Segment × Segment)
  | 0, first => return ([], first)
  | fuel + 1, first => do
    if (← peek (.sign "::")) && (← more) then
      let separator ← sign "::"
      let next ← segment r inValue
      let (inner, last) ← segmentsBehind r inValue more fuel
        { next with name := separator ++ next.name }
      return (first :: inner, last)
    else return ([], first)

/-- Read a path that begins with a name. -/
def path (r : Readers) (inValue : Bool) : Reading ReadPath := do
  let root ← sign? "::"
  let first ← segment r inValue
  let more := return !(← peekBehind 2 (.group .paren))
  let (inner, last) ← segmentsBehind r inValue more (← ahead).length first
  return ⟨root, false, inner, last⟩

/-- Read a path that may begin with a type in angle brackets. -/
def qualifiedPath (r : Readers) (inValue : Bool) : Reading ReadPath := do
  if !(← peek (.sign "<")) then path r inValue
  else
    let opening ← sign "<"
    let self ← r.typeFragment true
    let base ← if ← peek (.word "as") then
      let conversion ← word "as"
      pure (conversion ++ (← path r false).fragment)
    else pure ∅
    let closing ← sign ">"
    let separator ← sign "::"
    let first ← segment r inValue
    let (inner, last) ← segmentsBehind r inValue (return true) (← ahead).length first
    return ⟨opening ++ self ++ base ++ closing ++ separator, true, inner, last⟩

/-- Read the result type behind an arrow, if there is one, and whether it ends with a path without
arguments. -/
def result (r : Readers) (plus : Bool) : Reading (Fragment × Bool) := do
  if ← peek (.sign "->") then
    let arrow ← sign "->"
    let type ← r (.type plus)
    return (arrow ++ type.fragment, type.bare)
  else return (∅, false)

/-- Read arguments in parentheses, as those of a function, and the result behind them; and whether
that ends with a path without arguments. -/
def functionArguments (r : Readers) : Reading (Fragment × Bool) := do
  let arguments ← groupFragment .paren (commaList (r.typeFragment true))
  let (result, bare) ← result r false
  return (arguments ++ result, bare)

/-- Read what invokes a tool behind its path: the exclamation mark and the group. -/
def invocation : Reading (Delimiter × Fragment) := do
  let mark ← sign "!"
  let (d, tokens) ← anyGroup
  return (d, mark ++ .ofTokens (Tokens.enclosed d tokens))

/-! ## Forms built into the language -/

/-- Take a form that is built into the language, which has no grammar inside. -/
def builtinForm : Reading Unit := do
  discard (word "builtin")
  discard (sign "#")
  discard name
  discard (group .paren everything)

/-- Whether a form that is built into the language stands ahead. -/
def builtinAhead : Reading Bool := return (← peek (.word "builtin")) && (← peekBehind 1 (.sign "#"))

end BitLayout.Grammar
