import BitLayout.Source.Grammar.Function

/-!
# BitLayout.Source.Grammar.Record

Structs, unions and enumerations.
-/

namespace BitLayout.Grammar

open Reading

/-! ## Fields -/

/-- Read a field with a name. An underscore may stand for the name; then the type may be a record
without one, which `nested` reads. -/
def namedField (r : Readers) (nested : Reading Unit) : Reading FieldDefinition := do
  let attrs ← outerAttributes r
  let visibility ← visibility
  let unnamed ← peek (.word "_")
  let name ← if unnamed then anyWord else name
  discard (sign ":")
  let recordAhead := (← peek (.word "struct")) ||
    ((← peek (.word "union")) && (← peekBehind 1 (.group .brace)))
  if unnamed && recordAhead then
    let (_, written) ← captured do
      discard anyWord
      nested
    return ⟨attrs, visibility, name, .other (.ofTokens written)⟩
  return ⟨attrs, visibility, name, (← r (.type true)).type⟩

/-- Read fields with names in braces, each with the comma behind it. -/
def namedFieldsOf (r : Readers) : (depth : Nat) → Reading (List (FieldDefinition × Fragment))
  | 0 => return []
  | depth + 1 => group .brace (commaParts (namedField r (discard (namedFieldsOf r depth))))

/-- Whether a comma stands behind the last part. -/
def endsWithComma {α : Type} (parts : List (α × Fragment)) : Bool :=
  parts.getLast?.any fun (_, comma) => !comma.isEmpty

/-- Read fields with names in braces. -/
def namedFields (r : Readers) : Reading RecordBody := do
  let parts ← namedFieldsOf r (← ahead).length
  return .named (parts.map (·.1)) (endsWithComma parts)

/-- Read a field without a name. -/
def positionalField (r : Readers) : Reading PositionalField := do
  let attrs ← outerAttributes r
  let visibility ← visibility
  return ⟨attrs, visibility, (← r (.type true)).type⟩

/-- Read fields without names in parentheses. -/
def positionalFields (r : Readers) : Reading RecordBody := do
  let parts ← group .paren (commaParts (positionalField r))
  return .positional (parts.map (·.1)) (endsWithComma parts)

/-! ## Records -/

/-- Read the rest of a struct behind its parameters. The conditions on them stand before fields with
names and behind those without. -/
def structBody (r : Readers) : Reading (RecordBody × Fragment) := do
  let (bounds, bounded) ← whereClause? r
  if !bounded && (← peek (.group .paren)) then
    let body ← positionalFields r
    let (bounds, bounded) ← whereClause? r
    if ← peek (.sign ";") then
      discard (sign ";")
      return (body, bounds)
    expectedOneOf ((if bounded then [] else [.word "where"]) ++ [.sign ";"])
  if ← peek (.group .brace) then return (← namedFields r, bounds)
  if ← peek (.sign ";") then
    discard (sign ";")
    return (.unit, bounds)
  expectedOneOf ((if bounded then [] else [.word "where", .group .paren]) ++
    [.group .brace, .sign ";"])

/-- Read a struct or a union behind its attributes and its visibility. -/
def record (r : Readers) (attrs : List Attribute) (visibility : Fragment) (kind : RecordKind) :
    Reading RecordDefinition := do
  discard (word kind.word)
  let name ← name
  let generics ← parameters r
  let (body, bounds) ← match kind with
    | .struct => structBody r
    | .union => do
      let bounds ← whereClause r
      pure (← namedFields r, bounds)
  return { attrs, visibility, kind, name, generics, bounds, body }

/-! ## Enumerations -/

/-- Read a variant. A visibility before its name is dropped. -/
def variant (r : Readers) : Reading Fragment := do
  let attrs ← outerFragment r
  discard visibility
  let name ← nameFragment
  let fields ← if ← peek (.group .brace) then RecordBody.fragment <$> namedFields r
    else if ← peek (.group .paren) then RecordBody.fragment <$> positionalFields r
    else pure ∅
  let value ← if ← peek (.sign "=") then
      let equals ← sign "="
      pure (equals ++ (← r.valueFragment))
    else pure ∅
  return attrs ++ name ++ fields ++ value

/-- Read an enumeration. -/
def enumeration (r : Readers) : Reading Fragment := do
  let head := (← word "enum") ++ (← nameFragment)
  let generics ← parameters r
  let bounds ← whereClause r
  return head ++ generics ++ bounds ++ (← groupFragment .brace (commaList (variant r)))

end BitLayout.Grammar
