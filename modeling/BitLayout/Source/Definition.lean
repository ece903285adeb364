import BitLayout.Source.Attribute
import BitLayout.Source.TypeExpr

/-!
# BitLayout.Source.Definition

The items of a module. Structs, unions and type aliases are taken apart, since they describe what is
laid out; any other item is kept as it is printed and was read.
-/

namespace BitLayout

/-- The two kinds of records. -/
inductive RecordKind where
  | struct
  | union
deriving DecidableEq, Repr

/-- A field with a name. -/
structure FieldDefinition where
  attrs : List Attribute
  visibility : Fragment
  name : String
  type : TypeExpr
deriving DecidableEq, Repr

/-- A field known by its position. -/
structure PositionalField where
  attrs : List Attribute
  visibility : Fragment
  type : TypeExpr
deriving DecidableEq, Repr

/-- The fields of a record, and whether a comma follows the last. -/
inductive RecordBody where
  | named (fields : List FieldDefinition) (comma : Bool)
  | positional (fields : List PositionalField) (comma : Bool)
  | unit
deriving DecidableEq, Repr

/-- A struct or a union. `generics` holds the parameters with their brackets, `bounds` the `where`
clause; neither is printed when it lists nothing. -/
structure RecordDefinition where
  attrs : List Attribute
  visibility : Fragment
  kind : RecordKind
  name : String
  generics : Fragment
  bounds : Fragment
  body : RecordBody
deriving DecidableEq, Repr

/-- A type alias. -/
structure AliasDefinition where
  attrs : List Attribute
  visibility : Fragment
  name : String
  generics : Fragment
  bounds : Fragment
  type : TypeExpr
deriving DecidableEq, Repr

/-- An item of a module. -/
inductive Definition where
  | record (definition : RecordDefinition)
  | typeAlias (definition : AliasDefinition)
  | other (fragment : Fragment)
deriving DecidableEq, Repr

/-- A module; without content, its items stand in another file. -/
structure Module where
  attrs : List Attribute
  /-- Visibility, keywords and name. -/
  head : Fragment
  content : Option (List Attribute × List Definition)
deriving DecidableEq, Repr

/-! ## Items as parts of the source -/

/-- The keyword of a kind of record. -/
def RecordKind.word : RecordKind → String
  | struct => "struct"
  | union => "union"

/-- A named field. -/
def FieldDefinition.fragment (f : FieldDefinition) : Fragment :=
  attributeFragment f.attrs ++ f.visibility ++ .ofWord f.name ++ .ofSign ":" ++ f.type.fragment

/-- A field without a name. -/
def PositionalField.fragment (f : PositionalField) : Fragment :=
  attributeFragment f.attrs ++ f.visibility ++ f.type.fragment

/-- Parts with commas between them. -/
def commaFragment (comma : Bool) : List Fragment → Fragment
  | [] => ∅
  | [last] => last ++ if comma then .ofSign "," else ∅
  | part :: rest => part ++ .ofSign "," ++ commaFragment comma rest

/-- Fields, in the brackets that show whether they have names. -/
def RecordBody.fragment : RecordBody → Fragment
  | named fields comma =>
    Fragment.enclosed .brace (commaFragment comma (fields.map FieldDefinition.fragment))
  | positional fields comma =>
    Fragment.enclosed .paren (commaFragment comma (fields.map PositionalField.fragment))
  | unit => ∅

/-- A record. -/
def RecordDefinition.fragment (r : RecordDefinition) : Fragment :=
  attributeFragment r.attrs ++ r.visibility ++ .ofWord r.kind.word ++ .ofWord r.name ++
    r.generics ++
    match r.body with
    | .named _ _ => r.bounds ++ r.body.fragment
    | .positional _ _ => r.body.fragment ++ r.bounds ++ .ofSign ";"
    | .unit => r.bounds ++ .ofSign ";"

/-- An alias. -/
def AliasDefinition.fragment (a : AliasDefinition) : Fragment :=
  attributeFragment a.attrs ++ a.visibility ++ .ofWord "type" ++ .ofWord a.name ++ a.generics ++
    a.bounds ++ .ofSign "=" ++ a.type.fragment ++ .ofSign ";"

/-- An item. -/
def Definition.fragment : Definition → Fragment
  | record r => r.fragment
  | typeAlias a => a.fragment
  | other fragment => fragment

/-- Items in a row. -/
def definitionFragment (items : List Definition) : Fragment :=
  .flatten (items.map Definition.fragment)

/-- The tokens of items in a row. -/
def definitionTokens (items : List Definition) : Tokens := (definitionFragment items).tokens

/-- A module. -/
def Module.fragment (m : Module) : Fragment :=
  attributeFragment m.attrs ++ m.head ++
    match m.content with
    | some (attrs, items) =>
      Fragment.enclosed .brace (attributeFragment attrs ++ definitionFragment items)
    | none => .ofSign ";"

/-- The tokens of a module. -/
def Module.tokens (m : Module) : Tokens := m.fragment.tokens

end BitLayout
