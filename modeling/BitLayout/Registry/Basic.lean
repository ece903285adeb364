import BitLayout.Request.Attributes
import BitLayout.Source.Definition

/-!
# BitLayout.Registry.Basic

The records and aliases of a module, by name. A later declaration of a name hides the earlier one;
records and aliases do not hide each other. Generic declarations and structs without field names
cannot be laid out: they are reported and left out, and the attributes inside them are not looked
at.
-/

namespace BitLayout

/-- A field of a record. -/
structure Field where
  name : String
  type : TypeExpr
  request : Request
deriving DecidableEq, Repr

/-- A struct or union whose fields have names. -/
structure Record where
  name : String
  kind : RecordKind
  fields : List Field
  request : Request
  /-- Laid out in memory as in C. -/
  reprC : Bool
deriving DecidableEq, Repr

/-- Another name for a type. -/
structure TypeAlias where
  name : String
  target : TypeExpr
  request : Request
deriving DecidableEq, Repr

/-- The declarations of a module, the latest first. -/
structure Registry where
  records : List Record
  aliases : List TypeAlias
deriving DecidableEq, Repr

/-- Why a declaration is left out or loses its options. -/
inductive DeclarationError where
  | options (error : RequestError)
  | genericRecord (kind : RecordKind)
  | genericAlias
  | positionalFields
deriving DecidableEq, Repr

/-- The wording of an error. -/
def DeclarationError.message : DeclarationError → String
  | options e => e.message
  | genericRecord .struct => "bitpack: generic structs are not supported"
  | genericRecord .union => "bitpack: generic unions are not supported"
  | genericAlias => "bitpack: generic type aliases are not supported"
  | positionalFields => "bitpack: tuple structs are not supported"

namespace Registry

/-- The registry without declarations. -/
def empty : Registry := ⟨[], []⟩

/-- The record of a name. -/
def record? (g : Registry) (name : String) : Option Record := g.records.find? (·.name = name)

/-- The alias of a name. -/
def alias? (g : Registry) (name : String) : Option TypeAlias := g.aliases.find? (·.name = name)

end Registry

/-! ## Collecting -/

/-- The request of attributes, with its errors as those of a declaration. -/
def requestOf (attrs : List Attribute) : Request × List DeclarationError :=
  let (request, errors) := Request.ofAttributes attrs
  (request, errors.map .options)

/-- The field that a definition declares, and the errors in its attributes. -/
def Field.ofDefinition (f : FieldDefinition) : Field × List DeclarationError :=
  let (request, errors) := requestOf f.attrs
  (⟨f.name, f.type, request⟩, errors)

/-- The record that a definition declares, if it can be laid out, and what is wrong with it. The
errors in its fields come before those in its own attributes. -/
def Record.ofDefinition (r : RecordDefinition) : Option Record × List DeclarationError :=
  if !r.generics.tokens.isEmpty then (none, [.genericRecord r.kind])
  else
    let declare := fun (fields : List FieldDefinition) =>
      let found := fields.map Field.ofDefinition
      let (request, errors) := requestOf r.attrs
      (some ⟨r.name, r.kind, found.map (·.1), request, hasReprC r.attrs⟩,
        found.flatMap (·.2) ++ errors)
    match r.body with
    | .named fields _ => declare fields
    | .unit => declare []
    | .positional _ _ => (none, [.positionalFields])

/-- The alias that a definition declares, if it can be laid out, and what is wrong with it. -/
def TypeAlias.ofDefinition (a : AliasDefinition) : Option TypeAlias × List DeclarationError :=
  if !a.generics.tokens.isEmpty then (none, [.genericAlias])
  else
    let (request, errors) := requestOf a.attrs
    (some ⟨a.name, a.type, request⟩, errors)

namespace Registry

/-- Add what an item declares. -/
def add (g : Registry) : Definition → Registry × List DeclarationError
  | .record r =>
    match Record.ofDefinition r with
    | (some record, errors) => ({ g with records := record :: g.records }, errors)
    | (none, errors) => (g, errors)
  | .typeAlias a =>
    match TypeAlias.ofDefinition a with
    | (some found, errors) => ({ g with aliases := found :: g.aliases }, errors)
    | (none, errors) => (g, errors)
  | .other _ => (g, [])

/-- The declarations of a module's items, and what is wrong with them. -/
def collect (items : List Definition) : Registry × List DeclarationError :=
  items.foldl
    (fun (g, errors) item =>
      let (g, more) := g.add item
      (g, errors ++ more))
    (empty, [])

end Registry

/-! ## Items without their options -/

/-- Attributes without those of the layout. -/
def withoutLayout (attrs : List Attribute) : List Attribute := attrs.filter (!·.isLayout)

/-- The fields of a record without their options. -/
def RecordBody.withoutOptions : RecordBody → RecordBody
  | named fields comma =>
    named (fields.map fun f => { f with attrs := withoutLayout f.attrs }) comma
  | positional fields comma =>
    positional (fields.map fun f => { f with attrs := withoutLayout f.attrs }) comma
  | unit => unit

/-- An item without its options. Only records, their fields and aliases can have any. -/
def Definition.withoutOptions : Definition → Definition
  | record r => record { r with attrs := withoutLayout r.attrs, body := r.body.withoutOptions }
  | typeAlias a => typeAlias { a with attrs := withoutLayout a.attrs }
  | other fragment => other fragment

end BitLayout
