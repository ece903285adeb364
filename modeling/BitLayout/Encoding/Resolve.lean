import BitLayout.Config.Basic
import BitLayout.Encoding.Basic
import BitLayout.Registry.TypeRef

/-!
# BitLayout.Encoding.Resolve

Settling how one declaration travels. The requests about it lie over each other in layers, from the
lowest: the preset it builds on, the options of its record, those of the aliases of its element and
of its array ranks from the inside out, each chain of aliases from the farthest to the nearest, and
its own options on top. What comes out must suit the element; without a form, the element decides.

Two cases do not need a type that can be laid out: a declaration that its own options leave out, and
one that its own options transform.
-/

namespace BitLayout

/-- Why a declaration cannot travel as asked. -/
inductive ResolveError where
  | type (error : TypeError)
  | unknownPreset (name : String)
  | integer (error : IntegerError)
  | notInteger
  | notByteArray
  | noTerminator
  | notBuffer
  | notUnion
  | untagged (union : String)
deriving DecidableEq, Repr

/-- The wording of an error. -/
def ResolveError.message : ResolveError → String
  | type e => e.message
  | unknownPreset name => "unknown heritable preset " ++ Text.Quoted.shown name
  | integer e => e.message
  | notInteger => "integer options can only be applied to integer types"
  | notByteArray => "string options can only be applied to `[u8; N]` arrays"
  | noTerminator => "a terminated string needs room for its terminator"
  | notBuffer => "opaque buffers hold integers, floats or byte arrays"
  | notUnion => "tagged-union options can only be applied to unions"
  | untagged union =>
    "union `" ++ union ++ "` is missing tag; add `#[bitpack(tag = field)]` or "
      ++ "`#[bitpack(internal_tag = field)]`"

/-- How a declaration travels, the extents that are still to be walked, and the element, if it was
looked for. -/
structure Resolution where
  encoding : Encoding
  extents : List Nat
  elem : Option Element
deriving DecidableEq, Repr

/-! ## Layers -/

/-- The requests of a chain of aliases, the farthest first. -/
def Registry.aliasLayers (g : Registry) (aliases : List String) : List Request :=
  (aliases.reverse.filterMap g.alias?).map TypeAlias.request

/-- The requests that come with a type, the lowest first. -/
def Registry.layers (g : Registry) (t : TypeRef) : List Request :=
  (match t.elem.shape with
    | .record name _ => ((g.record? name).map Record.request).toList
    | _ => []) ++
  g.aliasLayers t.elem.aliases ++ t.ranks.reverse.flatMap fun rank => g.aliasLayers rank.aliases

/-- A request over the preset that it builds on. -/
def Config.overPreset (c : Config) (request : Request) : Except ResolveError Request :=
  match request.preset with
  | none => .ok request
  | some name =>
    match c.preset? name with
    | some preset => .ok (preset.overlay request)
    | none => .error (.unknownPreset name)

/-! ## Settling the kind -/

/-- The kind of an element that nothing is asked about. -/
def Config.defaultKind (c : Config) (elem : Element) : Except ResolveError Kind :=
  match elem.shape with
  | .bool => .ok .boolean
  | .int signed bits =>
    if elem.aliases.any c.boolTypes.contains then .ok .boolean
    else .ok (.integer (.natural signed bits))
  | .float bits => .ok (.buffer (bits / 8) false)
  | .record _ .struct => .ok .struct
  | .record name .union => .error (.untagged name)

/-- The kind under a form, and the extents that are left to walk: a text and a row of bytes take up
the innermost one. -/
def Config.settle (c : Config) (form : Option Form) (elem : Element) (extents : List Nat) :
    Except ResolveError (Kind × List Nat) :=
  match form with
  | none => (c.defaultKind elem).map (·, extents)
  | some (.integer bits range) =>
    match elem.shape with
    | .int signed width =>
      match IntegerRange.ofRequest signed width bits range with
      | .ok found => .ok (.integer found, extents)
      | .error e => .error (.integer e)
    | _ => .error .notInteger
  | some (.text unterminated) =>
    match elem.shape, extents.getLast? with
    | .int false 8, some length =>
      if !unterminated && length = 0 then .error .noTerminator
      else .ok (.text length (!unterminated), extents.dropLast)
    | _, _ => .error .notByteArray
  | some .buffer =>
    match elem.shape, extents.getLast? with
    | .int false 8, some bytes => .ok (.buffer bytes true, extents.dropLast)
    | .int _ bits, _ => .ok (.buffer (bits / 8) false, extents)
    | .float bits, _ => .ok (.buffer (bits / 8) false, extents)
    | _, _ => .error .notBuffer
  | some (.transform t) => .ok (.transformed t, extents)
  | some (.tagged tag internal) =>
    match elem.shape with
    | .record _ .union => .ok (.union tag internal, extents)
    | _ => .error .notUnion

/-- Everything asked about a declaration of a type, with its own request on top. -/
def Config.effective (c : Config) (g : Registry) (own : Option Request) (t : TypeRef) :
    Except ResolveError Request :=
  c.overPreset (Request.overlayAll (g.layers t ++ own.toList))

/-- Settle how a declaration of a type that can be laid out travels. -/
def Config.resolveKnown (c : Config) (g : Registry) (own : Option Request) (t : TypeRef) :
    Except ResolveError Resolution := do
  let request ← c.effective g own t
  let (kind, extents) ←
    if request.omitted then .ok (.omitted, t.extents)
    else c.settle request.form t.elem t.extents
  return ⟨⟨kind, request.default, request.variantId⟩, extents, some t.elem⟩

/-- Settle how a declaration travels. -/
def Config.resolve (c : Config) (g : Registry) (own : Option Request) (type : TypeExpr) :
    Except ResolveError Resolution :=
  match own.filter Request.omitted with
  | some r => .ok ⟨⟨.omitted, r.default, r.variantId⟩, g.extentsOf type, none⟩
  | none =>
    match g.resolveType type, own with
    | .ok t, _ => c.resolveKnown g own t
    | .error e, none => .error (.type e)
    | .error e, some r =>
      match r.form with
      | some (.transform t) => .ok ⟨⟨.transformed t, r.default, r.variantId⟩, [], none⟩
      | _ => .error (.type e)

end BitLayout
