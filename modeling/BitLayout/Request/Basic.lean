import BitLayout.Source.TypeExpr

/-!
# BitLayout.Request.Basic

What one set of options asks for: a request. Requests come from fields, records, aliases and
presets, and are laid over each other, the more specific one on top (`overlay`).

A request names at most one form, the part that belongs to a kind of value. Under `overlay` the two
keys of the integer form merge one by one, while any other form replaces the one below it whole.
-/

namespace BitLayout

/-- A value that travels as another type: the type on the wire, and the functions that lead there
and back. -/
structure Transform where
  wire : TypeExpr
  prePack : Fragment
  postUnpack : Fragment
deriving DecidableEq, Repr

/-- The part of a request that belongs to one kind of value. -/
inductive Form where
  /-- The bytes of the value as they are. -/
  | buffer
  | integer (bits : Option Nat) (range : Option (Int × Int))
  | text (unterminated : Bool)
  | transform (t : Transform)
  /-- A union whose variant another field selects: a field of the struct around it, or, for an
  internal tag, one that all variants begin with. -/
  | tagged (tag : String) (internal : Bool)
deriving DecidableEq, Repr

/-- The name of a form in messages. -/
def Form.title : Form → String
  | buffer => "opaque buffer"
  | integer _ _ => "integer"
  | text _ => "string"
  | transform _ => "transform"
  | tagged _ _ => "tagged union"

/-- One set of options. -/
structure Request where
  omitted : Bool
  default : Option Fragment
  /-- The tag value that selects a variant. -/
  variantId : Option Int
  /-- The preset that the request builds on. -/
  preset : Option String
  form : Option Form
deriving DecidableEq, Repr

namespace Request

/-- The request that asks for nothing. -/
def empty : Request := ⟨false, none, none, none, none⟩

instance : Inhabited Request := ⟨empty⟩

end Request

/-- One form over another. -/
def Form.overlay : Form → Form → Form
  | integer bits range, integer bits' range' => integer (bits'.or bits) (range'.or range)
  | _, upper => upper

namespace Request

/-- One request over another: what the upper one states wins. -/
def overlay (lower upper : Request) : Request where
  omitted := lower.omitted || upper.omitted
  default := upper.default.or lower.default
  variantId := upper.variantId.or lower.variantId
  preset := upper.preset.or lower.preset
  form :=
    match lower.form, upper.form with
    | some l, some u => some (l.overlay u)
    | l, u => u.or l

/-- Requests laid over each other, the lowest first. -/
def overlayAll (layers : List Request) : Request := layers.foldl overlay empty

theorem empty_overlay (r : Request) : empty.overlay r = r := by
  rcases r with ⟨omitted, default, id, preset, form⟩
  cases default <;> cases id <;> cases preset <;> cases form <;> rfl

theorem overlay_empty (r : Request) : r.overlay empty = r := by
  rcases r with ⟨omitted, default, id, preset, form⟩
  cases form <;> simp [overlay, empty]

end Request

end BitLayout
