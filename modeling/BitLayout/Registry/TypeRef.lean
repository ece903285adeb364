import BitLayout.Registry.Basic

/-!
# BitLayout.Registry.TypeRef

What a written type stands for: array ranks, outermost first, and an element that is a primitive or
a record. Parentheses and invisible groups are looked through. A bare name is a primitive first,
then a record, then an alias, which stands for its target. The aliases passed through are remembered
at the level they were passed at, since their options take part in the layout.

Unfolding takes at most `maxDepth` aliases and ranks, so that cyclic aliases are refused.
-/

namespace BitLayout

/-- What an element can be. -/
inductive ElementShape where
  | bool
  | int (signed : Bool) (bits : Nat)
  | float (bits : Nat)
  | record (name : String) (kind : RecordKind)
deriving DecidableEq, Repr

/-- One level of an array: the type as written at this level, the aliases passed through to reach
it, nearest first, and the number of elements. -/
structure Rank where
  type : TypeExpr
  aliases : List String
  extent : Nat
deriving DecidableEq, Repr

/-- What is left when all ranks are peeled off. -/
structure Element where
  type : TypeExpr
  aliases : List String
  shape : ElementShape
deriving DecidableEq, Repr

/-- A type that can be laid out. -/
structure TypeRef where
  ranks : List Rank
  elem : Element
deriving DecidableEq, Repr

namespace TypeRef

/-- The extents, outermost first. -/
def extents (t : TypeRef) : List Nat := t.ranks.map Rank.extent

/-- The type as it is reached through one more alias: the outermost level is now written as the
name of the alias. -/
def throughAlias (name : String) (t : TypeRef) : TypeRef :=
  match t.ranks with
  | rank :: inner =>
    { t with ranks := { rank with type := .name name, aliases := name :: rank.aliases } :: inner }
  | [] => { t with elem := { t.elem with type := .name name, aliases := name :: t.elem.aliases } }

/-- An array of such values. -/
def array (type : TypeExpr) (extent : Nat) (t : TypeRef) : TypeRef :=
  { t with ranks := ⟨type, [], extent⟩ :: t.ranks }

end TypeRef

/-- Why a type cannot be laid out. -/
inductive TypeError where
  | tooDeep
  | unsupported
  | unknownName (name : String)
  | lengthNotLiteral
  | lengthTooLarge
deriving DecidableEq, Repr

/-- The wording of an error. -/
def TypeError.message : TypeError → String
  | tooDeep => "type alias chain is too deep or cyclic"
  | unsupported =>
    "bitpack: unsupported type; expected a primitive, an array, or a type declared in this module"
  | unknownName name =>
    "`" ++ name ++ "` is neither a supported primitive nor a type declared in this module"
  | lengthNotLiteral => "array length must be an integer literal"
  | lengthTooLarge => "number too large to fit in target type"

/-- The number of elements that the length of an array states: one integer literal of 64 bits. -/
def arrayExtent (length : ArrayLength) : Except TypeError Nat :=
  match length.literal?.bind integerMagnitude? with
  | some n => if n < patterns 64 then .ok n else .error .lengthTooLarge
  | none => .error .lengthNotLiteral

/-- The primitive of a name. -/
def ElementShape.primitive? (name : String) : Option ElementShape :=
  match name with
  | "bool" => some .bool
  | "u8" => some (.int false 8)
  | "u16" => some (.int false 16)
  | "u32" => some (.int false 32)
  | "u64" => some (.int false 64)
  | "i8" => some (.int true 8)
  | "i16" => some (.int true 16)
  | "i32" => some (.int true 32)
  | "i64" => some (.int true 64)
  | "f32" => some (.float 32)
  | "f64" => some (.float 64)
  | _ => none

namespace Registry

/-- The most aliases and ranks that a type may be unfolded through. -/
def maxDepth : Nat := 32

/-- Unfold a type. One unit of `budget` is spent for each alias and rank, and one for the end. -/
def unfold (g : Registry) : (budget : Nat) → TypeExpr → Except TypeError TypeRef
  | 0, _ => .error .tooDeep
  | budget + 1, type =>
    match type.unwrapped with
    | .array elem length => do
      let extent ← arrayExtent length
      let inner ← unfold g budget elem
      return inner.array (.array elem length) extent
    | .name name =>
      match ElementShape.primitive? name with
      | some shape => .ok ⟨[], .name name, [], shape⟩
      | none =>
        match g.record? name with
        | some record => .ok ⟨[], .name name, [], .record name record.kind⟩
        | none =>
          match g.alias? name with
          | some found => (unfold g budget found.target).map (TypeRef.throughAlias name)
          | none => .error (.unknownName name)
    | _ => .error .unsupported

/-- What a type stands for. -/
def resolveType (g : Registry) (type : TypeExpr) : Except TypeError TypeRef :=
  g.unfold (maxDepth + 1) type

/-- The extents that an array type states itself, `none` if one is no literal. -/
def writtenExtents? : TypeExpr → Option (List Nat)
  | .array elem length =>
    match arrayExtent length with
    | .ok n => (writtenExtents? elem).map (n :: ·)
    | .error _ => none
  | _ => some []

/-- The extents of a type, outermost first. Of a type that cannot be laid out, those that it states
itself. -/
def extentsOf (g : Registry) (type : TypeExpr) : List Nat :=
  match g.resolveType type with
  | .ok t => t.extents
  | .error _ => (writtenExtents? type).getD []

end Registry

end BitLayout
