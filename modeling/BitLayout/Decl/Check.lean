import BitLayout.Decl.Basic
import BitLayout.Encoding.Resolve

/-!
# BitLayout.Decl.Check

What a declaration must satisfy beyond its own options.

* The value that a transformed declaration becomes on the wire is a single one that is not left out
  and needs no tag from outside.
* A union with an external tag stands in a struct, behind the scalar field that selects its variant.
* The variants of a union have different ids, and each has one unless it is left out.
* A union with an internal tag and all its variants are laid out as in C. Its variants are structs
  that agree in their leading fields through the tag, which is a scalar.
-/

namespace BitLayout

/-- Why a data object cannot be laid out as declared. -/
inductive DeclError where
  | unresolved (error : ResolveError)
  | recursive (record : String)
  | wireOmitted
  | wireExternal
  | wireArray
  | outsideStruct
  | tagMissing (tag : String)
  | tagBehind (tag : String)
  | tagNotScalar (tag : String)
  | sharedId (union first second : String) (id : Int)
  | missingId (union variant : String)
  | unionNotC (union : String)
  | noVariants (union : String)
  | variantNotC (union variant : String)
  | internalTagMissing (tag variant : String)
  | internalTagNotShared (tag : String)
  | internalTagNotScalar (tag : String)
  | internalTagDiffers (tag variant : String)
deriving DecidableEq, Repr

/-- The wording of an error. -/
def DeclError.message : DeclError → String
  | unresolved e => e.message
  | recursive record => "recursive type `" ++ record ++ "` cannot be serialized"
  | wireOmitted => "a transform's wire type cannot be omitted"
  | wireExternal => "a transform's wire type cannot be an externally tagged union"
  | wireArray => "a transform's wire type cannot be an array"
  | outsideStruct => "an externally tagged union must be a struct field"
  | tagMissing tag => "tag `" ++ tag ++ "` not found among the struct's fields"
  | tagBehind tag => "tag `" ++ tag ++ "` is declared after the union it selects"
  | tagNotScalar tag => "tag `" ++ tag ++ "` must be integer or bool"
  | sharedId union first second id =>
    "union `" ++ union ++ "`: variants `" ++ first ++ "` and `" ++ second ++ "` share id "
      ++ toString id
  | missingId union variant =>
    "union `" ++ union ++ "`: variant `" ++ variant ++ "` is missing `#[bitpack(id = n)]`"
  | unionNotC union => "internally tagged union `" ++ union ++ "` must be `#[repr(C)]`"
  | noVariants union => "internally tagged union `" ++ union ++ "` has no serialized variants"
  | variantNotC union variant =>
    "variant `" ++ variant ++ "` of internally tagged union `" ++ union
      ++ "` must be a `#[repr(C)]` struct"
  | internalTagMissing tag variant =>
    "internal tag `" ++ tag ++ "` not found in variant `" ++ variant ++ "`"
  | internalTagNotShared tag =>
    "internal tag `" ++ tag ++ "` must be within the leading fields shared by every variant"
  | internalTagNotScalar tag => "internal tag `" ++ tag ++ "` must be integer or bool"
  | internalTagDiffers tag variant =>
    "internal tag `" ++ tag ++ "` differs in offset, width or type in variant `" ++ variant ++ "`"

namespace Decl

/-! ## Wire values -/

/-- What is wrong with a value on the wire. -/
def wireFault? (wire : Decl) : Option DeclError :=
  match wire.kind with
  | .omitted => some .wireOmitted
  | .union _ false => some .wireExternal
  | _ => if wire.extents.isEmpty then none else some .wireArray

/-! ## External tags -/

/-- The first declaration of a name, and its position. -/
def locate? (ds : List Decl) (name : String) : Option (Decl × Nat) :=
  ds.zipIdx.find? (·.1.name = name)

/-- What is wrong with the tag of the member at a position. -/
def tagFault? (parent : RecordKind) (members : List Decl) (position : Nat) (member : Decl) :
    Option DeclError :=
  match member.kind with
  | .union tag false =>
    match parent with
    | .union => some .outsideStruct
    | .struct =>
      match locate? members tag with
      | none => some (.tagMissing tag)
      | some (selector, found) =>
        if found > position then some (.tagBehind tag)
        else if selector.isScalar then none
        else some (.tagNotScalar tag)
  | _ => none

/-! ## Variants -/

/-- The first fault in the ids of variants, where `seen` holds those with an id that came before. -/
def idFault? (union : String) (seen : List (Int × String)) : List Decl → Option DeclError
  | [] => none
  | v :: rest =>
    match v.encoding.variantId with
    | some id =>
      match seen.find? (·.1 = id) with
      | some (_, first) => some (.sharedId union first v.name id)
      | none => idFault? union (seen ++ [(id, v.name)]) rest
    | none => if v.isOmitted then idFault? union seen rest else some (.missingId union v.name)

/-- Two fields that look the same in memory and on the wire. -/
def agrees (a b : Decl) : Bool :=
  a.name = b.name && a.type.tokens = b.type.tokens && a.extents = b.extents
    && a.encoding = b.encoding

/-- How many leading fields of two structs agree. -/
def agreeing (a b : List Decl) : Nat := ((a.zip b).takeWhile fun (x, y) => x.agrees y).length

/-- Whether a variant is a struct that is laid out as in C. -/
def isStructInC (g : Registry) (v : Decl) : Bool :=
  v.kind = .struct && v.extents.isEmpty && (v.record?.bind g.record?).any (·.reprC)

/-- Where a field stands among others: the bits in front of it, its own, and what it is. -/
def placeOf (members : List Decl) (position : Nat) : Nat × Option (Nat × Option ElementShape) :=
  (sumBits (members.take position), members[position]?.map fun d => (d.bits, d.shape))

/-- The number of leading fields through the tag, when the variants that are not left out share
them. -/
def internalTag (tag : String) (lead : Decl) (others : List Decl) : Except DeclError Nat :=
  let shared :=
    others.foldl (fun n v => min n (agreeing lead.members v.members)) lead.members.length
  match locate? lead.members tag with
  | none => .error (.internalTagMissing tag lead.name)
  | some (selector, position) =>
    if position ≥ shared then .error (.internalTagNotShared tag)
    else if !selector.isScalar then .error (.internalTagNotScalar tag)
    else
      match others.find? fun v => placeOf v.members position != placeOf lead.members position with
      | some v => .error (.internalTagDiffers tag v.name)
      | none => .ok (position + 1)

/-- Check the variants of a union: the number of leading fields that they share, none for an
external tag. -/
def checkVariants (g : Registry) (union tag : String) (internal : Bool) (variants : List Decl) :
    Except DeclError Nat :=
  match idFault? union [] variants with
  | some e => .error e
  | none =>
    if !internal then .ok 0
    else if !(g.record? union).any (·.reprC) then .error (.unionNotC union)
    else
      match variants.filter (!·.isOmitted) with
      | [] => .error (.noVariants union)
      | lead :: others =>
        match (lead :: others).find? (!·.isStructInC g) with
        | some v => .error (.variantNotC union v.name)
        | none => internalTag tag lead others

end Decl

end BitLayout
