import BitLayout.Code.Statement

/-!
# BitLayout.Code.Transfer

The statements that move a declaration between a place and the stream, with everything below it.

The variants of a union become the arms of a choice, in ascending order of their ids. Behind the
fields of a variant, an arm moves as many bits without meaning as the variant is shorter than the
union.
-/

namespace BitLayout

/-- What statements are made for. -/
structure Purpose where
  direction : Direction
  /-- Whether a struct that is moved whole is left to the function of its record. -/
  structFunctions : Bool
deriving DecidableEq, Repr

namespace DeclInfo

/-- The type of an integer. -/
def integerType (d : DeclInfo) : IntegerType :=
  match d.shape with
  | some (.int signed bits) => ⟨signed, bits, d.type.tokens⟩
  | _ => { IntegerType.wide with name := d.type.tokens }

/-- The type of an integer that holds a truth value. -/
def boolType? (d : DeclInfo) : Option TypeExpr := if d.shape = some .bool then none else some d.type

/-- The record that an element is. -/
def record? (d : DeclInfo) : Option String :=
  match d.shape with
  | some (.record name _) => some name
  | _ => none

end DeclInfo

/-- The field of a struct that holds the tag of its variants. -/
def tagPlace (variant : Place) (sharedFields : Nat) (members : List Decl) : Place :=
  .field variant (members[sharedFields - 1]?.elim "" Decl.name) false

namespace Transfer

mutual

/-- Move one element at a place. Its owner is the element of a record that the place is a field of;
`number` loops and locals are around it. -/
def element (aim : Purpose) :
    Decl → Place → (owner : Option Place) → (number : Nat) → List Statement
  | .mk info members wire, place, owner, number =>
    match info.encoding.kind with
    | .omitted =>
      match aim.direction, info.encoding.default with
      | .read, some value => [.move (.default place value.tokens)]
      | _, _ => []
    | .boolean => [.move (.bool place info.boolType?)]
    | .integer range => [.move (.integer place range info.integerType)]
    | .text length terminated => [.move (.text place (Kind.textBytes length terminated) terminated)]
    | .buffer count true => [.move (.row place count)]
    | .buffer count false => [.move (.bytes place count info.type)]
    | .transformed t => onWire aim t wire place number
    | .struct =>
      match aim.structFunctions, info.record? with
      | true, some record => [.move (.record place record)]
      | _, _ => fields aim 0 members place number
    | .union tag false =>
      match owner with
      | some owner =>
        Statement.chosen (variants aim (Decl.maxBits members) (.field owner tag false) members place
          number)
      | none => []
    | .union _ true =>
      sharedFields aim info.sharedFields members place number ++
        Statement.chosen (remainders aim info.sharedFields (Decl.maxBits members)
          (members.find? (!·.isOmitted)) members place number)

/-- Move what a value becomes on the wire. -/
def onWire (aim : Purpose) (t : Transform) : Option Decl → Place → (number : Nat) → List Statement
  | none, _, _ => []
  | some d, place, number =>
    [.wire number t place
      (Statement.overRanks d.extents (number + 1) (.wire number)
        fun place number => element aim d place none number)]

/-- Move the fields of a struct behind the first `skipped` ones. -/
def fields (aim : Purpose) : (skipped : Nat) → List Decl → Place → (number : Nat) → List Statement
  | _, [], _, _ => []
  | 0, d :: rest, place, number =>
    Statement.overRanks d.extents number (.field place d.name false)
      (fun field number => element aim d field (some place) number) ++
    fields aim 0 rest place number
  | skipped + 1, _ :: rest, place, number => fields aim skipped rest place number

/-- Move the first `count` fields of a struct. -/
def leadingFields (aim : Purpose) :
    (count : Nat) → List Decl → Place → (number : Nat) → List Statement
  | 0, _, _, _ => []
  | _, [], _, _ => []
  | count + 1, d :: rest, place, number =>
    Statement.overRanks d.extents number (.field place d.name false)
      (fun field number => element aim d field (some place) number) ++
    leadingFields aim count rest place number

/-- Move the fields that all variants share, as those of the first variant that is not left out. -/
def sharedFields (aim : Purpose) (count : Nat) :
    List Decl → Place → (number : Nat) → List Statement
  | [], _, _ => []
  | .mk info members _ :: rest, place, number =>
    if info.encoding.isOmitted then sharedFields aim count rest place number
    else leadingFields aim count members (.field place info.name true) number

/-- The arms that move variants whole. -/
def variants (aim : Purpose) (bits : Nat) (tag : Place) :
    List Decl → Place → (number : Nat) → List Arm
  | [], _, _ => []
  | v :: rest, place, number =>
    let others := variants aim bits tag rest place number
    match v.encoding.variantId with
    | none => others
    | some id =>
      Arm.insert (.mk tag id
        (Statement.overRanks v.extents number (.field place v.name true)
            (fun field number => element aim v field (some place) number) ++
          Statement.padding (bits - v.bits)))
        others

/-- The arms that move the fields of variants behind the shared ones. -/
def remainders (aim : Purpose) (count bits : Nat) (lead : Option Decl) :
    List Decl → Place → (number : Nat) → List Arm
  | [], _, _ => []
  | .mk info members _ :: rest, place, number =>
    let others := remainders aim count bits lead rest place number
    match info.encoding.variantId, lead with
    | some id, some lead =>
      let variant := Place.field place info.name true
      let tag :=
        if info.encoding.isOmitted then
          tagPlace (.field place lead.name true) count lead.members
        else tagPlace variant count members
      let used := Decl.sumBits (lead.members.take count) + Decl.sumBits (members.drop count)
      Arm.insert (.mk tag id
        (fields aim count members variant number ++ Statement.padding (bits - used)))
        others
    | _, _ => others

end

/-- Move a declaration at a place that is a field of `owner`. -/
def value (aim : Purpose) (d : Decl) (place : Place) (owner : Option Place) (number : Nat) :
    List Statement :=
  Statement.overRanks d.extents number place fun place number => element aim d place owner number

end Transfer

end BitLayout
