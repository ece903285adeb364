import BitLayout.Item.Basic

/-!
# BitLayout.Item.Split

Taking an item apart, one level at a time: a slice or an array rank into its elements, a struct into
its members, a union into what all variants share and one branch for each variant that has an id.

Every branch of a union takes as many bits as the union, behind the shared fields: where a variant
is shorter, the rest of the branch is slack, and is filled by padding.

* With an external tag nothing is shared, and a branch holds the variant whole.
* With an internal tag, the shared fields are those of the first variant that is not left out. A
  branch holds the other fields of its variant, and is tested by the variant's own copy of the tag;
  a variant that is left out is tested by the copy of the first one.
-/

namespace BitLayout

/-- The part of a union that travels for one variant. -/
structure Branch where
  /-- The conditions of everything in the branch. -/
  conditions : List Condition
  parts : List Item
  /-- The bits that are left behind the parts. -/
  slack : Nat

namespace Branch

/-- The parts of a branch, with padding behind them. -/
def items (b : Branch) : List Item :=
  b.parts ++ if b.slack = 0 then [] else [.padding b.conditions b.slack false]

end Branch

/-- What an item is taken apart into. -/
inductive Split where
  /-- Parts one after the other. -/
  | row (parts : List Item)
  | union (shared : List Item) (branches : List Branch)

namespace Split

/-- Everything in order. -/
def items : Split → List Item
  | row parts => parts
  | union shared branches => shared ++ branches.flatMap Branch.items

end Split

namespace Item

/-- The conditions of an item and one more. -/
def under (conditions : List Condition) (union tag : Path) (value : Int) : List Condition :=
  conditions ++ [⟨union, tag, value⟩]

/-- The bits of items in a row. -/
def sumBits : List Item → Nat
  | [] => 0
  | i :: rest => i.bits + sumBits rest

/-- Take a union with an external tag apart. -/
def splitExternal (conditions : List Condition) (p : Path) (tag : Path) : Split :=
  .union [] <| p.last.decl.members.filterMap fun v =>
    v.encoding.variantId.map fun id =>
      let conditions := under conditions p tag id
      let item : Item := ⟨conditions, .value (p.member v)⟩
      ⟨conditions, if item.isOmitted && !item.isDefaulted then [] else [item],
        p.last.bits - item.bits⟩

/-- Take a union with an internal tag apart, where `lead` is the variant through which the shared
fields are moved. -/
def splitInternal (conditions : List Condition) (p : Path) (lead : Decl) : Split :=
  let count := p.last.decl.sharedFields
  let shared := (lead.members.take count).map fun m =>
    (⟨conditions, .value ((p.member lead).member m)⟩ : Item)
  .union shared <| p.last.decl.members.filterMap fun v =>
    let owner := if v.isOmitted then lead else v
    match v.encoding.variantId, owner.members[count - 1]? with
    | some id, some tag =>
      let conditions := under conditions p ((p.member owner).member tag) id
      let parts := (v.members.drop count).map fun m =>
        (⟨conditions, .value ((p.member v).member m)⟩ : Item)
      some ⟨conditions, parts, p.last.bits - (sumBits shared + sumBits parts)⟩
    | _, _ => none

/-- Take one element apart. -/
def splitElement? (conditions : List Condition) (p : Path) : Option Split :=
  match p.last.decl.kind with
  | .struct => some (.row (p.last.decl.members.map fun m => ⟨conditions, .value (p.member m)⟩))
  | .union tag false =>
    (p.owners.getLast?.bind (·.decl.member? tag)).map fun selector =>
      splitExternal conditions p (p.sibling selector)
  | .union _ true => p.last.decl.leadVariant?.map (splitInternal conditions p)
  | _ => none

/-- Take an item apart, unless it is padding, left out, or of a kind without parts. -/
def split? (i : Item) : Option Split :=
  match i.content with
  | .padding _ _ => none
  | .value p =>
    if p.last.decl.isOmitted then none
    else
      match p.last.slice?, p.last.remaining with
      | some slice, _ =>
        some (.row (slice.singles.map fun a =>
          ⟨i.conditions, .value (p.withAccesses (p.last.accesses.dropLast ++ [a]))⟩))
      | none, extent :: _ =>
        some (.row ((Access.mk 0 extent).singles.map fun a => ⟨i.conditions, .value (p.access a)⟩))
      | none, [] => splitElement? i.conditions p

/-- Whether an item can be taken apart. -/
def canSplit (i : Item) : Bool := i.split?.isSome

/-- The parts of an item, or the item itself if it has none. -/
def expand (i : Item) : List Item := i.split?.elim [i] Split.items

end Item

end BitLayout
