import BitLayout.Proofs.Code.Arms
import BitLayout.Proofs.Decl.Sound

/-!
# BitLayout.Proofs.Code.Elements

What the code for an element of a declaration is made of. Fields are moved one after the other, and
the arms of a choice are those of all variants with an id, in ascending order of the ids:

```
fields(k)       =  value(field k) ++ value(field k + 1) ++ ..
sharedFields    =  value(field 0) ++ .. ++ value(field count - 1),  of the lead variant
variants        =  the arms of the variants, sorted
```

* `Transfer.element_leaf`, `Transfer.element_omitted`: single values are moved at once;
* `Transfer.element_struct` .. `Transfer.element_transformed`: the code for the kinds that have
  something below them;
* `Transfer.fields_flatMap`, `Transfer.leadingFields_flatMap`, `Transfer.sharedFields_lead`: rows of
  fields;
* `Transfer.variants_sorted`, `Transfer.remainders_sorted`: arms.
-/

namespace BitLayout

/-- The place of the tag of an arm. -/
def Arm.tag : Arm → Place
  | mk tag _ _ => tag

/-- What an arm does. -/
def Arm.body : Arm → List Statement
  | mk _ _ body => body

/-- The moves of single values, at whatever place. -/
inductive Move.Single : (Place → Move) → Prop where
  | bool (type : Option TypeExpr) : Single (.bool · type)
  | integer (range : IntegerRange) (type : IntegerType) : Single (.integer · range type)
  | text (bytes : Nat) (terminated : Bool) : Single (.text · bytes terminated)
  | row (bytes : Nat) : Single (.row · bytes)
  | bytes (count : Nat) (type : TypeExpr) : Single (.bytes · count type)

namespace Transfer

variable {aim : Purpose} {d : Decl} {ds : List Decl} {place : Place} {owner : Option Place}
  {n : Nat}

/-! ## one element -/

/-- What is left out gets its default when it is read, and nothing else is done. -/
theorem element_omitted (h : d.isOmitted = true) :
    element aim d place owner n =
      match aim.direction, d.encoding.default with
      | .read, some value => [.move (.default place value.tokens)]
      | _, _ => [] := by
  obtain ⟨info, members, wire⟩ := d
  have hk : info.encoding.kind = .omitted := Decl.isOmitted_iff.1 h
  rw [element, hk]
  rfl

/-- What has nothing below it is left out, or is moved at once, whatever for. -/
theorem element_leaf (hleaf : d.kind.isLeaf = true) (hkept : ∀ t, d.kind ≠ .transformed t) :
    d.isOmitted = true ∨ ∃ m, Move.Single m ∧
      ∀ aim place owner n, element aim d place owner n = [.move (m place)] := by
  obtain ⟨info, members, wire⟩ := d
  change info.encoding.kind.isLeaf = true at hleaf
  change ∀ t, info.encoding.kind ≠ .transformed t at hkept
  cases hk : info.encoding.kind with
  | omitted => exact .inl (Decl.isOmitted_iff.2 hk)
  | boolean => exact .inr ⟨_, .bool info.boolType?, fun _ _ _ _ => by rw [element, hk]⟩
  | integer range =>
    exact .inr ⟨_, .integer range info.integerType, fun _ _ _ _ => by rw [element, hk]⟩
  | text length terminated =>
    exact .inr ⟨_, .text (Kind.textBytes length terminated) terminated,
      fun _ _ _ _ => by rw [element, hk]⟩
  | buffer count row =>
    cases row with
    | true => exact .inr ⟨_, .row count, fun _ _ _ _ => by rw [element, hk]⟩
    | false => exact .inr ⟨_, .bytes count info.type, fun _ _ _ _ => by rw [element, hk]⟩
  | transformed t => exact absurd hk (hkept t)
  | struct =>
    rw [hk] at hleaf
    cases hleaf
  | union tag internal =>
    rw [hk] at hleaf
    cases hleaf

theorem element_struct (hk : d.kind = .struct) :
    element aim d place owner n =
      match aim.structFunctions, d.record? with
      | true, some record => [.move (.record place record)]
      | _, _ => fields aim 0 d.members place n := by
  obtain ⟨info, members, wire⟩ := d
  simp only [element, show info.encoding.kind = .struct from hk]
  rfl

theorem element_external {tag : String} {o : Place} (hk : d.kind = .union tag false) :
    element aim d place (some o) n = Statement.chosen
      (variants aim (Decl.maxBits d.members) (.field o tag false) d.members place n) := by
  obtain ⟨info, members, wire⟩ := d
  simp only [element, show info.encoding.kind = .union tag false from hk]
  rfl

theorem element_external_none {tag : String} (hk : d.kind = .union tag false) :
    element aim d place none n = [] := by
  obtain ⟨info, members, wire⟩ := d
  simp only [element, show info.encoding.kind = .union tag false from hk]

theorem element_internal {tag : String} (hk : d.kind = .union tag true) :
    element aim d place owner n =
      sharedFields aim d.sharedFields d.members place n ++ Statement.chosen
        (remainders aim d.sharedFields (Decl.maxBits d.members) d.leadVariant? d.members place
          n) := by
  obtain ⟨info, members, wire⟩ := d
  simp only [element, show info.encoding.kind = .union tag true from hk]
  rfl

theorem element_transformed {t : Transform} (hk : d.kind = .transformed t) :
    element aim d place owner n = onWire aim t d.wire place n := by
  obtain ⟨info, members, wire⟩ := d
  simp only [element, show info.encoding.kind = .transformed t from hk]
  rfl

/-! ## fields -/

theorem fields_flatMap (skipped : Nat) :
    fields aim skipped ds place n = (ds.drop skipped).flatMap fun d =>
      value aim d (.field place d.name false) (some place) n := by
  induction ds generalizing skipped with
  | nil => rw [fields, List.drop_nil, List.flatMap_nil]
  | cons d ds ih =>
    cases skipped with
    | zero =>
      rw [fields, ih, List.drop_zero, List.drop_zero, List.flatMap_cons]
      rfl
    | succ skipped => rw [fields, ih, List.drop_succ_cons]

theorem leadingFields_flatMap (count : Nat) :
    leadingFields aim count ds place n = (ds.take count).flatMap fun d =>
      value aim d (.field place d.name false) (some place) n := by
  induction ds generalizing count with
  | nil => cases count <;> rfl
  | cons d ds ih =>
    cases count with
    | zero => rfl
    | succ count =>
      rw [leadingFields, ih]
      rfl

/-- The shared fields are those of the first variant that is not left out. -/
theorem sharedFields_lead (count : Nat) :
    sharedFields aim count ds place n = (ds.find? (!·.isOmitted)).elim [] fun lead =>
      leadingFields aim count lead.members (.field place lead.name true) n := by
  induction ds with
  | nil => rfl
  | cons v ds ih =>
    obtain ⟨info, members, wire⟩ := v
    rw [sharedFields, List.find?_cons, Decl.isOmitted, Decl.encoding, Decl.info]
    cases info.encoding.isOmitted with
    | true => exact ih
    | false => rfl

/-! ## arms -/

/-- The arm that moves a variant whole, if it has an id. -/
def wholeArm? (aim : Purpose) (bits : Nat) (tag place : Place) (n : Nat) (v : Decl) : Option Arm :=
  v.encoding.variantId.map fun id =>
    .mk tag id (value aim v (.field place v.name true) (some place) n ++
      Statement.padding (bits - v.bits))

/-- The tag of a variant is one of its own fields, or a field of the lead variant if the variant is
left out. -/
def tagOf (place : Place) (count : Nat) (lead v : Decl) : Place :=
  let owner := if v.isOmitted then lead else v
  tagPlace (.field place owner.name true) count owner.members

/-- The arm that moves the fields of a variant behind the shared ones, if it has an id. -/
def restArm? (aim : Purpose) (count bits : Nat) (lead : Decl) (place : Place) (n : Nat) (v : Decl) :
    Option Arm :=
  v.encoding.variantId.map fun id =>
    let used := Decl.sumBits (lead.members.take count) + Decl.sumBits (v.members.drop count)
    .mk (tagOf place count lead v) id
      (fields aim count v.members (.field place v.name true) n ++ Statement.padding (bits - used))

theorem variants_sorted (bits : Nat) (tag : Place) :
    variants aim bits tag ds place n =
      sortBy Arm.value (ds.filterMap (wholeArm? aim bits tag place n)) := by
  induction ds with
  | nil => rfl
  | cons v ds ih =>
    rw [variants, ih, List.filterMap_cons, wholeArm?]
    cases v.encoding.variantId with
    | none => rfl
    | some id => exact Arm.insert_eq _ _

theorem remainders_sorted (count bits : Nat) (lead : Decl) :
    remainders aim count bits (some lead) ds place n =
      sortBy Arm.value (ds.filterMap (restArm? aim count bits lead place n)) := by
  induction ds with
  | nil => rfl
  | cons v ds ih =>
    obtain ⟨info, members, wire⟩ := v
    rw [List.filterMap_cons, restArm?, tagOf, Decl.isOmitted, Decl.encoding, Decl.info]
    cases hid : info.encoding.variantId with
    | none => simp only [remainders, hid, ih, Option.map_none]
    | some id =>
      simp only [remainders, hid, ih, Arm.insert_eq, Option.map_some]
      cases info.encoding.isOmitted <;> rfl

/-- Without a lead variant, there are no arms. -/
theorem remainders_none (count bits : Nat) : remainders aim count bits none ds place n = [] := by
  induction ds with
  | nil => rfl
  | cons v ds ih =>
    obtain ⟨info, members, wire⟩ := v
    cases hid : info.encoding.variantId <;> simp only [remainders, hid, ih]

end Transfer

end BitLayout
