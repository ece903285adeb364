import BitLayout.Proofs.Code.Formulas
import BitLayout.Proofs.Code.Trace
import BitLayout.Proofs.Decl.Agreement

/-!
# BitLayout.Proofs.Code.Selection

Whether the variant that is saved is the variant that is read. A tag is stored like any other field:
an integer is clamped to its range, and a truth value tells zero from everything else. The ids of
variants are not compared with what the tag can hold, so an id outside of its range comes back as
another number, and another arm is taken, or none:

```
kind : 2 bits                ids 0 and 7                7  ~>  3
```

For every other id the tag comes back as it was, and both halves of the code take the arm of the
variant.

Main statement: `selectsAgain_of_build`.
-/

namespace BitLayout

/-! ## tags -/

namespace Decl

/-- The number that comes back from the wire when it is saved as a declaration, which must be a
scalar. -/
def restored? (d : Decl) (n : Int) : Option Int :=
  match d.kind with
  | .boolean => some (if n = 0 then 0 else 1)
  | .integer range => some (range.restored d.info.integerType n)
  | _ => none

/-- The numbers that a scalar can hold on the wire. -/
def Admits (d : Decl) (n : Int) : Prop :=
  match d.kind with
  | .boolean => n = 0 ∨ n = 1
  | .integer range => range.min ≤ n ∧ n ≤ range.max
  | _ => False

variable {c : Config} {g : Registry} {d : Decl} {n : Int}

/-- A declaration that travels as an integer is one, with a valid range. -/
theorem Faithful.integer (h : d.Faithful c g) {range : IntegerRange}
    (hk : d.kind = .integer range) : ∃ signed width,
      d.info.integerType = ⟨signed, width, d.type.tokens⟩ ∧ width ≤ 64 ∧
        range.Valid signed width := by
  obtain ⟨type, own, -, r, hr, hsettled⟩ := h.asked
  have hkind : r.encoding.kind = .integer range := hsettled.encoding ▸ hk
  obtain ⟨signed, width, hshape, hwidth, hvalid⟩ := Config.integer_of_resolve hr hkind
  have hinfo : d.info.shape = some (.int signed width) := hsettled.shape.trans hshape
  refine ⟨signed, width, ?_, hwidth, hvalid⟩
  rw [DeclInfo.integerType, hinfo]
  rfl

/-- A scalar brings back exactly the numbers that it can hold. -/
theorem restored?_eq_some_iff (h : d.Faithful c g) : d.restored? n = some n ↔ d.Admits n := by
  unfold restored? Admits
  cases hk : d.kind with
  | boolean =>
    by_cases hzero : n = 0
    · simp [hzero]
    · simp [hzero, eq_comm]
  | integer range =>
    obtain ⟨signed, width, htype, hwidth, hvalid⟩ := h.integer hk
    simp only [htype, Option.some.injEq]
    exact IntegerRange.restored_eq_self_iff hvalid hwidth _
  | _ => simp

/-- What a scalar can hold is at least the least number of 64 bits. -/
theorem Admits.ge (h : d.Admits n) (hd : d.Faithful c g) : -(patterns 63 : Int) ≤ n := by
  have hpos := patterns_pos 63
  unfold Admits at h
  cases hk : d.kind with
  | boolean =>
    simp only [hk] at h
    omega
  | integer range =>
    simp only [hk] at h
    obtain ⟨signed, width, -, hwidth, hvalid⟩ := hd.integer hk
    have hlow : -(patterns 63 : Int) ≤ (IntegerRange.natural signed width).min :=
      IntegerRange.natural_min_le signed hwidth
    have hwithin := hvalid.within
    omega
  | _ => simp [hk] at h

end Decl

/-! ## arms -/

/-- The type in which a tag is compared with an id. -/
def IntegerType.compared : IntegerType := ⟨true, 64, [.ident "i64"]⟩

/-- An arm is open for a value of its tag. -/
def Arm.isOpen (t : Int) (a : Arm) : Bool := IntegerType.compared.wrap t = a.value

namespace Decl

/-- The arms between which one half of the code chooses for an element of a union. -/
def arms (u : Decl) (aim : Purpose) (owner place : Place) (k : Nat) : List Arm :=
  match u.kind with
  | .union tag false =>
    Transfer.variants aim (maxBits u.members) (.field owner tag false) u.members place k
  | .union _ true =>
    Transfer.remainders aim u.sharedFields (maxBits u.members) u.leadVariant? u.members place k
  | _ => []

/-- The id of the arm that is taken for a value of the tag: the first one that is open. -/
def taken? (u : Decl) (aim : Purpose) (owner place : Place) (k : Nat) (t : Int) : Option Int :=
  ((u.arms aim owner place k).find? (·.isOpen t)).map Arm.value

end Decl

namespace Transfer

variable {aim : Purpose} {place owner : Place} {k : Nat} {ds : List Decl}

theorem value_insert (a : Arm) (arms : List Arm) :
    (a.insert arms).map Arm.value = insertBy id a.value (arms.map Arm.value) := by
  have hkey : ∀ arm : Arm, id arm.value = arm.value := fun _ => rfl
  rw [Arm.insert_eq]
  exact map_insertBy hkey a arms

/-- The arms for whole variants stand in the order of their ids. -/
theorem values_variants (bits : Nat) (tag : Place) :
    (variants aim bits tag ds place k).map Arm.value =
      sortBy id (ds.filterMap (·.encoding.variantId)) := by
  induction ds with
  | nil => rfl
  | cons v ds ih =>
    rw [variants, List.filterMap_cons]
    cases hid : v.encoding.variantId with
    | none => exact ih
    | some n =>
      dsimp only
      rw [value_insert, ih]
      rfl

/-- The arms for the rest of variants stand in the order of their ids. -/
theorem values_remainders (count bits : Nat) (lead : Decl) :
    (remainders aim count bits (some lead) ds place k).map Arm.value =
      sortBy id (ds.filterMap (·.encoding.variantId)) := by
  induction ds with
  | nil => rfl
  | cons v ds ih =>
    obtain ⟨info, members, wire⟩ := v
    rw [List.filterMap_cons]
    cases hid : info.encoding.variantId with
    | none => simpa [remainders, hid, Decl.encoding, Decl.info] using ih
    | some n =>
      simp only [remainders, hid, Decl.encoding, Decl.info]
      rw [value_insert, ih]
      rfl

end Transfer

namespace Decl

variable {c : Config} {g : Registry} {records : List (String × List Decl)} {u s : Decl}
  {tag : String} {internal : Bool} {n : Int} {aim : Purpose} {owner place : Place} {k : Nat}

/-- The arms of a union stand in the order of the ids of its variants. -/
theorem Sound.values_arms (h : u.Sound g records) (hk : u.kind = .union tag internal) :
    (u.arms aim owner place k).map Arm.value = sortBy id u.variantIds := by
  unfold arms
  rw [hk]
  cases internal with
  | true =>
    obtain ⟨lead, hshared⟩ := (h.union tag true hk).shared_of_internal
    dsimp only
    rw [hshared.found]
    exact Transfer.values_remainders _ _ lead
  | false => exact Transfer.values_variants _ _

/-- Which arm is taken depends on the ids of the variants. -/
theorem Sound.taken?_eq (h : u.Sound g records) (hk : u.kind = .union tag internal) (t : Int) :
    u.taken? aim owner place k t =
      (sortBy id u.variantIds).find? (IntegerType.compared.wrap t = ·) := by
  rw [← h.values_arms hk, List.find?_map]
  rfl

/-- For an id that can be compared, the arm of its variant is taken. -/
theorem Sound.taken?_of_mem (h : u.Sound g records) (hk : u.kind = .union tag internal)
    (hn : n ∈ u.variantIds) (hwrap : IntegerType.compared.wrap n = n) :
    u.taken? aim owner place k n = some n := by
  have hnodup : (u.variantIds.map id).Nodup := by
    simpa using (h.union tag internal hk).variantIds_nodup
  have hmem : n ∈ sortBy id u.variantIds := (perm_sortBy hnodup).mem_iff.2 hn
  rw [h.taken?_eq hk, hwrap]
  cases hfind : (sortBy id u.variantIds).find? (n = ·) with
  | none =>
    have hnone := List.find?_eq_none.1 hfind n hmem
    simp at hnone
  | some x =>
    have hx : n = x := by simpa using List.find?_some hfind
    rw [hx]

/-! ## selecting again -/

/-- What becomes of an id of a union on its way to the wire and back through the tag. -/
structure SelectsAgain (u s : Decl) (n : Int) : Prop where
  /-- The tag comes back as the id if and only if it can hold it. -/
  restored : s.restored? n = some n ↔ s.Admits n
  /-- Then the half that reads takes the arm that the half that saves has taken. -/
  same : s.Admits n → ∀ t, s.restored? n = some t → ∀ functions owner place k,
    u.taken? ⟨.read, functions⟩ owner place k t = u.taken? ⟨.save, functions⟩ owner place k n
  /-- That is the arm of the id. Ids are read as signed numbers of 64 bits. -/
  own : s.Admits n → n < patterns 63 → ∀ aim owner place k, u.taken? aim owner place k n = some n

/-- An id is selected again through a tag that can hold it. -/
theorem selectsAgain (hu : u.Sound g records) (hk : u.kind = .union tag internal)
    (hs : s.Faithful c g) (hn : n ∈ u.variantIds) : u.SelectsAgain s n where
  restored := restored?_eq_some_iff hs
  same hadmits t ht functions owner place k := by
    rw [(restored?_eq_some_iff hs).2 hadmits, Option.some.injEq] at ht
    rw [hu.taken?_eq hk, hu.taken?_eq hk, ht]
  own hadmits hlt aim owner place k := by
    have hge := hadmits.ge hs
    have hle : n ≤ patterns 63 - 1 := Int.le_sub_one_of_lt hlt
    exact hu.taken?_of_mem hk hn (IntegerType.wrap_of_mem (by decide) hge hle)

end Decl

/-! ## the tags of a model -/

/-- A declaration is a data object or stands below one. -/
def Model.Reaches (m : Model) (d : Decl) : Prop := ∃ r ∈ m.roots, d.Below r

/-- The tag of a union that is reached: the field of its name in the struct around the union, or the
last field that a variant shares with the others. -/
inductive Model.Tags (m : Model) : Decl → Decl → Prop where
  | external {owner u s : Decl} {tag : String} (howner : m.Reaches owner) (hu : u ∈ owner.members)
    (hk : u.kind = .union tag false) (hs : owner.member? tag = some s) : Tags m u s
  | internal {u v s : Decl} {tag : String} (hu : m.Reaches u) (hk : u.kind = .union tag true)
    (hv : v ∈ u.members) (homit : v.isOmitted = false)
    (hs : v.members[u.sharedFields - 1]? = some s) : Tags m u s

namespace Model

variable {c : Config} {g : Registry} {m : Model} {u s : Decl} {tag : String} {internal : Bool}

theorem Reaches.declares {d : Decl} (h : m.Reaches d) : m.Declares d := .inl h

theorem Reaches.member {d e : Decl} (h : m.Reaches d) (he : e ∈ d.members) : m.Reaches e := by
  obtain ⟨r, hr, hbelow⟩ := h
  exact ⟨r, hr, Decl.Below.trans (.member he (.refl e)) hbelow⟩

/-- A tag is reached. -/
theorem Tags.reaches (h : m.Tags u s) : m.Reaches s := by
  cases h with
  | external howner _ _ hs => exact howner.member (List.mem_of_find?_eq_some hs)
  | internal hu _ hv _ hs => exact (hu.member hv).member (List.mem_of_getElem? hs)

/-- The struct around a union that needs a tag from outside has the tag, which is a scalar. -/
theorem selector_of_member (h : Model.build c g = some m) (he : m.errors = []) {owner : Decl}
    (howner : m.Reaches owner) (hu : u ∈ owner.members) (hk : u.kind = .union tag false) :
    ∃ s, owner.member? tag = some s ∧ s.isScalar = true := by
  have hext : u.isExternal = true := by
    rw [Decl.isExternal, hk]
  have hsound := (howner.declares.sound h he).self
  have hstruct := hsound.struct (hsound.struct_of_external hu hext)
  obtain ⟨k, hget⟩ := List.mem_iff_getElem?.1 hu
  obtain ⟨-, s, -, -, hs, hscalar⟩ := hstruct.selector_of_external hget hk
  exact ⟨s, hs, hscalar⟩

/-- A tag is a scalar. -/
theorem Tags.isScalar (h : Model.build c g = some m) (he : m.errors = []) (hs : m.Tags u s) :
    s.isScalar = true := by
  cases hs with
  | external howner hu hk hs =>
    obtain ⟨s', hs', hscalar⟩ := selector_of_member h he howner hu hk
    rw [hs, Option.some.injEq] at hs'
    exact hs' ▸ hscalar
  | internal hu hk hv homit hs =>
    obtain ⟨s', hs', -, hkind, hextents⟩ :=
      (Decl.tagShared (hu.declares.honest h he) hk).tag _ hv homit
    rw [hs, Option.some.injEq] at hs'
    subst hs'
    rw [Decl.isScalar_iff]
    rcases hkind with hkind | ⟨range, hkind⟩ <;> simp [hkind, hextents, Kind.isScalar]

/-- A union that needs a tag from outside is a member of a struct, which has the tag. -/
theorem exists_tag_of_external (h : Model.build c g = some m) (he : m.errors = [])
    (hu : m.Reaches u) (hk : u.kind = .union tag false) : ∃ s, m.Tags u s := by
  have hext : u.isExternal = true := by
    rw [Decl.isExternal, hk]
  obtain ⟨r, hr, hbelow⟩ := hu
  rcases hbelow.owner with rfl | ⟨owner, howner, hmem | hwire⟩
  · have hroot := (Model.sound_of_build h he).tags u hr
    simp [hext] at hroot
  · have hreaches : m.Reaches owner := ⟨r, hr, howner⟩
    obtain ⟨s, hs, -⟩ := selector_of_member h he hreaches hmem hk
    exact ⟨s, .external hreaches hmem hk hs⟩
  · -- A value on the wire has been checked not to need one.
    have hreaches : m.Reaches owner := ⟨r, hr, howner⟩
    have hsound := (hreaches.declares.sound h he).self
    by_cases htransformed : ∃ t, owner.kind = .transformed t
    · obtain ⟨t, ht⟩ := htransformed
      obtain ⟨w, hw, hfault⟩ := hsound.wired t ht
      rw [hwire, Option.some.injEq] at hw
      subst hw
      have hnone := Decl.isExternal_of_wireFault? hfault
      simp [hext] at hnone
    · have hnone := hsound.unwired fun t ht => htransformed ⟨t, ht⟩
      simp [hwire] at hnone

/-- A union with an internal tag has it in every variant that is not left out. -/
theorem exists_tag_of_internal (h : Model.build c g = some m) (he : m.errors = [])
    (hu : m.Reaches u) (hk : u.kind = .union tag true) : ∃ s, m.Tags u s := by
  have hshared := Decl.tagShared (hu.declares.honest h he) hk
  obtain ⟨v, hv, homit⟩ := hshared.moved
  obtain ⟨s, hs, -⟩ := hshared.tag v hv homit
  exact ⟨s, .internal hu hk hv homit hs⟩

end Model

/-- **Selecting again**: in a model without errors, every union that is reached from a data object
has a tag, which is a scalar, and an id of a variant comes back through a tag if and only if the tag
can hold it. Then both halves of the code take the arm of the variant. -/
theorem selectsAgain_of_build {c : Config} {g : Registry} {m : Model}
    (h : Model.build c g = some m) (he : m.errors = []) {u : Decl} (hu : m.Reaches u)
    {tag : String} {internal : Bool} (hk : u.kind = .union tag internal) :
    (∃ s, m.Tags u s) ∧ ∀ s, m.Tags u s → s.isScalar = true ∧ ∀ v ∈ u.members, ∀ n,
      v.encoding.variantId = some n → u.SelectsAgain s n := by
  constructor
  · cases internal with
    | true => exact Model.exists_tag_of_internal h he hu hk
    | false => exact Model.exists_tag_of_external h he hu hk
  · intro s hs
    refine ⟨hs.isScalar h he, fun v hv n hid => ?_⟩
    have hmem : n ∈ u.variantIds := List.mem_filterMap.2 ⟨v, hv, hid⟩
    exact Decl.selectsAgain (hu.declares.sound h he).self hk
      (hs.reaches.declares.faithful h he) hmem

namespace Sample

/-- A data object that is a struct with a union. -/
def oneObject : Config := { config with groups := [[⟨"obj", .name "S"⟩]] }

/-- A union of which one id needs three bits, and a tag of two bits. -/
def shortTag : Registry where
  records := [
    ⟨"Body", .union, [⟨"a", .name "u8", { Request.empty with variantId := some 0 }⟩,
      ⟨"b", .name "u16", { Request.empty with variantId := some 7 }⟩], Request.empty, false⟩,
    ⟨"S", .struct, [⟨"kind", .name "u8", bits 2⟩,
      ⟨"body", .name "Body", { Request.empty with form := some (.tagged "kind" false) }⟩],
      Request.empty, false⟩]
  aliases := []

/-- What a member of a data object is, what comes back of a number, and the ids of its variants. -/
structure Part where
  name : String
  kind : Kind
  restored : Option Int
  ids : List Int
deriving DecidableEq

/-- A member as a part. -/
def partOf (n : Int) (d : Decl) : Part := ⟨d.name, d.kind, d.restored? n, d.variantIds⟩

/-- A data object of two parts, the second a union with an external tag: it is a struct with the
union, and the first part is the tag. -/
theorem union_of_parts {m : Model} {n : Int} {s u : Part} {tag : String}
    (h : (m.roots.map fun d => d.members.map (partOf n)) = [[s, u]])
    (hs : s.name = tag) (hu : u.kind = .union tag false) :
    ∃ d e, partOf n d = s ∧ partOf n e = u ∧ m.Reaches e ∧ m.Tags e d := by
  obtain ⟨r, hr, hmembers⟩ := List.map_eq_singleton_iff.1 h
  obtain ⟨d, rest, hrest, hd, hlast⟩ := List.map_eq_cons_iff.1 hmembers
  obtain ⟨e, rfl, he⟩ := List.map_eq_singleton_iff.1 hlast
  have hreaches : m.Reaches r := ⟨r, by simp [hr], .refl r⟩
  have hmem : e ∈ r.members := by simp [hrest]
  have hkind : e.kind = .union tag false := by rw [← hu, ← he, partOf]
  have hname : d.name = tag := by rw [← hs, ← hd, partOf]
  refine ⟨d, e, hd, he, hreaches.member hmem, .external hreaches hmem hkind ?_⟩
  simp [Decl.member?, hrest, hname]

theorem oneObject_built : (Model.build oneObject registry).map (fun m => (m.errors,
      m.roots.map fun d => d.members.map (partOf 1))) =
    some ([], [[⟨"kind", .integer ⟨2, 0, 3⟩, some 1, []⟩,
      ⟨"body", .union "kind" false, none, [0, 1]⟩]]) := by
  decide +kernel

/-- In a small layout, the second variant is selected again. -/
theorem second_variant_selected : ∃ m u s, Model.build oneObject registry = some m ∧
    m.errors = [] ∧ m.Reaches u ∧ u.kind = .union "kind" false ∧ m.Tags u s ∧ s.Admits 1 ∧
    u.SelectsAgain s 1 := by
  obtain ⟨m, hm, hbuilt⟩ := Option.map_eq_some_iff.1 oneObject_built
  obtain ⟨herrors, hroots⟩ := Prod.mk.inj hbuilt
  obtain ⟨s, u, hs, hu, hreaches, htags⟩ := union_of_parts hroots rfl rfl
  simp only [partOf, Part.mk.injEq] at hs hu
  obtain ⟨v, hv, hid⟩ := List.mem_filterMap.1 (show (1 : Int) ∈ u.variantIds by simp [hu])
  have hselects := selectsAgain_of_build hm herrors hreaches hu.2.1
  exact ⟨m, u, s, hm, herrors, hreaches, hu.2.1, htags, by simp [Decl.Admits, hs],
    (hselects.2 s htags).2 v hv 1 hid⟩

theorem shortTag_built : (Model.build oneObject shortTag).map (fun m => (m.errors,
      m.roots.map fun d => d.members.map (partOf 7))) =
    some ([], [[⟨"kind", .integer ⟨2, 0, 3⟩, some 3, []⟩,
      ⟨"body", .union "kind" false, none, [0, 7]⟩]]) := by
  decide +kernel

/-- The id 7 comes back through a tag of two bits as 3: the half that saves takes the arm of the
variant, and the half that reads takes none. -/
theorem seven_read_as_three : ∃ m u s v, Model.build oneObject shortTag = some m ∧
    m.errors = [] ∧ m.Reaches u ∧ m.Tags u s ∧ v ∈ u.members ∧ v.encoding.variantId = some 7 ∧
    s.restored? 7 = some 3 ∧ ∀ functions owner place k,
      u.taken? ⟨.save, functions⟩ owner place k 7 = some 7 ∧
        u.taken? ⟨.read, functions⟩ owner place k 3 = none := by
  obtain ⟨m, hm, hbuilt⟩ := Option.map_eq_some_iff.1 shortTag_built
  obtain ⟨herrors, hroots⟩ := Prod.mk.inj hbuilt
  obtain ⟨s, u, hs, hu, hreaches, htags⟩ := union_of_parts hroots rfl rfl
  simp only [partOf, Part.mk.injEq] at hs hu
  obtain ⟨-, hkind, -, hids⟩ := hu
  obtain ⟨v, hv, hid⟩ := List.mem_filterMap.1 (show (7 : Int) ∈ u.variantIds by simp [hids])
  have hsound := (hreaches.declares.sound hm herrors).self
  refine ⟨m, u, s, v, hm, herrors, hreaches, htags, hv, hid, hs.2.2.1, ?_⟩
  intro functions owner place k
  rw [hsound.taken?_eq hkind, hsound.taken?_eq hkind, hids]
  decide

end Sample

end BitLayout
