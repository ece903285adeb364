import BitLayout.Decl.Build

/-!
# BitLayout.Proofs.Decl.Sound

What a data object looks like that was taken apart without errors. A declaration is *sound* if its
members, its value on the wire and its tag fit together:

* members have different numbers, all below that of their owner, and so has the value on the wire;
* only structs and unions have members, and these are the members that are known of the record;
* only a transformed declaration has a value on the wire, and nothing is wrong with that;
* a terminated text has room for its terminator;
* every external tag in a struct, and the variants of every union, have passed their checks.

`Decl.Everywhere` carries a property down a tree of declarations, and `Model.Sound` says that all
declarations of a model are sound. That this holds of every model without errors is shown in
`BitLayout.Proofs.Decl.Building`.
-/

namespace BitLayout

namespace Decl

/-! ## Everything below a declaration -/

/-- A declaration is another one or stands below it. -/
inductive Below : Decl → Decl → Prop where
  | refl (d : Decl) : Below d d
  | member {e m d : Decl} (hm : m ∈ d.members) (h : Below e m) : Below e d
  | wire {e w d : Decl} (hw : d.wire = some w) (h : Below e w) : Below e d

theorem Below.trans {c d e : Decl} (h : Below e d) (h' : Below d c) : Below e c := by
  induction h' with
  | refl => exact h
  | member hm _ ih => exact .member hm ih
  | wire hw _ ih => exact .wire hw ih

/-- What stands below a declaration is the declaration itself, or stands right below another one. -/
theorem Below.owner {d e : Decl} (h : Below e d) :
    e = d ∨ ∃ owner, Below owner d ∧ (e ∈ owner.members ∨ owner.wire = some e) := by
  induction h with
  | refl => exact .inl rfl
  | @member m d hm _ ih =>
    rcases ih with rfl | ⟨owner, howner, h⟩
    · exact .inr ⟨d, .refl d, .inl hm⟩
    · exact .inr ⟨owner, .member hm howner, h⟩
  | @wire w d hw _ ih =>
    rcases ih with rfl | ⟨owner, howner, h⟩
    · exact .inr ⟨d, .refl d, .inr hw⟩
    · exact .inr ⟨owner, .wire hw howner, h⟩

/-- A property of a declaration and of everything below it. -/
def Everywhere (P : Decl → Prop) (d : Decl) : Prop := ∀ e, Below e d → P e

/-! ## Induction -/

theorem sizeOf_member {d m : Decl} (h : m ∈ d.members) : sizeOf m < sizeOf d := by
  obtain ⟨info, members, wire⟩ := d
  have hlt : sizeOf m < sizeOf members := List.sizeOf_lt_of_mem h
  simp only [mk.sizeOf_spec]
  omega

theorem sizeOf_wire {d w : Decl} (h : d.wire = some w) : sizeOf w < sizeOf d := by
  obtain ⟨info, members, wire⟩ := d
  obtain rfl : wire = some w := h
  simp only [mk.sizeOf_spec, Option.some.sizeOf_spec]
  omega

/-- **Induction on declarations**: a claim holds of all declarations if each takes it over from its
members, from the members of these, and from the value on the wire. What is done with a union often
concerns the fields of its variants, two levels down. -/
theorem induct {P : Decl → Prop}
    (step : ∀ d : Decl, (∀ m ∈ d.members, P m) → (∀ v ∈ d.members, ∀ m ∈ v.members, P m) →
      (∀ w, d.wire = some w → P w) → P d) (d : Decl) : P d :=
  step d
    (fun m hm =>
      have := sizeOf_member hm
      induct step m)
    (fun v hv m hm =>
      have := sizeOf_member hv
      have := sizeOf_member hm
      induct step m)
    (fun w hw =>
      have := sizeOf_wire hw
      induct step w)
termination_by sizeOf d

namespace Everywhere

variable {P Q : Decl → Prop} {d e m w : Decl}

/-- The property holds of the declaration itself. -/
theorem self (h : d.Everywhere P) : P d := h d (.refl d)

/-- The property holds everywhere below a member. -/
theorem member (h : d.Everywhere P) (hm : m ∈ d.members) : m.Everywhere P :=
  fun e he => h e (.member hm he)

/-- The property holds everywhere below the value on the wire. -/
theorem wire (h : d.Everywhere P) (hw : d.wire = some w) : w.Everywhere P :=
  fun e he => h e (.wire hw he)

/-- The property holds everywhere below what stands below. -/
theorem below (h : d.Everywhere P) (he : Below e d) : e.Everywhere P :=
  fun f hf => h f (hf.trans he)

/-- A property is carried from the members and the value on the wire to their owner. -/
theorem intro (self : P d) (members : ∀ m ∈ d.members, m.Everywhere P)
    (wire : ∀ w, d.wire = some w → w.Everywhere P) : d.Everywhere P := by
  intro e he
  cases he with
  | refl => exact self
  | member hm he => exact members _ hm e he
  | wire hw he => exact wire _ hw e he

/-- Induction on declarations that have a property everywhere. -/
theorem induct
    (step : ∀ d : Decl, d.Everywhere Q → (∀ m ∈ d.members, P m) →
      (∀ v ∈ d.members, ∀ m ∈ v.members, P m) → (∀ w, d.wire = some w → P w) → P d)
    (h : d.Everywhere Q) : P d := by
  induction d using Decl.induct with
  | step d hmembers hgrand hwire =>
    exact step d h (fun m hm => hmembers m hm (h.member hm))
      (fun v hv m hm => hgrand v hv m hm ((h.member hv).member hm))
      fun w hw => hwire w hw (h.wire hw)

/-- A weaker property holds wherever a stronger one does. -/
theorem imp (h : d.Everywhere P) (hPQ : ∀ e, P e → Q e) : d.Everywhere Q :=
  fun e he => hPQ e (h e he)

end Everywhere

/-! ## Sound declarations -/

/-- What is left out has the kind of what is not on the wire. -/
theorem isOmitted_iff {d : Decl} : d.isOmitted = true ↔ d.kind = .omitted := by
  rw [isOmitted, Encoding.isOmitted, decide_eq_true_eq, kind]

/-- The ids of the variants of a union, in their order. -/
def variantIds (d : Decl) : List Int := d.members.filterMap (·.encoding.variantId)

/-- A union whose tag stands in the struct around it. -/
def isExternal (d : Decl) : Bool :=
  match d.kind with
  | .union _ false => true
  | _ => false

/-- The members of a declaration are those known of its record, and all their tags are found. -/
structure StructSound (records : List (String × List Decl)) (d : Decl) : Prop where
  shape : ∃ record, d.shape = some (.record record .struct) ∧
    records.lookup record = some d.members
  tags : ∀ (k : Nat) (m : Decl), d.members[k]? = some m → tagFault? .struct d.members k m = none

/-- The members of a declaration are those known of its record, none of them needs a tag from
outside, and as variants they have passed the check for the tag. -/
structure UnionSound (g : Registry) (records : List (String × List Decl)) (tag : String)
    (internal : Bool) (d : Decl) : Prop where
  checked : ∃ record, d.shape = some (.record record .union) ∧
    records.lookup record = some d.members ∧
    checkVariants g record tag internal d.members = .ok d.sharedFields
  tags : ∀ m ∈ d.members, m.isExternal = false

/-- What a declaration of an accepted data object satisfies, where `records` holds the members of
every record. -/
structure Sound (g : Registry) (records : List (String × List Decl)) (d : Decl) : Prop where
  nodup : (d.members.map number).Nodup
  member_lt : ∀ m ∈ d.members, m.number < d.number
  wire_lt : ∀ w, d.wire = some w → w.number < d.number
  leaf : d.kind.isLeaf = true → d.members = []
  wired : ∀ t, d.kind = .transformed t → ∃ w, d.wire = some w ∧ wireFault? w = none
  unwired : (∀ t, d.kind ≠ .transformed t) → d.wire = none
  room : ∀ length, d.kind = .text length true → 0 < length
  struct : d.kind = .struct → d.StructSound records
  union : ∀ tag internal, d.kind = .union tag internal → d.UnionSound g records tag internal

/-- A declaration stays sound when more records become known. -/
theorem Sound.mono {g : Registry} {records more : List (String × List Decl)} {d : Decl}
    (h : d.Sound g records)
    (hmore : ∀ name members, records.lookup name = some members →
      more.lookup name = some members) : d.Sound g more where
  nodup := h.nodup
  member_lt := h.member_lt
  wire_lt := h.wire_lt
  leaf := h.leaf
  wired := h.wired
  unwired := h.unwired
  room := h.room
  struct hk := by
    obtain ⟨⟨record, hshape, hmem⟩, htags⟩ := h.struct hk
    exact ⟨⟨record, hshape, hmore _ _ hmem⟩, htags⟩
  union tag internal hk := by
    obtain ⟨⟨record, hshape, hmem, hok⟩, htags⟩ := h.union tag internal hk
    exact ⟨⟨record, hshape, hmore _ _ hmem, hok⟩, htags⟩

end Decl

/-- All declarations of a model are sound, and the data objects have different numbers and need no
tag from outside. -/
structure Model.Sound (g : Registry) (m : Model) : Prop where
  nodup : (m.roots.map Decl.number).Nodup
  roots : ∀ d ∈ m.roots, d.Everywhere (Decl.Sound g m.records)
  tags : ∀ d ∈ m.roots, d.isExternal = false

/-- The members of a declaration have different numbers. -/
def Decl.Distinct (d : Decl) : Prop := (d.members.map Decl.number).Nodup

/-- Declarations side by side have different numbers in a model, with errors or without. -/
structure Model.Numbered (m : Model) : Prop where
  nodup : (m.roots.map Decl.number).Nodup
  roots : ∀ d ∈ m.roots, d.Everywhere Decl.Distinct

theorem Model.Sound.numbered {g : Registry} {m : Model} (hm : m.Sound g) : m.Numbered :=
  ⟨hm.nodup, fun d hd => (hm.roots d hd).imp fun _ he => he.nodup⟩

end BitLayout
