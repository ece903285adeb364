import BitLayout.Proofs.Decl.Sound

/-!
# BitLayout.Proofs.Decl.Unnumbered

Declarations apart from their numbers. A number says which declaration it is, not what it is like:
two declarations are alike if they are equal without the numbers in them,

```
d.unnumbered  =  e.unnumbered
```

All checks of declarations look past the numbers: `wireFault?_unnumbered`, `tagFault?_unnumbered`,
`checkVariants_unnumbered`.
-/

namespace BitLayout

namespace Decl

mutual

/-- A declaration without the numbers in it. -/
def unnumbered : Decl → Decl
  | mk info members wire =>
    mk { info with number := 0 } (unnumberedAll members) (unnumberedWire wire)

/-- The value on the wire, without numbers. -/
def unnumberedWire : Option Decl → Option Decl
  | none => none
  | some d => some d.unnumbered

/-- Declarations in a row, without numbers. -/
def unnumberedAll : List Decl → List Decl
  | [] => []
  | d :: rest => d.unnumbered :: unnumberedAll rest

end

theorem unnumberedWire_eq_map (wire : Option Decl) :
    unnumberedWire wire = wire.map unnumbered := by
  cases wire <;> rfl

theorem unnumberedAll_eq_map (ds : List Decl) : unnumberedAll ds = ds.map unnumbered := by
  induction ds with
  | nil => rfl
  | cons d ds ih => rw [unnumberedAll, ih, List.map_cons]

theorem unnumbered_mk (info : DeclInfo) (members : List Decl) (wire : Option Decl) :
    (mk info members wire).unnumbered =
      mk { info with number := 0 } (members.map unnumbered) (wire.map unnumbered) := by
  rw [unnumbered, unnumberedAll_eq_map, unnumberedWire_eq_map]

/-! ## what stays -/

section

variable (d : Decl)

theorem info_unnumbered : d.unnumbered.info = { d.info with number := 0 } := by
  cases d
  rfl

@[simp] theorem members_unnumbered : d.unnumbered.members = d.members.map unnumbered := by
  cases d
  rw [unnumbered_mk]
  rfl

@[simp] theorem wire_unnumbered : d.unnumbered.wire = d.wire.map unnumbered := by
  cases d
  rw [unnumbered_mk]
  rfl

@[simp] theorem name_unnumbered : d.unnumbered.name = d.name := by
  cases d
  rfl

@[simp] theorem type_unnumbered : d.unnumbered.type = d.type := by
  cases d
  rfl

@[simp] theorem shape_unnumbered : d.unnumbered.shape = d.shape := by
  cases d
  rfl

@[simp] theorem extents_unnumbered : d.unnumbered.extents = d.extents := by
  cases d
  rfl

@[simp] theorem encoding_unnumbered : d.unnumbered.encoding = d.encoding := by
  cases d
  rfl

@[simp] theorem kind_unnumbered : d.unnumbered.kind = d.kind := by
  cases d
  rfl

@[simp] theorem isOmitted_unnumbered : d.unnumbered.isOmitted = d.isOmitted := by
  cases d
  rfl

@[simp] theorem record?_unnumbered : d.unnumbered.record? = d.record? := by
  cases d
  rfl

@[simp] theorem isScalar_unnumbered : d.unnumbered.isScalar = d.isScalar := by
  cases d
  rfl

@[simp] theorem isExternal_unnumbered : d.unnumbered.isExternal = d.isExternal := by
  cases d
  rfl

@[simp] theorem isStructInC_unnumbered (g : Registry) :
    d.unnumbered.isStructInC g = d.isStructInC g := by
  cases d
  rfl

theorem dropped_unnumbered : d.dropped.unnumbered = d.unnumbered.dropped := by
  cases d
  rfl

end

/-! ## sizes -/

mutual

theorem elementBits_unnumbered : (d : Decl) → d.unnumbered.elementBits = d.elementBits
  | mk info members wire => by
    rw [unnumbered, elementBits, elementBits, wireBits_unnumbered wire, sumBits_unnumbered members,
      maxBits_unnumbered members]

theorem wireBits_unnumbered : (wire : Option Decl) → wireBits (unnumberedWire wire) = wireBits wire
  | none => rfl
  | some d => by
    rw [unnumberedWire, wireBits, wireBits, elementBits_unnumbered d, extents_unnumbered]

theorem sumBits_unnumbered : (ds : List Decl) → sumBits (unnumberedAll ds) = sumBits ds
  | [] => rfl
  | d :: rest => by
    rw [unnumberedAll, sumBits, sumBits, elementBits_unnumbered d, sumBits_unnumbered rest,
      extents_unnumbered]

theorem maxBits_unnumbered : (ds : List Decl) → maxBits (unnumberedAll ds) = maxBits ds
  | [] => rfl
  | d :: rest => by
    rw [unnumberedAll, maxBits, maxBits, elementBits_unnumbered d, maxBits_unnumbered rest,
      extents_unnumbered]

end

theorem bits_unnumbered (d : Decl) : d.unnumbered.bits = d.bits := by
  rw [bits, bits, elementBits_unnumbered, extents_unnumbered]

/-! ## checks -/

theorem wireFault?_unnumbered (wire : Decl) : wireFault? wire.unnumbered = wireFault? wire := by
  simp only [wireFault?, kind_unnumbered, extents_unnumbered]

theorem locate?_unnumbered (ds : List Decl) (name : String) :
    locate? (ds.map unnumbered) name = (locate? ds name).map (Prod.map unnumbered id) := by
  have hname : ((fun p : Decl × Nat => decide (p.1.name = name)) ∘ Prod.map unnumbered id) =
      fun p : Decl × Nat => decide (p.1.name = name) := by
    funext p
    simp
  rw [locate?, List.zipIdx_map, List.find?_map, hname, locate?]

theorem tagFault?_unnumbered (kind : RecordKind) (members : List Decl) (position : Nat)
    (member : Decl) : tagFault? kind (members.map unnumbered) position member.unnumbered =
      tagFault? kind members position member := by
  unfold tagFault?
  rw [kind_unnumbered]
  split
  · next tag _ =>
    rw [locate?_unnumbered]
    cases kind with
    | union => rfl
    | struct =>
      cases locate? members tag with
      | none => rfl
      | some p => simp [Option.map_some]
  · rfl

theorem idFault?_unnumbered (union : String) (seen : List (Int × String)) (variants : List Decl) :
    idFault? union seen (variants.map unnumbered) = idFault? union seen variants := by
  induction variants generalizing seen with
  | nil => rfl
  | cons v rest ih =>
    simp only [List.map_cons, idFault?, encoding_unnumbered, name_unnumbered, isOmitted_unnumbered,
      ih]

theorem agrees_unnumbered (a b : Decl) : a.unnumbered.agrees b.unnumbered = a.agrees b := by
  simp only [agrees, name_unnumbered, type_unnumbered, extents_unnumbered, encoding_unnumbered]

theorem agreeing_unnumbered (a b : List Decl) :
    agreeing (a.map unnumbered) (b.map unnumbered) = agreeing a b := by
  have hagrees : ((fun p : Decl × Decl => p.1.agrees p.2) ∘ Prod.map unnumbered unnumbered) =
      fun p : Decl × Decl => p.1.agrees p.2 := by
    funext p
    exact agrees_unnumbered p.1 p.2
  unfold agreeing
  rw [List.zip_map, List.takeWhile_map, List.length_map]
  exact congrArg (fun f => ((a.zip b).takeWhile f).length) hagrees

theorem placeOf_unnumbered (members : List Decl) (position : Nat) :
    placeOf (members.map unnumbered) position = placeOf members position := by
  have hplace : ((fun d : Decl => (d.bits, d.shape)) ∘ unnumbered) =
      fun d : Decl => (d.bits, d.shape) := by
    funext d
    simp only [Function.comp, bits_unnumbered, shape_unnumbered]
  rw [placeOf, ← List.map_take, ← unnumberedAll_eq_map, sumBits_unnumbered, List.getElem?_map,
    Option.map_map, hplace, placeOf]

theorem internalTag_unnumbered (tag : String) (lead : Decl) (others : List Decl) :
    internalTag tag lead.unnumbered (others.map unnumbered) = internalTag tag lead others := by
  unfold internalTag
  simp only [members_unnumbered, List.length_map, List.foldl_map, agreeing_unnumbered,
    name_unnumbered, locate?_unnumbered]
  cases locate? lead.members tag with
  | none => rfl
  | some p =>
    simp only [Option.map_some, Prod.map, id_eq, isScalar_unnumbered, List.find?_map,
      Function.comp_def, members_unnumbered, placeOf_unnumbered]
    cases others.find? fun v => placeOf v.members p.2 != placeOf lead.members p.2 with
    | none => rfl
    | some v => simp only [Option.map_some, name_unnumbered]

/-- The variants of a union are checked without looking at their numbers. -/
theorem checkVariants_unnumbered (g : Registry) (union tag : String) (internal : Bool)
    (variants : List Decl) : checkVariants g union tag internal (variants.map unnumbered) =
      checkVariants g union tag internal variants := by
  have homitted : ((fun v : Decl => !v.isOmitted) ∘ unnumbered) = fun v => !v.isOmitted := by
    funext v
    simp
  have hstruct : ((fun v : Decl => !v.isStructInC g) ∘ unnumbered) = fun v => !v.isStructInC g := by
    funext v
    simp
  unfold checkVariants
  rw [idFault?_unnumbered, List.filter_map, homitted]
  cases variants.filter (!·.isOmitted) with
  | nil => rfl
  | cons lead others =>
    simp only [List.map_cons]
    rw [← List.map_cons, List.find?_map, hstruct, internalTag_unnumbered]
    cases (lead :: others).find? (!·.isStructInC g) with
    | none => rfl
    | some v => simp only [Option.map_some, name_unnumbered]

end Decl

end BitLayout
