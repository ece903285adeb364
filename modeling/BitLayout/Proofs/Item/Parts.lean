import BitLayout.Proofs.Item.Trail

/-!
# BitLayout.Proofs.Item.Parts

What a value is taken apart into, in terms of paths alone. A slice, a rank or a struct has *parts*,
which stand under the conditions of the value. A union is *switched*: it has parts that all variants
share, and one *arm* for each variant with an id, whose parts stand under one more condition.

* `Item.split_cases`: nothing else is ever taken apart;
* `Path.Parts.apart`, `Path.Switch.apart`: parts lie within the value, and apart from each other;
* `Path.Switch.values`: the arms of a union are those of its variant ids.
-/

namespace BitLayout

/-- The values that some paths lead to, under the same conditions. -/
def Item.row (cs : List Condition) (ps : List Path) : List Item := ps.map fun p => ⟨cs, .value p⟩

/-- What travels of a union for one variant. -/
structure Variant where
  tag : Path
  value : Int
  parts : List Path
  slack : Nat

namespace Variant

/-- The conditions of the parts of an arm. -/
def conditions (cs : List Condition) (p : Path) (a : Variant) : List Condition :=
  Item.under cs p a.tag a.value

/-- An arm as a branch of a union under some conditions. -/
def branch (cs : List Condition) (p : Path) (a : Variant) : Branch :=
  ⟨a.conditions cs p, Item.row (a.conditions cs p) a.parts, a.slack⟩

end Variant

namespace Path

/-- The bits of what some paths lead to. -/
def sumBits : List Path → Nat
  | [] => 0
  | p :: rest => p.last.bits + sumBits rest

/-! ## rows -/

/-- The parts of a slice, a rank or a struct. -/
inductive Parts (p : Path) : List Path → Prop where
  | slice {a : Access} (hs : p.last.slice? = some a) :
    Parts p (a.singles.map fun b => p.withAccesses (p.last.accesses.dropLast ++ [b]))
  | rank {extent : Nat} {rest : List Nat} (hs : p.last.slice? = none)
    (hr : p.last.remaining = extent :: rest) : Parts p ((Access.mk 0 extent).singles.map p.access)
  | struct (hs : p.last.slice? = none) (hr : p.last.remaining = [])
    (hk : p.last.decl.kind = .struct) : Parts p (p.last.decl.members.map p.member)

/-! ## unions -/

/-- The arm of a variant with an external tag. -/
def externalVariant (p tag : Path) (v : Decl) : Option Variant :=
  v.encoding.variantId.map fun id =>
    ⟨tag, id, if v.isOmitted && !v.encoding.default.isSome then [] else [p.member v],
      p.last.bits - (p.member v).last.bits⟩

/-- What the variants of a union with an internal tag share. -/
def sharedParts (p : Path) (lead : Decl) : List Path :=
  (lead.members.take p.last.decl.sharedFields).map (p.member lead).member

/-- The arm of a variant with an internal tag. -/
def internalVariant (p : Path) (lead v : Decl) : Option Variant :=
  let owner := if v.isOmitted then lead else v
  match v.encoding.variantId, owner.members[p.last.decl.sharedFields - 1]? with
  | some id, some tag =>
    let parts := (v.members.drop p.last.decl.sharedFields).map (p.member v).member
    some ⟨(p.member owner).member tag, id, parts,
      p.last.bits - (sumBits (p.sharedParts lead) + sumBits parts)⟩
  | _, _ => none

/-- The shared parts and the arms of a union. -/
inductive Switch (p : Path) : List Path → List Variant → Prop where
  | external {tag : String} {selector : Decl} {owner : Step} (hs : p.last.slice? = none)
    (hr : p.last.remaining = []) (hk : p.last.decl.kind = .union tag false)
    (howner : p.owners.getLast? = some owner) (hsel : owner.decl.member? tag = some selector) :
    Switch p [] (p.last.decl.members.filterMap (p.externalVariant (p.sibling selector)))
  | internal {tag : String} {lead : Decl} (hs : p.last.slice? = none)
    (hr : p.last.remaining = []) (hk : p.last.decl.kind = .union tag true)
    (hlead : p.last.decl.leadVariant? = some lead) :
    Switch p (p.sharedParts lead) (p.last.decl.members.filterMap (p.internalVariant lead))

end Path

/-! ## items -/

namespace Split

variable {i : Item} {shared : List Item} {branches : List Branch} {b : Branch}

theorem mem_items_of_shared (h : i ∈ shared) : i ∈ (union shared branches).items :=
  List.mem_append_left _ h

theorem mem_items_of_branch (hb : b ∈ branches) (h : i ∈ b.parts) :
    i ∈ (union shared branches).items :=
  List.mem_append_right _ (List.mem_flatMap.2 ⟨b, hb, List.mem_append_left _ h⟩)

end Split

namespace Item

theorem sumBits_row (cs : List Condition) (ps : List Path) :
    Item.sumBits (row cs ps) = Path.sumBits ps := by
  induction ps with
  | nil => rfl
  | cons p ps ih =>
    change p.last.bits + Item.sumBits (row cs ps) = _
    rw [ih]
    rfl

theorem splitExternal_eq (cs : List Condition) (p tag : Path) :
    splitExternal cs p tag = .union (row cs [])
      ((p.last.decl.members.filterMap (p.externalVariant tag)).map (Variant.branch cs p)) := by
  rw [splitExternal, List.map_filterMap]
  congr 1
  refine List.filterMap_congr fun v _ => ?_
  rw [Path.externalVariant, Option.map_map]
  refine Option.map_congr fun id _ => ?_
  simp only [Function.comp, Variant.branch, Variant.conditions, Branch.mk.injEq, true_and]
  refine ⟨?_, rfl⟩
  rw [show (Item.mk (under cs p tag id) (.value (p.member v))).isOmitted = v.isOmitted from rfl,
    show (Item.mk (under cs p tag id) (.value (p.member v))).isDefaulted =
      v.encoding.default.isSome from rfl]
  split <;> rfl

theorem splitInternal_eq (cs : List Condition) (p : Path) (lead : Decl) :
    splitInternal cs p lead = .union (row cs (p.sharedParts lead))
      ((p.last.decl.members.filterMap (p.internalVariant lead)).map (Variant.branch cs p)) := by
  have hrow (cs : List Condition) (q : Path) (ms : List Decl) :
      (ms.map fun m => (⟨cs, .value (q.member m)⟩ : Item)) = row cs (ms.map q.member) := by
    rw [row, List.map_map]
    rfl
  unfold splitInternal
  simp only [hrow, sumBits_row]
  rw [List.map_filterMap]
  congr 1
  refine List.filterMap_congr fun v _ => ?_
  unfold Path.internalVariant
  cases v.encoding.variantId with
  | none => rfl
  | some id =>
    dsimp only
    cases (if v.isOmitted = true then lead else v).members[p.last.decl.sharedFields - 1]? with
    | none => rfl
    | some tag => rfl

/-- One element is taken apart into parts or switched. -/
theorem splitElement_cases {cs : List Condition} {p : Path} {s : Split}
    (hs : p.last.slice? = none) (hr : p.last.remaining = []) (h : splitElement? cs p = some s) :
    (∃ ps, p.Parts ps ∧ s = .row (row cs ps)) ∨
      ∃ shared arms, p.Switch shared arms ∧
        s = .union (row cs shared) (arms.map (Variant.branch cs p)) := by
  unfold splitElement? at h
  split at h
  · next hk =>
    cases h
    refine .inl ⟨_, .struct hs hr hk, ?_⟩
    rw [row, List.map_map]
    rfl
  · next tag hk =>
    obtain ⟨selector, hsel, rfl⟩ := Option.map_eq_some_iff.1 h
    obtain ⟨owner, howner, hsel⟩ := Option.bind_eq_some_iff.1 hsel
    exact .inr ⟨_, _, .external hs hr hk howner hsel, splitExternal_eq ..⟩
  · next tag hk =>
    obtain ⟨lead, hlead, rfl⟩ := Option.map_eq_some_iff.1 h
    exact .inr ⟨_, _, .internal hs hr hk hlead, splitInternal_eq ..⟩
  · cases h

/-- A value that is not left out is taken apart into parts or switched, and nothing else. -/
theorem split_cases {i : Item} {s : Split} (h : i.split? = some s) :
    ∃ cs p, i = ⟨cs, .value p⟩ ∧ p.last.decl.isOmitted = false ∧
      ((∃ ps, p.Parts ps ∧ s = .row (row cs ps)) ∨
        ∃ shared arms, p.Switch shared arms ∧
          s = .union (row cs shared) (arms.map (Variant.branch cs p))) := by
  obtain ⟨cs, content⟩ := i
  unfold split? at h
  cases content with
  | padding => cases h
  | value p =>
    dsimp only at h
    split at h
    · cases h
    · next homit =>
      refine ⟨cs, p, rfl, by simpa using homit, ?_⟩
      split at h
      · next a hs =>
        cases h
        refine .inl ⟨_, .slice hs, ?_⟩
        rw [row, List.map_map]
        rfl
      · next extent rest hs hr =>
        cases h
        refine .inl ⟨_, .rank hs hr, ?_⟩
        rw [row, List.map_map]
        rfl
      · next hs hr => exact splitElement_cases hs hr h

/-- What is taken apart into branches is one whole union, and nothing else is. -/
theorem isWholeUnion_iff {i : Item} {s : Split} (h : i.split? = some s) :
    i.isWholeUnion = true ↔ ∃ shared branches, s = .union shared branches := by
  obtain ⟨cs, p, rfl, -, ⟨ps, hparts, rfl⟩ | ⟨shared, arms, hswitch, rfl⟩⟩ := split_cases h
  · refine iff_of_false (fun hwhole => ?_) (by simp)
    cases hparts <;>
      simp_all [isWholeUnion, last?, path?, Step.isArray]
  · refine iff_of_true ?_ ⟨_, _, rfl⟩
    cases hswitch <;> simp_all [isWholeUnion, last?, path?, Step.isArray]

/-- A value with parts is taken apart into them. -/
theorem split_of_parts {cs : List Condition} {p : Path} {ps : List Path}
    (homit : p.last.decl.isOmitted = false) (h : p.Parts ps) :
    split? ⟨cs, .value p⟩ = some (.row (row cs ps)) := by
  cases h with
  | slice hs => simp [split?, homit, hs, row]
  | rank hs hr => simp [split?, homit, hs, hr, row]
  | struct hs hr hk => simp [split?, homit, hs, hr, splitElement?, hk, row]

/-- A union that can be switched is. -/
theorem split_of_switch {cs : List Condition} {p : Path} {shared : List Path}
    {arms : List Variant} (homit : p.last.decl.isOmitted = false) (h : p.Switch shared arms) :
    split? ⟨cs, .value p⟩ = some (.union (row cs shared) (arms.map (Variant.branch cs p))) := by
  cases h with
  | external hs hr hk howner hsel =>
    simp [split?, homit, hs, hr, splitElement?, hk, howner, hsel, splitExternal_eq]
  | internal hs hr hk hlead =>
    simp [split?, homit, hs, hr, splitElement?, hk, hlead, splitInternal_eq]

end Item

end BitLayout
