import BitLayout.Item.Flatten
import BitLayout.Proofs.Code.Planned
import BitLayout.Proofs.Item.Leaves
import BitLayout.Proofs.Strict.Sizes

/-!
# BitLayout.Proofs.Strict.Items

Taking items apart, strictly. A value with an external tag has an owner with a field for the tag,
the variants of a union are no larger than the union, and those with an internal tag have as many
fields as they share.

* `Strict.split_eq`: a grounded item is taken apart strictly as it is taken apart;
* `Strict.canSplit_of_hasParts`: if it has parts, it is taken apart indeed;
* `Strict.flattenWithin_eq`: its levels bound the way down.
-/

namespace BitLayout

/-- Whether an item is a value with parts: several elements, or one struct or union. -/
def Item.hasParts (i : Item) : Bool :=
  i.last?.any fun s => !s.decl.isOmitted && (s.isArray || !s.decl.kind.isLeaf)

namespace Strict

/-! ## sizes -/

/-- The bits of what a path leads to. -/
def pathBits (p : Path) : Except Halt Nat := return (← elementBits p.last.decl) * p.last.elements

/-- The bits of an item. -/
def itemBits (i : Item) : Except Halt Nat :=
  match i.content with
  | .value p => pathBits p
  | .padding bits _ => .ok bits

/-- The bits of items in a row. -/
def rowBits : List Item → Except Halt Nat
  | [] => .ok 0
  | i :: rest => return (← itemBits i) + (← rowBits rest)

/-! ## taking apart -/

/-- The variants of a union that have ids. -/
def idVariants (d : Decl) : List (Decl × Int) :=
  d.members.filterMap fun v => v.encoding.variantId.map (v, ·)

/-- The branch of a variant of a union with an external tag that takes so many bits. -/
def externalBranch (conditions : List Condition) (p tag : Path) (bits : Nat) (v : Decl) (id : Int) :
    Except Halt Branch := do
  let conditions := Item.under conditions p tag id
  let item : Item := ⟨conditions, .value (p.member v)⟩
  let slack ← minus bits (← itemBits item)
  return ⟨conditions, if item.isOmitted && !item.isDefaulted then [] else [item], slack⟩

/-- Take a union with an external tag apart. -/
def splitExternal (conditions : List Condition) (p tag : Path) : Except Halt Split := do
  let bits ← pathBits p
  let branches ← (idVariants p.last.decl).mapM fun (v, id) =>
    externalBranch conditions p tag bits v id
  return .union [] branches

/-- The fields of a variant behind the shared ones. Only a variant that is left out may have fewer
than these. -/
def fieldsBehind (count : Nat) (v : Decl) : Except Halt (List Decl) :=
  if v.isOmitted then .ok (v.members.drop count) else behind count v.members

/-- The branch of a variant of a union with an internal tag that takes so many bits, where the
shared fields are moved through `lead`. -/
def internalBranch (conditions : List Condition) (p : Path) (lead : Decl) (sharedBits bits : Nat)
    (v : Decl) (id : Int) : Except Halt Branch := do
  let count := p.last.decl.sharedFields
  let owner := if v.isOmitted then lead else v
  let tag ← entry owner.members (← minus count 1)
  let conditions := Item.under conditions p ((p.member owner).member tag) id
  let parts : List Item := (← fieldsBehind count v).map fun m =>
    ⟨conditions, .value ((p.member v).member m)⟩
  let slack ← minus bits (sharedBits + (← rowBits parts))
  return ⟨conditions, parts, slack⟩

/-- Take a union with an internal tag apart. -/
def splitInternal (conditions : List Condition) (p : Path) (lead : Decl) : Except Halt Split := do
  let members ← first p.last.decl.sharedFields lead.members
  let shared := members.map fun m => (⟨conditions, .value ((p.member lead).member m)⟩ : Item)
  let sharedBits ← rowBits shared
  let bits ← pathBits p
  let branches ← (idVariants p.last.decl).mapM fun (v, id) =>
    internalBranch conditions p lead sharedBits bits v id
  return .union shared branches

/-- Take one element apart. -/
def splitElement (conditions : List Condition) (p : Path) : Except Halt (Option Split) :=
  match p.last.decl.kind with
  | .struct =>
    .ok (some (.row (p.last.decl.members.map fun m => ⟨conditions, .value (p.member m)⟩)))
  | .union tag false => do
    let owner ← need .noOwner p.owners.getLast?
    let selector ← need .noTag (owner.decl.member? tag)
    return some (← splitExternal conditions p (p.sibling selector))
  | .union _ true => do
    let lead ← need .noLead p.last.decl.leadVariant?
    return some (← splitInternal conditions p lead)
  | _ => .ok none

/-- Take an item apart, unless it is padding, left out, or of a kind without parts. -/
def split (i : Item) : Except Halt (Option Split) :=
  match i.content with
  | .padding _ _ => .ok none
  | .value p =>
    if p.last.decl.isOmitted then .ok none
    else
      match p.last.slice?, p.last.remaining with
      | some slice, _ =>
        .ok (some (.row (slice.singles.map fun a =>
          ⟨i.conditions, .value (p.withAccesses (p.last.accesses.dropLast ++ [a]))⟩)))
      | none, extent :: _ =>
        .ok (some (.row ((Access.mk 0 extent).singles.map fun a =>
          ⟨i.conditions, .value (p.access a)⟩)))
      | none, [] => splitElement i.conditions p

/-- The parts of an item, or the item itself if it has none. -/
def expand (i : Item) : Except Halt (List Item) := return (← split i).elim [i] Split.items

/-- Take an item apart through at most `levels` levels. -/
def flattenWithin (threshold : Nat) : (levels : Nat) → Item → Except Halt (List Item)
  | levels, i => do
    match ← split i with
    | none => return [i]
    | some parts =>
      if i.staysWhole threshold then return [i]
      else
        match levels with
        | 0 => .error .tooDeep
        | levels + 1 => return (← parts.items.mapM (flattenWithin threshold levels)).flatten

section

variable {g : Registry} {m : Model} {i : Item} {p : Path} {cs : List Condition} {tag : String}

/-! ## sizes are strict -/

theorem pathBits_eq (hm : m.Sound g) (h : p.Walks m.roots) : pathBits p = .ok p.last.bits := by
  rw [pathBits, elementBits_eq (h.everywhere hm.roots)]
  rfl

theorem itemBits_eq (hm : m.Sound g) (h : i.Grounded m.roots) : itemBits i = .ok i.bits := by
  obtain ⟨cs, content⟩ := i
  cases content with
  | value p => exact pathBits_eq hm (h.walks p rfl)
  | padding bits trailing => rfl

theorem rowBits_eq {items : List Item} (h : ∀ i ∈ items, itemBits i = .ok i.bits) :
    rowBits items = .ok (Item.sumBits items) := by
  induction items with
  | nil => rfl
  | cons i items ih =>
    obtain ⟨hi, hitems⟩ := List.forall_mem_cons.1 h
    rw [rowBits, hi, ih hitems]
    rfl

/-- The fields of a variant, moved under some conditions. -/
theorem rowBits_fields (hm : m.Sound g) {v : Decl} (h : (p.member v).Walks m.roots)
    (cs : List Condition) {ds : List Decl} (hsub : ds ⊆ v.members) :
    rowBits (ds.map fun x => ⟨cs, .value ((p.member v).member x)⟩) =
        .ok (Item.sumBits (ds.map fun x => ⟨cs, .value ((p.member v).member x)⟩)) ∧
      Item.sumBits (ds.map fun x => ⟨cs, .value ((p.member v).member x)⟩) = Decl.sumBits ds := by
  constructor
  · refine rowBits_eq fun i hi => ?_
    obtain ⟨x, hx, rfl⟩ := List.mem_map.1 hi
    exact pathBits_eq hm (h.member (hsub hx))
  · have hsum := Item.sumBits_row cs (ds.map (p.member v).member)
    rwa [Item.row, List.map_map, Path.sumBits_members] at hsum

/-! ## taking apart is strict -/

/-- The variants of a union with an external tag are no larger than the union. -/
theorem splitExternal_eq (hm : m.Sound g) (h : p.Walks m.roots) (hs : p.last.slice? = none)
    (hr : p.last.remaining = []) (hk : p.last.decl.kind = .union tag false) (selector : Path) :
    splitExternal cs p selector = .ok (Item.splitExternal cs p selector) := by
  have hbranches : (idVariants p.last.decl).mapM (fun (v, id) =>
      externalBranch cs p selector p.last.bits v id) = .ok (p.last.decl.members.filterMap fun v =>
        v.encoding.variantId.map fun id =>
          let conditions := Item.under cs p selector id
          let item : Item := ⟨conditions, .value (p.member v)⟩
          ⟨conditions, if item.isOmitted && !item.isDefaulted then [] else [item],
            p.last.bits - item.bits⟩) := by
    refine mapM_filterMap fun v hv => ?_
    cases v.encoding.variantId with
    | none => rfl
    | some id =>
      have hle : (p.member v).last.bits ≤ p.last.bits := by
        rw [Path.bits_member, Path.bits_of_union hs hr hk]
        exact Decl.bits_le_maxBits hv
      have hbits (conditions : List Condition) :
          itemBits ⟨conditions, .value (p.member v)⟩ = .ok (p.member v).last.bits :=
        pathBits_eq hm (h.member hv)
      refine ⟨_, ?_, rfl⟩
      change externalBranch cs p selector p.last.bits v id = _
      rw [externalBranch, hbits, ok_bind, minus_eq hle]
      rfl
  rw [splitExternal, pathBits_eq hm h, ok_bind, hbranches]
  rfl

theorem fieldsBehind_eq {d lead v : Decl} (h : d.Shared lead) (hv : v ∈ d.members) :
    fieldsBehind d.sharedFields v = .ok (v.members.drop d.sharedFields) := by
  unfold fieldsBehind
  split
  · rfl
  · next homit => exact behind_eq (h.le_length hv (by simpa using homit))

/-- The variants of a union with an internal tag have the fields that they share, the tag last, and
are no larger than the union. -/
theorem splitInternal_eq (hm : m.Sound g) (h : p.Walks m.roots) (hs : p.last.slice? = none)
    (hr : p.last.remaining = []) (hk : p.last.decl.kind = .union tag true) {lead : Decl}
    (hlead : p.last.decl.leadVariant? = some lead) :
    splitInternal cs p lead = .ok (Item.splitInternal cs p lead) := by
  have hd := h.everywhere hm.roots
  have hshared := hd.self.shared_of_lead hk hlead
  have hmem : lead ∈ p.last.decl.members := hshared.lead_mem
  have hfirst := first_eq (hshared.le_length hmem hshared.lead_kept)
  obtain ⟨hrow, hsum⟩ := rowBits_fields hm (h.member hmem) cs (List.take_subset _ lead.members)
  rw [splitInternal, hfirst, ok_bind]
  dsimp only
  rw [hrow, ok_bind, pathBits_eq hm h, ok_bind]
  suffices h : ∃ branches, (idVariants p.last.decl).mapM (fun (v, id) =>
      internalBranch cs p lead (Item.sumBits ((lead.members.take p.last.decl.sharedFields).map
        fun x => ⟨cs, .value ((p.member lead).member x)⟩)) p.last.bits v id) = .ok branches ∧
      Item.splitInternal cs p lead = .union _ branches by
    obtain ⟨branches, hbranches, heq⟩ := h
    rw [hbranches, heq]
    rfl
  refine ⟨_, mapM_filterMap fun v hv => ?_, rfl⟩
  cases v.encoding.variantId with
  | none => rfl
  | some id =>
    obtain ⟨selector, hsel⟩ := hshared.selector hv
    have hle := hshared.bits_le hd hv
    rw [← Path.bits_of_union hs hr hk, ← hsum] at hle
    obtain ⟨hrest, hparts⟩ := rowBits_fields hm (h.member hv)
      (Item.under cs p ((p.member (if v.isOmitted then lead else v)).member selector) id)
      (List.drop_subset p.last.decl.sharedFields v.members)
    rw [← hparts] at hle
    refine ⟨_, ?_, by dsimp only; rw [hsel]⟩
    change internalBranch _ _ _ _ _ v id = _
    rw [internalBranch]
    dsimp only
    rw [minus_eq hshared.pos, ok_bind, entry, hsel, need_some, ok_bind,
      fieldsBehind_eq hshared hv, ok_bind, hrest, ok_bind, minus_eq hle]
    rfl

/-- A value with an external tag has an owner with a field for the tag. -/
theorem exists_selector (hm : m.Sound g) (h : p.Walks m.roots)
    (hk : p.last.decl.kind = .union tag false) :
    ∃ owner selector, p.owners.getLast? = some owner ∧ owner.decl.member? tag = some selector := by
  have hext : p.last.decl.isExternal = true := by rw [Decl.isExternal, hk]
  cases howner : p.owners.getLast? with
  | none =>
    have hroot := (Step.walk_concat.1 h).2
    rw [howner, Option.elim_none] at hroot
    simp [hm.tags _ hroot] at hext
  | some owner =>
    obtain ⟨hmem, hsound⟩ := h.owner hm howner
    obtain ⟨k, hget⟩ := List.mem_iff_getElem?.1 hmem
    obtain ⟨-, selector, -, -, hsel, -⟩ :=
      (hsound.struct (hsound.struct_of_external hmem hext)).selector_of_external hget hk
    exact ⟨owner, selector, rfl, hsel⟩

theorem splitElement_eq (hm : m.Sound g) (h : p.Walks m.roots) (hs : p.last.slice? = none)
    (hr : p.last.remaining = []) : splitElement cs p = .ok (Item.splitElement? cs p) := by
  unfold splitElement Item.splitElement?
  cases hk : p.last.decl.kind with
  | union tag internal =>
    cases internal with
    | false =>
      obtain ⟨owner, selector, howner, hsel⟩ := exists_selector hm h hk
      simp only [howner, hsel, need_some, ok_bind, splitExternal_eq hm h hs hr hk, Option.bind_some]
      rfl
    | true =>
      obtain ⟨lead, hshared⟩ :=
        ((h.everywhere hm.roots).self.union _ _ hk).shared_of_internal
      simp only [hshared.found, need_some, ok_bind, splitInternal_eq hm h hs hr hk hshared.found]
      rfl
  | _ => rfl

/-- **Strict taking apart**: a grounded item is taken apart strictly as it is taken apart. -/
theorem split_eq (hm : m.Sound g) (h : i.Grounded m.roots) : split i = .ok i.split? := by
  obtain ⟨cs, content⟩ := i
  cases content with
  | padding bits trailing => rfl
  | value p =>
    cases homit : p.last.decl.isOmitted with
    | true => simp [split, Item.split?, homit]
    | false =>
      cases hs : p.last.slice? with
      | some slice => simp [split, Item.split?, homit, hs]
      | none =>
        cases hr : p.last.remaining with
        | cons extent rest => simp [split, Item.split?, homit, hs, hr]
        | nil =>
          have helement : splitElement cs p = .ok (Item.splitElement? cs p) :=
            splitElement_eq hm (h.walks p rfl) hs hr
          simpa [split, Item.split?, homit, hs, hr] using helement

theorem expand_eq (hm : m.Sound g) (h : i.Grounded m.roots) : expand i = .ok i.expand := by
  rw [expand, split_eq hm h]
  rfl

-- Nothing of the kind holds of a union whose tag would have to stand outside of the data.
example : expand (.root (.mk
      ⟨0, "body", .name "Body", none, [], ⟨.union "kind" false, none, none⟩, 0⟩ [] none)) =
    .error .noOwner := rfl

/-- An item that has parts is taken apart. -/
theorem canSplit_of_hasParts (hm : m.Sound g) (h : i.Grounded m.roots)
    (hparts : i.hasParts = true) : i.canSplit = true := by
  obtain ⟨cs, content⟩ := i
  cases content with
  | padding bits trailing => cases hparts
  | value p =>
    change (!p.last.decl.isOmitted && (p.last.isArray || !p.last.decl.kind.isLeaf)) = true at hparts
    rw [Bool.and_eq_true, Bool.not_eq_true'] at hparts
    obtain ⟨homit, hparts⟩ := hparts
    have hwalks := h.walks p rfl
    cases hs : p.last.slice? with
    | some slice => simp [Item.canSplit, Item.split?, homit, hs]
    | none =>
      cases hr : p.last.remaining with
      | cons extent rest => simp [Item.canSplit, Item.split?, homit, hs, hr]
      | nil =>
        have hkind : p.last.decl.kind.isLeaf = false := by simpa [Step.isArray, hs, hr] using hparts
        have hsome : (Item.splitElement? cs p).isSome = true := by
          unfold Item.splitElement?
          cases hk : p.last.decl.kind with
          | struct => rfl
          | union tag internal =>
            cases internal with
            | false =>
              obtain ⟨owner, selector, howner, hsel⟩ := exists_selector hm hwalks hk
              simp [howner, hsel]
            | true =>
              obtain ⟨lead, hshared⟩ :=
                ((hwalks.everywhere hm.roots).self.union _ _ hk).shared_of_internal
              simp [hshared.found]
          | _ => simp [hk, Kind.isLeaf] at hkind
        simpa [Item.canSplit, Item.split?, homit, hs, hr] using hsome

/-- **Strict flattening**: the levels of an item bound the way down. -/
theorem flattenWithin_eq (hm : m.Sound g) (h : i.Grounded m.roots) {levels : Nat}
    (hle : i.height ≤ levels) (threshold : Nat) :
    flattenWithin threshold levels i = .ok (i.flatten threshold) := by
  suffices hall : ∀ bound, i.height ≤ bound →
      flattenWithin threshold levels i = .ok (Item.flattenWithin threshold bound i) from
    hall _ (Nat.le_refl _)
  induction levels using Nat.strongRecOn generalizing i with
  | ind levels ih =>
  intro bound hbound
  rw [flattenWithin, split_eq hm h, ok_bind]
  cases hsplit : i.split? with
  | none => cases bound <;> simp only [Item.flattenWithin, hsplit] <;> rfl
  | some s =>
    have hpos := Item.height_pos_of_canSplit (Item.canSplit_of_split hsplit)
    have hparts : ∀ part ∈ s.items, part.Grounded m.roots ∧ part.height < i.height := by
      intro part hp
      rw [← Item.expand_of_split hsplit] at hp
      exact ⟨h.expand hp, Item.height_lt_of_expand (Item.canSplit_of_split hsplit) hp⟩
    obtain ⟨levels, rfl⟩ := Nat.exists_eq_succ_of_ne_zero (by omega : levels ≠ 0)
    obtain ⟨bound, rfl⟩ := Nat.exists_eq_succ_of_ne_zero (by omega : bound ≠ 0)
    simp only [Item.flattenWithin, hsplit]
    split
    · rfl
    · have hall : s.items.mapM (flattenWithin threshold levels) =
          .ok (s.items.map (Item.flattenWithin threshold bound)) := by
        refine mapM_eq fun part hp => ?_
        obtain ⟨hpart, hlt⟩ := hparts part hp
        exact ih levels (Nat.lt_succ_self _) hpart (by omega) bound (by omega)
      rw [hall, List.flatMap]
      rfl

end

end Strict

end BitLayout
