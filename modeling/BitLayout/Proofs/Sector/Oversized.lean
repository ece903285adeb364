import BitLayout.Proofs.Sector.Fewest

/-!
# BitLayout.Proofs.Sector.Oversized

When packing fails. What does not fit is taken apart, so in the end the leaves decide: a leaf with
more bits than a sector holds fits nowhere, and any other fits at the beginning of a sector. A run
of the packer is *decided* by the first leaf that is too large. It fails with the size of that leaf,
and succeeds if there is none:

```
first of a row        =  first of its items, in order
first of a union      =  first of the shared parts, else of the branches, in order
```

* `Decided.bind`: the first of two runs that is decided to fail decides both;
* `decided_leafwise`: the packer of leaves is decided, wherever it begins;
* `decided_placeGroups`: so is the packer, which fails like that of leaves.

Whether there are enough sectors is asked only at the end, and of nothing but their number.

Main statement: `outcome_of_pack`.
-/

namespace BitLayout

open Packing

/-- Whether an item is a value that travels and takes more bits than a sector holds. -/
def Item.isOversized (capacity : Nat) (i : Item) : Bool :=
  !i.isPadding && !i.isOmitted && capacity < i.bits

/-- The first leaf of some items that no sector can hold, in the order in which leaves travel. -/
def firstOversized (capacity : Nat) (items : List Item) : Option Item :=
  (items.flatMap Item.leaves).find? (·.isOversized capacity)

section

variable {capacity : Nat} {α β : Type} {items : List Item} {first second : Option Item}

theorem firstOversized_append (capacity : Nat) (is js : List Item) :
    firstOversized capacity (is ++ js) =
      (firstOversized capacity is).or (firstOversized capacity js) := by
  rw [firstOversized, List.flatMap_append, List.find?_append]
  rfl

theorem firstOversized_cons (capacity : Nat) (i : Item) (is : List Item) :
    firstOversized capacity (i :: is) =
      (firstOversized capacity [i]).or (firstOversized capacity is) :=
  firstOversized_append capacity [i] is

/-- The first among the leaves of an item is the first among those of its parts. -/
theorem firstOversized_of_split {i : Item} {s : Split} (h : i.split? = some s) :
    firstOversized capacity [i] = firstOversized capacity s.items := by
  rw [firstOversized, List.flatMap_singleton, Item.leaves_of_split h]
  rfl

/-- An item without parts is asked itself. -/
theorem firstOversized_of_whole {i : Item} (h : i.split? = none) :
    firstOversized capacity [i] = if i.isOversized capacity then some i else none := by
  rw [firstOversized, List.flatMap_singleton, Item.leaves_of_none h, List.find?_singleton]

/-- A value is too large if it travels and takes more bits than a sector holds. -/
theorem isOversized_value {cs : List Condition} {p : Path} :
    Item.isOversized capacity ⟨cs, .value p⟩ = true ↔
      p.last.decl.isOmitted = false ∧ capacity < p.last.bits := by
  rw [Item.isOversized, Bool.and_eq_true, Bool.and_eq_true, Bool.not_eq_true', Bool.not_eq_true',
    decide_eq_true_eq]
  exact ⟨fun h => ⟨h.1.2, h.2⟩, fun h => ⟨⟨rfl, h.1⟩, h.2⟩⟩

/-- The padding behind a branch is not asked. -/
theorem firstOversized_branch (capacity : Nat) (b : Branch) :
    firstOversized capacity b.items = firstOversized capacity b.parts := by
  have hslack : firstOversized capacity
      (if b.slack = 0 then [] else [.padding b.conditions b.slack false]) = none := by
    split
    · rfl
    · exact firstOversized_of_whole rfl
  rw [Branch.items, firstOversized_append, hslack, Option.or_none]

/-! ## runs that the leaves decide -/

/-- A run fails with the size of a leaf, or succeeds if there is none. -/
inductive Decided (capacity : Nat) : Option Item → Except PackError α → Prop where
  | ok (a : α) : Decided capacity none (.ok a)
  | error (leaf : Item) : Decided capacity (some leaf) (.error (.tooLarge leaf.bits capacity))

/-- Of two runs, the first that fails decides. -/
theorem Decided.bind {x : Except PackError α} {f : α → Except PackError β}
    (h : Decided capacity first x) (hf : ∀ a, Decided capacity second (f a)) :
    Decided capacity (first.or second) (x >>= f) := by
  cases h with
  | ok a => exact hf a
  | error leaf => exact .error leaf

/-- A step that always succeeds leaves the decision to the run before it. -/
theorem Decided.bind_ok {x : Except PackError α} {f : α → Except PackError β}
    (h : Decided capacity first x) (hf : ∀ a, ∃ b, f a = .ok b) :
    Decided capacity first (x >>= f) := by
  have hstep : ∀ a, Decided capacity none (f a) := by
    intro a
    obtain ⟨b, hb⟩ := hf a
    rw [hb]
    exact .ok b
  have hboth := h.bind hstep
  rwa [Option.or_none] at hboth

/-- Runs that fail alike are decided alike. -/
theorem Decided.of_alike {R : α → α → Prop} {x y : Except PackError α} (h : Alike R x y)
    (hy : Decided capacity first y) : Decided capacity first x := by
  cases h with
  | error e =>
    cases hy with
    | error leaf => exact .error leaf
  | ok hxy =>
    cases hy with
    | ok => exact .ok _

namespace Packing

variable {one : Item → Cursor → Except PackError Placement} {cs : List Condition} {p : Path}
  {ps : List Path} {c : Cursor}

/-- Items in a row are decided by the first of them that is decided to fail. -/
theorem decided_row (hone : ∀ i ∈ items, ∀ c, Decided capacity (firstOversized capacity [i])
      (one i c)) (c : Cursor) :
    Decided capacity (firstOversized capacity items) (inRow one items c) := by
  induction items generalizing c with
  | nil => exact .ok _
  | cons i items ih =>
    obtain ⟨hi, hitems⟩ := List.forall_mem_cons.1 hone
    rw [firstOversized_cons]
    refine (hi c).bind fun placement => ?_
    exact (ih hitems placement.1).bind_ok fun rest => ⟨_, rfl⟩

/-- So are the branches of a union, which are placed one after the other. -/
theorem decided_branches {branches : List Branch} (hone : ∀ b ∈ branches, ∀ i ∈ b.parts, ∀ c,
      Decided capacity (firstOversized capacity [i]) (one i c)) (c : Cursor) :
    Decided capacity (firstOversized capacity (branches.flatMap Branch.items))
      (inBranches one c branches) := by
  induction branches with
  | nil => exact .ok _
  | cons b branches ih =>
    obtain ⟨hb, hbranches⟩ := List.forall_mem_cons.1 hone
    rw [List.flatMap_cons, firstOversized_append, firstOversized_branch]
    refine (decided_row hb c).bind fun placement => ?_
    exact (ih hbranches).bind_ok fun rest => ⟨_, rfl⟩

/-- The parts that all variants share are placed in front of the branches. -/
theorem decided_union {shared : List Item} {branches : List Branch}
    (hshared : ∀ i ∈ shared, ∀ c, Decided capacity (firstOversized capacity [i]) (one i c))
    (hbranches : ∀ b ∈ branches, ∀ i ∈ b.parts, ∀ c,
      Decided capacity (firstOversized capacity [i]) (one i c)) (c : Cursor) :
    Decided capacity (firstOversized capacity (Split.union shared branches).items)
      (inUnion capacity one shared branches c) := by
  rw [Split.items, firstOversized_append]
  refine (decided_row hshared c).bind fun placement => ?_
  exact (decided_branches hbranches placement.1).bind_ok fun ends => ⟨_, rfl⟩

/-- A value without parts fails only if no sector can hold it. -/
theorem decided_whole (homit : p.last.decl.isOmitted = false)
    (hsplit : Item.split? ⟨cs, .value p⟩ = none) (c : Cursor) :
    Decided capacity (firstOversized capacity [⟨cs, .value p⟩])
      (placeWhole capacity ⟨cs, .value p⟩ c) := by
  have hbits : (Item.mk cs (.value p)).bits = p.last.bits := rfl
  rw [firstOversized_of_whole hsplit, placeWhole, hbits]
  by_cases hlarge : capacity < p.last.bits
  · rw [if_pos (isOversized_value.2 ⟨homit, hlarge⟩), if_neg (by omega), if_pos hlarge]
    exact .error _
  · rw [if_neg fun h => hlarge (isOversized_value.1 h).2, if_neg hlarge]
    split <;> exact .ok _

/-- **Leaves decide**: the packer of leaves fails exactly at the first leaf that is too large. -/
theorem decided_leafwise (cs : List Condition) (p : Path) (c : Cursor) :
    Decided capacity (firstOversized capacity [⟨cs, .value p⟩])
      (leafwise capacity ⟨cs, .value p⟩ c) := by
  -- Parts have fewer levels, and all of them are values again.
  induction hn : p.last.height using Nat.strongRecOn generalizing cs p c with
  | ind n ih =>
    subst hn
    cases homit : p.last.decl.isOmitted with
    | true =>
      have hwhole : Item.split? ⟨cs, .value p⟩ = none := by
        simp only [Item.split?, homit, if_true]
      have hsmall : ¬ Item.isOversized capacity ⟨cs, .value p⟩ = true := by
        simp [isOversized_value, homit]
      rw [firstOversized_of_whole hwhole, if_neg hsmall, leafwise_of_omitted homit]
      exact .ok _
    | false =>
      cases hsplit : Item.split? ⟨cs, .value p⟩ with
      | none =>
        have hkept : Item.isOmitted ⟨cs, .value p⟩ = false := homit
        rw [leafwise_of_whole hkept hsplit]
        exact decided_whole homit hsplit c
      | some s =>
        have hlt := Item.height_lt_of_split hsplit
        have hparts : ∀ (ds : List Condition) (qs : List Path), Item.row ds qs ⊆ s.items →
            ∀ i ∈ Item.row ds qs, ∀ c, Decided capacity (firstOversized capacity [i])
              (leafwise capacity i c) := by
          intro ds qs hsub i hi c
          have hheight := hlt i (hsub hi)
          obtain ⟨q, -, rfl⟩ := List.mem_map.1 hi
          exact ih _ hheight ds q c rfl
        rw [firstOversized_of_split hsplit]
        obtain ⟨_, _, -, -, ⟨qs, -, rfl⟩ | ⟨shared, arms, -, rfl⟩⟩ := Item.split_cases hsplit
        · rw [leafwise_of_row hsplit]
          exact decided_row (hparts _ qs fun _ hi => hi) c
        · rw [leafwise_of_union hsplit]
          refine decided_union
            (hparts _ shared fun _ hi => Split.mem_items_of_shared hi) (fun b hb => ?_) c
          have hmem := hb
          obtain ⟨a, -, rfl⟩ := List.mem_map.1 hb
          exact hparts _ a.parts fun _ hi => Split.mem_items_of_branch hmem hi

/-! ## groups -/

variable {g : Registry} {m : Model} {groups : List (List Decl)}

/-- A group is decided by its leaves, whatever is placed in front of it. -/
theorem decided_placeGroup (hm : m.Sound g) {objects : List Decl}
    (hobjects : ∀ d ∈ objects, d ∈ m.roots) (before : Placement) :
    Decided capacity (firstOversized capacity (objects.map Item.root))
      (placeGroup capacity before objects) := by
  have hrow : Decided capacity (firstOversized capacity (objects.map Item.root))
      (inRow (leafwise capacity) (objects.map Item.root) (opened capacity before).1) := by
    refine decided_row (fun i hi c => ?_) _
    obtain ⟨d, -, rfl⟩ := List.mem_map.1 hi
    exact decided_leafwise [] (.root d) c
  exact (hrow.of_alike (alike_roots hm hobjects capacity before)).bind_ok fun after => ⟨_, rfl⟩

/-- All groups are decided by their leaves. -/
theorem decided_placeGroups (hm : m.Sound g) (hgroups : ∀ d ∈ groups.flatten, d ∈ m.roots)
    (before : Placement) :
    Decided capacity (firstOversized capacity (groups.flatten.map Item.root))
      (groups.foldlM (placeGroup capacity) before) := by
  induction groups generalizing before with
  | nil => exact .ok _
  | cons objects groups ih =>
    rw [List.flatten_cons] at hgroups ⊢
    rw [List.map_append, firstOversized_append, List.foldlM_cons]
    refine (decided_placeGroup hm (fun d hd => hgroups d (List.mem_append_left _ hd)) before).bind
      fun after => ?_
    exact ih (fun d hd => hgroups d (List.mem_append_right _ hd)) after

end Packing

end

/-! ## outcomes -/

/-- What does not fit is reported before sectors are counted. -/
theorem pack_of_error {capacity : Nat} {groups : List (List Decl)} {e : PackError}
    (h : placeGroups capacity groups = .error e) (available : Nat) :
    pack capacity available groups = .error e := by
  rw [pack, h]
  rfl

/-- Once everything is placed, only the number of sectors decides. -/
theorem pack_of_ok {capacity : Nat} {groups : List (List Decl)} {after : Placement}
    (h : placeGroups capacity groups = .ok after) (available : Nat) :
    pack capacity available groups =
      if sectorsNeeded after.2 > available then
        .error (.tooFewSectors (sectorsNeeded after.2) capacity available)
      else .ok ((List.range (sectorsNeeded after.2)).map (sectorOf after.2)) := by
  rw [pack, h]
  rfl

/-- **Packing fails exactly when it must.** For groups of data objects of a model without errors,
packing fails for the size of a value if, and only if, some leaf that travels in some variant takes
more bits than a sector holds, and then it names the bits of the first such leaf. Otherwise there is
a number of sectors, the same for all numbers that may be available, with which packing succeeds if
so many are available, and which it names if there are fewer. -/
theorem outcome_of_pack {c : Config} {g : Registry} {m : Model} {groups : List (List Decl)}
    (hbuild : Model.build c g = some m) (herrors : m.errors = [])
    (hgroups : ∀ d ∈ groups.flatten, d ∈ m.roots) (capacity : Nat) :
    (∀ available, (∃ bits limit, pack capacity available groups = .error (.tooLarge bits limit)) ↔
      ∃ leaf ∈ (groups.flatten.map Item.root).flatMap Item.leaves,
        leaf.isOversized capacity = true) ∧
    (∀ available leaf, firstOversized capacity (groups.flatten.map Item.root) = some leaf →
      pack capacity available groups = .error (.tooLarge leaf.bits capacity)) ∧
    ((∀ leaf ∈ (groups.flatten.map Item.root).flatMap Item.leaves,
        leaf.isOversized capacity = false) →
      ∃ n, ∀ available,
        (n ≤ available → ∃ sectors, pack capacity available groups = .ok sectors ∧
          sectors.length = n) ∧
        (available < n →
          pack capacity available groups = .error (.tooFewSectors n capacity available))) := by
  have hm := Model.sound_of_build hbuild herrors
  have hdecided : Decided capacity (firstOversized capacity (groups.flatten.map Item.root))
      (placeGroups capacity groups) := decided_placeGroups hm hgroups _
  generalize hfirst : firstOversized capacity (groups.flatten.map Item.root) = first at hdecided ⊢
  generalize hplaced : placeGroups capacity groups = placed at hdecided
  cases hdecided with
  | error leaf =>
    have hpack := pack_of_error hplaced
    have hmem := List.mem_of_find?_eq_some hfirst
    have hlarge : leaf.isOversized capacity = true := List.find?_some hfirst
    refine ⟨fun available => ⟨fun _ => ⟨leaf, hmem, hlarge⟩, fun _ => ⟨_, _, hpack available⟩⟩, ?_,
      ?_⟩
    · rintro available _ ⟨⟩
      exact hpack available
    · intro hfits
      rw [hfits leaf hmem] at hlarge
      cases hlarge
  | ok after =>
    have hpack := pack_of_ok hplaced
    have hfits := List.find?_eq_none.1 hfirst
    refine ⟨fun available => ⟨?_, ?_⟩, fun _ _ h => (nomatch h), fun _ => ?_⟩
    · rintro ⟨bits, limit, herror⟩
      rw [hpack available] at herror
      split at herror <;> cases herror
    · rintro ⟨leaf, hmem, hlarge⟩
      exact absurd hlarge (hfits leaf hmem)
    · refine ⟨sectorsNeeded after.2, fun available => ⟨fun hle => ?_, fun hlt => ?_⟩⟩
      · exact ⟨_, (hpack available).trans (if_neg (by omega)), by simp⟩
      · exact (hpack available).trans (if_pos hlt)

namespace Sample

/-- The first field of the struct among the variants takes eight bits, and no leaf takes more than
sixteen. -/
theorem oversized : (Model.build config registry).map (fun m => (m.errors,
      (firstOversized 7 (m.groups.flatten.map Item.root)).map Item.bits,
      ((m.groups.flatten.map Item.root).flatMap Item.leaves).all (!·.isOversized 16))) =
    some ([], some 8, true) := by
  decide +kernel

/-- The small layout does not fit into sectors of seven bits, and needs three of sixteen. -/
theorem fails_below_eight : ∃ m, Model.build config registry = some m ∧
    (∀ available, pack 7 available m.groups = .error (.tooLarge 8 7)) ∧
    ∀ available, (3 ≤ available → ∃ sectors, pack 16 available m.groups = .ok sectors ∧
        sectors.length = 3) ∧
      (available < 3 → pack 16 available m.groups = .error (.tooFewSectors 3 16 available)) := by
  obtain ⟨m, hm, hleaves⟩ := Option.map_eq_some_iff.1 oversized
  obtain ⟨herrors, hleaves⟩ := Prod.mk.inj hleaves
  obtain ⟨hfirst, hall⟩ := Prod.mk.inj hleaves
  obtain ⟨leaf, hleaf, hbits⟩ := Option.map_eq_some_iff.1 hfirst
  have hroots : ∀ d ∈ m.groups.flatten, d ∈ m.roots := fun _ hd => hd
  have hfits : ∀ leaf ∈ (m.groups.flatten.map Item.root).flatMap Item.leaves,
      leaf.isOversized 16 = false := by
    simpa only [List.all_eq_true, Bool.not_eq_true'] using hall
  refine ⟨m, hm, fun available => ?_, ?_⟩
  · rw [← hbits]
    exact (outcome_of_pack hm herrors hroots 7).2.1 available leaf hleaf
  · obtain ⟨n, hn⟩ := (outcome_of_pack hm herrors hroots 16).2.2 hfits
    obtain ⟨m', sectors, hm', -, hpack, hshape⟩ := packs
    obtain rfl : m' = m := Option.some.inj (hm'.symm.trans hm)
    -- Eight sectors are enough for three, so the number is three.
    have hle : n ≤ 8 := by
      refine Nat.le_of_not_lt fun hlt => ?_
      rw [(hn 8).2 hlt] at hpack
      cases hpack
    obtain ⟨found, hfound, hlength⟩ := (hn 8).1 hle
    obtain rfl : found = sectors := Except.ok.inj (hfound.symm.trans hpack)
    rw [length_of_shape hshape] at hlength
    subst hlength
    exact hn

end Sample

end BitLayout
