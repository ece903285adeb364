import BitLayout.Proofs.Decl.Building
import BitLayout.Proofs.Sector.Inherited
import BitLayout.Proofs.Sector.Merges

/-!
# BitLayout.Proofs.Sector.Alignment

Branches that travel together. The offsets in a sector are computed once, for all variants of all
unions, and only some of the items travel at a time. Packing pads every branch so that the offsets
are right for all of them:

* each item that travels begins where those that travel in front of it end;
* what travels takes as many bits as the sector says, whatever the variants, and no more than a
  sector holds.

Main statement: `aligned_of_pack`.
-/

namespace BitLayout

open Packing

variable {capacity : Nat} {roots : List Decl}

/-! ## what is placed -/

/-- Padding lies among any data objects. -/
theorem Item.lies_padding {i : Item} (h : ∃ cs bits trailing, i = .padding cs bits trailing) :
    i.Lies roots := by
  obtain ⟨cs, bits, trailing, rfl⟩ := h
  exact fun p hp => nomatch hp

/-- A value lies among the data objects that it is reached from. -/
theorem Path.Reached.lies {cs : List Condition} {p : Path} (h : p.Reached roots cs) :
    (⟨cs, .value p⟩ : Item).Lies roots := by
  rintro q ⟨⟩
  exact h

/-- What an item is taken apart into lies among the data objects with it. -/
theorem Item.Lies.expand {i j : Item} (h : i.Lies roots) (hj : j ∈ i.expand) : j.Lies roots := by
  rw [Item.expand] at hj
  cases hsplit : i.split? with
  | none =>
    rw [hsplit, Option.elim_none] at hj
    rwa [List.mem_singleton.1 hj]
  | some s =>
    rw [hsplit, Option.elim_some] at hj
    obtain ⟨cs, p, rfl, -⟩ := Item.split_cases hsplit
    obtain ⟨cs', content⟩ := j
    rintro q rfl
    exact Item.reached_of_split (h p rfl) hsplit hj

theorem Item.inherited_lies (roots : List Decl) : Item.Inherited (Item.Lies roots) where
  expand h hj := h.expand hj
  beside bits trailing _ := Item.lies_padding ⟨_, bits, trailing, rfl⟩
  branch bits trailing _ _ _ _ := Item.lies_padding ⟨_, bits, trailing, rfl⟩
  between bits trailing := Item.lies_padding ⟨_, bits, trailing, rfl⟩

/-- What is placed for values lies among the data objects that they are reached from. -/
theorem Places.lies {cs : List Condition} {ps : List Path} {c c' : Cursor} {out : List Placed}
    (h : Places capacity cs ps c c' out) (hreached : ∀ p ∈ ps, p.Reached roots cs) :
    ∀ x ∈ out, x.item.Lies roots :=
  h.inherits (Item.inherited_lies roots) fun p hp => (hreached p hp).lies

/-- What is placed for groups lies among the data objects. -/
theorem PlacesGroups.lies {groups : List (List Decl)} {before after : Placement}
    (h : PlacesGroups capacity groups before after) (hgroups : ∀ d ∈ groups.flatten, d ∈ roots)
    (hbefore : ∀ x ∈ before.2, x.item.Lies roots) : ∀ x ∈ after.2, x.item.Lies roots :=
  h.inherits (Item.inherited_lies roots) (fun d hd => (Path.Reached.root (hgroups d hd)).lies)
    hbefore

/-- Each sector merges what is placed in it. -/
theorem PlacesGroups.regroups {g : Registry} {m : Model} {groups : List (List Decl)}
    {after : Placement} (hm : m.Sound g) (hgroups : m.Grouping groups)
    (h : PlacesGroups capacity groups (⟨0, 0⟩, []) after) (s : Nat) :
    Regroups (inSector s after.2) (sectorOf after.2 s).items := by
  refine regroups_mergeItems hm.numbered fun i hi => ?_
  obtain ⟨x, hx, rfl⟩ := List.mem_map.1 hi
  exact h.lies hgroups.sub (fun _ hx => (nomatch hx)) x (List.mem_filter.1 hx).1

/-! ## alignment -/

/-- **Branch alignment and capacity.** In every sector of every packing, under every assignment of
variants to unions, each item that travels begins where those that travel in front of it end, and
together they take the bits of the sector, which are no more than it holds. -/
theorem aligned_of_pack {c : Config} {g : Registry} {m : Model} {groups : List (List Decl)}
    {available : Nat} {sectors : List Sector} (hbuild : Model.build c g = some m)
    (herrors : m.errors = []) (hgroups : m.Grouping groups)
    (hpack : pack capacity available groups = .ok sectors) :
    ∀ s ∈ sectors, s.bitLength ≤ capacity ∧ ∀ a : Assignment,
      (∀ (k : Nat) (i : Item), s.items[k]? = some i → i.isActive a = true →
        s.layout[k]? = some (activeBits a (s.items.take k), i.bits)) ∧
      activeBits a s.items = s.bitLength := by
  have hm := Model.sound_of_build hbuild herrors
  obtain ⟨cursor, placed, hplaces, -, rfl⟩ := placesGroups_of_pack hpack
  intro s hs
  obtain ⟨n, -, rfl⟩ := List.mem_map.1 hs
  obtain ⟨us, bits, haligned, hle⟩ := hplaces.aligned hm hgroups n
  have hregroups := hplaces.regroups hm hgroups n
  have hlength : (sectorOf placed n).bitLength = bits :=
    (Sector.bitLength_of_regroups hregroups).trans (Sector.bitLength_eq haligned)
  rw [hlength]
  refine ⟨hle, fun a => ⟨fun k i hi hactive => ?_, ?_⟩⟩
  · have hfollows := Sector.follows_of_regroups (s := ([], 0)) hregroups
      (Sector.follows_layout haligned a)
    rw [← Nat.zero_add (activeBits a _)]
    exact hfollows.getElem? hi hactive
  · rw [Sector.activeBits_of_regroups hregroups]
    exact haligned.activeBits_eq fun _ hc => (nomatch hc)

namespace Sample

/-- The bits of the items in some sectors, and the number of their conditions. -/
def shape (sectors : List Sector) : List (List (Nat × Nat)) :=
  sectors.map fun s => s.items.map fun i => (i.bits, i.conditions.length)

/-- The union of the small layout is spread over two sectors of sixteen bits, and the other data
object follows in a third. -/
theorem packed : (Model.build config registry).map
      (fun m => (pack 16 8 m.groups).toOption.map shape) =
    some (some [[(2, 0), (8, 1), (6, 1), (8, 1), (6, 1)], [(16, 1), (16, 1)], [(8, 0)]]) := by
  decide +kernel

/-- The small layout can be packed. -/
theorem packs : ∃ m sectors, Model.build config registry = some m ∧ m.errors = [] ∧
    pack 16 8 m.groups = .ok sectors ∧
    shape sectors = [[(2, 0), (8, 1), (6, 1), (8, 1), (6, 1)], [(16, 1), (16, 1)], [(8, 0)]] := by
  obtain ⟨m, hm, herrors⟩ := Option.map_eq_some_iff.1 built
  have hpacked := packed
  rw [hm, Option.map_some, Option.some.injEq] at hpacked
  obtain ⟨sectors, hsectors, hshape⟩ := Option.map_eq_some_iff.1 hpacked
  exact ⟨m, sectors, hm, herrors, ok_of_toOption hsectors, hshape⟩

theorem length_of_shape {sectors : List Sector} {sizes : List (List (Nat × Nat))}
    (h : shape sectors = sizes) : sectors.length = sizes.length := by
  rw [← h, shape, List.length_map]

/-- The branches of the union are aligned in every sector. -/
theorem aligned_in_all_sectors : ∃ m sectors, Model.build config registry = some m ∧
    pack 16 8 m.groups = .ok sectors ∧ sectors.length = 3 ∧
    ∀ s ∈ sectors, s.bitLength ≤ 16 ∧ ∀ a : Assignment,
      (∀ (k : Nat) (i : Item), s.items[k]? = some i → i.isActive a = true →
        s.layout[k]? = some (activeBits a (s.items.take k), i.bits)) ∧
      activeBits a s.items = s.bitLength := by
  obtain ⟨m, sectors, hm, herrors, hpack, hshape⟩ := packs
  have hgrouping := (Model.sound_of_build hm herrors).grouping
  exact ⟨m, sectors, hm, hpack, length_of_shape hshape,
    aligned_of_pack hm herrors hgrouping hpack⟩

end Sample

end BitLayout
