import BitLayout.Proofs.Sector.LeafOffsets
import BitLayout.Proofs.Sector.Order

/-!
# BitLayout.Proofs.Sector.Content

What the sectors hold. Under an assignment of variants to unions, the leaves that travel in all
sectors, one sector after the other, are those of the data objects, each once and in order. Padding
travels for nothing, and what is left out counts only if it has a default.

* `Places.leavesUnder_eq`: what is placed has the leaves of the values, in their order;
* `leavesUnder_sectors`: sectors hold it in the same order, since what travels together is sorted;
* `Path.Reached.origin_mem`: a value tells the data object that it belongs to.

Main statement: `content_of_pack`.
-/

namespace BitLayout

open Packing

/-- Whether an item counts: it is no padding, and not left out without a default. -/
def Item.isKept (i : Item) : Bool := !i.isPadding && (!i.isOmitted || i.isDefaulted)

/-- Whether an item is left out and has no default, so that nothing stands for it. -/
def Item.isDropped (i : Item) : Bool := i.isOmitted && !i.isDefaulted

/-- The leaves of some items that travel under an assignment. -/
def leavesUnder (a : Assignment) (items : List Item) : List Item :=
  (items.flatMap Item.leaves).filter fun i => i.isActive a && i.isKept

variable {a : Assignment} {items : List Item}

/-! ## leaves that travel -/

theorem leavesUnder_append (a : Assignment) (is js : List Item) :
    leavesUnder a (is ++ js) = leavesUnder a is ++ leavesUnder a js := by
  simp only [leavesUnder, List.flatMap_append, List.filter_append]

theorem leavesUnder_cons (a : Assignment) (i : Item) (is : List Item) :
    leavesUnder a (i :: is) = leavesUnder a [i] ++ leavesUnder a is :=
  leavesUnder_append a [i] is

theorem leavesUnder_row_cons (a : Assignment) (cs : List Condition) (p : Path) (ps : List Path) :
    leavesUnder a (Item.row cs (p :: ps)) =
      leavesUnder a [⟨cs, .value p⟩] ++ leavesUnder a (Item.row cs ps) :=
  leavesUnder_cons a _ _

theorem leavesUnder_flatMap {α : Type} (a : Assignment) (xs : List α) (f : α → List Item) :
    leavesUnder a (xs.flatMap f) = xs.flatMap fun x => leavesUnder a (f x) := by
  induction xs with
  | nil => rfl
  | cons x xs ih => simp only [List.flatMap_cons, leavesUnder_append, ih]

/-- Items with the same leaves have the same ones that travel. -/
theorem leavesUnder_congr {is js : List Item}
    (h : is.flatMap Item.leaves = js.flatMap Item.leaves) :
    leavesUnder a is = leavesUnder a js := by
  simp only [leavesUnder, h]

theorem leavesUnder_padding (cs : List Condition) (bits : Nat) (trailing : Bool) :
    leavesUnder a [.padding cs bits trailing] = [] := by
  have hkept : (Item.padding cs bits trailing).isKept = false := rfl
  simp only [leavesUnder, List.flatMap_singleton, Item.leaves_of_whole (Item.canSplit_padding ..),
    List.filter_singleton, hkept, Bool.and_false, cond_false]

/-- Nothing travels of an item that is not active. -/
theorem leavesUnder_of_inactive {i : Item} (h : i.isActive a = false) : leavesUnder a [i] = [] := by
  simp only [leavesUnder, List.flatMap_singleton, List.filter_eq_nil_iff, Bool.and_eq_true, not_and]
  intro leaf hleaf hactive
  obtain ⟨ds, hds⟩ := Item.conditions_of_mem_leaves hleaf
  simp only [Item.isActive, hds, List.all_append, Bool.and_eq_true] at hactive
  simp only [Item.isActive, hactive.1, Bool.true_eq_false] at h

/-- Only values that are active count. -/
theorem leavesUnder_filter (a : Assignment) (items : List Item) :
    leavesUnder a (items.filter (·.moves a)) = leavesUnder a items := by
  induction items with
  | nil => rfl
  | cons i items ih =>
    rw [leavesUnder_cons, List.filter_cons]
    by_cases hmoves : i.moves a = true
    · rw [if_pos hmoves, leavesUnder_cons, ih]
    · have hnone : leavesUnder a [i] = [] := by
        cases hactive : i.isActive a with
        | false => exact leavesUnder_of_inactive hactive
        | true =>
          obtain ⟨cs, content⟩ := i
          cases content with
          | padding bits trailing => exact leavesUnder_padding cs bits trailing
          | value p => simp [Item.moves, hactive, Item.isPadding, Item.path?] at hmoves
      rw [if_neg hmoves, ih, hnone, List.nil_append]

/-! ## placing -/

section

variable {capacity : Nat} {cs : List Condition} {ps : List Path} {c c' : Cursor}
  {out : List Placed}

/-- Nothing travels of padding. -/
theorem leavesUnder_of_padding {xs : List Placed}
    (h : ∀ x ∈ xs, ∃ cs bits trailing, x.item = .padding cs bits trailing) :
    leavesUnder a (xs.map Placed.item) = [] := by
  induction xs with
  | nil => rfl
  | cons x xs ih =>
    obtain ⟨⟨cs, bits, trailing, hx⟩, hxs⟩ := List.forall_mem_cons.1 h
    rw [List.map_cons, leavesUnder_cons, hx, leavesUnder_padding, ih hxs, List.nil_append]

/-- What nothing stands for is its own leaf, takes no bits, and does not count. -/
theorem Item.dropped {i : Item} (h : i.isDropped = true) :
    i.leaves = [i] ∧ i.bits = 0 ∧ i.isKept = false := by
  rw [isDropped, Bool.and_eq_true, Bool.not_eq_true'] at h
  obtain ⟨homit, hdefault⟩ := h
  have hkept : i.isKept = false := by simp [isKept, homit, hdefault]
  obtain ⟨cs, content⟩ := i
  cases content with
  | padding bits trailing => cases homit
  | value p =>
    exact ⟨leaves_of_whole (canSplit_of_omitted homit), Step.bits_of_omitted homit, hkept⟩

/-- Nothing travels of what nothing stands for. -/
theorem leavesUnder_of_dropped {i : Item} (h : i.isDropped = true) : leavesUnder a [i] = [] := by
  obtain ⟨hleaves, -, hkept⟩ := Item.dropped h
  simp [leavesUnder, hleaves, hkept]

/-- What travels of a branch is what travels of its parts. -/
theorem leavesUnder_branch (a : Assignment) (b : Branch) :
    leavesUnder a b.items = leavesUnder a b.parts := by
  rw [Branch.items, leavesUnder_append]
  split
  · exact List.append_nil _
  · rw [leavesUnder_padding, List.append_nil]

/-- What is placed of a union that is switched, if the branches are placed with their leaves. -/
theorem leavesUnder_joinBranches {p : Path} {d : Cursor} {ends : List (Variant × Placement)}
    (h : ∀ e ∈ ends, leavesUnder a (e.2.2.map Placed.item) =
      leavesUnder a (Item.row (e.1.conditions cs p) e.1.parts)) :
    leavesUnder a ((joinBranches capacity d (branchesOf cs p ends)).2.map Placed.item) =
      leavesUnder a ((ends.map Prod.fst).flatMap fun v => (v.branch cs p).items) := by
  have hends := fun e he => (upto_joinBranches capacity d (branchesOf cs p ends)).2.1 e he
  generalize hfinish : (joinBranches capacity d (branchesOf cs p ends)).1 = finish at hends
  have hplaced : (joinBranches capacity d (branchesOf cs p ends)).2 = ends.flatMap fun e =>
      e.2.2 ++ fillBranch capacity (e.1.conditions cs p) e.2.1 finish := by
    rw [← hfinish]
    simp only [joinBranches, branchesOf, List.flatMap_map]
  rw [hplaced, List.map_flatMap, List.flatMap_map, leavesUnder_flatMap, leavesUnder_flatMap]
  refine List.flatMap_congr fun e he => ?_
  have hpadding : leavesUnder a ((fillBranch capacity (e.1.conditions cs p) e.2.1 finish).map
      Placed.item) = [] := by
    refine leavesUnder_of_padding fun x hx => ?_
    have hupto := hends _ (List.mem_map_of_mem he)
    exact ⟨_, (mem_fillBranch hupto.sector_le hx).2.2⟩
  rw [List.map_append, leavesUnder_append, h e he, hpadding, List.append_nil, leavesUnder_branch]
  rfl

/-- **Content**: what is placed has the leaves of the values, in their order. -/
theorem Places.leavesUnder_eq (h : Places capacity cs ps c c' out) (a : Assignment) :
    leavesUnder a (out.map Placed.item) = leavesUnder a (Item.row cs ps) := by
  induction h with
  | nil => rfl
  | @omitted cs p ps c c' out homit h ih =>
    rw [List.map_append, leavesUnder_append, ih, leavesUnder_row_cons]
    cases hdefault : p.last.decl.encoding.default.isSome with
    | true => rfl
    | false =>
      have hdropped : (Item.mk cs (.value p)).isDropped = true := by
        rw [Item.isDropped, Bool.and_eq_true, Bool.not_eq_true']
        exact ⟨homit, hdefault⟩
      rw [leavesUnder_of_dropped hdropped]
      rfl
  | @fits cs p ps c c' out homit hfit h ih =>
    rw [List.map_cons, leavesUnder_cons, ih, leavesUnder_row_cons]
    rfl
  | @row cs p ps qs c d c' inner out homit hfit hp hinner h ihinner ih =>
    have hleaves : [(⟨cs, .value p⟩ : Item)].flatMap Item.leaves =
        (Item.row cs qs).flatMap Item.leaves := by
      rw [List.flatMap_singleton, Item.leaves_of_parts homit hp]
    rw [List.map_append, leavesUnder_append, ihinner, ih, leavesUnder_row_cons,
      leavesUnder_congr hleaves]
  | @union cs p ps shared arms c d c' first out ends homit hfit hs hfirst harms hends h ihfirst
      ihends ih =>
    have hleaves : [(⟨cs, .value p⟩ : Item)].flatMap Item.leaves =
        (Item.row cs shared ++ arms.flatMap fun v => (v.branch cs p).items).flatMap
          Item.leaves := by
      rw [List.flatMap_singleton, Item.leaves_of_switch homit hs, List.flatMap_append,
        List.flatMap_assoc]
    rw [List.map_append, List.map_append, leavesUnder_append, leavesUnder_append, ihfirst,
      leavesUnder_joinBranches ihends, harms, ih, leavesUnder_row_cons, leavesUnder_congr hleaves,
      leavesUnder_append]
  | @next cs p ps c c' out homit hfit hwhole hbits h ih =>
    have hfill : leavesUnder a ((fill capacity cs c).map Placed.item) = [] :=
      leavesUnder_of_padding fun x hx => ⟨cs, (mem_fill hx).2⟩
    rw [List.map_append, leavesUnder_append, hfill, List.nil_append, List.map_cons,
      leavesUnder_cons, ih, leavesUnder_row_cons]
    rfl

end

/-- What is placed for groups has the leaves of their data objects, in their order. -/
theorem PlacesGroups.leavesUnder_eq {capacity : Nat} {groups : List (List Decl)}
    {before after : Placement} (h : PlacesGroups capacity groups before after) (a : Assignment) :
    leavesUnder a (after.2.map Placed.item) =
      leavesUnder a (before.2.map Placed.item) ++
        leavesUnder a (groups.flatten.map Item.root) := by
  induction h with
  | nil => exact (List.append_nil _).symm
  | @cons objects groups before after c more h hrest ih =>
    obtain ⟨padding, hopened, hpadding⟩ := opened_eq capacity before
    rw [ih, hopened, List.map_append, leavesUnder_append, h.leavesUnder_eq, Item.row_roots,
      List.map_append, leavesUnder_append, leavesUnder_of_padding fun x hx => ⟨[], hpadding x hx⟩,
      List.append_nil, List.flatten_cons, List.map_append, leavesUnder_append, List.append_assoc]

/-! ## sectors -/

/-- The sectors that are needed hold what is sorted, in its order. -/
theorem leavesUnder_sectors {placed : List Placed} (hsorted : Sorted a placed)
    (hmerged : ∀ s, Regroups (inSector s placed) (sectorOf placed s).items) :
    leavesUnder a (((List.range (sectorsNeeded placed)).map (sectorOf placed)).flatMap
      Sector.items) = leavesUnder a (placed.map Placed.item) := by
  have hsector (s : Nat) : leavesUnder a (sectorOf placed s).items =
      leavesUnder a (((placed.filter (·.item.moves a)).filter (·.sector = s)).map Placed.item) := by
    rw [← leavesUnder_congr (hmerged s).leaves_eq, ← leavesUnder_filter, inSector,
      List.filter_map, List.filter_filter, List.filter_filter]
    congr 2
    exact List.filter_congr fun x _ => Bool.and_comm ..
  have hall : (placed.filter (·.item.moves a)).filter (·.sector < sectorsNeeded placed) =
      placed.filter (·.item.moves a) :=
    List.filter_eq_self.2 fun x hx => decide_eq_true (lt_sectorsNeeded x (List.mem_filter.1 hx).1)
  calc leavesUnder a (((List.range (sectorsNeeded placed)).map (sectorOf placed)).flatMap
        Sector.items)
    _ = (List.range (sectorsNeeded placed)).flatMap fun s => leavesUnder a
          (((placed.filter (·.item.moves a)).filter (·.sector = s)).map Placed.item) := by
      rw [List.flatMap_map, leavesUnder_flatMap]
      exact List.flatMap_congr fun s _ => hsector s
    _ = leavesUnder a ((placed.filter (·.item.moves a)).map Placed.item) := by
      rw [← leavesUnder_flatMap, ← List.map_flatMap, flatMap_sectors hsorted, hall]
    _ = leavesUnder a (placed.map Placed.item) := by
      rw [← leavesUnder_filter a (placed.map Placed.item), List.filter_map]
      rfl

/-! ## data objects -/

/-- The data object that a path leads down from. -/
def Path.origin (p : Path) : Decl := (p.owners.head?.getD p.last).decl

namespace Path

variable {p : Path}

theorem origin_member (p : Path) (d : Decl) : (p.member d).origin = p.origin := by
  obtain ⟨owners, last⟩ := p
  cases owners <;> rfl

theorem origin_withAccesses (p : Path) (accesses : List Access) :
    (p.withAccesses accesses).origin = p.origin := by
  obtain ⟨owners, last⟩ := p
  cases owners <;> rfl

/-- A value is reached from the data object that its path begins with. -/
theorem Reached.origin_mem {roots : List Decl} {cs : List Condition} (h : p.Reached roots cs) :
    p.origin ∈ roots := by
  induction h with
  | root hd => exact hd
  | part h homit hp hq ih =>
    cases hp with
    | slice =>
      obtain ⟨b, -, rfl⟩ := List.mem_map.1 hq
      rwa [origin_withAccesses]
    | rank =>
      obtain ⟨b, -, rfl⟩ := List.mem_map.1 hq
      rwa [access, origin_withAccesses]
    | struct =>
      obtain ⟨d, -, rfl⟩ := List.mem_map.1 hq
      rwa [origin_member]
  | shared h homit hs hq ih =>
    cases hs with
    | external => cases hq
    | internal =>
      obtain ⟨d, -, rfl⟩ := List.mem_map.1 hq
      rwa [origin_member, origin_member]
  | arm h homit hs ha hq ih =>
    obtain ⟨v, -, -, ⟨hsub, -⟩ | hparts⟩ := hs.variant ha
    · rw [List.mem_singleton.1 (hsub hq)]
      rwa [origin_member]
    · rw [hparts] at hq
      obtain ⟨d, -, rfl⟩ := List.mem_map.1 hq
      rwa [origin_member, origin_member]
  | slice h homit hs hr ha ih => rwa [access, origin_withAccesses]

end Path

/-! ## content -/

/-- **Nothing is lost, doubled or reordered.** Under every assignment of variants to unions, the
leaves that travel in the sectors of a packing are those of the data objects, in their order; and no
sector holds values of two groups. -/
theorem content_of_pack {c : Config} {g : Registry} {m : Model} {groups : List (List Decl)}
    {capacity available : Nat} {sectors : List Sector} (hbuild : Model.build c g = some m)
    (herrors : m.errors = []) (hgroups : m.Grouping groups)
    (hpack : pack capacity available groups = .ok sectors) :
    (∀ a : Assignment, leavesUnder a (sectors.flatMap Sector.items) =
      leavesUnder a (groups.flatten.map Item.root)) ∧
    ∀ s ∈ sectors, ∀ i ∈ s.items, ∀ j ∈ s.items, ∀ p q : Path,
      i.content = .value p → j.content = .value q →
      ∃ objects ∈ groups, p.origin ∈ objects ∧ q.origin ∈ objects := by
  have hm := Model.sound_of_build hbuild herrors
  obtain ⟨cursor, placed, hplaces, -, rfl⟩ := placesGroups_of_pack hpack
  constructor
  · intro a
    have hsorted : Sorted a placed :=
      hplaces.sorted hm hgroups.sub (fun _ hx => (nomatch hx)) .nil
    rw [leavesUnder_sectors hsorted (hplaces.regroups hm hgroups)]
    exact hplaces.leavesUnder_eq a
  · intro s hs i hi j hj p q hp hq
    obtain ⟨n, -, rfl⟩ := List.mem_map.1 hs
    have hregroups := hplaces.regroups hm hgroups n
    obtain ⟨run, hrun, hmerges⟩ := hregroups.exists_run hi
    obtain ⟨run', hrun', hmerges'⟩ := hregroups.exists_run hj
    obtain ⟨first, hfirst⟩ := List.exists_mem_of_ne_nil run hmerges.ne_nil
    obtain ⟨x, hx, -⟩ := List.mem_map.1 (hrun hfirst)
    obtain ⟨hx, hxn⟩ := List.mem_filter.1 hx
    rw [decide_eq_true_eq] at hxn
    obtain ⟨objects, hobjects, hlies⟩ := hplaces.apart (List.Subset.refl groups)
      (fun _ hx => (nomatch hx)) (fun _ hx => (nomatch hx)) x hx
    have hsector : ∀ k ∈ inSector n placed, k.Lies objects := by
      intro k hk
      obtain ⟨y, hy, rfl⟩ := List.mem_map.1 hk
      obtain ⟨hy, hyn⟩ := List.mem_filter.1 hy
      rw [decide_eq_true_eq] at hyn
      exact hlies y hy (hyn.trans hxn.symm)
    have hip := hmerges.lies (fun k hk => hsector k (hrun hk)) p hp
    have hjq := hmerges'.lies (fun k hk => hsector k (hrun' hk)) q hq
    exact ⟨objects, hobjects, hip.origin_mem, hjq.origin_mem⟩

/-- The small layout keeps what it is made of, and its data objects apart. -/
theorem Sample.keeps_content : ∃ m sectors, Model.build config registry = some m ∧
    pack 16 8 m.groups = .ok sectors ∧ sectors.length = 3 ∧
    (∀ a : Assignment, leavesUnder a (sectors.flatMap Sector.items) =
      leavesUnder a (m.groups.flatten.map Item.root)) ∧
    ∀ s ∈ sectors, ∀ i ∈ s.items, ∀ j ∈ s.items, ∀ p q : Path,
      i.content = .value p → j.content = .value q →
      ∃ objects ∈ m.groups, p.origin ∈ objects ∧ q.origin ∈ objects := by
  obtain ⟨m, sectors, hm, herrors, hpack, hshape⟩ := packs
  have hgrouping := (Model.sound_of_build hm herrors).grouping
  exact ⟨m, sectors, hm, hpack, length_of_shape hshape,
    content_of_pack hm herrors hgrouping hpack⟩

end BitLayout
