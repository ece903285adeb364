import BitLayout.Proofs.Decl.Numbers
import BitLayout.Proofs.Sector.Flattening
import BitLayout.Proofs.Sector.Fusion

/-!
# BitLayout.Proofs.Sector.Unpacking

Arrays that are taken apart are put together again. To *unpack* is to take apart one item of a list,
in its place, that stands for elements of an array. Which ones, and how often, is left open:

```
grid  -->  grid[0] grid[1] grid[2]  -->  grid[0] grid[1][0] grid[1][1] grid[2]
```

Steps of merging lead back from every such list to the item, a rank of length one by leaving out its
only index. Merging itself may go other steps, such as to join `grid[1][1]` with nothing before
`grid[1]` is whole, but all of them lead to the same list.

* `Item.Inhabited.fuses_expand`: steps of merging undo taking an array apart;
* `Item.Unpacks.fuses_all`: they undo unpacking;
* `mergeItems_of_unpacks`: merging leads from there to where it leads from the item;
* `mergeItems_between`: an item without an index keeps what is merged around it apart.

Main statement: `merging_undoes_unpacking`.
-/

namespace BitLayout

open Relation

/-! ## unpacking -/

/-- Whether an item stands for elements of an array, rather than for one element. -/
def Item.isArray (i : Item) : Bool := i.last?.any Step.isArray

/-- One array in a list is taken apart, in its place. -/
inductive Item.Unpacks : List Item → List Item → Prop where
  | head {i : Item} (h : i.isArray = true) (items : List Item) :
    Unpacks (i :: items) (i.expand ++ items)
  | tail (i : Item) {items out : List Item} (h : Unpacks items out) :
    Unpacks (i :: items) (i :: out)

/-- An item that can come up, in an array of at least one element. -/
structure Item.Inhabited (roots : List Decl) (i : Item) : Prop where
  solid : i.Solid roots
  positive : ∀ n ∈ i.remaining, 0 < n

variable {m : Model} {roots : List Decl} {i j : Item} {items xs ys front back : List Item}

namespace Item

/-- Steps of merging lead from single indices, one behind the other, to their run. -/
theorem fuses_singles (cs : List Condition) (p : Path) (start more : Nat) :
    ReflTransGen Fuses (row cs ((Access.mk start (more + 1)).singles.map p.access))
      [⟨cs, .value (p.access ⟨start, more + 1⟩)⟩] := by
  induction more generalizing start with
  | zero => exact .refl
  | succ more ih =>
    have hrest := Fuses.within (ih (start + 1)) [⟨cs, .value (p.access (.single start))⟩] []
    have hjoin := join_access cs p (x := .single start) (y := ⟨start + 1, more + 1⟩) rfl
    rw [List.append_nil, List.append_nil] at hrest
    have hstep := hrest.tail (.join hjoin [])
    rwa [show (Access.single start).count + (more + 1) = more + 1 + 1 from Nat.add_comm ..] at hstep

/-- What an array is taken apart into: the indices of its last run, or of its first rank. -/
theorem array_cases {s : Split} (harray : i.isArray = true) (h : i.split? = some s) :
    ∃ cs p a, i.expand = row cs (a.singles.map p.access) ∧
      (i = ⟨cs, .value (p.access a)⟩ ∨ i = ⟨cs, .value p⟩ ∧ a.start = 0 ∧ p.Rank a.count) := by
  rw [expand_of_split h]
  obtain ⟨cs, p, rfl, homit, ⟨ps, hp, rfl⟩ | ⟨shared, arms, hs, rfl⟩⟩ := split_cases h
  · cases hp with
    | @slice a hs =>
      refine ⟨cs, p.withAccesses p.last.accesses.dropLast, a, rfl, .inl ?_⟩
      rw [← Path.eq_access_of_slice hs]
    | @rank extent rest hs hr =>
      exact ⟨cs, p, ⟨0, extent⟩, rfl, .inr ⟨rfl, rfl, homit, hs, rest, hr⟩⟩
    | struct hs hr =>
      simp [isArray, last?, path?, Step.isArray, hs, hr] at harray
  · cases hs with
    | external hs hr => simp [isArray, last?, path?, Step.isArray, hs, hr] at harray
    | internal hs hr => simp [isArray, last?, path?, Step.isArray, hs, hr] at harray

/-- Steps of merging undo taking an array apart. -/
theorem Inhabited.fuses_expand (hi : i.Inhabited roots) (harray : i.isArray = true) :
    ReflTransGen Fuses i.expand [i] := by
  cases hsplit : i.split? with
  | none =>
    rw [expand, hsplit]
    exact .refl
  | some s =>
    obtain ⟨cs, p, ⟨start, count⟩, hexpand, rfl | ⟨rfl, rfl, hrank⟩⟩ := array_cases harray hsplit
    · obtain ⟨more, rfl⟩ := Nat.exists_eq_add_one.2 (hi.solid.filled cs p _ rfl)
      rw [hexpand]
      exact fuses_singles cs p start more
    · obtain ⟨rest, hr⟩ := hrank.remaining
      have hmem : count ∈ p.last.remaining := hr ▸ List.mem_cons_self
      obtain ⟨more, rfl⟩ := Nat.exists_eq_add_one.2 (hi.positive count hmem)
      obtain ⟨hcovers, huncovered⟩ := covers_access cs hrank
      have hstep := Fuses.uncover hcovers []
      rw [huncovered] at hstep
      rw [hexpand]
      exact (fuses_singles cs p 0 more).tail hstep

/-- What an array is taken apart into has no ranks left but those that the array has. -/
theorem remaining_of_mem_expand (harray : i.isArray = true) (hj : j ∈ i.expand) :
    j.remaining ⊆ i.remaining := by
  cases hsplit : i.split? with
  | none =>
    rw [expand, hsplit] at hj
    rw [List.mem_singleton.1 hj]
    exact List.Subset.refl _
  | some s =>
    obtain ⟨cs, p, a, hexpand, hi⟩ := array_cases harray hsplit
    rw [hexpand] at hj
    obtain ⟨q, hq, rfl⟩ := List.mem_map.1 hj
    obtain ⟨b, hb, rfl⟩ := List.mem_map.1 hq
    have hlength (a b : Access) : (p.access a).last.remaining = (p.access b).last.remaining := by
      simp [Step.remaining, Path.access, Path.withAccesses]
    rcases hi with rfl | ⟨rfl, -, -⟩
    · change (p.access b).last.remaining ⊆ (p.access a).last.remaining
      rw [hlength b a]
      exact List.Subset.refl _
    · change (p.access b).last.remaining ⊆ p.last.remaining
      have hdrop : (p.access b).last.remaining = p.last.remaining.drop 1 := by
        simp [Step.remaining, Path.access, Path.withAccesses]
      exact hdrop ▸ List.drop_subset ..

theorem Inhabited.expand (h : i.Inhabited roots) (harray : i.isArray = true) (hj : j ∈ i.expand) :
    j.Inhabited roots :=
  ⟨h.solid.expand hj, fun n hn => h.positive n (remaining_of_mem_expand harray hj hn)⟩

namespace Unpacks

theorem inhabited (h : Unpacks xs ys) (hxs : ∀ i ∈ xs, i.Inhabited roots) :
    ∀ i ∈ ys, i.Inhabited roots := by
  induction h with
  | head harray items =>
    obtain ⟨hi, hitems⟩ := List.forall_mem_cons.1 hxs
    exact List.forall_mem_append.2 ⟨fun j hj => hi.expand harray hj, hitems⟩
  | tail i _ ih =>
    obtain ⟨hi, hitems⟩ := List.forall_mem_cons.1 hxs
    exact List.forall_mem_cons.2 ⟨hi, ih hitems⟩

/-- Steps of merging undo taking one array apart. -/
theorem fuses (h : Unpacks xs ys) (hxs : ∀ i ∈ xs, i.Inhabited roots) :
    ReflTransGen Fuses ys xs := by
  induction h with
  | head harray items =>
    have hback := (hxs _ List.mem_cons_self).fuses_expand harray
    exact Fuses.within hback [] items
  | tail i _ ih =>
    have hback := ih (List.forall_mem_cons.1 hxs).2
    exact hback.lift (i :: ·) fun _ _ hstep => .tail i hstep

/-- Steps of merging undo all unpacking. -/
theorem fuses_all (h : ReflTransGen Unpacks xs ys) (hxs : ∀ i ∈ xs, i.Inhabited roots) :
    ReflTransGen Fuses ys xs ∧ ∀ i ∈ ys, i.Inhabited roots := by
  induction h with
  | refl => exact ⟨.refl, hxs⟩
  | tail _ hstep ih => exact ⟨(hstep.fuses ih.2).trans ih.1, hstep.inhabited ih.2⟩

end Unpacks

end Item

/-! ## items without an index -/

/-- An item without an index at its end joins no other, and is joined by none. -/
theorem Item.join_of_unindexed (h : ∀ s ∈ i.last?, s.accesses = []) (j : Item) :
    i.join? j = none ∧ j.join? i = none := by
  have hnone {s : Step} (hs : s ∈ i.last?) : s.accesses.getLast? = none := by
    rw [h s hs]
    rfl
  constructor
  · cases hjoin : i.join? j with
    | none => rfl
    | some joined =>
      obtain ⟨p, q, last, hp, -, -, -, hlast, -⟩ := Item.join_spec hjoin
      obtain ⟨-, -, x, y, hx, -⟩ := Step.join_spec hlast
      rw [hnone (by simp [Item.last?, Item.path?, hp])] at hx
      cases hx
  · cases hjoin : j.join? i with
    | none => rfl
    | some joined =>
      obtain ⟨q, p, last, -, hp, -, -, hlast, -⟩ := Item.join_spec hjoin
      obtain ⟨-, -, x, y, -, hy, -⟩ := Step.join_spec hlast
      rw [hnone (by simp [Item.last?, Item.path?, hp])] at hy
      cases hy

/-- No index of an item covers its rank if there is none. -/
theorem Item.coversRank_of_unindexed (h : ∀ s ∈ i.last?, s.accesses = []) :
    i.coversRank = false := by
  cases hlast : i.last? with
  | none => simp [coversRank, hlast]
  | some s => simp [coversRank, hlast, Step.coversRank, h s hlast]

/-- An item without an index keeps what is merged around it apart. -/
theorem mergeItems_between (hm : m.Numbered) (hi : i.Solid m.roots)
    (hfront : ∀ j ∈ front, j.Solid m.roots) (hback : ∀ j ∈ back, j.Solid m.roots)
    (h : ∀ s ∈ i.last?, s.accesses = []) :
    mergeItems (front ++ i :: back) = mergeItems front ++ i :: mergeItems back := by
  have hsteps : ReflTransGen Fuses (front ++ i :: back)
      (mergeItems front ++ i :: mergeItems back) := by
    have hfirst := Fuses.within (fuses_mergeItems front) [] (i :: back)
    have hrest := Fuses.within (fuses_mergeItems back) (mergeItems front ++ [i]) []
    simp only [List.nil_append, List.append_nil, List.append_assoc, List.singleton_append]
      at hfirst hrest
    exact hfirst.trans hrest
  have hsettled : Settled (mergeItems front ++ i :: mergeItems back) := by
    obtain ⟨-, hf⟩ := settled_mergeItems front
    obtain ⟨-, hb⟩ := settled_mergeItems back
    refine ⟨List.forall_mem_append.2 ⟨hf.uncovered, List.forall_mem_cons.2
      ⟨Item.coversRank_of_unindexed h, hb.uncovered⟩⟩, ?_⟩
    refine List.isChain_append.2 ⟨hf.apart, List.isChain_cons.2 ⟨?_, hb.apart⟩, ?_⟩
    · exact fun j _ => (Item.join_of_unindexed h j).1
    · intro j _ k hk
      cases hk
      exact (Item.join_of_unindexed h j).2
  rw [mergeItems_of_fuses hm (List.forall_mem_append.2 ⟨hfront, List.forall_mem_cons.2 ⟨hi, hback⟩⟩)
    hsteps]
  exact hsettled.eq_of_fuses (fuses_mergeItems _)

/-- An item that is unpacked between others is put together again. -/
theorem mergeItems_of_unpacks {parts : List Item} (hm : m.Numbered) (hi : i.Inhabited m.roots)
    (hparts : ReflTransGen Item.Unpacks [i] parts) (hfront : ∀ j ∈ front, j.Solid m.roots)
    (hback : ∀ j ∈ back, j.Solid m.roots) :
    mergeItems (front ++ parts ++ back) = mergeItems (front ++ i :: back) := by
  obtain ⟨hsteps, hinhabited⟩ := Item.Unpacks.fuses_all hparts (List.forall_mem_singleton.2 hi)
  have hall : ∀ j ∈ front ++ parts ++ back, j.Solid m.roots :=
    List.forall_mem_append.2 ⟨List.forall_mem_append.2
      ⟨hfront, fun j hj => (hinhabited j hj).solid⟩, hback⟩
  rw [mergeItems_of_fuses hm hall (Fuses.within hsteps front back), List.append_assoc,
    List.singleton_append]

/-- **Merging undoes unpacking.** Take an item that is obtained from the data objects of any model
and has no empty ranks left, and unpack it in any way, as far as wanted:

* merging what comes of it leads to the same list as merging the item;
* so it does between other items;
* if all of it is placed in one sector, and the item has no index at its end, then the item is in
  the sector again, and what stands around it is merged on its own. -/
theorem merging_undoes_unpacking {c : Config} {g : Registry} {m : Model}
    (hbuild : Model.build c g = some m) {i : Item} {parts : List Item} (hi : i.Obtained m.roots)
    (hpos : ∀ n ∈ i.remaining, 0 < n) (hparts : ReflTransGen Item.Unpacks [i] parts) :
    mergeItems parts = mergeItems [i] ∧
      (∀ front back : List Item, (∀ j ∈ front, j.Obtained m.roots) →
        (∀ j ∈ back, j.Obtained m.roots) →
        mergeItems (front ++ parts ++ back) = mergeItems (front ++ i :: back)) ∧
      ((∀ s ∈ i.last?, s.accesses = []) →
        ∀ (capacity : Nat) (groups : List (List Decl)) (after : Placement),
          (∀ d ∈ groups.flatten, d ∈ m.roots) →
          Packing.placeGroups capacity groups = .ok after →
          ∀ (n : Nat) (front back : List Item),
            (after.2.filter (·.sector = n)).map Placed.item = front ++ parts ++ back →
            (Packing.sectorOf after.2 n).items = mergeItems front ++ i :: mergeItems back) := by
  have hm := Model.numbered_of_build hbuild
  have hsolid {items : List Item} (h : ∀ j ∈ items, j.Obtained m.roots) :
      ∀ j ∈ items, j.Solid m.roots := fun j hj => (h j hj).solid hm
  have hbetween : ∀ front back : List Item, (∀ j ∈ front, j.Obtained m.roots) →
      (∀ j ∈ back, j.Obtained m.roots) →
      mergeItems (front ++ parts ++ back) = mergeItems (front ++ i :: back) :=
    fun front back hfront hback =>
      mergeItems_of_unpacks hm ⟨hi.solid hm, hpos⟩ hparts (hsolid hfront) (hsolid hback)
  refine ⟨by simpa using hbetween [] [], hbetween, ?_⟩
  intro hunindexed capacity groups after hgroups hplace n front back hsector
  have hplaced := (Packing.placesGroups_of_foldlM hplace).obtained hgroups
  have hall : ∀ j ∈ front ++ parts ++ back, j.Obtained m.roots := by
    intro j hj
    rw [← hsector] at hj
    obtain ⟨x, hx, rfl⟩ := List.mem_map.1 hj
    exact hplaced x (List.mem_filter.1 hx).1
  obtain ⟨hfirst, hback⟩ := List.forall_mem_append.1 hall
  obtain ⟨hfront, -⟩ := List.forall_mem_append.1 hfirst
  change mergeItems _ = _
  rw [hsector, hbetween front back hfront hback]
  exact mergeItems_between hm (hi.solid hm) (hsolid hfront) (hsolid hback) hunindexed

namespace Sample

/-- The arrays of the grid. -/
def arraysOf (m : Model) : List Item := (m.roots.map Item.root).flatMap Item.expand

theorem arrays_grid : (Model.build onGrid gridded).map (fun m => (arraysOf m).map fun i =>
    (i.remaining, i.last?.all (·.accesses.isEmpty), (i :: i.expand).map Item.isArray)) =
    some [([3, 2], true, [true, true, true, true]),
      ([4], true, [true, false, false, false, false])] := by
  decide +kernel

/-- In sectors of 56 bits, all bytes behind the grid come to stand in the second one. -/
theorem placed_grid : (Model.build onGrid gridded).bind (fun m =>
    (Packing.placeGroups 56 [m.roots]).toOption.map fun after =>
      let bytes := ((arraysOf m).drop 1).flatMap Item.expand
      bytes == (after.2.filter (·.sector = 1)).map Placed.item && bytes.all (!·.isPadding)) =
    some true := by
  decide +kernel

/-- The second of three rows is taken apart, and becomes part of the grid again. The bytes behind
the grid do not fit into its sector, and are whole again in the next one. -/
theorem mended_grid : ∃ m grid tail first second third after,
    Model.build onGrid gridded = some m ∧ arraysOf m = [grid, tail] ∧
    grid.expand = [first, second, third] ∧
    mergeItems (first :: (second.expand ++ [third])) = mergeItems [grid] ∧
    mergeItems (first :: (second.expand ++ [third]) ++ [tail]) = mergeItems [grid, tail] ∧
    Packing.placeGroups 56 [m.roots] = .ok after ∧
    (after.2.filter (·.sector = 1)).map Placed.item = tail.expand ∧
    (Packing.sectorOf after.2 1).items = [tail] := by
  obtain ⟨m, hbuild, hshape⟩ := Option.map_eq_some_iff.1 arrays_grid
  obtain ⟨after, hplace, hsame⟩ := Option.map_eq_some_iff.1 (hbuild ▸ placed_grid)
  obtain ⟨grid, others, harrays, hgrid, hothers⟩ := List.map_eq_cons_iff.1 hshape
  obtain ⟨tail, none, rfl, htail, hnone⟩ := List.map_eq_cons_iff.1 hothers
  obtain rfl := List.map_eq_nil_iff.1 hnone
  simp only [Prod.mk.injEq, List.map_cons, List.cons.injEq] at hgrid htail
  obtain ⟨hgridRanks, -, hgridArray, hrows⟩ := hgrid
  obtain ⟨htailRanks, hindices, htailArray, hbytes⟩ := htail
  have hobtained : ∀ i ∈ arraysOf m, i.Obtained m.roots := Item.obtained_expand Item.obtained_roots
  rw [harrays] at hobtained hsame
  obtain ⟨hgridObtained, htailObtained⟩ := List.forall_mem_cons.1 hobtained
  have htailObtained := List.forall_mem_singleton.1 htailObtained
  -- The grid, of which the second row is taken apart.
  obtain ⟨first, rows, hexpand, -, hrows⟩ := List.map_eq_cons_iff.1 hrows
  obtain ⟨second, rows, rfl, hsecond, hrows⟩ := List.map_eq_cons_iff.1 hrows
  obtain ⟨third, none, rfl, -, hnone⟩ := List.map_eq_cons_iff.1 hrows
  obtain rfl := List.map_eq_nil_iff.1 hnone
  have hunpacks : ReflTransGen Item.Unpacks [grid] (first :: (second.expand ++ [third])) := by
    have hhead := Item.Unpacks.head hgridArray []
    rw [hexpand] at hhead
    exact .tail (.single hhead) (.tail first (.head hsecond [third]))
  obtain ⟨halone, hbetween, -⟩ :=
    merging_undoes_unpacking hbuild hgridObtained (by simp [hgridRanks]) hunpacks
  -- The bytes, which are placed one by one.
  have hafter := Packing.ok_of_toOption hplace
  have hbytes : tail.expand = (after.2.filter (·.sector = 1)).map Placed.item := by
    have hm := Model.numbered_of_build hbuild
    have hplaced : ∀ x ∈ after.2, x.item.Obtained m.roots :=
      (Packing.placesGroups_of_foldlM hafter).obtained (by simp)
    simp only [List.drop_succ_cons, List.drop_zero, List.flatMap_singleton, Bool.and_eq_true,
      List.all_eq_true, Bool.not_eq_true'] at hsame
    refine list_eq_of_beq (fun i hi j hj hij => ?_) hsame.1
    obtain ⟨x, hx, rfl⟩ := List.mem_map.1 hj
    exact ((htailObtained.expand hi).solid hm).lies.eq_of_beq hm
      ((hplaced x (List.mem_filter.1 hx).1).solid hm).lies (hsame.2 i hi) hij
  have hunpacks : ReflTransGen Item.Unpacks [tail] tail.expand := by
    have hhead := Item.Unpacks.head htailArray []
    rw [List.append_nil] at hhead
    exact .single hhead
  obtain ⟨-, -, hmended⟩ :=
    merging_undoes_unpacking hbuild htailObtained (by simp [htailRanks]) hunpacks
  have hwhole : ∀ s ∈ tail.last?, s.accesses = [] := by
    intro s hs
    rw [Option.mem_def.1 hs] at hindices
    exact List.isEmpty_iff.1 hindices
  refine ⟨m, grid, tail, first, second, third, after, hbuild, harrays, hexpand, halone,
    hbetween [] [tail] (fun _ hj => nomatch hj) (List.forall_mem_singleton.2 htailObtained),
    hafter, hbytes.symm, ?_⟩
  exact hmended hwhole 56 [m.roots] after (by simp) hafter 1 [] [] (by simp [hbytes])

end Sample

end BitLayout
