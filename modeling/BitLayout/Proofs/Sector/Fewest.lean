import BitLayout.Proofs.Sector.Arrangement
import Mathlib.Data.Nat.Count
import Mathlib.Order.Bounds.Basic

/-!
# BitLayout.Proofs.Sector.Fewest

No sector is wasted. Groups of data objects may be arranged in any sectors, as long as no two groups
share one; the packer needs no more sectors than any such arrangement:

* `Arranged.squeeze`: the sectors of a group can be numbered one by one, from any number on;
* `placed_of_arranges`: so the packer stays in front of every arrangement, group by group;
* `arranges_of_placed`: what it places is an arrangement too.

Main statement: `fewest_sectors`.
-/

namespace BitLayout

open Packing

/-! ## numbering sectors -/

section

variable {own : Finset Nat} {capacity base s t : Nat} {c d : Cursor}

/-- How many sectors of a set stand in front of a sector. -/
def rank (own : Finset Nat) (s : Nat) : Nat := Nat.count (· ∈ own) s

theorem rank_le (own : Finset Nat) (s : Nat) : rank own s ≤ own.card := by
  rw [rank, Nat.count_eq_card_filter_range]
  exact Finset.card_le_card fun x hx => (Finset.mem_filter.1 hx).2

theorem rank_mono (own : Finset Nat) (h : s ≤ t) : rank own s ≤ rank own t :=
  Nat.count_monotone _ h

theorem rank_lt (hs : s ∈ own) (h : s < t) : rank own s < rank own t := Nat.count_strict_mono hs h

theorem rank_lt_card (hs : s ∈ own) : rank own s < own.card :=
  Nat.lt_of_lt_of_le (rank_lt hs (Nat.lt_succ_self s)) (rank_le own _)

/-- Number the sectors of a set one by one, from `base` on. A position in another sector goes to the
beginning of the next one of the set, or behind them all. -/
def squeeze (capacity : Nat) (own : Finset Nat) (base : Nat) (c : Cursor) : Cursor :=
  if c.sector ∈ own then ⟨base + rank own c.sector, min c.used capacity⟩
  else if rank own c.sector < own.card then ⟨base + rank own c.sector, 0⟩
  else ⟨base + own.card - 1, capacity⟩

theorem squeeze_own (hs : s ∈ own) {used : Nat} (hused : used ≤ capacity) :
    squeeze capacity own base ⟨s, used⟩ = ⟨base + rank own s, used⟩ := by
  rw [squeeze, if_pos hs, Nat.min_eq_left hused]

/-- Numbering keeps the order of positions. -/
theorem squeeze_upto (h : c.Upto d) :
    (squeeze capacity own base c).Upto (squeeze capacity own base d) := by
  unfold squeeze Cursor.Upto
  obtain hlt | ⟨heq, hused⟩ := h
  · have hmono := rank_mono own (Nat.le_of_lt hlt)
    have hle := rank_le own d.sector
    by_cases hc : c.sector ∈ own
    · have hrank := rank_lt hc hlt
      rw [if_pos hc]
      (repeat' split) <;> dsimp only <;> omega
    · rw [if_neg hc]
      by_cases hd : d.sector ∈ own
      · have hrank := rank_lt_card hd
        rw [if_pos hd, if_pos (by omega)]
        dsimp only
        omega
      · rw [if_neg hd]
        (repeat' split) <;> dsimp only <;> omega
  · rw [heq]
    (repeat' split) <;> dsimp only <;> omega

/-- Numbering begins at `base`. -/
theorem upto_squeeze (hne : own.Nonempty) :
    Cursor.Upto ⟨base, 0⟩ (squeeze capacity own base c) := by
  have hpos := Finset.card_pos.2 hne
  unfold squeeze Cursor.Upto
  (repeat' split) <;> dsimp only <;> omega

/-- Numbering ends with the last sector of the set. -/
theorem squeeze_last (hne : own.Nonempty) :
    (squeeze capacity own base c).Upto ⟨base + own.card - 1, capacity⟩ := by
  have hpos := Finset.card_pos.2 hne
  unfold squeeze Cursor.Upto
  by_cases hc : c.sector ∈ own
  · have hrank := rank_lt_card hc
    rw [if_pos hc]
    dsimp only
    omega
  · rw [if_neg hc]
    split <;> dsimp only <;> omega

/-- **Numbering**: leaves that are arranged in some sectors can be arranged in as many that follow
each other. -/
theorem Arranged.squeeze {items : List Item} {spots : List (Item × Cursor)}
    (h : Arranged capacity items c d spots) (hown : ∀ x ∈ spots, x.2.sector ∈ own) (base : Nat) :
    ∃ spots, Arranged capacity items (BitLayout.squeeze capacity own base c)
      (BitLayout.squeeze capacity own base d) spots :=
  ⟨_, h.map squeeze_upto fun x hx => ⟨_, fun _ hused => squeeze_own (hown x hx) hused⟩⟩

end

/-! ## groups -/

/-- Groups of data objects are arranged in the sectors of a set, no two of them in the same one.
Each takes one at least, unless nothing stands for its data objects, so that nothing is placed. -/
inductive Arranges (capacity : Nat) : List (List Decl) → Finset Nat → Prop where
  | nil : Arranges capacity [] ∅
  | idle {objects : List Decl} {groups : List (List Decl)} {used : Finset Nat}
    (hidle : ∀ i ∈ objects.map Item.root, i.isDropped = true) (h : Arranges capacity groups used) :
    Arranges capacity (objects :: groups) used
  | group {objects : List Decl} {groups : List (List Decl)} {own used : Finset Nat} {c d : Cursor}
    {spots : List (Item × Cursor)}
    (hspots : Arranged capacity (objects.map Item.root) c d spots)
    (hown : ∀ x ∈ spots, x.2.sector ∈ own) (hne : own.Nonempty) (hapart : Disjoint own used)
    (h : Arranges capacity groups used) : Arranges capacity (objects :: groups) (own ∪ used)

section

variable {g : Registry} {m : Model} {capacity capacity' n : Nat} {groups : List (List Decl)}
  {used : Finset Nat} {before after : Placement} {objects : List Decl}

/-- An arrangement is one in larger sectors too. -/
theorem Arranges.mono (h : Arranges capacity groups used) (hle : capacity ≤ capacity') :
    Arranges capacity' groups used := by
  induction h with
  | nil => exact .nil
  | idle hidle h ih => exact .idle hidle ih
  | group hspots hown hne hapart h ih => exact .group (hspots.mono hle) hown hne hapart ih

namespace Packing

/-! ## where groups begin -/

theorem used_opened (capacity : Nat) (before : Placement) :
    (opened capacity before).1.used = 0 := by
  unfold opened
  split
  · rfl
  · next h =>
    simp only [Bool.or_eq_true, decide_eq_true_eq, not_or] at h
    omega

theorem sector_opened (capacity : Nat) (before : Placement) :
    before.1.sector ≤ (opened capacity before).1.sector ∧
      (opened capacity before).1.sector ≤ before.1.sector + 1 := by
  unfold opened
  split
  · exact ⟨Nat.le_succ _, Nat.le_refl _⟩
  · exact ⟨Nat.le_refl _, Nat.le_succ _⟩

/-- Where a group could begin, the next one can. -/
theorem opened_opened (hbefore : ∀ x ∈ before.2, x.sector ≤ before.1.sector) :
    opened capacity (opened capacity before) = opened capacity before := by
  have hlt := lt_opened capacity hbefore
  have hused := used_opened capacity before
  generalize opened capacity before = fresh at hlt hused
  unfold opened
  rw [if_neg]
  simp only [Bool.or_eq_true, List.any_eq_true, decide_eq_true_eq, not_or, not_exists, not_and]
  refine ⟨by omega, fun x hx => ?_⟩
  have hx := hlt x hx
  omega

theorem placeGroup_of_inRow {c : Cursor} {more : List Placed}
    (h : inRow (fun i => place capacity i.height i) (objects.map Item.root)
      (opened capacity before).1 = .ok (c, more)) :
    placeGroup capacity before objects = .ok (c, (opened capacity before).2 ++ more) := by
  obtain ⟨d, placed⟩ := before
  change (inRow _ _ (opened capacity (d, placed)).1 >>= _) = _
  rw [h]
  rfl

theorem inRow_of_nothing {one : Item → Cursor → Except PackError Placement} {items : List Item}
    {c : Cursor} (h : ∀ i ∈ items, one i c = .ok (c, [])) : inRow one items c = .ok (c, []) := by
  induction items with
  | nil => rfl
  | cons i items ih =>
    obtain ⟨hi, h⟩ := List.forall_mem_cons.1 h
    exact inRow_ok hi (ih h)

/-- Nothing is placed of what nothing stands for. -/
theorem placeGroup_of_dropped (h : ∀ i ∈ objects.map Item.root, i.isDropped = true) :
    placeGroup capacity before objects = .ok (opened capacity before) := by
  rw [placeGroup_of_inRow (inRow_of_nothing fun i hi => ?_), List.append_nil]
  have hi := h i hi
  rw [Item.isDropped, Bool.and_eq_true, Bool.not_eq_true'] at hi
  rw [place_of_omitted hi.1, hi.2]
  rfl

theorem bounds_placeGroup (hbefore : ∀ x ∈ before.2, x.sector ≤ before.1.sector)
    (h : placeGroup capacity before objects = .ok after) :
    ∀ x ∈ after.2, x.sector ≤ after.1.sector := by
  obtain ⟨c, more, hplaces, rfl⟩ := placeGroup_ok h
  exact sector_le_opened hbefore hplaces

/-- Data objects are placed as their leaves are. -/
theorem alike_roots (hm : m.Sound g) (hobjects : ∀ d ∈ objects, d ∈ m.roots) (capacity : Nat)
    (before : Placement) :
    Alike (Matching capacity)
      (inRow (fun i => place capacity i.height i) (objects.map Item.root)
        (opened capacity before).1)
      (inRow (leafwise capacity) (objects.map Item.root) (opened capacity before).1) := by
  refine alike_of_reached hm (fun i hi => ?_) ?_
  · obtain ⟨d, hd, rfl⟩ := List.mem_map.1 hi
    exact .root (hobjects d hd)
  · rw [used_opened]
    exact Nat.zero_le _

/-! ## staying in front -/

/-- What is placed stands in the first `n` sectors, and a group can begin behind them. -/
structure Meets (capacity n : Nat) (before : Placement) : Prop where
  sectors : ∀ x ∈ before.2, x.sector < n
  bounds : ∀ x ∈ before.2, x.sector ≤ before.1.sector
  fresh : (opened capacity before).1.Upto ⟨n, 0⟩

theorem Meets.opened_self (h : Meets capacity n before) :
    Meets capacity n (opened capacity before) := by
  have hlt := lt_opened capacity h.bounds
  refine ⟨fun x hx => ?_, fun x hx => Nat.le_of_lt (hlt x hx), ?_⟩
  · have hx := hlt x hx
    have hle := h.fresh.sector_le
    dsimp only at hle
    omega
  · rw [opened_opened h.bounds]
    exact h.fresh

/-- A group that can be arranged in some sectors is placed in no more behind those before. -/
theorem Meets.group {own : Finset Nat} {c d : Cursor} {spots : List (Item × Cursor)}
    (hm : m.Sound g) (hobjects : ∀ d ∈ objects, d ∈ m.roots)
    (hspots : Arranged capacity (objects.map Item.root) c d spots)
    (hown : ∀ x ∈ spots, x.2.sector ∈ own) (hne : own.Nonempty) (h : Meets capacity n before) :
    ∃ after, placeGroup capacity before objects = .ok after ∧
      Meets capacity (n + own.card) after := by
  obtain ⟨_, hspots⟩ := hspots.squeeze hown n
  obtain ⟨finish, out, hout, hfinish⟩ := hspots.inRow_upto (h.fresh.trans (upto_squeeze hne))
  have hlast := (hfinish.trans (squeeze_last hne)).sector_le
  have halike := alike_roots hm hobjects capacity before
  rw [hout] at halike
  obtain ⟨⟨_, more⟩, hrow, hmatching⟩ := halike.of_ok
  obtain rfl : finish = _ := hmatching.finish.symm
  have hplaced := placeGroup_of_inRow hrow
  have hbounds := bounds_placeGroup h.bounds hplaced
  have hpos := Finset.card_pos.2 hne
  refine ⟨_, hplaced, fun x hx => ?_, hbounds, ?_⟩
  · have hx := hbounds x hx
    dsimp only at hx hlast
    omega
  · have hused := used_opened capacity (finish, (opened capacity before).2 ++ more)
    have hsector := (sector_opened capacity (finish, (opened capacity before).2 ++ more)).2
    unfold Cursor.Upto
    dsimp only at hsector hlast ⊢
    omega

/-- The packer stays in front of every arrangement. -/
theorem placed_of_arranges (hm : m.Sound g) (hgroups : ∀ d ∈ groups.flatten, d ∈ m.roots)
    (h : Arranges capacity groups used) (hbefore : Meets capacity n before) :
    ∃ after, groups.foldlM (placeGroup capacity) before = .ok after ∧
      Meets capacity (n + used.card) after := by
  induction h generalizing n before with
  | nil => exact ⟨before, rfl, hbefore⟩
  | @idle objects groups used hidle h ih =>
    rw [List.flatten_cons] at hgroups
    obtain ⟨after, hafter, hmeets⟩ := ih (fun d hd => hgroups d (List.mem_append_right _ hd))
      hbefore.opened_self
    refine ⟨after, ?_, hmeets⟩
    rw [List.foldlM_cons, placeGroup_of_dropped hidle]
    exact hafter
  | @group objects groups own used c d spots hspots hown hne hapart h ih =>
    rw [List.flatten_cons] at hgroups
    obtain ⟨between, hbetween, hmeets⟩ := hbefore.group hm
      (fun d hd => hgroups d (List.mem_append_left _ hd)) hspots hown hne
    obtain ⟨after, hafter, hmeets⟩ := ih (fun d hd => hgroups d (List.mem_append_right _ hd)) hmeets
    refine ⟨after, ?_, ?_⟩
    · rw [List.foldlM_cons, hbetween]
      exact hafter
    · rw [Finset.card_union_of_disjoint hapart, ← Nat.add_assoc]
      exact hmeets

end Packing

/-! ## groups that something is placed of -/

theorem Path.sumBits_of_omitted {ps : List Path} (h : ∀ p ∈ ps, p.last.decl.isOmitted = true) :
    Path.sumBits ps = 0 := by
  induction ps with
  | nil => rfl
  | cons p ps ih =>
    obtain ⟨hp, h⟩ := List.forall_mem_cons.1 h
    rw [Path.sumBits, Step.bits_of_omitted hp, ih h]

/-- Something is placed of values that something stands for: they either fit or take bits. -/
theorem Places.dropped_of_nil {cs : List Condition} {ps : List Path} {c c' : Cursor}
    {out : List Placed} (hm : m.Sound g) (h : Places capacity cs ps c c' out) (hnil : out = [])
    (hc : c.used ≤ capacity) (hreached : ∀ p ∈ ps, p.Reached m.roots cs) :
    c' = c ∧ ∀ p ∈ ps, p.last.decl.isOmitted = true ∧
      p.last.decl.encoding.default.isSome = false := by
  induction h with
  | nil => exact ⟨rfl, fun _ hp => (nomatch hp)⟩
  | @omitted cs p ps c c' out homit h ih =>
    obtain ⟨hp, hps⟩ := List.forall_mem_cons.1 hreached
    obtain ⟨hfront, hrest⟩ := List.append_eq_nil_iff.1 hnil
    obtain ⟨hc', hdropped⟩ := ih hrest hc hps
    refine ⟨hc', List.forall_mem_cons.2 ⟨⟨homit, ?_⟩, hdropped⟩⟩
    cases hdefault : p.last.decl.encoding.default.isSome with
    | true => simp [hdefault] at hfront
    | false => rfl
  | fits => cases hnil
  | @row cs p ps qs c d c' inner out homit hfit hp hinner h ihinner ih =>
    obtain ⟨hp', hps⟩ := List.forall_mem_cons.1 hreached
    obtain ⟨hfront, hrest⟩ := List.append_eq_nil_iff.1 hnil
    obtain ⟨-, hdropped⟩ := ihinner hfront hc fun q hq => .part hp' homit hp hq
    have hbits := hp.bits_eq hp'
    rw [Path.sumBits_of_omitted fun q hq => (hdropped q hq).1] at hbits
    omega
  | @union cs p ps shared arms c d c' first out ends homit hfit hs hfirst harms hends h ihfirst
      ihends ih =>
    obtain ⟨hp', hps⟩ := List.forall_mem_cons.1 hreached
    obtain ⟨hfront, hrest⟩ := List.append_eq_nil_iff.1 hnil
    obtain ⟨hfront, hbranches⟩ := List.append_eq_nil_iff.1 hfront
    obtain ⟨rfl, hdropped⟩ := ihfirst hfront hc fun q hq => .shared hp' homit hs hq
    have hshared := Path.sumBits_of_omitted fun q hq => (hdropped q hq).1
    have hd := hp'.sound hm
    -- Neither what is shared nor an arm takes bits, so neither does the union.
    have hzero : p.last.bits = 0 := by
      obtain hfull | ⟨a, ha, hslack⟩ := hs.full hd
      · omega
      · have hbits := hs.bits_arm hd ha
        rw [← harms] at ha
        obtain ⟨e, he, rfl⟩ := List.mem_map.1 ha
        have hout : e.2.2 = [] := by
          rw [joinBranches, branchesOf, List.flatMap_map, List.flatMap_eq_nil_iff] at hbranches
          exact (List.append_eq_nil_iff.1 (hbranches e he)).1
        obtain ⟨-, hdropped⟩ := ihends e he hout hc fun q hq =>
          .arm hp' homit hs (harms ▸ ha) hq
        have harm := Path.sumBits_of_omitted fun q hq => (hdropped q hq).1
        omega
    omega
  | next => exact absurd hnil (by simp)

/-! ## its placements -/

theorem PlacesGroups.subset (h : PlacesGroups capacity groups before after) :
    before.2 ⊆ after.2 := by
  induction h with
  | nil => exact List.Subset.refl _
  | @cons objects groups before after c more h hrest ih =>
    obtain ⟨padding, hopened, -⟩ := opened_eq capacity before
    rw [hopened] at ih
    intro x hx
    exact ih (List.mem_append_left _ (List.mem_append_left _ hx))

theorem sectors_spread (placed : List Placed) :
    (spread placed).map Placed.sector ⊆ placed.map Placed.sector := by
  intro s hs
  obtain ⟨y, hy, rfl⟩ := List.mem_map.1 hs
  obtain ⟨x, hx, hy⟩ := List.mem_flatMap.1 hy
  obtain ⟨leaf, -, rfl⟩ := List.mem_map.1 hy
  exact List.mem_map.2 ⟨x, hx, rfl⟩

/-- The sectors that hold something of a group make an arrangement of it. -/
theorem arranged_of_placeGroup (hm : m.Sound g) (hobjects : ∀ d ∈ objects, d ∈ m.roots)
    (hplaced : ¬ ∀ i ∈ objects.map Item.root, i.isDropped = true)
    (h : placeGroup capacity before objects = .ok after) :
    ∃ c more spots, after = (c, (opened capacity before).2 ++ more) ∧ more ≠ [] ∧
      (∀ x ∈ more, (opened capacity before).1.sector ≤ x.sector) ∧
      Arranged capacity (objects.map Item.root) (opened capacity before).1 c spots ∧
      ∀ x ∈ spots, x.2.sector ∈ more.map Placed.sector := by
  obtain ⟨c, more, hplaces, rfl⟩ := placeGroup_ok h
  obtain ⟨c', more', hrow, heq⟩ := placeGroup_inv h
  simp only [Prod.mk.injEq, List.append_cancel_left_eq] at heq
  obtain ⟨rfl, rfl⟩ := heq
  have hused : (opened capacity before).1.used ≤ capacity := by
    rw [used_opened]
    exact Nat.zero_le _
  have halike := alike_roots hm hobjects capacity before
  rw [hrow] at halike
  obtain ⟨⟨_, out⟩, hout, hmatching⟩ := halike.to_ok
  obtain rfl : c = _ := hmatching.finish
  obtain ⟨-, spots, hspots, hin⟩ := arrangedIn_of_inRow hused hout
  refine ⟨c, more, spots, rfl, fun hnil => hplaced fun i hi => ?_, fun x hx =>
    (hplaces.bounds.2 x hx).1, hspots, fun x hx => ?_⟩
  · obtain ⟨d, hd, rfl⟩ := List.mem_map.1 hi
    obtain ⟨-, hdropped⟩ := hplaces.dropped_of_nil hm hnil hused fun p hp => by
      obtain ⟨d, hd, rfl⟩ := List.mem_map.1 hp
      exact .root (hobjects d hd)
    obtain ⟨homit, hdefault⟩ := hdropped _ (List.mem_map_of_mem hd)
    rw [Item.isDropped, Bool.and_eq_true, Bool.not_eq_true']
    exact ⟨homit, hdefault⟩
  · have hx := hin x hx
    rw [← hmatching.leaves] at hx
    exact sectors_spread more hx

theorem arranges_of_placed (hm : m.Sound g) (hgroups : ∀ d ∈ groups.flatten, d ∈ m.roots)
    (hbefore : ∀ x ∈ before.2, x.sector ≤ before.1.sector)
    (h : groups.foldlM (placeGroup capacity) before = .ok after) :
    ∃ used, Arranges capacity groups used ∧
      ∀ s ∈ used, (opened capacity before).1.sector ≤ s ∧ ∃ x ∈ after.2, x.sector = s := by
  induction groups generalizing before with
  | nil => exact ⟨∅, .nil, fun _ hs => absurd hs (Finset.notMem_empty _)⟩
  | cons objects groups ih =>
    rw [List.flatten_cons] at hgroups
    rw [List.foldlM_cons] at h
    obtain ⟨between, hbetween, h⟩ := bind_ok h
    have hbounds := bounds_placeGroup hbefore hbetween
    have hobjects : ∀ d ∈ objects, d ∈ m.roots := fun d hd => hgroups d (List.mem_append_left _ hd)
    obtain ⟨used, hused, hsectors⟩ := ih (fun d hd => hgroups d (List.mem_append_right _ hd))
      hbounds h
    by_cases hidle : ∀ i ∈ objects.map Item.root, i.isDropped = true
    · rw [placeGroup_of_dropped hidle] at hbetween
      cases hbetween
      rw [opened_opened hbefore] at hsectors
      exact ⟨used, .idle hidle hused, hsectors⟩
    · obtain ⟨c, more, spots, rfl, hne, hmore, hspots, hown⟩ :=
        arranged_of_placeGroup hm hobjects hidle hbetween
      obtain ⟨first, hfirst⟩ := List.exists_mem_of_ne_nil more hne
      -- Later groups begin behind the sectors of this one.
      have hlt : ∀ x ∈ more, x.sector <
          (opened capacity (c, (opened capacity before).2 ++ more)).1.sector := by
        intro x hx
        obtain ⟨padding, hopened, -⟩ := opened_eq capacity (c, (opened capacity before).2 ++ more)
        refine lt_opened capacity hbounds x ?_
        rw [hopened]
        exact List.mem_append_left _ (List.mem_append_right _ hx)
      refine ⟨(more.map Placed.sector).toFinset ∪ used, .group hspots (fun x hx => ?_) ?_ ?_ hused,
        fun s hs => ?_⟩
      · exact List.mem_toFinset.2 (hown x hx)
      · exact ⟨first.sector, List.mem_toFinset.2 (List.mem_map_of_mem hfirst)⟩
      · refine Finset.disjoint_left.2 fun s hs hs' => ?_
        obtain ⟨x, hx, rfl⟩ := List.mem_map.1 (List.mem_toFinset.1 hs)
        have hbehind := hlt x hx
        have hle := (hsectors _ hs').1
        omega
      · rcases Finset.mem_union.1 hs with hs | hs
        · obtain ⟨x, hx, rfl⟩ := List.mem_map.1 (List.mem_toFinset.1 hs)
          exact ⟨hmore x hx, x, (placesGroups_of_foldlM h).subset (List.mem_append_right _ hx), rfl⟩
        · obtain ⟨hle, hx⟩ := hsectors s hs
          have hstart := hmore first hfirst
          have hend := hlt first hfirst
          exact ⟨by omega, hx⟩

end

/-! ## the fewest sectors -/

theorem sectorsNeeded_le {placed : List Placed} {n : Nat} (h : ∀ x ∈ placed, x.sector < n) :
    sectorsNeeded placed ≤ n := by
  have hfold (k : Nat) (hk : k ≤ n) : placed.foldl (fun n p => max n (p.sector + 1)) k ≤ n := by
    induction placed generalizing k with
    | nil => exact hk
    | cons x placed ih =>
      obtain ⟨hx, h⟩ := List.forall_mem_cons.1 h
      exact ih h _ (Nat.max_le.2 ⟨hk, hx⟩)
  exact hfold 0 (Nat.zero_le n)

theorem meets_nothing (capacity : Nat) : Meets capacity 0 (⟨0, 0⟩, []) :=
  ⟨fun _ hx => (nomatch hx), fun _ hx => (nomatch hx), .refl _⟩

/-- **No sector is wasted.** If groups of data objects of a model without errors can be placed, then
the number of sectors that the packer needs is the least one among all arrangements of their leaves
in sectors of that capacity; and in larger sectors it needs no more of them. -/
theorem fewest_sectors {c : Config} {g : Registry} {m : Model} {groups : List (List Decl)}
    {capacity : Nat} {cursor : Cursor} {placed : List Placed} (hbuild : Model.build c g = some m)
    (herrors : m.errors = []) (hgroups : ∀ d ∈ groups.flatten, d ∈ m.roots)
    (hplace : placeGroups capacity groups = .ok (cursor, placed)) :
    IsLeast {n | ∃ used, Arranges capacity groups used ∧ used.card = n} (sectorsNeeded placed) ∧
    ∀ larger, capacity ≤ larger → ∃ cursor' placed',
      placeGroups larger groups = .ok (cursor', placed') ∧
      sectorsNeeded placed' ≤ sectorsNeeded placed := by
  have hm := Model.sound_of_build hbuild herrors
  have hfront {capacity : Nat} {used : Finset Nat} (h : Arranges capacity groups used) :
      ∃ cursor placed, placeGroups capacity groups = .ok (cursor, placed) ∧
        sectorsNeeded placed ≤ used.card := by
    obtain ⟨⟨cursor, placed⟩, hplaced, hmeets⟩ :=
      placed_of_arranges hm hgroups h (meets_nothing capacity)
    rw [Nat.zero_add] at hmeets
    exact ⟨cursor, placed, hplaced, sectorsNeeded_le hmeets.sectors⟩
  have hleast {used : Finset Nat} (h : Arranges capacity groups used) :
      sectorsNeeded placed ≤ used.card := by
    obtain ⟨cursor', placed', hplaced, hle⟩ := hfront h
    rw [hplace] at hplaced
    cases hplaced
    exact hle
  obtain ⟨used, hused, hsectors⟩ :=
    arranges_of_placed hm hgroups (meets_nothing capacity).bounds hplace
  have hcard : used.card ≤ sectorsNeeded placed := by
    rw [← Finset.card_range (sectorsNeeded placed)]
    refine Finset.card_le_card fun s hs => Finset.mem_range.2 ?_
    obtain ⟨-, x, hx, rfl⟩ := hsectors s hs
    exact lt_sectorsNeeded x hx
  refine ⟨⟨⟨used, hused, Nat.le_antisymm hcard (hleast hused)⟩, ?_⟩, fun larger hle => ?_⟩
  · rintro n ⟨used', hused', rfl⟩
    exact hleast hused'
  · obtain ⟨cursor', placed', hplaced, hle'⟩ := hfront (hused.mono hle)
    exact ⟨cursor', placed', hplaced, Nat.le_trans hle' hcard⟩

/-- The small layout cannot do with less than three sectors of sixteen bits, and does with three
larger ones. -/
theorem Sample.needs_three : ∃ m cursor placed, Model.build config registry = some m ∧
    placeGroups 16 m.groups = .ok (cursor, placed) ∧ sectorsNeeded placed = 3 ∧
    IsLeast {n | ∃ used, Arranges 16 m.groups used ∧ used.card = n} (sectorsNeeded placed) ∧
    ∀ larger, 16 ≤ larger → ∃ cursor' placed',
      placeGroups larger m.groups = .ok (cursor', placed') ∧
      sectorsNeeded placed' ≤ sectorsNeeded placed := by
  obtain ⟨m, sectors, hm, herrors, hpack, hshape⟩ := packs
  obtain ⟨⟨cursor, placed⟩, hplace, hpack⟩ := bind_ok hpack
  have hneeded : sectorsNeeded placed = 3 := by
    dsimp only at hpack
    split at hpack
    · cases hpack
    · cases hpack
      have hlength := length_of_shape hshape
      rwa [List.length_map, List.length_range] at hlength
  exact ⟨m, cursor, placed, hm, hplace, hneeded,
    fewest_sectors hm herrors (Model.sound_of_build hm herrors).grouping.sub hplace⟩

end BitLayout
