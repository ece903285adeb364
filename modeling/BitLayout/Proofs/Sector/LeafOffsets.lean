import BitLayout.Proofs.Item.Leaves
import BitLayout.Proofs.Sector.Merges

/-!
# BitLayout.Proofs.Sector.LeafOffsets

Where the leaves of items begin. The parts of a slice, a rank or a struct follow each other; all
branches of a union begin behind what its variants share:

```
@0 union  =  @0 shared ..  @n branch 1 ..  @n branch 2 ..
```

So an item at an offset has all its leaves at offsets, and a sector has those of its items.

* `Item.map_fst_leavesAt`: these are the leaves, in order;
* `Merges.leavesAt_eq`: a run has the leaves of the item that it merges into, at the same offsets;
* `Sector.leafOffsets_of_regroups`: regrouping moves no leaves, and loses none.
-/

namespace BitLayout

namespace Item

/-! ## one item -/

/-- The leaves of items in a row, where `one` gives those of an item at an offset. -/
def rowAt (one : Nat → Item → List (Item × Nat)) : Nat → List Item → List (Item × Nat)
  | _, [] => []
  | offset, i :: rest => one offset i ++ rowAt one (offset + i.bits) rest

/-- Take an item at an offset apart through at most `levels` levels. -/
def leavesAtWithin : (levels : Nat) → (offset : Nat) → Item → List (Item × Nat)
  | 0, offset, i => [(i, offset)]
  | levels + 1, offset, i =>
    match i.split? with
    | none => [(i, offset)]
    | some (.row parts) => rowAt (leavesAtWithin levels) offset parts
    | some (.union shared branches) =>
      rowAt (leavesAtWithin levels) offset shared ++ branches.flatMap fun b =>
        rowAt (leavesAtWithin levels) (offset + sumBits shared) b.items

/-- The leaves of an item that begins at an offset, and where they begin. -/
def leavesAt (offset : Nat) (i : Item) : List (Item × Nat) := leavesAtWithin i.height offset i

variable {i : Item} {offset : Nat}

theorem rowAt_append (one : Nat → Item → List (Item × Nat)) (offset : Nat) (xs ys : List Item) :
    rowAt one offset (xs ++ ys) = rowAt one offset xs ++ rowAt one (offset + sumBits xs) ys := by
  induction xs generalizing offset with
  | nil => rfl
  | cons x xs ih =>
    rw [List.cons_append, rowAt, rowAt, ih, sumBits, List.append_assoc, Nat.add_assoc]

theorem rowAt_congr {one two : Nat → Item → List (Item × Nat)} {items : List Item}
    (h : ∀ i ∈ items, ∀ offset, one offset i = two offset i) (offset : Nat) :
    rowAt one offset items = rowAt two offset items := by
  induction items generalizing offset with
  | nil => rfl
  | cons i items ih =>
    obtain ⟨hi, hitems⟩ := List.forall_mem_cons.1 h
    rw [rowAt, rowAt, hi, ih hitems]

theorem map_fst_rowAt {one : Nat → Item → List (Item × Nat)} {leaves : Item → List Item}
    {items : List Item} (h : ∀ i ∈ items, ∀ offset, (one offset i).map Prod.fst = leaves i)
    (offset : Nat) : (rowAt one offset items).map Prod.fst = items.flatMap leaves := by
  induction items generalizing offset with
  | nil => rfl
  | cons i items ih =>
    obtain ⟨hi, hitems⟩ := List.forall_mem_cons.1 h
    rw [rowAt, List.map_append, hi, ih hitems, List.flatMap_cons]

/-- More levels than there are change nothing. -/
theorem leavesAtWithin_congr {m n : Nat} (hm : i.height ≤ m) (hn : i.height ≤ n) (offset : Nat) :
    leavesAtWithin m offset i = leavesAtWithin n offset i := by
  induction i using partsInduction generalizing m n offset with
  | whole i hnone =>
    have hwhole (k : Nat) : leavesAtWithin k offset i = [(i, offset)] := by
      cases k with
      | zero => rfl
      | succ k => simp only [leavesAtWithin, hnone]
    rw [hwhole, hwhole]
  | split i s hs ih =>
    have hpos := height_pos_of_canSplit (canSplit_of_split hs)
    obtain ⟨m, rfl⟩ := Nat.exists_eq_succ_of_ne_zero (show m ≠ 0 by omega)
    obtain ⟨n, rfl⟩ := Nat.exists_eq_succ_of_ne_zero (show n ≠ 0 by omega)
    have hparts : ∀ part ∈ s.items, ∀ offset,
        leavesAtWithin m offset part = leavesAtWithin n offset part := by
      intro part hp offset
      have hlt := height_lt_of_split hs part hp
      exact ih part hp (by omega) (by omega) offset
    simp only [leavesAtWithin, hs]
    cases s with
    | row parts => exact rowAt_congr hparts offset
    | union shared branches =>
      obtain ⟨hshared, hbranches⟩ := List.forall_mem_append.1 hparts
      dsimp only
      rw [rowAt_congr hshared]
      refine congrArg _ (List.flatMap_congr fun b hb => rowAt_congr (fun part hp => ?_) _)
      exact hbranches part (List.mem_flatMap.2 ⟨b, hb, hp⟩)

/-- An item without parts is its own leaf. -/
theorem leavesAt_of_none (h : i.split? = none) (offset : Nat) :
    i.leavesAt offset = [(i, offset)] := by
  rw [leavesAt, leavesAtWithin_congr (Nat.le_refl _) (Nat.le_succ _), leavesAtWithin]
  simp only [h]

/-- Parts in a row follow each other. -/
theorem leavesAt_of_row {parts : List Item} (h : i.split? = some (.row parts)) (offset : Nat) :
    i.leavesAt offset = rowAt leavesAt offset parts := by
  rw [leavesAt, leavesAtWithin_congr (Nat.le_refl _) (Nat.le_succ _), leavesAtWithin]
  simp only [h]
  refine rowAt_congr (fun part hp offset => ?_) offset
  have hlt := height_lt_of_split h part hp
  exact leavesAtWithin_congr (by omega) (Nat.le_refl _) offset

/-- The branches of a union begin behind what the variants share. -/
theorem leavesAt_of_union {shared : List Item} {branches : List Branch}
    (h : i.split? = some (.union shared branches)) (offset : Nat) :
    i.leavesAt offset = rowAt leavesAt offset shared ++ branches.flatMap fun b =>
      rowAt leavesAt (offset + sumBits shared) b.items := by
  have hlevels : ∀ part ∈ (Split.union shared branches).items, ∀ offset,
      leavesAtWithin i.height offset part = leavesAt offset part := by
    intro part hp offset
    have hlt := height_lt_of_split h part hp
    exact leavesAtWithin_congr (by omega) (Nat.le_refl _) offset
  obtain ⟨hshared, hbranches⟩ := List.forall_mem_append.1 hlevels
  rw [leavesAt, leavesAtWithin_congr (Nat.le_refl _) (Nat.le_succ _), leavesAtWithin]
  simp only [h]
  rw [rowAt_congr hshared]
  refine congrArg _ (List.flatMap_congr fun b hb => rowAt_congr (fun part hp => ?_) _)
  exact hbranches part (List.mem_flatMap.2 ⟨b, hb, hp⟩)

/-- The leaves of an item are at offsets in their order. -/
theorem map_fst_leavesAt (offset : Nat) (i : Item) :
    (i.leavesAt offset).map Prod.fst = i.leaves := by
  induction i using partsInduction generalizing offset with
  | whole i hnone =>
    rw [leavesAt_of_none hnone, leaves_of_none hnone]
    rfl
  | split i s hs ih =>
    rw [leaves_of_split hs]
    cases s with
    | row parts =>
      rw [leavesAt_of_row hs]
      exact map_fst_rowAt (fun part hp offset => ih part hp offset) offset
    | union shared branches =>
      obtain ⟨hshared, hbranches⟩ := List.forall_mem_append.1 ih
      rw [leavesAt_of_union hs, Split.items, List.map_append, List.flatMap_append,
        map_fst_rowAt hshared, List.map_flatMap, List.flatMap_assoc]
      refine congrArg _ (List.flatMap_congr fun b hb => map_fst_rowAt (fun part hp => ?_) _)
      exact hbranches part (List.mem_flatMap.2 ⟨b, hb, hp⟩)

/-! ## runs of indices -/

variable {cs : List Condition} {p : Path}

theorem leavesAt_of_parts {ps : List Path} (homit : p.last.decl.isOmitted = false)
    (h : p.Parts ps) (offset : Nat) :
    (Item.mk cs (.value p)).leavesAt offset = rowAt leavesAt offset (row cs ps) :=
  leavesAt_of_row (split_of_parts homit h) offset

/-- A run of indices has the leaves of its indices, one behind the other. -/
theorem leavesAt_access (homit : p.last.decl.isOmitted = false) (a : Access) (offset : Nat) :
    (Item.mk cs (.value (p.access a))).leavesAt offset =
      rowAt leavesAt offset (row cs (a.singles.map p.access)) := by
  by_cases ha : a.isSlice = true
  · have hslice : (p.access a).last.slice? = some a := by rw [Path.slice?_access, if_pos ha]
    rw [leavesAt_of_parts (p := p.access a) homit (.slice hslice)]
    congr 3
    funext b
    simp [Path.access, Path.withAccesses]
  · have hcount : a.count = 1 := Access.count_of_single (by simpa using ha)
    obtain ⟨start, count⟩ := a
    subst hcount
    simp [Access.singles, Access.single, row, rowAt]

end Item

open Item

/-- A run has the leaves of the item that it merges into, at the same offsets. -/
theorem Merges.leavesAt_eq {run : List Item} {j : Item} (h : Merges run j) (offset : Nat) :
    rowAt leavesAt offset run = j.leavesAt offset := by
  induction h generalizing offset with
  | one => exact List.append_nil _
  | uncover homit hs hr _ ih =>
    rw [ih, leavesAt_access homit, leavesAt_of_parts homit (.rank hs hr)]
  | @join run more cs p x y extent rest homit _ hr hxy _ hrun _ ih ih' =>
    have hbits : Item.sumBits (row cs (x.singles.map p.access)) = Item.sumBits run := by
      rw [hrun.bits_eq, Item.sumBits_row]
      exact Path.sumBits_singles hr x
    have hrow : row cs (((Access.mk x.start (x.count + y.count)).singles).map p.access) =
        row cs (x.singles.map p.access) ++ row cs (y.singles.map p.access) := by
      rw [Access.singles_append hxy, List.map_append]
      exact List.map_append
    rw [rowAt_append, ih, ih', leavesAt_access homit, leavesAt_access homit, leavesAt_access homit,
      hrow, rowAt_append, hbits]

namespace Sector

variable {items merged : List Item}

/-- The leaves of the items of a sector, and where they begin. -/
def leafOffsets (s : Sector) : List (Item × Nat) :=
  (s.items.zip s.layout).flatMap fun (i, offset, _) => i.leavesAt offset

/-- The leaves of a sector are at offsets in their order. -/
theorem map_fst_leafOffsets (s : Sector) :
    s.leafOffsets.map Prod.fst = s.items.flatMap leaves := by
  have hzip : (s.items.zip s.layout).map Prod.fst = s.items :=
    List.map_fst_zip (Nat.le_of_eq s.length_layout.symm)
  rw [leafOffsets, List.map_flatMap]
  simp only [map_fst_leavesAt]
  rw [← List.flatMap_map, hzip]

/-- The leaves of items from some standing on. -/
def leavesFrom (s : Standing) (items : List Item) : List (Item × Nat) :=
  (items.zip (offsetsFrom s.1 s.2 items).1).flatMap fun (i, offset, _) => i.leavesAt offset

theorem leavesFrom_cons (s : Standing) (i : Item) (items : List Item) :
    leavesFrom s (i :: items) =
      i.leavesAt (enter s.1 i.conditions s.2).2 ++ leavesFrom (advance s i) items := rfl

theorem leavesFrom_append (s : Standing) (xs ys : List Item) :
    leavesFrom s (xs ++ ys) = leavesFrom s xs ++ leavesFrom (xs.foldl advance s) ys := by
  induction xs generalizing s with
  | nil => rfl
  | cons x xs ih =>
    rw [List.cons_append, leavesFrom_cons, ih, leavesFrom_cons, List.append_assoc]
    rfl

/-- Behind an item, others under the same conditions follow in a row. -/
theorem leavesFrom_of_conditions {cs : List Condition} {items : List Item}
    (h : ∀ i ∈ items, i.conditions = cs) (s : Standing) (position : Nat) :
    leavesFrom ((enter s.1 cs s.2).1, position) items = rowAt leavesAt position items := by
  induction items generalizing position with
  | nil => rfl
  | cons i items ih =>
    obtain ⟨hi, hitems⟩ := List.forall_mem_cons.1 h
    rw [leavesFrom_cons, rowAt, advance, hi, enter_enter]
    dsimp only
    rw [ih hitems]

/-- A run has its leaves where the item has them that it merges into. -/
theorem leavesFrom_of_merges {run : List Item} {j : Item} (h : Merges run j) (s : Standing) :
    leavesFrom s run = j.leavesAt (enter s.1 j.conditions s.2).2 := by
  have hcs := h.conditions
  rw [← h.leavesAt_eq]
  cases run with
  | nil => exact absurd rfl h.ne_nil
  | cons i run =>
    obtain ⟨hi, hrun⟩ := List.forall_mem_cons.1 hcs
    rw [leavesFrom_cons, rowAt, advance, hi, leavesFrom_of_conditions hrun]

theorem leavesFrom_of_regroups (h : Regroups items merged) (s : Standing) :
    leavesFrom s items = leavesFrom s merged := by
  induction h generalizing s with
  | nil => rfl
  | cons hj _ ih =>
    rw [leavesFrom_append, leavesFrom_of_merges hj, foldl_advance_of_merges hj, ih, leavesFrom_cons]

/-- **Regrouping moves no leaves**: merged items have the leaves that the items had, at the same
offsets. -/
theorem leafOffsets_of_regroups (h : Regroups items merged) :
    leafOffsets ⟨merged⟩ = leafOffsets ⟨items⟩ :=
  (leavesFrom_of_regroups h ([], 0)).symm

end Sector

/-- Regrouped items have the leaves that the items had. -/
theorem Regroups.leaves_eq {items merged : List Item} (h : Regroups items merged) :
    items.flatMap leaves = merged.flatMap leaves := by
  have hoffsets := congrArg (List.map Prod.fst) (Sector.leafOffsets_of_regroups h)
  rw [Sector.map_fst_leafOffsets, Sector.map_fst_leafOffsets] at hoffsets
  exact hoffsets.symm

end BitLayout
