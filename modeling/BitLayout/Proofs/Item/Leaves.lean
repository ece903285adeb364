import BitLayout.Proofs.Item.Reached

/-!
# BitLayout.Proofs.Item.Leaves

Taking an item apart all the way down, whatever its size. The leaves of an item are those of its
parts, and an item without parts is its own leaf:

```
leaves(i)  =  leaves(part 1) ++ leaves(part 2) ++ ..
```

* `Item.partsInduction`: what parts hand on to the whole holds of every item;
* `Item.leaves_of_split`: the equation above;
* `Item.conditions_of_mem_leaves`: they stand under the conditions of the item at least.
-/

namespace BitLayout

namespace Item

/-- Take an item apart through at most `levels` levels. -/
def leavesWithin : (levels : Nat) → Item → List Item
  | 0, i => [i]
  | levels + 1, i => if i.canSplit then i.expand.flatMap (leavesWithin levels) else [i]

/-- The leaves of an item: it is taken apart until nothing can be. -/
def leaves (i : Item) : List Item := leavesWithin i.height i

/-! ## taking apart -/

theorem expand_of_split {i : Item} {s : Split} (h : i.split? = some s) : i.expand = s.items := by
  simp only [expand, h, Option.elim_some]

theorem canSplit_of_split {i : Item} {s : Split} (h : i.split? = some s) : i.canSplit = true := by
  simp only [canSplit, h, Option.isSome_some]

/-- Every part that an item is expanded to has fewer levels, if the item can be split. -/
theorem height_lt_of_expand {i part : Item} (h : i.canSplit = true) (hp : part ∈ i.expand) :
    part.height < i.height := by
  obtain ⟨s, hs⟩ := Option.isSome_iff_exists.1 h
  rw [expand_of_split hs] at hp
  exact height_lt_of_split hs part hp

/-- An item without levels cannot be split. -/
theorem height_pos_of_canSplit {i : Item} (h : i.canSplit = true) : 0 < i.height := by
  obtain ⟨s, hs⟩ := Option.isSome_iff_exists.1 h
  obtain ⟨cs, p, rfl, -⟩ := split_cases hs
  have hpos := p.last.decl.height_pos
  simp only [height_value, Step.height]
  omega

/-- What holds of an item if it holds of its parts holds of every item. -/
@[elab_as_elim]
theorem partsInduction {P : Item → Prop}
    (whole : ∀ i, i.split? = none → P i)
    (split : ∀ i s, i.split? = some s → (∀ part ∈ s.items, P part) → P i) (i : Item) : P i := by
  generalize hn : i.height = n
  induction n using Nat.strongRecOn generalizing i with
  | ind n ih =>
    subst hn
    cases hs : i.split? with
    | none => exact whole i hs
    | some s =>
      exact split i s hs fun part hp => ih part.height (height_lt_of_split hs part hp) part rfl

theorem leavesWithin_of_whole {i : Item} (h : i.canSplit = false) (n : Nat) :
    leavesWithin n i = [i] := by
  cases n with
  | zero => rfl
  | succ n => simp only [leavesWithin, h, Bool.false_eq_true, if_false]

/-- More levels than there are change nothing. -/
theorem leavesWithin_congr {m n : Nat} {i : Item} (hm : i.height ≤ m) (hn : i.height ≤ n) :
    leavesWithin m i = leavesWithin n i := by
  induction m generalizing n i with
  | zero =>
    cases hsplit : i.canSplit with
    | false => rw [leavesWithin_of_whole hsplit, leavesWithin_of_whole hsplit]
    | true =>
      have hpos := height_pos_of_canSplit hsplit
      omega
  | succ m ih =>
    cases hsplit : i.canSplit with
    | false => rw [leavesWithin_of_whole hsplit, leavesWithin_of_whole hsplit]
    | true =>
      have hpos := height_pos_of_canSplit hsplit
      cases n with
      | zero => omega
      | succ n =>
        simp only [leavesWithin, hsplit, if_true]
        refine List.flatMap_congr fun part hp => ?_
        have hlt := height_lt_of_expand hsplit hp
        exact ih (by omega) (by omega)

/-- An item that cannot be split is its own leaf. -/
theorem leaves_of_whole {i : Item} (h : i.canSplit = false) : i.leaves = [i] :=
  leavesWithin_of_whole h _

/-- The leaves of an item are those of its parts. -/
theorem leaves_of_split {i : Item} {s : Split} (h : i.split? = some s) :
    i.leaves = s.items.flatMap leaves := by
  have hsplit := canSplit_of_split h
  have hpos := height_pos_of_canSplit hsplit
  rw [leaves, leavesWithin_congr (Nat.le_refl _) (Nat.le_succ _), leavesWithin, if_pos hsplit,
    expand_of_split h]
  refine List.flatMap_congr fun part hp => ?_
  have hlt := height_lt_of_split h part hp
  exact leavesWithin_congr (by omega) (Nat.le_refl _)

theorem leaves_of_none {i : Item} (h : i.split? = none) : i.leaves = [i] := by
  refine leaves_of_whole ?_
  rw [canSplit, h]
  rfl

/-- A part stands under the conditions of the value, or in an arm of it. -/
theorem conditions_cases_of_mem_expand {i part : Item} (h : part ∈ i.expand) :
    part.conditions = i.conditions ∨ ∃ cs p shared arms a, i = ⟨cs, .value p⟩ ∧
      Path.Switch p shared arms ∧ a ∈ arms ∧ part.conditions = a.conditions cs p := by
  have hrow : ∀ (cs : List Condition) (ps : List Path), part ∈ row cs ps →
      part.conditions = cs := by
    intro cs ps hp
    obtain ⟨p, -, rfl⟩ := List.mem_map.1 hp
    rfl
  cases hsplit : i.split? with
  | none =>
    simp only [expand, hsplit, Option.elim_none, List.mem_singleton] at h
    exact .inl (by rw [h])
  | some s =>
    rw [expand_of_split hsplit] at h
    obtain ⟨cs, p, rfl, -, ⟨ps, -, rfl⟩ | ⟨shared, arms, hs, rfl⟩⟩ := split_cases hsplit
    · exact .inl (hrow cs ps h)
    · rcases List.mem_append.1 h with h | h
      · exact .inl (hrow cs shared h)
      · obtain ⟨b, hb, h⟩ := List.mem_flatMap.1 h
        obtain ⟨a, ha, rfl⟩ := List.mem_map.1 hb
        refine .inr ⟨cs, p, shared, arms, a, rfl, hs, ha, ?_⟩
        cases List.mem_append.1 h with
        | inl h => exact hrow _ _ h
        | inr h =>
          split at h
          · cases h
          · rw [List.mem_singleton.1 h]
            rfl

/-- The conditions of a part are those of the value, or one more. -/
theorem conditions_of_mem_expand {i part : Item} (h : part ∈ i.expand) :
    ∃ ds, part.conditions = i.conditions ++ ds := by
  rcases conditions_cases_of_mem_expand h with heq | ⟨cs, p, shared, arms, a, rfl, -, -, heq⟩
  · exact ⟨[], by rw [heq, List.append_nil]⟩
  · exact ⟨_, heq⟩

/-- Leaves stand under the conditions of the item at least. -/
theorem conditions_of_mem_leaves {i leaf : Item} (h : leaf ∈ i.leaves) :
    ∃ ds, leaf.conditions = i.conditions ++ ds := by
  induction i using partsInduction with
  | whole i hnone =>
    rw [leaves_of_none hnone] at h
    exact ⟨[], by rw [List.mem_singleton.1 h, List.append_nil]⟩
  | split i s hs ih =>
    rw [leaves_of_split hs] at h
    obtain ⟨part, hp, h⟩ := List.mem_flatMap.1 h
    obtain ⟨ds, hds⟩ := conditions_of_mem_expand (expand_of_split hs ▸ hp)
    obtain ⟨es, hes⟩ := ih part hp h
    exact ⟨ds ++ es, by rw [hes, hds, List.append_assoc]⟩

/-! ## rows and unions -/

variable {cs : List Condition} {p : Path} {ps shared : List Path} {arms : List Variant}

theorem canSplit_of_omitted (h : p.last.decl.isOmitted = true) :
    (Item.mk cs (.value p)).canSplit = false := by
  simp only [canSplit, split?, h, if_true, Option.isSome_none]

theorem canSplit_padding (cs : List Condition) (bits : Nat) (trailing : Bool) :
    (Item.padding cs bits trailing).canSplit = false := rfl

theorem leaves_of_parts (homit : p.last.decl.isOmitted = false) (h : p.Parts ps) :
    (Item.mk cs (.value p)).leaves = (row cs ps).flatMap leaves :=
  leaves_of_split (split_of_parts homit h)

theorem leaves_of_switch (homit : p.last.decl.isOmitted = false) (h : p.Switch shared arms) :
    (Item.mk cs (.value p)).leaves = (row cs shared).flatMap leaves ++
      arms.flatMap fun a => (a.branch cs p).items.flatMap leaves := by
  rw [leaves_of_split (split_of_switch homit h), Split.items, List.flatMap_append,
    List.flatMap_assoc, List.flatMap_map]

end Item

/-- Runs of indices that continue each other have the indices of both. -/
theorem Access.singles_append {x y : Access} (h : x.stop = y.start) :
    (Access.mk x.start (x.count + y.count)).singles = x.singles ++ y.singles := by
  simp only [singles, ← List.map_append]
  rw [← h]
  simp only [stop]
  rw [← List.range'_append_1]

end BitLayout
