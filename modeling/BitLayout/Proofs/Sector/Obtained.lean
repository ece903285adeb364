import BitLayout.Proofs.Sector.Alignment

/-!
# BitLayout.Proofs.Sector.Obtained

The items that can come up in a sector, and nothing more: data objects, padding, what items are
taken apart into, and what they are merged to. Slices come up by merging alone, so they are never
empty; this is what tells them from all slices that a rank has room for.

* `Item.Obtained.solid`: such an item is padding, or lies among the data objects without an empty
  slice at its end;
* `PlacesGroups.obtained`: everything that is placed is such.
-/

namespace BitLayout

variable {roots : List Decl} {m : Model} {i j : Item}

/-- An item that is obtained from data objects by taking apart, padding and merging. -/
inductive Item.Obtained (roots : List Decl) : Item → Prop where
  | root {d : Decl} (hd : d ∈ roots) : Obtained roots (.root d)
  | padding (cs : List Condition) (bits : Nat) (trailing : Bool) :
    Obtained roots (.padding cs bits trailing)
  | expand {i j : Item} (h : Obtained roots i) (hj : j ∈ i.expand) : Obtained roots j
  | uncovered {i : Item} (h : Obtained roots i) : Obtained roots i.uncovered
  | join {i j joined : Item} (h : Obtained roots i) (h' : Obtained roots j)
    (hjoin : i.join? j = some joined) : Obtained roots joined

/-- An item that lies among the data objects, and does not end with an empty run of indices. -/
structure Item.Solid (roots : List Decl) (i : Item) : Prop where
  lies : i.Lies roots
  filled : ∀ (cs : List Condition) (p : Path) (a : Access), i = ⟨cs, .value (p.access a)⟩ →
    0 < a.count

/-- A run of indices that is no slice is not empty. -/
theorem Path.count_pos_of_unsliced {p : Path} {a : Access}
    (h : (p.access a).last.slice? = none) : 0 < a.count := by
  rw [Access.count_of_single (isSlice_of_unsliced h)]
  exact Nat.one_pos

namespace Item

/-- The values that an item is taken apart into are not sliced. -/
theorem slice?_of_mem_expand {s : Split} {q : Path} (hsplit : i.split? = some s)
    (hj : j ∈ i.expand) (hq : j.content = .value q) : q.last.slice? = none := by
  rw [expand_of_split hsplit] at hj
  have hrow {cs : List Condition} {ps : List Path} (hj : j ∈ row cs ps) : q ∈ ps := by
    obtain ⟨p, hp, rfl⟩ := List.mem_map.1 hj
    cases hq
    exact hp
  obtain ⟨cs, p, rfl, -, ⟨ps, hp, rfl⟩ | ⟨shared, arms, hs, rfl⟩⟩ := split_cases hsplit
  · exact hp.slice?_eq_none (hrow hj)
  · cases List.mem_append.1 hj with
    | inl hj => exact hs.slice?_eq_none (hrow hj)
    | inr hj =>
      obtain ⟨b, hb, hj⟩ := List.mem_flatMap.1 hj
      obtain ⟨a, ha, rfl⟩ := List.mem_map.1 hb
      cases List.mem_append.1 hj with
      | inl hj => exact hs.slice?_eq_none_of_arm ha (hrow hj)
      | inr hj =>
        split at hj
        · cases hj
        · rw [List.mem_singleton.1 hj] at hq
          cases hq

namespace Solid

/-- An item that lies among the data objects and is not sliced is solid. -/
theorem of_unsliced (h : i.Lies roots)
    (hs : ∀ q, i.content = .value q → q.last.slice? = none) : i.Solid roots := by
  refine ⟨h, ?_⟩
  rintro cs p a rfl
  exact Path.count_pos_of_unsliced (hs _ rfl)

theorem expand (h : i.Solid roots) (hj : j ∈ i.expand) : j.Solid roots := by
  cases hsplit : i.split? with
  | none =>
    rw [Item.expand, hsplit, Option.elim_none] at hj
    rwa [List.mem_singleton.1 hj]
  | some s => exact of_unsliced (h.lies.expand hj) fun q hq => slice?_of_mem_expand hsplit hj hq

theorem uncovered (h : i.Solid roots) : i.uncovered.Solid roots := by
  cases hcovers : i.coversRank with
  | false => rwa [uncovered_of_not_covers hcovers]
  | true =>
    have hlies := (merges_uncovered h.lies).lies (List.forall_mem_singleton.2 h.lies)
    obtain ⟨cs, p, extent, hrank, -, heq⟩ := covers_inv h.lies hcovers
    rw [heq] at hlies ⊢
    refine of_unsliced hlies ?_
    rintro q ⟨⟩
    exact hrank.unsliced

theorem join (hm : m.Numbered) (h : i.Solid m.roots) (h' : j.Solid m.roots) {joined : Item}
    (hjoin : i.join? j = some joined) : joined.Solid m.roots := by
  have hlies := (merges_join hm h.lies h'.lies hjoin (.one i) (.one j)).lies
    (List.forall_mem_cons.2 ⟨h.lies, List.forall_mem_singleton.2 h'.lies⟩)
  obtain ⟨cs, p, x, y, extent, -, rfl, -, -, -, rfl⟩ := join_inv hm h.lies h'.lies hjoin
  refine ⟨hlies, fun cs' q a heq => ?_⟩
  have hpos := h.filled cs p x rfl
  rw [Item.mk.injEq, Content.value.injEq] at heq
  obtain ⟨rfl, rfl⟩ := Path.access_inj heq.2
  exact Nat.add_pos_left hpos _

end Solid

/-- An item that is obtained from data objects is padding, or lies among them without an empty slice
at its end. -/
theorem Obtained.solid (hm : m.Numbered) (h : i.Obtained m.roots) : i.Solid m.roots := by
  induction h with
  | root hd =>
    refine .of_unsliced (Path.Reached.root hd).lies ?_
    rintro q ⟨⟩
    rfl
  | padding cs bits trailing =>
    exact .of_unsliced (lies_padding ⟨cs, bits, trailing, rfl⟩) fun _ hq => nomatch hq
  | expand h hj ih => exact ih.expand hj
  | uncovered h ih => exact ih.uncovered
  | join h h' hjoin ih ih' => exact ih.join hm ih' hjoin

theorem obtained_roots : ∀ i ∈ roots.map root, i.Obtained roots :=
  List.forall_mem_map.2 fun _ hd => .root hd

theorem obtained_expand {items : List Item} (h : ∀ i ∈ items, i.Obtained roots) :
    ∀ j ∈ items.flatMap expand, j.Obtained roots := by
  intro j hj
  obtain ⟨i, hi, hj⟩ := List.mem_flatMap.1 hj
  exact .expand (h i hi) hj

theorem inherited_obtained (roots : List Decl) : Inherited (Obtained roots) where
  expand := .expand
  beside bits trailing _ := .padding _ bits trailing
  branch bits trailing _ _ _ _ := .padding _ bits trailing
  between bits trailing := .padding _ bits trailing

end Item

/-- What is placed for groups is obtained from the data objects. -/
theorem PlacesGroups.obtained {capacity : Nat} {groups : List (List Decl)} {after : Placement}
    (h : PlacesGroups capacity groups (⟨0, 0⟩, []) after)
    (hgroups : ∀ d ∈ groups.flatten, d ∈ roots) : ∀ x ∈ after.2, x.item.Obtained roots :=
  h.inherits (Item.inherited_obtained roots) (fun d hd => .root (hgroups d hd))
    fun _ hx => nomatch hx

end BitLayout
