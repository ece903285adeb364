import BitLayout.Proofs.Item.Leaves
import BitLayout.Proofs.Sector.Filled
import BitLayout.Sector.Merge

/-!
# BitLayout.Proofs.Sector.Inherited

What holds of everything that is placed. Placing takes items apart and adds padding, and nothing
else; merging joins items and drops indices. So a property that these keep is handed on from the
data objects to all that is placed, and to all sectors.

* `Item.Inherited`: a property that taking apart and padding keep;
* `Places.inherits`, `PlacesGroups.inherits`: everything that is placed has it;
* `forall_mergeItems`: merged items have a property that joining and dropping indices keep.
-/

namespace BitLayout

open Packing

/-- A property of items that their parts have too, and the padding that packing adds. -/
structure Item.Inherited (P : Item → Prop) : Prop where
  expand : ∀ {i j : Item}, P i → j ∈ i.expand → P j
  /-- Padding stands beside an item. -/
  beside : ∀ {i : Item} (bits : Nat) (trailing : Bool), P i →
    P (.padding i.conditions bits trailing)
  /-- Padding stands in a branch of a union. -/
  branch : ∀ {cs : List Condition} {p : Path} {shared : List Path} {arms : List Variant}
    {a : Variant} (bits : Nat) (trailing : Bool), P ⟨cs, .value p⟩ →
    p.last.decl.isOmitted = false → p.Switch shared arms → a ∈ arms →
    P (.padding (a.conditions cs p) bits trailing)
  /-- Padding stands between groups. -/
  between : ∀ (bits : Nat) (trailing : Bool), P (.padding [] bits trailing)

variable {capacity : Nat} {P : Item → Prop}

/-! ## placing -/

namespace Item.Inherited

variable {cs : List Condition} {p q : Path} {ps qs : List Path} {arms : List Variant} {a : Variant}

theorem part (hP : Inherited P) (h : P ⟨cs, .value p⟩) (homit : p.last.decl.isOmitted = false)
    (hp : p.Parts ps) (hq : q ∈ ps) : P ⟨cs, .value q⟩ := by
  refine hP.expand h ?_
  rw [expand_of_split (split_of_parts homit hp)]
  exact List.mem_map_of_mem hq

theorem shared (hP : Inherited P) (h : P ⟨cs, .value p⟩) (homit : p.last.decl.isOmitted = false)
    (hs : p.Switch qs arms) (hq : q ∈ qs) : P ⟨cs, .value q⟩ := by
  refine hP.expand h ?_
  rw [expand_of_split (split_of_switch homit hs)]
  exact Split.mem_items_of_shared (List.mem_map_of_mem hq)

theorem arm (hP : Inherited P) (h : P ⟨cs, .value p⟩) (homit : p.last.decl.isOmitted = false)
    (hs : p.Switch qs arms) (ha : a ∈ arms) (hq : q ∈ a.parts) :
    P ⟨a.conditions cs p, .value q⟩ := by
  refine hP.expand h ?_
  rw [expand_of_split (split_of_switch homit hs)]
  exact Split.mem_items_of_branch (List.mem_map_of_mem ha) (List.mem_map_of_mem hq)

end Item.Inherited

/-- What is placed for values has what they hand on. -/
theorem Places.inherits {cs : List Condition} {ps : List Path} {c c' : Cursor} {out : List Placed}
    (h : Places capacity cs ps c c' out) (hP : Item.Inherited P)
    (hps : ∀ p ∈ ps, P ⟨cs, .value p⟩) : ∀ x ∈ out, P x.item := by
  induction h with
  | nil => exact fun _ hx => nomatch hx
  | @omitted cs p ps c c' out homit h ih =>
    obtain ⟨hp, hps⟩ := List.forall_mem_cons.1 hps
    refine List.forall_mem_append.2 ⟨fun x hx => ?_, ih hps⟩
    split at hx
    · rw [List.mem_singleton.1 hx]
      exact hp
    · cases hx
  | fits homit hfit h ih =>
    obtain ⟨hp, hps⟩ := List.forall_mem_cons.1 hps
    exact List.forall_mem_cons.2 ⟨hp, ih hps⟩
  | row homit hfit hparts hinner h ihinner ih =>
    obtain ⟨hp, hps⟩ := List.forall_mem_cons.1 hps
    exact List.forall_mem_append.2 ⟨ihinner fun q hq => hP.part hp homit hparts hq, ih hps⟩
  | @union cs p ps shared arms c d c' first out ends homit hfit hs hfirst harms hends h ihfirst
      ihends ih =>
    obtain ⟨hp, hps⟩ := List.forall_mem_cons.1 hps
    have hbranches : ∀ x ∈ (joinBranches capacity d (branchesOf cs p ends)).2, P x.item := by
      intro x hx
      obtain ⟨e, he, hx | ⟨-, -, bits, trailing, hx⟩⟩ := mem_joinBranches hx
      · have ha : e.1 ∈ arms := harms ▸ List.mem_map_of_mem he
        exact ihends e he (fun q hq => hP.arm hp homit hs ha hq) x hx
      · have ha : e.1 ∈ arms := harms ▸ List.mem_map_of_mem he
        rw [hx]
        exact hP.branch bits trailing hp homit hs ha
    refine List.forall_mem_append.2 ⟨List.forall_mem_append.2 ⟨?_, hbranches⟩, ih hps⟩
    exact ihfirst fun q hq => hP.shared hp homit hs hq
  | next homit hfit hwhole hbits h ih =>
    obtain ⟨hp, hps⟩ := List.forall_mem_cons.1 hps
    refine List.forall_mem_append.2 ⟨fun x hx => ?_, List.forall_mem_cons.2 ⟨hp, ih hps⟩⟩
    obtain ⟨-, bits, trailing, hx⟩ := mem_fill hx
    rw [hx]
    exact hP.beside bits trailing hp

/-- What is placed for groups has what the data objects hand on. -/
theorem PlacesGroups.inherits {groups : List (List Decl)} {before after : Placement}
    (h : PlacesGroups capacity groups before after) (hP : Item.Inherited P)
    (hgroups : ∀ d ∈ groups.flatten, P (.root d))
    (hbefore : ∀ x ∈ before.2, P x.item) : ∀ x ∈ after.2, P x.item := by
  induction h with
  | nil => exact hbefore
  | @cons objects groups before after c more h hrest ih =>
    rw [List.flatten_cons] at hgroups
    obtain ⟨hobjects, hgroups⟩ := List.forall_mem_append.1 hgroups
    have hmore : ∀ x ∈ more, P x.item := h.inherits hP fun p hp => by
      obtain ⟨d, hd, rfl⟩ := List.mem_map.1 hp
      exact hobjects d hd
    refine ih hgroups (List.forall_mem_append.2 ⟨?_, hmore⟩)
    unfold opened
    split
    · refine List.forall_mem_append.2 ⟨hbefore, fun x hx => ?_⟩
      obtain ⟨-, bits, trailing, hx⟩ := mem_fill hx
      rw [hx]
      exact hP.between bits trailing
    · exact hbefore

/-! ## merging -/

section

variable {items done : List Item} {i : Item}

theorem forall_mergeOnto (hjoin : ∀ {i j joined : Item}, P i → P j → i.join? j = some joined →
    P joined) (hi : P i) (hdone : ∀ j ∈ done, P j) : ∀ j ∈ mergeOnto done i, P j := by
  unfold mergeOnto
  split
  · exact List.forall_mem_singleton.2 hi
  · obtain ⟨hbefore, hearlier⟩ := List.forall_mem_cons.1 hdone
    split
    · next joined hjoined => exact List.forall_mem_cons.2 ⟨hjoin hbefore hi hjoined, hearlier⟩
    · exact List.forall_mem_cons.2 ⟨hi, hdone⟩

theorem forall_mergePass (huncovered : ∀ {i : Item}, P i → P i.uncovered)
    (hjoin : ∀ {i j joined : Item}, P i → P j → i.join? j = some joined → P joined)
    (h : ∀ i ∈ items, P i) : ∀ j ∈ mergePass items, P j := by
  suffices hall : ∀ done, (∀ j ∈ done, P j) →
      ∀ j ∈ (items.map Item.uncovered).foldl mergeOnto done, P j from
    fun j hj => hall [] (fun _ hj => nomatch hj) j (List.mem_reverse.1 hj)
  induction items with
  | nil => exact fun done hdone => hdone
  | cons i items ih =>
    obtain ⟨hi, hitems⟩ := List.forall_mem_cons.1 h
    exact fun done hdone => ih hitems _ (forall_mergeOnto hjoin (huncovered hi) hdone)

/-- Merged items have what joining them and dropping indices keep. -/
theorem forall_mergeItems (huncovered : ∀ {i : Item}, P i → P i.uncovered)
    (hjoin : ∀ {i j joined : Item}, P i → P j → i.join? j = some joined → P joined)
    (h : ∀ i ∈ items, P i) : ∀ j ∈ mergeItems items, P j := by
  suffices hall : ∀ passes items, (∀ i ∈ items, P i) →
      ∀ j ∈ mergeWithin passes items, P j from hall _ items h
  intro passes
  induction passes with
  | zero => exact fun items h => h
  | succ passes ih =>
    intro items h
    rw [mergeWithin]
    split
    · exact h
    · exact ih _ (forall_mergePass huncovered hjoin h)

/-- The items of packed sectors have what the data objects hand on, and merging keeps. -/
theorem inherits_of_pack {groups : List (List Decl)} {available : Nat} {sectors : List Sector}
    (hP : Item.Inherited P) (huncovered : ∀ {i : Item}, P i → P i.uncovered)
    (hjoin : ∀ {i j joined : Item}, P i → P j → i.join? j = some joined → P joined)
    (hgroups : ∀ d ∈ groups.flatten, P (.root d))
    (hpack : pack capacity available groups = .ok sectors) :
    ∀ s ∈ sectors, ∀ i ∈ s.items, P i := by
  obtain ⟨cursor, placed, hplaces, -, rfl⟩ := placesGroups_of_pack hpack
  have hplaced := hplaces.inherits hP hgroups fun _ hx => nomatch hx
  intro s hs
  obtain ⟨n, -, rfl⟩ := List.mem_map.1 hs
  refine forall_mergeItems huncovered hjoin fun i hi => ?_
  obtain ⟨x, hx, rfl⟩ := List.mem_map.1 hi
  exact hplaced x (List.mem_filter.1 hx).1

end

end BitLayout
