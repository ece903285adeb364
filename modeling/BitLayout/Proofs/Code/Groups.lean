import BitLayout.Proofs.Code.Arms
import Mathlib.Data.List.Induction

/-!
# BitLayout.Proofs.Code.Groups

Items by the values of their conditions. Items come to the groups in the order of a list, while the
groups are kept in ascending order of their values; each item is in one group, behind the earlier
items of its value:

```
items of the group for v  =  items under v, in the order of the list
```

* `Items.ascending_groups`: groups are in ascending order;
* `Items.groups_induct`: what holds of a group of one item, and stays when one is added, holds of
  all;
* `Items.itemsFor_groups`: the equation above;
* `Items.perm_groups`: all groups together are the items.
-/

namespace BitLayout

namespace Items

namespace Group

/-- The value that a group is for. -/
def value (g : Group) : Int := g.condition.value

end Group

/-- Add an item to the group of its condition at a level. -/
def addAt (level : Nat) (gs : List Group) (i : Item) : List Group :=
  match i.conditions[level]? with
  | some c => addTo c i gs
  | none => gs

theorem groups_eq (level : Nat) (items : List Item) :
    groups level items = items.foldl (addAt level) [] := rfl

theorem groups_concat (level : Nat) (items : List Item) (i : Item) :
    groups level (items ++ [i]) = addAt level (groups level items) i := by
  rw [groups_eq, List.foldl_append]
  rfl

section

variable {c : Condition} {i : Item} {items : List Item} {gs : List Group} {level : Nat}
  {value : Int}

/-- An item under a new value starts a group. -/
theorem addTo_of_new (h : c.value ∉ gs.map Group.value) :
    addTo c i gs = insertBy Group.value ⟨c, [i]⟩ gs := by
  induction gs with
  | nil => rfl
  | cons g gs ih =>
    rw [List.map_cons, List.mem_cons, not_or] at h
    have hne : ¬ c.value = g.condition.value := h.1
    simp only [addTo, insertBy, ih h.2, Group.value, hne, if_false]

/-- The next item of a group goes to its end. -/
theorem addTo_of_old :
    addTo c i (insertBy Group.value ⟨c, items⟩ gs) =
      insertBy Group.value ⟨c, items ++ [i]⟩ gs := by
  induction gs with
  | nil => simp only [insertBy, addTo, Int.lt_irrefl, if_false, if_true]
  | cons g gs ih =>
    by_cases hlt : c.value < g.condition.value
    · simp only [insertBy, Group.value, hlt, if_true, addTo, Int.lt_irrefl, if_false]
    · by_cases heq : c.value = g.condition.value
      · simp only [insertBy, Group.value, heq, if_true, addTo, Int.lt_irrefl, if_false]
      · simp only [insertBy, Group.value, hlt, heq, if_false, addTo, ih]

/-- An item is added to the values of groups by its condition's value. -/
theorem map_value_addTo (c : Condition) (i : Item) (gs : List Group) :
    (addTo c i gs).map Group.value = insertBy id c.value (gs.map Group.value) := by
  induction gs with
  | nil => rfl
  | cons g gs ih =>
    by_cases hlt : c.value < g.condition.value
    · simp [addTo, insertBy, Group.value, hlt]
    · by_cases heq : c.value = g.condition.value
      · simp [addTo, insertBy, Group.value, heq]
      · simp [addTo, insertBy, hlt, heq, ih, Group.value]

theorem ascending_addTo (h : Ascending Group.value gs) (c : Condition) (i : Item) :
    Ascending Group.value (addTo c i gs) := by
  have hvalues : Ascending id (gs.map Group.value) := List.pairwise_map.2 h
  have hinsert := hvalues.insertBy (a := c.value)
  rw [← map_value_addTo c i gs] at hinsert
  exact List.pairwise_map.1 hinsert

/-- Items are grouped in ascending order of the values of their conditions. -/
theorem ascending_groups (level : Nat) (items : List Item) :
    Ascending Group.value (groups level items) := by
  refine List.foldlRecOn (motive := Ascending Group.value) items (addAt level) .nil
    fun gs h i _ => ?_
  unfold addAt
  split
  · exact ascending_addTo h _ i
  · exact h

/-- What holds of a group of one item, and stays when one with its value is added, holds of all
groups. -/
theorem groups_induct {P : Group → Prop}
    (hnew : ∀ i ∈ items, ∀ c, i.conditions[level]? = some c → P ⟨c, [i]⟩)
    (hmore : ∀ i ∈ items, ∀ c, i.conditions[level]? = some c → ∀ g : Group,
      c.value = g.condition.value → P g → P ⟨g.condition, g.items ++ [i]⟩) :
    ∀ g ∈ groups level items, P g := by
  have hstep {i : Item} (hi : i ∈ items) {c : Condition} (hc : i.conditions[level]? = some c)
      {gs : List Group} (h : ∀ g ∈ gs, P g) : ∀ g ∈ addTo c i gs, P g := by
    induction gs with
    | nil => exact List.forall_mem_singleton.2 (hnew i hi c hc)
    | cons g gs ih =>
      obtain ⟨hg, hgs⟩ := List.forall_mem_cons.1 h
      rw [addTo]
      split
      · exact List.forall_mem_cons.2 ⟨hnew i hi c hc, h⟩
      · split
        · next hvalue => exact List.forall_mem_cons.2 ⟨hmore i hi c hc g hvalue hg, hgs⟩
        · exact List.forall_mem_cons.2 ⟨hg, ih hgs⟩
  refine List.foldlRecOn (motive := fun gs => ∀ g ∈ gs, P g) items (addAt level)
    (fun _ hg => nomatch hg) fun gs h i hi => ?_
  unfold addAt
  split
  · next c hc => exact hstep hi hc h
  · exact h

/-- What holds of items holds of those in their groups. -/
theorem forall_groups {P : Item → Prop} (h : ∀ i ∈ items, P i) :
    ∀ g ∈ groups level items, ∀ j ∈ g.items, P j :=
  groups_induct (fun i hi _ _ => List.forall_mem_singleton.2 (h i hi))
    fun i hi _ _ _ _ hg => List.forall_mem_append.2 ⟨hg, List.forall_mem_singleton.2 (h i hi)⟩

/-- Items under one condition with a new value form a group. -/
theorem foldl_addAt (h : c.value ∉ gs.map Group.value) (hne : items ≠ [])
    (hitems : ∀ i ∈ items, i.conditions[level]? = some c) :
    items.foldl (addAt level) gs = insertBy Group.value ⟨c, items⟩ gs := by
  induction items using List.reverseRecOn with
  | nil => exact absurd rfl hne
  | append_singleton items i ih =>
    have hi := hitems i (List.mem_append_right _ List.mem_cons_self)
    rw [List.foldl_append, List.foldl_cons, List.foldl_nil, addAt, hi]
    dsimp only
    by_cases hnil : items = []
    · rw [hnil, List.foldl_nil, addTo_of_new h]
      rfl
    · rw [ih hnil fun i hi => hitems i (List.mem_append_left _ hi), addTo_of_old]

/-! ## items of groups -/

/-- The items of the group for a value, if there is one. -/
def itemsFor (value : Int) (gs : List Group) : List Item :=
  (gs.filter (·.value = value)).flatMap Group.items

theorem itemsFor_cons (g : Group) (gs : List Group) : itemsFor value (g :: gs) =
    (if g.value = value then g.items else []) ++ itemsFor value gs := by
  by_cases hg : g.value = value <;> simp [itemsFor, hg]

theorem itemsFor_of_lt (h : ∀ g ∈ gs, value < g.value) : itemsFor value gs = [] := by
  induction gs with
  | nil => rfl
  | cons g gs ih =>
    obtain ⟨hg, hgs⟩ := List.forall_mem_cons.1 h
    rw [itemsFor_cons, if_neg (Int.ne_of_gt hg), ih hgs, List.append_nil]

/-- An item goes behind those of its value. -/
theorem itemsFor_addTo (h : Ascending Group.value gs) :
    itemsFor value (addTo c i gs) = itemsFor value gs ++ if c.value = value then [i] else [] := by
  induction gs with
  | nil => by_cases hvalue : c.value = value <;> simp [addTo, itemsFor, Group.value, hvalue]
  | cons g gs ih =>
    obtain ⟨hg, hgs⟩ := List.pairwise_cons.1 h
    rw [addTo]
    split
    · next hlt =>
      rw [itemsFor_cons ⟨c, [i]⟩]
      by_cases hvalue : c.value = value
      · have hall : ∀ g' ∈ g :: gs, value < g'.value := by
          refine List.forall_mem_cons.2 ⟨hvalue ▸ hlt, fun g' hg' => ?_⟩
          exact Int.lt_trans (hvalue ▸ hlt) (hg g' hg')
        simp [itemsFor_of_lt hall, Group.value, hvalue]
      · simp [Group.value, hvalue]
    · split
      · next heq =>
        rw [itemsFor_cons, itemsFor_cons, heq]
        by_cases hvalue : g.value = value
        · have hnil : itemsFor value gs = [] := itemsFor_of_lt fun g' hg' => hvalue ▸ hg g' hg'
          simp [hnil, Group.value, show g.condition.value = value from hvalue]
        · simp [Group.value, show ¬ g.condition.value = value from hvalue]
      · rw [itemsFor_cons, itemsFor_cons, ih hgs, List.append_assoc]

/-- The group for a value has the items under it, in their order. -/
theorem itemsFor_groups (level : Nat) (items : List Item) :
    itemsFor value (groups level items) =
      items.filter fun i => i.conditions[level]?.any (·.value = value) := by
  induction items using List.reverseRecOn with
  | nil => rfl
  | append_singleton items i ih =>
    rw [groups_concat, addAt, List.filter_append, ← ih]
    cases hc : i.conditions[level]? with
    | none => simp [hc]
    | some c =>
      rw [itemsFor_addTo (ascending_groups level items), List.filter_singleton, hc]
      by_cases hvalue : c.value = value <;> simp [hvalue]

theorem perm_addTo (c : Condition) (i : Item) (gs : List Group) :
    ((addTo c i gs).flatMap Group.items).Perm (gs.flatMap Group.items ++ [i]) := by
  induction gs with
  | nil => exact .refl _
  | cons g gs ih =>
    rw [addTo]
    split
    · exact (List.perm_append_singleton i _).symm
    · split
      · simp only [List.flatMap_cons, List.append_assoc]
        exact (List.perm_append_comm).append_left g.items
      · simp only [List.flatMap_cons, List.append_assoc]
        exact ih.append_left g.items

/-- Every item is in one group. -/
theorem perm_groups (h : ∀ i ∈ items, i.conditions[level]?.isSome) :
    ((groups level items).flatMap Group.items).Perm items := by
  induction items using List.reverseRecOn with
  | nil => exact .refl _
  | append_singleton items i ih =>
    obtain ⟨hitems, hi⟩ := List.forall_mem_append.1 h
    obtain ⟨c, hc⟩ := Option.isSome_iff_exists.1 (hi i (List.mem_singleton_self i))
    rw [groups_concat, addAt, hc]
    exact (perm_addTo c i _).trans ((ih hitems).append_right [i])

theorem groups_ne_nil (hne : items ≠ []) (h : ∀ i ∈ items, i.conditions[level]?.isSome) :
    groups level items ≠ [] := by
  intro hnil
  have hperm := perm_groups h
  rw [hnil] at hperm
  exact hne hperm.nil_eq.symm

end

end Items

end BitLayout
