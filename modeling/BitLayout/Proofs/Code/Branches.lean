import BitLayout.Proofs.Code.Groups
import BitLayout.Proofs.Item.Parts
import Mathlib.Data.List.SplitBy

/-!
# BitLayout.Proofs.Code.Branches

What the code for a list of items does, where the list is what a value is taken apart into.

* `Items.events_row`: items without conditions of their own are moved one after the other;
* `Items.groups_branches`: the branches of a union that are not empty are found again by the values
  of their conditions, in ascending order;
* `Items.events_switch`: what is shared is moved, then there is one choice between the branches.
-/

namespace BitLayout

namespace Items

/-! ## rows -/

section

variable {aim : Purpose} {d : Direction} {call : Spot → String → List Event} {e : Scope}
  {levels level : Nat} {items run : List Item}

/-- The code for one run of items. -/
def runStatements (aim : Purpose) (levels level : Nat) (run : List Item) : List Statement :=
  if run.all fun i => i.conditions[level]?.isNone then run.flatMap (Item.statements aim)
  else
    Statement.chosen ((groups level run).map fun g =>
      .mk g.condition.tag.locus.place g.condition.value
        (statementsWithin aim levels (level + 1) g.items))

theorem statementsWithin_succ (items : List Item) :
    statementsWithin aim (levels + 1) level items =
      (items.splitBy (sameChoice level)).flatMap (runStatements aim levels level) := rfl

theorem mem_of_run (h : run ∈ items.splitBy (sameChoice level)) {i : Item} (hi : i ∈ run) :
    i ∈ items := by
  rw [← List.flatten_splitBy (sameChoice level) items]
  exact List.mem_flatten_of_mem h hi

/-- A list begins with another one if its first entries are that list. -/
theorem isPrefixOf_eq_beq_take {α : Type} [BEq α] {xs ys : List α} (h : xs.length ≤ ys.length) :
    xs.isPrefixOf ys = (xs == ys.take xs.length) := by
  induction xs generalizing ys with
  | nil => simp
  | cons x xs ih =>
    cases ys with
    | nil => cases h
    | cons y ys => simp [List.isPrefixOf, ih (Nat.le_of_succ_le_succ h)]

/-- An item goes on with the choice of another one if its conditions narrow those that stand in
front of the choice, and the next of them is on the same union. -/
theorem sameChoice_eq {i j : Item} {c : Condition} (hc : i.conditions[level]? = some c) :
    sameChoice level i j = (isNarrowing j.conditions (i.conditions.take level) &&
      j.conditions[level]?.any c.sameSwitch) := by
  have hlength : (i.conditions.take level).length = level :=
    List.length_take_of_le (Nat.le_of_lt (List.getElem?_eq_some_iff.1 hc).1)
  unfold sameChoice isNarrowing
  cases hd : j.conditions[level]? with
  | none => simp [hc]
  | some d =>
    have hlt := (List.getElem?_eq_some_iff.1 hd).1
    have hbegins : (i.conditions.take level).isPrefixOf j.conditions = _ :=
      isPrefixOf_eq_beq_take (hlength.symm ▸ Nat.le_of_lt hlt)
    rw [hlength] at hbegins
    simp [hc, hlength, hbegins, hlt]

/-- Runs of items without conditions of their own are moved one after the other. -/
theorem flatMap_runStatements (h : ∀ i ∈ items, i.conditions[level]? = none) :
    (items.splitBy (sameChoice level)).flatMap (runStatements aim levels level) =
      items.flatMap (Item.statements aim) := by
  have hrun : ∀ run ∈ items.splitBy (sameChoice level),
      runStatements aim levels level run = run.flatMap (Item.statements aim) := by
    intro run hrun
    refine if_pos (List.all_eq_true.2 fun i hi => ?_)
    rw [h i (mem_of_run hrun hi)]
    rfl
  rw [List.flatMap_congr hrun]
  conv_rhs => rw [← List.flatten_splitBy (sameChoice level) items]
  rw [← List.flatMap_id, List.flatMap_assoc]
  rfl

/-- Neighbours on which the same choice is made all have a condition for it; only an item alone may
have none. -/
theorem conditions_of_run (h : run.IsChain fun i j => sameChoice level i j = true) :
    (∀ i ∈ run, i.conditions[level]? = none) ∨ ∀ i ∈ run, i.conditions[level]?.isSome := by
  induction run with
  | nil => exact .inl fun _ hi => (nomatch hi)
  | cons i run ih =>
    cases run with
    | nil =>
      cases hi : i.conditions[level]? with
      | none => exact .inl (List.forall_mem_singleton.2 hi)
      | some c => exact .inr (List.forall_mem_singleton.2 (hi ▸ rfl))
    | cons j run =>
      obtain ⟨hsame, hchain⟩ := List.isChain_cons_cons.1 h
      have hboth : i.conditions[level]?.isSome ∧ j.conditions[level]?.isSome := by
        rw [sameChoice] at hsame
        split at hsame
        · next hi hj => exact ⟨hi ▸ rfl, hj ▸ rfl⟩
        · cases hsame
      refine .inr (List.forall_mem_cons.2 ⟨hboth.1, (ih hchain).resolve_left fun hnone => ?_⟩)
      simp [hnone j List.mem_cons_self] at hboth

/-- Items are moved run by run. -/
theorem statementsWithin_runs (h : ∀ i ∈ items, i.conditions.length ≤ level + levels) :
    statementsWithin aim levels level items =
      (items.splitBy (sameChoice level)).flatMap (runStatements aim (levels - 1) level) := by
  cases levels with
  | zero => exact (flatMap_runStatements fun i hi => List.getElem?_eq_none (h i hi)).symm
  | succ levels => rfl

/-- Items without conditions of their own are moved one after the other. -/
theorem events_row (h : ∀ i ∈ items, i.conditions[level]? = none) :
    statementEvents d call e (statementsWithin aim levels level items) =
      items.flatMap fun i => statementEvents d call e (i.statements aim) := by
  cases levels with
  | zero => exact statementEvents_flatMap ..
  | succ levels => rw [statementsWithin_succ, flatMap_runStatements h, statementEvents_flatMap]

/-- Items on which the same choice is made, behind items on which none is. -/
theorem statementsWithin_choice (h : ∀ i ∈ items, i.conditions[level]? = none) (hne : run ≠ [])
    (hrun : ∀ i ∈ run, ∀ j ∈ run, sameChoice level i j = true) :
    statementsWithin aim (levels + 1) level (items ++ run) =
      items.flatMap (Item.statements aim) ++ Statement.chosen ((groups level run).map fun g =>
        .mk g.condition.tag.locus.place g.condition.value
          (statementsWithin aim levels (level + 1) g.items)) := by
  have hapart : ∀ i ∈ items.getLast?, ∀ j ∈ run.head?, sameChoice level i j = false := by
    intro i hi j _
    rw [sameChoice, h i (List.mem_of_getLast? hi)]
  have hchain : run.IsChain fun i j => sameChoice level i j = true :=
    (List.pairwise_of_forall_mem_list hrun).isChain
  obtain ⟨i, hi⟩ := List.exists_mem_of_ne_nil run hne
  have hchoice : ¬ (run.all fun i => i.conditions[level]?.isNone) = true := by
    intro hall
    have hnone := List.all_eq_true.1 hall i hi
    have hsame := hrun i hi i hi
    rw [Option.isNone_iff_eq_none] at hnone
    rw [sameChoice, hnone] at hsame
    cases hsame
  rw [statementsWithin_succ, List.splitBy_append hapart, List.splitBy_of_isChain hne hchain,
    List.flatMap_append, flatMap_runStatements h, List.flatMap_singleton, runStatements,
    if_neg hchoice]

end

end Items

/-! ## branches -/

namespace Variant

variable {cs : List Condition} {p : Path} {a : Variant} {i : Item}

/-- The condition that an arm adds. -/
def condition (p : Path) (a : Variant) : Condition := ⟨p, a.tag, a.value⟩

/-- The items of an arm. -/
def items (cs : List Condition) (p : Path) (a : Variant) : List Item := (a.branch cs p).items

/-- Whether anything travels for an arm. -/
def travels (cs : List Condition) (p : Path) (a : Variant) : Bool := !(a.items cs p).isEmpty

/-- Everything in an arm stands under its condition. -/
theorem conditions_of_mem_items (hi : i ∈ a.items cs p) :
    i.conditions = cs ++ [a.condition p] := by
  cases List.mem_append.1 hi with
  | inl hi =>
    obtain ⟨q, -, rfl⟩ := List.mem_map.1 hi
    rfl
  | inr hi =>
    split at hi
    · cases hi
    · rw [List.mem_singleton.1 hi]
      rfl

theorem getElem_of_mem_items (hi : i ∈ a.items cs p) :
    i.conditions[cs.length]? = some (a.condition p) := by
  rw [conditions_of_mem_items hi, List.getElem?_concat_length]

end Variant

namespace Items

section

variable {cs : List Condition} {p : Path} {arms : List Variant}

/-- The group of an arm. -/
def groupOf (cs : List Condition) (p : Path) (a : Variant) : Group := ⟨a.condition p, a.items cs p⟩

/-- The items of arms with new values form one group for each arm that travels. -/
theorem foldl_addAt_arms (hnodup : (arms.map Variant.value).Nodup) {gs : List Group}
    (hgs : ∀ a ∈ arms, a.value ∉ gs.map Group.value) :
    (arms.flatMap (Variant.items cs p)).foldl (addAt cs.length) gs =
      ((arms.filter (Variant.travels cs p)).map (groupOf cs p)).foldl
        (fun sorted g => insertBy Group.value g sorted) gs := by
  induction arms generalizing gs with
  | nil => rfl
  | cons a arms ih =>
    obtain ⟨ha, hgs⟩ := List.forall_mem_cons.1 hgs
    rw [List.map_cons, List.nodup_cons] at hnodup
    rw [List.flatMap_cons, List.foldl_append]
    by_cases hnil : a.items cs p = []
    · have hskip : ¬ a.travels cs p = true := by simp [Variant.travels, hnil]
      rw [hnil, List.foldl_nil, List.filter_cons_of_neg hskip, ih hnodup.2 hgs]
    · have hkeep : a.travels cs p = true := by simp [Variant.travels, hnil]
      have hgroup : (a.items cs p).foldl (addAt cs.length) gs =
          insertBy Group.value (groupOf cs p a) gs :=
        foldl_addAt ha hnil fun i hi => Variant.getElem_of_mem_items hi
      rw [hgroup, List.filter_cons_of_pos hkeep, List.map_cons, List.foldl_cons]
      refine ih hnodup.2 fun b hb hmem => ?_
      obtain ⟨g, hg, hvalue⟩ := List.mem_map.1 hmem
      rcases mem_insertBy hg with rfl | hg
      · exact hnodup.1 (List.mem_map.2 ⟨b, hb, hvalue.symm⟩)
      · exact hgs b hb (hvalue ▸ List.mem_map_of_mem hg)

/-- The branches of a union that are not empty are found again, in ascending order. -/
theorem groups_branches (hnodup : (arms.map Variant.value).Nodup) :
    groups cs.length (arms.flatMap (Variant.items cs p)) =
      sortBy Group.value ((arms.filter (Variant.travels cs p)).map (groupOf cs p)) := by
  rw [groups_eq, foldl_addAt_arms hnodup fun _ _ => List.not_mem_nil]
  refine foldl_insertBy ?_
  rw [List.map_map]
  exact hnodup.sublist ((List.filter_sublist (l := arms)).map Variant.value)

end

/-! ## switches -/

section

variable {aim : Purpose} {d : Direction} {call : Spot → String → List Event} {e : Scope}
  {levels : Nat} {cs : List Condition} {p : Path} {shared : List Path} {arms : List Variant}

/-- What moving items one after the other does. -/
def movedEvents (aim : Purpose) (d : Direction) (call : Spot → String → List Event) (e : Scope)
    (items : List Item) : List Event :=
  items.flatMap fun i => statementEvents d call e (i.statements aim)

/-- What an arm does when its items are moved. -/
def alternativeOf (aim : Purpose) (d : Direction) (call : Spot → String → List Event) (e : Scope)
    (cs : List Condition) (p : Path) (a : Variant) : Alternative :=
  ⟨a.tag.locus.place.spot e, a.value, movedEvents aim d call e (a.items cs p)⟩

/-- All items of arms stand before the same choice. -/
theorem sameChoice_of_mem_arms {i j : Item} (hi : i ∈ arms.flatMap (Variant.items cs p))
    (hj : j ∈ arms.flatMap (Variant.items cs p)) : sameChoice cs.length i j = true := by
  obtain ⟨a, -, hi⟩ := List.mem_flatMap.1 hi
  obtain ⟨b, -, hj⟩ := List.mem_flatMap.1 hj
  have hbefore : i.conditions.take cs.length = j.conditions.take cs.length := by
    rw [Variant.conditions_of_mem_items hi, Variant.conditions_of_mem_items hj, List.take_left,
      List.take_left]
  have hswitch : (a.condition p).sameSwitch (b.condition p) = true := BEq.rfl (a := p)
  simp only [sameChoice, Variant.getElem_of_mem_items hi, Variant.getElem_of_mem_items hj, hbefore,
    BEq.rfl, hswitch, Bool.and_self]

/-- No item has more conditions than the code for all of them goes through. -/
theorem le_foldl_max (items : List Item) (n : Nat) :
    n ≤ items.foldl (fun n i => max n i.conditions.length) n ∧
      ∀ i ∈ items, i.conditions.length ≤ items.foldl (fun n i => max n i.conditions.length) n := by
  induction items generalizing n with
  | nil => exact ⟨Nat.le_refl _, fun _ hi => (nomatch hi)⟩
  | cons i items ih =>
    obtain ⟨hle, hall⟩ := ih (max n i.conditions.length)
    rw [List.foldl_cons]
    constructor
    · omega
    · intro j hj
      rcases List.mem_cons.1 hj with rfl | hj
      · omega
      · exact hall j hj

/-- What the choice between the arms that travel does. -/
theorem events_groups (hnodup : (arms.map Variant.value).Nodup) :
    statementEvents d call e (Statement.chosen
        ((groups cs.length (arms.flatMap (Variant.items cs p))).map fun g =>
          .mk g.condition.tag.locus.place g.condition.value
            (statementsWithin aim levels (cs.length + 1) g.items))) =
      choiceEvents (sortBy Alternative.value
        ((arms.filter (Variant.travels cs p)).map (alternativeOf aim d call e cs p))) := by
  have hvalue : ∀ g : Group, Alternative.value (Arm.alternative d call e
      (.mk g.condition.tag.locus.place g.condition.value
        (statementsWithin aim levels (cs.length + 1) g.items))) = g.value := fun _ => rfl
  rw [events_chosen, armAlternatives_eq, groups_branches hnodup, List.map_map]
  refine congrArg choiceEvents ((map_sortBy hvalue _).trans (congrArg _ ?_))
  rw [List.map_map]
  refine List.map_congr_left fun a _ => ?_
  have hrow : ∀ i ∈ a.items cs p, i.conditions[cs.length + 1]? = none := fun i hi => by
    rw [Variant.conditions_of_mem_items hi]
    exact List.getElem?_eq_none (by simp)
  have hevents : statementEvents d call e (statementsWithin aim levels (cs.length + 1)
      (a.items cs p)) = movedEvents aim d call e (a.items cs p) := events_row hrow
  rw [alternativeOf, ← hevents]
  rfl

/-- Arms for which nothing travels do nothing. -/
theorem choiceEvents_travels (hnodup : (arms.map Variant.value).Nodup) :
    choiceEvents (sortBy Alternative.value
        ((arms.filter (Variant.travels cs p)).map (alternativeOf aim d call e cs p))) =
      choiceEvents (sortBy Alternative.value (arms.map (alternativeOf aim d call e cs p))) := by
  have hvalues : ((arms.map (alternativeOf aim d call e cs p)).map Alternative.value).Nodup := by
    rwa [List.map_map]
  have hacts : (fun a => Alternative.acts (alternativeOf aim d call e cs p a) &&
      a.travels cs p) = fun a => Alternative.acts (alternativeOf aim d call e cs p a) := by
    funext a
    by_cases hnil : a.items cs p = []
    · simp [Variant.travels, hnil, Alternative.acts, alternativeOf, movedEvents]
    · simp [Variant.travels, hnil]
  rw [← choiceEvents_filter, ← choiceEvents_filter (sortBy _ (arms.map _)),
    ← sortBy_filter _ hvalues, ← sortBy_filter]
  · rw [List.filter_map, List.filter_map, List.filter_filter]
    exact congrArg (fun keep => choiceEvents (sortBy Alternative.value
      ((arms.filter keep).map (alternativeOf aim d call e cs p)))) hacts
  · rw [List.map_map]
    exact hnodup.sublist ((List.filter_sublist (l := arms)).map Variant.value)

/-- **Code for a switch**: what is shared is moved, and then one choice is made. -/
theorem events_switch (hnodup : (arms.map Variant.value).Nodup) :
    statementEvents d call e (statements aim cs.length
        (Split.union (Item.row cs shared) (arms.map (Variant.branch cs p))).items) =
      movedEvents aim d call e (Item.row cs shared) ++
        choiceEvents (sortBy Alternative.value (arms.map (alternativeOf aim d call e cs p))) := by
  have hitems : (Split.union (Item.row cs shared) (arms.map (Variant.branch cs p))).items =
      Item.row cs shared ++ arms.flatMap (Variant.items cs p) := by
    rw [Split.items, List.flatMap_map]
    rfl
  have hshared : ∀ i ∈ Item.row cs shared, i.conditions[cs.length]? = none := by
    intro i hi
    obtain ⟨q, -, rfl⟩ := List.mem_map.1 hi
    exact List.getElem?_eq_none (Nat.le_refl _)
  rw [hitems, statements, ← choiceEvents_travels hnodup]
  by_cases hnil : arms.flatMap (Variant.items cs p) = []
  · -- No arm has anything to move, so there may be no level left for a choice.
    have hidle : arms.filter (Variant.travels cs p) = [] := by
      refine List.filter_eq_nil_iff.2 fun a ha => ?_
      rw [Variant.travels, List.flatMap_eq_nil_iff.1 hnil a ha]
      exact Bool.false_ne_true
    rw [hnil, List.append_nil, events_row hshared, hidle]
    exact (List.append_nil _).symm
  · obtain ⟨i, hi⟩ := List.exists_mem_of_ne_nil _ hnil
    obtain ⟨a, -, hmem⟩ := List.mem_flatMap.1 hi
    have hle := (le_foldl_max (Item.row cs shared ++ arms.flatMap (Variant.items cs p)) 0).2 i
      (List.mem_append_right _ hi)
    rw [Variant.conditions_of_mem_items hmem, List.length_append, List.length_singleton] at hle
    obtain ⟨levels, hlevels⟩ := Nat.exists_eq_add_of_lt (Nat.lt_of_lt_of_le (Nat.succ_pos _) hle)
    rw [hlevels, Nat.zero_add, statementsWithin_choice hshared hnil fun i hi j hj =>
      sameChoice_of_mem_arms hi hj, statementEvents_append, events_groups hnodup,
      statementEvents_flatMap]
    rfl

end

end Items

end BitLayout
