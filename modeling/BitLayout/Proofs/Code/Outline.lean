import BitLayout.Proofs.Code.Branches
import BitLayout.Proofs.Sector.Aligned
import Mathlib.Data.List.Perm.Basic

/-!
# BitLayout.Proofs.Code.Outline

Outlines of code. The text of a choice tests places, and the same place may hold the tag of many
unions; so the code of items is taken together with its *outline*, which keeps the items themselves,
and beside each choice the union that it is made on:

```
items     a   b|u=2   c|u=0   d|u=2,v=1   e
outline   a   choice u (0: c) (2: b, choice v (1: d))   e
```

An outline has code, its choices, and the items in it, each behind the conditions of its arms. An
assignment decides every choice; what is left then is *selected*.

* `Items.codeAll_outlineWithin`: the code of the outline is the code of the items;
* `Items.perm_entries`: every item stands in the outline once.
-/

namespace BitLayout

/-! ## outlines -/

mutual

/-- An item to move, or a choice between the variants of a union. -/
inductive Outline where
  | item (i : Item)
  | choice (union : Path) (arms : List OutlineArm)

/-- What is done under a condition, which stands for those with its value. -/
inductive OutlineArm where
  | mk (condition : Condition) (body : List Outline)

end

/-- The condition of an arm. -/
def OutlineArm.condition : OutlineArm → Condition
  | mk condition _ => condition

mutual

/-- The code of an outline. -/
def Outline.code (aim : Purpose) : Outline → List Statement
  | .item i => i.statements aim
  | .choice _ arms => [.choice (armsCode aim arms)]

def codeAll (aim : Purpose) : List Outline → List Statement
  | [] => []
  | o :: rest => o.code aim ++ codeAll aim rest

def armsCode (aim : Purpose) : List OutlineArm → List Arm
  | [] => []
  | .mk c body :: rest =>
    .mk c.tag.locus.place c.value (codeAll aim body) :: armsCode aim rest

end

mutual

/-- All choices of an outline: the union of each, and the conditions of its arms. -/
def Outline.chains : Outline → List (Path × List Condition)
  | .item _ => []
  | .choice union arms => (union, arms.map OutlineArm.condition) :: armsChains arms

def chainsAll : List Outline → List (Path × List Condition)
  | [] => []
  | o :: rest => o.chains ++ chainsAll rest

def armsChains : List OutlineArm → List (Path × List Condition)
  | [] => []
  | .mk _ body :: rest => chainsAll body ++ armsChains rest

end

mutual

/-- All items of an outline, each behind the conditions of the arms that it stands in. -/
def Outline.entries : Outline → List Condition → List (List Condition × Item)
  | .item i, path => [(path, i)]
  | .choice _ arms, path => armsEntries arms path

def entriesAll : List Outline → List Condition → List (List Condition × Item)
  | [], _ => []
  | o :: rest, path => o.entries path ++ entriesAll rest path

def armsEntries : List OutlineArm → List Condition → List (List Condition × Item)
  | [], _ => []
  | .mk c body :: rest, path => entriesAll body (path ++ [c]) ++ armsEntries rest path

end

mutual

/-- The code that is left of an outline when an assignment decides every choice. -/
def Outline.selected (aim : Purpose) (a : Assignment) : Outline → List Statement
  | .item i => i.statements aim
  | .choice union arms => armSelected aim a (a.pick union) arms

def selectedAll (aim : Purpose) (a : Assignment) : List Outline → List Statement
  | [] => []
  | o :: rest => o.selected aim a ++ selectedAll aim a rest

/-- What is left of the first arm for a value, if there is one. -/
def armSelected (aim : Purpose) (a : Assignment) (value : Int) : List OutlineArm → List Statement
  | [] => []
  | .mk c body :: rest =>
    if c.value = value then selectedAll aim a body else armSelected aim a value rest

end

namespace Items

/-- The outline of items that share the first `level` conditions and have at most `levels` more. -/
def outlineWithin : (levels level : Nat) → List Item → List Outline
  | 0, _, items => items.map .item
  | levels + 1, level, items =>
    (items.splitBy (sameChoice level)).flatMap fun run =>
      match run.head?.bind (·.conditions[level]?) with
      | none => run.map .item
      | some c =>
        [.choice c.union ((groups level run).map fun g =>
          .mk g.condition (outlineWithin levels (level + 1) g.items))]

/-- The outline of items that share the first `level` conditions. -/
def outline (level : Nat) (items : List Item) : List Outline :=
  outlineWithin (items.foldl (fun n i => max n i.conditions.length) 0) level items

end Items

/-! ## rows and choices -/

section

variable {aim : Purpose} {a : Assignment} {path : List Condition}

/-! Lists of outlines are taken one by one, and a row of items is what it was. -/

theorem codeAll_eq (os : List Outline) : codeAll aim os = os.flatMap (Outline.code aim) := by
  induction os with
  | nil => rfl
  | cons o os ih => simp [codeAll, ih]

theorem chainsAll_eq (os : List Outline) : chainsAll os = os.flatMap Outline.chains := by
  induction os with
  | nil => rfl
  | cons o os ih => simp [chainsAll, ih]

theorem entriesAll_eq (os : List Outline) :
    entriesAll os path = os.flatMap fun o => o.entries path := by
  induction os with
  | nil => rfl
  | cons o os ih => simp [entriesAll, ih]

theorem selectedAll_eq (os : List Outline) :
    selectedAll aim a os = os.flatMap (Outline.selected aim a) := by
  induction os with
  | nil => rfl
  | cons o os ih => simp [selectedAll, ih]

theorem codeAll_row (items : List Item) :
    codeAll aim (items.map .item) = items.flatMap (Item.statements aim) := by
  simp [codeAll_eq, List.flatMap_map, Outline.code]

theorem chainsAll_row (items : List Item) : chainsAll (items.map .item) = [] := by
  simp [chainsAll_eq, List.flatMap_map, Outline.chains]

theorem entriesAll_row (items : List Item) :
    entriesAll (items.map .item) path = items.map fun i => (path, i) := by
  rw [entriesAll_eq, List.flatMap_map, List.map_eq_flatMap]
  rfl

theorem selectedAll_row (items : List Item) :
    selectedAll aim a (items.map .item) = items.flatMap (Item.statements aim) := by
  simp [selectedAll_eq, List.flatMap_map, Outline.selected]

/-! A choice has an arm for each of some groups. -/

variable (u : Path) (gs : List Items.Group) (body : Items.Group → List Outline)

theorem codeAll_choice : codeAll aim [.choice u (gs.map fun g => .mk g.condition (body g))] =
    [.choice (gs.map fun g =>
      .mk g.condition.tag.locus.place g.condition.value (codeAll aim (body g)))] := by
  have harms : armsCode aim (gs.map fun g => .mk g.condition (body g)) = gs.map fun g =>
      .mk g.condition.tag.locus.place g.condition.value (codeAll aim (body g)) := by
    induction gs with
    | nil => rfl
    | cons g gs ih => simp [armsCode, ih]
  simp [codeAll, Outline.code, harms]

theorem chainsAll_choice : chainsAll [.choice u (gs.map fun g => .mk g.condition (body g))] =
    (u, gs.map Items.Group.condition) :: gs.flatMap fun g => chainsAll (body g) := by
  have harms : armsChains (gs.map fun g => .mk g.condition (body g)) =
      gs.flatMap fun g => chainsAll (body g) := by
    induction gs with
    | nil => rfl
    | cons g gs ih => simp [armsChains, ih]
  simp [chainsAll, Outline.chains, harms, OutlineArm.condition, Function.comp_def]

theorem entriesAll_choice :
    entriesAll [.choice u (gs.map fun g => .mk g.condition (body g))] path =
      gs.flatMap fun g => entriesAll (body g) (path ++ [g.condition]) := by
  have harms : armsEntries (gs.map fun g => .mk g.condition (body g)) path =
      gs.flatMap fun g => entriesAll (body g) (path ++ [g.condition]) := by
    induction gs with
    | nil => rfl
    | cons g gs ih => simp [armsEntries, ih]
  simp [entriesAll, Outline.entries, harms]

theorem selectedAll_choice :
    selectedAll aim a [.choice u (gs.map fun g => .mk g.condition (body g))] =
      armSelected aim a (a.pick u) (gs.map fun g => .mk g.condition (body g)) := by
  simp [selectedAll, Outline.selected]

end

namespace Items

/-! ## runs -/

section

variable {aim : Purpose} {m : Model} {path : List Condition} {items run : List Item} {i : Item}
  {u : Path} {levels level : Nat}

/-- The outline of one run of items. -/
def runOutline (levels level : Nat) (run : List Item) : List Outline :=
  match run.head?.bind (·.conditions[level]?) with
  | none => run.map .item
  | some c =>
    [.choice c.union ((groups level run).map fun g =>
      .mk g.condition (outlineWithin levels (level + 1) g.items))]

theorem outlineWithin_succ (levels level : Nat) (items : List Item) :
    outlineWithin (levels + 1) level items =
      (items.splitBy (sameChoice level)).flatMap (runOutline levels level) := rfl

/-- The items of a run stand in a row, or under one choice. -/
theorem runOutline_cases (levels : Nat) (hrun : run ∈ items.splitBy (sameChoice level)) :
    (∀ i ∈ run, i.conditions[level]? = none) ∧ runOutline levels level run = run.map .item ∨
      (∀ i ∈ run, i.conditions[level]?.isSome) ∧ ∃ c,
        run.head?.bind (·.conditions[level]?) = some c ∧ runOutline levels level run =
          [.choice c.union ((groups level run).map fun g =>
            .mk g.condition (outlineWithin levels (level + 1) g.items))] := by
  obtain ⟨i, rest, rfl⟩ := List.exists_cons_of_ne_nil (List.ne_nil_of_mem_splitBy hrun)
  rw [runOutline, List.head?_cons, Option.bind_some]
  rcases conditions_of_run (List.isChain_of_mem_splitBy hrun) with hnone | hsome
  · rw [hnone i List.mem_cons_self]
    exact .inl ⟨hnone, rfl⟩
  · obtain ⟨c, hc⟩ := Option.isSome_iff_exists.1 (hsome i List.mem_cons_self)
    rw [hc]
    exact .inr ⟨hsome, c, rfl, rfl⟩

/-- The code of the outline is the code of the items. -/
theorem codeAll_outlineWithin (levels level : Nat) (items : List Item) :
    codeAll aim (outlineWithin levels level items) = statementsWithin aim levels level items := by
  induction levels generalizing level items with
  | zero => exact codeAll_row items
  | succ levels ih =>
    rw [outlineWithin_succ, statementsWithin_succ, codeAll_eq, List.flatMap_assoc]
    refine List.flatMap_congr fun run hrun => ?_
    rw [← codeAll_eq]
    rcases runOutline_cases levels hrun with ⟨hnone, houtline⟩ | ⟨hsome, c, hc, houtline⟩
    · rw [houtline, codeAll_row, runStatements, if_pos (by simpa using hnone)]
    · have hany : ¬ (run.all fun i => i.conditions[level]?.isNone) = true := by
        obtain ⟨i, hi, hc⟩ := Option.bind_eq_some_iff.1 hc
        intro hall
        have hnone := List.all_eq_true.1 hall i (List.mem_of_head? hi)
        rw [hc] at hnone
        cases hnone
      have hne := groups_ne_nil (List.ne_nil_of_mem_splitBy hrun) hsome
      rw [houtline, codeAll_choice, runStatements, if_neg hany, Statement.chosen,
        if_neg (by simpa using hne)]
      simp only [ih]

/-- Every item stands in the outline once. -/
theorem perm_entries (levels level : Nat) (items : List Item) (path : List Condition) :
    ((entriesAll (outlineWithin levels level items) path).map Prod.snd).Perm items := by
  have hrow (items : List Item) (path : List Condition) :
      ((entriesAll (items.map .item) path).map Prod.snd).Perm items := by
    rw [entriesAll_row, List.map_map]
    exact .of_eq (List.map_id items)
  induction levels generalizing level items path with
  | zero => exact hrow items path
  | succ levels ih =>
    have hrun : ∀ run ∈ items.splitBy (sameChoice level),
        ((entriesAll (runOutline levels level run) path).map Prod.snd).Perm run := by
      intro run hrun
      rcases runOutline_cases levels hrun with ⟨-, houtline⟩ | ⟨hsome, c, -, houtline⟩
      · rw [houtline]
        exact hrow run path
      · rw [houtline, entriesAll_choice, List.map_flatMap]
        exact (List.Perm.flatMap_left _ fun g _ => ih ..).trans (perm_groups hsome)
    rw [outlineWithin_succ, entriesAll_eq, List.flatMap_assoc, List.map_flatMap]
    simp only [← entriesAll_eq]
    refine (List.Perm.flatMap_left _ hrun).trans ?_
    rw [List.flatMap_id', List.flatten_splitBy]

end

end Items

end BitLayout
