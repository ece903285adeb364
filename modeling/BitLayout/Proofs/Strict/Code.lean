import BitLayout.Proofs.Code.Calls
import BitLayout.Proofs.Strict.Moves

/-!
# BitLayout.Proofs.Strict.Code

Writing the code for items, strictly. Neighbours under conditions on one union all have a condition
there, and the code goes through no more levels of conditions than there are.

* `Strict.statementsOf_eq`: a grounded item is moved strictly as it is moved;
* `Strict.statements_eq`: so are the items of a sector, one choice inside the other;
* `Strict.recordStatements_eq`: so are the fields of a known record by its functions;
* `Strict.recordsNeeded_eq`: the records that functions are made for are found strictly, and they
  are known.
-/

namespace BitLayout

namespace Strict

open Items (Group)

/-- Move one item, whatever its conditions. -/
def statementsOf (records : List (String × List Decl)) (aim : Purpose) (i : Item) :
    Except Halt (List Statement) :=
  match i.content with
  | .padding _ true => .ok []
  | .padding bits false => .ok (Statement.padding bits)
  | .value p => do
    let l := p.last.remaining.foldl (fun l extent => l.slice 0 extent) p.locus
    let body ← element records aim p.last.decl l.place l.owner l.loops.length
    return Statement.loopedAll l.loops body

/-- Items by the values of their conditions at a level, behind as many shared ones. -/
def groups (level : Nat) (items : List Item) : Except Halt (List Group) :=
  items.foldlM
    (fun groups i => do
      let _ ← first level i.conditions
      let c ← entry i.conditions level
      return Items.addTo c i groups)
    []

/-- Move a run of items, where `deeper` moves those that share one more condition. -/
def runStatements (records : List (String × List Decl)) (aim : Purpose) (level : Nat)
    (deeper : List Item → Except Halt (List Statement)) (run : List Item) :
    Except Halt (List Statement) := do
  if run.all fun i => i.conditions[level]?.isNone then
    return (← run.mapM (statementsOf records aim)).flatten
  else
    let arms ← (← groups level run).mapM fun g =>
      return Arm.mk g.condition.tag.locus.place g.condition.value (← deeper g.items)
    return Statement.chosen arms

/-- Move items run by run. -/
def runs (records : List (String × List Decl)) (aim : Purpose) (level : Nat)
    (deeper : List Item → Except Halt (List Statement)) (items : List Item) :
    Except Halt (List Statement) :=
  return (← (items.splitBy (Items.sameChoice level)).mapM
    (runStatements records aim level deeper)).flatten

/-- Move items that share the first `level` conditions and have at most `levels` more. -/
def statementsWithin (records : List (String × List Decl)) (aim : Purpose) :
    (levels level : Nat) → List Item → Except Halt (List Statement)
  | 0, level => runs records aim level fun _ => .error .tooDeep
  | levels + 1, level =>
    runs records aim level (statementsWithin records aim levels (level + 1))

/-- Move the items of a sector. -/
def statements (records : List (String × List Decl)) (aim : Purpose) (items : List Item) :
    Except Halt (List Statement) :=
  statementsWithin records aim (items.foldl (fun n i => max n i.conditions.length) 0) 0 items

/-- The statements of a record's function. -/
def recordStatements (records : List (String × List Decl)) (aim : Purpose) (record : String) :
    Except Halt (List Statement) := do
  let members ← need .noRecord (records.lookup record)
  fields records aim 0 members Program.recordPlace 0

/-- Go on to the first record that is called for and not done yet, and to those that its functions
call for, at most `budget` times. -/
def recordsNeededWithin (records : List (String × List Decl)) (aim : Purpose) (budget : Nat)
    (called done : List String) : Except Halt (List String) :=
  match Program.leastName? (called.filter (!done.contains ·)) with
  | none => .ok done
  | some record =>
    match budget with
    | 0 => .error .tooDeep
    | budget + 1 => do
      let body ← recordStatements records aim record
      recordsNeededWithin records aim budget (called ++ Program.recordsMovedAll body)
        (done ++ [record])

/-- The records that need functions for the items of some sectors. -/
def recordsNeeded (records : List (String × List Decl)) (aim : Purpose) (sectors : List Sector) :
    Except Halt (List String) := do
  let bodies ← sectors.mapM fun s => statements records aim s.items
  recordsNeededWithin records aim records.length (bodies.flatMap Program.recordsMovedAll) []

end Strict

/-! ## runs and groups -/

/-- Loops around a place do not change its owner. -/
theorem Locus.owner_foldl_slice (l : Locus) (extents : List Nat) :
    (extents.foldl (fun l extent => l.slice 0 extent) l).owner = l.owner := by
  induction extents generalizing l with
  | nil => rfl
  | cons extent extents ih => exact ih (l.slice 0 extent)

namespace Strict

variable {g : Registry} {m : Model} {i : Item} {items run : List Item} {levels level bound : Nat}
  {records : List (String × List Decl)} {aim : Purpose}

/-- **Strict moves of items**: a value with a tag outside is a field of something. -/
theorem statementsOf_eq (hm : m.Sound g) (h : i.Grounded m.roots) (aim : Purpose) :
    statementsOf m.records aim i = .ok (i.statements aim) := by
  obtain ⟨cs, content⟩ := i
  cases content with
  | padding bits trailing => cases trailing <;> rfl
  | value p =>
    have hwalks := h.walks p rfl
    have hmoved := element_eq aim (hwalks.everywhere hm.roots)
    simp only [statementsOf, Item.statements]
    rw [hmoved, ok_bind]
    · rfl
    · intro hext
      rw [Locus.owner_foldl_slice]
      exact hwalks.owner_isSome hm hext

/-- Items with a condition at a level are grouped by its value. -/
theorem groups_eq (h : ∀ i ∈ items, i.conditions[level]?.isSome) :
    groups level items = .ok (Items.groups level items) := by
  suffices hall : ∀ gs, items.foldlM (fun groups (i : Item) => do
      let _ ← first level i.conditions
      let c ← entry i.conditions level
      return Items.addTo c i groups : _ → _ → Except Halt _) gs =
      .ok (items.foldl (Items.addAt level) gs) from hall []
  induction items with
  | nil => exact fun gs => rfl
  | cons i items ih =>
    obtain ⟨hi, hitems⟩ := List.forall_mem_cons.1 h
    obtain ⟨c, hc⟩ := Option.isSome_iff_exists.1 hi
    have hlt : level < i.conditions.length := (List.getElem?_eq_some_iff.1 hc).1
    intro gs
    rw [List.foldlM_cons, List.foldl_cons, first_eq (Nat.le_of_lt hlt), ok_bind, entry, hc,
      need_some, ok_bind, Items.addAt, hc]
    exact ih hitems _

/-- A run is moved if what shares one more condition is, where there are any conditions. -/
theorem runStatements_eq (hone : ∀ i ∈ run, statementsOf records aim i = .ok (i.statements aim))
    (hrun : run.IsChain fun i j => Items.sameChoice level i j = true)
    {deeper : List Item → Except Halt (List Statement)}
    (hdeeper : ∀ i ∈ run, i.conditions[level]?.isSome → ∀ items, (∀ j ∈ items, j ∈ run) →
      deeper items = .ok (Items.statementsWithin aim bound (level + 1) items)) :
    runStatements records aim level deeper run = .ok (Items.runStatements aim bound level run) := by
  unfold runStatements Items.runStatements
  split
  · rw [mapM_eq hone, List.flatMap]
    rfl
  · next hsome =>
    have hall : ∀ i ∈ run, i.conditions[level]?.isSome := by
      refine (Items.conditions_of_run hrun).resolve_left fun hnone => hsome ?_
      exact List.all_eq_true.2 fun i hi => by rw [hnone i hi]; rfl
    have harms : (Items.groups level run).mapM (fun g =>
        (return Arm.mk g.condition.tag.locus.place g.condition.value (← deeper g.items) :
          Except Halt Arm)) =
        .ok ((Items.groups level run).map fun g => .mk g.condition.tag.locus.place g.condition.value
          (Items.statementsWithin aim bound (level + 1) g.items)) := by
      refine mapM_eq fun g hg => ?_
      have hsub := Items.forall_groups (P := (· ∈ run)) (fun i hi => hi) g hg
      obtain ⟨i, hi⟩ : ∃ i, i ∈ run := by
        refine List.exists_mem_of_ne_nil run fun hnil => hsome ?_
        rw [hnil]
        rfl
      rw [hdeeper i hi (hall i hi) g.items hsub]
      rfl
    rw [groups_eq hall, ok_bind, harms]
    rfl

theorem runs_eq (hone : ∀ i ∈ items, statementsOf records aim i = .ok (i.statements aim))
    {deeper : List Item → Except Halt (List Statement)}
    (hdeeper : ∀ i ∈ items, i.conditions[level]?.isSome → ∀ run, (∀ j ∈ run, j ∈ items) →
      deeper run = .ok (Items.statementsWithin aim bound (level + 1) run)) :
    runs records aim level deeper items =
      .ok ((items.splitBy (Items.sameChoice level)).flatMap
        (Items.runStatements aim bound level)) := by
  have hruns : (items.splitBy (Items.sameChoice level)).mapM
      (runStatements records aim level deeper) =
      .ok ((items.splitBy (Items.sameChoice level)).map (Items.runStatements aim bound level)) := by
    refine mapM_eq fun run hrun => ?_
    have hsub : ∀ i ∈ run, i ∈ items := fun i hi => Items.mem_of_run hrun hi
    exact runStatements_eq (fun i hi => hone i (hsub i hi)) (List.isChain_of_mem_splitBy hrun)
      fun i hi hsome run' hrun' => hdeeper i (hsub i hi) hsome run' fun j hj => hsub j (hrun' j hj)
  rw [runs, hruns, List.flatMap]
  rfl

/-- The conditions of items bound the way down. -/
theorem statementsWithin_eq
    (hone : ∀ i ∈ items, statementsOf records aim i = .ok (i.statements aim))
    (hlevels : ∀ i ∈ items, i.conditions.length ≤ level + levels)
    (hbound : ∀ i ∈ items, i.conditions.length ≤ level + bound) :
    statementsWithin records aim levels level items =
      .ok (Items.statementsWithin aim bound level items) := by
  induction levels generalizing level items bound with
  | zero =>
    rw [Items.statementsWithin_runs hbound]
    refine runs_eq hone fun i hi hsome => ?_
    have hnone : i.conditions[level]? = none := List.getElem?_eq_none (hlevels i hi)
    rw [hnone] at hsome
    cases hsome
  | succ levels ih =>
    rw [Items.statementsWithin_runs hbound]
    refine runs_eq hone fun i hi hsome run hrun => ?_
    have hlt : level < i.conditions.length := by simpa using hsome
    have hle := hbound i hi
    refine ih (fun j hj => hone j (hrun j hj)) (fun j hj => ?_) fun j hj => ?_
    · have := hlevels j (hrun j hj)
      omega
    · have := hbound j (hrun j hj)
      omega

/-- **Strict code**: the items of a sector are moved strictly if each of them is. -/
theorem statements_eq (hone : ∀ i ∈ items, statementsOf records aim i = .ok (i.statements aim)) :
    statements records aim items = .ok (Items.statements aim 0 items) := by
  have hle : ∀ i ∈ items, i.conditions.length ≤
      0 + items.foldl (fun n i => max n i.conditions.length) 0 := fun i hi => by
    rw [Nat.zero_add]
    exact (Items.le_foldl_max items 0).2 i hi
  exact statementsWithin_eq hone hle hle

/-! ## functions of records -/

/-- The first of some names is one of them. -/
theorem mem_of_leastName {names : List String} {name : String}
    (h : Program.leastName? names = some name) : name ∈ names := by
  induction names generalizing name with
  | nil => cases h
  | cons first names ih =>
    rw [Program.leastName?] at h
    split at h
    · obtain rfl := Option.some.inj h
      exact List.mem_cons_self
    · next other hother =>
      obtain rfl := Option.some.inj h
      split
      · exact List.mem_cons_of_mem _ (ih hother)
      · exact List.mem_cons_self

/-- Different names that are known are no more than those that are known. -/
theorem length_le_of_known {names : List String} (hnodup : names.Nodup)
    (h : ∀ name ∈ names, (records.lookup name).isSome) : names.length ≤ records.length := by
  rw [← List.length_map Prod.fst]
  refine hnodup.length_le_of_subset fun name hname => ?_
  obtain ⟨entry, hentry, heq⟩ := List.lookup_isSome_iff.1 (h name hname)
  rw [eq_of_beq heq]
  exact List.mem_map_of_mem hentry

section

variable {c : Config} {record : String} {called done : List String} {budget : Nat}

/-- The fields of a known record are moved. -/
theorem recordStatements_eq (hbuild : Model.build c g = some m) (herrors : m.errors = [])
    (h : (m.records.lookup record).isSome) (dir : Direction) :
    recordStatements m.records (Program.purpose c dir) record =
        .ok (Program.recordStatements c m dir record) ∧
      Calls m.records (Program.recordStatements c m dir record) := by
  obtain ⟨members, hmembers⟩ := Option.isSome_iff_exists.1 h
  have hsound := Model.sound_of_record hbuild herrors hmembers
  rw [recordStatements, Program.recordStatements, Model.membersOf, hmembers]
  exact ⟨fields_eq (fun d hd => element_eq _ (hsound d hd)) (Nat.zero_le _),
    Calls.fields 0 hsound _ _⟩

/-- The record to go on to is known, and a new one. -/
theorem known_of_next (hcalled : ∀ name ∈ called, (records.lookup name).isSome)
    (hdone : ∀ name ∈ done, (records.lookup name).isSome) (hnodup : done.Nodup)
    (hnext : Program.leastName? (called.filter (!done.contains ·)) = some record) :
    (∀ name ∈ done ++ [record], (records.lookup name).isSome) ∧ (done ++ [record]).Nodup := by
  obtain ⟨hmem, hnew⟩ := List.mem_filter.1 (mem_of_leastName hnext)
  constructor
  · exact List.forall_mem_append.2 ⟨hdone, List.forall_mem_singleton.2 (hcalled record hmem)⟩
  · rw [← List.concat_eq_append, List.nodup_concat]
    exact ⟨by simpa using hnew, hnodup⟩

/-- There are no more records to go on to than are known. -/
theorem recordsNeededWithin_eq (hbuild : Model.build c g = some m) (herrors : m.errors = [])
    (hcalled : ∀ name ∈ called, (m.records.lookup name).isSome)
    (hdone : ∀ name ∈ done, (m.records.lookup name).isSome) (hnodup : done.Nodup)
    (hbudget : m.records.length ≤ budget + done.length) :
    recordsNeededWithin m.records (Program.purpose c .read) budget called done =
        .ok (Program.recordsNeededWithin c m budget called done) ∧
      ∀ name ∈ Program.recordsNeededWithin c m budget called done,
        (m.records.lookup name).isSome := by
  induction budget generalizing called done with
  | zero =>
    rw [recordsNeededWithin, Program.recordsNeededWithin]
    cases hnext : Program.leastName? (called.filter (!done.contains ·)) with
    | none => exact ⟨rfl, hdone⟩
    | some record =>
      obtain ⟨hdone, hnodup⟩ := known_of_next hcalled hdone hnodup hnext
      have hle := length_le_of_known hnodup hdone
      rw [List.length_append, List.length_singleton] at hle
      omega
  | succ budget ih =>
    rw [recordsNeededWithin, Program.recordsNeededWithin]
    cases hnext : Program.leastName? (called.filter (!done.contains ·)) with
    | none => exact ⟨rfl, hdone⟩
    | some record =>
      obtain ⟨hdone, hnodup⟩ := known_of_next hcalled hdone hnodup hnext
      have hknown := hdone record (List.mem_append_right _ List.mem_cons_self)
      obtain ⟨hbody, hcalls⟩ := recordStatements_eq hbuild herrors hknown .read
      dsimp only
      rw [hbody, ok_bind]
      refine ih (List.forall_mem_append.2 ⟨hcalled, hcalls⟩) hdone hnodup ?_
      rw [List.length_append, List.length_singleton]
      omega

/-- **Strict records**: the records that functions are made for are found strictly, and known. -/
theorem recordsNeeded_eq (hbuild : Model.build c g = some m) (herrors : m.errors = [])
    {sectors : List Sector} (h : ∀ s ∈ sectors, ∀ i ∈ s.items, i.Grounded m.roots) :
    recordsNeeded m.records (Program.purpose c .read) sectors =
        .ok (Program.recordsNeeded c m sectors) ∧
      ∀ name ∈ Program.recordsNeeded c m sectors, (m.records.lookup name).isSome := by
  have hm := Model.sound_of_build hbuild herrors
  have hbodies : sectors.mapM (fun s => statements m.records (Program.purpose c .read) s.items) =
      .ok (sectors.map (Program.sectorStatements c .read)) :=
    mapM_eq fun s hs => statements_eq fun i hi => statementsOf_eq hm (h s hs i hi) _
  have hcalled : ∀ name ∈ sectors.flatMap fun s =>
      Program.recordsMovedAll (Program.sectorStatements c .read s),
      (m.records.lookup name).isSome := by
    intro name hname
    obtain ⟨s, hs, hname⟩ := List.mem_flatMap.1 hname
    refine Calls.items (fun i hi => Calls.item (g := g) fun p hp => ?_) _ _ name hname
    exact ((h s hs i hi).walks p hp).everywhere hm.roots
  rw [recordsNeeded, hbodies, ok_bind, List.flatMap_map]
  exact recordsNeededWithin_eq hbuild herrors hcalled (fun _ hname => nomatch hname) List.nodup_nil
    (Nat.le_add_right ..)

end

end Strict

end BitLayout
