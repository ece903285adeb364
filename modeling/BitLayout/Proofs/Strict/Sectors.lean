import BitLayout.Proofs.Sector.Filled
import BitLayout.Proofs.Strict.Items

/-!
# BitLayout.Proofs.Strict.Sectors

Filling sectors, strictly: items are placed, and the items of a sector are laid out.

* `Strict.enter_eq`: going on to an item never keeps more branches open than it has conditions;
* `Strict.place_eq`: a grounded item is placed strictly as it is placed, whatever the capacity, and
  its levels bound the way down;
* `Strict.pack_eq`: so data objects are packed strictly as they are packed.
-/

namespace BitLayout

namespace Strict

open Sector (OpenBranch)

/-! ## layouts -/

/-- Leave branches for an item with some conditions: those that stay open, and the position. A
branch for another variant of the same union stays open as that of the new variant. -/
def leave : List OpenBranch → List Condition → (position : Nat) → List OpenBranch × Nat
  | [], _, position => ([], position)
  | b :: branches, [], position => ([], Sector.closeAll (b :: branches) position)
  | b :: branches, c :: conditions, position =>
    if b.condition == c then
      let (kept, position) := leave branches conditions position
      (b :: kept, position)
    else
      let finish := Sector.closeAll (b :: branches) position
      if c.sameSwitch b.condition then ([⟨c, b.start, finish⟩], b.start) else ([], finish)

/-- Go on to an item with some conditions: branches are left, and others opened for the conditions
behind those of the branches that stay open. -/
def enter (branches : List OpenBranch) (conditions : List Condition) (position : Nat) :
    Except Halt (List OpenBranch × Nat) := do
  let (kept, position) := leave branches conditions position
  return (kept ++ Sector.openAll position (← behind kept.length conditions), position)

/-- The offsets and sizes of items, and behind them where everything ends. -/
def offsetsFrom (branches : List OpenBranch) (position : Nat) :
    List Item → Except Halt (List (Nat × Nat) × Nat)
  | [] => .ok ([], Sector.closeAll branches position)
  | i :: rest => do
    let (branches, position) ← enter branches i.conditions position
    let bits ← itemBits i
    let (layout, finish) ← offsetsFrom branches (position + bits) rest
    return ((position, bits) :: layout, finish)

/-- No more branches stay open than there are conditions. -/
theorem length_leave_le (branches : List OpenBranch) (conditions : List Condition)
    (position : Nat) : (leave branches conditions position).1.length ≤ conditions.length := by
  induction branches generalizing conditions position with
  | nil => exact Nat.zero_le _
  | cons b branches ih =>
    cases conditions with
    | nil => exact Nat.zero_le _
    | cons c conditions =>
      rw [leave]
      split
      · exact Nat.succ_le_succ (ih conditions position)
      · dsimp only
        split
        · exact Nat.succ_le_succ (Nat.zero_le _)
        · exact Nat.zero_le _

/-- Leaving branches and opening others is going on. -/
theorem leave_open (branches : List OpenBranch) (conditions : List Condition) (position : Nat) :
    ((leave branches conditions position).1 ++
        Sector.openAll (leave branches conditions position).2
          (conditions.drop (leave branches conditions position).1.length),
      (leave branches conditions position).2) = Sector.enter branches conditions position := by
  induction branches generalizing conditions position with
  | nil => rfl
  | cons b branches ih =>
    cases conditions with
    | nil => rfl
    | cons c conditions =>
      rw [leave, Sector.enter]
      split
      · have h := ih conditions position
        rw [← h]
        rfl
      · dsimp only
        split <;> rfl

theorem enter_eq (branches : List OpenBranch) (conditions : List Condition) (position : Nat) :
    enter branches conditions position = .ok (Sector.enter branches conditions position) := by
  rw [enter, ← leave_open]
  dsimp only
  rw [behind_eq (length_leave_le branches conditions position)]
  rfl

theorem offsetsFrom_eq {items : List Item} (h : ∀ i ∈ items, itemBits i = .ok i.bits)
    (branches : List OpenBranch) (position : Nat) :
    offsetsFrom branches position items = .ok (Sector.offsetsFrom branches position items) := by
  induction items generalizing branches position with
  | nil => rfl
  | cons i items ih =>
    obtain ⟨hi, hitems⟩ := List.forall_mem_cons.1 h
    rw [offsetsFrom, enter_eq, ok_bind]
    dsimp only
    rw [hi, ok_bind, ih hitems]
    rfl

/-! ## placing -/

/-- Place items in a row, where `one` places each of them. -/
def inRow (one : Item → Cursor → Except Halt Placement) :
    List Item → Cursor → Except Halt Placement
  | [], c => .ok (c, [])
  | i :: rest, c => do
    let (c, first) ← one i c
    let (c, others) ← inRow one rest c
    return (c, first ++ others)

/-- Place the branches of a union from one start. -/
def inBranches (one : Item → Cursor → Except Halt Placement) (start : Cursor) :
    List Branch → Except Halt (List (List Condition × Placement))
  | [] => .ok []
  | b :: rest => do
    let placement ← inRow one b.parts start
    return (b.conditions, placement) :: (← inBranches one start rest)

/-- Padding from a position to the end of its sector. -/
def fill (capacity : Nat) (conditions : List Condition) (c : Cursor) :
    Except Halt (List Placed) := do
  if c.used < capacity then
    return [⟨c.sector, .padding conditions (← minus capacity c.used) true⟩]
  else return []

/-- Padding from the end of a branch to the end of its union. -/
def fillBranch (capacity : Nat) (conditions : List Condition) (c finish : Cursor) :
    Except Halt (List Placed) := do
  if c.sector = finish.sector then
    if c.used < finish.used then
      return [⟨c.sector, .padding conditions (← minus finish.used c.used) false⟩]
    else return []
  else
    let rest ← fill capacity conditions c
    let between ← minus finish.sector (c.sector + 1)
    return rest ++ (List.range' (c.sector + 1) between).map
        (fun sector => ⟨sector, .padding conditions capacity true⟩) ++
      if finish.used = 0 then [] else [⟨finish.sector, .padding conditions finish.used false⟩]

/-- The branches of a union together, padded to the end of the longest. -/
def joinBranches (capacity : Nat) (start : Cursor)
    (branches : List (List Condition × Placement)) : Except Halt Placement := do
  let finish := branches.foldl (fun c (_, stop, _) => c.later stop) start
  let padded ← branches.mapM fun (conditions, stop, placed) =>
    return placed ++ (← fillBranch capacity conditions stop finish)
  return (finish, padded.flatten)

/-- Place an item, where `deeper` places its parts if it has to be taken apart. -/
def placeWith (capacity : Nat) (deeper : Item → Cursor → Except Halt Placement) (i : Item)
    (c : Cursor) : Except Halt Placement :=
  if i.isOmitted then .ok (c, if i.isDefaulted then [⟨c.sector, i⟩] else [])
  else do
    let bits ← itemBits i
    if c.used + bits ≤ capacity then return (⟨c.sector, c.used + bits⟩, [⟨c.sector, i⟩])
    else
      match ← split i with
      | some (.row parts) => inRow deeper parts c
      | some (.union shared branches) => do
        let (start, placed) ← inRow deeper shared c
        let ends ← inBranches deeper start branches
        let (finish, others) ← joinBranches capacity start ends
        return (finish, placed ++ others)
      | none =>
        if bits > capacity then .error (.refused (.tooLarge bits capacity))
        else
          return (⟨c.sector + 1, bits⟩, (← fill capacity i.conditions c) ++ [⟨c.sector + 1, i⟩])

/-- Place an item, taking it apart through at most `levels` levels. -/
def place (capacity : Nat) : (levels : Nat) → Item → Cursor → Except Halt Placement
  | 0 => placeWith capacity fun _ _ => .error .tooDeep
  | levels + 1 => placeWith capacity (place capacity levels)

/-- Go on to a sector for a new group, if anything is left in the last one. -/
def opened (capacity : Nat) (before : Placement) : Except Halt Placement := do
  if before.1.used > 0 || before.2.any (·.sector = before.1.sector) then
    return (before.1.next, before.2 ++ (← fill capacity [] before.1))
  else return before

/-- Place a group of data objects behind what is placed. -/
def placeGroup (capacity : Nat) (before : Placement) (objects : List Decl) :
    Except Halt Placement := do
  let (c, placed) ← opened capacity before
  let (c, more) ← inRow (fun i => place capacity i.height i) (objects.map Item.root) c
  return (c, placed ++ more)

/-- Spread groups of data objects over sectors. -/
def pack (capacity available : Nat) (groups : List (List Decl)) : Except Halt (List Sector) := do
  let (_, placed) ← groups.foldlM (placeGroup capacity) (⟨0, 0⟩, [])
  let needed := Packing.sectorsNeeded placed
  if needed > available then .error (.refused (.tooFewSectors needed capacity available))
  else return (List.range needed).map (Packing.sectorOf placed)

/-- A strict step does what a step does, and fails where it fails. -/
def Follows (one : Item → Cursor → Except Halt Placement)
    (one' : Item → Cursor → Except PackError Placement) (i : Item) : Prop :=
  ∀ c, one i c = (one' i c).mapError .refused

section

variable {α β : Type}

theorem mapError_bind (x : Except PackError α) (f : α → Except PackError β) :
    (x >>= f).mapError Halt.refused =
      x.mapError Halt.refused >>= fun a => (f a).mapError Halt.refused := by
  cases x <;> rfl

variable {one : Item → Cursor → Except Halt Placement}
  {one' : Item → Cursor → Except PackError Placement} {items : List Item} {capacity : Nat}

theorem inRow_eq (h : ∀ i ∈ items, Follows one one' i) (c : Cursor) :
    inRow one items c = (Packing.inRow one' items c).mapError .refused := by
  induction items generalizing c with
  | nil => rfl
  | cons i items ih =>
    obtain ⟨hi, hitems⟩ := List.forall_mem_cons.1 h
    rw [inRow, Packing.inRow, mapError_bind, hi]
    refine bind_congr fun placement => ?_
    obtain ⟨d, first⟩ := placement
    dsimp only
    rw [mapError_bind, ih hitems]
    rfl

theorem inBranches_eq {branches : List Branch} (h : ∀ b ∈ branches, ∀ i ∈ b.parts,
      Follows one one' i) (c : Cursor) :
    inBranches one c branches = (Packing.inBranches one' c branches).mapError .refused := by
  induction branches with
  | nil => rfl
  | cons b branches ih =>
    obtain ⟨hb, hbranches⟩ := List.forall_mem_cons.1 h
    rw [inBranches, Packing.inBranches, mapError_bind, inRow_eq hb]
    refine bind_congr fun placement => ?_
    rw [mapError_bind, ih hbranches]
    rfl

end

/-- Padding is only put where there is room. -/
theorem fill_eq (capacity : Nat) (conditions : List Condition) (c : Cursor) :
    fill capacity conditions c = .ok (Packing.fill capacity conditions c) := by
  unfold fill Packing.fill
  split
  · next hlt =>
    rw [minus_eq (Nat.le_of_lt hlt)]
    rfl
  · rfl

/-- No branch ends behind its union. -/
theorem fillBranch_eq (capacity : Nat) (conditions : List Condition) {c finish : Cursor}
    (h : c.Upto finish) :
    fillBranch capacity conditions c finish =
      .ok (Packing.fillBranch capacity conditions c finish) := by
  unfold fillBranch Packing.fillBranch
  split
  · split
    · next hlt =>
      rw [minus_eq (Nat.le_of_lt hlt)]
      rfl
    · rfl
  · next hne =>
    have hle : c.sector + 1 ≤ finish.sector := Nat.lt_of_le_of_ne h.sector_le hne
    rw [fill_eq, ok_bind, minus_eq hle, Nat.sub_sub]
    rfl

theorem joinBranches_eq (capacity : Nat) (start : Cursor)
    (branches : List (List Condition × Placement)) :
    joinBranches capacity start branches = .ok (Packing.joinBranches capacity start branches) := by
  have hupto := (Packing.upto_joinBranches capacity start branches).2.1
  rw [Packing.joinBranches] at hupto
  unfold joinBranches Packing.joinBranches
  dsimp only at hupto ⊢
  generalize List.foldl (fun c b => c.later b.2.1) start branches = finish at hupto ⊢
  have hpadded : branches.mapM (fun b : List Condition × Placement =>
      (return b.2.2 ++ (← fillBranch capacity b.1 b.2.1 finish) : Except Halt (List Placed))) =
      .ok (branches.map fun b => b.2.2 ++ Packing.fillBranch capacity b.1 b.2.1 finish) :=
    mapM_eq fun b hb => by
      rw [fillBranch_eq capacity b.1 (hupto b hb)]
      rfl
  rw [hpadded, List.flatMap]
  rfl

theorem opened_eq (capacity : Nat) (before : Placement) :
    opened capacity before = .ok (Packing.opened capacity before) := by
  unfold opened Packing.opened
  split
  · rw [fill_eq]
    rfl
  · rfl

section

variable {g : Registry} {m : Model} {i : Item} {capacity levels : Nat}

/-- An item is placed as it is if its parts are, where there are any. -/
theorem placeWith_eq (hm : m.Sound g) (h : i.Grounded m.roots)
    {deeper : Item → Cursor → Except Halt Placement}
    (hdeeper : i.canSplit = true → ∃ rest, levels = rest + 1 ∧
      ∀ part ∈ i.expand, Follows deeper (Packing.place capacity rest) part) (c : Cursor) :
    placeWith capacity deeper i c = (Packing.place capacity levels i c).mapError .refused := by
  unfold placeWith Packing.place
  split
  · rfl
  rw [itemBits_eq hm h, ok_bind]
  dsimp only
  split
  · rfl
  rw [split_eq hm h, ok_bind]
  cases hsplit : i.split? with
  | none =>
    dsimp only
    split
    · rfl
    · rw [fill_eq]
      rfl
  | some s =>
    obtain ⟨rest, rfl, hparts⟩ := hdeeper (Item.canSplit_of_split hsplit)
    rw [Item.expand_of_split hsplit] at hparts
    cases s with
    | row parts => exact inRow_eq hparts c
    | union shared branches =>
      dsimp only
      rw [mapError_bind, inRow_eq fun part hp => hparts part (Split.mem_items_of_shared hp)]
      refine bind_congr fun placement => ?_
      obtain ⟨start, placed⟩ := placement
      dsimp only
      rw [mapError_bind,
        inBranches_eq fun b hb part hp => hparts part (Split.mem_items_of_branch hb hp)]
      refine bind_congr fun ends => ?_
      rw [joinBranches_eq]
      rfl

/-- **Strict placing**: the levels of an item bound the way down, whatever the capacity. -/
theorem place_eq (hm : m.Sound g) (h : i.Grounded m.roots) (hle : i.height ≤ levels)
    (capacity : Nat) (c : Cursor) :
    place capacity levels i c = (Packing.place capacity i.height i c).mapError .refused := by
  suffices hall : ∀ bound, i.height ≤ bound →
      place capacity levels i c = (Packing.place capacity bound i c).mapError .refused from
    hall _ (Nat.le_refl _)
  induction levels generalizing i c with
  | zero =>
    intro bound hbound
    refine placeWith_eq hm h (fun hsplit => ?_) c
    have hpos := Item.height_pos_of_canSplit hsplit
    omega
  | succ levels ih =>
    intro bound hbound
    refine placeWith_eq hm h (fun hsplit => ?_) c
    have hpos := Item.height_pos_of_canSplit hsplit
    obtain ⟨rest, rfl⟩ := Nat.exists_eq_succ_of_ne_zero (by omega : bound ≠ 0)
    refine ⟨rest, rfl, fun part hp d => ?_⟩
    have hlt := Item.height_lt_of_expand hsplit hp
    exact ih (h.expand hp) (by omega) d rest (by omega)

/-- Data objects are grounded. -/
theorem grounded_root {d : Decl} (hd : d ∈ m.roots) : (Item.root d).Grounded m.roots :=
  (Path.Reached.root hd).lies.grounded

theorem placeGroup_eq (hm : m.Sound g) (capacity : Nat) {objects : List Decl}
    (h : ∀ d ∈ objects, d ∈ m.roots) (before : Placement) :
    placeGroup capacity before objects =
      (Packing.placeGroup capacity before objects).mapError .refused := by
  have hrow : ∀ i ∈ objects.map Item.root,
      Follows (fun i => place capacity i.height i)
        (fun i => Packing.place capacity i.height i) i := by
    intro i hi c
    obtain ⟨d, hd, rfl⟩ := List.mem_map.1 hi
    exact place_eq hm (grounded_root (h d hd)) (Nat.le_refl _) capacity c
  rw [placeGroup, opened_eq, ok_bind]
  obtain ⟨c, placed⟩ := before
  change (inRow _ _ (Packing.opened capacity (c, placed)).1 >>= _) =
    (Packing.inRow _ _ (Packing.opened capacity (c, placed)).1 >>= _).mapError _
  rw [mapError_bind, inRow_eq hrow]
  rfl

theorem foldlM_placeGroup_eq (hm : m.Sound g) (capacity : Nat) {groups : List (List Decl)}
    (h : ∀ objects ∈ groups, ∀ d ∈ objects, d ∈ m.roots) (before : Placement) :
    groups.foldlM (placeGroup capacity) before =
      (groups.foldlM (Packing.placeGroup capacity) before).mapError .refused := by
  induction groups generalizing before with
  | nil => rfl
  | cons objects groups ih =>
    obtain ⟨hobjects, hgroups⟩ := List.forall_mem_cons.1 h
    rw [List.foldlM_cons, List.foldlM_cons, mapError_bind, placeGroup_eq hm capacity hobjects]
    exact bind_congr fun after => ih hgroups after

/-- **Strict packing**: data objects are packed strictly as they are packed. -/
theorem pack_eq (hm : m.Sound g) (capacity available : Nat) {groups : List (List Decl)}
    (h : ∀ objects ∈ groups, ∀ d ∈ objects, d ∈ m.roots) :
    pack capacity available groups =
      (BitLayout.pack capacity available groups).mapError .refused := by
  rw [pack, BitLayout.pack, mapError_bind, Packing.placeGroups, foldlM_placeGroup_eq hm capacity h]
  refine bind_congr fun placement => ?_
  obtain ⟨c, placed⟩ := placement
  dsimp only
  split <;> rfl

end

end Strict

end BitLayout
