import BitLayout.Decl.Build
import BitLayout.Item.Height
import BitLayout.Sector.Merge
import BitLayout.Sector.Offsets

/-!
# BitLayout.Sector.Packing

Spreading the data over sectors. Items are placed in order, as far forward as they fit:

1. What fits into the rest of the sector is placed whole.
2. What does not fit is taken apart, and its parts are placed.
3. What cannot be taken apart goes to the next sector, and the rest of this one is padding. It must
   fit there.

The branches of a union are placed from one common start, each as if it were alone. The shorter ones
are then padded to where the longest ends, so that everything behind the union stands at one place,
whatever the variant. A group of data objects begins in a sector of its own, if those before it have
left anything in the last one.

Padding up to the end of a sector is trailing: its branch has nothing more in that sector.
-/

namespace BitLayout

/-- A position in the sectors. -/
structure Cursor where
  sector : Nat
  /-- The bits in front of the position in its sector. -/
  used : Nat
deriving DecidableEq, Repr

namespace Cursor

/-- Whether a position is before another one. -/
def before (a b : Cursor) : Bool := a.sector < b.sector || (a.sector = b.sector && a.used < b.used)

/-- The later of two positions. -/
def later (a b : Cursor) : Cursor := if a.before b then b else a

/-- The beginning of the next sector. -/
def next (c : Cursor) : Cursor := ⟨c.sector + 1, 0⟩

end Cursor

/-- An item in a sector. -/
structure Placed where
  sector : Nat
  item : Item

/-- Why data cannot be packed. -/
inductive PackError where
  | tooLarge (bits capacity : Nat)
  | tooFewSectors (needed capacity available : Nat)
deriving DecidableEq, Repr

/-- The wording of an error. -/
def PackError.message : PackError → String
  | tooLarge bits capacity =>
    "item too large for sector size: it needs " ++ toString bits ++ " bits, but a sector holds "
      ++ toString capacity
  | tooFewSectors needed capacity available =>
    "insufficient sector count: the data needs " ++ toString needed ++ " sectors of "
      ++ toString capacity ++ " bits, but sector_count is " ++ toString available

/-- Where placing has come to, and what it has placed. -/
abbrev Placement := Cursor × List Placed

namespace Packing

/-- Padding from a position to the end of its sector. -/
def fill (capacity : Nat) (conditions : List Condition) (c : Cursor) : List Placed :=
  if c.used < capacity then
    [⟨c.sector, .padding conditions (capacity - c.used) true⟩]
  else []

/-- Padding from the end of a branch to the end of its union. -/
def fillBranch (capacity : Nat) (conditions : List Condition) (c finish : Cursor) : List Placed :=
  if c.sector = finish.sector then
    if c.used < finish.used then [⟨c.sector, .padding conditions (finish.used - c.used) false⟩]
    else []
  else
    fill capacity conditions c ++
      (List.range' (c.sector + 1) (finish.sector - c.sector - 1)).map
        (fun sector => ⟨sector, .padding conditions capacity true⟩) ++
      if finish.used = 0 then [] else [⟨finish.sector, .padding conditions finish.used false⟩]

/-- Place items in a row, where `one` places each of them. -/
def inRow (one : Item → Cursor → Except PackError Placement) :
    List Item → Cursor → Except PackError Placement
  | [], c => .ok (c, [])
  | i :: rest, c => do
    let (c, first) ← one i c
    let (c, others) ← inRow one rest c
    return (c, first ++ others)

/-- Place the branches of a union from one start: the conditions of each, where it ends, and what it
has placed. -/
def inBranches (one : Item → Cursor → Except PackError Placement) (start : Cursor) :
    List Branch → Except PackError (List (List Condition × Placement))
  | [] => .ok []
  | b :: rest => do
    let placement ← inRow one b.parts start
    return (b.conditions, placement) :: (← inBranches one start rest)

/-- The branches of a union together, padded to the end of the longest. -/
def joinBranches (capacity : Nat) (start : Cursor)
    (branches : List (List Condition × Placement)) : Placement :=
  let finish := branches.foldl (fun c (_, stop, _) => c.later stop) start
  (finish, branches.flatMap fun (conditions, stop, placed) =>
    placed ++ fillBranch capacity conditions stop finish)

/-- Place an item, taking it apart through at most `levels` levels. -/
def place (capacity : Nat) : (levels : Nat) → Item → Cursor → Except PackError Placement
  | levels, i, c =>
    if i.isOmitted then .ok (c, if i.isDefaulted then [⟨c.sector, i⟩] else [])
    else if c.used + i.bits ≤ capacity then .ok (⟨c.sector, c.used + i.bits⟩, [⟨c.sector, i⟩])
    else
      match i.split?, levels with
      | some (.row parts), levels + 1 => inRow (place capacity levels) parts c
      | some (.union shared branches), levels + 1 => do
        let (start, placed) ← inRow (place capacity levels) shared c
        let ends ← inBranches (place capacity levels) start branches
        let (finish, others) := joinBranches capacity start ends
        return (finish, placed ++ others)
      | _, _ =>
        if i.bits > capacity then .error (.tooLarge i.bits capacity)
        else
          .ok (⟨c.sector + 1, i.bits⟩,
            fill capacity i.conditions c ++ [⟨c.sector + 1, i⟩])

/-- Place a group of data objects behind what is placed. -/
def placeGroup (capacity : Nat) (before : Placement) (objects : List Decl) :
    Except PackError Placement := do
  let (c, placed) := before
  let (c, placed) :=
    if c.used > 0 || placed.any (·.sector = c.sector) then (c.next, placed ++ fill capacity [] c)
    else before
  let (c, more) ← inRow (fun i => place capacity i.height i) (objects.map Item.root) c
  return (c, placed ++ more)

/-- Place all groups. -/
def placeGroups (capacity : Nat) (groups : List (List Decl)) : Except PackError Placement :=
  groups.foldlM (placeGroup capacity) (⟨0, 0⟩, [])

/-- How many sectors items need. -/
def sectorsNeeded (placed : List Placed) : Nat := placed.foldl (fun n p => max n (p.sector + 1)) 0

/-- The items of a sector, neighbours merged. -/
def sectorOf (placed : List Placed) (sector : Nat) : Sector :=
  ⟨mergeItems ((placed.filter (·.sector = sector)).map Placed.item)⟩

end Packing

/-- Spread groups of data objects over sectors of `capacity` bits, of which there may be
`available`. -/
def pack (capacity available : Nat) (groups : List (List Decl)) :
    Except PackError (List Sector) := do
  let (_, placed) ← Packing.placeGroups capacity groups
  let needed := Packing.sectorsNeeded placed
  if needed > available then .error (.tooFewSectors needed capacity available)
  else .ok ((List.range needed).map (Packing.sectorOf placed))

end BitLayout
