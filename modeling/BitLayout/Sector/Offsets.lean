import BitLayout.Item.Basic

/-!
# BitLayout.Sector.Offsets

Where the items of a sector begin. Items follow each other, except at the branches of a union: each
begins where the union does, and what follows the union begins behind its longest branch.

The walk over the items keeps the branches that are open, outermost first. The next item stays in
those that it shares with the item before, leaves the others, and enters new ones. A branch that is
left for another one of the same union hands on where the union began and how far it has come.
-/

namespace BitLayout

/-- The items of one sector. -/
structure Sector where
  items : List Item

namespace Sector

/-- An open branch. -/
structure OpenBranch where
  condition : Condition
  /-- Where the union begins. -/
  start : Nat
  /-- How far the branches of the union that are closed have come. -/
  reached : Nat

/-- The position behind all open branches. -/
def closeAll (branches : List OpenBranch) (position : Nat) : Nat :=
  branches.foldr (fun b p => max b.reached p) position

/-- Open a branch for every condition. -/
def openAll (position : Nat) (conditions : List Condition) : List OpenBranch :=
  conditions.map fun c => ⟨c, position, position⟩

/-- Go on to an item with some conditions: the branches then open, and the position. -/
def enter : List OpenBranch → List Condition → (position : Nat) → List OpenBranch × Nat
  | [], conditions, position => (openAll position conditions, position)
  | b :: branches, [], position => ([], closeAll (b :: branches) position)
  | b :: branches, c :: conditions, position =>
    if b.condition == c then
      let (opened, position) := enter branches conditions position
      (b :: opened, position)
    else
      let finish := closeAll (b :: branches) position
      if c.sameSwitch b.condition then
        (⟨c, b.start, finish⟩ :: openAll b.start conditions, b.start)
      else (openAll finish (c :: conditions), finish)

/-- The offsets and sizes of items, and behind them where everything ends. -/
def offsetsFrom (branches : List OpenBranch) (position : Nat) : List Item → List (Nat × Nat) × Nat
  | [] => ([], closeAll branches position)
  | i :: rest =>
    let (branches, position) := enter branches i.conditions position
    let (layout, finish) := offsetsFrom branches (position + i.bits) rest
    ((position, i.bits) :: layout, finish)

/-- The offsets and sizes of the items of a sector. -/
def layout (s : Sector) : List (Nat × Nat) := (offsetsFrom [] 0 s.items).1

/-- The bits that the items of a sector take up. -/
def bitLength (s : Sector) : Nat := (offsetsFrom [] 0 s.items).2

/-- Every item has a size of its own in the layout, in order. -/
theorem map_snd_offsetsFrom (branches : List OpenBranch) (position : Nat) (items : List Item) :
    (offsetsFrom branches position items).1.map Prod.snd = items.map Item.bits := by
  induction items generalizing branches position with
  | nil => rfl
  | cons i items ih => simp [offsetsFrom, ih]

theorem length_layout (s : Sector) : s.layout.length = s.items.length := by
  have h := congrArg List.length (map_snd_offsetsFrom [] 0 s.items)
  simpa [layout] using h

end Sector

end BitLayout
