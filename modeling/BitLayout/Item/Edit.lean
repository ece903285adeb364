import BitLayout.Item.Flatten
import BitLayout.Sector.Merge

/-!
# BitLayout.Item.Edit

Steps that change a list of items, one after the other. They are what becomes of items between data
objects and sectors, each at a position: items are taken apart, indexed, padded, dropped, repeated
and merged. A step at a position without an item changes nothing.
-/

namespace BitLayout

/-- A step that changes a list of items. -/
inductive Edit where
  /-- Take the item at a position apart by one level. -/
  | expand (position : Nat)
  /-- Take every item apart by one level. -/
  | expandAll
  /-- Take the item at a position apart down to a threshold. -/
  | flatten (position threshold : Nat)
  /-- Index the value at a position. -/
  | index (position : Nat) (access : Access)
  /-- Put padding behind the item at a position, under the same conditions. -/
  | pad (position bits : Nat) (trailing : Bool)
  /-- Remove the item at a position. -/
  | drop (position : Nat)
  /-- Repeat the item at a position at the end. -/
  | copy (position : Nat)
  /-- Merge neighbours. -/
  | merge
deriving DecidableEq, Repr

namespace Edit

/-- Replace the item at a position by others. -/
def replaceAt (position : Nat) (f : Item → List Item) (items : List Item) : List Item :=
  items.take position ++ (items[position]?.elim [] f) ++ items.drop (position + 1)

/-- The value with one more index; padding stays as it is. -/
def indexed (a : Access) (i : Item) : Item :=
  match i.content with
  | .value p => { i with content := .value (p.access a) }
  | .padding _ _ => i

/-- Carry a step out. -/
def apply (items : List Item) : Edit → List Item
  | expand position => replaceAt position Item.expand items
  | expandAll => items.flatMap Item.expand
  | flatten position threshold => replaceAt position (Item.flatten threshold) items
  | index position a => replaceAt position (fun i => [indexed a i]) items
  | pad position bits trailing =>
    replaceAt position (fun i => [i, .padding i.conditions bits trailing]) items
  | drop position => items.eraseIdx position
  | copy position => items ++ items[position]?.toList
  | merge => mergeItems items

end Edit

end BitLayout
