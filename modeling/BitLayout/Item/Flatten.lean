import BitLayout.Item.Height

/-!
# BitLayout.Item.Flatten

Taking an item apart all the way down. Some arrays stay whole: those of leaves, and those with no
more elements than a threshold.
-/

namespace BitLayout.Item

/-- Whether an item is an array that stays whole. -/
def staysWhole (threshold : Nat) (i : Item) : Bool :=
  i.last?.any fun s => s.isArray && (s.decl.kind.isLeaf || s.elements ≤ threshold)

/-- Take an item apart through at most `levels` levels. -/
def flattenWithin (threshold : Nat) : (levels : Nat) → Item → List Item
  | 0, i => [i]
  | levels + 1, i =>
    match i.split? with
    | none => [i]
    | some split =>
      if i.staysWhole threshold then [i]
      else split.items.flatMap (flattenWithin threshold levels)

/-- Take an item apart down to leaves, arrays of leaves, and arrays of at most `threshold`
elements. -/
def flatten (threshold : Nat) (i : Item) : List Item := flattenWithin threshold i.height i

end BitLayout.Item
