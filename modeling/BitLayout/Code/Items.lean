import BitLayout.Code.Transfer

/-!
# BitLayout.Code.Items

The statements that move the items of a sector, in order. Neighbouring items under conditions on
the same union become one choice, with an arm for each value of the tag, in ascending order; inside
an arm the next conditions are treated alike.

Trailing padding needs no statement, since nothing follows it.
-/

namespace BitLayout

/-- Move one item, whatever its conditions. -/
def Item.statements (aim : Purpose) (i : Item) : List Statement :=
  match i.content with
  | .padding _ true => []
  | .padding bits false => Statement.padding bits
  | .value p =>
    let l := p.last.remaining.foldl (fun l extent => l.slice 0 extent) p.locus
    Statement.loopedAll l.loops (Transfer.element aim p.last.decl l.place l.owner l.loops.length)

namespace Items

/-- Whether two items stand under the same conditions up to a level, and there under conditions on
the same union. -/
def sameChoice (level : Nat) (a b : Item) : Bool :=
  match a.conditions[level]?, b.conditions[level]? with
  | some c, some d => a.conditions.take level == b.conditions.take level && c.sameSwitch d
  | _, _ => false

/-- Items under one condition, which stands for those with its value. -/
structure Group where
  condition : Condition
  items : List Item

/-- Add an item under a condition to groups in ascending order of their values. -/
def addTo (c : Condition) (i : Item) : List Group → List Group
  | [] => [⟨c, [i]⟩]
  | g :: rest =>
    if c.value < g.condition.value then ⟨c, [i]⟩ :: g :: rest
    else if c.value = g.condition.value then { g with items := g.items ++ [i] } :: rest
    else g :: addTo c i rest

/-- Items by the values of their conditions at a level. -/
def groups (level : Nat) (items : List Item) : List Group :=
  items.foldl
    (fun groups i =>
      match i.conditions[level]? with
      | some c => addTo c i groups
      | none => groups)
    []

/-- Move items that share the first `level` conditions and have at most `levels` more. -/
def statementsWithin (aim : Purpose) : (levels level : Nat) → List Item → List Statement
  | 0, _, items => items.flatMap (Item.statements aim)
  | levels + 1, level, items =>
    (items.splitBy (sameChoice level)).flatMap fun run =>
      if run.all fun i => i.conditions[level]?.isNone then run.flatMap (Item.statements aim)
      else
        Statement.chosen ((groups level run).map fun g =>
          .mk g.condition.tag.locus.place g.condition.value
            (statementsWithin aim levels (level + 1) g.items))

/-- Move items that share the first `level` conditions. -/
def statements (aim : Purpose) (level : Nat) (items : List Item) : List Statement :=
  statementsWithin aim (items.foldl (fun n i => max n i.conditions.length) 0) level items

end Items

end BitLayout
