import BitLayout.Proofs.Code.Relation

/-!
# BitLayout.Proofs.Code.Halves

The two halves of generated code, made apart for each direction. The half that reads assigns
defaults, which the half that saves does not know of, and loops over these alone are missing there:

```
save  =  read  -  defaults  -  loops without anything else
```

Apart from this, both halves are the same statements, and the arms of all their choices are in
ascending order.

* `Halves.follows`: the halves for any declaration are such code;
* `Transfer.halves_fields`, `Item.halves`, `Items.halves`: so are those for the fields of a record,
  for an item, and for the items of a sector.
-/

namespace BitLayout

/-! ## without defaults -/

mutual

/-- A statement without the defaults in it, and without loops that are empty then. -/
def Statement.bare : Statement → List Statement
  | .move (.default _ _) => []
  | .move m => [.move m]
  | .wire number t place body => [.wire number t place (bareAll body)]
  | .loop l body => Statement.looped l (bareAll body)
  | .choice arms => [.choice (bareArms arms)]

/-- Statements in a row without defaults. -/
def bareAll : List Statement → List Statement
  | [] => []
  | s :: rest => s.bare ++ bareAll rest

/-- The arms of a choice without defaults. -/
def bareArms : List Arm → List Arm
  | [] => []
  | .mk tag value body :: rest => .mk tag value (bareAll body) :: bareArms rest

end

mutual

/-- The arms of every choice in a statement are in ascending order of their values. -/
def Statement.Ordered : Statement → Prop
  | .move _ => True
  | .wire _ _ _ body => OrderedAll body
  | .loop _ body => OrderedAll body
  | .choice arms => Ascending Arm.value arms ∧ OrderedArms arms

/-- All choices in statements are in ascending order. -/
def OrderedAll : List Statement → Prop
  | [] => True
  | s :: rest => s.Ordered ∧ OrderedAll rest

/-- All choices inside arms are in ascending order. -/
def OrderedArms : List Arm → Prop
  | [] => True
  | .mk _ _ body :: rest => OrderedAll body ∧ OrderedArms rest

end

/-- Statements that read and statements that save are the same, apart from defaults. -/
structure Halves (read save : List Statement) : Prop where
  bare : bareAll read = save
  ordered : OrderedAll read

/-! ## putting halves together -/

section

variable {r r' w w' : List Statement} {arms : List Arm}

theorem bareAll_append (xs ys : List Statement) :
    bareAll (xs ++ ys) = bareAll xs ++ bareAll ys := by
  induction xs with
  | nil => rfl
  | cons x xs ih => simp [bareAll, ih]

/-- A move other than a default stays. -/
theorem Statement.bare_move {m : Move} (h : ∀ place value, m ≠ .default place value) :
    Statement.bare (.move m) = [.move m] := by
  cases m with
  | default place value => exact absurd rfl (h place value)
  | _ => rfl

theorem orderedAll_append {xs ys : List Statement} (hx : OrderedAll xs) (hy : OrderedAll ys) :
    OrderedAll (xs ++ ys) := by
  induction xs with
  | nil => exact hy
  | cons x xs ih => exact ⟨hx.1, ih hx.2⟩

namespace Halves

theorem nil : Halves [] [] := ⟨rfl, trivial⟩

theorem append (h : Halves r w) (h' : Halves r' w') : Halves (r ++ r') (w ++ w') where
  bare := by rw [bareAll_append, h.bare, h'.bare]
  ordered := orderedAll_append h.ordered h'.ordered

/-- A move other than a default is in both halves. -/
theorem move {m : Move} (h : ∀ place value, m ≠ .default place value) :
    Halves [.move m] [.move m] where
  bare := by simp [bareAll, Statement.bare_move h]
  ordered := ⟨trivial, trivial⟩

/-- A default is in the half that reads alone. -/
theorem default (place : Place) (value : Tokens) : Halves [.move (.default place value)] [] :=
  ⟨rfl, trivial, trivial⟩

theorem wire (h : Halves r w) (number : Nat) (t : Transform) (place : Place) :
    Halves [.wire number t place r] [.wire number t place w] where
  bare := by simp [bareAll, Statement.bare, h.bare]
  ordered := ⟨h.ordered, trivial⟩

theorem looped (h : Halves r w) (l : Loop) :
    Halves (Statement.looped l r) (Statement.looped l w) := by
  unfold Statement.looped
  split
  · next hnil =>
    obtain rfl := List.isEmpty_iff.1 hnil
    rw [← h.bare]
    exact nil
  · exact ⟨by simp [bareAll, Statement.bare, h.bare, Statement.looped], h.ordered, trivial⟩

end Halves

/-! ## arms -/

/-- An arm without defaults. -/
def Arm.bare : Arm → Arm
  | mk tag value body => mk tag value (bareAll body)

theorem bareArms_eq (arms : List Arm) : bareArms arms = arms.map Arm.bare := by
  induction arms with
  | nil => rfl
  | cons arm arms ih =>
    obtain ⟨tag, value, body⟩ := arm
    rw [bareArms, ih]
    rfl

theorem orderedArms_iff : OrderedArms arms ↔ ∀ arm ∈ arms, OrderedAll arm.body := by
  induction arms with
  | nil => simp [OrderedArms]
  | cons arm arms ih =>
    obtain ⟨tag, value, body⟩ := arm
    rw [OrderedArms, ih, List.forall_mem_cons]
    rfl

end

/-! ## declarations -/

namespace Halves

/-- Halves as a relation: choices in both are made by the same tags. -/
def relation : CodeRelation Unit where
  Rel _ := Halves
  Tags _ := Eq
  nil _ := nil
  append := append
  padding _ _ := move (by simp)
  choice {_ arms arms'} hasc h := by
    have hbare : bareArms arms = arms' := by
      rw [bareArms_eq]
      exact Arm.map_of_related h fun _ _ _ _ _ htag hbody => by rw [Arm.bare, htag, hbody.bare]
    have hordered : OrderedArms arms :=
      orderedArms_iff.2 (Arm.forall_of_related h fun _ _ harm => harm.body.ordered)
    exact ⟨by rw [← hbare]; rfl, ⟨hasc, hordered⟩, trivial⟩

/-- **Halves of a declaration**: reading and saving a declaration are the same, apart from
defaults. -/
theorem follows (sf : Bool) :
    relation.Follows ⟨.read, sf⟩ ⟨.save, sf⟩ .refl fun _ _ _ _ => True where
  loop _ := ⟨(), trivial, fun _ _ h => h.looped _⟩
  wire _ _ _ := ⟨(), trivial, fun _ _ h => h.wire _ _ _⟩
  omitted {_ d p} _ homit := by
    rw [Position.relocated_refl, Transfer.elementAt, Transfer.elementAt,
      Transfer.element_omitted homit, Transfer.element_omitted homit]
    cases d.encoding.default with
    | none => exact nil
    | some value => exact default p.place value.tokens
  single _ hm := by cases hm <;> exact move (by simp)
  struct _ hk hfields := by
    rw [Position.relocated_refl, Transfer.elementAt, Transfer.elementAt,
      Transfer.element_struct hk, Transfer.element_struct hk]
    dsimp only
    split
    · exact move (by simp)
    · exact hfields
  field _ _ _ := trivial
  variant _ _ _ := trivial
  fieldOfVariant _ _ _ _ := trivial
  ownerTag _ _ _ := rfl
  variantTag _ _ _ _ := rfl

end Halves

/-- The halves for the fields of a record behind the first ones. -/
theorem Transfer.halves_fields (sf : Bool) (skipped : Nat) (ds : List Decl) (place : Place)
    (n : Nat) : Halves (fields ⟨.read, sf⟩ skipped ds place n)
      (fields ⟨.save, sf⟩ skipped ds place n) :=
  (Halves.follows sf).fields (s := ()) (p := ⟨place, none, n⟩) (fun _ _ => trivial) skipped

/-! ## items -/

/-- The halves for an item. -/
theorem Item.halves (sf : Bool) (i : Item) :
    Halves (i.statements ⟨.read, sf⟩) (i.statements ⟨.save, sf⟩) :=
  (Halves.follows sf).item (c := fun _ => ()) (fun _ l _ _ h => h.looped l)
    fun _ _ _ _ _ => trivial

/-- **Halves of a sector**: reading and saving items are the same, apart from defaults. -/
theorem Items.halves (sf : Bool) (levels level : Nat) (items : List Item) :
    Halves (statementsWithin ⟨.read, sf⟩ levels level items)
      (statementsWithin ⟨.save, sf⟩ levels level items) :=
  Halves.relation.items (s := ()) _ _ (fun i _ => i.halves sf) (fun _ _ _ _ => rfl) levels level

end BitLayout
