import BitLayout.Code.Program
import BitLayout.Proofs.Code.Relation

/-!
# BitLayout.Proofs.Code.Renaming

The statements of a record's function, written out where it is called. The function counts its loops
and locals from zero and calls the struct that it is given `value`; where it is called, the struct
stands at a place, and there are loops and locals around it already:

```
(*value).a[__i0]   ~>   (*obj).s[__i0].a[__i1]      in one loop, for the struct (*obj).s[__i0]
```

The names are the only difference that this makes.

* `Statement.renamed`, `renamedAll`: statements under the names of another place;
* `follows_renamed`: the statements for a declaration are those for the place under its new name;
* `Transfer.renamed_fields`: so are those for the fields of a record;
* `recordsMovedAll_renamed`: the records that are moved whole stay the same.
-/

namespace BitLayout

/-! ## names -/

/-- A place in the function of a record, where the struct that it is given is `value`, and `number`
loops and locals are around the call. -/
def Place.renamed (place value : Place) (number : Nat) : Place :=
  match place with
  | object name => if object name = Program.recordPlace then value else object name
  | wire n => wire (number + n)
  | field owner name ofUnion => field (owner.renamed value number) name ofUnion
  | element array (.constant n) => element (array.renamed value number) (.constant n)
  | element array (.loop n) => element (array.renamed value number) (.loop (number + n))

/-- A move in the function of a record, where it is called. -/
def Move.renamed (move : Move) (value : Place) (number : Nat) : Move :=
  match move with
  | .bool place type => .bool (place.renamed value number) type
  | .integer place range type => .integer (place.renamed value number) range type
  | .text place count terminated => .text (place.renamed value number) count terminated
  | .row place count => .row (place.renamed value number) count
  | .bytes place count type => .bytes (place.renamed value number) count type
  | .record place name => .record (place.renamed value number) name
  | .padding bits => .padding bits
  | .default place words => .default (place.renamed value number) words

/-- A loop in the function of a record, where `number` loops and locals are around the call. -/
def Loop.renamed (l : Loop) (number : Nat) : Loop := { l with number := number + l.number }

mutual

/-- A statement in the function of a record, where it is called. -/
def Statement.renamed (value : Place) (number : Nat) : Statement → Statement
  | .move m => .move (m.renamed value number)
  | .wire n t place body =>
    .wire (number + n) t (place.renamed value number) (renamedAll value number body)
  | .loop l body => .loop (l.renamed number) (renamedAll value number body)
  | .choice arms => .choice (renamedArms value number arms)

/-- The statements of the function of a record, where it is called. -/
def renamedAll (value : Place) (number : Nat) : List Statement → List Statement
  | [] => []
  | s :: rest => s.renamed value number :: renamedAll value number rest

/-- The arms of a choice in the function of a record, where it is called. -/
def renamedArms (value : Place) (number : Nat) : List Arm → List Arm
  | [] => []
  | .mk tag id body :: rest =>
    .mk (tag.renamed value number) id (renamedAll value number body) ::
      renamedArms value number rest

end

/-- An arm under other names. -/
def Arm.renamed (value : Place) (number : Nat) : Arm → Arm
  | mk tag id body => mk (tag.renamed value number) id (renamedAll value number body)

/-! ## putting statements together -/

section

variable {value : Place} {number : Nat}

@[simp] theorem Place.renamed_recordPlace :
    Program.recordPlace.renamed value number = value := if_pos rfl

theorem renamedArms_eq (arms : List Arm) :
    renamedArms value number arms = arms.map (Arm.renamed value number) := by
  induction arms with
  | nil => rfl
  | cons arm arms ih =>
    obtain ⟨tag, id, body⟩ := arm
    rw [renamedArms, ih]
    rfl

theorem renamedAll_append (xs ys : List Statement) :
    renamedAll value number (xs ++ ys) =
      renamedAll value number xs ++ renamedAll value number ys := by
  induction xs with
  | nil => rfl
  | cons x xs ih => rw [List.cons_append, renamedAll, renamedAll, ih, List.cons_append]

/-- A loop without content is left out under any names. -/
theorem renamedAll_looped (l : Loop) (body : List Statement) :
    renamedAll value number (Statement.looped l body) =
      Statement.looped (l.renamed number) (renamedAll value number body) := by
  unfold Statement.looped
  cases body <;> rfl

end

/-! ## calls -/

mutual

theorem recordsMoved_renamed (value : Place) (number : Nat) : (s : Statement) →
    Program.recordsMoved (s.renamed value number) = Program.recordsMoved s
  | .move m => by cases m <;> rfl
  | .wire _ _ _ body => recordsMovedAll_renamed value number body
  | .loop _ body => recordsMovedAll_renamed value number body
  | .choice arms => recordsMovedByArms_renamed value number arms

/-- **Calls under other names**: the same records are moved whole. -/
theorem recordsMovedAll_renamed (value : Place) (number : Nat) : (xs : List Statement) →
    Program.recordsMovedAll (renamedAll value number xs) = Program.recordsMovedAll xs
  | [] => rfl
  | x :: xs => congrArg₂ (· ++ ·) (recordsMoved_renamed value number x)
      (recordsMovedAll_renamed value number xs)

theorem recordsMovedByArms_renamed (value : Place) (number : Nat) : (arms : List Arm) →
    Program.recordsMovedByArms (renamedArms value number arms) = Program.recordsMovedByArms arms
  | [] => rfl
  | .mk _ _ body :: arms => congrArg₂ (· ++ ·) (recordsMovedAll_renamed value number body)
      (recordsMovedByArms_renamed value number arms)

end

/-! ## declarations -/

section

variable (value : Place) (number : Nat)

/-- Where the code of the function of a record goes when it is called. -/
def Relocation.toCall : Relocation where
  place := (Place.renamed · value number)
  number := (number + ·)
  field _ _ _ := rfl
  loop _ _ := rfl
  wire _ := rfl
  succ _ := rfl

/-- Statements under other names as a relation. -/
def renamedRelation : CodeRelation Unit where
  Rel _ xs ys := renamedAll value number xs = ys
  Tags _ tag tag' := tag.renamed value number = tag'
  nil _ := rfl
  append h h' := by rw [renamedAll_append, h, h']
  padding _ _ := rfl
  choice {_ arms arms'} _ h := by
    have harms : arms.map (Arm.renamed value number) = arms' :=
      Arm.map_of_related h fun _ _ _ _ _ htag hbody => by rw [Arm.renamed, htag, hbody]
    rw [renamedAll, renamedAll, Statement.renamed, renamedArms_eq, harms]

/-- **Names in a declaration**: the statements for a declaration under other names are those for
the place and its owner under their names. -/
theorem follows_renamed (aim : Purpose) :
    (renamedRelation value number).Follows aim aim (.toCall value number) fun _ _ _ _ => True where
  loop _ := ⟨(), trivial, fun _ _ h => by
    change renamedAll value number _ = _ at h
    subst h
    exact renamedAll_looped _ _⟩
  wire _ _ _ := ⟨(), trivial, fun _ _ h => by
    change renamedAll value number _ = _ at h
    subst h
    rfl⟩
  omitted _ homit := by
    rw [Transfer.elementAt, Transfer.elementAt, Transfer.element_omitted homit,
      Transfer.element_omitted homit]
    split <;> rfl
  single _ hm := by cases hm <;> rfl
  struct _ hk hfields := by
    rw [Transfer.elementAt, Transfer.elementAt, Transfer.element_struct hk,
      Transfer.element_struct hk]
    split
    · rfl
    · exact hfields
  field _ _ _ := trivial
  variant _ _ _ := trivial
  fieldOfVariant _ _ _ _ := trivial
  ownerTag _ _ _ := rfl
  variantTag _ _ _ _ := rfl

/-- Names in the fields of a record. -/
theorem Transfer.renamed_fields (aim : Purpose) (skipped : Nat) (ds : List Decl) (place : Place)
    (n : Nat) : renamedAll value number (fields aim skipped ds place n) =
      fields aim skipped ds (place.renamed value number) (number + n) :=
  (follows_renamed value number aim).fields (s := ()) (p := ⟨place, none, n⟩)
    (fun _ _ => trivial) skipped

end

end BitLayout
