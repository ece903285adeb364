import BitLayout.Code.Program
import BitLayout.Proofs.Code.Relation

/-!
# BitLayout.Proofs.Code.Calls

The records that code moves whole. Each of them is known, so there are members from which its
functions can be made.

* `Calls.follows`: code for a sound declaration calls for known records alone;
* `Calls.fields`, `Calls.item`, `Calls.items`: so does the code for the fields of a record and for
  items.
-/

namespace BitLayout

theorem Program.recordsMovedAll_append (xs ys : List Statement) :
    recordsMovedAll (xs ++ ys) = recordsMovedAll xs ++ recordsMovedAll ys := by
  induction xs with
  | nil => rfl
  | cons x xs ih => simp [recordsMovedAll, ih]

/-- Only known records are moved whole. -/
def Calls (records : List (String × List Decl)) (body : List Statement) : Prop :=
  ∀ record ∈ Program.recordsMovedAll body, (records.lookup record).isSome

namespace Calls

variable {g : Registry} {records : List (String × List Decl)} {xs ys body : List Statement}
  {arms : List Arm}

/-! ## putting statements together -/

theorem nil : Calls records [] := fun _ h => nomatch h

theorem move {m : Move} (h : ∀ place name, m = .record place name → (records.lookup name).isSome) :
    Calls records [.move m] := by
  intro record hrecord
  cases m with
  | record place name =>
    obtain rfl := List.mem_singleton.1 hrecord
    exact h place record rfl
  | _ => cases hrecord

theorem append (h : Calls records xs) (h' : Calls records ys) : Calls records (xs ++ ys) := by
  intro record hrecord
  rw [Program.recordsMovedAll_append] at hrecord
  exact (List.mem_append.1 hrecord).elim (h record) (h' record)

theorem wire (h : Calls records body) (number : Nat) (t : Transform) (place : Place) :
    Calls records [.wire number t place body] := by
  simpa [Calls, Program.recordsMovedAll, Program.recordsMoved] using h

theorem looped (h : Calls records body) (l : Loop) : Calls records (Statement.looped l body) := by
  unfold Statement.looped
  split
  · exact nil
  · simpa [Calls, Program.recordsMovedAll, Program.recordsMoved] using h

theorem byArms (h : ∀ arm ∈ arms, Calls records arm.body) :
    ∀ record ∈ Program.recordsMovedByArms arms, (records.lookup record).isSome := by
  induction arms with
  | nil => exact fun _ hrecord => nomatch hrecord
  | cons arm arms ih =>
    obtain ⟨harm, harms⟩ := List.forall_mem_cons.1 h
    obtain ⟨tag, value, body⟩ := arm
    exact fun record hrecord =>
      (List.mem_append.1 hrecord).elim (harm record) (ih harms record)

/-! ## declarations -/

/-- Calls for known records as a relation. -/
def relation (records : List (String × List Decl)) : CodeRelation Unit :=
  .property (fun _ => Calls records) (fun _ _ => True) (fun _ => nil) append
    (fun _ _ => move (by simp)) fun harms => by
      have hcalls := byArms fun arm harm => (harms arm harm).2
      simpa [Calls, Program.recordsMovedAll, Program.recordsMoved] using hcalls

/-- **Calls of a declaration**: code for a sound declaration calls for known records alone. -/
theorem follows (g : Registry) (aim : Purpose) :
    (relation records).Follows aim aim .refl
      fun _ d _ _ => d.Everywhere (Decl.Sound g records) where
  loop h := ⟨(), h, fun _ _ hbody => looped hbody _⟩
  wire h _ hw := ⟨(), h.wire hw, fun _ _ hbody => wire hbody _ _ _⟩
  omitted _ homit := by
    rw [Transfer.elementAt, Transfer.element_omitted homit]
    split
    · exact move (by simp)
    · exact nil
  single _ hm := by cases hm <;> exact move (by simp)
  struct {_ d p} h hk hfields := by
    obtain ⟨⟨record, hshape, hlookup⟩, -⟩ := h.self.struct hk
    have hrecord : d.record? = some record := by rw [Decl.record?, hshape]
    rw [Transfer.elementAt, Transfer.element_struct hk, hrecord]
    split
    · next heq =>
      obtain rfl := Option.some.inj heq
      refine move fun _ name hname => ?_
      cases hname
      rw [hlookup]
      rfl
    · exact hfields
  field h _ hm := h.member hm
  variant h _ hv := h.member hv
  fieldOfVariant h _ hv hm := (h.member hv).member hm
  ownerTag _ _ _ := trivial
  variantTag _ _ _ _ := trivial

/-- Code for the fields of a record calls for known records alone. -/
theorem fields {aim : Purpose} {ds : List Decl} (skipped : Nat)
    (h : ∀ d ∈ ds, d.Everywhere (Decl.Sound g records)) (place : Place) (n : Nat) :
    Calls records (Transfer.fields aim skipped ds place n) :=
  (follows g aim).fields (s := ()) (p := ⟨place, none, n⟩) h skipped

/-! ## items -/

section

variable {aim : Purpose} {i : Item} {row : List Item}

/-- Code for an item calls for known records alone. -/
theorem item (h : ∀ p, i.content = .value p → p.last.decl.Everywhere (Decl.Sound g records)) :
    Calls records (i.statements aim) :=
  (follows g aim).item (c := fun _ => ()) (fun _ l _ _ hbody => looped hbody l)
    fun p hp _ _ _ => h p hp

/-- **Calls of items**: code for items calls for the records that are called for by the items. -/
theorem items (h : ∀ i ∈ row, Calls records (i.statements aim)) (levels level : Nat) :
    Calls records (Items.statementsWithin aim levels level row) :=
  (relation records).items (s := ()) aim aim h (fun _ _ _ _ => trivial) levels level

end

end Calls

end BitLayout
