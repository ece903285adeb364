import BitLayout.Proofs.Item.Parts
import BitLayout.Sector.Packing
import Mathlib.Algebra.Order.BigOperators.Group.List
import Mathlib.Algebra.Order.Group.Nat

/-!
# BitLayout.Proofs.Sector.Places

What placing does, as a relation. `Places capacity cs ps c c' out` says that the values `ps`, in a
row under the conditions `cs`, are placed from the cursor `c` to the cursor `c'`, and that `out` is
what is placed. It has one rule for each way in which the first value may go: it is left out, fits,
is taken apart into parts, is switched between variants, or goes to the next sector.

* `places_of_inRow`: every run of the packer that succeeds is one of the relation. All that is said
  of packing follows by induction on it.
-/

namespace BitLayout

open Packing

/-- A whole value at a cursor. -/
def Placed.value (c : Cursor) (cs : List Condition) (p : Path) : Placed :=
  ⟨c.sector, ⟨cs, .value p⟩⟩

namespace Packing

/-- The arms of a union under some conditions, each with what its parts come to. -/
def branchesOf (cs : List Condition) (p : Path) (ends : List (Variant × Placement)) :
    List (List Condition × Placement) := ends.map fun e => (e.1.conditions cs p, e.2)

end Packing

/-- Values in a row under some conditions are placed from one cursor to another. -/
inductive Places (capacity : Nat) :
    List Condition → List Path → Cursor → Cursor → List Placed → Prop where
  | nil (cs : List Condition) (c : Cursor) : Places capacity cs [] c c []
  | omitted {cs : List Condition} {p : Path} {ps : List Path} {c c' : Cursor} {out : List Placed}
    (homit : p.last.decl.isOmitted = true) (h : Places capacity cs ps c c' out) :
    Places capacity cs (p :: ps) c c'
      ((if p.last.decl.encoding.default.isSome then [.value c cs p] else []) ++ out)
  | fits {cs : List Condition} {p : Path} {ps : List Path} {c c' : Cursor} {out : List Placed}
    (homit : p.last.decl.isOmitted = false) (hfit : c.used + p.last.bits ≤ capacity)
    (h : Places capacity cs ps ⟨c.sector, c.used + p.last.bits⟩ c' out) :
    Places capacity cs (p :: ps) c c' (.value c cs p :: out)
  | row {cs : List Condition} {p : Path} {ps qs : List Path} {c d c' : Cursor}
    {inner out : List Placed} (homit : p.last.decl.isOmitted = false)
    (hfit : capacity < c.used + p.last.bits) (hp : p.Parts qs)
    (hinner : Places capacity cs qs c d inner) (h : Places capacity cs ps d c' out) :
    Places capacity cs (p :: ps) c c' (inner ++ out)
  | union {cs : List Condition} {p : Path} {ps shared : List Path} {arms : List Variant}
    {c d c' : Cursor} {first out : List Placed} {ends : List (Variant × Placement)}
    (homit : p.last.decl.isOmitted = false) (hfit : capacity < c.used + p.last.bits)
    (hs : p.Switch shared arms) (hfirst : Places capacity cs shared c d first)
    (harms : ends.map Prod.fst = arms)
    (hends : ∀ e ∈ ends, Places capacity (e.1.conditions cs p) e.1.parts d e.2.1 e.2.2)
    (h : Places capacity cs ps (joinBranches capacity d (branchesOf cs p ends)).1 c' out) :
    Places capacity cs (p :: ps) c c'
      (first ++ (joinBranches capacity d (branchesOf cs p ends)).2 ++ out)
  | next {cs : List Condition} {p : Path} {ps : List Path} {c c' : Cursor} {out : List Placed}
    (homit : p.last.decl.isOmitted = false) (hfit : capacity < c.used + p.last.bits)
    (hwhole : Item.split? ⟨cs, .value p⟩ = none) (hbits : p.last.bits ≤ capacity)
    (h : Places capacity cs ps ⟨c.sector + 1, p.last.bits⟩ c' out) :
    Places capacity cs (p :: ps) c c' (fill capacity cs c ++ .value c.next cs p :: out)

namespace Packing

variable {capacity levels : Nat} {one : Item → Cursor → Except PackError Placement}
  {cs : List Condition} {p : Path} {ps : List Path} {c c' : Cursor} {out : List Placed}

/-! ## running steps -/

/-- A run of two steps that succeeds is a run of each. -/
theorem bind_ok {α β : Type} {x : Except PackError α} {f : α → Except PackError β} {b : β}
    (h : (x >>= f) = .ok b) : ∃ a, x = .ok a ∧ f a = .ok b := by
  cases x with
  | error e => cases h
  | ok a => exact ⟨a, rfl, h⟩

theorem ok_of_toOption {α : Type} {x : Except PackError α} {a : α} (h : x.toOption = some a) :
    x = .ok a := by
  cases x with
  | error e => cases h
  | ok b =>
    cases h
    rfl

theorem inRow_cons {i : Item} {items : List Item} (h : inRow one (i :: items) c = .ok (c', out)) :
    ∃ d first rest, one i c = .ok (d, first) ∧ inRow one items d = .ok (c', rest) ∧
      out = first ++ rest := by
  obtain ⟨⟨d, first⟩, hone, h⟩ := bind_ok h
  obtain ⟨⟨c'', rest⟩, hrest, h⟩ := bind_ok h
  cases h
  exact ⟨d, first, rest, hone, hrest, rfl⟩

/-- The branches of a union are placed each by itself. -/
theorem inBranches_map {α : Type} {f : α → Branch} {xs : List α}
    {results : List (List Condition × Placement)} (h : inBranches one c (xs.map f) = .ok results) :
    ∃ ends : List (α × Placement), ends.map Prod.fst = xs ∧
      results = (ends.map fun e => ((f e.1).conditions, e.2)) ∧
      ∀ e ∈ ends, inRow one (f e.1).parts c = .ok e.2 := by
  induction xs generalizing results with
  | nil =>
    cases h
    exact ⟨[], rfl, rfl, fun _ he => (nomatch he)⟩
  | cons x xs ih =>
    rw [List.map_cons] at h
    obtain ⟨placement, hone, h⟩ := bind_ok h
    obtain ⟨rest, hrest, h⟩ := bind_ok h
    cases h
    obtain ⟨ends, rfl, rfl, hends⟩ := ih hrest
    exact ⟨(x, placement) :: ends, rfl, rfl, List.forall_mem_cons.2 ⟨hone, hends⟩⟩

theorem inBranches_arms {arms : List Variant} {results : List (List Condition × Placement)}
    (h : inBranches one c (arms.map (Variant.branch cs p)) = .ok results) :
    ∃ ends : List (Variant × Placement), ends.map Prod.fst = arms ∧ results = branchesOf cs p ends ∧
      ∀ e ∈ ends, inRow one (Item.row (e.1.conditions cs p) e.1.parts) c = .ok e.2 :=
  inBranches_map h

/-! ## padding -/

/-- Padding to the end of a sector is nothing else, and stands in that sector. -/
theorem mem_fill {x : Placed} (hx : x ∈ fill capacity cs c) :
    x.sector = c.sector ∧ ∃ bits trailing, x.item = .padding cs bits trailing := by
  unfold fill at hx
  split at hx
  · rw [List.mem_singleton.1 hx]
    exact ⟨rfl, _, _, rfl⟩
  · cases hx

/-- Padding to the end of a union is nothing else, and stands between the two cursors. -/
theorem mem_fillBranch {x : Placed} (h : c.sector ≤ c'.sector)
    (hx : x ∈ fillBranch capacity cs c c') :
    c.sector ≤ x.sector ∧ x.sector ≤ c'.sector ∧
      ∃ bits trailing, x.item = .padding cs bits trailing := by
  unfold fillBranch at hx
  split at hx
  · next hsector =>
    split at hx
    · rw [List.mem_singleton.1 hx]
      exact ⟨Nat.le_refl _, h, _, _, rfl⟩
    · cases hx
  · rcases List.mem_append.1 hx with hx | hx
    · rcases List.mem_append.1 hx with hx | hx
      · obtain ⟨hsector, hitem⟩ := mem_fill hx
        exact ⟨Nat.le_of_eq hsector.symm, hsector ▸ h, hitem⟩
      · obtain ⟨sector, hrange, rfl⟩ := List.mem_map.1 hx
        have hrange := List.mem_range'_1.1 hrange
        refine ⟨?_, ?_, _, _, rfl⟩ <;> dsimp only <;> omega
    · split at hx
      · cases hx
      · rw [List.mem_singleton.1 hx]
        exact ⟨h, Nat.le_refl _, _, _, rfl⟩

/-! ## the packer runs by the rules -/

/-- Parts have fewer levels than the value. -/
theorem height_lt_of_mem_row (cs : List Condition) {ps : List Path} {split : Split} {i : Item}
    (h : i.split? = some split) (hsub : ∀ q ∈ ps, (⟨cs, .value q⟩ : Item) ∈ split.items) :
    ∀ q ∈ ps, q.last.height < i.height := fun q hq =>
  Item.height_lt_of_split h _ (hsub q hq)

/-- Placing a value in front of a row that is placed, where runs over its parts are known to be by
the rules. -/
theorem places_cons {first : List Placed} {d : Cursor}
    (h : place capacity (levels + 1) ⟨cs, .value p⟩ c = .ok (d, first))
    (hparts : ∀ cs qs c d out, (∀ q ∈ qs, q.last.height < p.last.height) →
      inRow (place capacity levels) (Item.row cs qs) c = .ok (d, out) →
      Places capacity cs qs c d out)
    (hrest : Places capacity cs ps d c' out) :
    Places capacity cs (p :: ps) c c' (first ++ out) := by
  unfold place at h
  split at h
  · next homit =>
    cases h
    exact .omitted homit hrest
  · next homit =>
    have homit : p.last.decl.isOmitted = false := Bool.eq_false_iff.2 homit
    split at h
    · next hfit =>
      cases h
      exact .fits homit hfit hrest
    · next hfit =>
      have hfit : capacity < c.used + p.last.bits := Nat.lt_of_not_le hfit
      split at h
      · next parts _ hsplit hsucc =>
        cases hsucc
        obtain ⟨_, _, hi, -, ⟨qs, hqs, hrow⟩ | ⟨_, _, _, hrow⟩⟩ := Item.split_cases hsplit
        · cases hi
          cases hrow
          have hlt := height_lt_of_mem_row cs hsplit fun q hq => List.mem_map_of_mem hq
          exact .row homit hfit hqs (hparts _ _ _ _ _ hlt h) hrest
        · cases hrow
      · next shared branches _ hsplit hsucc =>
        cases hsucc
        obtain ⟨_, _, hi, -, ⟨_, _, hrow⟩ | ⟨shared, arms, hs, hrow⟩⟩ := Item.split_cases hsplit
        · cases hrow
        · cases hi
          cases hrow
          obtain ⟨⟨e, front⟩, hshared, h⟩ := bind_ok h
          obtain ⟨results, hresults, h⟩ := bind_ok h
          obtain ⟨ends, harms, rfl, hends⟩ := inBranches_arms hresults
          cases h
          refine .union homit hfit hs (hparts _ _ _ _ _ ?_ hshared) harms (fun e he => ?_) hrest
          · exact height_lt_of_mem_row cs hsplit fun q hq =>
              Split.mem_items_of_shared (List.mem_map_of_mem hq)
          · refine hparts _ _ _ _ _ (height_lt_of_mem_row (e.1.conditions cs p) hsplit ?_)
              (hends e he)
            have hbranch : e.1.branch cs p ∈ arms.map (Variant.branch cs p) :=
              List.mem_map_of_mem (harms ▸ List.mem_map_of_mem he)
            exact fun q hq => Split.mem_items_of_branch hbranch (List.mem_map_of_mem hq)
      · next hrow hunion =>
        have hwhole : Item.split? ⟨cs, .value p⟩ = none := by
          cases hsplit : Item.split? ⟨cs, .value p⟩ with
          | none => rfl
          | some split =>
            cases split with
            | row parts => exact (hrow parts levels hsplit rfl).elim
            | union shared branches => exact (hunion shared branches levels hsplit rfl).elim
        split at h
        · cases h
        · next hbits =>
          cases h
          rw [List.append_assoc]
          exact .next homit hfit hwhole (Nat.le_of_not_lt hbits) hrest

theorem height_pos_step (s : Step) : 0 < s.height := by
  have hdecl := s.decl.height_pos
  rw [Step.height]
  omega

/-- A row of values is placed by the rules, if each of them is placed within its levels. -/
theorem places_of_inRow (hone : ∀ p ∈ ps, ∃ levels, p.last.height ≤ levels ∧
      one ⟨cs, .value p⟩ = place capacity levels ⟨cs, .value p⟩)
    (h : inRow one (Item.row cs ps) c = .ok (c', out)) : Places capacity cs ps c c' out := by
  obtain ⟨bound, hbound⟩ : ∃ bound, ∀ p ∈ ps, p.last.height ≤ bound :=
    ⟨(ps.map (·.last.height)).sum, fun p hp => List.le_sum_of_mem (List.mem_map_of_mem hp)⟩
  -- Parts have fewer levels than the value, so the induction is on a bound for all levels.
  induction bound generalizing one cs ps c c' out with
  | zero =>
    cases ps with
    | nil =>
      cases h
      exact .nil cs c
    | cons p ps =>
      have hpos := height_pos_step p.last
      have hle := hbound p List.mem_cons_self
      omega
  | succ bound ih =>
    induction ps generalizing c out with
    | nil =>
      cases h
      exact .nil ..
    | cons p ps ihrest =>
      obtain ⟨d, first, rest, hfirst, hrest, rfl⟩ := inRow_cons h
      obtain ⟨⟨levels, hle, heq⟩, hone⟩ := List.forall_mem_cons.1 hone
      obtain ⟨hp, hbound⟩ := List.forall_mem_cons.1 hbound
      rw [heq] at hfirst
      cases levels with
      | zero =>
        have hpos := height_pos_step p.last
        omega
      | succ levels =>
        refine places_cons hfirst (fun cs qs c d out hlt hqs => ?_) (ihrest hone hrest hbound)
        refine ih (fun q hq => ⟨levels, ?_, rfl⟩) hqs fun q hq => ?_
        · have hq := hlt q hq
          omega
        · have hq := hlt q hq
          omega

end Packing

/-! ## groups -/

/-- Data objects are a row under no conditions. -/
theorem Item.row_roots (objects : List Decl) :
    Item.row [] (objects.map Path.root) = objects.map Item.root := by
  rw [Item.row, List.map_map]
  rfl

namespace Packing

/-- Where a group begins: in a sector of its own, if those before it have left anything in the last
one. -/
def opened (capacity : Nat) (before : Placement) : Placement :=
  if before.1.used > 0 || before.2.any (·.sector = before.1.sector) then
    (before.1.next, before.2 ++ fill capacity [] before.1)
  else before

end Packing

/-- Groups of data objects are placed one behind the other. -/
inductive PlacesGroups (capacity : Nat) : List (List Decl) → Placement → Placement → Prop where
  | nil (before : Placement) : PlacesGroups capacity [] before before
  | cons {objects : List Decl} {groups : List (List Decl)} {before after : Placement} {c : Cursor}
    {more : List Placed}
    (h : Places capacity [] (objects.map Path.root) (opened capacity before).1 c more)
    (hrest : PlacesGroups capacity groups (c, (opened capacity before).2 ++ more) after) :
    PlacesGroups capacity (objects :: groups) before after

namespace Packing

/-- A group is placed as a row, from where it begins. -/
theorem placeGroup_inv {capacity : Nat} {before after : Placement} {objects : List Decl}
    (h : placeGroup capacity before objects = .ok after) :
    ∃ c more, inRow (fun i => place capacity i.height i) (objects.map Item.root)
        (opened capacity before).1 = .ok (c, more) ∧
      after = (c, (opened capacity before).2 ++ more) := by
  obtain ⟨c, placed⟩ := before
  change (inRow _ _ (opened capacity (c, placed)).1 >>= _) = _ at h
  obtain ⟨⟨c', more⟩, hrow, h⟩ := bind_ok h
  cases h
  exact ⟨c', more, hrow, rfl⟩

theorem placeGroup_ok {capacity : Nat} {before after : Placement} {objects : List Decl}
    (h : placeGroup capacity before objects = .ok after) :
    ∃ c more, Places capacity [] (objects.map Path.root) (opened capacity before).1 c more ∧
      after = (c, (opened capacity before).2 ++ more) := by
  obtain ⟨c, more, hrow, hafter⟩ := placeGroup_inv h
  rw [← Item.row_roots] at hrow
  exact ⟨c, more, places_of_inRow (fun p _ => ⟨_, Nat.le_refl _, rfl⟩) hrow, hafter⟩

/-- Every run of the packer over groups that succeeds is one of the relation. -/
theorem placesGroups_of_foldlM {capacity : Nat} {groups : List (List Decl)}
    {before after : Placement}
    (h : groups.foldlM (placeGroup capacity) before = .ok after) :
    PlacesGroups capacity groups before after := by
  induction groups generalizing before with
  | nil =>
    cases h
    exact .nil _
  | cons objects groups ih =>
    rw [List.foldlM_cons] at h
    obtain ⟨between, hgroup, h⟩ := bind_ok h
    obtain ⟨c, more, hplaces, rfl⟩ := placeGroup_ok hgroup
    exact .cons hplaces (ih h)

end Packing

/-- Packing that succeeds places all groups, and gives back the sectors they need. -/
theorem placesGroups_of_pack {capacity available : Nat} {groups : List (List Decl)}
    {sectors : List Sector} (h : pack capacity available groups = .ok sectors) :
    ∃ c placed, PlacesGroups capacity groups (⟨0, 0⟩, []) (c, placed) ∧
      sectorsNeeded placed ≤ available ∧
      sectors = (List.range (sectorsNeeded placed)).map (sectorOf placed) := by
  obtain ⟨⟨c, placed⟩, hgroups, h⟩ := bind_ok h
  dsimp only at h
  split at h
  · cases h
  · next hle =>
    cases h
    exact ⟨c, placed, placesGroups_of_foldlM hgroups, Nat.le_of_not_lt hle, rfl⟩

end BitLayout
