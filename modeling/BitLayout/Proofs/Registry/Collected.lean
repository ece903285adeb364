import BitLayout.Registry.Basic
import Mathlib.Data.List.Induction

/-!
# BitLayout.Proofs.Registry.Collected

The records of a module. Each record whose fields have names, and which is not generic, is kept, and
the name of several stands for the last of them.

* `Record.ofDefinition_cases`: which definitions declare a record;
* `Registry.records_collect`: the records of a registry are those that its items declare;
* `Registry.record?_collect`: the last record of a name is the one that is found.
-/

namespace BitLayout

/-- A definition that can be laid out: a record that is not generic, with names for its fields. -/
def RecordDefinition.LaidOut (d : RecordDefinition) : Prop :=
  d.generics.tokens = [] ∧ ∀ fields comma, d.body ≠ .positional fields comma

/-- A definition declares a record if it can be laid out, and only then. -/
theorem Record.ofDefinition_cases (d : RecordDefinition) :
    (d.LaidOut ∧ ∃ r, (Record.ofDefinition d).1 = some r ∧ r.name = d.name ∧
        r.reprC = hasReprC d.attrs) ∨
      (¬ d.LaidOut ∧ (Record.ofDefinition d).1 = none) := by
  unfold Record.ofDefinition
  split
  · next hgeneric =>
    refine .inr ⟨fun h => ?_, rfl⟩
    simp [h.1] at hgeneric
  · next hgeneric =>
    have hgeneric : d.generics.tokens = [] := by simpa using hgeneric
    cases hbody : d.body with
    | named fields comma =>
      exact .inl ⟨⟨hgeneric, fun _ _ h => nomatch hbody.symm.trans h⟩, _, rfl, rfl, rfl⟩
    | unit =>
      exact .inl ⟨⟨hgeneric, fun _ _ h => nomatch hbody.symm.trans h⟩, _, rfl, rfl, rfl⟩
    | positional fields comma => exact .inr ⟨fun h => h.2 _ _ hbody, rfl⟩

/-- The record that an item declares. -/
def Definition.declared? : Definition → Option Record
  | .record d => (Record.ofDefinition d).1
  | _ => none

namespace Registry

variable {items before later : List Definition} {d : RecordDefinition} {r : Record}

theorem records_add (g : Registry) (item : Definition) :
    (g.add item).1.records = item.declared?.toList ++ g.records := by
  cases item with
  | record d =>
    rw [add, Definition.declared?]
    cases Record.ofDefinition d with
    | mk found errors => cases found <;> rfl
  | typeAlias a =>
    rw [add]
    cases TypeAlias.ofDefinition a with
    | mk found errors => cases found <;> rfl
  | other fragment => rfl

/-- **Collecting**: the records of a registry are those that its items declare, the latest first,
even if other items have errors. -/
theorem records_collect (items : List Definition) :
    (collect items).1.records = (items.filterMap Definition.declared?).reverse := by
  induction items using List.reverseRecOn with
  | nil => rfl
  | append_singleton items item ih =>
    have hlast : (collect (items ++ [item])).1 = ((collect items).1.add item).1 := by
      unfold collect
      rw [List.foldl_append, List.foldl_cons, List.foldl_nil]
    rw [hlast, records_add, ih, List.filterMap_append, List.reverse_append]
    cases hitem : item.declared? <;> simp [hitem]

/-- The records of a registry are defined by items. -/
theorem definition_of_collect (h : r ∈ (collect items).1.records) :
    ∃ d, .record d ∈ items ∧ (Record.ofDefinition d).1 = some r := by
  rw [records_collect, List.mem_reverse, List.mem_filterMap] at h
  obtain ⟨item, hitem, hdeclared⟩ := h
  cases item with
  | record d => exact ⟨d, hitem, hdeclared⟩
  | typeAlias a => cases hdeclared
  | other fragment => cases hdeclared

/-- **The last record of a name** is the one that is found. -/
theorem record?_collect (hd : d.LaidOut)
    (hlast : ∀ e, .record e ∈ later → e.LaidOut → e.name ≠ d.name) :
    ∃ r, (collect (before ++ .record d :: later)).1.record? d.name = some r ∧
      r.reprC = hasReprC d.attrs := by
  rcases Record.ofDefinition_cases d with ⟨-, r, hdeclared, hname, hreprC⟩ | ⟨hnot, -⟩
  · refine ⟨r, ?_, hreprC⟩
    have hlater :
        (later.filterMap Definition.declared?).reverse.find? (·.name = d.name) = none := by
      rw [List.find?_eq_none]
      intro s hs
      rw [List.mem_reverse, List.mem_filterMap] at hs
      obtain ⟨item, hitem, hs⟩ := hs
      cases item with
      | record e =>
        rcases Record.ofDefinition_cases e with ⟨he, s', hs', hname', -⟩ | ⟨-, hnone⟩
        · obtain rfl := Option.some.inj (hs.symm.trans hs')
          simpa [hname'] using hlast e hitem he
        · cases hs.symm.trans hnone
      | typeAlias a => cases hs
      | other fragment => cases hs
    have hfilter : (Definition.record d :: later).filterMap Definition.declared? =
        r :: later.filterMap Definition.declared? :=
      List.filterMap_cons_some hdeclared
    rw [record?, records_collect, List.filterMap_append, hfilter, List.reverse_append,
      List.reverse_cons, List.append_assoc, List.find?_append, hlater]
    simp [hname]
  · exact absurd hd hnot

end Registry

end BitLayout
