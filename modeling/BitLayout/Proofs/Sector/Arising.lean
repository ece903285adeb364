import BitLayout.Proofs.Code.Planned
import BitLayout.Proofs.Sector.Flattening

/-!
# BitLayout.Proofs.Sector.Arising

The items of packed sectors come up between data objects and sectors: placing takes items apart and
adds padding, and merging joins runs of indices and drops those that cover a rank. What else is done
to lists of items, step by step, makes nothing else of the data objects either, as long as indices
stay within their ranks.

* `Edit.arises_apply`, `Edit.arises_run`: items that come up stay so under a step, and under a run.

Main statement: `arises_of_pack`.
-/

namespace BitLayout

theorem Item.inherited_arises (roots : List Decl) : Item.Inherited (Item.Arises roots) where
  expand := .expand
  beside bits trailing _ := .padding _ bits trailing
  branch bits trailing _ _ _ _ := .padding _ bits trailing
  between bits trailing := .padding _ bits trailing

/-- **The items of packed sectors** come up between the data objects and the sectors. -/
theorem arises_of_pack {roots : List Decl} {capacity available : Nat} {groups : List (List Decl)}
    {sectors : List Sector} (hgroups : ∀ objects ∈ groups, ∀ d ∈ objects, d ∈ roots)
    (hpack : pack capacity available groups = .ok sectors) :
    ∀ s ∈ sectors, ∀ i ∈ s.items, i.Arises roots := by
  refine inherits_of_pack (Item.inherited_arises roots) .uncovered .join (fun d hd => ?_) hpack
  obtain ⟨objects, hobjects, hd⟩ := List.mem_flatten.1 hd
  exact .root (hgroups objects hobjects d hd)

/-! ## steps -/

namespace Edit

/-- An index that a step applies stands behind all others, and is within the rank that it is for. -/
def Fits (items : List Item) : Edit → Prop
  | index position a => ∀ cs p, items[position]? = some ⟨cs, .value p⟩ →
    p.last.slice? = none ∧ ∃ extent rest, p.last.remaining = extent :: rest ∧ a.stop ≤ extent
  | _ => True

/-- All steps of a run fit, each where the ones before it have come to. -/
def FitsAll : List Item → List Edit → Prop
  | _, [] => True
  | items, e :: edits => e.Fits items ∧ FitsAll (e.apply items) edits

variable {roots : List Decl} {items : List Item} {e : Edit}

/-- Where one item is replaced, the others stay. -/
theorem forall_replaceAt {P : Item → Prop} {position : Nat} {f : Item → List Item}
    (h : ∀ i ∈ items, P i) (hf : ∀ i, items[position]? = some i → ∀ j ∈ f i, P j) :
    ∀ j ∈ replaceAt position f items, P j := by
  intro j hj
  rcases List.mem_append.1 hj with hj | hj
  · rcases List.mem_append.1 hj with hj | hj
    · exact h j (List.mem_of_mem_take hj)
    · cases hi : items[position]? with
      | none => simp [hi] at hj
      | some i => exact hf i hi j (by simpa [hi] using hj)
  · exact h j (List.mem_of_mem_drop hj)

/-- A step makes items that come up of items that come up. -/
theorem arises_apply (h : ∀ i ∈ items, i.Arises roots) (he : e.Fits items) :
    ∀ j ∈ e.apply items, j.Arises roots := by
  have hat {position : Nat} {i : Item} (hi : items[position]? = some i) : i.Arises roots :=
    h i (List.mem_of_getElem? hi)
  cases e with
  | expand position => exact forall_replaceAt h fun i hi j hj => (hat hi).expand hj
  | expandAll =>
    intro j hj
    obtain ⟨i, hi, hj⟩ := List.mem_flatMap.1 hj
    exact (h i hi).expand hj
  | flatten position threshold =>
    exact forall_replaceAt h fun i hi => Item.forall_flatten .expand (hat hi)
  | index position a =>
    refine forall_replaceAt h fun i hi => List.forall_mem_singleton.2 ?_
    obtain ⟨cs, content⟩ := i
    cases content with
    | padding bits trailing => exact hat hi
    | value p =>
      obtain ⟨hs, extent, rest, hr, ha⟩ := he cs p hi
      exact (hat hi).slice hs hr ha
  | pad position bits trailing =>
    refine forall_replaceAt h fun i hi => List.forall_mem_cons.2 ⟨hat hi, ?_⟩
    exact List.forall_mem_singleton.2 (.padding _ bits trailing)
  | drop position => exact fun j hj => h j (List.mem_of_mem_eraseIdx hj)
  | copy position =>
    intro j hj
    rcases List.mem_append.1 hj with hj | hj
    · exact h j hj
    · exact hat (Option.mem_toList.1 hj)
  | merge => exact forall_mergeItems .uncovered .join h

/-- **Runs of steps** make items that come up of items that come up. -/
theorem arises_run {edits : List Edit} (h : ∀ i ∈ items, i.Arises roots)
    (hfits : FitsAll items edits) : ∀ j ∈ edits.foldl apply items, j.Arises roots := by
  induction edits generalizing items with
  | nil => exact h
  | cons e edits ih => exact ih (arises_apply h hfits.1) hfits.2

/-- Whatever is done to the data objects, step by step, makes items that come up. -/
theorem arises_edited {edits : List Edit} (hfits : FitsAll (roots.map Item.root) edits) :
    ∀ j ∈ edits.foldl apply (roots.map Item.root), j.Arises roots :=
  arises_run (List.forall_mem_map.2 fun _ hd => .root hd) hfits

end Edit

end BitLayout
