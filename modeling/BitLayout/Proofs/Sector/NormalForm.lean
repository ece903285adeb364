import BitLayout.Proofs.Decl.Numbers
import BitLayout.Proofs.Sector.Flattening
import BitLayout.Proofs.Sector.LeafOffsets
import BitLayout.Proofs.Sector.Obtained

/-!
# BitLayout.Proofs.Sector.NormalForm

What merging does to the items that can come up, in every model, with errors or without. Passes are
repeated until one changes nothing, which they come to whatever the items are. All that changes on
the way is how the pieces of arrays are put together: the leaves stay, and so does where they begin.

Main statement: `merging_of_build`.
-/

namespace BitLayout

/-- **Merging keeps what travels, and comes to rest.** For items that are obtained from the data
objects of any model:

* after as many passes as the list has weight, one more changes nothing;
* the leaves are those of the list before, padding included, and begin where they did;
* the list takes the bits that it took;
* no two neighbours can be joined, and no last index covers its rank;
* merging again changes nothing. -/
theorem merging_of_build {c : Config} {g : Registry} {m : Model} (hbuild : Model.build c g = some m)
    {items : List Item} (hitems : ∀ i ∈ items, i.Obtained m.roots) :
    mergeItems items = mergePass^[mergeWeight items] items ∧
      mergePass (mergeItems items) = mergeItems items ∧
      (mergeItems items).flatMap Item.leaves = items.flatMap Item.leaves ∧
      Sector.leafOffsets ⟨mergeItems items⟩ = Sector.leafOffsets ⟨items⟩ ∧
      Sector.bitLength ⟨mergeItems items⟩ = Sector.bitLength ⟨items⟩ ∧
      (mergeItems items).IsChain (fun i j => i.join? j = none) ∧
      (∀ i ∈ mergeItems items, i.coversRank = false) ∧
      mergeItems (mergeItems items) = mergeItems items := by
  have hm := Model.numbered_of_build hbuild
  have hregroups := regroups_mergeItems hm fun i hi => ((hitems i hi).solid hm).lies
  obtain ⟨hfixed, hsettled⟩ := settled_mergeItems items
  exact ⟨mergeWithin_eq _ items, hfixed, hregroups.leaves_eq.symm,
    Sector.leafOffsets_of_regroups hregroups, Sector.bitLength_of_regroups hregroups,
    hsettled.apart, hsettled.uncovered, mergeItems_of_fixed hfixed⟩

namespace Sample

/-- The data objects, with every item taken apart, and everything that comes of that once more. -/
def piecesOf (m : Model) : List Item :=
  ((m.roots.map Item.root).flatMap Item.expand).flatMap Item.expand

theorem merged_pieces : (Model.build onGrid gridded).map (fun m =>
    ((piecesOf m).length, (mergeItems (piecesOf m)).map Item.text)) =
      some (7, ["obj.grid", "obj.tail"]) := by
  decide +kernel

/-- The rows of the grid and the single bytes are put together again. -/
theorem merged_grid : ∃ m, Model.build onGrid gridded = some m ∧
    (mergeItems (piecesOf m)).map Item.text = ["obj.grid", "obj.tail"] ∧
    (mergeItems (piecesOf m)).flatMap Item.leaves = (piecesOf m).flatMap Item.leaves ∧
    Sector.leafOffsets ⟨mergeItems (piecesOf m)⟩ = Sector.leafOffsets ⟨piecesOf m⟩ ∧
    mergeItems (mergeItems (piecesOf m)) = mergeItems (piecesOf m) := by
  obtain ⟨m, hm, hshape⟩ := Option.map_eq_some_iff.1 merged_pieces
  have hobtained : ∀ i ∈ piecesOf m, i.Obtained m.roots :=
    Item.obtained_expand (Item.obtained_expand Item.obtained_roots)
  obtain ⟨-, -, hleaves, hoffsets, -, -, -, hagain⟩ := merging_of_build hm hobtained
  exact ⟨m, hm, (Prod.mk.inj hshape).2, hleaves, hoffsets, hagain⟩

end Sample

end BitLayout
