import BitLayout.Sector.Merge
import Mathlib.Data.List.Chain
import Mathlib.Logic.Function.Iterate

/-!
# BitLayout.Proofs.Sector.Settled

Where merging comes to rest. Every change of a pass takes weight away, so a pass that leaves the
weight alone changes nothing, and there is no more to do: no last index covers its rank, and no two
neighbours continue each other. Lists of this kind are *settled*.

* `settled_of_mergeWeight`: a pass that takes no weight away finds a settled list;
* `settled_mergeItems`: merging settles every list, within as many passes as the list has weight.
-/

namespace BitLayout

/-- Nothing is left to merge: no last index covers its rank, and no neighbours can be joined. -/
structure Settled (items : List Item) : Prop where
  uncovered : ∀ i ∈ items, i.coversRank = false
  apart : items.IsChain fun a b => a.join? b = none

variable {items : List Item} {i : Item}

/-! ## one item -/

theorem Item.weight_pos (i : Item) : 0 < i.weight := by
  unfold weight
  cases i.last? with
  | none => exact Nat.one_pos
  | some s => exact Nat.succ_pos _

/-- An item without an index that covers its rank stays as it is. -/
theorem Item.uncovered_of_not_covers (h : i.coversRank = false) : i.uncovered = i := by
  obtain ⟨cs, content⟩ := i
  cases content with
  | padding => rfl
  | value p =>
    have hcovers : p.last.coversRank = false := h
    change (⟨cs, .value { p with last := p.last.uncovered }⟩ : Item) = _
    rw [Step.uncovered, if_neg (by simp [hcovers])]

/-- Leaving out an index takes weight away. -/
theorem Item.weight_uncovered_lt (h : i.coversRank = true) : i.uncovered.weight < i.weight := by
  obtain ⟨cs, content⟩ := i
  cases content with
  | padding => cases h
  | value p =>
    have hcovers : p.last.coversRank = true := h
    have hne : p.last.accesses ≠ [] := by
      intro hnil
      simp [Step.coversRank, hnil] at hcovers
    have hlen := List.length_pos_iff.2 hne
    change p.last.uncovered.accesses.length + 1 < p.last.accesses.length + 1
    rw [Step.uncovered, if_pos hcovers, List.length_dropLast]
    omega

/-- An item that keeps its weight has no index that covers its rank. -/
theorem Item.not_covers_of_weight (h : i.weight ≤ i.uncovered.weight) : i.coversRank = false := by
  cases hcovers : i.coversRank with
  | false => rfl
  | true =>
    have hlt := i.weight_uncovered_lt hcovers
    omega

/-- If adding an item to those of a pass takes no weight away, it is added behind them. -/
theorem mergeOnto_of_mergeWeight (done : List Item) (i : Item)
    (h : mergeWeight done + i.weight ≤ mergeWeight (mergeOnto done i)) :
    mergeOnto done i = i :: done ∧ ∀ before ∈ done.head?, before.join? i = none := by
  unfold mergeOnto at h ⊢
  split at h
  · exact ⟨rfl, fun _ hb => (nomatch hb)⟩
  · next before earlier =>
    split at h
    · next joined hjoin =>
      have hpos := i.weight_pos
      simp only [mergeWeight, Item.weight_join hjoin] at h
      omega
    · next hjoin =>
      refine ⟨rfl, fun b hb => ?_⟩
      cases hb
      exact hjoin

/-! ## one pass -/

/-- Items behind those of a pass are added one by one if that takes no weight away. -/
theorem settled_of_foldl (done items : List Item)
    (h : mergeWeight done + mergeWeight items ≤
      mergeWeight ((items.map Item.uncovered).foldl mergeOnto done)) :
    (items.map Item.uncovered).foldl mergeOnto done = items.reverse ++ done ∧
      (∀ i ∈ items, i.coversRank = false) ∧
      (done.head?.toList ++ items).IsChain fun a b => a.join? b = none := by
  induction items generalizing done with
  | nil =>
    refine ⟨rfl, fun _ hi => (nomatch hi), ?_⟩
    cases done <;> simp
  | cons i items ih =>
    rw [List.map_cons, List.foldl_cons] at h ⊢
    have hrest : mergeWeight ((items.map Item.uncovered).foldl mergeOnto
        (mergeOnto done i.uncovered)) ≤
        mergeWeight (mergeOnto done i.uncovered) + mergeWeight items :=
      mergeWeight_foldl_le ..
    have honto := mergeWeight_mergeOnto_le done i.uncovered
    have hle := i.weight_uncovered_le
    rw [mergeWeight] at h
    have hcovers : i.coversRank = false := Item.not_covers_of_weight (by omega)
    rw [Item.uncovered_of_not_covers hcovers] at h hrest honto ⊢
    obtain ⟨heq, hjoin⟩ := mergeOnto_of_mergeWeight done i (by omega)
    rw [heq] at h ⊢
    obtain ⟨hfold, huncovered, hchain⟩ := ih (i :: done) (by rw [mergeWeight]; omega)
    refine ⟨by rw [hfold, List.reverse_cons, List.append_assoc]; rfl,
      List.forall_mem_cons.2 ⟨hcovers, huncovered⟩, ?_⟩
    cases done with
    | nil => exact hchain
    | cons before earlier => exact List.isChain_cons_cons.2 ⟨hjoin before rfl, hchain⟩

/-- A pass that takes no weight away changes nothing, and finds a settled list. -/
theorem settled_of_mergeWeight (h : mergeWeight (mergePass items) = mergeWeight items) :
    mergePass items = items ∧ Settled items := by
  rw [mergePass, mergeWeight_reverse] at h
  obtain ⟨hfold, huncovered, hchain⟩ :=
    settled_of_foldl [] items (by simp [mergeWeight, h])
  refine ⟨?_, huncovered, hchain⟩
  rw [mergePass, hfold, List.append_nil, List.reverse_reverse]

/-! ## all passes -/

theorem mergeWithin_eq (passes : Nat) (items : List Item) :
    mergeWithin passes items = mergePass^[passes] items := by
  induction passes generalizing items with
  | zero => rfl
  | succ passes ih =>
    rw [mergeWithin, Function.iterate_succ_apply]
    split
    · next hweight =>
      have hfixed := (settled_of_mergeWeight hweight).1
      rw [hfixed, Function.iterate_fixed hfixed]
    · exact ih _

/-- As many passes as a list has weight leave a list of which a pass takes no more away. -/
theorem mergeWeight_mergeWithin {passes : Nat} (h : mergeWeight items ≤ passes) :
    mergeWeight (mergePass (mergeWithin passes items)) =
      mergeWeight (mergeWithin passes items) := by
  induction passes generalizing items with
  | zero =>
    cases items with
    | nil => rfl
    | cons i items =>
      have hpos := i.weight_pos
      rw [mergeWeight] at h
      omega
  | succ passes ih =>
    rw [mergeWithin]
    split
    · next hweight => exact hweight
    · next hweight =>
      have hle := mergeWeight_mergePass_le items
      exact ih (by omega)

/-- **Merging settles**: one more pass changes nothing, and nothing is left to merge. -/
theorem settled_mergeItems (items : List Item) :
    mergePass (mergeItems items) = mergeItems items ∧ Settled (mergeItems items) :=
  settled_of_mergeWeight (mergeWeight_mergeWithin (Nat.le_refl _))

/-- Merging leaves what a pass leaves. -/
theorem mergeItems_of_fixed (h : mergePass items = items) : mergeItems items = items := by
  rw [mergeItems, mergeWithin_eq, Function.iterate_fixed h]

end BitLayout
