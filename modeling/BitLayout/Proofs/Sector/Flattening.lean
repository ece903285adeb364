import BitLayout.Listing
import BitLayout.Proofs.Sector.InPlace
import Mathlib.Logic.Relation

/-!
# BitLayout.Proofs.Sector.Flattening

Items that are taken apart down to a threshold. An item with parts stays whole or comes to what its
parts come to, so flattening follows the parts as leaves do:

```
flatten(t, i)  =  [i]                                            an array that stays whole
flatten(t, i)  =  flatten(t, part 1) ++ flatten(t, part 2) ++ ..      any other item with parts
```

* `Item.flatten_flatten`: flattening again goes on to the smaller threshold;
* `Item.leaves_flatten`: flattening loses no leaves;
* `Item.expands_flatten`: flattening takes items apart in place, one after the other.

Main statement: `flattening_of_build`.
-/

namespace BitLayout

namespace Item

variable {threshold s t : Nat} {i : Item}

/-! ## through the levels -/

theorem flattenWithin_of_none (h : i.split? = none) (levels : Nat) :
    flattenWithin threshold levels i = [i] := by
  cases levels with
  | zero => rfl
  | succ levels => simp only [flattenWithin, h]

/-- More levels than there are change nothing. -/
theorem flattenWithin_congr {m n : Nat} (hm : i.height ≤ m) (hn : i.height ≤ n) :
    flattenWithin threshold m i = flattenWithin threshold n i := by
  induction m generalizing n i with
  | zero =>
    cases hs : i.split? with
    | none => rw [flattenWithin_of_none hs, flattenWithin_of_none hs]
    | some s =>
      have hpos := height_pos_of_canSplit (canSplit_of_split hs)
      omega
  | succ m ih =>
    cases hs : i.split? with
    | none => rw [flattenWithin_of_none hs, flattenWithin_of_none hs]
    | some s =>
      have hpos := height_pos_of_canSplit (canSplit_of_split hs)
      cases n with
      | zero => omega
      | succ n =>
        simp only [flattenWithin, hs]
        split
        · rfl
        · refine List.flatMap_congr fun part hp => ?_
          have hlt := height_lt_of_split hs part hp
          exact ih (by omega) (by omega)

/-- An item without parts stays as it is. -/
theorem flatten_of_none (h : i.split? = none) : i.flatten threshold = [i] :=
  flattenWithin_of_none h _

/-- An array that stays whole stays as it is. -/
theorem flatten_of_staysWhole (h : i.staysWhole threshold = true) : i.flatten threshold = [i] := by
  cases hs : i.split? with
  | none => exact flatten_of_none hs
  | some s =>
    have hpos := height_pos_of_canSplit (canSplit_of_split hs)
    rw [flatten, flattenWithin_congr (Nat.le_refl _) (Nat.le_succ _), flattenWithin]
    simp only [hs, h, if_true]

/-- Any other item comes to what its parts come to. -/
theorem flatten_of_split {split : Split} (hs : i.split? = some split)
    (h : i.staysWhole threshold = false) :
    i.flatten threshold = split.items.flatMap (flatten threshold) := by
  rw [flatten, flattenWithin_congr (Nat.le_refl _) (Nat.le_succ _), flattenWithin]
  simp only [hs, h, Bool.false_eq_true, if_false]
  refine List.flatMap_congr fun part hp => ?_
  have hlt := height_lt_of_split hs part hp
  exact flattenWithin_congr (by omega) (Nat.le_refl _)

/-- What taking apart keeps, flattening keeps. -/
theorem forall_flatten {P : Item → Prop} (hexpand : ∀ {i j : Item}, P i → j ∈ i.expand → P j)
    (h : P i) : ∀ j ∈ i.flatten threshold, P j := by
  induction i using partsInduction with
  | whole i hnone =>
    rw [flatten_of_none hnone]
    exact List.forall_mem_singleton.2 h
  | split i split hsplit ih =>
    cases hwhole : i.staysWhole threshold with
    | true =>
      rw [flatten_of_staysWhole hwhole]
      exact List.forall_mem_singleton.2 h
    | false =>
      rw [flatten_of_split hsplit hwhole]
      intro j hj
      obtain ⟨part, hpart, hj⟩ := List.mem_flatMap.1 hj
      exact ih part hpart (hexpand h (by rwa [expand_of_split hsplit])) j hj

/-! ## thresholds -/

/-- An array stays whole under two thresholds if it does under the smaller one. -/
theorem staysWhole_min (s t : Nat) (i : Item) :
    i.staysWhole (min s t) = (i.staysWhole s && i.staysWhole t) := by
  unfold staysWhole
  cases i.last? with
  | none => rfl
  | some step =>
    simp only [Option.any_some, Nat.le_min, Bool.decide_and]
    cases step.isArray <;> cases step.decl.kind.isLeaf <;> simp

/-- An array that stays whole under one threshold only has more elements than the other. -/
theorem lt_of_staysWhole (ht : i.staysWhole t = true) (hs : i.staysWhole s = false) : s < t := by
  unfold staysWhole at ht hs
  cases hlast : i.last? with
  | none => simp [hlast] at ht
  | some step =>
    simp only [hlast, Option.any_some, Bool.and_eq_true, Bool.or_eq_true, decide_eq_true_eq] at ht
    simp only [hlast, Option.any_some, ht.1, Bool.true_and, Bool.or_eq_false_iff,
      decide_eq_false_iff_not] at hs
    obtain ⟨-, hleaf | hle⟩ := ht
    · rw [hs.1] at hleaf
      cases hleaf
    · omega

/-- Flattening again goes on to the smaller threshold. -/
theorem flatten_flatten (s t : Nat) (i : Item) :
    (i.flatten t).flatMap (flatten s) = i.flatten (min s t) := by
  induction i using partsInduction with
  | whole i hnone =>
    rw [flatten_of_none hnone, flatten_of_none hnone, List.flatMap_singleton, flatten_of_none hnone]
  | split i split hsplit ih =>
    cases ht : i.staysWhole t with
    | true =>
      rw [flatten_of_staysWhole ht, List.flatMap_singleton]
      cases hs : i.staysWhole s with
      | true =>
        have hmin : i.staysWhole (min s t) = true := by rw [staysWhole_min, hs, ht, Bool.and_self]
        rw [flatten_of_staysWhole hs, flatten_of_staysWhole hmin]
      | false => rw [Nat.min_eq_left (Nat.le_of_lt (lt_of_staysWhole ht hs))]
    | false =>
      have hmin : i.staysWhole (min s t) = false := by rw [staysWhole_min, ht, Bool.and_false]
      rw [flatten_of_split hsplit ht, flatten_of_split hsplit hmin, List.flatMap_assoc]
      exact List.flatMap_congr ih

/-- Flattening loses no leaves, and adds none. -/
theorem leaves_flatten (t : Nat) (i : Item) : (i.flatten t).flatMap leaves = i.leaves := by
  induction i using partsInduction with
  | whole i hnone => rw [flatten_of_none hnone, List.flatMap_singleton]
  | split i split hsplit ih =>
    cases ht : i.staysWhole t with
    | true => rw [flatten_of_staysWhole ht, List.flatMap_singleton]
    | false =>
      rw [flatten_of_split hsplit ht, leaves_of_split hsplit, List.flatMap_assoc]
      exact List.flatMap_congr ih

/-! ## in place -/

open Relation

namespace Expands

variable {xs ys items : List Item}

theorem append_left (h : Expands xs ys) (items : List Item) :
    Expands (xs ++ items) (ys ++ items) := by
  induction h with
  | head i xs =>
    rw [List.append_assoc]
    exact .head i (xs ++ items)
  | tail i _ ih => exact .tail i ih

/-- Items that each come to others in place do so together. -/
theorem flatMap {f : Item → List Item} (h : ∀ i ∈ items, ReflTransGen Expands [i] (f i)) :
    ReflTransGen Expands items (items.flatMap f) := by
  induction items with
  | nil => exact .refl
  | cons i items ih =>
    obtain ⟨hi, hitems⟩ := List.forall_mem_cons.1 h
    have hfirst : ReflTransGen Expands ([i] ++ items) (f i ++ items) :=
      hi.lift (· ++ items) fun _ _ hexp => hexp.append_left items
    have hrest : ReflTransGen Expands (f i ++ items) (f i ++ items.flatMap f) := by
      refine (ih hitems).lift (f i ++ ·) fun xs ys hexp => ?_
      induction f i with
      | nil => exact hexp
      | cons j front ih => exact .tail j ih
    exact hfirst.trans hrest

end Expands

/-- Flattening takes items apart in place, one after the other. -/
theorem expands_flatten (t : Nat) (i : Item) : ReflTransGen Expands [i] (i.flatten t) := by
  induction i using partsInduction with
  | whole i hnone => rw [flatten_of_none hnone]
  | split i split hsplit ih =>
    cases ht : i.staysWhole t with
    | true => rw [flatten_of_staysWhole ht]
    | false =>
      have hhead : Expands [i] split.items := by
        have hexp := Expands.head i []
        rwa [expand_of_split hsplit, List.append_nil] at hexp
      rw [flatten_of_split hsplit ht]
      exact .head hhead (Expands.flatMap ih)

end Item

/-- What values come to in place, they still come to if more is taken apart. -/
theorem Spreads.expandAll {cs : List Condition} {ps : List Path} {items out : List Item}
    (h : Spreads cs ps items) (hexp : Relation.ReflTransGen Item.Expands items out) :
    Spreads cs ps out := by
  induction hexp with
  | refl => exact h
  | tail _ hstep ih => exact ih.expand hstep

/-- **Flattening composes and covers everything.** Flattening to one threshold and then to another
is flattening to the smaller one, so flattening again changes nothing, and a smaller threshold
refines a larger one. No leaves are lost. In a model without errors, what a data object comes to
takes the bits of the data object, which are the ones at the head of its listing. -/
theorem flattening_of_build {c : Config} {g : Registry} {m : Model}
    (h : Model.build c g = some m) (he : m.errors = []) (s t : Nat) :
    (∀ i : Item, (i.flatten t).flatMap (Item.flatten s) = i.flatten (min s t) ∧
      (i.flatten t).flatMap Item.leaves = i.leaves) ∧
    ∀ d ∈ m.roots, Sector.bitLength ⟨(Item.root d).flatten t⟩ = d.bits ∧
      (objectListing t d).head? = some (d.name ++ ": " ++
        toString (Sector.bitLength ⟨(Item.root d).flatten t⟩) ++ " bits") := by
  have hm := Model.sound_of_build h he
  refine ⟨fun i => ⟨i.flatten_flatten s t, i.leaves_flatten t⟩, fun d hd => ?_⟩
  have hrow : Row m.roots [] ([d].map Path.root) :=
    .ofRoots (List.forall_mem_singleton.2 hd) (List.pairwise_singleton ..)
  have hspreads := (Spreads.ofRow [] [Path.root d]).expandAll (Item.expands_flatten t (Item.root d))
  obtain ⟨us, hus, -⟩ := hspreads.aligned hm hrow
  have hbits : Sector.bitLength ⟨(Item.root d).flatten t⟩ = d.bits := by
    rw [Sector.bitLength_eq hus, show [Path.root d] = [d].map Path.root from rfl,
      Path.sumBits_roots, List.map_singleton, List.sum_singleton]
  refine ⟨hbits, ?_⟩
  rw [hbits]
  rfl

namespace Sample

/-- An array type of a length. -/
def arrayOf (elem : TypeExpr) (length : String) : TypeExpr :=
  .array elem ⟨.ofTokens [.literal length], some length⟩

/-- A struct of a grid of cells, which are structs themselves, and some bytes. -/
def gridded : Registry where
  records := [
    ⟨"Cell", .struct, [⟨"x", .name "u8", Request.empty⟩, ⟨"on", .name "bool", Request.empty⟩],
      Request.empty, false⟩,
    ⟨"S", .struct, [⟨"grid", arrayOf (arrayOf (.name "Cell") "2") "3", Request.empty⟩,
      ⟨"tail", arrayOf (.name "u8") "4", Request.empty⟩], Request.empty, false⟩]
  aliases := []

/-- One data object, which is the struct. -/
def onGrid : Config := { config with groups := [[⟨"obj", .name "S"⟩]] }

/-- The layout of the grid is built without errors, and one data object comes out of it. -/
theorem built_grid : (Model.build onGrid gridded).map (fun m =>
    (m.errors, m.roots.map fun d => (d.name, d.bits))) = some ([], [("obj", 86)]) := by
  decide +kernel

/-- Down to arrays of two cells, and from there to the fields of every cell. -/
theorem flattened_grid : ∃ m d, Model.build onGrid gridded = some m ∧ m.errors = [] ∧
    m.roots = [d] ∧
    ((Item.root d).flatten 2).flatMap (Item.flatten 0) = (Item.root d).flatten 0 ∧
    ((Item.root d).flatten 2).flatMap Item.leaves = (Item.root d).leaves ∧
    Sector.bitLength ⟨(Item.root d).flatten 2⟩ = 86 ∧
    (objectListing 2 d).head? = some "obj: 86 bits" := by
  obtain ⟨m, hm, hshape⟩ := Option.map_eq_some_iff.1 built_grid
  obtain ⟨herrors, hroots⟩ := Prod.mk.inj hshape
  obtain ⟨d, rest, hd, hbits, hrest⟩ := List.map_eq_cons_iff.1 hroots
  obtain rfl := List.map_eq_nil_iff.1 hrest
  obtain ⟨hname, hbits⟩ := Prod.mk.inj hbits
  obtain ⟨hitems, hobjects⟩ := flattening_of_build hm herrors 0 2
  obtain ⟨hlength, hheader⟩ := hobjects d (hd ▸ List.mem_singleton_self d)
  rw [hlength, hname, hbits] at hheader
  exact ⟨m, d, hm, herrors, hd, (hitems _).1, (hitems _).2, hlength.trans hbits, hheader⟩

end Sample

end BitLayout
