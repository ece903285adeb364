import BitLayout.Proofs.Item.Sizes
import BitLayout.Proofs.Sector.Content

/-!
# BitLayout.Proofs.Sector.Leafwise

Placing what fits whole is a shortcut. Another packer takes everything apart first, unions branch by
branch, and asks only of leaves whether they fit. It does the same:

* `leafwise_of_fits`: a value that fits takes its bits leaf by leaf as well, padding included;
* `alike_of_place`: both packers fail alike, or end alike with the same leaves in the same sectors;
* `leafwise_of_place`: so every leaf that travels gets the same sector and the same offset.
-/

namespace BitLayout

open Packing

theorem Item.bits_of_omitted {i : Item} (h : i.isOmitted = true) : i.bits = 0 := by
  obtain ⟨cs, content⟩ := i
  cases content with
  | padding bits trailing => cases h
  | value p => exact Step.bits_of_omitted h

/-- The sizes of what a union is taken apart into. -/
theorem Path.Switch.bits_branches {g : Registry} {records : List (String × List Decl)} {p : Path}
    {shared : List Path} {arms : List Variant} (hs : p.Switch shared arms) (cs : List Condition)
    (hd : p.last.decl.Everywhere (Decl.Sound g records)) :
    Item.sumBits (Item.row cs shared) ≤ p.last.bits ∧
    (∀ b ∈ arms.map (Variant.branch cs p),
      Item.sumBits (Item.row cs shared) + Item.sumBits b.parts + b.slack = p.last.bits) ∧
    (Item.sumBits (Item.row cs shared) = p.last.bits ∨
      ∃ b ∈ arms.map (Variant.branch cs p), b.slack = 0) := by
  rw [Item.sumBits_row]
  refine ⟨hs.bits_shared_le hd, fun b hb => ?_, ?_⟩
  · obtain ⟨a, ha, rfl⟩ := List.mem_map.1 hb
    rw [Variant.branch, Item.sumBits_row]
    exact hs.bits_arm hd ha
  · obtain hfull | ⟨a, ha, hzero⟩ := hs.full hd
    · exact .inl hfull
    · exact .inr ⟨_, List.mem_map_of_mem ha, hzero⟩

theorem Cursor.Upto.antisymm {c d : Cursor} (h : c.Upto d) (h' : d.Upto c) : c = d := by
  obtain ⟨sector, used⟩ := c
  obtain ⟨sector', used'⟩ := d
  simp only [Upto, Cursor.mk.injEq] at *
  omega

namespace Packing

/-! ## the packer of leaves -/

/-- Place a union: what its variants share, and then each branch from the same start. -/
def inUnion (capacity : Nat) (one : Item → Cursor → Except PackError Placement) (shared : List Item)
    (branches : List Branch) (c : Cursor) : Except PackError Placement := do
  let (start, placed) ← inRow one shared c
  let ends ← inBranches one start branches
  let (finish, others) := joinBranches capacity start ends
  return (finish, placed ++ others)

/-- Place an item that is not taken apart: in this sector if it fits, or else in the next. -/
def placeWhole (capacity : Nat) (i : Item) (c : Cursor) : Except PackError Placement :=
  if c.used + i.bits ≤ capacity then .ok (⟨c.sector, c.used + i.bits⟩, [⟨c.sector, i⟩])
  else if i.bits > capacity then .error (.tooLarge i.bits capacity)
  else .ok (⟨c.sector + 1, i.bits⟩, fill capacity i.conditions c ++ [⟨c.sector + 1, i⟩])

/-- Place an item leaf by leaf, whether it fits or not, taking it apart through at most `levels`
levels. -/
def leafwiseWithin (capacity : Nat) :
    (levels : Nat) → Item → Cursor → Except PackError Placement
  | levels, i, c =>
    if i.isOmitted then .ok (c, if i.isDefaulted then [⟨c.sector, i⟩] else [])
    else
      match i.split?, levels with
      | some (.row parts), levels + 1 => inRow (leafwiseWithin capacity levels) parts c
      | some (.union shared branches), levels + 1 =>
        inUnion capacity (leafwiseWithin capacity levels) shared branches c
      | _, _ => placeWhole capacity i c

/-- Place an item leaf by leaf, whether it fits or not. -/
def leafwise (capacity : Nat) (i : Item) (c : Cursor) : Except PackError Placement :=
  leafwiseWithin capacity i.height i c

/-! ## levels -/

section

variable {capacity : Nat} {one two : Item → Cursor → Except PackError Placement}
  {items shared : List Item} {branches : List Branch} {cs : List Condition} {p : Path}
  {ps : List Path}

theorem inRow_congr (h : ∀ i ∈ items, one i = two i) : inRow one items = inRow two items := by
  induction items with
  | nil => rfl
  | cons i items ih =>
    obtain ⟨hi, hitems⟩ := List.forall_mem_cons.1 h
    funext c
    simp [inRow, hi, ih hitems]

theorem inBranches_congr (h : ∀ b ∈ branches, ∀ i ∈ b.parts, one i = two i) (c : Cursor) :
    inBranches one c branches = inBranches two c branches := by
  induction branches with
  | nil => rfl
  | cons b branches ih =>
    obtain ⟨hb, hbranches⟩ := List.forall_mem_cons.1 h
    simp [inBranches, inRow_congr hb, ih hbranches]

theorem inUnion_congr (hshared : ∀ i ∈ shared, one i = two i)
    (hbranches : ∀ b ∈ branches, ∀ i ∈ b.parts, one i = two i) (c : Cursor) :
    inUnion capacity one shared branches c = inUnion capacity two shared branches c := by
  simp [inUnion, inRow_congr hshared, inBranches_congr hbranches]

theorem leafwiseWithin_of_omitted {i : Item} (h : i.isOmitted = true) (n : Nat) (c : Cursor) :
    leafwiseWithin capacity n i c =
      .ok (c, if i.isDefaulted then [⟨c.sector, i⟩] else []) := by
  unfold leafwiseWithin
  rw [if_pos h]

theorem leafwiseWithin_of_whole {i : Item} (homit : i.isOmitted = false) (h : i.split? = none)
    (n : Nat) (c : Cursor) : leafwiseWithin capacity n i c = placeWhole capacity i c := by
  unfold leafwiseWithin
  simp [homit, h]

/-- What is taken apart is not left out. -/
theorem isOmitted_of_split {i : Item} {s : Split} (h : i.split? = some s) :
    i.isOmitted = false := by
  obtain ⟨cs, p, rfl, homit, -⟩ := Item.split_cases h
  exact homit

theorem leafwiseWithin_row {i : Item} {parts : List Item} (h : i.split? = some (.row parts))
    (n : Nat) (c : Cursor) :
    leafwiseWithin capacity (n + 1) i c = inRow (leafwiseWithin capacity n) parts c := by
  conv_lhs => unfold leafwiseWithin
  simp [isOmitted_of_split h, h]

theorem leafwiseWithin_union {i : Item} (h : i.split? = some (.union shared branches)) (n : Nat)
    (c : Cursor) : leafwiseWithin capacity (n + 1) i c =
      inUnion capacity (leafwiseWithin capacity n) shared branches c := by
  conv_lhs => unfold leafwiseWithin
  simp [isOmitted_of_split h, h]

/-- Levels do not matter to what is not taken apart. -/
theorem leafwiseWithin_of_split_none {i : Item} (h : i.split? = none) (n k : Nat) :
    leafwiseWithin capacity n i = leafwiseWithin capacity k i := by
  funext c
  cases homit : i.isOmitted with
  | true => rw [leafwiseWithin_of_omitted homit, leafwiseWithin_of_omitted homit]
  | false => rw [leafwiseWithin_of_whole homit h, leafwiseWithin_of_whole homit h]

/-- More levels than there are change nothing. -/
theorem leafwiseWithin_congr {n k : Nat} {i : Item} (hn : i.height ≤ n) (hk : i.height ≤ k) :
    leafwiseWithin capacity n i = leafwiseWithin capacity k i := by
  cases hsplit : i.split? with
  | none => exact leafwiseWithin_of_split_none hsplit n k
  | some s =>
    have hpos := Item.height_pos_of_canSplit (Item.canSplit_of_split hsplit)
    have hlt := Item.height_lt_of_split hsplit
    obtain ⟨n, rfl⟩ : ∃ n', n = n' + 1 := ⟨n - 1, by omega⟩
    obtain ⟨k, rfl⟩ : ∃ k', k = k' + 1 := ⟨k - 1, by omega⟩
    have hparts : ∀ part ∈ s.items, leafwiseWithin capacity n part =
        leafwiseWithin capacity k part := by
      intro part hpart
      have hpart := hlt part hpart
      exact leafwiseWithin_congr (by omega) (by omega)
    funext c
    cases s with
    | row parts =>
      rw [leafwiseWithin_row hsplit, leafwiseWithin_row hsplit]
      exact congrFun (inRow_congr hparts) c
    | union shared branches =>
      rw [leafwiseWithin_union hsplit, leafwiseWithin_union hsplit]
      exact inUnion_congr (fun i hi => hparts i (Split.mem_items_of_shared hi))
        (fun b hb i hi => hparts i (Split.mem_items_of_branch hb hi)) c

/-! ## equations -/

theorem place_of_omitted {i : Item} (h : i.isOmitted = true) (levels : Nat) (c : Cursor) :
    place capacity levels i c = .ok (c, if i.isDefaulted then [⟨c.sector, i⟩] else []) := by
  unfold place
  rw [if_pos h]

theorem place_of_fits {i : Item} {c : Cursor} (homit : i.isOmitted = false)
    (hfit : c.used + i.bits ≤ capacity) (levels : Nat) :
    place capacity levels i c = .ok (⟨c.sector, c.used + i.bits⟩, [⟨c.sector, i⟩]) := by
  unfold place
  simp [homit, hfit]

theorem place_of_whole {i : Item} (homit : i.isOmitted = false) (h : i.split? = none)
    (levels : Nat) (c : Cursor) : place capacity levels i c = placeWhole capacity i c := by
  unfold place
  simp [homit, h, placeWhole]

theorem place_row {i : Item} {parts : List Item} {c : Cursor} (h : i.split? = some (.row parts))
    (hfit : ¬ c.used + i.bits ≤ capacity) (levels : Nat) :
    place capacity (levels + 1) i c = inRow (place capacity levels) parts c := by
  conv_lhs => unfold place
  simp [isOmitted_of_split h, hfit, h]

theorem place_union {i : Item} {c : Cursor} (h : i.split? = some (.union shared branches))
    (hfit : ¬ c.used + i.bits ≤ capacity) (levels : Nat) : place capacity (levels + 1) i c =
      inUnion capacity (place capacity levels) shared branches c := by
  conv_lhs => unfold place
  simp [isOmitted_of_split h, hfit, h, inUnion]

theorem leafwise_of_omitted (h : p.last.decl.isOmitted = true) (c : Cursor) :
    leafwise capacity ⟨cs, .value p⟩ c =
      .ok (c, if p.last.decl.encoding.default.isSome then [.value c cs p] else []) :=
  leafwiseWithin_of_omitted (show (Item.mk cs (.value p)).isOmitted = true from h) _ c

theorem leafwise_of_whole {i : Item} (homit : i.isOmitted = false) (h : i.split? = none)
    (c : Cursor) : leafwise capacity i c = placeWhole capacity i c :=
  leafwiseWithin_of_whole homit h _ c

/-- What is taken apart is placed part by part. -/
theorem leafwise_of_row {i : Item} {parts : List Item} (h : i.split? = some (.row parts))
    (c : Cursor) : leafwise capacity i c = inRow (leafwise capacity) parts c := by
  have hlt := Item.height_lt_of_split h
  rw [leafwise, leafwiseWithin_congr (Nat.le_refl _) (Nat.le_succ _), leafwiseWithin_row h]
  refine congrFun (inRow_congr fun part hpart => ?_) c
  have hpart := hlt part hpart
  exact leafwiseWithin_congr (Nat.le_of_lt hpart) (Nat.le_refl _)

/-- A union is placed branch by branch. -/
theorem leafwise_of_union {i : Item} (h : i.split? = some (.union shared branches))
    (c : Cursor) :
    leafwise capacity i c = inUnion capacity (leafwise capacity) shared branches c := by
  have hparts : ∀ part ∈ (Split.union shared branches).items,
      leafwiseWithin capacity i.height part = leafwise capacity part := by
    intro part hpart
    have hpart := Item.height_lt_of_split h part hpart
    exact leafwiseWithin_congr (Nat.le_of_lt hpart) (Nat.le_refl _)
  rw [leafwise, leafwiseWithin_congr (Nat.le_refl _) (Nat.le_succ _), leafwiseWithin_union h]
  exact inUnion_congr (fun i hi => hparts i (Split.mem_items_of_shared hi))
    (fun b hb i hi => hparts i (Split.mem_items_of_branch hb hi)) c

end

/-! ## what is placed, leaf by leaf -/

/-- What is placed, leaf by leaf. -/
def spread (placed : List Placed) : List Placed :=
  placed.flatMap fun x => (x.item.leaves.filter (!·.isDropped)).map (Placed.mk x.sector)

section

variable {capacity : Nat} {one two : Item → Cursor → Except PackError Placement}
  {items shared : List Item} {branches : List Branch} {cs : List Condition} {p : Path}
  {c start finish : Cursor} {g : Registry} {m : Model}

theorem spread_append (xs ys : List Placed) : spread (xs ++ ys) = spread xs ++ spread ys :=
  List.flatMap_append

theorem spread_flatMap {α : Type} (xs : List α) (f : α → List Placed) :
    spread (xs.flatMap f) = xs.flatMap fun x => spread (f x) := List.flatMap_assoc

/-- What one sector holds is told by its leaves. -/
theorem spread_map (s : Nat) (items : List Item) : spread (items.map (Placed.mk s)) =
    ((items.flatMap Item.leaves).filter (!·.isDropped)).map (Placed.mk s) := by
  induction items with
  | nil => rfl
  | cons i items ih =>
    rw [List.map_cons, spread, List.flatMap_cons, ← spread, ih, List.flatMap_cons,
      List.filter_append, List.map_append]

theorem spread_congr {is js : List Item} (h : is.flatMap Item.leaves = js.flatMap Item.leaves)
    (s : Nat) : spread (is.map (Placed.mk s)) = spread (js.map (Placed.mk s)) := by
  rw [spread_map, spread_map, h]

theorem spread_leaves (h : (Item.mk cs (.value p)).leaves = items.flatMap Item.leaves) :
    spread (items.map (Placed.mk c.sector)) = spread [.value c cs p] := by
  have hleaves : items.flatMap Item.leaves = [(⟨cs, .value p⟩ : Item)].flatMap Item.leaves := by
    rw [List.flatMap_singleton, h]
  exact spread_congr hleaves c.sector

/-- What is left out stands for itself, if it stands for anything. -/
theorem spread_of_omitted (h : p.last.decl.isOmitted = true) :
    spread (if p.last.decl.encoding.default.isSome then [.value c cs p] else []) =
      spread [.value c cs p] := by
  cases hdefault : p.last.decl.encoding.default.isSome with
  | true => rfl
  | false =>
    simp [spread, Placed.value, Item.leaves_of_whole (Item.canSplit_of_omitted h), Item.isDropped,
      Item.isOmitted, Item.isDefaulted, Item.last?, Item.path?, h, hdefault]

/-! ## placing parts -/

/-- A row is placed item by item. -/
theorem inRow_ok {i : Item} {d c' : Cursor} {front rest : List Placed}
    (hone : one i c = .ok (d, front)) (hrest : inRow one items d = .ok (c', rest)) :
    inRow one (i :: items) c = .ok (c', front ++ rest) := by
  rw [inRow, hone]
  change (inRow one items d >>= _) = _
  rw [hrest]
  rfl

/-- A union is placed if its shared parts and branches are. -/
theorem inUnion_ok {front : List Placed} {results : List (List Condition × Placement)}
    (hshared : inRow one shared c = .ok (start, front))
    (hbranches : inBranches one start branches = .ok results) :
    inUnion capacity one shared branches c = .ok ((joinBranches capacity start results).1,
      front ++ (joinBranches capacity start results).2) := by
  rw [inUnion, hshared]
  change (inBranches one start branches >>= _) = _
  rw [hbranches]
  rfl

/-- Branches are placed if each is. -/
theorem inBranches_ok {R : Branch → Placement → Prop}
    (h : ∀ b ∈ branches, ∃ placement, inRow one b.parts c = .ok placement ∧ R b placement) :
    ∃ ends : List (Branch × Placement), ends.map Prod.fst = branches ∧
      inBranches one c branches = .ok (ends.map fun e => (e.1.conditions, e.2)) ∧
      ∀ e ∈ ends, R e.1 e.2 := by
  induction branches with
  | nil => exact ⟨[], rfl, rfl, fun _ he => (nomatch he)⟩
  | cons b branches ih =>
    obtain ⟨⟨placement, hplacement, hb⟩, h⟩ := List.forall_mem_cons.1 h
    obtain ⟨ends, rfl, hends, hr⟩ := ih h
    refine ⟨(b, placement) :: ends, rfl, ?_, List.forall_mem_cons.2 ⟨hb, hr⟩⟩
    rw [inBranches, hplacement, hends]
    rfl

/-- A union ends no later than it must. -/
theorem joinBranches_upto {results : List (List Condition × Placement)} (hstart : start.Upto finish)
    (hstops : ∀ b ∈ results, b.2.1.Upto finish) :
    (joinBranches capacity start results).1.Upto finish := by
  induction results generalizing start with
  | nil => exact hstart
  | cons b results ih =>
    obtain ⟨hb, hstops⟩ := List.forall_mem_cons.1 hstops
    have hlater : (start.later b.2.1).Upto finish := by
      unfold Cursor.later
      split
      · exact hb
      · exact hstart
    exact ih hlater hstops

/-! ## what fits -/

/-- Whether a packer gives an item that fits the bits it takes, and places its leaves, padding
included. -/
def Keeps (capacity : Nat) (one : Item → Cursor → Except PackError Placement) (i : Item) : Prop :=
  ∀ c : Cursor, c.used + i.bits ≤ capacity →
    ∃ out, one i c = .ok (⟨c.sector, c.used + i.bits⟩, out) ∧ spread out = spread [⟨c.sector, i⟩]

theorem inRow_of_fits (hone : ∀ i ∈ items, Keeps capacity one i)
    (hfit : c.used + Item.sumBits items ≤ capacity) :
    ∃ out, inRow one items c = .ok (⟨c.sector, c.used + Item.sumBits items⟩, out) ∧
      spread out = spread (items.map (Placed.mk c.sector)) := by
  induction items generalizing c with
  | nil => exact ⟨[], rfl, rfl⟩
  | cons i items ih =>
    obtain ⟨hi, hitems⟩ := List.forall_mem_cons.1 hone
    rw [Item.sumBits, ← Nat.add_assoc] at hfit
    obtain ⟨first, hfirst, hspread⟩ := hi c (by omega)
    obtain ⟨rest, hrest, hspread'⟩ := ih (c := ⟨c.sector, c.used + i.bits⟩) hitems hfit
    refine ⟨first ++ rest, ?_, ?_⟩
    · rw [inRow_ok hfirst hrest, Item.sumBits, ← Nat.add_assoc]
    · rw [List.map_cons, spread_append, hspread, hspread']
      exact (spread_append [_] _).symm

/-- A union whose branches and slacks end at one position of its sector ends there, and padding
takes up the slacks. -/
theorem joinBranches_of_slack (capacity : Nat) (start finish : Cursor)
    {ends : List (Branch × Placement)} (hsector : start.sector = finish.sector)
    (hused : start.used ≤ finish.used)
    (hends : ∀ e ∈ ends, e.2.1.sector = finish.sector ∧ e.2.1.used + e.1.slack = finish.used ∧
      spread e.2.2 = spread (e.1.parts.map (Placed.mk start.sector)))
    (hfull : start.used = finish.used ∨ ∃ e ∈ ends, e.1.slack = 0) :
    (joinBranches capacity start (ends.map fun e => (e.1.conditions, e.2))).1 = finish ∧
      spread (joinBranches capacity start (ends.map fun e => (e.1.conditions, e.2))).2 =
        spread ((ends.flatMap fun e => e.1.items).map (Placed.mk start.sector)) := by
  have hfinish : (joinBranches capacity start (ends.map fun e => (e.1.conditions, e.2))).1 =
      finish := by
    have hjoin := upto_joinBranches capacity start (ends.map fun e => (e.1.conditions, e.2))
    refine Cursor.Upto.antisymm (joinBranches_upto (.inr ⟨hsector, hused⟩) fun b hb => ?_) ?_
    · obtain ⟨e, he, rfl⟩ := List.mem_map.1 hb
      obtain ⟨hstop, hslack, -⟩ := hends e he
      exact .inr ⟨hstop, by dsimp only; omega⟩
    · obtain heq | ⟨e, he, hzero⟩ := hfull
      · exact Cursor.Upto.trans (.inr ⟨hsector.symm, Nat.le_of_eq heq.symm⟩) hjoin.1
      · obtain ⟨hstop, hslack, -⟩ := hends e he
        have hupto := hjoin.2.1 _ (List.mem_map_of_mem he)
        exact Cursor.Upto.trans (.inr ⟨hstop.symm, by omega⟩) hupto
  have hplaced : (joinBranches capacity start (ends.map fun e => (e.1.conditions, e.2))).2 =
      ends.flatMap fun e => e.2.2 ++ fillBranch capacity e.1.conditions e.2.1 finish := by
    rw [← hfinish]
    simp only [joinBranches, List.flatMap_map]
  refine ⟨hfinish, ?_⟩
  rw [hplaced, spread_flatMap, List.map_flatMap, spread_flatMap]
  refine List.flatMap_congr fun e he => ?_
  obtain ⟨hstop, hslack, hspread⟩ := hends e he
  have hfill : fillBranch capacity e.1.conditions e.2.1 finish =
      (if e.1.slack = 0 then [] else [.padding e.1.conditions e.1.slack false]).map
        (Placed.mk start.sector) := by
    rw [fillBranch, if_pos hstop]
    by_cases hzero : e.1.slack = 0
    · rw [if_pos hzero, if_neg (by omega)]
      rfl
    · have hbits : finish.used - e.2.1.used = e.1.slack := by omega
      rw [if_neg hzero, if_pos (by omega), hbits, hstop, hsector]
      rfl
  rw [spread_append, hspread, hfill, Branch.items, List.map_append, spread_append]

/-- A union fits if what its variants share and the largest branch do. -/
theorem inUnion_of_fits {bits : Nat} (hshared : ∀ i ∈ shared, Keeps capacity one i)
    (hbranches : ∀ b ∈ branches, ∀ i ∈ b.parts, Keeps capacity one i)
    (hle : Item.sumBits shared ≤ bits)
    (hslack : ∀ b ∈ branches, Item.sumBits shared + Item.sumBits b.parts + b.slack = bits)
    (hfull : Item.sumBits shared = bits ∨ ∃ b ∈ branches, b.slack = 0)
    (hfit : c.used + bits ≤ capacity) :
    ∃ out, inUnion capacity one shared branches c = .ok (⟨c.sector, c.used + bits⟩, out) ∧
      spread out = spread ((Split.union shared branches).items.map (Placed.mk c.sector)) := by
  obtain ⟨first, hfirst, hspread⟩ := inRow_of_fits (c := c) hshared (by omega)
  have hrow : ∀ b ∈ branches, ∃ placement : Placement,
      inRow one b.parts ⟨c.sector, c.used + Item.sumBits shared⟩ = .ok placement ∧
      placement.1.sector = c.sector ∧ placement.1.used + b.slack = c.used + bits ∧
      spread placement.2 = spread (b.parts.map (Placed.mk c.sector)) := by
    intro b hb
    have hb' := hslack b hb
    obtain ⟨out, hout, hspread⟩ := inRow_of_fits (hbranches b hb)
      (c := ⟨c.sector, c.used + Item.sumBits shared⟩) (by dsimp only; omega)
    exact ⟨_, hout, rfl, by dsimp only; omega, hspread⟩
  obtain ⟨ends, rfl, hends, hstops⟩ := inBranches_ok hrow
  have hfull : c.used + Item.sumBits shared = c.used + bits ∨ ∃ e ∈ ends, e.1.slack = 0 := by
    obtain heq | ⟨b, hb, hzero⟩ := hfull
    · exact .inl (by omega)
    · obtain ⟨e, he, rfl⟩ := List.mem_map.1 hb
      exact .inr ⟨e, he, hzero⟩
  obtain ⟨hfinish, hspread'⟩ := joinBranches_of_slack capacity
    ⟨c.sector, c.used + Item.sumBits shared⟩ ⟨c.sector, c.used + bits⟩ rfl
    (Nat.add_le_add_left hle c.used) hstops hfull
  refine ⟨_, (inUnion_ok hfirst hends).trans (by rw [hfinish]), ?_⟩
  rw [spread_append, hspread, hspread', Split.items, List.map_append, spread_append,
    List.flatMap_map]

/-- **What fits**: a value that fits takes its bits also if it is placed leaf by leaf. -/
theorem leafwise_of_fits (hm : m.Sound g) (h : p.Reached m.roots cs) :
    Keeps capacity (leafwise capacity) ⟨cs, .value p⟩ := by
  obtain ⟨n, hn⟩ : ∃ n, p.last.height ≤ n := ⟨_, Nat.le_refl _⟩
  induction n generalizing cs p with
  | zero =>
    have hpos := height_pos_step p.last
    omega
  | succ n ih =>
    intro c hfit
    change c.used + p.last.bits ≤ capacity at hfit
    cases homit : p.last.decl.isOmitted with
    | true =>
      rw [leafwise_of_omitted homit]
      change ∃ out, _ = Except.ok ((⟨c.sector, c.used + p.last.bits⟩ : Cursor), out) ∧ _
      rw [Step.bits_of_omitted homit]
      exact ⟨_, rfl, spread_of_omitted homit⟩
    | false =>
      cases hsplit : Item.split? ⟨cs, .value p⟩ with
      | none =>
        refine ⟨_, (leafwise_of_whole (i := ⟨cs, .value p⟩) homit hsplit c).trans ?_, rfl⟩
        exact if_pos hfit
      | some s =>
        have hlt := Item.height_lt_of_split hsplit
        -- Parts are reached too, and have fewer levels.
        have hrow {ds : List Condition} {qs : List Path} (hsub : Item.row ds qs ⊆ s.items) :
            ∀ i ∈ Item.row ds qs, Keeps capacity (leafwise capacity) i := by
          intro i hi
          obtain ⟨q, hq, rfl⟩ := List.mem_map.1 hi
          have hq : q.last.height < p.last.height := hlt _ (hsub hi)
          exact ih (Item.reached_of_split h hsplit (hsub hi)) (by omega)
        obtain ⟨_, _, hi, -, ⟨ps, hp, rfl⟩ | ⟨shared, arms, hs, rfl⟩⟩ := Item.split_cases hsplit
        · cases hi
          have hbits : Item.sumBits (Item.row cs ps) = p.last.bits := by
            rw [Item.sumBits_row, hp.bits_eq h]
          obtain ⟨out, hout, hspread⟩ := inRow_of_fits (c := c) (hrow (List.Subset.refl _)) (by
            rw [hbits]
            exact hfit)
          rw [hbits] at hout
          exact ⟨out, (leafwise_of_row hsplit c).trans hout, hspread.trans (spread_leaves
            (Item.leaves_of_split hsplit))⟩
        · cases hi
          have harms : ∀ b ∈ arms.map (Variant.branch cs p), ∀ i ∈ b.parts,
              Keeps capacity (leafwise capacity) i := by
            intro b hb i hi
            obtain ⟨a, ha, rfl⟩ := List.mem_map.1 hb
            exact hrow (fun j hj => Split.mem_items_of_branch hb hj) i hi
          obtain ⟨hle, hslack, hfull⟩ := hs.bits_branches cs (h.sound hm)
          obtain ⟨out, hout, hspread⟩ := inUnion_of_fits
            (hrow (List.subset_append_left ..)) harms hle hslack hfull hfit
          exact ⟨out, (leafwise_of_union hsplit c).trans hout, hspread.trans (spread_leaves
            (Item.leaves_of_split hsplit))⟩

/-! ## with the shortcut and without -/

/-- Two runs come to the same: the same error, or results in a relation. -/
inductive Alike {α : Type} (R : α → α → Prop) : Except PackError α → Except PackError α → Prop where
  | error (e : PackError) : Alike R (.error e) (.error e)
  | ok {x y : α} (h : R x y) : Alike R (.ok x) (.ok y)

theorem Alike.bind {α β : Type} {R : α → α → Prop} {S : β → β → Prop} {x y : Except PackError α}
    {f f' : α → Except PackError β} (h : Alike R x y) (hf : ∀ a b, R a b → Alike S (f a) (f' b)) :
    Alike S (x >>= f) (y >>= f') := by
  cases h with
  | error e => exact .error e
  | ok h => exact hf _ _ h

theorem Alike.mono {α : Type} {R S : α → α → Prop} {x y : Except PackError α} (h : Alike R x y)
    (hrs : ∀ a b, R a b → S a b) : Alike S x y := by
  cases h with
  | error e => exact .error e
  | ok h => exact .ok (hrs _ _ h)

theorem Alike.of_ok {α : Type} {R : α → α → Prop} {x : Except PackError α} {b : α}
    (h : Alike R x (.ok b)) : ∃ a, x = .ok a ∧ R a b := by
  cases h with
  | ok h => exact ⟨_, rfl, h⟩

theorem Alike.to_ok {α : Type} {R : α → α → Prop} {y : Except PackError α} {a : α}
    (h : Alike R (.ok a) y) : ∃ b, y = .ok b ∧ R a b := by
  cases h with
  | ok h => exact ⟨_, rfl, h⟩

/-- Two placements end at the same position, inside a sector, and have the same leaves in the same
sectors. -/
structure Matching (capacity : Nat) (x y : Placement) : Prop where
  finish : x.1 = y.1
  used : x.1.used ≤ capacity
  leaves : spread x.2 = spread y.2

/-- The same for the branches of a union. -/
def MatchingBranches (capacity : Nat) : List (List Condition × Placement) →
    List (List Condition × Placement) → Prop :=
  List.Forall₂ fun x y => x.1 = y.1 ∧ Matching capacity x.2 y.2

theorem alike_inRow (hone : ∀ i ∈ items, ∀ c : Cursor, c.used ≤ capacity →
      Alike (Matching capacity) (one i c) (two i c)) (hc : c.used ≤ capacity) :
    Alike (Matching capacity) (inRow one items c) (inRow two items c) := by
  induction items generalizing c with
  | nil => exact .ok ⟨rfl, hc, rfl⟩
  | cons i items ih =>
    obtain ⟨hi, hitems⟩ := List.forall_mem_cons.1 hone
    refine (hi c hc).bind ?_
    rintro ⟨d, front⟩ ⟨_, front'⟩ ⟨rfl, hd, hfront⟩
    refine (ih hitems hd).bind ?_
    rintro ⟨e, rest⟩ ⟨_, rest'⟩ ⟨rfl, he, hrest⟩
    refine .ok ⟨rfl, he, ?_⟩
    rw [spread_append, spread_append, hfront, hrest]

theorem alike_inBranches (hone : ∀ b ∈ branches, ∀ i ∈ b.parts, ∀ c : Cursor, c.used ≤ capacity →
      Alike (Matching capacity) (one i c) (two i c)) (hc : c.used ≤ capacity) :
    Alike (MatchingBranches capacity) (inBranches one c branches) (inBranches two c branches) := by
  induction branches with
  | nil => exact .ok .nil
  | cons b branches ih =>
    obtain ⟨hb, hbranches⟩ := List.forall_mem_cons.1 hone
    refine (alike_inRow hb hc).bind fun x y hxy => ?_
    refine (ih hbranches).bind fun xs ys hrest => ?_
    exact .ok (.cons ⟨rfl, hxy⟩ hrest)

theorem matching_joinBranches {xs ys : List (List Condition × Placement)}
    (h : MatchingBranches capacity xs ys) (hstart : start.used ≤ capacity) :
    Matching capacity (joinBranches capacity start xs) (joinBranches capacity start ys) := by
  have hfinish : (joinBranches capacity start xs).1 = (joinBranches capacity start ys).1 := by
    clear hstart
    induction h generalizing start with
    | nil => rfl
    | @cons x y xs ys hxy h ih =>
      change (joinBranches capacity (start.later x.2.1) xs).1 =
        (joinBranches capacity (start.later y.2.1) ys).1
      rw [hxy.2.finish, ih]
  have hused : ∀ x ∈ xs, x.2.1.used ≤ capacity := by
    clear hfinish
    induction h with
    | nil => exact fun _ hx => (nomatch hx)
    | cons hxy h ih => exact List.forall_mem_cons.2 ⟨hxy.2.used, ih⟩
  refine ⟨hfinish, (upto_joinBranches capacity start xs).2.2 hstart hused, ?_⟩
  unfold joinBranches at hfinish ⊢
  dsimp only at hfinish ⊢
  rw [hfinish, spread_flatMap, spread_flatMap]
  clear hused hfinish
  generalize List.foldl _ start ys = finish
  induction h with
  | nil => rfl
  | @cons x y xs ys hxy h ih =>
    rw [List.flatMap_cons, List.flatMap_cons, ih, spread_append, spread_append, hxy.1,
      hxy.2.finish, hxy.2.leaves]

theorem alike_inUnion (hshared : ∀ i ∈ shared, ∀ c : Cursor, c.used ≤ capacity →
      Alike (Matching capacity) (one i c) (two i c))
    (hbranches : ∀ b ∈ branches, ∀ i ∈ b.parts, ∀ c : Cursor, c.used ≤ capacity →
      Alike (Matching capacity) (one i c) (two i c)) (hc : c.used ≤ capacity) :
    Alike (Matching capacity) (inUnion capacity one shared branches c)
      (inUnion capacity two shared branches c) := by
  refine (alike_inRow hshared hc).bind ?_
  rintro ⟨start, front⟩ ⟨_, front'⟩ ⟨rfl, hstart, hfront⟩
  refine (alike_inBranches hbranches hstart).bind fun xs ys hxy => ?_
  have hjoin := matching_joinBranches hxy hstart
  refine .ok ⟨hjoin.finish, hjoin.used, ?_⟩
  exact (spread_append ..).trans
    (.trans (congrArg₂ (· ++ ·) hfront hjoin.leaves) (spread_append ..).symm)

/-- What is not taken apart is placed alike. -/
theorem alike_placeWhole (i : Item) (c : Cursor) :
    Alike (Matching capacity) (placeWhole capacity i c) (placeWhole capacity i c) := by
  unfold placeWhole
  split
  · next hfit => exact .ok ⟨rfl, hfit, rfl⟩
  · split
    · exact .error _
    · next hbits => exact .ok ⟨rfl, Nat.le_of_not_lt hbits, rfl⟩

/-- **The shortcut changes nothing**: an item that is placed whole if it fits ends where it ends if
it is placed leaf by leaf, with the same leaves in the same sectors. -/
theorem alike_of_place (hm : m.Sound g) {i : Item} {levels : Nat} (hlevels : i.height ≤ levels)
    (hi : i.isOmitted = false → i.Lies m.roots) (hc : c.used ≤ capacity) :
    Alike (Matching capacity) (place capacity levels i c) (leafwise capacity i c) := by
  induction levels using Nat.strongRecOn generalizing i c with
  | ind levels ih =>
    cases homit : i.isOmitted with
    | true =>
      rw [place_of_omitted homit, leafwise, leafwiseWithin_of_omitted homit]
      exact .ok ⟨rfl, hc, rfl⟩
    | false =>
      cases hsplit : i.split? with
      | none =>
        rw [place_of_whole homit hsplit, leafwise_of_whole homit hsplit]
        exact alike_placeWhole i c
      | some s =>
        have hpos := Item.height_pos_of_canSplit (Item.canSplit_of_split hsplit)
        have hlt := Item.height_lt_of_split hsplit
        have hlies := hi homit
        obtain ⟨levels, rfl⟩ : ∃ n, levels = n + 1 := ⟨levels - 1, by omega⟩
        obtain ⟨cs, p, rfl, -⟩ := Item.split_cases hsplit
        have hreached := hlies p rfl
        by_cases hfit : c.used + p.last.bits ≤ capacity
        · obtain ⟨out, hout, hspread⟩ := leafwise_of_fits hm hreached c hfit
          rw [place_of_fits homit hfit, hout]
          exact .ok ⟨rfl, hfit, hspread.symm⟩
        · -- Parts are reached like the item, so they are placed alike.
          have hparts : ∀ part ∈ s.items, ∀ c : Cursor, c.used ≤ capacity →
              Alike (Matching capacity) (place capacity levels part c)
                (leafwise capacity part c) := by
            intro part hpart c hc
            have hheight := hlt part hpart
            refine ih levels (Nat.lt_succ_self _) (by omega) (fun _ q hq => ?_) hc
            obtain ⟨ds, content⟩ := part
            cases hq
            exact Item.reached_of_split hreached hsplit hpart
          cases s with
          | row parts =>
            rw [place_row hsplit hfit, leafwise_of_row hsplit]
            exact alike_inRow hparts hc
          | union shared branches =>
            rw [place_union hsplit hfit, leafwise_of_union hsplit]
            exact alike_inUnion (fun i hi => hparts i (Split.mem_items_of_shared hi))
              (fun b hb i hi => hparts i (Split.mem_items_of_branch hb hi)) hc

/-- Items that are reached from data objects are placed alike in a row. -/
theorem alike_of_reached (hm : m.Sound g) (hitems : ∀ i ∈ items, i.Reached m.roots)
    (hc : c.used ≤ capacity) :
    Alike (Matching capacity) (inRow (fun i => place capacity i.height i) items c)
      (inRow (leafwise capacity) items c) := by
  refine alike_inRow (fun i hi c hc => ?_) hc
  refine alike_of_place hm (Nat.le_refl _) (fun homit p hp => ?_) hc
  obtain ⟨cs, content⟩ := i
  cases hp
  exact (hitems _ hi).path homit

end

/-! ## offsets -/

/-- The values among leaves that travel under an assignment, each with its offset, if the leaves
that travel follow each other from some offset on. -/
def offsetsUnder (a : Assignment) (offset : Nat) : List Item → List (Item × Nat)
  | [] => []
  | i :: rest =>
    if i.isActive a then
      (if i.isKept then [(i, offset)] else []) ++ offsetsUnder a (offset + i.bits) rest
    else offsetsUnder a offset rest

/-- The leaves that travel under an assignment in a sector, each with its offset, where what is
placed begins at a position. -/
def seats (a : Assignment) (start : Cursor) (s : Nat) (placed : List Placed) : List (Item × Nat) :=
  offsetsUnder a (if s = start.sector then start.used else 0)
    ((inSector s placed).flatMap Item.leaves)

/-- What nothing stands for has no offset, and leaves the others as they are. -/
theorem offsetsUnder_filter (a : Assignment) (offset : Nat) (items : List Item) :
    offsetsUnder a offset (items.filter (!·.isDropped)) = offsetsUnder a offset items := by
  induction items generalizing offset with
  | nil => rfl
  | cons i items ih =>
    cases hdropped : i.isDropped with
    | true =>
      obtain ⟨-, hbits, hkept⟩ := Item.dropped hdropped
      simp [hdropped, offsetsUnder, hbits, hkept, ih]
    | false => simp [hdropped, offsetsUnder, ih]

theorem inSector_spread (s : Nat) (placed : List Placed) : inSector s (spread placed) =
    ((inSector s placed).flatMap Item.leaves).filter (!·.isDropped) := by
  induction placed with
  | nil => rfl
  | cons x placed ih =>
    have hone (items : List Item) : inSector s (items.map (Placed.mk x.sector)) =
        if x.sector = s then items else [] := by
      induction items with
      | nil => simp
      | cons i items ih =>
        rw [List.map_cons, inSector_cons, ih]
        split <;> rfl
    rw [spread, List.flatMap_cons, ← spread, inSector_append, ih, hone, inSector_cons,
      List.flatMap_append, List.filter_append]
    split <;> simp

/-- The same leaves in the same sectors have the same offsets. -/
theorem seats_congr {xs ys : List Placed} (h : spread xs = spread ys) (a : Assignment)
    (start : Cursor) (s : Nat) : seats a start s xs = seats a start s ys := by
  rw [seats, seats, ← offsetsUnder_filter, ← inSector_spread, h, inSector_spread,
    offsetsUnder_filter]

end Packing

/-- **Placing whole is placing leaf by leaf.** For items reached from the data objects of a model
without errors, the packer ends as the one that takes everything apart before it asks what fits:
with the same error, or at the same position, and then every leaf that travels under an assignment
has the same sector, and the same offset in it. -/
theorem leafwise_of_place {c : Config} {g : Registry} {m : Model} {capacity : Nat}
    {items : List Item} {start : Cursor} (hbuild : Model.build c g = some m)
    (herrors : m.errors = []) (hitems : ∀ i ∈ items, i.Reached m.roots)
    (hstart : start.used ≤ capacity) :
    Alike (fun x y => x.1 = y.1 ∧ ∀ a s, seats a start s x.2 = seats a start s y.2)
      (inRow (fun i => place capacity i.height i) items start)
      (inRow (leafwise capacity) items start) := by
  have halike := alike_of_reached (Model.sound_of_build hbuild herrors) hitems hstart
  exact halike.mono fun x y h => ⟨h.finish, fun a s => seats_congr h.leaves a start s⟩

/-- The data objects of the small layout are placed as their leaves are, also behind three bits. -/
theorem Sample.placed_leafwise : ∃ m, Model.build config registry = some m ∧
    Alike (fun x y => x.1 = y.1 ∧ ∀ a s, seats a ⟨0, 3⟩ s x.2 = seats a ⟨0, 3⟩ s y.2)
      (inRow (fun i => place 16 i.height i) (m.roots.map Item.root) ⟨0, 3⟩)
      (inRow (leafwise 16) (m.roots.map Item.root) ⟨0, 3⟩) := by
  obtain ⟨m, hm, herrors⟩ := Option.map_eq_some_iff.1 built
  refine ⟨m, hm, leafwise_of_place hm herrors (fun i hi => ?_) (by decide)⟩
  obtain ⟨d, hd, rfl⟩ := List.mem_map.1 hi
  exact .root hd

end BitLayout
