import BitLayout.Proofs.Sector.Arising
import BitLayout.Proofs.Strict.Code
import BitLayout.Proofs.Strict.Sectors

/-!
# BitLayout.Proofs.Strict.Faultless

Nothing stops. For a model without errors, everything that is computed between the data objects and
the code has a strict result, which is the result: sizes, taking items apart, placing and packing
them for every capacity, layouts of sectors, and the code in both directions. In particular an item
with parts is taken apart into others, with fewer levels each, so that the levels of an item bound
the way down wherever it is gone down.

Main statement: `faultless_of_build`.
-/

namespace BitLayout

/-- Whether two items are values at the end of one path. -/
def Item.sameValue (i j : Item) : Bool :=
  match i.content, j.content with
  | .value p, .value q => p == q
  | _, _ => false

/-- Planning a model and writing its code never stop at a partial operation, nor come to a bound. -/
structure Model.Faultless (c : Config) (m : Model) : Prop where
  /-- What a declaration consists of has smaller numbers. -/
  numbers : ∀ e, m.Declares e →
    (∀ x ∈ e.members, x.number < e.number) ∧ ∀ w, e.wire = some w → w.number < e.number
  sizes : ∀ e, m.Declares e → Strict.elementBits e = .ok e.elementBits
  items : ∀ i, i.Arises m.roots →
    Strict.itemBits i = .ok i.bits ∧ Strict.expand i = .ok i.expand
  /-- An item with parts is not among them. -/
  parts : ∀ i : Item, i.Arises m.roots → i.hasParts = true →
    i.canSplit = true ∧ ∀ part ∈ i.expand, part.height < i.height ∧ part.sameValue i = false
  flat : ∀ i, i.Arises m.roots → ∀ threshold levels, i.height ≤ levels →
    Strict.flattenWithin threshold levels i = .ok (i.flatten threshold)
  /-- If an item is not placed, then it is too large. -/
  placed : ∀ i, i.Arises m.roots → ∀ capacity levels cursor, i.height ≤ levels →
    Strict.place capacity levels i cursor =
      (Packing.place capacity i.height i cursor).mapError .refused
  packed : ∀ capacity available groups, (∀ objects ∈ groups, ∀ d ∈ objects, d ∈ m.roots) →
    Strict.pack capacity available groups = (pack capacity available groups).mapError .refused
  /-- Packed items are among those that all this is about. -/
  sectors : ∀ capacity available groups sectors,
    (∀ objects ∈ groups, ∀ d ∈ objects, d ∈ m.roots) →
    pack capacity available groups = .ok sectors → ∀ s ∈ sectors, ∀ i ∈ s.items, i.Arises m.roots
  layouts : ∀ items : List Item, (∀ i ∈ items, i.Arises m.roots) → ∀ branches position,
    Strict.offsetsFrom branches position items = .ok (Sector.offsetsFrom branches position items)
  code : ∀ items : List Item, (∀ i ∈ items, i.Arises m.roots) → ∀ d,
    Strict.statements m.records (Program.purpose c d) items =
      .ok (Items.statements (Program.purpose c d) 0 items)
  /-- The records that functions are made for are known. -/
  records : ∀ sectors : List Sector, (∀ s ∈ sectors, ∀ i ∈ s.items, i.Arises m.roots) →
    Strict.recordsNeeded m.records (Program.purpose c .read) sectors =
      .ok (Program.recordsNeeded c m sectors) ∧
    ∀ record ∈ Program.recordsNeeded c m sectors, ∀ d,
      Strict.recordStatements m.records (Program.purpose c d) record =
        .ok (Program.recordStatements c m d record)

section

variable {c : Config} {g : Registry} {m : Model} {i : Item}

/-- A part with fewer levels stands elsewhere. -/
theorem Item.sameValue_of_height_lt (hm : m.Sound g) (h : i.Grounded m.roots) {part : Item}
    (hpart : part.Grounded m.roots) (hlt : part.height < i.height) : part.sameValue i = false := by
  rw [Item.sameValue]
  split
  · next q p hq hp =>
    refine Bool.eq_false_iff.2 fun hbeq => ?_
    obtain rfl : q = p := (hpart.walks q hq).eq_of_beq hm.numbered (h.walks p hp) hbeq
    rw [Item.height, Item.height, Item.last?, Item.last?, Item.path?, Item.path?, hq, hp] at hlt
    exact Nat.lt_irrefl _ hlt
  · rfl

end

/-- **No faults**: nothing that is computed for a model without errors stops, and all ways down end,
for every capacity. -/
theorem faultless_of_build {c : Config} {g : Registry} {m : Model}
    (hbuild : Model.build c g = some m) (herrors : m.errors = []) : m.Faultless c := by
  have hm := Model.sound_of_build hbuild herrors
  have hgrounded : ∀ i : Item, i.Arises m.roots → i.Grounded m.roots := fun i hi => hi.grounded hm
  exact {
    numbers := fun e he =>
      have hsound := (he.sound hbuild herrors).self
      ⟨hsound.member_lt, hsound.wire_lt⟩
    sizes := fun e he => Strict.elementBits_eq (he.sound hbuild herrors)
    items := fun i hi =>
      ⟨Strict.itemBits_eq hm (hgrounded i hi), Strict.expand_eq hm (hgrounded i hi)⟩
    parts := fun i hi hparts => by
      have hsplit := Strict.canSplit_of_hasParts hm (hgrounded i hi) hparts
      refine ⟨hsplit, fun part hp => ?_⟩
      have hlt := Item.height_lt_of_expand hsplit hp
      exact ⟨hlt, Item.sameValue_of_height_lt hm (hgrounded i hi) ((hgrounded i hi).expand hp) hlt⟩
    flat := fun i hi threshold levels hle =>
      Strict.flattenWithin_eq hm (hgrounded i hi) hle threshold
    placed := fun i hi capacity levels cursor hle =>
      Strict.place_eq hm (hgrounded i hi) hle capacity cursor
    packed := fun capacity available groups hgroups =>
      Strict.pack_eq hm capacity available hgroups
    sectors := fun capacity available groups sectors hgroups hpack =>
      arises_of_pack hgroups hpack
    layouts := fun items hitems =>
      Strict.offsetsFrom_eq fun i hi => Strict.itemBits_eq hm (hgrounded i (hitems i hi))
    code := fun items hitems d =>
      Strict.statements_eq fun i hi => Strict.statementsOf_eq hm (hgrounded i (hitems i hi)) _
    records := fun sectors hsectors => by
      obtain ⟨hneeded, hknown⟩ := Strict.recordsNeeded_eq hbuild herrors fun s hs i hi =>
        hgrounded i (hsectors s hs i hi)
      exact ⟨hneeded, fun record hrecord d =>
        (Strict.recordStatements_eq hbuild herrors (hknown record hrecord) d).1⟩ }

namespace Sample

/-- The small layout is accepted, so nothing stops for it. -/
theorem never_stops : ∃ m : Model, Model.build config registry = some m ∧ m.errors = [] ∧
    m.Faultless config := by
  obtain ⟨m, hm, herrors⟩ := Option.map_eq_some_iff.1 built
  exact ⟨m, hm, herrors, faultless_of_build hm herrors⟩

end Sample

end BitLayout
