import BitLayout.Proofs.Code.Planned
import BitLayout.Proofs.Sector.Order

/-!
# BitLayout.Proofs.Sector.Trailing

Trailing padding has no code. This is sound if nothing has to be moved behind it: two items of a
sector are *compatible* if some assignment of variants to unions makes both travel, and behind
trailing padding there is no compatible item in its sector.

What is placed up to a cursor is *quiet* if this holds of it, and all trailing padding stands in
sectors in front of the cursor. Then whatever is placed behind the cursor cannot disturb it:

```
quiet up to c  ++  quiet from c up to d  =  quiet up to d
```

The branches of a union are placed side by side, but never travel together.

* `Places.quiet`, `PlacesGroups.quiet`: what is placed is quiet;
* `Undisturbed.bits?`: the code of what travels in front of an item takes the bits up to it.

Main statement: `trailing_of_pack`.
-/

namespace BitLayout

open Packing

/-- Whether an item is padding that is not written. -/
def Item.isTrailing (i : Item) : Bool :=
  match i.content with
  | .value _ => false
  | .padding _ trailing => trailing

/-- Two items travel together under some assignment. -/
def Item.Compatible (i j : Item) : Prop :=
  ∃ a : Assignment, i.isActive a = true ∧ j.isActive a = true

/-- What is placed up to a sector: behind trailing padding nothing compatible follows in its sector,
and nothing that is placed from the sector on can. -/
structure Quiet (sector : Nat) (placed : List Placed) : Prop where
  apart : placed.Pairwise fun x y =>
    x.item.isTrailing = true → y.sector = x.sector → ¬ x.item.Compatible y.item
  before : ∀ x ∈ placed, x.item.isTrailing = true → x.sector < sector

section

variable {capacity : Nat} {cs : List Condition} {ps : List Path} {c c' d : Cursor}
  {out xs ys : List Placed} {s t : Nat}

theorem Item.isTrailing_iff {i : Item} :
    i.isTrailing = true ↔ ∃ bits, i.content = .padding bits true := by
  unfold isTrailing
  split
  · next heq => simp [heq]
  · next heq => simp [heq]

/-! ## rows -/

namespace Quiet

theorem nil (s : Nat) : Quiet s [] := ⟨.nil, fun _ hx => (nomatch hx)⟩

/-- Something that is not trailing padding disturbs nothing. -/
theorem single {x : Placed} (s : Nat) (h : x.item.isTrailing = false) : Quiet s [x] := by
  refine ⟨List.pairwise_singleton _ x, fun y hy htrailing => ?_⟩
  rw [List.mem_singleton.1 hy, h] at htrailing
  cases htrailing

theorem mono (h : Quiet s xs) (hle : s ≤ t) : Quiet t xs :=
  ⟨h.apart, fun x hx htrailing => Nat.lt_of_lt_of_le (h.before x hx htrailing) hle⟩

/-- What is placed from a sector on is quiet behind what is quiet up to there. -/
theorem append (h : Quiet s xs) (h' : Quiet t ys) (hys : ∀ y ∈ ys, s ≤ y.sector) (hle : s ≤ t) :
    Quiet t (xs ++ ys) where
  apart := by
    refine List.pairwise_append.2 ⟨h.apart, h'.apart, fun x hx y hy htrailing hsector => ?_⟩
    have hbefore := h.before x hx htrailing
    have hbehind := hys y hy
    omega
  before x hx := (List.mem_append.1 hx).elim ((h.mono hle).before x) (h'.before x)

/-- In sectors in ascending order, nothing follows in the same one. -/
theorem of_ascending (h : xs.Pairwise fun x y => x.sector < y.sector)
    (hbefore : ∀ x ∈ xs, x.sector < s) : Quiet s xs := by
  refine ⟨h.imp fun hlt _ heq => ?_, fun x hx _ => hbefore x hx⟩
  omega

end Quiet

/-! ## padding -/

namespace Packing

/-- Padding up to the end of a sector is quiet from the next sector on. -/
theorem quiet_fill (capacity : Nat) (cs : List Condition) (c : Cursor) :
    Quiet (c.sector + 1) (fill capacity cs c) := by
  unfold fill
  split
  · refine .of_ascending (List.pairwise_singleton _ _) fun x hx => ?_
    rw [List.mem_singleton.1 hx]
    exact Nat.lt_succ_self _
  · exact .nil _

/-- Sectors of nothing but padding are quiet behind the last of them. -/
theorem quiet_sectors (capacity : Nat) (cs : List Condition) (first count : Nat) :
    Quiet (first + count)
      ((List.range' first count).map fun sector => ⟨sector, .padding cs capacity true⟩) := by
  refine .of_ascending (List.pairwise_map.2 List.pairwise_lt_range') fun x hx => ?_
  obtain ⟨sector, hsector, rfl⟩ := List.mem_map.1 hx
  exact (List.mem_range'_1.1 hsector).2

/-- Padding to the end of a union is quiet from there on. -/
theorem quiet_fillBranch (capacity : Nat) (cs : List Condition) (h : c.sector ≤ d.sector) :
    Quiet d.sector (fillBranch capacity cs c d) := by
  unfold fillBranch
  split
  · split
    · exact .single _ rfl
    · exact .nil _
  · next hne =>
    have hmiddle := quiet_sectors capacity cs (c.sector + 1) (d.sector - c.sector - 1)
    rw [show c.sector + 1 + (d.sector - c.sector - 1) = d.sector by omega] at hmiddle
    have hfront := (quiet_fill capacity cs c).append hmiddle (fun y hy => ?_) (by omega)
    · refine hfront.append (t := d.sector) ?_ (fun y hy => ?_) (Nat.le_refl _)
      · split
        · exact .nil _
        · exact .single _ rfl
      · split at hy
        · cases hy
        · rw [List.mem_singleton.1 hy]
    · obtain ⟨sector, hsector, rfl⟩ := List.mem_map.1 hy
      exact (List.mem_range'_1.1 hsector).1

end Packing

/-! ## unions -/

/-- Items under the conditions of different arms of a union never travel together. -/
theorem Variant.not_compatible {u : Path} {v w : Variant} {i j : Item} {ds es : List Condition}
    (hne : v.value ≠ w.value) (hi : i.conditions = v.conditions cs u ++ ds)
    (hj : j.conditions = w.conditions cs u ++ es) : ¬ i.Compatible j := by
  rintro ⟨a, hia, hja⟩
  have pick {i : Item} {v : Variant} {ds : List Condition} (hactive : i.isActive a = true)
      (hi : i.conditions = v.conditions cs u ++ ds) : a.pick u = v.value := by
    have hmem : ⟨u, v.tag, v.value⟩ ∈ i.conditions :=
      hi ▸ List.mem_append_left _ (Variant.mem_conditions cs u v)
    exact of_decide_eq_true (List.all_eq_true.1 hactive _ hmem)
  exact hne ((pick hia hi).symm.trans (pick hja hj))

/-- What the branches of a union have placed is quiet from the end of the union on. -/
theorem quiet_joinBranches {u : Path} {ends : List (Variant × Placement)}
    (hnodup : (ends.map (·.1.value)).Nodup)
    (hends : ∀ e ∈ ends, Places capacity (e.1.conditions cs u) e.1.parts d e.2.1 e.2.2)
    (hquiet : ∀ e ∈ ends, Quiet e.2.1.sector e.2.2) :
    Quiet (joinBranches capacity d (branchesOf cs u ends)).1.sector
      (joinBranches capacity d (branchesOf cs u ends)).2 := by
  have hjoin := (upto_joinBranches capacity d (branchesOf cs u ends)).2.1
  rw [joinBranches] at hjoin ⊢
  dsimp only at hjoin ⊢
  generalize List.foldl (fun c b => c.later b.2.1) d (branchesOf cs u ends) = finish at hjoin ⊢
  rw [branchesOf, List.flatMap_map]
  have hstop : ∀ e ∈ ends, e.2.1.sector ≤ finish.sector := fun e he =>
    (hjoin _ (List.mem_map_of_mem he)).sector_le
  have hbranch : ∀ e ∈ ends, Quiet finish.sector
      (e.2.2 ++ fillBranch capacity (e.1.conditions cs u) e.2.1 finish) := fun e he =>
    (hquiet e he).append (quiet_fillBranch capacity _ (hstop e he))
      (fun y hy => (mem_fillBranch (hstop e he) hy).1) (hstop e he)
  have hconditions : ∀ e ∈ ends, ∀ x ∈ e.2.2 ++
      fillBranch capacity (e.1.conditions cs u) e.2.1 finish,
      ∃ ds, x.item.conditions = e.1.conditions cs u ++ ds := by
    intro e he x hx
    cases List.mem_append.1 hx with
    | inl hx => exact (hends e he).conditions x hx
    | inr hx =>
      obtain ⟨bits, trailing, hitem⟩ := (mem_fillBranch (hstop e he) hx).2.2
      exact ⟨[], by rw [hitem, List.append_nil]; rfl⟩
  constructor
  · rw [List.pairwise_flatMap]
    refine ⟨fun e he => (hbranch e he).apart, ?_⟩
    -- Different branches carry different values on the same union.
    refine (List.pairwise_map.1 hnodup).imp_of_mem fun he he' hne x hx y hy _ _ => ?_
    obtain ⟨ds, hds⟩ := hconditions _ he x hx
    obtain ⟨es, hes⟩ := hconditions _ he' y hy
    exact Variant.not_compatible hne hds hes
  · intro x hx
    obtain ⟨e, he, hx⟩ := List.mem_flatMap.1 hx
    exact (hbranch e he).before x hx

/-! ## placing -/

/-- **Quiet rows**: what is placed is quiet from the cursor behind it on. -/
theorem Places.quiet {g : Registry} {m : Model} (hm : m.Sound g)
    (h : Places capacity cs ps c c' out) (hreached : ∀ p ∈ ps, p.Reached m.roots cs) :
    Quiet c'.sector out := by
  induction h with
  | nil => exact .nil _
  | @omitted cs p ps c c' out homit h ih =>
    have hout := ih fun q hq => hreached q (List.mem_cons_of_mem _ hq)
    split
    · exact (Quiet.single c.sector rfl).append hout (fun y hy => (h.bounds.2 y hy).1) h.bounds.1
    · exact hout
  | @fits cs p ps c c' out homit hfit h ih =>
    have hout := ih fun q hq => hreached q (List.mem_cons_of_mem _ hq)
    exact (Quiet.single c.sector rfl).append hout (fun y hy => (h.bounds.2 y hy).1) h.bounds.1
  | @row cs p ps qs c d c' inner out homit hfit hp hinner h ihinner ih =>
    obtain ⟨hp', hps⟩ := List.forall_mem_cons.1 hreached
    have hfront := ihinner fun q hq => .part hp' homit hp hq
    exact hfront.append (ih hps) (fun y hy => (h.bounds.2 y hy).1) h.bounds.1
  | @union cs p ps shared arms c d c' first out ends homit hfit hs hfirst harms hends h ihfirst
      ihends ih =>
    obtain ⟨hp, hps⟩ := List.forall_mem_cons.1 hreached
    have hstart := (upto_joinBranches capacity d (branchesOf cs p ends)).1.sector_le
    have hnodup : (ends.map (·.1.value)).Nodup := by
      have hvalues := hs.nodup_values (hp.sound hm).self
      rwa [← harms, List.map_map] at hvalues
    have hbranches := quiet_joinBranches hnodup hends fun e he =>
      ihends e he fun q hq => .arm hp homit hs (harms ▸ List.mem_map_of_mem he) hq
    have hsectors : ∀ x ∈ (joinBranches capacity d (branchesOf cs p ends)).2, d.sector ≤ x.sector ∧
        x.sector ≤ (joinBranches capacity d (branchesOf cs p ends)).1.sector :=
      sector_joinBranches fun e he => (hends e he).bounds
    have hfront := (ihfirst fun q hq => .shared hp homit hs hq).append hbranches
      (fun y hy => (hsectors y hy).1) hstart
    exact hfront.append (ih hps) (fun y hy => (h.bounds.2 y hy).1) h.bounds.1
  | @next cs p ps c c' out homit hfit hwhole hbits h ih =>
    have hout := ih fun q hq => hreached q (List.mem_cons_of_mem _ hq)
    have hbounds := h.bounds
    dsimp only at hbounds
    have hrest : Quiet c'.sector (Placed.value c.next cs p :: out) :=
      (Quiet.single (c.sector + 1) rfl).append hout (fun y hy => (hbounds.2 y hy).1) hbounds.1
    refine (quiet_fill capacity cs c).append hrest (fun y hy => ?_) hbounds.1
    rcases List.mem_cons.1 hy with rfl | hy
    · exact Nat.le_refl _
    · exact (hbounds.2 y hy).1

/-- A group begins behind everything that is placed, so that stays quiet. -/
theorem Quiet.opened {before : Placement} (h : Quiet before.1.sector before.2) :
    Quiet (opened capacity before).1.sector (opened capacity before).2 := by
  unfold Packing.opened
  split
  · exact h.append (quiet_fill capacity [] before.1)
      (fun y hy => Nat.le_of_eq (mem_fill hy).1.symm) (Nat.le_succ _)
  · exact h

/-- **Quiet groups**: what is placed for groups is quiet from the cursor behind it on. -/
theorem PlacesGroups.quiet {g : Registry} {m : Model} {groups : List (List Decl)}
    {before after : Placement} (hm : m.Sound g) (h : PlacesGroups capacity groups before after)
    (hgroups : ∀ d ∈ groups.flatten, d ∈ m.roots)
    (hquiet : Quiet before.1.sector before.2) : Quiet after.1.sector after.2 := by
  induction h with
  | nil => exact hquiet
  | @cons objects groups before after c more h hrest ih =>
    rw [List.flatten_cons] at hgroups
    refine ih (fun d hd => hgroups d (List.mem_append_right _ hd)) ?_
    have hmore := h.quiet hm fun p hp => by
      obtain ⟨d, hd, rfl⟩ := List.mem_map.1 hp
      exact .root (hgroups d (List.mem_append_left _ hd))
    exact hquiet.opened.append hmore (fun y hy => (h.bounds.2 y hy).1) h.bounds.1

end

/-! ## sectors -/

/-- Behind trailing padding, nothing compatible follows. -/
def Undisturbed (items : List Item) : Prop :=
  items.Pairwise fun i j => i.isTrailing = true → ¬ i.Compatible j

section

variable {items merged run : List Item} {i j k : Item}

/-- What is quiet is undisturbed in every sector. -/
theorem Quiet.undisturbed {t : Nat} {placed : List Placed} (h : Quiet t placed) (s : Nat) :
    Undisturbed (inSector s placed) := by
  refine List.pairwise_map.2 ((h.apart.filter _).imp_of_mem fun hx hy hxy htrailing => ?_)
  have hx := of_decide_eq_true (List.mem_filter.1 hx).2
  have hy := of_decide_eq_true (List.mem_filter.1 hy).2
  exact hxy htrailing (hy.trans hx.symm)

/-- Padding is never merged. -/
theorem Merges.eq_of_trailing (h : Merges run j) (hj : j.isTrailing = true) : run = [j] := by
  cases h with
  | one => rfl
  | uncover => cases hj
  | join => cases hj

/-- An item that items merge into travels when they do. -/
theorem Item.Compatible.of_merges (h : i.Compatible j) (hrun : Merges run j) :
    ∃ k ∈ run, i.Compatible k := by
  obtain ⟨a, hi, hj⟩ := h
  obtain ⟨k, hk⟩ := List.exists_mem_of_ne_nil run hrun.ne_nil
  refine ⟨k, hk, a, hi, ?_⟩
  rwa [isActive, hrun.conditions k hk]

/-- Merging keeps items undisturbed. -/
theorem Regroups.undisturbed (h : Regroups items merged) (hitems : Undisturbed items) :
    Undisturbed merged := by
  induction h with
  | nil => exact .nil
  | @cons run items merged j hrun h ih =>
    obtain ⟨-, hitems, hacross⟩ := List.pairwise_append.1 hitems
    refine .cons (fun k hk htrailing hcompatible => ?_) (ih hitems)
    obtain ⟨others, hothers, hmerges⟩ := h.exists_run hk
    obtain ⟨l, hl, hcompatible⟩ := hcompatible.of_merges hmerges
    have hj : j ∈ run := by
      rw [hrun.eq_of_trailing htrailing]
      exact List.mem_singleton_self j
    exact hacross j hj l (hothers hl) htrailing hcompatible

/-- In front of an item that travels, trailing padding does not. -/
theorem Undisturbed.not_trailing (h : Undisturbed items) {a : Assignment} {n : Nat}
    (hi : items[n]? = some i) (hactive : i.isActive a = true) :
    ∀ j ∈ (items.take n).filter (·.isActive a), j.isTrailing = false := by
  intro j hj
  obtain ⟨hj, hjactive⟩ := List.mem_filter.1 hj
  obtain ⟨hn, rfl⟩ := List.getElem?_eq_some_iff.1 hi
  have hback : items[n] ∈ items.drop n := List.mem_drop_iff_getElem.2 ⟨0, by omega, by simp⟩
  rw [← List.take_append_drop n items, Undisturbed, List.pairwise_append] at h
  exact Bool.eq_false_iff.2 fun htrailing =>
    h.2.2 j hj items[n] hback htrailing ⟨a, hjactive, hactive⟩

/-- The code of items in a row takes the bits of the items, if that of each does. -/
theorem bits?_statements {c : Config} {m : Model} {dir : Direction}
    (h : ∀ i ∈ items, Program.bits? c m dir (i.statements (Program.purpose c dir)) = some i.bits) :
    Program.bits? c m dir (items.flatMap (Item.statements (Program.purpose c dir))) =
      some (Item.sumBits items) := by
  induction items with
  | nil => rfl
  | cons i items ih =>
    obtain ⟨hi, hitems⟩ := List.forall_mem_cons.1 h
    rw [List.flatMap_cons]
    exact statementBits?_append hi (ih hitems)

/-- If nothing is disturbed, the code of what travels in front of an item takes the bits of what
travels in front of it, though trailing padding has no code. -/
theorem Undisturbed.bits? {c : Config} {m : Model} {dir : Direction} {a : Assignment} {n : Nat}
    (h : Undisturbed items) (hitems : ∀ i ∈ items, (∀ bits, i.content ≠ .padding bits true) →
      Program.bits? c m dir (i.statements (Program.purpose c dir)) = some i.bits)
    (hi : items[n]? = some i) (hactive : i.isActive a = true) :
    Program.bits? c m dir (((items.take n).filter (·.isActive a)).flatMap
        (Item.statements (Program.purpose c dir))) = some (activeBits a (items.take n)) := by
  refine bits?_statements fun j hj => hitems j ?_ fun bits hj' => ?_
  · exact List.mem_of_mem_take (List.mem_filter.1 hj).1
  · have hnot := h.not_trailing hi hactive j hj
    rw [Item.isTrailing_iff.2 ⟨bits, hj'⟩] at hnot
    cases hnot

end

/-- **Trailing padding** may be left unwritten. In every sector of every packing, no item behind
trailing padding is compatible with it. So under every assignment of variants to unions, the code of
what travels in front of an item takes as many bits as the item is away from the beginning of the
sector, although trailing padding has no code. -/
theorem trailing_of_pack {c : Config} {g : Registry} {m : Model} {capacity available : Nat}
    {groups : List (List Decl)} {sectors : List Sector} (hbuild : Model.build c g = some m)
    (herrors : m.errors = []) (hgroups : m.Grouping groups)
    (hpack : pack capacity available groups = .ok sectors) :
    ∀ s ∈ sectors,
      (∀ front i back, s.items = front ++ i :: back → i.isTrailing = true →
        ∀ j ∈ back, ¬ i.Compatible j) ∧
      ∀ (dir : Direction) (a : Assignment) (k : Nat) (i : Item), s.items[k]? = some i →
        i.isActive a = true → ∃ offset, s.layout[k]? = some (offset, i.bits) ∧
          Program.bits? c m dir (((s.items.take k).filter (·.isActive a)).flatMap
            (Item.statements (Program.purpose c dir))) = some offset := by
  have hm := Model.sound_of_build hbuild herrors
  have hplanned := planned_of_pack hbuild herrors hgroups hpack
  obtain ⟨cursor, placed, hplaces, -, rfl⟩ := placesGroups_of_pack hpack
  intro s hs
  have hplanned := fun dir => hplanned dir s hs
  obtain ⟨n, -, rfl⟩ := List.mem_map.1 hs
  have hregroups := hplaces.regroups hm hgroups n
  have hundisturbed : Undisturbed (sectorOf placed n).items :=
    hregroups.undisturbed ((hplaces.quiet hm hgroups.sub (.nil 0)).undisturbed n)
  constructor
  · intro front i back hitems htrailing j hj
    rw [hitems, Undisturbed, List.pairwise_append] at hundisturbed
    exact List.rel_of_pairwise_cons hundisturbed.2.1 hj htrailing
  · intro dir a k i hi hactive
    obtain ⟨us, bits, haligned, -⟩ := hplaces.aligned hm hgroups n
    have hfollows := Sector.follows_of_regroups (s := ([], 0)) hregroups
      (Sector.follows_layout haligned a)
    refine ⟨0 + activeBits a ((sectorOf placed n).items.take k), hfollows.getElem? hi hactive, ?_⟩
    rw [Nat.zero_add]
    exact hundisturbed.bits? (hplanned dir) hi hactive

namespace Sample

/-- Which items of the small layout are trailing padding: in the first sector one stands in front of
items of the other branch. -/
theorem trailing : (Model.build config registry).map
      (fun m => (pack 16 8 m.groups).toOption.map fun sectors =>
        sectors.map fun s => s.items.map Item.isTrailing) =
    some (some [[false, false, true, false, true], [false, false], [false]]) := by
  decide +kernel

/-- In the first sector of the small layout, the two items behind the first trailing padding belong
to the other branch, and all code is where the layout says. -/
theorem trailing_in_first_branch : ∃ m sectors, Model.build config registry = some m ∧
    m.errors = [] ∧ pack 16 8 m.groups = .ok sectors ∧ ∃ s ∈ sectors,
      (∃ front i back, s.items = front ++ i :: back ∧ i.isTrailing = true ∧ back.length = 2 ∧
        ∀ j ∈ back, ¬ i.Compatible j) ∧
      ∀ (dir : Direction) (a : Assignment) (k : Nat) (i : Item), s.items[k]? = some i →
        i.isActive a = true → ∃ offset, s.layout[k]? = some (offset, i.bits) ∧
          Program.bits? config m dir (((s.items.take k).filter (·.isActive a)).flatMap
            (Item.statements (Program.purpose config dir))) = some offset := by
  obtain ⟨m, sectors, hm, herrors, hpack, -⟩ := packs
  have hflags := trailing
  simp only [hm, Option.map_some, hpack, Except.toOption, Option.some.injEq] at hflags
  obtain ⟨s, rest, rfl, hs, -⟩ := List.map_eq_cons_iff.1 hflags
  have hgrouping := (Model.sound_of_build hm herrors).grouping
  obtain ⟨hbehind, hcode⟩ := trailing_of_pack hm herrors hgrouping hpack s List.mem_cons_self
  refine ⟨m, s :: rest, hm, herrors, hpack, s, List.mem_cons_self, ?_, hcode⟩
  have hlength : s.items.length = 5 := by simpa using congrArg List.length hs
  have hitems : s.items = s.items.take 2 ++ s.items[2] :: s.items.drop 3 := by
    rw [List.getElem_cons_drop, List.take_append_drop]
  have htrailing : s.items[2].isTrailing = true := by
    have hflag := congrArg (·[2]?) hs
    simpa [List.getElem?_eq_getElem, hlength] using hflag
  exact ⟨_, _, _, hitems, htrailing, by simp [hlength], hbehind _ _ _ hitems htrailing⟩

end Sample

end BitLayout
