import BitLayout.Proofs.Sector.Leafwise

/-!
# BitLayout.Proofs.Sector.Arrangement

Any way to lay out the leaves of some items. An arrangement keeps the order of the leaves and puts
each of them inside one sector; the branches of a union begin at one position, behind what all
variants share, and what follows the union stands behind all branches. Space may be left anywhere,
in front of a branch too.

* `Arranged.leavesUnder_eq`: an arrangement has all leaves, each once and in order;
* `Arranged.map`: sectors may be left out and others renumbered, as long as the order is kept;
* `Arranged.inRow_upto`: the packer of leaves stays in front of every arrangement;
* `arrangedIn_of_inRow`: and its own placements are arrangements.
-/

namespace BitLayout

open Packing

/-- Leaves of items in a row between two positions, each with the position where it begins. In a
union, all branches stand between one `start` and one `resume`. -/
inductive Arranged (capacity : Nat) :
    List Item → Cursor → Cursor → List (Item × Cursor) → Prop where
  | nil {c d : Cursor} (h : c.Upto d) : Arranged capacity [] c d []
  | dropped {i : Item} {items : List Item} {c d : Cursor} {spots : List (Item × Cursor)}
    (hi : i.isDropped = true) (h : Arranged capacity items c d spots) :
    Arranged capacity (i :: items) c d spots
  | leaf {i : Item} {items : List Item} {c d e : Cursor} {spots : List (Item × Cursor)}
    (hi : i.isDropped = false) (hsplit : i.split? = none) (hupto : c.Upto e)
    (hfit : e.used + i.bits ≤ capacity)
    (h : Arranged capacity items ⟨e.sector, e.used + i.bits⟩ d spots) :
    Arranged capacity (i :: items) c d ((i, e) :: spots)
  | row {i : Item} {parts items : List Item} {c d e : Cursor} {inner spots : List (Item × Cursor)}
    (hsplit : i.split? = some (.row parts)) (hinner : Arranged capacity parts c e inner)
    (h : Arranged capacity items e d spots) : Arranged capacity (i :: items) c d (inner ++ spots)
  | union {i : Item} {shared items : List Item} {branches : List Branch}
    {c d start resume : Cursor} {front spots : List (Item × Cursor)}
    {arms : Branch → List (Item × Cursor)} (hsplit : i.split? = some (.union shared branches))
    (hshared : Arranged capacity shared c start front)
    (harms : ∀ b ∈ branches, Arranged capacity b.parts start resume (arms b))
    (hupto : start.Upto resume) (h : Arranged capacity items resume d spots) :
    Arranged capacity (i :: items) c d (front ++ branches.flatMap arms ++ spots)

namespace Arranged

variable {capacity capacity' : Nat} {items : List Item} {c d : Cursor}
  {spots : List (Item × Cursor)}

/-! ## leaves -/

/-- What travels of an item is what travels of its parts. -/
theorem leavesUnder_of_split {i : Item} {s : Split} (h : i.split? = some s) (a : Assignment) :
    leavesUnder a [i] = leavesUnder a s.items :=
  leavesUnder_congr (by rw [List.flatMap_singleton, Item.leaves_of_split h])

/-- **Nothing is left out**: under every assignment of variants to unions, the leaves that travel of
the items are arranged, each once and in their order. -/
theorem leavesUnder_eq (h : Arranged capacity items c d spots) (a : Assignment) :
    leavesUnder a (spots.map Prod.fst) = leavesUnder a items := by
  induction h with
  | nil => rfl
  | @dropped i items c d spots hi h ih =>
    rw [leavesUnder_cons a i, leavesUnder_of_dropped hi, ih, List.nil_append]
  | @leaf i items c d e spots hi hsplit hupto hfit h ih =>
    rw [List.map_cons, leavesUnder_cons, ih, ← leavesUnder_cons]
  | @row i parts items c d e inner spots hsplit hinner h ihinner ih =>
    rw [List.map_append, leavesUnder_append, ihinner, ih, leavesUnder_cons a i,
      leavesUnder_of_split hsplit, Split.items]
  | @union i shared items branches c d start resume front spots arms hsplit hshared harms hupto h
      ihshared iharms ih =>
    have hbranches : leavesUnder a ((branches.flatMap arms).map Prod.fst) =
        leavesUnder a (branches.flatMap Branch.items) := by
      rw [List.map_flatMap, leavesUnder_flatMap, leavesUnder_flatMap]
      refine List.flatMap_congr fun b hb => ?_
      rw [iharms b hb, leavesUnder_branch]
    rw [List.map_append, List.map_append, leavesUnder_append, leavesUnder_append, ihshared,
      hbranches, ih, leavesUnder_cons a i, leavesUnder_of_split hsplit, Split.items,
      leavesUnder_append]

/-! ## other sectors -/

theorem mono (h : Arranged capacity items c d spots) (hle : capacity ≤ capacity') :
    Arranged capacity' items c d spots := by
  induction h with
  | nil h => exact .nil h
  | dropped hi h ih => exact .dropped hi ih
  | leaf hi hsplit hupto hfit h ih => exact .leaf hi hsplit hupto (Nat.le_trans hfit hle) ih
  | row hsplit hinner h ihinner ih => exact .row hsplit ihinner ih
  | union hsplit hshared harms hupto h ihshared iharms ih =>
    exact .union hsplit ihshared iharms hupto ih

/-- There may be more space behind. -/
theorem extend (h : Arranged capacity items c d spots) {e : Cursor} (hde : d.Upto e) :
    Arranged capacity items c e spots := by
  induction h with
  | nil h => exact .nil (h.trans hde)
  | dropped hi h ih => exact .dropped hi (ih hde)
  | leaf hi hsplit hupto hfit h ih => exact .leaf hi hsplit hupto hfit (ih hde)
  | row hsplit hinner h ihinner ih => exact .row hsplit hinner (ih hde)
  | union hsplit hshared harms hupto h ihshared iharms ih =>
    exact .union hsplit hshared harms hupto (ih hde)

/-- Positions may be replaced by others, in the same order, if those in the sector of a leaf are
only moved to another sector. -/
theorem map {f : Cursor → Cursor} (h : Arranged capacity items c d spots)
    (hf : ∀ {a b : Cursor}, a.Upto b → (f a).Upto (f b))
    (hspots : ∀ x ∈ spots, ∃ s, ∀ used ≤ capacity, f ⟨x.2.sector, used⟩ = ⟨s, used⟩) :
    Arranged capacity items (f c) (f d) (spots.map fun x => (x.1, f x.2)) := by
  induction h with
  | nil h => exact .nil (hf h)
  | dropped hi h ih => exact .dropped hi (ih hspots)
  | @leaf i items c d e spots hi hsplit hupto hfit h ih =>
    obtain ⟨⟨s, hs⟩, hrest⟩ := List.forall_mem_cons.1 hspots
    have he : f e = ⟨s, e.used⟩ := hs e.used (by omega)
    have hnext := ih hrest
    rw [hs _ hfit] at hnext
    refine .leaf hi hsplit (hf hupto) ?_ ?_
    · rw [he]
      exact hfit
    · rw [he]
      exact hnext
  | row hsplit hinner h ihinner ih =>
    rw [List.map_append]
    exact .row hsplit (ihinner fun x hx => hspots x (List.mem_append_left _ hx))
      (ih fun x hx => hspots x (List.mem_append_right _ hx))
  | union hsplit hshared harms hupto h ihshared iharms ih =>
    rw [List.map_append, List.map_append, List.map_flatMap]
    refine .union hsplit (ihshared fun x hx => hspots x ?_) (fun b hb =>
      iharms b hb fun x hx => hspots x ?_) (hf hupto) (ih fun x hx => hspots x ?_)
    · exact List.mem_append_left _ (List.mem_append_left _ hx)
    · exact List.mem_append_left _ (List.mem_append_right _ (List.mem_flatMap.2 ⟨b, hb, hx⟩))
    · exact List.mem_append_right _ hx

/-! ## the packer of leaves -/

/-- A leaf that fits behind a position is placed, and ends no later. -/
theorem leafwise_upto {i : Item} (hsplit : i.split? = none) (hupto : c.Upto d)
    (hfit : d.used + i.bits ≤ capacity) : ∃ e out,
      leafwise capacity i c = .ok (e, out) ∧ e.Upto ⟨d.sector, d.used + i.bits⟩ := by
  have hle : c.Upto ⟨d.sector, d.used + i.bits⟩ := hupto.trans (.inr ⟨rfl, Nat.le_add_right ..⟩)
  cases homit : i.isOmitted with
  | true => exact ⟨c, _, leafwiseWithin_of_omitted homit i.height c, hle⟩
  | false =>
    rw [leafwise_of_whole homit hsplit, placeWhole]
    by_cases hhere : c.used + i.bits ≤ capacity
    · rw [if_pos hhere]
      refine ⟨_, _, rfl, ?_⟩
      unfold Cursor.Upto at *
      dsimp only at *
      omega
    · rw [if_neg hhere, if_neg (by omega)]
      refine ⟨_, _, rfl, ?_⟩
      unfold Cursor.Upto at *
      dsimp only at *
      omega

/-- **Staying in front**: the packer of leaves succeeds where there is an arrangement, and ends no
later, if it begins no later. -/
theorem inRow_upto (h : Arranged capacity items c d spots) {e : Cursor} (hec : e.Upto c) :
    ∃ finish out, inRow (leafwise capacity) items e = .ok (finish, out) ∧ finish.Upto d := by
  induction h generalizing e with
  | nil h => exact ⟨e, [], rfl, hec.trans h⟩
  | @dropped i items c d spots hi h ih =>
    rw [Item.isDropped, Bool.and_eq_true, Bool.not_eq_true'] at hi
    obtain ⟨finish, out, hout, hfinish⟩ := ih hec
    have hone : leafwise capacity i e = _ := leafwiseWithin_of_omitted hi.1 i.height e
    exact ⟨finish, _, inRow_ok hone hout, hfinish⟩
  | @leaf i items c d pos spots hi hsplit hupto hfit h ih =>
    obtain ⟨next, front, hfront, hnext⟩ := leafwise_upto hsplit (hec.trans hupto) hfit
    obtain ⟨finish, rest, hrest, hfinish⟩ := ih hnext
    exact ⟨finish, _, inRow_ok hfront hrest, hfinish⟩
  | row hsplit hinner h ihinner ih =>
    obtain ⟨middle, front, hfront, hmiddle⟩ := ihinner hec
    obtain ⟨finish, rest, hrest, hfinish⟩ := ih hmiddle
    exact ⟨finish, _, inRow_ok ((leafwise_of_row hsplit e).trans hfront) hrest, hfinish⟩
  | @union i shared items branches c d start resume front spots arms hsplit hshared harms hupto h
      ihshared iharms ih =>
    obtain ⟨begin, front, hfront, hbegin⟩ := ihshared hec
    have hbranches : ∀ b ∈ branches, ∃ placement : Placement,
        inRow (leafwise capacity) b.parts begin = .ok placement ∧
          placement.1.Upto resume := by
      intro b hb
      obtain ⟨stop, out, hout, hstop⟩ := iharms b hb hbegin
      exact ⟨(stop, out), hout, hstop⟩
    obtain ⟨ends, rfl, hends, hstops⟩ := inBranches_ok hbranches
    have hjoin : (joinBranches capacity begin (ends.map fun e => (e.1.conditions, e.2))).1.Upto
        resume := by
      refine joinBranches_upto (hbegin.trans hupto) fun x hx => ?_
      obtain ⟨e, he, rfl⟩ := List.mem_map.1 hx
      exact hstops e he
    obtain ⟨finish, rest, hrest, hfinish⟩ := ih hjoin
    exact ⟨finish, _, inRow_ok ((leafwise_of_union hsplit e).trans (inUnion_ok hfront hends)) hrest,
      hfinish⟩

end Arranged

/-! ## its placements -/

namespace Packing

variable {capacity : Nat} {items : List Item} {i : Item} {c d : Cursor} {out : List Placed}

/-- Items in a row are arranged in sectors that something is placed in. -/
structure ArrangedIn (capacity : Nat) (items : List Item) (c d : Cursor) (out : List Placed) :
    Prop where
  used : d.used ≤ capacity
  arranged : ∃ spots, Arranged capacity items c d spots ∧
    ∀ x ∈ spots, x.2.sector ∈ (spread out).map Placed.sector

variable {e : Cursor} {front rest : List Placed}

/-- A leaf stands in its sector. -/
theorem sector_mem_spread {s : Nat} (hi : i.isDropped = false) (hsplit : i.split? = none)
    (hmem : (⟨s, i⟩ : Placed) ∈ out) : s ∈ (spread out).map Placed.sector := by
  refine List.mem_map.2 ⟨⟨s, i⟩, List.mem_flatMap.2 ⟨_, hmem, ?_⟩, rfl⟩
  simp [Item.leaves_of_none hsplit, hi]

/-- A leaf in front of a row that is arranged. -/
theorem ArrangedIn.leaf {s used : Nat} (hi : i.isDropped = false) (hsplit : i.split? = none)
    (hupto : c.Upto ⟨s, used⟩) (hfit : used + i.bits ≤ capacity)
    (hmem : (⟨s, i⟩ : Placed) ∈ front)
    (h : ArrangedIn capacity items ⟨s, used + i.bits⟩ d rest) :
    ArrangedIn capacity (i :: items) c d (front ++ rest) := by
  obtain ⟨hused, spots, hspots, hin⟩ := h
  refine ⟨hused, _, .leaf hi hsplit hupto hfit hspots, List.forall_mem_cons.2 ⟨?_, fun x hx => ?_⟩⟩
  · exact sector_mem_spread hi hsplit (List.mem_append_left _ hmem)
  · rw [spread_append, List.map_append]
    exact List.mem_append_right _ (hin x hx)

/-- A union in front of a row, if its shared parts and its branches are arranged. -/
theorem ArrangedIn.union {shared : List Item} {ends : List (Branch × Placement)} {start : Cursor}
    {finish : Placement} (hsplit : i.split? = some (.union shared (ends.map Prod.fst)))
    (hfinish : joinBranches capacity start (ends.map fun e => (e.1.conditions, e.2)) = finish)
    (hshared : ArrangedIn capacity shared c start front)
    (hends : ∀ e ∈ ends, ArrangedIn capacity e.1.parts start e.2.1 e.2.2)
    (h : finish.1.used ≤ capacity → ArrangedIn capacity items finish.1 d rest) :
    ArrangedIn capacity (i :: items) c d (front ++ finish.2 ++ rest) := by
  obtain ⟨hstart, first, hfirst, hin⟩ := hshared
  have hjoin := upto_joinBranches capacity start (ends.map fun e => (e.1.conditions, e.2))
  have hplaced : finish.2 = ends.flatMap fun e =>
      e.2.2 ++ fillBranch capacity e.1.conditions e.2.1 finish.1 := by
    rw [← hfinish]
    simp only [joinBranches, List.flatMap_map]
  rw [hfinish] at hjoin
  have hused : finish.1.used ≤ capacity := hjoin.2.2 hstart fun x hx => by
    obtain ⟨e, he, rfl⟩ := List.mem_map.1 hx
    exact (hends e he).used
  have harms : ∀ b ∈ ends.map Prod.fst, ∃ spots, Arranged capacity b.parts start finish.1 spots ∧
      ∀ x ∈ spots, x.2.sector ∈ (spread finish.2).map Placed.sector := by
    intro b hb
    obtain ⟨e, he, rfl⟩ := List.mem_map.1 hb
    obtain ⟨-, spots, hspots, hin⟩ := hends e he
    refine ⟨spots, hspots.extend (hjoin.2.1 _ (List.mem_map_of_mem he)), fun x hx => ?_⟩
    rw [hplaced, spread_flatMap, List.map_flatMap]
    refine List.mem_flatMap.2 ⟨e, he, ?_⟩
    rw [spread_append, List.map_append]
    exact List.mem_append_left _ (hin x hx)
  choose! arms harms using harms
  obtain ⟨hused', spots, hspots, hin'⟩ := h hused
  refine ⟨hused', _, .union hsplit hfirst (fun b hb => (harms b hb).1) hjoin.1 hspots, ?_⟩
  intro x hx
  rw [spread_append, spread_append, List.map_append, List.map_append]
  refine List.mem_append.2 ((List.mem_append.1 hx).imp (fun hx => ?_) (hin' x))
  refine List.mem_append.2 ((List.mem_append.1 hx).imp (hin x) fun hx => ?_)
  obtain ⟨b, hb, hx⟩ := List.mem_flatMap.1 hx
  exact (harms b hb).2 x hx

/-- An item that is not taken apart is arranged in front of a row, if it can be placed. -/
theorem arrangedIn_whole (hc : c.used ≤ capacity) (hsplit : i.split? = none)
    (h : leafwise capacity i c = .ok (e, front))
    (hrest : e.used ≤ capacity → ArrangedIn capacity items e d rest) :
    ArrangedIn capacity (i :: items) c d (front ++ rest) := by
  cases homit : i.isOmitted with
  | true =>
    rw [leafwise, leafwiseWithin_of_omitted homit] at h
    cases h
    cases hdefault : i.isDefaulted with
    | true =>
      have hi : i.isDropped = false := by simp [Item.isDropped, hdefault]
      have hbits := Item.bits_of_omitted homit
      have hrest : ArrangedIn capacity items ⟨c.sector, c.used + i.bits⟩ d rest := by
        rw [hbits]
        exact hrest hc
      exact .leaf hi hsplit (.refl c) (by omega) (by simp) hrest
    | false =>
      have hi : i.isDropped = true := by simp [Item.isDropped, homit, hdefault]
      obtain ⟨hused, spots, hspots, hin⟩ := hrest hc
      exact ⟨hused, spots, .dropped hi hspots, hin⟩
  | false =>
    have hi : i.isDropped = false := by simp [Item.isDropped, homit]
    rw [leafwise_of_whole homit hsplit, placeWhole] at h
    split at h
    · next hfit =>
      cases h
      exact .leaf hi hsplit (.refl c) hfit (by simp) (hrest hfit)
    · split at h
      · cases h
      · next hbits =>
        cases h
        have hbits := Nat.le_of_not_lt hbits
        have hnext := hrest hbits
        rw [← Nat.zero_add i.bits] at hnext hbits
        exact .leaf hi hsplit (.inl (Nat.lt_succ_self _)) hbits (by simp) hnext

/-- An item that is placed leaf by leaf in front of a row is arranged with it. -/
theorem arrangedIn_cons (hc : c.used ≤ capacity) (h : leafwise capacity i c = .ok (e, front))
    (hparts : ∀ parts c d out, (∀ j ∈ parts, j.height < i.height) → c.used ≤ capacity →
      inRow (leafwise capacity) parts c = .ok (d, out) → ArrangedIn capacity parts c d out)
    (hrest : e.used ≤ capacity → ArrangedIn capacity items e d rest) :
    ArrangedIn capacity (i :: items) c d (front ++ rest) := by
  cases hsplit : i.split? with
  | none => exact arrangedIn_whole hc hsplit h hrest
  | some s =>
    have hlt := Item.height_lt_of_split hsplit
    cases s with
    | row parts =>
      rw [leafwise_of_row hsplit] at h
      obtain ⟨hused, inner, hinner, hin⟩ := hparts parts c e front hlt hc h
      obtain ⟨hused', spots, hspots, hin'⟩ := hrest hused
      refine ⟨hused', _, .row hsplit hinner hspots, fun x hx => ?_⟩
      rw [spread_append, List.map_append]
      exact List.mem_append.2 ((List.mem_append.1 hx).imp (hin x) (hin' x))
    | union shared branches =>
      rw [leafwise_of_union hsplit] at h
      obtain ⟨⟨start, first⟩, hfirst, h⟩ := bind_ok h
      obtain ⟨results, hresults, h⟩ := bind_ok h
      rw [← List.map_id branches] at hresults
      obtain ⟨ends, rfl, rfl, hends⟩ := inBranches_map hresults
      cases h
      have hshared : ArrangedIn capacity shared c start first :=
        hparts shared c start first (fun j hj => hlt j (Split.mem_items_of_shared hj)) hc hfirst
      refine .union hsplit rfl hshared (fun e he => ?_) hrest
      refine hparts _ _ _ _ (fun j hj => hlt j ?_) hshared.used (hends e he)
      exact Split.mem_items_of_branch (List.mem_map_of_mem he) hj

/-- **Its placements are arrangements**: what the packer of leaves places in a row is arranged in
the sectors that it is placed in. -/
theorem arrangedIn_of_inRow (hc : c.used ≤ capacity)
    (h : inRow (leafwise capacity) items c = .ok (d, out)) : ArrangedIn capacity items c d out := by
  obtain ⟨bound, hbound⟩ : ∃ bound, ∀ i ∈ items, i.height < bound :=
    ⟨(items.map Item.height).sum + 1, fun i hi =>
      Nat.lt_succ_of_le (List.le_sum_of_mem (List.mem_map_of_mem hi))⟩
  -- Parts have fewer levels than the item, so the induction is on a bound for all levels.
  induction bound generalizing items c d out with
  | zero =>
    cases items with
    | nil =>
      cases h
      exact ⟨hc, [], .nil (.refl _), fun _ hx => (nomatch hx)⟩
    | cons i items => exact absurd (hbound i List.mem_cons_self) (Nat.not_lt_zero _)
  | succ bound ih =>
    induction items generalizing c out with
    | nil =>
      cases h
      exact ⟨hc, [], .nil (.refl _), fun _ hx => (nomatch hx)⟩
    | cons i items ihrest =>
      obtain ⟨e, front, rest, hfront, hrest, rfl⟩ := inRow_cons h
      obtain ⟨hi, hitems⟩ := List.forall_mem_cons.1 hbound
      refine arrangedIn_cons hc hfront (fun parts c d out hlt hc hparts => ?_)
        fun he => ihrest he hrest hitems
      refine ih hc hparts fun j hj => ?_
      have hj := hlt j hj
      omega

end Packing

end BitLayout
