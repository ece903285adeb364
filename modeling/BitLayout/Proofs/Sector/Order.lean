import BitLayout.Proofs.Sector.Alignment

/-!
# BitLayout.Proofs.Sector.Order

Where things are placed. The branches of a union interleave when they are spread over several
sectors, so as a whole the packer does not place from left to right. But what travels together under
an assignment of variants to unions is placed in the order of the sectors, and groups are placed
behind each other.

* `Places.bounds`: what is placed stands between the cursors;
* `Places.sorted`, `PlacesGroups.sorted`: what travels together is in order;
* `PlacesGroups.apart`: groups share no sector;
* `Packing.flatMap_sectors`: what is in order is found again by going through the sectors.
-/

namespace BitLayout

open Packing

variable {a : Assignment}

/-- Whether an item is a value that travels under an assignment. -/
def Item.moves (a : Assignment) (i : Item) : Bool := i.isActive a && !i.isPadding

section

variable {capacity : Nat} {cs : List Condition} {ps : List Path} {c c' : Cursor}
  {out : List Placed}

/-! ## bounds -/

/-- What the branches of a union have placed stands between its start and its end. -/
theorem sector_joinBranches {d : Cursor} {u : Path} {ends : List (Variant × Placement)}
    (hends : ∀ e ∈ ends, d.sector ≤ e.2.1.sector ∧
      ∀ x ∈ e.2.2, d.sector ≤ x.sector ∧ x.sector ≤ e.2.1.sector) :
    ∀ x ∈ (joinBranches capacity d (branchesOf cs u ends)).2, d.sector ≤ x.sector ∧
      x.sector ≤ (joinBranches capacity d (branchesOf cs u ends)).1.sector := by
  intro x hx
  obtain ⟨e, he, hx | ⟨hstart, hstop, -⟩⟩ := mem_joinBranches hx
  · have hbranch := (hends e he).2 x hx
    have hstop := (upto_joinBranches capacity d (branchesOf cs u ends)).2.1 _
      (List.mem_map_of_mem he)
    have hstop := hstop.sector_le
    dsimp only at hstop
    omega
  · have hbranch := (hends e he).1
    omega

/-- What is placed stands between the cursors. -/
theorem Places.bounds (h : Places capacity cs ps c c' out) :
    c.sector ≤ c'.sector ∧ ∀ x ∈ out, c.sector ≤ x.sector ∧ x.sector ≤ c'.sector := by
  induction h with
  | nil => exact ⟨Nat.le_refl _, fun _ hx => (nomatch hx)⟩
  | @omitted cs p ps c c' out homit h ih =>
    constructor
    · exact ih.1
    · intro x hx
      cases List.mem_append.1 hx with
      | inl hx =>
        split at hx
        · rw [List.mem_singleton.1 hx]
          exact ⟨Nat.le_refl _, ih.1⟩
        · cases hx
      | inr hx => exact ih.2 x hx
  | fits homit hfit h ih => exact ⟨ih.1, List.forall_mem_cons.2 ⟨⟨Nat.le_refl _, ih.1⟩, ih.2⟩⟩
  | row homit hfit hp hinner h ihinner ih =>
    constructor
    · exact Nat.le_trans ihinner.1 ih.1
    · intro x hx
      cases List.mem_append.1 hx with
      | inl hx =>
        have hx := ihinner.2 x hx
        omega
      | inr hx =>
        have hx := ih.2 x hx
        omega
  | @union cs p ps shared arms c d c' first out ends homit hfit hs hfirst harms hends h ihfirst
      ihends ih =>
    have hstart := (upto_joinBranches capacity d (branchesOf cs p ends)).1.sector_le
    constructor
    · omega
    · intro x hx
      cases List.mem_append.1 hx with
      | inl hx =>
        rcases List.mem_append.1 hx with hx | hx
        · have hx := ihfirst.2 x hx
          omega
        · have hx := sector_joinBranches ihends x hx
          omega
      | inr hx =>
        have hx := ih.2 x hx
        omega
  | @next cs p ps c c' out homit hfit hwhole hbits h ih =>
    obtain ⟨hle, hout⟩ := ih
    dsimp only at hle hout
    constructor
    · omega
    · intro x hx
      cases List.mem_append.1 hx with
      | inl hx =>
        have hx := (mem_fill hx).1
        omega
      | inr hx =>
        rcases List.mem_cons.1 hx with rfl | hx
        · simp only [Placed.value, Cursor.next]
          omega
        · have hx := hout x hx
          omega

/-- Everything that is placed stands under the conditions of the values at least. -/
theorem Places.conditions (h : Places capacity cs ps c c' out) :
    ∀ x ∈ out, ∃ ds, x.item.conditions = cs ++ ds := by
  have padding {cs : List Condition} {x : Placed}
      (hx : ∃ bits trailing, x.item = .padding cs bits trailing) :
      ∃ ds, x.item.conditions = cs ++ ds := by
    obtain ⟨bits, trailing, hx⟩ := hx
    exact ⟨[], by rw [hx, List.append_nil]; rfl⟩
  have value (c : Cursor) (cs : List Condition) (p : Path) :
      ∃ ds, (Placed.value c cs p).item.conditions = cs ++ ds := ⟨[], (List.append_nil _).symm⟩
  induction h with
  | nil => exact fun _ hx => (nomatch hx)
  | @omitted cs p ps c c' out homit h ih =>
    intro x hx
    cases List.mem_append.1 hx with
    | inl hx =>
      split at hx
      · rw [List.mem_singleton.1 hx]
        exact value c cs p
      · cases hx
    | inr hx => exact ih x hx
  | fits homit hfit h ih => exact List.forall_mem_cons.2 ⟨value .., ih⟩
  | row homit hfit hp hinner h ihinner ih =>
    intro x hx
    exact (List.mem_append.1 hx).elim (ihinner x) (ih x)
  | @union cs p ps shared arms c d c' first out ends homit hfit hs hfirst harms hends h ihfirst
      ihends ih =>
    intro x hx
    cases List.mem_append.1 hx with
    | inl hx =>
      rcases List.mem_append.1 hx with hx | hx
      · exact ihfirst x hx
      · obtain ⟨e, he, hx⟩ := mem_joinBranches hx
        have hbranch : ∃ ds, x.item.conditions = e.1.conditions cs p ++ ds :=
          hx.elim (ihends e he x) fun hx => padding hx.2.2
        obtain ⟨ds, hds⟩ := hbranch
        exact ⟨_, hds.trans (List.append_assoc ..)⟩
    | inr hx => exact ih x hx
  | next homit hfit hwhole hbits h ih =>
    intro x hx
    cases List.mem_append.1 hx with
    | inl hx => exact padding (mem_fill hx).2
    | inr hx =>
      rcases List.mem_cons.1 hx with rfl | hx
      · exact value ..
      · exact ih x hx

/-! ## order -/

/-- The values among placed items that travel under an assignment stand in the order of the
sectors. -/
def Sorted (a : Assignment) (out : List Placed) : Prop :=
  (out.filter (·.item.moves a)).Pairwise fun x y => x.sector ≤ y.sector

theorem Sorted.append {xs ys : List Placed} {n : Nat} (h : Sorted a xs) (h' : Sorted a ys)
    (hxs : ∀ x ∈ xs, x.sector ≤ n) (hys : ∀ y ∈ ys, n ≤ y.sector) : Sorted a (xs ++ ys) := by
  rw [Sorted, List.filter_append, List.pairwise_append]
  refine ⟨h, h', fun x hx y hy => ?_⟩
  have hx := hxs x (List.mem_filter.1 hx).1
  have hy := hys y (List.mem_filter.1 hy).1
  omega

/-- Items that do not travel are sorted. -/
theorem sorted_of_unmoved {xs : List Placed} (h : ∀ x ∈ xs, x.item.moves a = false) :
    xs.filter (·.item.moves a) = [] ∧ Sorted a xs := by
  have hnil : xs.filter (·.item.moves a) = [] :=
    List.filter_eq_nil_iff.2 fun x hx => Bool.eq_false_iff.1 (h x hx)
  constructor
  · exact hnil
  · rw [Sorted, hnil]
    exact .nil

theorem Item.moves_padding {i : Item} (h : ∃ cs bits trailing, i = .padding cs bits trailing) :
    i.moves a = false := by
  obtain ⟨cs, bits, trailing, rfl⟩ := h
  simp [moves, isPadding, path?, padding]

/-- Items under a condition that does not hold do not travel. -/
theorem Item.moves_of_inactive {i : Item} {cs ds : List Condition} {k : Condition} (hk : k ∈ cs)
    (hfalse : k.holds a = false) (h : i.conditions = cs ++ ds) : i.moves a = false := by
  have hinactive : i.isActive a = false := by
    rw [isActive, List.all_eq_false]
    exact ⟨k, h ▸ List.mem_append_left _ hk, by simp [hfalse]⟩
  simp [moves, hinactive]

/-- Branches are sorted together if each is: only one of them travels. -/
theorem sorted_branches {u : Path} {ends : List (Variant × Placement)}
    {f : Variant × Placement → List Placed} (hnodup : (ends.map (·.1.value)).Nodup)
    (hsorted : ∀ e ∈ ends, Sorted a (f e))
    (hunmoved : ∀ e ∈ ends, a.pick u ≠ e.1.value → ∀ x ∈ f e, x.item.moves a = false) :
    Sorted a (ends.flatMap f) := by
  induction ends with
  | nil => exact .nil
  | cons e ends ih =>
    obtain ⟨he, hsorted⟩ := List.forall_mem_cons.1 hsorted
    obtain ⟨hue, hunmoved⟩ := List.forall_mem_cons.1 hunmoved
    rw [List.map_cons, List.nodup_cons] at hnodup
    rw [List.flatMap_cons, Sorted, List.filter_append]
    by_cases hpick : a.pick u = e.1.value
    · have hrest : ∀ x ∈ ends.flatMap f, x.item.moves a = false := by
        intro x hx
        obtain ⟨e', he', hx⟩ := List.mem_flatMap.1 hx
        refine hunmoved e' he' (fun heq => hnodup.1 ?_) x hx
        rw [← hpick, heq]
        exact List.mem_map_of_mem he'
      rw [(sorted_of_unmoved hrest).1, List.append_nil]
      exact he
    · rw [(sorted_of_unmoved (hue hpick)).1, List.nil_append]
      exact ih hnodup.2 hsorted hunmoved

/-- The branches of a union are sorted if what each of them has placed is. -/
theorem sorted_joinBranches {d : Cursor} {u : Path} {ends : List (Variant × Placement)}
    (hnodup : (ends.map (·.1.value)).Nodup)
    (hends : ∀ e ∈ ends, Places capacity (e.1.conditions cs u) e.1.parts d e.2.1 e.2.2)
    (hsorted : ∀ e ∈ ends, Sorted a e.2.2) :
    Sorted a (joinBranches capacity d (branchesOf cs u ends)).2 := by
  have hjoin := (upto_joinBranches capacity d (branchesOf cs u ends)).2.1
  rw [joinBranches] at hjoin ⊢
  dsimp only at hjoin ⊢
  generalize hfinish : List.foldl (fun c b => c.later b.2.1) d (branchesOf cs u ends) = finish
    at hjoin ⊢
  rw [branchesOf, List.flatMap_map]
  refine sorted_branches hnodup (u := u) (fun e he => ?_) fun e he hpick x hx => ?_
  · have hstop := (hjoin _ (List.mem_map_of_mem he)).sector_le
    have hpadding : Sorted a (fillBranch capacity (e.1.conditions cs u) e.2.1 finish) :=
      (sorted_of_unmoved fun x hx => Item.moves_padding ⟨_, (mem_fillBranch hstop hx).2.2⟩).2
    exact (hsorted e he).append hpadding (fun x hx => ((hends e he).bounds.2 x hx).2)
      fun y hy => (mem_fillBranch hstop hy).1
  · have hstop := (hjoin _ (List.mem_map_of_mem he)).sector_le
    cases List.mem_append.1 hx with
    | inl hx =>
      obtain ⟨ds, hds⟩ := (hends e he).conditions x hx
      exact Item.moves_of_inactive (Variant.mem_conditions cs u e.1) (Variant.holds_false hpick) hds
    | inr hx => exact Item.moves_padding ⟨_, (mem_fillBranch hstop hx).2.2⟩

theorem sorted_singleton (a : Assignment) (x : Placed) : Sorted a [x] :=
  (List.pairwise_singleton _ x).sublist List.filter_sublist

/-- **Order**: what travels together is placed in the order of the sectors. -/
theorem Places.sorted {g : Registry} {m : Model} (hm : m.Sound g)
    (h : Places capacity cs ps c c' out) (hreached : ∀ p ∈ ps, p.Reached m.roots cs)
    (a : Assignment) : Sorted a out := by
  induction h with
  | nil => exact .nil
  | @omitted cs p ps c c' out homit h ih =>
    have hout := ih fun q hq => hreached q (List.mem_cons_of_mem _ hq)
    split
    · refine (sorted_singleton a _).append hout (fun x hx => ?_) fun y hy => (h.bounds.2 y hy).1
      rw [List.mem_singleton.1 hx]
      exact Nat.le_refl _
    · exact hout
  | @fits cs p ps c c' out homit hfit h ih =>
    have hout := ih fun q hq => hreached q (List.mem_cons_of_mem _ hq)
    refine (sorted_singleton a _).append hout (fun x hx => ?_) fun y hy => (h.bounds.2 y hy).1
    rw [List.mem_singleton.1 hx]
    exact Nat.le_refl _
  | @row cs p ps qs c d c' inner out homit hfit hp hinner h ihinner ih =>
    obtain ⟨hp', hps⟩ := List.forall_mem_cons.1 hreached
    have hfront := ihinner fun q hq => .part hp' homit hp hq
    exact hfront.append (ih hps) (fun x hx => (hinner.bounds.2 x hx).2)
      fun y hy => (h.bounds.2 y hy).1
  | @union cs p ps shared arms c d c' first out ends homit hfit hs hfirst harms hends h ihfirst
      ihends ih =>
    obtain ⟨hp, hps⟩ := List.forall_mem_cons.1 hreached
    have hjoin := upto_joinBranches capacity d (branchesOf cs p ends)
    have hnodup : (ends.map (·.1.value)).Nodup := by
      have hvalues := hs.nodup_values (hp.sound hm).self
      rwa [← harms, List.map_map] at hvalues
    have hbranches := sorted_joinBranches hnodup hends fun e he =>
      ihends e he fun q hq => .arm hp homit hs (harms ▸ List.mem_map_of_mem he) hq
    have hsectors : ∀ x ∈ (joinBranches capacity d (branchesOf cs p ends)).2, d.sector ≤ x.sector ∧
        x.sector ≤ (joinBranches capacity d (branchesOf cs p ends)).1.sector :=
      sector_joinBranches fun e he => (hends e he).bounds
    have hfront := (ihfirst fun q hq => .shared hp homit hs hq).append hbranches
      (fun x hx => (hfirst.bounds.2 x hx).2) fun y hy => (hsectors y hy).1
    refine hfront.append (ih hps) (fun x hx => ?_) fun y hy => (h.bounds.2 y hy).1
    cases List.mem_append.1 hx with
    | inl hx =>
      have hx := (hfirst.bounds.2 x hx).2
      have hstart := hjoin.1.sector_le
      omega
    | inr hx => exact (hsectors x hx).2
  | @next cs p ps c c' out homit hfit hwhole hbits h ih =>
    have hout := ih fun q hq => hreached q (List.mem_cons_of_mem _ hq)
    have hfill : Sorted a (fill capacity cs c) :=
      (sorted_of_unmoved fun x hx => Item.moves_padding ⟨_, (mem_fill hx).2⟩).2
    have hrest : Sorted a (Placed.value c.next cs p :: out) := by
      refine (sorted_singleton a _).append hout (fun x hx => ?_) fun y hy => (h.bounds.2 y hy).1
      rw [List.mem_singleton.1 hx]
      exact Nat.le_refl _
    refine hfill.append hrest (fun x hx => Nat.le_of_eq (mem_fill hx).1) fun y hy => ?_
    rcases List.mem_cons.1 hy with rfl | hy
    · exact Nat.le_succ _
    · have hy := (h.bounds.2 y hy).1
      dsimp only at hy
      omega

end

/-! ## groups -/

namespace Packing

variable {before : Placement}

/-- A group that begins adds padding at most. -/
theorem opened_eq (capacity : Nat) (before : Placement) :
    ∃ padding, (opened capacity before).2 = before.2 ++ padding ∧
      ∀ x ∈ padding, ∃ bits trailing, x.item = .padding [] bits trailing := by
  unfold opened
  split
  · exact ⟨_, rfl, fun x hx => (mem_fill hx).2⟩
  · exact ⟨[], (List.append_nil _).symm, fun _ hx => (nomatch hx)⟩

/-- A group begins in a sector behind everything that is placed. -/
theorem lt_opened (capacity : Nat) (h : ∀ x ∈ before.2, x.sector ≤ before.1.sector) :
    ∀ x ∈ (opened capacity before).2, x.sector < (opened capacity before).1.sector := by
  unfold opened
  split
  · intro x hx
    refine Nat.lt_succ_of_le ?_
    cases List.mem_append.1 hx with
    | inl hx => exact h x hx
    | inr hx => exact Nat.le_of_eq (mem_fill hx).1
  · next hfresh =>
    intro x hx
    simp only [Bool.or_eq_true, List.any_eq_true, decide_eq_true_eq, not_or, not_exists,
      not_and] at hfresh
    have hle := h x hx
    have hne := hfresh.2 x hx
    omega

/-- What is placed when a group is placed stands up to the cursor behind it. -/
theorem sector_le_opened {capacity : Nat} {ps : List Path} {c : Cursor} {more : List Placed}
    (hbefore : ∀ x ∈ before.2, x.sector ≤ before.1.sector)
    (h : Places capacity [] ps (opened capacity before).1 c more) :
    ∀ x ∈ (opened capacity before).2 ++ more, x.sector ≤ c.sector := by
  intro x hx
  cases List.mem_append.1 hx with
  | inl hx =>
    have hlt := lt_opened capacity hbefore x hx
    have hle := h.bounds.1
    omega
  | inr hx => exact (h.bounds.2 x hx).2

end Packing

namespace PlacesGroups

variable {capacity : Nat} {groups : List (List Decl)} {before after : Placement}

/-- What travels together is placed in the order of the sectors. -/
theorem sorted {g : Registry} {m : Model} (hm : m.Sound g)
    (h : PlacesGroups capacity groups before after) (hgroups : ∀ d ∈ groups.flatten, d ∈ m.roots)
    (hbounds : ∀ x ∈ before.2, x.sector ≤ before.1.sector) {a : Assignment}
    (hsorted : Sorted a before.2) : Sorted a after.2 := by
  induction h with
  | nil => exact hsorted
  | @cons objects groups before after c more h hrest ih =>
    rw [List.flatten_cons] at hgroups
    obtain ⟨padding, hopened, hpadding⟩ := opened_eq capacity before
    have hmore : Sorted a more := h.sorted hm (fun p hp => by
      obtain ⟨d, hd, rfl⟩ := List.mem_map.1 hp
      exact .root (hgroups d (List.mem_append_left _ hd))) a
    have hfront : Sorted a (opened capacity before).2 := by
      rw [hopened, Sorted, List.filter_append,
        (sorted_of_unmoved fun x hx => Item.moves_padding ⟨_, hpadding x hx⟩).1, List.append_nil]
      exact hsorted
    have hafter : Sorted a ((opened capacity before).2 ++ more) :=
      hfront.append hmore (fun x hx => Nat.le_of_lt (lt_opened capacity hbounds x hx))
        fun y hy => (h.bounds.2 y hy).1
    exact ih (fun d hd => hgroups d (List.mem_append_right _ hd)) (sector_le_opened hbounds h)
      hafter

/-- What stands in the sector of something that is placed belongs to one group. -/
theorem apart (h : PlacesGroups capacity groups before after) {all : List (List Decl)}
    (hall : groups ⊆ all) (hbounds : ∀ x ∈ before.2, x.sector ≤ before.1.sector)
    (hapart : ∀ x ∈ before.2, ∃ objects ∈ all, ∀ y ∈ before.2, y.sector = x.sector →
      y.item.Lies objects) :
    ∀ x ∈ after.2, ∃ objects ∈ all, ∀ y ∈ after.2, y.sector = x.sector →
      y.item.Lies objects := by
  induction h with
  | nil => exact hapart
  | @cons objects groups before after c more h hrest ih =>
    obtain ⟨hobjects, hgroups⟩ := List.cons_subset.1 hall
    obtain ⟨padding, hopened, hpadding⟩ := opened_eq capacity before
    have hlt := lt_opened capacity hbounds
    have hmore : ∀ x ∈ more, (opened capacity before).1.sector ≤ x.sector := fun x hx =>
      (h.bounds.2 x hx).1
    have hlies : ∀ x ∈ more, x.item.Lies objects := h.lies fun p hp => by
      obtain ⟨d, hd, rfl⟩ := List.mem_map.1 hp
      exact .root hd
    refine ih hgroups (sector_le_opened hbounds h) fun x hx => ?_
    by_cases hbefore : ∃ z ∈ before.2, z.sector = x.sector
    · -- The sector is one of those before, which the group stays behind.
      obtain ⟨z, hz, hzx⟩ := hbefore
      obtain ⟨others, hothers, hz'⟩ := hapart z hz
      refine ⟨others, hothers, fun y hy hyx => ?_⟩
      have hz := hlt z (hopened ▸ List.mem_append_left _ hz)
      cases List.mem_append.1 hy with
      | inl hy =>
        rw [hopened] at hy
        cases List.mem_append.1 hy with
        | inl hy => exact hz' y hy (by omega)
        | inr hy => exact Item.lies_padding ⟨_, hpadding y hy⟩
      | inr hy =>
        have hy := hmore y hy
        omega
    · refine ⟨objects, hobjects, fun y hy hyx => ?_⟩
      cases List.mem_append.1 hy with
      | inl hy =>
        rw [hopened] at hy
        cases List.mem_append.1 hy with
        | inl hy => exact (hbefore ⟨y, hy, hyx⟩).elim
        | inr hy => exact Item.lies_padding ⟨_, hpadding y hy⟩
      | inr hy => exact hlies y hy

end PlacesGroups

/-! ## sectors -/

namespace Packing

variable {placed : List Placed}

/-- Everything that is placed stands in one of the sectors that are needed. -/
theorem lt_sectorsNeeded : ∀ x ∈ placed, x.sector < sectorsNeeded placed := by
  have hfold (n : Nat) : n ≤ placed.foldl (fun n p => max n (p.sector + 1)) n ∧
      ∀ x ∈ placed, x.sector < placed.foldl (fun n p => max n (p.sector + 1)) n := by
    induction placed generalizing n with
    | nil => exact ⟨Nat.le_refl n, fun _ hx => (nomatch hx)⟩
    | cons y placed ih =>
      obtain ⟨hle, hlt⟩ := ih (max n (y.sector + 1))
      rw [List.foldl_cons]
      refine ⟨by omega, List.forall_mem_cons.2 ⟨by omega, hlt⟩⟩
  exact (hfold 0).2

/-- What stands in the order of the sectors is what stands in the first ones, and in the next. -/
theorem filter_lt_succ (h : placed.Pairwise fun x y => x.sector ≤ y.sector) (n : Nat) :
    placed.filter (·.sector < n) ++ placed.filter (·.sector = n) =
      placed.filter (·.sector < n + 1) := by
  induction placed with
  | nil => rfl
  | cons x placed ih =>
    obtain ⟨hx, h⟩ := List.pairwise_cons.1 h
    by_cases hlt : x.sector < n
    · have hne : x.sector ≠ n := by omega
      have hlt' : x.sector < n + 1 := by omega
      simp only [List.filter_cons, hlt, hne, hlt', decide_true, decide_false, if_true,
        Bool.false_eq_true, if_false, List.cons_append, ih h]
    · have hge : ∀ y ∈ x :: placed, n ≤ y.sector := by
        refine List.forall_mem_cons.2 ⟨by omega, fun y hy => ?_⟩
        have hle := hx y hy
        omega
      have hnone : (x :: placed).filter (·.sector < n) = [] := by
        refine List.filter_eq_nil_iff.2 fun y hy => ?_
        simpa using hge y hy
      rw [hnone, List.nil_append]
      refine List.filter_congr fun y hy => decide_eq_decide.2 ?_
      have hle := hge y hy
      omega

/-- What stands in the order of the sectors is what stands in one sector after the other. -/
theorem flatMap_sectors (h : placed.Pairwise fun x y => x.sector ≤ y.sector) (n : Nat) :
    (List.range n).flatMap (fun s => placed.filter (·.sector = s)) =
      placed.filter (·.sector < n) := by
  induction n with
  | zero => simp
  | succ n ih =>
    rw [List.range_succ, List.flatMap_append, ih, List.flatMap_singleton, filter_lt_succ h]

end Packing

end BitLayout
