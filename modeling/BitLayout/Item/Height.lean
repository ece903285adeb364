import BitLayout.Item.Split

/-!
# BitLayout.Item.Height

How many times an item can be taken apart, at most, on the way down to any of its parts: once for a
slice, once for each rank, and once for each struct or union. Walks over the parts of an item use
this number as their bound, since every part has a smaller one (`Item.height_lt_of_split`).
-/

namespace BitLayout

/-! ## Declarations -/

namespace Decl

mutual

/-- The levels of one element. -/
def height : Decl → Nat
  | mk _ members _ => maxHeight members + 1

/-- The most levels of some declarations, their ranks included. -/
def maxHeight : List Decl → Nat
  | [] => 0
  | d :: rest => max (d.extents.length + d.height) (maxHeight rest)

end

theorem height_pos (d : Decl) : 0 < d.height := by
  cases d
  exact Nat.succ_pos _

theorem le_maxHeight {m : Decl} {ds : List Decl} (h : m ∈ ds) :
    m.extents.length + m.height ≤ maxHeight ds := by
  induction ds with
  | nil => cases h
  | cons d ds ih =>
    simp only [maxHeight]
    rcases List.mem_cons.1 h with rfl | h
    · exact Nat.le_max_left ..
    · exact Nat.le_trans (ih h) (Nat.le_max_right ..)

theorem height_member {d m : Decl} (h : m ∈ d.members) :
    m.extents.length + m.height < d.height := by
  cases d
  exact Nat.lt_succ_of_le (le_maxHeight h)

end Decl

/-! ## Steps -/

theorem Access.isSlice_of_mem_singles {a b : Access} (h : a ∈ b.singles) : a.isSlice = false := by
  obtain ⟨n, -, rfl⟩ := List.mem_map.1 h
  rfl

namespace Step

/-- The levels of what a step stands for. -/
def height (s : Step) : Nat :=
  s.slice?.elim 0 (fun _ => 1) + s.remaining.length + s.decl.height

theorem height_whole (d : Decl) : (whole d).height = d.extents.length + d.height := by
  simp [whole, height, slice?, remaining]

/-- Behind a single index, only the ranks that are not indexed are left. -/
theorem height_single {s : Step} {accesses : List Access} {a : Access} (h : a.isSlice = false) :
    ({ s with accesses := accesses ++ [a] } : Step).height =
      (s.decl.extents.length - (accesses.length + 1)) + s.decl.height := by
  simp [height, slice?, remaining, Option.filter, h]

end Step

/-! ## Items -/

namespace Item

/-- The levels of an item. -/
def height (i : Item) : Nat := i.last?.elim 0 Step.height

theorem height_value (cs : List Condition) (p : Path) :
    (Item.mk cs (.value p)).height = p.last.height := rfl

theorem height_member {cs : List Condition} {p : Path} {m d : Decl} (h : m ∈ d.members) :
    (Item.mk cs (.value (p.member m))).height < d.height := by
  rw [height_value]
  exact Nat.lt_of_le_of_lt (Nat.le_of_eq (Step.height_whole m)) (Decl.height_member h)

end Item

theorem Branch.height_lt {b : Branch} {n : Nat} (hn : 0 < n) (h : ∀ i ∈ b.parts, i.height < n) :
    ∀ i ∈ b.items, i.height < n := by
  intro i hi
  rcases List.mem_append.1 hi with hi | hi
  · exact h i hi
  · split at hi
    · cases hi
    · rw [List.mem_singleton.1 hi]
      exact hn

theorem Split.height_lt_of_union {shared : List Item} {branches : List Branch} {n : Nat}
    (hn : 0 < n) (hs : ∀ i ∈ shared, i.height < n)
    (hb : ∀ b ∈ branches, ∀ i ∈ b.parts, i.height < n) :
    ∀ i ∈ (Split.union shared branches).items, i.height < n := by
  intro i hi
  rcases List.mem_append.1 hi with hi | hi
  · exact hs i hi
  · obtain ⟨b, hmem, hi⟩ := List.mem_flatMap.1 hi
    exact Branch.height_lt hn (hb b hmem) i hi

namespace Item

theorem height_lt_of_splitElement {cs : List Condition} {p : Path} {s : Split}
    (h : splitElement? cs p = some s) : ∀ i ∈ s.items, i.height < p.last.decl.height := by
  unfold splitElement? at h
  split at h
  · cases h
    intro i hi
    obtain ⟨m, hm, rfl⟩ := List.mem_map.1 hi
    exact height_member hm
  · obtain ⟨selector, -, rfl⟩ := Option.map_eq_some_iff.1 h
    refine Split.height_lt_of_union (Decl.height_pos _) (fun i hi => nomatch hi) ?_
    intro b hb i hi
    obtain ⟨v, hv, hb⟩ := List.mem_filterMap.1 hb
    obtain ⟨id, -, rfl⟩ := Option.map_eq_some_iff.1 hb
    dsimp only at hi
    split at hi
    · cases hi
    · rw [List.mem_singleton.1 hi]
      exact height_member hv
  · obtain ⟨lead, hlead, rfl⟩ := Option.map_eq_some_iff.1 h
    have hmem : lead ∈ p.last.decl.members := List.mem_of_find?_eq_some hlead
    have hle : ∀ {v : Decl}, v ∈ p.last.decl.members → v.height ≤ p.last.decl.height := fun hv =>
      Nat.le_trans (Nat.le_add_left ..) (Nat.le_of_lt (Decl.height_member hv))
    refine Split.height_lt_of_union (Decl.height_pos _) ?_ ?_
    · intro i hi
      obtain ⟨m, hm, rfl⟩ := List.mem_map.1 hi
      exact Nat.lt_of_lt_of_le (height_member (List.mem_of_mem_take hm)) (hle hmem)
    · intro b hb i hi
      obtain ⟨v, hv, hb⟩ := List.mem_filterMap.1 hb
      dsimp only at hb
      split at hb
      · cases hb
        obtain ⟨m, hm, rfl⟩ := List.mem_map.1 hi
        exact Nat.lt_of_lt_of_le (height_member (List.mem_of_mem_drop hm)) (hle hv)
      · cases hb
  · cases h

/-- Every part of an item has fewer levels than the item. -/
theorem height_lt_of_split {i : Item} {s : Split} (h : i.split? = some s) :
    ∀ part ∈ s.items, part.height < i.height := by
  obtain ⟨cs, content⟩ := i
  unfold split? at h
  cases content with
  | padding => cases h
  | value p =>
    dsimp only at h
    rw [height_value]
    split at h
    · cases h
    · split at h
      · next slice hs =>
        cases h
        intro part hp
        obtain ⟨a, ha, rfl⟩ := List.mem_map.1 hp
        have hne : p.last.accesses ≠ [] := by
          intro hnil
          simp [Step.slice?, hnil] at hs
        have hlen := List.length_pos_iff.2 hne
        rw [height_value, Path.withAccesses,
          Step.height_single (Access.isSlice_of_mem_singles ha)]
        simp only [Step.height, hs, Step.remaining, List.length_dropLast, List.length_drop,
          Option.elim_some]
        omega
      · next extent rest hs hr =>
        cases h
        intro part hp
        obtain ⟨a, ha, rfl⟩ := List.mem_map.1 hp
        have hlen := congrArg List.length hr
        simp only [Step.remaining, List.length_drop, List.length_cons] at hlen
        rw [height_value, Path.access, Path.withAccesses,
          Step.height_single (Access.isSlice_of_mem_singles ha)]
        simp only [Step.height, hs, hr, Option.elim_none, List.length_cons]
        omega
      · next hs hr =>
        intro part hp
        have hlt := height_lt_of_splitElement h part hp
        simpa [Step.height, hs, hr] using hlt

end Item

end BitLayout
