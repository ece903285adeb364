import BitLayout.Item.Basic

/-!
# BitLayout.Sector.Merge

Putting pieces of arrays together again: neighbouring runs of indices become one run, and a run
that covers its whole rank is left out. Merging one rank can make a rank around it ready, so passes
are repeated until one changes nothing. Each pass that changes something takes an item or an access
away, which bounds their number.
-/

namespace BitLayout

namespace Step

/-- Whether the last access covers its whole rank. -/
def coversRank (s : Step) : Bool :=
  s.accesses.getLast?.any fun a =>
    a.start = 0 && s.decl.extents[s.accesses.length - 1]? = some a.count

/-- The step without a last access that covers its rank. -/
def uncovered (s : Step) : Step :=
  if s.coversRank then { s with accesses := s.accesses.dropLast } else s

/-- One step for two, if the indices of the second continue those of the first. -/
def join? (a b : Step) : Option Step :=
  if a.decl.number = b.decl.number && a.accesses.dropLast = b.accesses.dropLast then
    match a.accesses.getLast?, b.accesses.getLast? with
    | some x, some y =>
      if x.stop = y.start then
        some { a with accesses := a.accesses.dropLast ++ [⟨x.start, x.count + y.count⟩] }
      else none
    | _, _ => none
  else none

end Step

namespace Item

/-- Whether the last access of a value covers its whole rank. -/
def coversRank (i : Item) : Bool := i.last?.any Step.coversRank

/-- The item without a last access that covers its rank. -/
def uncovered (i : Item) : Item :=
  match i.content with
  | .value p => { i with content := .value { p with last := p.last.uncovered } }
  | .padding _ _ => i

/-- One item for two, if the second continues the first. -/
def join? (a b : Item) : Option Item :=
  match a.content, b.content with
  | .value p, .value q =>
    if a.conditions == b.conditions && p.owners == q.owners then
      (p.last.join? q.last).map fun last => { a with content := .value { p with last } }
    else none
  | _, _ => none

end Item

/-- Add an item behind those of a pass, which are held last first. -/
def mergeOnto (done : List Item) (i : Item) : List Item :=
  match done with
  | [] => [i]
  | before :: earlier =>
    match before.join? i with
    | some joined => joined :: earlier
    | none => i :: done

/-- One pass over items. -/
def mergePass (items : List Item) : List Item :=
  ((items.map Item.uncovered).foldl mergeOnto []).reverse

/-- How much merging can take away of an item: the item and its last accesses. -/
def Item.weight (i : Item) : Nat := i.last?.elim 1 (·.accesses.length + 1)

/-- How much merging can take away of a list. -/
def mergeWeight : List Item → Nat
  | [] => 0
  | i :: rest => i.weight + mergeWeight rest

/-- Repeat passes, at most `passes` times, until one changes nothing. -/
def mergeWithin : (passes : Nat) → List Item → List Item
  | 0, items => items
  | passes + 1, items =>
    let merged := mergePass items
    if mergeWeight merged = mergeWeight items then items else mergeWithin passes merged

/-- Put neighbouring pieces of arrays together. -/
def mergeItems (items : List Item) : List Item := mergeWithin (mergeWeight items) items

/-! ## Passes take away -/

theorem mergeWeight_append (a b : List Item) :
    mergeWeight (a ++ b) = mergeWeight a + mergeWeight b := by
  induction a with
  | nil => simp [mergeWeight]
  | cons i a ih => simp [mergeWeight, ih, Nat.add_assoc]

theorem mergeWeight_reverse (items : List Item) :
    mergeWeight items.reverse = mergeWeight items := by
  induction items with
  | nil => rfl
  | cons i items ih =>
    rw [List.reverse_cons, mergeWeight_append, ih]
    simp only [mergeWeight]
    omega

theorem Item.weight_uncovered_le (i : Item) : i.uncovered.weight ≤ i.weight := by
  obtain ⟨cs, content⟩ := i
  cases content with
  | padding => exact Nat.le_refl _
  | value p =>
    change p.last.uncovered.accesses.length + 1 ≤ p.last.accesses.length + 1
    unfold Step.uncovered
    split
    · rw [List.length_dropLast]
      omega
    · exact Nat.le_refl _

theorem Step.length_accesses_of_join {a b joined : Step} (h : a.join? b = some joined) :
    joined.accesses.length = a.accesses.length := by
  unfold join? at h
  split at h
  · split at h
    · next x y hx hy =>
      split at h
      · cases h
        have hne : a.accesses ≠ [] := by
          intro hnil
          simp [hnil] at hx
        have hpos := List.length_pos_iff.2 hne
        rw [List.length_append, List.length_dropLast, List.length_singleton]
        omega
      · cases h
    · cases h
  · cases h

theorem Item.weight_join {a b joined : Item} (h : a.join? b = some joined) :
    joined.weight = a.weight := by
  obtain ⟨cs, content⟩ := a
  unfold join? at h
  split at h
  · next p q hp hq =>
    cases hp
    split at h
    · obtain ⟨last, hlast, rfl⟩ := Option.map_eq_some_iff.1 h
      change last.accesses.length + 1 = p.last.accesses.length + 1
      rw [Step.length_accesses_of_join hlast]
    · cases h
  · cases h

theorem mergeWeight_mergeOnto_le (done : List Item) (i : Item) :
    mergeWeight (mergeOnto done i) ≤ mergeWeight done + i.weight := by
  unfold mergeOnto
  split
  · simp [mergeWeight]
  · next before earlier =>
    split
    · next joined h =>
      simp only [mergeWeight, Item.weight_join h]
      omega
    · simp only [mergeWeight]
      omega

theorem mergeWeight_foldl_le (done items : List Item) :
    mergeWeight ((items.map Item.uncovered).foldl mergeOnto done) ≤
      mergeWeight done + mergeWeight items := by
  induction items generalizing done with
  | nil => exact Nat.le_refl _
  | cons i items ih =>
    have hstep := mergeWeight_mergeOnto_le done i.uncovered
    have hle := i.weight_uncovered_le
    have hrest := ih (mergeOnto done i.uncovered)
    simp only [List.map_cons, List.foldl_cons, mergeWeight]
    omega

/-- A pass never adds anything, so the weight of a list bounds the passes that change it. -/
theorem mergeWeight_mergePass_le (items : List Item) :
    mergeWeight (mergePass items) ≤ mergeWeight items := by
  rw [mergePass, mergeWeight_reverse]
  exact Nat.le_trans (mergeWeight_foldl_le [] items) (by simp [mergeWeight])

end BitLayout
