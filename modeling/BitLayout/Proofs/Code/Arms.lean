import BitLayout.Proofs.Code.Events

/-!
# BitLayout.Proofs.Code.Arms

The arms of a choice are kept in ascending order of their values, however they are found: the code
for a whole union adds the variants last first, and the code for items adds them as they come. Lists
in ascending order are told by what is in them, so both are the same list.

* `insertBy`, `sortBy`: insertion in ascending order of keys;
* `eq_sortBy`: a list in ascending order is the sorted list of its entries;
* `choiceEvents_filter`: arms that do nothing may be left out.
-/

namespace BitLayout

/-! ## insertion -/

section

variable {α β : Type} {key : α → Int} {a b : α} {l l' : List α}

/-- Add an entry to a list in ascending order of keys. It takes the place of one with its key. -/
def insertBy (key : α → Int) (a : α) : List α → List α
  | [] => [a]
  | b :: rest =>
    if key a < key b then a :: b :: rest
    else if key a = key b then a :: rest
    else b :: insertBy key a rest

/-- Put a list into ascending order of keys. -/
def sortBy (key : α → Int) (l : List α) : List α := l.foldr (insertBy key) []

/-- A list in ascending order of keys. -/
def Ascending (key : α → Int) (l : List α) : Prop := l.Pairwise fun x y => key x < key y

theorem map_insertBy {key' : β → Int} {f : α → β} (h : ∀ x, key' (f x) = key x) (a : α)
    (l : List α) : (insertBy key a l).map f = insertBy key' (f a) (l.map f) := by
  induction l with
  | nil => rfl
  | cons b l ih =>
    rw [insertBy, List.map_cons, insertBy, h, h]
    split
    · rfl
    · split
      · rfl
      · rw [List.map_cons, ih]

theorem map_sortBy {key' : β → Int} {f : α → β} (h : ∀ x, key' (f x) = key x) (l : List α) :
    (sortBy key l).map f = sortBy key' (l.map f) := by
  induction l with
  | nil => rfl
  | cons a l ih =>
    change (insertBy key a (sortBy key l)).map f = insertBy key' (f a) (sortBy key' (l.map f))
    rw [map_insertBy h, ih]

theorem mem_insertBy {x : α} (hx : x ∈ insertBy key a l) : x = a ∨ x ∈ l := by
  induction l with
  | nil => exact .inl (List.mem_singleton.1 hx)
  | cons b l ih =>
    rw [insertBy] at hx
    split at hx
    · exact List.mem_cons.1 hx
    · split at hx
      · exact (List.mem_cons.1 hx).imp_right (List.mem_cons_of_mem _)
      · rcases List.mem_cons.1 hx with rfl | hx
        · exact .inr List.mem_cons_self
        · exact (ih hx).imp_right (List.mem_cons_of_mem _)

theorem mem_sortBy {x : α} (hx : x ∈ sortBy key l) : x ∈ l := by
  induction l with
  | nil => exact hx
  | cons a l ih =>
    rcases mem_insertBy hx with rfl | hx
    · exact List.mem_cons_self
    · exact List.mem_cons_of_mem _ (ih hx)

/-- Entries with the same key may replace each other, but something is always left. -/
theorem eq_nil_of_sortBy (h : sortBy key l = []) : l = [] := by
  cases l with
  | nil => rfl
  | cons a l =>
    change insertBy key a (sortBy key l) = [] at h
    cases hl : sortBy key l <;> rw [hl, insertBy] at h
    · cases h
    · split at h
      · cases h
      · split at h <;> cases h

/-- Entries with the same key are inserted at the same position. -/
theorem forall₂_insertBy {key' : β → Int} {P : α → β → Prop} {b : β} {l' : List β}
    (hkey : ∀ x y, P x y → key x = key' y) (hab : P a b) (h : List.Forall₂ P l l') :
    List.Forall₂ P (insertBy key a l) (insertBy key' b l') := by
  induction h with
  | nil => exact .cons hab .nil
  | @cons x y l l' hxy hl ih =>
    rw [insertBy, insertBy, hkey a b hab, hkey x y hxy]
    split
    · exact .cons hab (.cons hxy hl)
    · split
      · exact .cons hab hl
      · exact .cons hxy ih

theorem forall₂_sortBy {key' : β → Int} {P : α → β → Prop} {l' : List β}
    (hkey : ∀ x y, P x y → key x = key' y) (h : List.Forall₂ P l l') :
    List.Forall₂ P (sortBy key l) (sortBy key' l') := by
  induction h with
  | nil => exact .nil
  | cons hxy _ ih => exact forall₂_insertBy hkey hxy ih

/-- Inserting keeps the order. -/
theorem Ascending.insertBy (h : Ascending key l) : Ascending key (insertBy key a l) := by
  induction l with
  | nil => exact List.pairwise_singleton ..
  | cons b l ih =>
    obtain ⟨hb, hl⟩ := List.pairwise_cons.1 h
    rw [BitLayout.insertBy]
    split
    · next hlt =>
      refine List.pairwise_cons.2 ⟨fun x hx => ?_, h⟩
      rcases List.mem_cons.1 hx with rfl | hx
      · exact hlt
      · exact Int.lt_trans hlt (hb x hx)
    · next hge =>
      split
      · next heq => exact List.pairwise_cons.2 ⟨fun x hx => heq ▸ hb x hx, hl⟩
      · next hne =>
        refine List.pairwise_cons.2 ⟨fun x hx => ?_, ih hl⟩
        rcases mem_insertBy hx with rfl | hx
        · omega
        · exact hb x hx

/-- Inserting a new key adds the entry. -/
theorem perm_insertBy (h : key a ∉ l.map key) : (insertBy key a l).Perm (a :: l) := by
  induction l with
  | nil => exact .refl _
  | cons b l ih =>
    rw [List.map_cons, List.mem_cons, not_or] at h
    rw [insertBy]
    split
    · exact .refl _
    · rw [if_neg h.1]
      exact ((ih h.2).cons b).trans (.swap ..)

theorem ascending_sortBy (key : α → Int) (l : List α) : Ascending key (sortBy key l) := by
  induction l with
  | nil => exact .nil
  | cons a l ih => exact ih.insertBy

theorem perm_sortBy (h : (l.map key).Nodup) : (sortBy key l).Perm l := by
  induction l with
  | nil => exact .refl _
  | cons a l ih =>
    rw [List.map_cons, List.nodup_cons] at h
    have hperm := ih h.2
    refine (perm_insertBy fun ha => h.1 ?_).trans (hperm.cons a)
    exact (hperm.map key).mem_iff.1 ha

/-- A list in ascending order is the sorted list of its entries. -/
theorem eq_sortBy (h : Ascending key l') (hperm : l'.Perm l) (hnodup : (l.map key).Nodup) :
    l' = sortBy key l := by
  refine List.Perm.eq_of_pairwise (fun x y _ _ hxy hyx => ?_) h (ascending_sortBy key l)
    (hperm.trans (perm_sortBy hnodup).symm)
  omega

/-- Sorting some of the entries leaves out the others. -/
theorem sortBy_filter (keep : α → Bool) (hnodup : (l.map key).Nodup) :
    sortBy key (l.filter keep) = (sortBy key l).filter keep := by
  have hkept : ((l.filter keep).map key).Nodup := hnodup.sublist (List.filter_sublist.map key)
  have hperm := (perm_sortBy hnodup).filter keep
  exact (eq_sortBy ((ascending_sortBy key l).filter keep) hperm hkept).symm

/-- Entries that are added as they come are sorted. -/
theorem foldl_insertBy (hnodup : (l.map key).Nodup) :
    l.foldl (fun sorted a => insertBy key a sorted) [] = sortBy key l := by
  have hfold (done : List α) (hdone : Ascending key done) (hnodup : ((done ++ l).map key).Nodup) :
      Ascending key (l.foldl (fun sorted a => insertBy key a sorted) done) ∧
        (l.foldl (fun sorted a => insertBy key a sorted) done).Perm (done ++ l) := by
    clear * - hdone hnodup
    induction l generalizing done with
    | nil => exact ⟨hdone, by rw [List.append_nil, List.foldl_nil]⟩
    | cons a l ih =>
      have hfresh : key a ∉ done.map key := by
        rw [List.map_append, List.map_cons, List.nodup_append] at hnodup
        exact fun hmem => hnodup.2.2 _ hmem _ List.mem_cons_self rfl
      have hperm : (insertBy key a done ++ l).Perm (done ++ a :: l) :=
        ((perm_insertBy hfresh).append_right l).trans List.perm_middle.symm
      obtain ⟨hsorted, hall⟩ := ih (insertBy key a done) hdone.insertBy
        ((hperm.map key).nodup_iff.2 hnodup)
      exact ⟨hsorted, hall.trans hperm⟩
  obtain ⟨hsorted, hperm⟩ := hfold [] .nil hnodup
  exact eq_sortBy hsorted hperm hnodup

end

/-! ## arms -/

section

variable {d : Direction} {call : Spot → String → List Event} {e : Scope}

/-- What an arm of code does. -/
def Arm.alternative (d : Direction) (call : Spot → String → List Event) (e : Scope) :
    Arm → Alternative
  | .mk tag value body => ⟨tag.spot e, value, statementEvents d call e body⟩

theorem armAlternatives_eq (arms : List Arm) :
    armAlternatives d call e arms = arms.map (Arm.alternative d call e) := by
  induction arms with
  | nil => rfl
  | cons arm arms ih =>
    obtain ⟨tag, value, body⟩ := arm
    rw [armAlternatives, ih]
    rfl

theorem Arm.insert_eq (a : Arm) (arms : List Arm) : a.insert arms = insertBy Arm.value a arms := by
  induction arms with
  | nil => rfl
  | cons b arms ih => rw [Arm.insert, insertBy, ih]

/-- Arms that do nothing may be left out of a choice. -/
theorem choiceEvents_filter (as : List Alternative) :
    choiceEvents (as.filter Alternative.acts) = choiceEvents as := by
  have hfilter : (as.filter Alternative.acts).filter Alternative.acts =
      as.filter Alternative.acts := by simp
  rw [choiceEvents, hfilter]
  rfl

end

end BitLayout
