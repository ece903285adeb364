import BitLayout.Proofs.Item.Sizes
import BitLayout.Proofs.Sector.Aligned
import BitLayout.Proofs.Sector.Settled

/-!
# BitLayout.Proofs.Sector.Merges

Merging as regrouping. Each item of a merged list stands for a run of neighbours in the list before,
put together from runs of indices that continue each other, or that cover their rank. So what holds
of such a run and of the item that it merges into holds of whole lists:

* `Merges.bits_eq`: the item takes the bits of its run;
* `Merges.eq_of_scalar`: a value without ranks stays alone;
* `regroups_mergeItems`: merging regroups the items, as long as they are reached from data objects;
* `Regroups.follows`: regrouped items are laid out as before.
-/

namespace BitLayout

/-- A run of neighbours merges into one item. -/
inductive Merges : List Item → Item → Prop where
  | one (i : Item) : Merges [i] i
  | uncover {run : List Item} {cs : List Condition} {p : Path} {extent : Nat} {rest : List Nat}
    (homit : p.last.decl.isOmitted = false) (hs : p.last.slice? = none)
    (hr : p.last.remaining = extent :: rest)
    (h : Merges run ⟨cs, .value (p.access ⟨0, extent⟩)⟩) : Merges run ⟨cs, .value p⟩
  | join {run more : List Item} {cs : List Condition} {p : Path} {x y : Access} {extent : Nat}
    {rest : List Nat} (homit : p.last.decl.isOmitted = false) (hs : p.last.slice? = none)
    (hr : p.last.remaining = extent :: rest) (hxy : x.stop = y.start) (hy : y.stop ≤ extent)
    (h : Merges run ⟨cs, .value (p.access x)⟩)
    (h' : Merges more ⟨cs, .value (p.access y)⟩) :
    Merges (run ++ more) ⟨cs, .value (p.access ⟨x.start, x.count + y.count⟩)⟩

/-- Items are merged run by run. -/
inductive Regroups : List Item → List Item → Prop where
  | nil : Regroups [] []
  | cons {run items merged : List Item} {j : Item} (h : Merges run j) (h' : Regroups items merged) :
    Regroups (run ++ items) (j :: merged)

/-! ## one run -/

namespace Merges

variable {run : List Item} {j : Item}

theorem ne_nil (h : Merges run j) : run ≠ [] := by
  induction h with
  | one => exact List.cons_ne_nil _ _
  | uncover _ _ _ _ ih => exact ih
  | join _ _ _ _ _ _ _ ih => exact List.append_ne_nil_of_left_ne_nil ih _

/-- All items of a run stand under the conditions of the one that they merge into. -/
theorem conditions (h : Merges run j) : ∀ i ∈ run, i.conditions = j.conditions := by
  induction h with
  | one i =>
    intro i' hi
    rw [List.mem_singleton.1 hi]
  | uncover _ _ _ _ ih => exact ih
  | join _ _ _ _ _ _ _ ih ih' =>
    intro i hi
    cases List.mem_append.1 hi with
    | inl hi => exact ih i hi
    | inr hi => exact ih' i hi

/-- The item takes the bits of its run. -/
theorem bits_eq (h : Merges run j) : Item.sumBits run = j.bits := by
  induction h with
  | one => exact Nat.add_zero _
  | uncover _ hs hr _ ih =>
    rw [ih]
    exact (Path.bits_access hr _).trans (Path.bits_rank hs hr).symm
  | @join run more cs p x y extent rest _ hs hr _ _ _ _ ih ih' =>
    rw [Item.sumBits_append, ih, ih']
    change (p.access x).last.bits + (p.access y).last.bits = (p.access _).last.bits
    rw [Path.bits_access hr, Path.bits_access hr, Path.bits_access hr, ← Nat.mul_add,
      ← Nat.add_mul]

/-- A value without ranks stays alone. -/
theorem eq_of_scalar {cs : List Condition} {q : Path} (h : Merges run j)
    (hq : (⟨cs, .value q⟩ : Item) ∈ run) (hextents : q.last.decl.extents = []) :
    run = [⟨cs, .value q⟩] ∧ j = ⟨cs, .value q⟩ := by
  have absurd_access {cs' : List Condition} {p : Path} {a : Access} {extent : Nat}
      {rest : List Nat} (hr : p.last.remaining = extent :: rest)
      (heq : (⟨cs', .value (p.access a)⟩ : Item) = ⟨cs, .value q⟩) : False := by
    cases heq
    simp [Step.remaining, show p.last.decl.extents = [] from hextents] at hr
  induction h with
  | one i =>
    obtain rfl := List.mem_singleton.1 hq
    exact ⟨rfl, rfl⟩
  | uncover _ _ hr _ ih => exact (absurd_access hr (ih hq).2).elim
  | join _ _ hr _ _ _ _ ih ih' =>
    cases List.mem_append.1 hq with
    | inl hq => exact (absurd_access hr (ih hq).2).elim
    | inr hq => exact (absurd_access hr (ih' hq).2).elim

end Merges

/-! ## lists of runs -/

namespace Regroups

variable {run is js ks ls : List Item} {j : Item}

theorem append (h : Regroups is js) (h' : Regroups ks ls) : Regroups (is ++ ks) (js ++ ls) := by
  induction h with
  | nil => exact h'
  | cons hj _ ih =>
    rw [List.append_assoc]
    exact .cons hj ih

theorem single (h : Merges run j) : Regroups run [j] := by
  have h := Regroups.cons h .nil
  rwa [List.append_nil] at h

/-- The items that merge into the first part of a list stand in front. -/
theorem split (h : Regroups is (js ++ ks)) :
    ∃ front back, is = front ++ back ∧ Regroups front js ∧ Regroups back ks := by
  induction js generalizing is with
  | nil => exact ⟨[], is, rfl, .nil, h⟩
  | cons j js ih =>
    cases h with
    | cons hj h =>
      obtain ⟨front, back, rfl, hfront, hback⟩ := ih h
      exact ⟨_, back, (List.append_assoc ..).symm, .cons hj hfront, hback⟩

/-- One item is merged from one run. -/
theorem merges (h : Regroups is [j]) : Merges is j := by
  cases h with
  | cons hj h =>
    cases h
    rwa [List.append_nil]

/-- A run that is merged run by run is merged. -/
theorem mergesInto (h : Regroups is js) (hj : Merges js j) : Merges is j := by
  induction hj generalizing is with
  | one => exact h.merges
  | uncover homit hs hr _ ih => exact .uncover homit hs hr (ih h)
  | join homit hs hr hxy hy _ _ ih ih' =>
    obtain ⟨front, back, rfl, hfront, hback⟩ := h.split
    exact .join homit hs hr hxy hy (ih hfront) (ih' hback)

theorem trans (h : Regroups is js) (h' : Regroups js ks) : Regroups is ks := by
  induction h' generalizing is with
  | nil =>
    cases h
    exact .nil
  | cons hj _ ih =>
    obtain ⟨front, back, rfl, hfront, hback⟩ := h.split
    exact .cons (hfront.mergesInto hj) (ih hback)

theorem refl (is : List Item) : Regroups is is := by
  induction is with
  | nil => exact .nil
  | cons i is ih => exact .cons (.one i) ih

/-- Every item of a merged list stands for items of the list before. -/
theorem exists_run (h : Regroups is js) (hj : j ∈ js) : ∃ run, run ⊆ is ∧ Merges run j := by
  induction h with
  | nil => cases hj
  | @cons run items merged j' hrun h ih =>
    rcases List.mem_cons.1 hj with rfl | hj
    · exact ⟨run, List.subset_append_left .., hrun⟩
    · obtain ⟨run', hsub, hrun'⟩ := ih hj
      exact ⟨run', List.subset_append_of_subset_right _ hsub, hrun'⟩

/-- An item of a merged list, and those in front of it, stand for items in this order. -/
theorem split_cons (h : Regroups is (js ++ j :: ks)) :
    ∃ front run back, is = front ++ (run ++ back) ∧ Regroups front js ∧ Merges run j := by
  obtain ⟨front, others, rfl, hfront, h⟩ := h.split
  cases h with
  | cons hj h => exact ⟨front, _, _, rfl, hfront, hj⟩

/-- A value without ranks is still there when items are merged. -/
theorem mem_of_scalar {cs : List Condition} {q : Path} (h : Regroups is js)
    (hq : (⟨cs, .value q⟩ : Item) ∈ is) (hextents : q.last.decl.extents = []) :
    (⟨cs, .value q⟩ : Item) ∈ js := by
  induction h with
  | nil => cases hq
  | cons hj h ih =>
    cases List.mem_append.1 hq with
    | inl hq =>
      rw [(hj.eq_of_scalar hq hextents).2]
      exact List.mem_cons_self
    | inr hq => exact List.mem_cons_of_mem _ (ih hq)

end Regroups

/-! ## merging -/

/-- An item that is padding, or a value that is reached from data objects under its conditions. -/
def Item.Lies (roots : List Decl) (i : Item) : Prop :=
  ∀ p, i.content = .value p → p.Reached roots i.conditions

namespace Condition

variable {m : Model}

/-- The paths of a condition lead down from data objects. -/
def Walks (ds : List Decl) (c : Condition) : Prop := c.union.Walks ds ∧ c.tag.Walks ds

theorem Walks.eq_of_beq {c d : Condition} (hm : m.Numbered) (hc : c.Walks m.roots)
    (hd : d.Walks m.roots) (h : (c == d) = true) : c = d := by
  obtain ⟨hunion, htag, hvalue⟩ := beq_iff.1 h
  obtain ⟨union, tag, value⟩ := c
  obtain ⟨union', tag', value'⟩ := d
  rw [mk.injEq]
  exact ⟨hc.1.eq_of_beq hm hd.1 hunion, hc.2.eq_of_beq hm hd.2 htag, hvalue⟩

/-- Lists of conditions that lead down from data objects are equal if they compare so. -/
theorem eq_of_beq_list {cs ds : List Condition} (hm : m.Numbered) (hcs : ∀ c ∈ cs, c.Walks m.roots)
    (hds : ∀ d ∈ ds, d.Walks m.roots) (h : (cs == ds) = true) : cs = ds :=
  list_eq_of_beq (fun c hc d hd => (hcs c hc).eq_of_beq hm (hds d hd)) h

end Condition

/-- The conditions of a reached value lead down from data objects. -/
theorem Path.Reached.conditions_walk {roots : List Decl} {cs : List Condition} {p : Path}
    (h : p.Reached roots cs) : ∀ c ∈ cs, c.Walks roots := by
  intro c hc
  obtain ⟨k, hk⟩ := List.mem_iff_getElem?.1 hc
  obtain ⟨shared, arms, a, hunion, -, hs, ha, hcond⟩ := h.switch_of_condition hk
  have hwalks := hs.tag_walks hunion.walks ha
  rw [hcond]
  exact ⟨hunion.walks, hwalks⟩

/-- Values that are reached are equal if they compare so. -/
theorem Item.Lies.eq_of_beq {m : Model} {i j : Item} (hm : m.Numbered) (hi : i.Lies m.roots)
    (hj : j.Lies m.roots) (hvalue : i.isPadding = false) (h : (i == j) = true) : i = j := by
  obtain ⟨cs, content⟩ := i
  obtain ⟨ds, content'⟩ := j
  cases content with
  | padding => cases hvalue
  | value p =>
    rw [show ((⟨cs, .value p⟩ : Item) == ⟨ds, content'⟩) = (cs == ds && Content.value p == content')
      from rfl, Bool.and_eq_true] at h
    cases content' with
    | padding => cases h.2
    | value q =>
      obtain rfl := Condition.eq_of_beq_list hm (hi p rfl).conditions_walk
        (hj q rfl).conditions_walk h.1
      obtain rfl := (hi p rfl).walks.eq_of_beq hm (hj q rfl).walks h.2
      rfl

/-- The first rank of a value that is not indexed, where nothing is sliced or left out. -/
structure Path.Rank (p : Path) (extent : Nat) : Prop where
  kept : p.last.decl.isOmitted = false
  unsliced : p.last.slice? = none
  remaining : ∃ rest, p.last.remaining = extent :: rest

/-- The last index of a reached value was applied to a rank of a reached value, inside its
bounds. -/
theorem Path.Reached.rank {roots : List Decl} {cs : List Condition} {p q : Path} {a : Access}
    (h : q.Reached roots cs) (hq : q = p.access a) :
    p.Reached roots cs ∧ ∃ extent, p.Rank extent ∧ a.stop ≤ extent := by
  obtain ⟨hp, homit, hs, extent, rest, hr, hstop⟩ := h.of_access hq
  exact ⟨hp, extent, ⟨homit, hs, rest, hr⟩, hstop⟩

section

variable {m : Model} {i j : Item} {items merged done : List Item}

/-- The items that merge into one lie among the data objects with it. -/
theorem Merges.lies {roots : List Decl} {run : List Item} (h : Merges run j)
    (hrun : ∀ i ∈ run, i.Lies roots) : j.Lies roots := by
  induction h with
  | one i => exact hrun i (List.mem_singleton_self i)
  | uncover _ _ _ _ ih =>
    intro p hp
    cases hp
    exact ((ih hrun _ rfl).of_access rfl).1
  | join homit hs hr hxy hy _ _ ih _ =>
    intro p hp
    cases hp
    have hx := ((ih (fun i hi => hrun i (List.mem_append_left _ hi)) _ rfl).of_access rfl).1
    refine .slice hx homit hs hr ?_
    simp only [Access.stop] at hxy hy ⊢
    omega

/-- An index that covers its rank was applied to a value with this rank, and is left out again. -/
theorem Item.covers_inv {roots : List Decl} (hi : i.Lies roots) (h : i.coversRank = true) :
    ∃ cs p extent, Path.Rank p extent ∧ i = ⟨cs, .value (p.access ⟨0, extent⟩)⟩ ∧
      i.uncovered = ⟨cs, .value p⟩ := by
  obtain ⟨cs, content⟩ := i
  cases content with
  | padding => cases h
  | value p =>
    have hcovers : p.last.coversRank = true := h
    cases ha : p.last.accesses.getLast? with
    | none => simp [Step.coversRank, ha] at hcovers
    | some a =>
      have hp := Path.eq_access_of_getLast? ha
      obtain ⟨-, extent, hrank, -⟩ := (hi p rfl).rank hp
      have hparts := hcovers
      simp only [Step.coversRank, ha, Option.any_some, Bool.and_eq_true,
        decide_eq_true_eq] at hparts
      obtain ⟨hstart, hcount⟩ := hparts
      obtain ⟨rest, hr⟩ := hrank.remaining
      have hextent : p.last.decl.extents[p.last.accesses.length - 1]? = some extent := by
        have hdrop := congrArg List.head? hr
        simpa [Step.remaining, Path.withAccesses, List.head?_drop] using hdrop
      rw [hextent, Option.some.injEq] at hcount
      obtain rfl : a = ⟨0, extent⟩ := by
        obtain ⟨start, count⟩ := a
        change start = 0 at hstart
        change extent = count at hcount
        rw [hstart, hcount]
      refine ⟨cs, _, extent, hrank, congrArg _ (congrArg _ hp), ?_⟩
      change (⟨cs, .value { p with last := p.last.uncovered }⟩ : Item) = _
      rw [Step.uncovered, if_pos hcovers]
      rfl

/-- Dropping an index that covers its rank merges an item. -/
theorem merges_uncovered {roots : List Decl} (hi : i.Lies roots) : Merges [i] i.uncovered := by
  cases hcovers : i.coversRank with
  | false =>
    rw [Item.uncovered_of_not_covers hcovers]
    exact .one i
  | true =>
    obtain ⟨cs, p, extent, hrank, rfl, huncovered⟩ := Item.covers_inv hi hcovers
    obtain ⟨rest, hr⟩ := hrank.remaining
    rw [huncovered]
    exact .uncover hrank.kept hrank.unsliced hr (.one _)

/-- Two steps that are joined end with runs of indices that continue each other. -/
theorem Step.join_spec {s t joined : Step} (h : s.join? t = some joined) :
    s.decl.number = t.decl.number ∧ s.accesses.dropLast = t.accesses.dropLast ∧
      ∃ x y, s.accesses.getLast? = some x ∧ t.accesses.getLast? = some y ∧ x.stop = y.start ∧
        joined = { s with accesses := s.accesses.dropLast ++ [⟨x.start, x.count + y.count⟩] } := by
  unfold join? at h
  split at h
  · next hsame =>
    rw [Bool.and_eq_true, decide_eq_true_eq, decide_eq_true_eq] at hsame
    split at h
    · next x y hx hy =>
      split at h
      · next hxy =>
        cases h
        exact ⟨hsame.1, hsame.2, x, y, hx, hy, hxy, rfl⟩
      · cases h
    · cases h
  · cases h

/-- Two items that are joined are values under the same conditions, of the same owners. -/
theorem Item.join_spec {joined : Item} (h : i.join? j = some joined) :
    ∃ p q last, i.content = .value p ∧ j.content = .value q ∧
      (i.conditions == j.conditions) = true ∧ (p.owners == q.owners) = true ∧
      p.last.join? q.last = some last ∧ joined = ⟨i.conditions, .value { p with last }⟩ := by
  unfold join? at h
  split at h
  · next p q hp hq =>
    split at h
    · next heq =>
      rw [Bool.and_eq_true] at heq
      obtain ⟨last, hlast, rfl⟩ := Option.map_eq_some_iff.1 h
      exact ⟨p, q, last, hp, hq, heq.1, heq.2, hlast, rfl⟩
    · cases h
  · cases h

/-- Two values that are joined end with runs of indices behind one path, and the second run
continues the first. -/
theorem Item.join_walks (hm : m.Numbered) (hi : ∀ p, i.content = .value p → p.Walks m.roots)
    (hj : ∀ q, j.content = .value q → q.Walks m.roots) {joined : Item}
    (h : i.join? j = some joined) : ∃ (p : Path) (x y : Access),
      (i.conditions == j.conditions) = true ∧ i.content = .value (p.access x) ∧
      j.content = .value (p.access y) ∧ x.stop = y.start ∧
      joined = ⟨i.conditions, .value (p.access ⟨x.start, x.count + y.count⟩)⟩ := by
  obtain ⟨p, q, last, hp, hq, hconditions, howners, hlast, rfl⟩ := Item.join_spec h
  obtain ⟨hnumber, hfront, x, y, hx, hy, hxy, rfl⟩ := Step.join_spec hlast
  have hbase : p.withAccesses p.last.accesses.dropLast =
      q.withAccesses q.last.accesses.dropLast :=
    ((hi p hp).withAccesses _).eq_of_beq hm ((hj q hq).withAccesses _)
      (Path.beq_iff.2 ⟨howners, Step.beq_iff.2 ⟨hnumber, hfront⟩⟩)
  have hqy := Path.eq_access_of_getLast? hy
  rw [← hbase] at hqy
  exact ⟨_, x, y, hconditions, hp.trans (congrArg _ (Path.eq_access_of_getLast? hx)),
    hq.trans (congrArg _ hqy), hxy, rfl⟩

/-- Two items that are joined are runs of indices of one rank, and the second run continues the
first. -/
theorem Item.join_inv (hm : m.Numbered) (hi : i.Lies m.roots) (hj : j.Lies m.roots) {joined : Item}
    (h : i.join? j = some joined) : ∃ cs p x y extent, Path.Rank p extent ∧
      i = ⟨cs, .value (p.access x)⟩ ∧ j = ⟨cs, .value (p.access y)⟩ ∧ x.stop = y.start ∧
      y.stop ≤ extent ∧ joined = ⟨cs, .value (p.access ⟨x.start, x.count + y.count⟩)⟩ := by
  obtain ⟨p, x, y, hconditions, hp, hq, hxy, rfl⟩ :=
    join_walks hm (fun p hp => (hi p hp).walks) (fun q hq => (hj q hq).walks) h
  obtain ⟨cs, content⟩ := i
  obtain ⟨cs', content'⟩ := j
  obtain rfl : content = .value (p.access x) := hp
  obtain rfl : content' = .value (p.access y) := hq
  have hp := hi _ rfl
  have hq := hj _ rfl
  obtain rfl := Condition.eq_of_beq_list hm hp.conditions_walk hq.conditions_walk hconditions
  obtain ⟨-, extent, hrank, hstop⟩ := hq.rank rfl
  exact ⟨cs, p, x, y, extent, hrank, rfl, rfl, hxy, hstop, rfl⟩

/-- Two items that are joined continue each other. -/
theorem merges_join (hm : m.Numbered) (hi : i.Lies m.roots) (hj : j.Lies m.roots) {joined : Item}
    (h : i.join? j = some joined) {run more : List Item} (hrun : Merges run i)
    (hmore : Merges more j) : Merges (run ++ more) joined := by
  obtain ⟨cs, p, x, y, extent, hrank, rfl, rfl, hxy, hstop, rfl⟩ := Item.join_inv hm hi hj h
  obtain ⟨rest, hr⟩ := hrank.remaining
  exact .join hrank.kept hrank.unsliced hr hxy hstop hrun hmore

/-- The items of regrouped ones lie among the data objects. -/
theorem Regroups.lies {roots : List Decl} (h : Regroups items merged)
    (hitems : ∀ i ∈ items, i.Lies roots) : ∀ j ∈ merged, j.Lies roots := by
  induction h with
  | nil => exact fun _ hj => (nomatch hj)
  | cons hj _ ih =>
    refine List.forall_mem_cons.2 ⟨?_, ?_⟩
    · exact hj.lies fun i hi => hitems i (List.mem_append_left _ hi)
    · exact ih fun i hi => hitems i (List.mem_append_right _ hi)

/-- An item is added behind those of a pass. -/
theorem regroups_mergeOnto (hm : m.Numbered) (hitems : ∀ i ∈ items, i.Lies m.roots)
    (hi : i.Lies m.roots) (h : Regroups items done.reverse) :
    Regroups (items ++ [i]) (mergeOnto done i.uncovered).reverse := by
  have hu := merges_uncovered hi
  have hulies := hu.lies fun j hj => List.mem_singleton.1 hj ▸ hi
  unfold mergeOnto
  split
  · exact h.append (.single hu)
  · next before earlier =>
    split
    · next joined hjoin =>
      rw [List.reverse_cons] at h ⊢
      obtain ⟨front, back, rfl, hfront, hback⟩ := h.split
      have hblies := hback.merges.lies fun j hj => hitems j (List.mem_append_right _ hj)
      rw [List.append_assoc]
      exact hfront.append (.single (merges_join hm hblies hulies hjoin hback.merges hu))
    · rw [List.reverse_cons]
      exact h.append (.single hu)

/-- A pass regroups the items. -/
theorem regroups_mergePass (hm : m.Numbered) (hitems : ∀ i ∈ items, i.Lies m.roots) :
    Regroups items (mergePass items) := by
  suffices h : ∀ front done, (∀ i ∈ front, i.Lies m.roots) → Regroups front done.reverse →
      Regroups (front ++ items) ((items.map Item.uncovered).foldl mergeOnto done).reverse from
    h [] [] (fun _ hi => (nomatch hi)) .nil
  induction items with
  | nil =>
    intro front done _ h
    rw [List.append_nil]
    exact h
  | cons i items ih =>
    intro front done hfront h
    obtain ⟨hi, hitems⟩ := List.forall_mem_cons.1 hitems
    rw [List.append_cons]
    refine ih hitems _ _ (fun j hj => ?_) (regroups_mergeOnto hm hfront hi h)
    cases List.mem_append.1 hj with
    | inl hj => exact hfront j hj
    | inr hj => exact List.mem_singleton.1 hj ▸ hi

/-- **Merging is regrouping**, for items that are reached from data objects. -/
theorem regroups_mergeItems (hm : m.Numbered) (hitems : ∀ i ∈ items, i.Lies m.roots) :
    Regroups items (mergeItems items) := by
  suffices h : ∀ passes items, (∀ i ∈ items, i.Lies m.roots) →
      Regroups items (mergeWithin passes items) from h _ items hitems
  intro passes
  induction passes with
  | zero => exact fun items _ => .refl items
  | succ passes ih =>
    intro items hitems
    rw [mergeWithin]
    split
    · exact .refl items
    · have hpass := regroups_mergePass hm hitems
      exact hpass.trans (ih _ (hpass.lies hitems))

end

/-! ## layouts -/

namespace Sector

variable {a : Assignment} {run items merged : List Item} {j : Item}

/-- Entering an item leaves the branches of its conditions open, so a further item under the same
conditions changes nothing. -/
theorem enter_enter (branches : List OpenBranch) (cs : List Condition) (position next : Nat) :
    enter (enter branches cs position).1 cs next = ((enter branches cs position).1, next) := by
  have hopen : ∀ (cs : List Condition) (start : Nat),
      enter (openAll start cs) cs next = (openAll start cs, next) := by
    intro cs start
    have h := enter_append (openAll start cs) [] [] next
    have hmap : (openAll start cs).map OpenBranch.condition = cs := by
      rw [openAll, List.map_map]
      exact List.map_id _
    rw [hmap, List.append_nil, List.append_nil] at h
    rw [h]
    simp [enter, openAll]
  induction branches generalizing cs position with
  | nil => exact hopen cs position
  | cons b branches ih =>
    cases cs with
    | nil => rfl
    | cons c cs =>
      by_cases hsame : (b.condition == c) = true
      · have henter : enter (b :: branches) (c :: cs) position =
            (b :: (enter branches cs position).1, (enter branches cs position).2) := by
          rw [enter, if_pos hsame]
        rw [henter, enter, if_pos hsame, ih]
      · have henter : ∃ reached start,
            (enter (b :: branches) (c :: cs) position).1 =
              ⟨c, start, reached⟩ :: openAll start cs := by
          rw [enter, if_neg hsame]
          dsimp only
          split
          · exact ⟨_, _, rfl⟩
          · exact ⟨_, _, rfl⟩
        obtain ⟨reached, start, henter⟩ := henter
        rw [henter, enter, if_pos BEq.rfl, hopen]

/-- A run takes the walk where the item that it merges into does. -/
theorem foldl_advance_of_merges (h : Merges run j) (s : Standing) :
    run.foldl advance s = advance s j := by
  have hcs := h.conditions
  have hbits := h.bits_eq
  cases run with
  | nil => exact absurd rfl h.ne_nil
  | cons i run =>
    obtain ⟨hi, hrun⟩ := List.forall_mem_cons.1 hcs
    have hrest : ∀ (run : List Item) (p : Nat), (∀ i ∈ run, i.conditions = j.conditions) →
        run.foldl advance ((enter s.1 j.conditions s.2).1, p) =
          ((enter s.1 j.conditions s.2).1, p + Item.sumBits run) := by
      intro run
      induction run with
      | nil => exact fun p _ => rfl
      | cons i run ih =>
        intro p hall
        obtain ⟨hi, hall⟩ := List.forall_mem_cons.1 hall
        rw [List.foldl_cons, advance, hi, enter_enter, ih _ hall, Item.sumBits, Nat.add_assoc]
    rw [List.foldl_cons, advance, hi, hrest run _ hrun, advance, ← hbits, Item.sumBits,
      Nat.add_assoc]

/-- Regrouping takes the walk to the same place. -/
theorem foldl_advance_of_regroups (h : Regroups items merged) (s : Standing) :
    items.foldl advance s = merged.foldl advance s := by
  induction h generalizing s with
  | nil => rfl
  | cons hj _ ih =>
    rw [List.foldl_append, foldl_advance_of_merges hj, List.foldl_cons, ih]

/-- The layout of items in a row follows an assignment in both parts. -/
theorem Follows.of_append {is js : List Item} {xs ys : List (Nat × Nat)} {p : Nat}
    (hlen : xs.length = is.length) (h : Follows a p (is ++ js) (xs ++ ys)) :
    Follows a p is xs ∧ Follows a (p + activeBits a is) js ys := by
  induction is generalizing p xs with
  | nil =>
    cases xs with
    | nil => exact ⟨trivial, h⟩
    | cons x xs => cases hlen
  | cons i is ih =>
    cases xs with
    | nil => cases hlen
    | cons x xs =>
      obtain ⟨hfront, hback⟩ := ih (Nat.succ.inj hlen) h.2
      rw [activeBits_cons, ← Nat.add_assoc]
      exact ⟨⟨h.1, hfront⟩, hback⟩

/-- A run takes as many bits under an assignment as the item that it merges into. -/
theorem activeBits_of_merges (h : Merges run j) :
    activeBits a run = if j.isActive a then j.bits else 0 := by
  have hactive : ∀ i ∈ run, i.isActive a = j.isActive a := by
    intro i hi
    rw [Item.isActive, h.conditions i hi]
    rfl
  split
  · next hj =>
    rw [activeBits, List.filter_eq_self.2 fun i hi => (hactive i hi).trans hj, h.bits_eq]
  · next hj =>
    exact activeBits_eq_zero fun i hi => (hactive i hi).trans (Bool.eq_false_iff.2 hj)

/-- Merged items take as many bits under an assignment as before. -/
theorem activeBits_of_regroups (h : Regroups items merged) (a : Assignment) :
    activeBits a merged = activeBits a items := by
  induction h with
  | nil => rfl
  | cons hj _ ih => rw [activeBits_append, activeBits_of_merges hj, activeBits_cons, ih]

/-- **Layouts of merged items**: if the active ones among some items begin where those in front of
them end, so do the items that they merge into. -/
theorem follows_of_regroups (h : Regroups items merged) {p : Nat} {s : Standing}
    (hfollows : Follows a p items (offsetsFrom s.1 s.2 items).1) :
    Follows a p merged (offsetsFrom s.1 s.2 merged).1 := by
  induction h generalizing p s with
  | nil => trivial
  | @cons run items merged j hj _ ih =>
    rw [offsetsFrom_append] at hfollows
    obtain ⟨hrun, hitems⟩ := hfollows.of_append (length_offsetsFrom s run)
    rw [foldl_advance_of_merges hj, activeBits_of_merges hj] at hitems
    rw [offsetsFrom_cons]
    refine ⟨fun hactive => ?_, ih hitems⟩
    have hcs := hj.conditions
    cases run with
    | nil => exact absurd rfl hj.ne_nil
    | cons i run =>
      have hi := hcs i List.mem_cons_self
      rw [offsetsFrom_cons] at hrun
      have hfirst := hrun.1 (by rw [Item.isActive, hi]; exact hactive)
      rw [Prod.mk.injEq, hi] at hfirst
      rw [hfirst.1]

/-- Merged items end where the items did. -/
theorem bitLength_of_regroups (h : Regroups items merged) :
    bitLength ⟨merged⟩ = bitLength ⟨items⟩ := by
  have hend (is : List Item) : bitLength ⟨is⟩ =
      closeAll (is.foldl advance ([], 0)).1 (is.foldl advance ([], 0)).2 := by
    have happend := congrArg Prod.snd (offsetsFrom_append ([], 0) is [])
    rw [List.append_nil] at happend
    exact happend
  rw [hend, hend, foldl_advance_of_regroups h]

end Sector

end BitLayout
