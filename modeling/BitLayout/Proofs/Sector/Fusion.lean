import BitLayout.Proofs.Sector.Obtained
import Mathlib.Logic.Relation

/-!
# BitLayout.Proofs.Sector.Fusion

Merging as rewriting. In one step, an index that covers its rank is left out, or two neighbours that
continue each other are joined. Passes go such steps, until none is left:

```
a[0] a[1] a[2]  -->  a[0..2] a[2]  -->  a[0..3]  -->  a
```

Steps of items that can come up do not get in each other's way. An index that covers its rank has
no neighbour that continues it, since slices are not empty, and three neighbours in a row are joined
to the same item from either end. So the order of steps does not matter, and a list has only one
settled form.

* `Fuses.diamond`: two different steps from one list lead on to one list;
* `mergeItems_of_fuses`: merging leads to the same list after some steps as before them.
-/

namespace BitLayout

open Relation

/-! ## steps -/

/-- One step of merging. -/
inductive Fuses : List Item → List Item → Prop where
  | uncover {i : Item} (h : i.coversRank = true) (items : List Item) :
    Fuses (i :: items) (i.uncovered :: items)
  | join {i j joined : Item} (h : i.join? j = some joined) (items : List Item) :
    Fuses (i :: j :: items) (joined :: items)
  | tail (i : Item) {items out : List Item} (h : Fuses items out) : Fuses (i :: items) (i :: out)

variable {m : Model} {items xs ys zs done : List Item} {i j k joined : Item}

namespace Fuses

theorem append_left (h : Fuses xs ys) (items : List Item) : Fuses (xs ++ items) (ys ++ items) := by
  induction h with
  | uncover h rest => exact .uncover h (rest ++ items)
  | join h rest => exact .join h (rest ++ items)
  | tail i _ ih => exact .tail i ih

theorem append_right (h : Fuses xs ys) (items : List Item) : Fuses (items ++ xs) (items ++ ys) := by
  induction items with
  | nil => exact h
  | cons i items ih => exact .tail i ih

/-- Steps in a list are steps between others. -/
theorem within (h : ReflTransGen Fuses xs ys) (front back : List Item) :
    ReflTransGen Fuses (front ++ xs ++ back) (front ++ ys ++ back) :=
  h.lift (front ++ · ++ back) fun _ _ hstep => (hstep.append_right front).append_left back

/-- A step leads to items that can come up. -/
theorem solid (hm : m.Numbered) (h : Fuses xs ys) (hxs : ∀ i ∈ xs, i.Solid m.roots) :
    ∀ i ∈ ys, i.Solid m.roots := by
  induction h with
  | uncover _ items =>
    obtain ⟨hi, hitems⟩ := List.forall_mem_cons.1 hxs
    exact List.forall_mem_cons.2 ⟨hi.uncovered, hitems⟩
  | join hjoin items =>
    obtain ⟨hi, hxs⟩ := List.forall_mem_cons.1 hxs
    obtain ⟨hj, hitems⟩ := List.forall_mem_cons.1 hxs
    exact List.forall_mem_cons.2 ⟨hi.join hm hj hjoin, hitems⟩
  | tail i _ ih =>
    obtain ⟨hi, hitems⟩ := List.forall_mem_cons.1 hxs
    exact List.forall_mem_cons.2 ⟨hi, ih hitems⟩

end Fuses

/-- A settled list allows no step. -/
theorem Settled.not_fuses (h : Settled xs) : ¬ Fuses xs ys := by
  intro hstep
  induction hstep with
  | uncover hcovers items =>
    have hnot := h.uncovered _ List.mem_cons_self
    rw [hcovers] at hnot
    cases hnot
  | join hjoin items =>
    have hnot := (List.isChain_cons_cons.1 h.apart).1
    rw [hjoin] at hnot
    cases hnot
  | tail i _ ih =>
    exact ih ⟨fun j hj => h.uncovered j (List.mem_cons_of_mem _ hj), h.apart.tail⟩

/-! ## passes -/

theorem fuses_uncovered (items : List Item) :
    ReflTransGen Fuses items (items.map Item.uncovered) := by
  induction items with
  | nil => exact .refl
  | cons i items ih =>
    have hrest : ReflTransGen Fuses (i :: items) (i :: items.map Item.uncovered) :=
      ih.lift (i :: ·) fun _ _ hstep => .tail i hstep
    cases hcovers : i.coversRank with
    | false => rwa [List.map_cons, Item.uncovered_of_not_covers hcovers]
    | true => exact hrest.tail (.uncover hcovers _)

theorem fuses_foldl (done items : List Item) :
    ReflTransGen Fuses (done.reverse ++ items) (items.foldl mergeOnto done).reverse := by
  induction items generalizing done with
  | nil =>
    rw [List.append_nil]
    exact .refl
  | cons i items ih =>
    rw [List.foldl_cons]
    refine ReflTransGen.trans ?_ (ih _)
    unfold mergeOnto
    split
    · exact .refl
    · next before earlier =>
      split
      · next joined hjoin =>
        rw [List.reverse_cons, List.reverse_cons, List.append_assoc, List.append_assoc]
        exact .single ((Fuses.join hjoin items).append_right earlier.reverse)
      · rw [List.reverse_cons (a := i), List.append_assoc, List.singleton_append]

/-- A pass goes some steps. -/
theorem fuses_mergePass (items : List Item) : ReflTransGen Fuses items (mergePass items) :=
  (fuses_uncovered items).trans (fuses_foldl [] _)

/-- Merging goes some steps. -/
theorem fuses_mergeItems (items : List Item) : ReflTransGen Fuses items (mergeItems items) := by
  rw [mergeItems, mergeWithin_eq]
  generalize mergeWeight items = passes
  induction passes generalizing items with
  | zero => exact .refl
  | succ passes ih =>
    rw [Function.iterate_succ_apply]
    exact (fuses_mergePass items).trans (ih _)

/-! ## steps do not get in each other's way -/

theorem Path.Rank.unique {p : Path} {extent extent' : Nat} (h : p.Rank extent)
    (h' : p.Rank extent') : extent = extent' := by
  obtain ⟨rest, hr⟩ := h.remaining
  obtain ⟨rest', hr'⟩ := h'.remaining
  exact (List.cons.inj (hr.symm.trans hr')).1

namespace Item

theorem value_access_inj {cs cs' : List Condition} {p q : Path} {a b : Access}
    (h : (⟨cs, .value (p.access a)⟩ : Item) = ⟨cs', .value (q.access b)⟩) :
    cs = cs' ∧ p = q ∧ a = b := by
  rw [Item.mk.injEq, Content.value.injEq] at h
  exact ⟨h.1, Path.access_inj h.2⟩

/-- Nothing continues an index that covers its rank. -/
theorem Solid.join_of_covers (hm : m.Numbered) (hi : i.Solid m.roots) (hj : j.Solid m.roots)
    (hcovers : i.coversRank = true) : i.join? j = none := by
  cases hjoin : i.join? j with
  | none => rfl
  | some joined =>
    obtain ⟨cs, p, extent, hrank, rfl, -⟩ := covers_inv hi.lies hcovers
    obtain ⟨cs', q, x, y, extent', hrank', heq, rfl, hxy, hstop, -⟩ :=
      join_inv hm hi.lies hj.lies hjoin
    obtain ⟨rfl, rfl, rfl⟩ := value_access_inj heq
    obtain rfl := hrank.unique hrank'
    have hpos := hj.filled cs p y rfl
    simp only [Access.stop] at hxy hstop
    omega

/-- An index that covers its rank continues nothing. -/
theorem Solid.join_covers (hm : m.Numbered) (hi : i.Solid m.roots) (hj : j.Solid m.roots)
    (hcovers : j.coversRank = true) : i.join? j = none := by
  cases hjoin : i.join? j with
  | none => rfl
  | some joined =>
    obtain ⟨cs, p, extent, hrank, rfl, -⟩ := covers_inv hj.lies hcovers
    obtain ⟨cs', q, x, y, extent', -, rfl, heq, hxy, -⟩ := join_inv hm hi.lies hj.lies hjoin
    obtain ⟨rfl, rfl, rfl⟩ := value_access_inj heq
    have hpos := hi.filled cs p x rfl
    simp only [Access.stop] at hxy
    omega

/-- Runs of indices of one rank are joined if they continue each other. -/
theorem join_access (cs : List Condition) (p : Path) {x y : Access} (h : x.stop = y.start) :
    (⟨cs, .value (p.access x)⟩ : Item).join? ⟨cs, .value (p.access y)⟩ =
      some ⟨cs, .value (p.access ⟨x.start, x.count + y.count⟩)⟩ := by
  simp [join?, Step.join?, Path.access, Path.withAccesses, h]

/-- An index over all of a rank covers it, and is left out. -/
theorem covers_access (cs : List Condition) {p : Path} {extent : Nat} (h : p.Rank extent) :
    (⟨cs, .value (p.access ⟨0, extent⟩)⟩ : Item).coversRank = true ∧
      (⟨cs, .value (p.access ⟨0, extent⟩)⟩ : Item).uncovered = ⟨cs, .value p⟩ := by
  obtain ⟨rest, hr⟩ := h.remaining
  have hextent : p.last.decl.extents[p.last.accesses.length]? = some extent := by
    have hdrop := congrArg List.head? hr
    simpa [Step.remaining, List.head?_drop] using hdrop
  have hcovers : (p.access ⟨0, extent⟩).last.coversRank = true := by
    simp [Step.coversRank, Path.access, Path.withAccesses, hextent]
  refine ⟨hcovers, ?_⟩
  change (⟨cs, .value { p.access ⟨0, extent⟩ with last := (p.access ⟨0, extent⟩).last.uncovered }⟩ :
    Item) = _
  rw [Step.uncovered, if_pos hcovers]
  simp [Path.access, Path.withAccesses]

/-- Three neighbours are joined to the same item from either end. -/
theorem Solid.join_assoc (hm : m.Numbered) (hi : i.Solid m.roots) (hj : j.Solid m.roots)
    (hk : k.Solid m.roots) {joined joined' : Item} (h : i.join? j = some joined)
    (h' : j.join? k = some joined') :
    ∃ all, joined.join? k = some all ∧ i.join? joined' = some all := by
  obtain ⟨cs, p, x, y, extent, -, rfl, rfl, hxy, -, rfl⟩ := join_inv hm hi.lies hj.lies h
  obtain ⟨cs', q, y', z, extent', -, heq, rfl, hyz, -, rfl⟩ := join_inv hm hj.lies hk.lies h'
  obtain ⟨rfl, rfl, rfl⟩ := value_access_inj heq
  refine ⟨⟨cs, .value (p.access ⟨x.start, x.count + y.count + z.count⟩)⟩, ?_, ?_⟩
  · refine join_access cs p ?_
    simp only [Access.stop] at hxy hyz ⊢
    omega
  · have hjoin := join_access cs p (x := x) (y := ⟨y.start, y.count + z.count⟩) hxy
    rw [hjoin, Nat.add_assoc]

end Item

namespace Fuses

/-- Two first items can be joined, or a step be gone behind the first: both lead on to one list. -/
theorem diamond_join (hm : m.Numbered) (hxs : ∀ l ∈ i :: j :: items, l.Solid m.roots)
    (hjoin : i.join? j = some joined) (h : Fuses (j :: items) zs) :
    ∃ ws, ReflGen Fuses (joined :: items) ws ∧ ReflGen Fuses (i :: zs) ws := by
  obtain ⟨hi, hxs⟩ := List.forall_mem_cons.1 hxs
  obtain ⟨hj, hitems⟩ := List.forall_mem_cons.1 hxs
  cases h with
  | uncover hcovers =>
    rw [hi.join_covers hm hj hcovers] at hjoin
    cases hjoin
  | join hjoin' rest =>
    obtain ⟨hk, -⟩ := List.forall_mem_cons.1 hitems
    obtain ⟨all, hall, hall'⟩ := hi.join_assoc hm hj hk hjoin hjoin'
    exact ⟨all :: rest, .single (.join hall rest), .single (.join hall' rest)⟩
  | @tail _ _ out h =>
    exact ⟨joined :: out, .single (.tail joined h), .single (.join hjoin out)⟩

/-- The first item can be uncovered, or another step be gone: both lead on to one list. -/
theorem diamond_uncover (hm : m.Numbered) (hxs : ∀ l ∈ i :: items, l.Solid m.roots)
    (hcovers : i.coversRank = true) (h : Fuses (i :: items) zs) :
    ∃ ws, ReflGen Fuses (i.uncovered :: items) ws ∧ ReflGen Fuses zs ws := by
  obtain ⟨hi, hitems⟩ := List.forall_mem_cons.1 hxs
  cases h with
  | uncover => exact ⟨_, .refl, .refl⟩
  | join hjoin =>
    rw [hi.join_of_covers hm (hitems _ List.mem_cons_self) hcovers] at hjoin
    cases hjoin
  | @tail _ _ out h =>
    exact ⟨i.uncovered :: out, .single (.tail _ h), .single (.uncover hcovers out)⟩

/-- **Two steps from one list lead on to one list**, each by one step more at most. -/
theorem diamond (hm : m.Numbered) (hxs : ∀ i ∈ xs, i.Solid m.roots) (h : Fuses xs ys)
    (h' : Fuses xs zs) : ∃ ws, ReflGen Fuses ys ws ∧ ReflGen Fuses zs ws := by
  induction h generalizing zs with
  | uncover hcovers => exact diamond_uncover hm hxs hcovers h'
  | join hjoin =>
    cases h' with
    | uncover hcovers =>
      obtain ⟨hi, hitems⟩ := List.forall_mem_cons.1 hxs
      rw [hi.join_of_covers hm (hitems _ List.mem_cons_self) hcovers] at hjoin
      cases hjoin
    | join hjoin' =>
      rw [hjoin, Option.some.injEq] at hjoin'
      rw [hjoin']
      exact ⟨_, .refl, .refl⟩
    | tail _ h' => exact diamond_join hm hxs hjoin h'
  | tail i h ih =>
    cases h' with
    | uncover hcovers =>
      obtain ⟨ws, hws, hws'⟩ := diamond_uncover hm hxs hcovers (.tail i h)
      exact ⟨ws, hws', hws⟩
    | join hjoin =>
      obtain ⟨ws, hws, hws'⟩ := diamond_join hm hxs hjoin h
      exact ⟨ws, hws', hws⟩
    | tail _ h' =>
      obtain ⟨ws, hws, hws'⟩ := ih (List.forall_mem_cons.1 hxs).2 h'
      have hlift {as bs : List Item} (h : ReflGen Fuses as bs) :
          ReflGen Fuses (i :: as) (i :: bs) := by
        cases h with
        | refl => exact .refl
        | single h => exact .single (.tail i h)
      exact ⟨i :: ws, hlift hws, hlift hws'⟩

/-- All that a list can be merged to by steps leads on to one list. -/
theorem confluent (hm : m.Numbered) (hxs : ∀ i ∈ xs, i.Solid m.roots)
    (h : ReflTransGen Fuses xs ys) (h' : ReflTransGen Fuses xs zs) :
    ∃ ws, ReflTransGen Fuses ys ws ∧ ReflTransGen Fuses zs ws := by
  -- The diamond holds of lists that can come up only, and steps lead from such lists to others.
  let step (xs ys : List Item) : Prop := (∀ i ∈ xs, i.Solid m.roots) ∧ Fuses xs ys
  have hstep {xs ys : List Item} (hxs : ∀ i ∈ xs, i.Solid m.roots)
      (h : ReflTransGen Fuses xs ys) : ReflTransGen step xs ys := by
    induction h using ReflTransGen.head_induction_on with
    | refl => exact .refl
    | head h _ ih => exact .head ⟨hxs, h⟩ (ih (h.solid hm hxs))
  have hdiamond : ∀ as bs cs, step as bs → step as cs →
      ∃ ds, ReflGen step bs ds ∧ ReflTransGen step cs ds := by
    rintro as bs cs ⟨has, hb⟩ ⟨-, hc⟩
    obtain ⟨ds, hbs, hcs⟩ := diamond hm has hb hc
    refine ⟨ds, ?_, hstep (hc.solid hm has) hcs.to_reflTransGen⟩
    cases hbs with
    | refl => exact .refl
    | single h => exact .single ⟨hb.solid hm has, h⟩
  obtain ⟨ws, hys, hzs⟩ := church_rosser hdiamond (hstep hxs h) (hstep hxs h')
  exact ⟨ws, hys.lift id fun _ _ h => h.2, hzs.lift id fun _ _ h => h.2⟩

end Fuses

/-- Steps lead nowhere from a settled list. -/
theorem Settled.eq_of_fuses (h : Settled xs) (hsteps : ReflTransGen Fuses xs ys) : ys = xs := by
  rcases hsteps.cases_head with rfl | ⟨_, hstep, -⟩
  · rfl
  · exact (h.not_fuses hstep).elim

/-- **Merging leads to the same list** after some steps as before them. -/
theorem mergeItems_of_fuses (hm : m.Numbered) (hxs : ∀ i ∈ xs, i.Solid m.roots)
    (h : ReflTransGen Fuses xs ys) : mergeItems xs = mergeItems ys := by
  obtain ⟨ws, hxws, hyws⟩ :=
    Fuses.confluent hm hxs (fuses_mergeItems xs) (h.trans (fuses_mergeItems ys))
  rw [← (settled_mergeItems xs).2.eq_of_fuses hxws, ← (settled_mergeItems ys).2.eq_of_fuses hyws]

end BitLayout
