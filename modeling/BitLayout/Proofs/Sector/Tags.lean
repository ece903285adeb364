import BitLayout.Proofs.Item.Stored
import BitLayout.Proofs.Sector.Order

/-!
# BitLayout.Proofs.Sector.Tags

A tag is stored before it is tested. What a condition tests must be known by the time the item under
it is read, so some earlier item, in an earlier sector or further to the front in the same one, is
the tag itself.

The proof follows what is placed. While the values of a row are placed,

* the tags of the conditions that they stand under are stored (`Known`);
* a union with an external tag has it stored, or in front of it in its row (`Ready`).

Main statement: `tags_of_pack`.
-/

namespace BitLayout

open Packing

/-- An item stores a tag: it is the tag alone, as one integer or truth value. -/
structure Item.Stores (i : Item) (tag : Path) : Prop where
  value : i.content = .value tag.stored
  scalar : tag.stored.last.decl.isScalar = true
  kept : i.isOmitted = false

/-! ## what is known -/

/-- A tag is stored up to a sector, under no more than some conditions. -/
def Saved (before : List Placed) (s : Nat) (cs : List Condition) (tag : Path) : Prop :=
  ∃ y ∈ before, y.sector ≤ s ∧ y.item.Stores tag ∧ y.item.conditions <+: cs

/-- The tags of some conditions are stored, each under no more than the conditions before. -/
def Known (before : List Placed) (s : Nat) (cs : List Condition) : Prop :=
  ∀ (d : Nat) (c : Condition), cs[d]? = some c → Saved before s (cs.take d) c.tag

/-- Whatever is placed has the tags of its conditions stored before. -/
def Tested : List Placed → List Placed → Prop
  | _, [] => True
  | before, x :: xs => Known before x.sector x.item.conditions ∧ Tested (before ++ [x]) xs

section

variable {before more xs ys : List Placed} {s t : Nat} {cs ds : List Condition} {tag : Path}

theorem Saved.mono (h : Saved before s cs tag) (hsub : before ⊆ more) (hst : s ≤ t)
    (hcs : cs <+: ds) : Saved more t ds tag := by
  obtain ⟨y, hy, hle, hstores, hprefix⟩ := h
  exact ⟨y, hsub hy, Nat.le_trans hle hst, hstores, hprefix.trans hcs⟩

theorem Known.mono (h : Known before s cs) (hsub : before ⊆ more) (hst : s ≤ t) :
    Known more t cs := fun d c hc => (h d c hc).mono hsub hst (List.prefix_refl _)

theorem known_nil (before : List Placed) (s : Nat) : Known before s [] := by
  intro d c hc
  simp at hc

/-- One more condition is known if its tag is stored. -/
theorem Known.concat {c : Condition} (h : Known before s cs) (hc : Saved before s cs c.tag) :
    Known before s (cs ++ [c]) := by
  intro d e he
  rw [List.getElem?_append] at he
  split at he
  · next hlt =>
    rw [List.take_append_of_le_length (Nat.le_of_lt hlt)]
    exact h d e he
  · next hge =>
    rw [List.getElem?_singleton] at he
    split at he
    · next hzero =>
      cases he
      obtain rfl : d = cs.length := by omega
      rwa [List.take_left]
    · cases he

theorem tested_append : Tested before (xs ++ ys) ↔ Tested before xs ∧ Tested (before ++ xs) ys := by
  induction xs generalizing before with
  | nil => simp [Tested]
  | cons x xs ih =>
    rw [List.cons_append, Tested, Tested, ih, and_assoc, List.append_assoc, List.singleton_append]

theorem Tested.mono (h : Tested before xs) (hsub : before ⊆ more) : Tested more xs := by
  induction xs generalizing before more with
  | nil => trivial
  | cons x xs ih =>
    refine ⟨h.1.mono hsub (Nat.le_refl _), ih h.2 ?_⟩
    exact List.append_subset.2 ⟨List.subset_append_of_subset_left _ hsub,
      List.subset_append_right ..⟩

/-- What stands under known conditions has their tags stored before. -/
theorem tested_of_known (h : Known before s cs)
    (hxs : ∀ x ∈ xs, s ≤ x.sector ∧ x.item.conditions = cs) : Tested before xs := by
  induction xs generalizing before with
  | nil => trivial
  | cons x xs ih =>
    obtain ⟨⟨hsector, hconditions⟩, hxs⟩ := List.forall_mem_cons.1 hxs
    refine ⟨?_, ih (h.mono (List.subset_append_left ..) (Nat.le_refl s)) hxs⟩
    rw [hconditions]
    exact h.mono (List.Subset.refl _) hsector

/-- Placing more does not matter for what is tested in each of several lists. -/
theorem tested_flatMap {α : Type} {es : List α} {f : α → List Placed}
    (h : ∀ e ∈ es, Tested before (f e)) : Tested before (es.flatMap f) := by
  induction es generalizing before with
  | nil => trivial
  | cons e es ih =>
    obtain ⟨he, hes⟩ := List.forall_mem_cons.1 h
    rw [List.flatMap_cons, tested_append]
    exact ⟨he, ih fun e' he' => (hes e' he').mono (List.subset_append_left ..)⟩

/-- The tags that something in a list tests are stored before it. -/
theorem Tested.known {x : Placed} (h : Tested before (xs ++ x :: ys)) :
    Known (before ++ xs) x.sector x.item.conditions := (tested_append.1 h).2.1

end

/-! ## scalars are placed whole -/

section

variable {g : Registry} {m : Model} {capacity : Nat} {roots : List Decl} {cs : List Condition}
  {p : Path} {ps shared : List Path} {arms : List Variant} {c c' : Cursor} {out : List Placed}

/-- A scalar has no parts. -/
theorem Path.Parts.not_scalar (hp : p.Parts ps) (h : p.Reached roots cs) :
    p.last.decl.isScalar = false := by
  rw [Bool.eq_false_iff, ne_eq, Decl.isScalar_iff, not_and]
  intro hkind hextents
  cases hp with
  | slice hs =>
    obtain ⟨-, -, -, extent, rest, hr, -⟩ := h.of_access (eq_access_of_slice hs)
    have hnone : p.last.decl.extents.drop _ = extent :: rest := hr
    rw [hextents, List.drop_nil] at hnone
    cases hnone
  | rank hs hr =>
    rw [Step.remaining, hextents, List.drop_nil] at hr
    cases hr
  | struct hs hr hk =>
    rw [hk] at hkind
    cases hkind

/-- A scalar has no variants. -/
theorem Path.Switch.not_scalar (hs : p.Switch shared arms) : p.last.decl.isScalar = false := by
  obtain ⟨tag, internal, hk⟩ := hs.kind
  rw [Decl.isScalar, hk]
  rfl

/-- A scalar that is placed whole is stored as a tag. -/
theorem Path.Reached.saved (hm : m.Sound g) (h : p.Reached m.roots cs)
    (hscalar : p.last.decl.isScalar = true) {s : Nat} (hs : c.sector ≤ s)
    (hmem : Placed.value c cs p ∈ out) : Saved out s cs p := by
  have hstored := h.stored_eq hm
  refine ⟨_, hmem, hs, ⟨?_, ?_, ?_⟩, List.prefix_refl _⟩
  · rw [hstored]
    rfl
  · rwa [hstored]
  · exact Decl.isOmitted_of_scalar hscalar

/-- A scalar in a row is placed whole. -/
theorem Places.saved (hm : m.Sound g) (h : Places capacity cs ps c c' out)
    (hreached : ∀ p ∈ ps, p.Reached m.roots cs) (hp : p ∈ ps)
    (hscalar : p.last.decl.isScalar = true) : Saved out c'.sector cs p := by
  induction h with
  | nil => cases hp
  | @omitted cs q ps c c' out homit h ih =>
    rcases List.mem_cons.1 hp with rfl | hp
    · rw [Decl.isOmitted_of_scalar hscalar] at homit
      cases homit
    · exact (ih (fun q hq => hreached q (List.mem_cons_of_mem _ hq)) hp).mono
        (List.subset_append_right ..) (Nat.le_refl _) (List.prefix_refl _)
  | @fits cs q ps c c' out homit hfit h ih =>
    rcases List.mem_cons.1 hp with rfl | hp
    · exact (hreached p List.mem_cons_self).saved hm hscalar h.bounds.1 List.mem_cons_self
    · exact (ih (fun q hq => hreached q (List.mem_cons_of_mem _ hq)) hp).mono
        (List.subset_cons_self ..) (Nat.le_refl _) (List.prefix_refl _)
  | @row cs q ps qs c d c' inner out homit hfit hparts hinner h ihinner ih =>
    rcases List.mem_cons.1 hp with rfl | hp
    · rw [hparts.not_scalar (hreached p List.mem_cons_self)] at hscalar
      cases hscalar
    · exact (ih (fun q hq => hreached q (List.mem_cons_of_mem _ hq)) hp).mono
        (List.subset_append_right ..) (Nat.le_refl _) (List.prefix_refl _)
  | @union cs q ps shared arms c d c' first out ends homit hfit hs hfirst harms hends h ihfirst
      ihends ih =>
    rcases List.mem_cons.1 hp with rfl | hp
    · rw [hs.not_scalar] at hscalar
      cases hscalar
    · exact (ih (fun q hq => hreached q (List.mem_cons_of_mem _ hq)) hp).mono
        (List.subset_append_right ..) (Nat.le_refl _) (List.prefix_refl _)
  | @next cs q ps c c' out homit hfit hwhole hbits h ih =>
    rcases List.mem_cons.1 hp with rfl | hp
    · exact (hreached p List.mem_cons_self).saved hm hscalar h.bounds.1
        (List.mem_append_right _ List.mem_cons_self)
    · refine (ih (fun q hq => hreached q (List.mem_cons_of_mem _ hq)) hp).mono ?_ (Nat.le_refl _)
        (List.prefix_refl _)
      exact List.subset_append_of_subset_right _ (List.subset_cons_self ..)

end

/-! ## selectors -/

/-- A union with an external tag, at a path, is switched by the tag at another one. -/
def Path.SelectedBy (p tag : Path) : Prop :=
  ∃ name owner selector, p.last.decl.kind = .union name false ∧
    p.owners.getLast? = some owner ∧ owner.decl.member? name = some selector ∧
    tag = p.sibling selector

/-- The unions in a row that have an external tag have it stored before the row, or further to the
front in it. -/
def Ready (before : List Placed) (s : Nat) (cs : List Condition) (ps : List Path) : Prop :=
  ∀ (front back : List Path) (p : Path), ps = front ++ p :: back → ∀ tag, p.SelectedBy tag →
    Saved before s cs tag ∨ tag ∈ front ∧ tag.last.decl.isScalar = true

section

variable {g : Registry} {m : Model} {records : List (String × List Decl)}
  {before more : List Placed} {s t : Nat} {cs : List Condition} {p tag : Path}
  {ps shared : List Path} {arms : List Variant} {a : Variant}

/-- What comes first in a row has its tag stored before. -/
theorem Ready.head (h : Ready before s cs (p :: ps)) (htag : p.SelectedBy tag) :
    Saved before s cs tag :=
  (h [] ps p rfl tag htag).resolve_right fun hmem => nomatch hmem.1

/-- The rest of a row is ready, once the first is placed. -/
theorem Ready.tail (h : Ready before s cs (p :: ps)) (hsub : before ⊆ more) (hst : s ≤ t)
    (hp : p.last.decl.isScalar = true → Saved more t cs p) : Ready more t cs ps := by
  intro front back q hps tag htag
  have hsplit : p :: ps = (p :: front) ++ q :: back := by rw [hps, List.cons_append]
  rcases h (p :: front) back q hsplit tag htag with hsaved | ⟨hmem, hscalar⟩
  · exact .inl (hsaved.mono hsub hst (List.prefix_refl _))
  · rcases List.mem_cons.1 hmem with rfl | hmem
    · exact .inl (hp hscalar)
    · exact .inr ⟨hmem, hscalar⟩

/-- A row without external tags is ready. -/
theorem ready_of_unselected (h : ∀ p ∈ ps, ∀ tag, ¬ p.SelectedBy tag) : Ready before s cs ps := by
  intro front back p hps tag htag
  exact (h p (hps ▸ List.mem_append_right _ List.mem_cons_self) tag htag).elim

/-- Members of a struct behind others are ready, if the scalars among the others are stored. -/
theorem ready_members {front ms : List Decl} (hd : p.last.decl.StructSound records)
    (hmembers : front ++ ms <+: p.last.decl.members)
    (hfront : ∀ d ∈ front, d.isScalar = true → Saved before s cs (p.member d)) :
    Ready before s cs (ms.map p.member) := by
  rintro qs qs' q hrow tag ⟨name, owner, selector, hk, howner, hsel, rfl⟩
  obtain ⟨ds, ds', rfl, rfl, hds'⟩ := List.map_eq_append_iff.1 hrow
  obtain ⟨d, ds'', rfl, rfl, rfl⟩ := List.map_eq_cons_iff.1 hds'
  obtain ⟨back, hmembers⟩ := hmembers
  rw [Path.owners_member, Option.some.injEq] at howner
  rw [← howner] at hsel
  have hget : p.last.decl.members[(front ++ ds).length]? = some d := by
    rw [← hmembers]
    simp
  obtain ⟨j, selector', hj, hselector, hfind, hscalar⟩ := hd.selector_of_external hget hk
  obtain rfl : selector = selector' := Option.some.inj (hsel.symm.trans hfind)
  have hmem : selector ∈ front ++ ds := by
    have hselector' : (front ++ ds)[j]? = some selector := by
      rw [← hselector, ← hmembers]
      simp only [List.append_assoc]
      rw [← List.append_assoc, List.getElem?_append_left hj]
    exact List.mem_of_getElem? hselector'
  cases List.mem_append.1 hmem with
  | inl hmem => exact .inl (hfront selector hmem hscalar)
  | inr hmem => exact .inr ⟨List.mem_map_of_mem hmem, hscalar⟩

/-- The parts of a value are ready, if it has its tag stored. -/
theorem Path.Parts.ready (hm : m.Sound g) (hp : p.Parts ps) (h : p.Reached m.roots cs)
    (hselected : ∀ tag, p.SelectedBy tag → Saved before s cs tag) : Ready before s cs ps := by
  cases hp with
  | slice =>
    intro front back q hps tag htag
    obtain ⟨b, -, rfl⟩ := List.mem_map.1 (hps ▸ List.mem_append_right front List.mem_cons_self)
    exact .inl (hselected tag htag)
  | rank =>
    intro front back q hps tag htag
    obtain ⟨b, -, rfl⟩ := List.mem_map.1 (hps ▸ List.mem_append_right front List.mem_cons_self)
    exact .inl (hselected tag htag)
  | struct hs hr hk =>
    have hmembers : [] ++ p.last.decl.members <+: p.last.decl.members := List.prefix_refl _
    exact ready_members ((h.sound hm).self.struct hk) hmembers fun _ hd => (nomatch hd)

/-- What the variants of a union share is ready. -/
theorem Path.Switch.ready (hm : m.Sound g) (hs : p.Switch shared arms)
    (h : p.Reached m.roots cs) : Ready before s cs shared := by
  cases hs with
  | external => exact ready_of_unselected fun _ hq => (nomatch hq)
  | @internal name lead _ _ hk hlead =>
    have hshared := (h.sound hm).self.shared_of_lead hk hlead
    have hv := List.mem_of_find?_eq_some hlead
    have hne : lead.members ≠ [] := by
      obtain ⟨selector, hsel, -⟩ := hshared.tag
      exact List.ne_nil_of_mem (List.mem_of_getElem? hsel)
    have hmembers : [] ++ lead.members.take p.last.decl.sharedFields <+: lead.members :=
      List.take_prefix ..
    exact ready_members (p := p.member lead) (hshared.variant_struct (h.sound hm) hv hne).2 hmembers
      fun _ hd => (nomatch hd)

/-- A shared scalar of a variant is stored, if that of the lead variant is. -/
theorem Path.Reached.saved_shared (hm : m.Sound g) (h : p.Reached m.roots cs) {name : String}
    {lead v d : Decl} (hk : p.last.decl.kind = .union name true)
    (hshared : p.last.decl.Shared lead) (hv : v ∈ p.last.decl.members)
    (homit : v.isOmitted = false) {k : Nat} (hlt : k < p.last.decl.sharedFields)
    (hd : v.members[k]? = some d) (hscalar : d.isScalar = true)
    (hsaved : ∀ q ∈ p.sharedParts lead, q.last.decl.isScalar = true → Saved before s cs q) :
    Saved before s cs ((p.member v).member d) := by
  obtain ⟨own, d', hown, hd', hagrees⟩ := hshared.agrees v hv homit k hlt
  obtain rfl : d = d' := Option.some.inj (hd.symm.trans hd')
  have hmem : (p.member lead).member own ∈ p.sharedParts lead := by
    refine List.mem_map_of_mem (List.mem_of_getElem? (i := k) ?_)
    rwa [List.getElem?_take_of_lt hlt]
  have hown' := hsaved _ hmem ((Decl.isScalar_of_agrees hagrees).trans hscalar)
  have hv' := List.mem_of_find?_eq_some hshared.found
  have hstored : ((p.member v).member d).stored = ((p.member lead).member own).stored :=
    (stored_shared hm h hk hshared.found hv hlt hd hown).trans
      (stored_shared hm h hk hshared.found hv' hlt hown hown).symm
  obtain ⟨y, hy, hsector, ⟨hvalue, hscalar', hkept⟩, hconditions⟩ := hown'
  exact ⟨y, hy, hsector, ⟨hstored ▸ hvalue, hstored ▸ hscalar', hkept⟩, hconditions⟩

/-- The tag of an arm is stored, once the shared parts are placed. -/
theorem Path.Switch.saved_tag (hm : m.Sound g) (hs : p.Switch shared arms)
    (h : p.Reached m.roots cs) (ha : a ∈ arms)
    (hselected : ∀ tag, p.SelectedBy tag → Saved before s cs tag)
    (hshared : ∀ q ∈ shared, q.last.decl.isScalar = true → Saved before s cs q) :
    Saved before s cs a.tag := by
  cases hs with
  | @external name selector owner _ _ hk howner hsel =>
    obtain ⟨v, -, hv⟩ := List.mem_filterMap.1 ha
    rw [(externalVariant_spec hv).2.1]
    exact hselected _ ⟨name, owner, selector, hk, howner, hsel, rfl⟩
  | @internal name lead _ _ hk hlead =>
    obtain ⟨v, hv, hvariant⟩ := List.mem_filterMap.1 ha
    obtain ⟨-, -, d, hd, htag⟩ := internalVariant_spec hvariant
    have hshared' := (h.sound hm).self.shared_of_lead hk hlead
    have hlead' := List.mem_of_find?_eq_some hlead
    have homit : lead.isOmitted = false := by simpa using List.find?_some hlead
    have hlt := Nat.sub_lt hshared'.pos Nat.one_pos
    obtain ⟨selector, hsel, hscalar⟩ := hshared'.tag
    rw [htag]
    -- A variant that is left out has no fields, and is tested by those of the lead variant.
    cases hcase : v.isOmitted with
    | true =>
      rw [hcase, if_pos rfl] at hd
      rw [if_pos rfl]
      obtain rfl : d = selector := Option.some.inj (hd.symm.trans hsel)
      exact h.saved_shared hm hk hshared' hlead' homit hlt hd hscalar hshared
    | false =>
      simp only [hcase, Bool.false_eq_true, if_false] at hd ⊢
      obtain ⟨own, d', hown, hd', hagrees⟩ := hshared'.agrees v hv hcase _ hlt
      obtain rfl : d = d' := Option.some.inj (hd.symm.trans hd')
      obtain rfl : own = selector := Option.some.inj (hown.symm.trans hsel)
      have hscalar' := (Decl.isScalar_of_agrees hagrees).symm.trans hscalar
      exact h.saved_shared hm hk hshared' hv hcase hlt hd hscalar' hshared

/-- The parts of an arm are ready, once the shared parts are placed. -/
theorem Path.Switch.ready_arm (hm : m.Sound g) (hs : p.Switch shared arms)
    (h : p.Reached m.roots cs) (ha : a ∈ arms)
    (hshared : ∀ q ∈ shared, q.last.decl.isScalar = true → Saved before s cs q) :
    Ready before s (a.conditions cs p) a.parts := by
  have hprefix : cs <+: a.conditions cs p := List.prefix_append ..
  cases hs with
  | @external name selector owner _ _ hk howner hsel =>
    obtain ⟨v, hv, hvariant⟩ := List.mem_filterMap.1 ha
    obtain ⟨-, -, hsub, -⟩ := externalVariant_spec hvariant
    refine ready_of_unselected fun q hq tag htag => ?_
    obtain rfl := List.mem_singleton.1 (hsub hq)
    obtain ⟨inner, -, -, hinner, -⟩ := htag
    have hexternal := ((h.sound hm).self.union _ _ hk).tags v hv
    rw [Decl.isExternal, show v.kind = .union inner false from hinner] at hexternal
    cases hexternal
  | @internal name lead _ _ hk hlead =>
    obtain ⟨v, hv, hvariant⟩ := List.mem_filterMap.1 ha
    obtain ⟨-, hparts, -⟩ := internalVariant_spec hvariant
    have hshared' := (h.sound hm).self.shared_of_lead hk hlead
    rw [hparts]
    by_cases hne : v.members = []
    · rw [hne, List.drop_nil, List.map_nil]
      exact ready_of_unselected fun _ hq => (nomatch hq)
    · obtain ⟨homit, hstruct⟩ := hshared'.variant_struct (h.sound hm) hv hne
      have hmembers : v.members.take p.last.decl.sharedFields ++
          v.members.drop p.last.decl.sharedFields <+: v.members :=
        ⟨[], by rw [List.append_nil, List.take_append_drop]⟩
      refine ready_members (p := p.member v) hstruct hmembers fun d hd hscalar => ?_
      obtain ⟨k, hk', hget⟩ := List.getElem_of_mem hd
      rw [List.length_take] at hk'
      have hget' : v.members[k]? = some d := by
        rw [List.getElem?_eq_getElem (by omega), ← hget, List.getElem_take]
      exact (h.saved_shared hm hk hshared' hv homit (by omega) hget' hscalar hshared).mono
        (List.Subset.refl _) (Nat.le_refl _) hprefix

end

/-! ## placing -/

section

variable {g : Registry} {m : Model} {capacity : Nat} {before : List Placed} {cs : List Condition}
  {ps : List Path} {c c' : Cursor} {out : List Placed}

/-- What the branches of a union have placed has its tags stored before, if that of each branch
has. -/
theorem tested_joinBranches {d : Cursor} {u : Path} {ends : List (Variant × Placement)}
    (hends : ∀ e ∈ ends, Places capacity (e.1.conditions cs u) e.1.parts d e.2.1 e.2.2)
    (hknown : ∀ e ∈ ends, Known before d.sector (e.1.conditions cs u))
    (htested : ∀ e ∈ ends, Tested before e.2.2) :
    Tested before (joinBranches capacity d (branchesOf cs u ends)).2 := by
  have hjoin := (upto_joinBranches capacity d (branchesOf cs u ends)).2.1
  rw [joinBranches] at hjoin ⊢
  dsimp only at hjoin ⊢
  rw [branchesOf, List.flatMap_map]
  refine tested_flatMap fun e he => tested_append.2 ⟨htested e he, ?_⟩
  have hstop := (hjoin _ (List.mem_map_of_mem he)).sector_le
  have hbranch := (hends e he).bounds.1
  refine tested_of_known ((hknown e he).mono (List.subset_append_left ..) (Nat.le_refl _))
    fun x hx => ?_
  obtain ⟨hsector, -, bits, trailing, hitem⟩ := mem_fillBranch hstop hx
  refine ⟨Nat.le_trans hbranch hsector, ?_⟩
  rw [hitem]
  rfl

/-- **Tags**: what is placed in a row has its tags stored before. -/
theorem Places.tested (hm : m.Sound g) (h : Places capacity cs ps c c' out)
    (hreached : ∀ p ∈ ps, p.Reached m.roots cs) (hknown : Known before c.sector cs)
    (hready : Ready before c.sector cs ps) : Tested before out := by
  induction h generalizing before with
  | nil => trivial
  | @omitted cs p ps c c' out homit h ih =>
    obtain ⟨hp, hps⟩ := List.forall_mem_cons.1 hreached
    refine tested_append.2 ⟨tested_of_known hknown fun x hx => ?_, ?_⟩
    · split at hx
      · rw [List.mem_singleton.1 hx]
        exact ⟨Nat.le_refl _, rfl⟩
      · cases hx
    · have hsub := List.subset_append_left before
        (if p.last.decl.encoding.default.isSome then [Placed.value c cs p] else [])
      refine ih hps (hknown.mono hsub (Nat.le_refl _)) (hready.tail hsub (Nat.le_refl _) ?_)
      intro hscalar
      rw [Decl.isOmitted_of_scalar hscalar] at homit
      cases homit
  | @fits cs p ps c c' out homit hfit h ih =>
    obtain ⟨hp, hps⟩ := List.forall_mem_cons.1 hreached
    have hsub := List.subset_append_left before [Placed.value c cs p]
    refine ⟨hknown, ih hps (hknown.mono hsub (Nat.le_refl _))
      (hready.tail hsub (Nat.le_refl _) fun hscalar => ?_)⟩
    exact hp.saved hm hscalar (Nat.le_refl _) (List.mem_append_right _ (List.mem_singleton_self _))
  | @row cs p ps qs c d c' inner out homit hfit hparts hinner h ihinner ih =>
    obtain ⟨hp, hps⟩ := List.forall_mem_cons.1 hreached
    have hsub := List.subset_append_left before inner
    have hcd := hinner.bounds.1
    refine tested_append.2 ⟨?_, ih hps (hknown.mono hsub hcd) (hready.tail hsub hcd ?_)⟩
    · exact ihinner (fun q hq => .part hp homit hparts hq) hknown
        (hparts.ready hm hp fun tag htag => hready.head htag)
    · intro hscalar
      rw [hparts.not_scalar hp] at hscalar
      cases hscalar
  | @union cs p ps shared arms c d c' first out ends homit hfit hs hfirst harms hends h ihfirst
      ihends ih =>
    obtain ⟨hp, hps⟩ := List.forall_mem_cons.1 hreached
    have hsub := List.subset_append_left before first
    have hcd := hfirst.bounds.1
    have hmem (e) (he : e ∈ ends) : e.1 ∈ arms := harms ▸ List.mem_map_of_mem he
    have hshared : ∀ q ∈ shared, q.last.decl.isScalar = true →
        Saved (before ++ first) d.sector cs q := fun q hq hscalar =>
      (hfirst.saved hm (fun q hq => .shared hp homit hs hq) hq hscalar).mono
        (List.subset_append_right ..) (Nat.le_refl _) (List.prefix_refl _)
    have hselected : ∀ tag, p.SelectedBy tag → Saved (before ++ first) d.sector cs tag :=
      fun tag htag => (hready.head htag).mono hsub hcd (List.prefix_refl _)
    have harm : ∀ e ∈ ends, Known (before ++ first) d.sector (e.1.conditions cs p) :=
      fun e he => (hknown.mono hsub hcd).concat
        (hs.saved_tag hm hp (hmem e he) hselected hshared)
    have hjoin := (upto_joinBranches capacity d (branchesOf cs p ends)).1.sector_le
    refine tested_append.2 ⟨tested_append.2 ⟨?_, ?_⟩, ?_⟩
    · exact ihfirst (fun q hq => .shared hp homit hs hq) hknown (hs.ready hm hp)
    · exact tested_joinBranches hends harm fun e he =>
        ihends e he (fun q hq => .arm hp homit hs (hmem e he) hq) (harm e he)
          (hs.ready_arm hm hp (hmem e he) hshared)
    · have hsub := List.subset_append_left before
        (first ++ (joinBranches capacity d (branchesOf cs p ends)).2)
      have hcj := Nat.le_trans hcd hjoin
      refine ih hps (hknown.mono hsub hcj) (hready.tail hsub hcj fun hscalar => ?_)
      rw [hs.not_scalar] at hscalar
      cases hscalar
  | @next cs p ps c c' out homit hfit hwhole hbits h ih =>
    obtain ⟨hp, hps⟩ := List.forall_mem_cons.1 hreached
    have hfill : Tested before (fill capacity cs c) := tested_of_known hknown fun x hx => by
      obtain ⟨hsector, bits, trailing, hitem⟩ := mem_fill hx
      refine ⟨Nat.le_of_eq hsector.symm, ?_⟩
      rw [hitem]
      rfl
    have hsub := List.subset_append_left before (fill capacity cs c)
    have hsub' := List.subset_append_left before
      (fill capacity cs c ++ [Placed.value c.next cs p])
    rw [← List.append_assoc] at hsub'
    refine tested_append.2 ⟨hfill, hknown.mono hsub (Nat.le_succ _), ?_⟩
    refine ih hps (hknown.mono hsub' (Nat.le_succ _)) (hready.tail hsub' (Nat.le_succ _) ?_)
    exact fun hscalar => hp.saved hm hscalar (Nat.le_refl _)
      (List.mem_append_right _ (List.mem_singleton_self _))

end

/-! ## groups -/

/-- What is placed for groups has its tags stored before. -/
theorem PlacesGroups.tested {g : Registry} {m : Model} {capacity : Nat} {groups : List (List Decl)}
    {before after : Placement} (hm : m.Sound g) (h : PlacesGroups capacity groups before after)
    (hgroups : ∀ d ∈ groups.flatten, d ∈ m.roots) (hbefore : Tested [] before.2) :
    Tested [] after.2 := by
  induction h with
  | nil => exact hbefore
  | @cons objects groups before after c more h hrest ih =>
    rw [List.flatten_cons] at hgroups
    refine ih (fun d hd => hgroups d (List.mem_append_right _ hd)) ?_
    obtain ⟨padding, hopened, hpadding⟩ := opened_eq capacity before
    refine tested_append.2 ⟨?_, h.tested hm (fun p hp => ?_) (known_nil _ _) ?_⟩
    · rw [hopened, tested_append]
      refine ⟨hbefore, tested_of_known (known_nil _ 0) fun x hx => ⟨Nat.zero_le _, ?_⟩⟩
      obtain ⟨bits, trailing, hitem⟩ := hpadding x hx
      rw [hitem]
      rfl
    · obtain ⟨d, hd, rfl⟩ := List.mem_map.1 hp
      exact .root (hgroups d (List.mem_append_left _ hd))
    · -- A data object has no owner that could hold a tag.
      refine ready_of_unselected fun p hp tag htag => ?_
      obtain ⟨d, -, rfl⟩ := List.mem_map.1 hp
      obtain ⟨-, owner, -, -, howner, -⟩ := htag
      cases howner

/-! ## sectors -/

section

variable {placed : List Placed} {items merged front back : List Item} {i : Item} {s : Nat}

/-- An item of a sector, and those in front of it. -/
theorem inSector_eq_append (h : inSector s placed = front ++ i :: back) :
    ∃ before x after, placed = before ++ x :: after ∧ inSector s before = front ∧ x.sector = s ∧
      x.item = i := by
  obtain ⟨xs, ys, hfilter, rfl, hys⟩ := List.map_eq_append_iff.1 h
  obtain ⟨x, zs, rfl, rfl, -⟩ := List.map_eq_cons_iff.1 hys
  obtain ⟨before, after, rfl, rfl, hafter⟩ := List.filter_eq_append_iff.1 hfilter
  obtain ⟨between, after, rfl, hbetween, hx, -⟩ := List.filter_eq_cons_iff.1 hafter
  refine ⟨before ++ between, x, after, (List.append_assoc ..).symm, ?_, by simpa using hx, rfl⟩
  rw [inSector, List.filter_append, List.filter_eq_nil_iff.2 hbetween, List.append_nil]

/-- An item that stores a tag is still there when items are merged. -/
theorem Item.Stores.mem_merged {tag : Path} (h : i.Stores tag) (hregroups : Regroups items merged)
    (hi : i ∈ items) : i ∈ merged := by
  obtain ⟨cs, content⟩ := i
  obtain rfl : content = .value tag.stored := h.value
  exact hregroups.mem_of_scalar hi (Decl.isScalar_iff.1 h.scalar).2

end

/-- **A tag is stored before it is tested.** In every packing, for every condition of every item, an
item in an earlier sector, or further to the front in the same one, is the tag of the condition: one
integer or truth value, read through lead variants, that is not left out and stands under no more
than the conditions in front of it. -/
theorem tags_of_pack {c : Config} {g : Registry} {m : Model} {groups : List (List Decl)}
    {capacity available : Nat} {sectors : List Sector} (hbuild : Model.build c g = some m)
    (herrors : m.errors = []) (hgroups : m.Grouping groups)
    (hpack : pack capacity available groups = .ok sectors) (n k : Nat) (s : Sector) (i : Item)
    (hs : sectors[n]? = some s) (hi : s.items[k]? = some i) (d : Nat) (cond : Condition)
    (hcond : i.conditions[d]? = some cond) :
    ∃ (n' k' : Nat) (s' : Sector) (j : Item), (n' < n ∨ n' = n ∧ k' < k) ∧
      sectors[n']? = some s' ∧ s'.items[k']? = some j ∧ j.Stores cond.tag ∧
      j.conditions <+: i.conditions.take d := by
  have hm := Model.sound_of_build hbuild herrors
  obtain ⟨cursor, placed, hplaces, -, rfl⟩ := placesGroups_of_pack hpack
  have hregroups : ∀ t, Regroups (inSector t placed) (sectorOf placed t).items :=
    hplaces.regroups hm hgroups
  have htested : Tested [] placed := hplaces.tested hm hgroups.sub trivial
  have hsector (t : Nat) (ht : t < sectorsNeeded placed) :
      ((List.range (sectorsNeeded placed)).map (sectorOf placed))[t]? =
        some (sectorOf placed t) := by
    rw [List.getElem?_map, List.getElem?_range ht, Option.map_some]
  have hn : n < sectorsNeeded placed := by
    have hlen := (List.getElem?_eq_some_iff.1 hs).1
    rwa [List.length_map, List.length_range] at hlen
  obtain rfl : s = sectorOf placed n := Option.some.inj (hs.symm.trans (hsector n hn))
  -- What merges into the item begins with something that is placed under the same conditions.
  obtain ⟨hk, hget⟩ := List.getElem?_eq_some_iff.1 hi
  have hsplit := (List.take_append_drop k (sectorOf placed n).items).symm
  rw [List.drop_eq_getElem_cons hk, hget] at hsplit
  obtain ⟨front, run, back, hitems, hfront, hmerges⟩ := (hsplit ▸ hregroups n).split_cons
  obtain ⟨first, rest, rfl⟩ := List.exists_cons_of_ne_nil hmerges.ne_nil
  obtain ⟨before, x, after, hplaced, hbefore, hx, hfirst⟩ := inSector_eq_append hitems
  have hconditions := hmerges.conditions first List.mem_cons_self
  rw [hplaced] at htested
  have hknown := htested.known
  rw [hx, hfirst, hconditions, List.nil_append] at hknown
  obtain ⟨y, hy, hle, hstores, hprefix⟩ := hknown d cond hcond
  by_cases hlt : y.sector < n
  · have hmem : y.item ∈ inSector y.sector placed := by
      refine List.mem_map_of_mem (List.mem_filter.2 ⟨?_, decide_eq_true rfl⟩)
      rw [hplaced]
      exact List.mem_append_left _ hy
    obtain ⟨k', hk'⟩ := List.mem_iff_getElem?.1 (hstores.mem_merged (hregroups y.sector) hmem)
    exact ⟨y.sector, k', _, y.item, .inl hlt, hsector _ (by omega), hk', hstores, hprefix⟩
  · have hmem : y.item ∈ front := by
      rw [← hbefore]
      exact List.mem_map_of_mem (List.mem_filter.2 ⟨hy, decide_eq_true (by omega)⟩)
    obtain ⟨k', hk'⟩ := List.mem_iff_getElem?.1 (hstores.mem_merged hfront hmem)
    have hlt' : k' < k := by
      have hlen := (List.getElem?_eq_some_iff.1 hk').1
      rw [List.length_take] at hlen
      omega
    rw [List.getElem?_take_of_lt hlt'] at hk'
    exact ⟨n, k', _, y.item, .inr ⟨rfl, hlt'⟩, hs, hk', hstores, hprefix⟩

/-- In the second sector of the small layout, the first item is tested by a tag that is stored
before it. -/
theorem Sample.tag_stored : ∃ m sectors s i cond, Model.build config registry = some m ∧
    pack 16 8 m.groups = .ok sectors ∧ sectors[1]? = some s ∧ s.items[0]? = some i ∧
    i.conditions[0]? = some cond ∧
    ∃ (n' k' : Nat) (s' : Sector) (j : Item), (n' < 1 ∨ n' = 1 ∧ k' < 0) ∧
      sectors[n']? = some s' ∧ s'.items[k']? = some j ∧ j.Stores cond.tag ∧
      j.conditions <+: i.conditions.take 0 := by
  obtain ⟨m, sectors, hm, herrors, hpack, hshape⟩ := packs
  obtain ⟨s, hs, hs'⟩ : ∃ s, sectors[1]? = some s ∧
      s.items.map (fun i => (i.bits, i.conditions.length)) = [(16, 1), (16, 1)] := by
    refine Option.map_eq_some_iff.1 ?_
    rw [← List.getElem?_map, show sectors.map _ = shape sectors from rfl, hshape]
    rfl
  obtain ⟨i, hi, hi'⟩ : ∃ i, s.items[0]? = some i ∧ (i.bits, i.conditions.length) = (16, 1) := by
    refine Option.map_eq_some_iff.1 ?_
    rw [← List.getElem?_map, hs']
    rfl
  obtain ⟨cond, hcond⟩ := List.length_eq_one_iff.1 (Prod.mk.inj hi').2
  have hget : i.conditions[0]? = some cond := by
    rw [hcond]
    rfl
  have hgrouping := (Model.sound_of_build hm herrors).grouping
  exact ⟨m, sectors, s, i, cond, hm, hpack, hs, hi, hget,
    tags_of_pack hm herrors hgrouping hpack 1 0 s i hs hi 0 cond hget⟩

end BitLayout
