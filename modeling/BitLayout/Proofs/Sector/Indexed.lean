import BitLayout.Proofs.Sector.Arising

/-!
# BitLayout.Proofs.Sector.Indexed

The indices on paths. However an item comes up, its path goes down members of single elements, and
each index of an array stays within the extent of its rank; only the last one can be a slice. The
tags of unions that are taken apart are single elements, without any index left open.

* `Path.Indexed.of_access`: what the last index was applied to;
* `Path.Indexed.part`, `Path.Indexed.common`, `Path.Indexed.arm`: parts of what is indexed are;
* `Path.Indexed.tag`: the tag of an arm is a single element;
* `Item.Arises.indexed`: every item that comes up is indexed;
* `tagged_of_pack`: so are the items of packed sectors, and the tags that they stand under.
-/

namespace BitLayout

namespace Path

/-! ## paths -/

/-- A path goes down members of single elements, with indices within the bounds of their ranks. -/
inductive Indexed (roots : List Decl) : Path → Prop where
  | root {d : Decl} (hd : d ∈ roots) : Indexed roots (.root d)
  | member {p : Path} {d : Decl} (h : Indexed roots p) (hs : p.last.slice? = none)
    (hr : p.last.remaining = []) (hd : d ∈ p.last.decl.members) : Indexed roots (p.member d)
  | access {p : Path} {a : Access} {extent : Nat} {rest : List Nat} (h : Indexed roots p)
    (hs : p.last.slice? = none) (hr : p.last.remaining = extent :: rest) (ha : a.stop ≤ extent) :
    Indexed roots (p.access a)

/-- A path leads to a single element. -/
structure Single (roots : List Decl) (p : Path) : Prop where
  indexed : p.Indexed roots
  unsliced : p.last.slice? = none
  remaining : p.last.remaining = []

variable {g : Registry} {m : Model} {roots : List Decl} {p q : Path} {ps shared : List Path}
  {arms : List Variant} {a : Variant} {d : Decl}

theorem Single.member (h : p.Single roots) (hd : d ∈ p.last.decl.members)
    (hextents : d.extents = []) : (p.member d).Single roots :=
  ⟨h.indexed.member h.unsliced h.remaining hd, rfl, hextents⟩

namespace Indexed

theorem walks (h : p.Indexed roots) : p.Walks roots := by
  induction h with
  | root hd => exact .root hd
  | member _ _ _ hd ih => exact ih.member hd
  | access _ _ _ _ ih => exact ih.withAccesses _

/-- The last index was applied to a rank of something that is indexed itself, within its bounds. -/
theorem of_access {a : Access} (h : q.Indexed roots) (hq : q = p.access a) :
    p.Indexed roots ∧ p.last.slice? = none ∧
      ∃ extent rest, p.last.remaining = extent :: rest ∧ a.stop ≤ extent := by
  cases h with
  | root => exact absurd hq.symm (access_ne_whole rfl)
  | member => exact absurd hq.symm (access_ne_whole rfl)
  | access h hs hr ha =>
    obtain ⟨rfl, rfl⟩ := access_inj hq
    exact ⟨h, hs, _, _, hr, ha⟩

/-- The steps in front of the last one lead to a single element, of which it is a member. -/
theorem of_owners (h : p.Indexed roots) (hq : p.owners = q.steps) : q.Single roots := by
  have hnil : q.steps ≠ [] := by simp [steps]
  induction h with
  | root => exact absurd hq.symm hnil
  | @member p d h hs hr hd =>
    have heq : p = q := by
      obtain ⟨owners, last⟩ := p
      obtain ⟨owners', last'⟩ := q
      have hsteps : owners ++ [last] = owners' ++ [last'] := hq
      obtain ⟨rfl, hlast⟩ := List.append_inj' hsteps rfl
      rw [List.singleton_inj.1 hlast]
    exact heq ▸ ⟨h, hs, hr⟩
  | access _ _ _ _ ih => exact ih hq

/-! ## taking apart -/

theorem part (h : p.Indexed roots) (hp : p.Parts ps) (hq : q ∈ ps) : q.Indexed roots := by
  cases hp with
  | slice hs =>
    obtain ⟨b, hb, rfl⟩ := List.mem_map.1 hq
    obtain ⟨hbase, hnone, extent, rest, hr, hstop⟩ := h.of_access (eq_access_of_slice hs)
    have haccess := hbase.access hnone hr (Nat.le_trans (Access.stop_le_of_mem_singles hb) hstop)
    exact haccess
  | rank hs hr =>
    obtain ⟨b, hb, rfl⟩ := List.mem_map.1 hq
    have hstop := Access.stop_le_of_mem_singles hb
    simp only [Access.stop, Nat.zero_add] at hstop
    exact h.access hs hr hstop
  | struct hs hr =>
    obtain ⟨d, hd, rfl⟩ := List.mem_map.1 hq
    exact h.member hs hr hd

/-- A variant that is moved, of a union with an internal tag, is a single element. -/
theorem variant {lead v : Decl} (h : p.Single roots) (hshared : p.last.decl.Shared lead)
    (hv : v ∈ p.last.decl.members) (homit : v.isOmitted = false) : (p.member v).Single roots :=
  h.member hv (hshared.variant v hv homit).2

theorem common (hm : m.Sound g) (h : p.Indexed m.roots) (hs : p.Switch shared arms)
    (hq : q ∈ shared) : q.Indexed m.roots := by
  cases hs with
  | external => cases hq
  | internal hs hr hk hlead =>
    obtain ⟨d, hd, rfl⟩ := List.mem_map.1 hq
    have hshared := (h.walks.everywhere hm.roots).self.shared_of_lead hk hlead
    have hsingle := variant ⟨h, hs, hr⟩ hshared (List.mem_of_find?_eq_some hlead)
      (by simpa using List.find?_some hlead)
    exact hsingle.indexed.member hsingle.unsliced hsingle.remaining (List.mem_of_mem_take hd)

theorem arm (hm : m.Sound g) (h : p.Indexed m.roots) (hs : p.Switch shared arms) (ha : a ∈ arms)
    (hq : q ∈ a.parts) : q.Indexed m.roots := by
  have hsound := h.walks.everywhere hm.roots
  cases hs with
  | external hs hr hk howner hsel =>
    obtain ⟨v, hv, hvariant⟩ := List.mem_filterMap.1 ha
    rw [List.mem_singleton.1 ((externalVariant_spec hvariant).2.2.1 hq)]
    exact h.member hs hr hv
  | internal hs hr hk hlead =>
    obtain ⟨v, hv, hvariant⟩ := List.mem_filterMap.1 ha
    rw [(internalVariant_spec hvariant).2.1] at hq
    obtain ⟨d, hd, rfl⟩ := List.mem_map.1 hq
    have hmem := List.mem_of_mem_drop hd
    have hshared := hsound.self.shared_of_lead hk hlead
    obtain ⟨homit, -⟩ := hshared.variant_struct hsound hv (List.ne_nil_of_mem hmem)
    have hsingle := variant ⟨h, hs, hr⟩ hshared hv homit
    exact hsingle.indexed.member hsingle.unsliced hsingle.remaining hmem

/-- The tag of an arm is a single element. -/
theorem tag (hm : m.Sound g) (h : p.Indexed m.roots) (hs : p.Switch shared arms) (ha : a ∈ arms) :
    a.tag.Single m.roots := by
  have hsound := h.walks.everywhere hm.roots
  cases hs with
  | @external tag selector owner hs hr hk howner hsel =>
    obtain ⟨v, -, hvariant⟩ := List.mem_filterMap.1 ha
    rw [(externalVariant_spec hvariant).2.1]
    have hsteps : p.owners = (Path.mk p.owners.dropLast owner).steps :=
      (List.dropLast_append_getLast? owner howner).symm
    obtain ⟨hmem, howns⟩ := h.walks.owner hm howner
    have hstruct := howns.struct_of_external hmem (by rw [Decl.isExternal, hk])
    obtain ⟨k, hget⟩ := List.mem_iff_getElem?.1 hmem
    obtain ⟨-, s, -, -, hfind, hscalar⟩ := (howns.struct hstruct).selector_of_external hget hk
    obtain rfl : selector = s := Option.some.inj (hsel.symm.trans hfind)
    have hsibling : p.sibling selector = (Path.mk p.owners.dropLast owner).member selector := by
      rw [sibling, Path.member, ← hsteps]
    rw [hsibling]
    exact (h.of_owners hsteps).member (List.mem_of_find?_eq_some hsel)
      (Decl.isScalar_iff.1 hscalar).2
  | @internal tag lead hs hr hk hlead =>
    obtain ⟨v, hv, hvariant⟩ := List.mem_filterMap.1 ha
    obtain ⟨-, -, s, hget, htag⟩ := internalVariant_spec hvariant
    have hshared := hsound.self.shared_of_lead hk hlead
    have hlast : (if v.isOmitted then lead else v) ∈ p.last.decl.members ∧
        (if v.isOmitted then lead else v).isOmitted = false := by
      split
      · exact ⟨List.mem_of_find?_eq_some hlead, by simpa using List.find?_some hlead⟩
      · next homit => exact ⟨hv, by simpa using homit⟩
    obtain ⟨t, ht, hscalar⟩ := hshared.scalar hlast.1 hlast.2
    obtain rfl : s = t := Option.some.inj (hget.symm.trans ht)
    rw [htag]
    exact (variant ⟨h, hs, hr⟩ hshared hlast.1 hlast.2).member (List.mem_of_getElem? hget)
      (Decl.isScalar_iff.1 hscalar).2

/-- Runs of indices that continue each other are one run within the same bounds. -/
theorem join {x y : Access} (h : (p.access x).Indexed roots) (h' : (p.access y).Indexed roots)
    (hxy : x.stop = y.start) : (p.access ⟨x.start, x.count + y.count⟩).Indexed roots := by
  obtain ⟨hp, hs, -⟩ := h.of_access rfl
  obtain ⟨-, -, extent, rest, hr, hstop⟩ := h'.of_access rfl
  refine hp.access hs hr ?_
  simp only [Access.stop] at hxy hstop ⊢
  omega

end Indexed

end Path

/-! ## items -/

namespace Item

/-- The path of a value is indexed. -/
def Indexed (roots : List Decl) (i : Item) : Prop := ∀ p, i.content = .value p → p.Indexed roots

/-- An item is indexed, and the tags that it stands under are single elements. -/
structure Tagged (roots : List Decl) (i : Item) : Prop where
  indexed : i.Indexed roots
  tags : ∀ c ∈ i.conditions, c.tag.Single roots

section

variable {g : Registry} {m : Model} {i j joined : Item} {cs : List Condition} {p : Path}
  {shared : List Path} {arms : List Variant} {a : Variant}

theorem indexed_padding (roots : List Decl) (cs : List Condition) (bits : Nat) (trailing : Bool) :
    (Item.padding cs bits trailing).Indexed roots := fun _ hp => nomatch hp

/-- What an indexed item is taken apart into is indexed. -/
theorem Indexed.expand (hm : m.Sound g) (h : i.Indexed m.roots) (hj : j ∈ i.expand) :
    j.Indexed m.roots := by
  cases hsplit : i.split? with
  | none =>
    rw [Item.expand, hsplit, Option.elim_none] at hj
    rwa [List.mem_singleton.1 hj]
  | some s =>
    rw [expand_of_split hsplit] at hj
    obtain ⟨cs, p, rfl, -, ⟨ps, hp, rfl⟩ | ⟨shared, arms, hs, rfl⟩⟩ := split_cases hsplit
    · obtain ⟨q, hq, rfl⟩ := List.mem_map.1 hj
      rintro _ ⟨⟩
      exact (h p rfl).part hp hq
    · rcases List.mem_append.1 hj with hj | hj
      · obtain ⟨q, hq, rfl⟩ := List.mem_map.1 hj
        rintro _ ⟨⟩
        exact (h p rfl).common hm hs hq
      · obtain ⟨b, hb, hj⟩ := List.mem_flatMap.1 hj
        obtain ⟨a, ha, rfl⟩ := List.mem_map.1 hb
        rcases List.mem_append.1 hj with hj | hj
        · obtain ⟨q, hq, rfl⟩ := List.mem_map.1 hj
          rintro _ ⟨⟩
          exact (h p rfl).arm hm hs ha hq
        · split at hj
          · cases hj
          · rw [List.mem_singleton.1 hj]
            exact indexed_padding _ _ _ _

theorem conditions_uncovered (i : Item) : i.uncovered.conditions = i.conditions := by
  obtain ⟨cs, content⟩ := i
  cases content <;> rfl

theorem Indexed.uncovered {roots : List Decl} (h : i.Indexed roots) :
    i.uncovered.Indexed roots := by
  cases hcovers : i.coversRank with
  | false => rwa [uncovered_of_not_covers hcovers]
  | true =>
    obtain ⟨cs, content⟩ := i
    cases content with
    | padding => cases hcovers
    | value p =>
      have hlast : p.last.coversRank = true := hcovers
      obtain ⟨a, ha, -⟩ := (Option.any_eq_true _ _).1 hlast
      rintro q ⟨⟩
      rw [Path.uncovered_last, Step.uncovered, if_pos hlast]
      exact ((h p rfl).of_access (Path.eq_access_of_getLast? ha)).1

/-- Runs of indices that are joined are within the bounds of their rank together. -/
theorem Indexed.join (hm : m.Sound g) (h : i.Indexed m.roots) (h' : j.Indexed m.roots)
    (hjoin : i.join? j = some joined) : joined.Indexed m.roots := by
  obtain ⟨p, x, y, -, hp, hq, hxy, rfl⟩ := join_walks hm.numbered (fun p hp => (h p hp).walks)
    (fun q hq => (h' q hq).walks) hjoin
  rintro _ ⟨⟩
  exact (h _ hp).join (h' _ hq) hxy

/-- **Indices of items**: every item that comes up is indexed. -/
theorem Arises.indexed (hm : m.Sound g) (h : i.Arises m.roots) : i.Indexed m.roots := by
  induction h with
  | root hd =>
    rintro _ ⟨⟩
    exact .root hd
  | padding cs bits trailing => exact indexed_padding _ _ _ _
  | expand h hj ih => exact ih.expand hm hj
  | slice h hs hr ha ih =>
    rintro _ ⟨⟩
    exact (ih _ rfl).access hs hr ha
  | uncovered h ih => exact ih.uncovered
  | join h h' hjoin ih ih' => exact ih.join hm ih' hjoin

/-! ## tags -/

/-- An arm adds a tag to those of the union. -/
theorem Tagged.arm (hm : m.Sound g) (h : (⟨cs, .value p⟩ : Item).Tagged m.roots)
    (hs : p.Switch shared arms) (ha : a ∈ arms) :
    ∀ c ∈ a.conditions cs p, c.tag.Single m.roots :=
  List.forall_mem_append.2 ⟨h.tags, List.forall_mem_singleton.2 ((h.indexed p rfl).tag hm hs ha)⟩

theorem Tagged.expand (hm : m.Sound g) (h : i.Tagged m.roots) (hj : j ∈ i.expand) :
    j.Tagged m.roots := by
  refine ⟨h.indexed.expand hm hj, ?_⟩
  rcases conditions_cases_of_mem_expand hj with heq | ⟨cs, p, shared, arms, a, rfl, hs, ha, heq⟩
  · rw [heq]
    exact h.tags
  · rw [heq]
    exact h.arm hm hs ha

theorem inherited_tagged (hm : m.Sound g) : Item.Inherited (Item.Tagged m.roots) where
  expand h hj := h.expand hm hj
  beside bits trailing h := ⟨indexed_padding _ _ bits trailing, h.tags⟩
  branch bits trailing h _ hs ha := ⟨indexed_padding _ _ bits trailing, h.arm hm hs ha⟩
  between bits trailing := ⟨indexed_padding _ _ bits trailing, fun _ hc => nomatch hc⟩

end

end Item

/-- **Tags of packed sectors**: every item is indexed, under tags that are single elements. -/
theorem tagged_of_pack {g : Registry} {m : Model} {capacity available : Nat}
    {groups : List (List Decl)} {sectors : List Sector} (hm : m.Sound g)
    (hgroups : ∀ d ∈ groups.flatten, d ∈ m.roots)
    (hpack : pack capacity available groups = .ok sectors) :
    ∀ s ∈ sectors, ∀ i ∈ s.items, i.Tagged m.roots := by
  refine inherits_of_pack (Item.inherited_tagged hm) (fun {i} h => ⟨h.indexed.uncovered, ?_⟩)
    (fun {i j joined} h h' hjoin => ⟨h.indexed.join hm h'.indexed hjoin, ?_⟩)
    (fun d hd => ⟨?_, fun _ hc => nomatch hc⟩) hpack
  · rw [i.conditions_uncovered]
    exact h.tags
  · obtain ⟨p, q, last, -, -, -, -, -, rfl⟩ := Item.join_spec hjoin
    exact h.tags
  · rintro _ ⟨⟩
    exact .root (hgroups d hd)

end BitLayout
