import BitLayout.Item.Height
import BitLayout.Proofs.Decl.Variants
import BitLayout.Proofs.Item.Parts

/-!
# BitLayout.Proofs.Item.Reached

The values that are reached from data objects by taking apart and slicing, with the conditions they
stand under.

* `Path.Reached.walks`, `Path.Reached.sound`: such a path walks down sound data objects;
* `Path.Reached.of_access`: the last index was applied to a value that is reached too, inside the
  bounds of its rank;
* `Path.Reached.switch_of_condition`: every condition selects an arm of a union that is reached
  under the conditions before it;
* `Item.Reached.path`: the same for items that are taken apart and sliced;
* `Row`: values in a row that no two paths lead into at once, as parts of one value are.
-/

namespace BitLayout

/-- A run that is no slice has one index. -/
theorem Access.count_of_single {a : Access} (h : a.isSlice = false) : a.count = 1 := by
  simpa [isSlice] using h

theorem Access.stop_le_of_mem_singles {a b : Access} (h : b ∈ a.singles) : b.stop ≤ a.stop := by
  obtain ⟨k, hk, rfl⟩ := List.mem_map.1 h
  have hlt := (List.mem_range'_1.1 hk).2
  simp only [Access.stop, Access.single]
  omega

namespace Path

/-- A value that is reached from data objects, under some conditions. -/
inductive Reached (roots : List Decl) : List Condition → Path → Prop where
  | root {d : Decl} (hd : d ∈ roots) : Reached roots [] (.root d)
  | part {cs : List Condition} {p q : Path} {ps : List Path} (h : Reached roots cs p)
    (homit : p.last.decl.isOmitted = false) (hp : p.Parts ps) (hq : q ∈ ps) : Reached roots cs q
  | shared {cs : List Condition} {p q : Path} {shared : List Path} {arms : List Variant}
    (h : Reached roots cs p) (homit : p.last.decl.isOmitted = false) (hs : p.Switch shared arms)
    (hq : q ∈ shared) : Reached roots cs q
  | arm {cs : List Condition} {p q : Path} {shared : List Path} {arms : List Variant} {a : Variant}
    (h : Reached roots cs p) (homit : p.last.decl.isOmitted = false) (hs : p.Switch shared arms)
    (ha : a ∈ arms) (hq : q ∈ a.parts) : Reached roots (a.conditions cs p) q
  | slice {cs : List Condition} {p : Path} {extent : Nat} {rest : List Nat} {a : Access}
    (h : Reached roots cs p) (homit : p.last.decl.isOmitted = false) (hs : p.last.slice? = none)
    (hr : p.last.remaining = extent :: rest) (ha : a.stop ≤ extent) : Reached roots cs (p.access a)

/-! ## arms -/

variable {p q u tag : Path} {ps shared : List Path} {arms : List Variant} {a : Variant}
  {v lead : Decl}

theorem externalVariant_spec (h : p.externalVariant tag v = some a) :
    v.encoding.variantId = some a.value ∧ a.tag = tag ∧ a.parts ⊆ [p.member v] ∧
      a.parts.length ≤ 1 := by
  obtain ⟨id, hid, rfl⟩ := Option.map_eq_some_iff.1 h
  refine ⟨hid, rfl, ?_, ?_⟩ <;>
  · dsimp only
    split <;> simp

theorem internalVariant_spec (h : p.internalVariant lead v = some a) :
    v.encoding.variantId = some a.value ∧
      a.parts = (v.members.drop p.last.decl.sharedFields).map (p.member v).member ∧
      ∃ m, (if v.isOmitted then lead else v).members[p.last.decl.sharedFields - 1]? = some m ∧
        a.tag = (p.member (if v.isOmitted then lead else v)).member m := by
  unfold internalVariant at h
  dsimp only at h
  split at h
  · next id m hid hm =>
    cases h
    exact ⟨hid, rfl, m, hm, rfl⟩
  · cases h

/-- An arm belongs to a variant. -/
theorem Switch.variant (hs : p.Switch shared arms) (ha : a ∈ arms) :
    ∃ v ∈ p.last.decl.members, v.encoding.variantId = some a.value ∧
      ((a.parts ⊆ [p.member v] ∧ a.parts.length ≤ 1) ∨
        a.parts = (v.members.drop p.last.decl.sharedFields).map (p.member v).member) := by
  cases hs with
  | external =>
    obtain ⟨v, hv, h⟩ := List.mem_filterMap.1 ha
    obtain ⟨hid, -, hsub, hlen⟩ := externalVariant_spec h
    exact ⟨v, hv, hid, .inl ⟨hsub, hlen⟩⟩
  | internal =>
    obtain ⟨v, hv, h⟩ := List.mem_filterMap.1 ha
    obtain ⟨hid, hparts, -⟩ := internalVariant_spec h
    exact ⟨v, hv, hid, .inr hparts⟩

/-! ## parts are not sliced -/

theorem slice?_access (p : Path) (a : Access) :
    (p.access a).last.slice? = if a.isSlice then some a else none := by
  simp [access, withAccesses, Step.slice?, Option.filter]

theorem slice?_access_of_single {a : Access} (h : a.isSlice = false) :
    (p.access a).last.slice? = none := by
  rw [slice?_access, if_neg (by simp [h])]

/-- What is not sliced ends with a single index, if with any. -/
theorem isSlice_of_unsliced {a : Access} (h : (p.access a).last.slice? = none) :
    a.isSlice = false := by
  rw [slice?_access] at h
  simpa using h

theorem Parts.slice?_eq_none (h : p.Parts ps) (hq : q ∈ ps) : q.last.slice? = none := by
  cases h with
  | slice hs =>
    obtain ⟨b, hb, rfl⟩ := List.mem_map.1 hq
    exact slice?_access_of_single (p := p.withAccesses _) (Access.isSlice_of_mem_singles hb)
  | rank hs hr =>
    obtain ⟨b, hb, rfl⟩ := List.mem_map.1 hq
    exact slice?_access_of_single (Access.isSlice_of_mem_singles hb)
  | struct =>
    obtain ⟨m, -, rfl⟩ := List.mem_map.1 hq
    rfl

theorem Switch.slice?_eq_none (hs : p.Switch shared arms) (hq : q ∈ shared) :
    q.last.slice? = none := by
  cases hs with
  | external => cases hq
  | internal =>
    obtain ⟨m, -, rfl⟩ := List.mem_map.1 hq
    rfl

theorem Switch.slice?_eq_none_of_arm (hs : p.Switch shared arms) (ha : a ∈ arms)
    (hq : q ∈ a.parts) : q.last.slice? = none := by
  obtain ⟨v, -, -, ⟨hsub, -⟩ | hparts⟩ := hs.variant ha
  · rw [List.mem_singleton.1 (hsub hq)]
    rfl
  · rw [hparts] at hq
    obtain ⟨m, -, rfl⟩ := List.mem_map.1 hq
    rfl

/-! ## parts lie within the value -/

theorem Parts.within (h : p.Parts ps) (hs : p.last.slice? = none) (hq : q ∈ ps) : q.Within p := by
  cases h with
  | slice hs' =>
    rw [hs] at hs'
    cases hs'
  | rank =>
    obtain ⟨b, -, rfl⟩ := List.mem_map.1 hq
    exact within_access ..
  | struct =>
    obtain ⟨m, -, rfl⟩ := List.mem_map.1 hq
    exact within_member ..

/-- A shared part lies within a variant. -/
theorem Switch.within (hs : p.Switch shared arms) (hq : q ∈ shared) :
    ∃ v, q.Within (p.member v) := by
  cases hs with
  | external => cases hq
  | internal =>
    obtain ⟨m, -, rfl⟩ := List.mem_map.1 hq
    exact ⟨_, within_member ..⟩

/-! ## parts are apart -/

/-- Members with different numbers are apart. -/
theorem pairwise_apart_member {ms : List Decl} (h : (ms.map Decl.number).Nodup) :
    (ms.map p.member).Pairwise Apart := by
  rw [List.Nodup, List.pairwise_map] at h
  rw [List.pairwise_map]
  exact h.imp apart_member

/-- Different indices are apart. -/
theorem pairwise_apart_singles (a : Access) : (a.singles.map p.access).Pairwise Apart := by
  rw [Access.singles, List.map_map, List.pairwise_map]
  refine (List.nodup_range' (s := a.start) (n := a.count)).imp fun hne => apart_access ?_
  simpa [Access.single] using hne

theorem Parts.apart (h : p.Parts ps) (hnodup : (p.last.decl.members.map Decl.number).Nodup) :
    ps.Pairwise Apart := by
  cases h with
  | slice hs => exact pairwise_apart_singles (p := p.withAccesses p.last.accesses.dropLast) _
  | rank => exact pairwise_apart_singles _
  | struct => exact pairwise_apart_member hnodup

/-- The members behind the first ones have different numbers if all have. -/
theorem nodup_drop {ms : List Decl} (h : (ms.map Decl.number).Nodup) (k : Nat) :
    ((ms.drop k).map Decl.number).Nodup :=
  h.sublist ((List.drop_sublist k ms).map _)

/-- The first members have different numbers if all have. -/
theorem nodup_take {ms : List Decl} (h : (ms.map Decl.number).Nodup) (k : Nat) :
    ((ms.take k).map Decl.number).Nodup :=
  h.sublist ((List.take_sublist k ms).map _)

theorem Switch.apart (hs : p.Switch shared arms)
    (hnodup : ∀ v ∈ p.last.decl.members, (v.members.map Decl.number).Nodup) :
    shared.Pairwise Apart := by
  cases hs with
  | external => exact .nil
  | internal _ _ _ hlead =>
    exact pairwise_apart_member (nodup_take (hnodup _ (List.mem_of_find?_eq_some hlead)) _)

theorem Switch.apart_arm (hs : p.Switch shared arms)
    (hnodup : ∀ v ∈ p.last.decl.members, (v.members.map Decl.number).Nodup) (ha : a ∈ arms) :
    a.parts.Pairwise Apart := by
  obtain ⟨v, hv, -, ⟨-, hlen⟩ | hparts⟩ := hs.variant ha
  · match hparts : a.parts with
    | [] => exact .nil
    | [q] => exact List.pairwise_singleton ..
    | _ :: _ :: _ => simp [hparts] at hlen
  · rw [hparts]
    exact pairwise_apart_member (nodup_drop (hnodup v hv) _)

/-! ## values of arms -/

variable {g : Registry} {records : List (String × List Decl)}

/-- The arms of a union are those of its variant ids, in their order. -/
theorem Switch.values (hs : p.Switch shared arms) (hd : p.last.decl.Sound g records) :
    arms.map Variant.value = p.last.decl.variantIds := by
  rw [Decl.variantIds]
  cases hs with
  | external =>
    rw [List.map_filterMap]
    refine List.filterMap_congr fun v _ => ?_
    rw [externalVariant, Option.map_map]
    exact Option.map_id_apply
  | @internal tag lead _ _ hk hlead =>
    rw [List.map_filterMap]
    have hshared := hd.shared_of_lead hk hlead
    refine List.filterMap_congr fun v hv => ?_
    obtain ⟨m, hm⟩ := hshared.selector hv
    unfold internalVariant
    dsimp only
    rw [hm]
    cases v.encoding.variantId <;> rfl

/-- A union that is taken apart is a union. -/
theorem Switch.kind (hs : p.Switch shared arms) :
    ∃ tag internal, p.last.decl.kind = .union tag internal := by
  cases hs with
  | external _ _ hk => exact ⟨_, _, hk⟩
  | internal _ _ hk => exact ⟨_, _, hk⟩

/-- A union that is taken apart is one element. -/
theorem Switch.unsliced (hs : p.Switch shared arms) : p.last.slice? = none := by
  cases hs with
  | external hs => exact hs
  | internal hs => exact hs

/-- The arms of a union have different values. -/
theorem Switch.nodup_values (hs : p.Switch shared arms) (hd : p.last.decl.Sound g records) :
    (arms.map Variant.value).Nodup := by
  obtain ⟨tag, internal, hk⟩ := hs.kind
  rw [hs.values hd]
  exact (hd.union tag internal hk).variantIds_nodup

/-! ## tags -/

/-- The tag of an arm is a field of the struct around the union, or of a variant. -/
theorem Switch.tag_walks {ds : List Decl} (hs : p.Switch shared arms) (hp : p.Walks ds)
    (ha : a ∈ arms) : a.tag.Walks ds := by
  cases hs with
  | external _ _ _ howner hsel =>
    obtain ⟨v, -, h⟩ := List.mem_filterMap.1 ha
    rw [(externalVariant_spec h).2.1]
    exact hp.sibling howner (List.mem_of_find?_eq_some hsel)
  | @internal _ lead _ _ _ hlead =>
    obtain ⟨v, hv, h⟩ := List.mem_filterMap.1 ha
    obtain ⟨-, -, m, hm, htag⟩ := internalVariant_spec h
    rw [htag]
    have howner : (if v.isOmitted then lead else v) ∈ p.last.decl.members := by
      split
      · exact List.mem_of_find?_eq_some hlead
      · exact hv
    exact (hp.member howner).member (List.mem_of_getElem? hm)

/-! ## indices -/

theorem access_inj {a b : Access} (h : p.access a = q.access b) : p = q ∧ a = b := by
  obtain ⟨owners, d, as⟩ := p
  obtain ⟨owners', e, bs⟩ := q
  simp only [access, withAccesses, Path.mk.injEq, Step.mk.injEq] at h
  obtain ⟨rfl, rfl, has⟩ := h
  obtain ⟨rfl, hab⟩ := List.append_inj' has rfl
  cases hab
  exact ⟨rfl, rfl⟩

/-- Behind an index, the rest of the ranks is left. -/
theorem remaining_access {extent : Nat} {rest : List Nat} (hr : p.last.remaining = extent :: rest)
    (a : Access) : (p.access a).last.remaining = rest := by
  have h := congrArg (List.drop 1) hr
  simpa [Step.remaining, access, withAccesses, List.drop_drop, Nat.add_comm] using h

theorem access_ne_whole {a : Access} (h : q.last.accesses = []) : p.access a ≠ q := by
  rintro rfl
  simp [access, withAccesses] at h

theorem eq_access_of_getLast? {a : Access} (h : p.last.accesses.getLast? = some a) :
    p = (p.withAccesses p.last.accesses.dropLast).access a := by
  obtain ⟨owners, d, as⟩ := p
  simp only [access, withAccesses, Path.mk.injEq, Step.mk.injEq, true_and]
  exact (List.dropLast_append_getLast? a h).symm

theorem eq_access_of_slice {a : Access} (h : p.last.slice? = some a) :
    p = (p.withAccesses p.last.accesses.dropLast).access a :=
  eq_access_of_getLast? (Option.filter_eq_some_iff.1 h).1

/-! ## reached values -/

namespace Reached

variable {roots : List Decl} {cs : List Condition}

/-- A value that is reached is found by walking down. -/
theorem walks (h : Reached roots cs p) : p.Walks roots := by
  induction h with
  | root hd => exact .root hd
  | part h homit hp hq ih =>
    cases hp with
    | slice =>
      obtain ⟨b, -, rfl⟩ := List.mem_map.1 hq
      exact ih.withAccesses _
    | rank =>
      obtain ⟨b, -, rfl⟩ := List.mem_map.1 hq
      exact ih.withAccesses _
    | struct =>
      obtain ⟨m, hm, rfl⟩ := List.mem_map.1 hq
      exact ih.member hm
  | shared h homit hs hq ih =>
    cases hs with
    | external => cases hq
    | internal _ _ _ hlead =>
      obtain ⟨m, hm, rfl⟩ := List.mem_map.1 hq
      exact (ih.member (List.mem_of_find?_eq_some hlead)).member (List.mem_of_mem_take hm)
  | arm h homit hs ha hq ih =>
    obtain ⟨v, hv, -, ⟨hsub, -⟩ | hparts⟩ := hs.variant ha
    · rw [List.mem_singleton.1 (hsub hq)]
      exact ih.member hv
    · rw [hparts] at hq
      obtain ⟨m, hm, rfl⟩ := List.mem_map.1 hq
      exact (ih.member hv).member (List.mem_of_mem_drop hm)
  | slice h homit hs hr ha ih => exact ih.withAccesses _

/-- A value that is reached in a sound model is sound. -/
theorem sound {m : Model} (h : Reached m.roots cs p) (hm : m.Sound g) :
    p.last.decl.Everywhere (Decl.Sound g m.records) :=
  h.walks.everywhere hm.roots

/-- Every condition selects an arm of a union that is reached under the conditions before it. -/
theorem switch_of_condition (h : Reached roots cs p) {k : Nat} {c : Condition}
    (hc : cs[k]? = some c) : ∃ shared arms a, Reached roots (cs.take k) c.union ∧
      c.union.last.decl.isOmitted = false ∧ c.union.Switch shared arms ∧ a ∈ arms ∧
      c = ⟨c.union, a.tag, a.value⟩ := by
  induction h with
  | root => cases hc
  | part _ _ _ _ ih => exact ih hc
  | shared _ _ _ _ ih => exact ih hc
  | slice _ _ _ _ _ ih => exact ih hc
  | @arm cs p q shared arms a h homit hs ha hq ih =>
    rw [Variant.conditions, Item.under] at hc ⊢
    rw [List.getElem?_append] at hc
    split at hc
    · next hlt =>
      rw [List.take_append_of_le_length (Nat.le_of_lt hlt)]
      exact ih hc
    · next hge =>
      rw [List.getElem?_singleton] at hc
      split at hc
      · next hzero =>
        cases hc
        obtain rfl : k = cs.length := by omega
        rw [List.take_left]
        exact ⟨shared, arms, a, h, homit, hs, ha, rfl⟩
      · cases hc

/-- The last index of a value was applied to a value that is reached, inside the bounds of its
rank. -/
theorem of_access (h : Reached roots cs q) {a : Access} (hq : q = p.access a) :
    Reached roots cs p ∧ p.last.decl.isOmitted = false ∧ p.last.slice? = none ∧
      ∃ extent rest, p.last.remaining = extent :: rest ∧ a.stop ≤ extent := by
  induction h generalizing p a with
  | root hd => exact absurd hq.symm (access_ne_whole rfl)
  | @part cs p' q ps h homit hp hq' ih =>
    cases hp with
    | @slice b hs =>
      obtain ⟨c, hc, rfl⟩ := List.mem_map.1 hq'
      obtain ⟨rfl, rfl⟩ := access_inj (p := p'.withAccesses p'.last.accesses.dropLast) hq
      obtain ⟨hreached, -, hnone, extent, rest, hr, hb⟩ := ih (eq_access_of_slice hs)
      have hstop := Access.stop_le_of_mem_singles hc
      exact ⟨hreached, homit, hnone, extent, rest, hr, Nat.le_trans hstop hb⟩
    | @rank extent rest hs hr =>
      obtain ⟨c, hc, rfl⟩ := List.mem_map.1 hq'
      obtain ⟨rfl, rfl⟩ := access_inj hq
      have hstop := Access.stop_le_of_mem_singles hc
      simp only [Access.stop, Nat.zero_add] at hstop
      exact ⟨h, homit, hs, extent, rest, hr, hstop⟩
    | struct =>
      obtain ⟨m, -, rfl⟩ := List.mem_map.1 hq'
      exact absurd hq.symm (access_ne_whole rfl)
  | shared h homit hs hq' ih =>
    cases hs with
    | external => cases hq'
    | internal =>
      obtain ⟨m, -, rfl⟩ := List.mem_map.1 hq'
      exact absurd hq.symm (access_ne_whole rfl)
  | arm h homit hs ha hq' ih =>
    obtain ⟨v, -, -, ⟨hsub, -⟩ | hparts⟩ := hs.variant ha
    · obtain rfl := List.mem_singleton.1 (hsub hq')
      exact absurd hq.symm (access_ne_whole rfl)
    · rw [hparts] at hq'
      obtain ⟨m, -, rfl⟩ := List.mem_map.1 hq'
      exact absurd hq.symm (access_ne_whole rfl)
  | slice h homit hs hr ha ih =>
    obtain ⟨rfl, rfl⟩ := access_inj hq
    exact ⟨h, homit, hs, _, _, hr, ha⟩

end Reached

end Path

/-! ## reached items -/

namespace Item

/-- An item that is reached from data objects by taking apart and slicing. -/
inductive Reached (roots : List Decl) : Item → Prop where
  | root {d : Decl} (hd : d ∈ roots) : Reached roots (.root d)
  | expand {i j : Item} (h : Reached roots i) (hj : j ∈ i.expand) : Reached roots j
  | slice {cs : List Condition} {p : Path} {extent : Nat} {rest : List Nat} {a : Access}
    (h : Reached roots ⟨cs, .value p⟩) (hs : p.last.slice? = none)
    (hr : p.last.remaining = extent :: rest) (ha : a.stop ≤ extent) :
    Reached roots ⟨cs, .value (p.access a)⟩

/-- What an item is taken apart into is reached like the item. -/
theorem reached_of_split {roots : List Decl} {cs cs' : List Condition} {p q : Path} {s : Split}
    (h : p.Reached roots cs) (hsplit : split? ⟨cs, .value p⟩ = some s)
    (hq : (⟨cs', .value q⟩ : Item) ∈ s.items) : q.Reached roots cs' := by
  obtain ⟨cs, p, hi, homit, ⟨ps, hp, rfl⟩ | ⟨shared, arms, hs, rfl⟩⟩ := split_cases hsplit
  · cases hi
    obtain ⟨q, hq, hj⟩ := List.mem_map.1 hq
    cases hj
    exact .part h homit hp hq
  · cases hi
    cases List.mem_append.1 hq with
    | inl hq =>
      obtain ⟨q, hq, hj⟩ := List.mem_map.1 hq
      cases hj
      exact .shared h homit hs hq
    | inr hq =>
      obtain ⟨b, hb, hq⟩ := List.mem_flatMap.1 hq
      obtain ⟨a, ha, rfl⟩ := List.mem_map.1 hb
      cases List.mem_append.1 hq with
      | inl hq =>
        obtain ⟨q, hq, hj⟩ := List.mem_map.1 hq
        cases hj
        exact .arm h homit hs ha hq
      | inr hq =>
        split at hq
        · cases hq
        · cases List.mem_singleton.1 hq

/-- The path of a reached item is reached, unless it leads to what is left out. -/
theorem Reached.path {roots : List Decl} {cs : List Condition} {p : Path}
    (h : Reached roots ⟨cs, .value p⟩) (homit : p.last.decl.isOmitted = false) :
    p.Reached roots cs := by
  generalize hi : Item.mk cs (.value p) = i at h
  induction h generalizing cs p with
  | root hd =>
    cases hi
    exact .root hd
  | @expand i j h hj ih =>
    subst hi
    rw [Item.expand] at hj
    cases hs : i.split? with
    | none =>
      rw [hs, Option.elim_none] at hj
      exact ih homit (List.mem_singleton.1 hj)
    | some s =>
      rw [hs, Option.elim_some] at hj
      obtain ⟨cs', p', rfl, homit', -⟩ := split_cases hs
      exact reached_of_split (ih homit' rfl) hs hj
  | slice h hs hr ha ih =>
    cases hi
    exact .slice (ih homit rfl) homit hs hr ha

end Item

/-! ## rows -/

/-- Values in a row: they are reached under the same conditions, are not sliced, and are apart. -/
structure Row (roots : List Decl) (cs : List Condition) (ps : List Path) : Prop where
  reached : ∀ p ∈ ps, Path.Reached roots cs p
  unsliced : ∀ p ∈ ps, p.last.slice? = none
  apart : ps.Pairwise Path.Apart

namespace Row

variable {g : Registry} {m : Model} {roots : List Decl} {cs : List Condition} {p : Path}
  {ps shared : List Path} {arms : List Variant} {a : Variant}

theorem tail (h : Row roots cs (p :: ps)) : Row roots cs ps where
  reached q hq := h.reached q (List.mem_cons_of_mem _ hq)
  unsliced q hq := h.unsliced q (List.mem_cons_of_mem _ hq)
  apart := (List.pairwise_cons.1 h.apart).2

/-- The numbers of the members of a variant of a sound union are different. -/
theorem nodup_variant {records : List (String × List Decl)} {d v : Decl}
    (h : d.Everywhere (Decl.Sound g records)) (hv : v ∈ d.members) :
    (v.members.map Decl.number).Nodup := (h.member hv).self.nodup

/-- The parts of a value are a row. -/
theorem ofParts (hm : m.Sound g) (h : p.Reached m.roots cs) (homit : p.last.decl.isOmitted = false)
    (hp : p.Parts ps) : Row m.roots cs ps where
  reached _ hq := .part h homit hp hq
  unsliced _ hq := hp.slice?_eq_none hq
  apart := hp.apart (h.sound hm).self.nodup

/-- The shared parts of a union are a row. -/
theorem ofShared (hm : m.Sound g) (h : p.Reached m.roots cs) (homit : p.last.decl.isOmitted = false)
    (hs : p.Switch shared arms) : Row m.roots cs shared where
  reached _ hq := .shared h homit hs hq
  unsliced _ hq := hs.slice?_eq_none hq
  apart := hs.apart fun _ hv => nodup_variant (h.sound hm) hv

/-- The parts of an arm are a row. -/
theorem ofArm (hm : m.Sound g) (h : p.Reached m.roots cs) (homit : p.last.decl.isOmitted = false)
    (hs : p.Switch shared arms) (ha : a ∈ arms) : Row m.roots (a.conditions cs p) a.parts where
  reached _ hq := .arm h homit hs ha hq
  unsliced _ hq := hs.slice?_eq_none_of_arm ha hq
  apart := hs.apart_arm (fun _ hv => nodup_variant (h.sound hm) hv) ha

/-- Data objects with different numbers are a row. -/
theorem ofRoots {ds : List Decl} (hsub : ∀ d ∈ ds, d ∈ roots)
    (hnodup : (ds.map Decl.number).Nodup) :
    Row roots [] (ds.map Path.root) where
  reached q hq := by
    obtain ⟨d, hd, rfl⟩ := List.mem_map.1 hq
    exact .root (hsub d hd)
  unsliced q hq := by
    obtain ⟨d, -, rfl⟩ := List.mem_map.1 hq
    rfl
  apart := by
    rw [List.Nodup, List.pairwise_map] at hnodup
    rw [List.pairwise_map]
    refine hnodup.imp fun hne => ⟨fun hw => ?_, fun hw => ?_⟩ <;>
    · simp [Path.Within, Path.trail, Path.root, Path.steps, Step.marks, Step.whole] at hw
      simp_all

end Row

end BitLayout
