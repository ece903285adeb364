import BitLayout.Proofs.Item.Reached

/-!
# BitLayout.Proofs.Item.Stored

Where tags are found. The fields that all variants of a union with an internal tag share are moved
once, through its lead variant. A condition may name the tag in any variant, and an external tag may
stand among the shared fields too, so the place of a tag is its path *along the lead variants*:

```
.. union, variant, shared field k, ..   becomes   .. union, lead variant, its field k, ..
```

* `Path.Reached.stored_eq`: a value that is reached is stored where its path says;
* `Path.stored_shared`: a shared field is stored where that of the lead variant is.
-/

namespace BitLayout

/-! ## along lead variants -/

/-- The lead variant and its field, for a field of a variant that is shared. -/
def Decl.leadField? (union variant field : Decl) : Option (Decl × Decl) :=
  match union.kind with
  | .union _ true => do
    let lead ← union.leadVariant?
    let k ← (variant.members.take union.sharedFields).findIdx? (·.number = field.number)
    return (lead, ← lead.members[k]?)
  | _ => none

/-- Steps, last first, with shared fields read through lead variants. -/
def Step.alongLead : List Step → List Step
  | field :: variant :: union :: rest =>
    match union.decl.leadField? variant.decl field.decl with
    | some (lead, own) =>
      ⟨own, field.accesses⟩ :: ⟨lead, variant.accesses⟩ :: alongLead (union :: rest)
    | none => field :: alongLead (variant :: union :: rest)
  | steps => steps

/-- The path by which a value is stored: shared fields are read through lead variants. -/
def Path.stored (p : Path) : Path :=
  match Step.alongLead p.steps.reverse with
  | [] => p
  | last :: owners => ⟨owners.reverse, last⟩

/-- Steps, last first, that read shared fields through lead variants already. -/
def Step.Led : List Step → Prop
  | field :: variant :: union :: rest =>
    (∀ lead own, union.decl.leadField? variant.decl field.decl = some (lead, own) →
      lead = variant.decl ∧ own = field.decl) ∧ Led (variant :: union :: rest)
  | _ => True

namespace Step

variable {s t u : Step} {rest : List Step}

theorem Led.tail (h : Led (s :: rest)) : Led rest := by
  match rest, h with
  | [], _ => trivial
  | [_], _ => trivial
  | _ :: _ :: _, h => exact h.2

theorem alongLead_of_led (h : Led rest) : alongLead rest = rest := by
  fun_induction alongLead rest with
  | case1 field variant union rest lead own hfield ih =>
    obtain ⟨rfl, rfl⟩ := h.1 lead own hfield
    rw [ih h.2.tail]
  | case2 field variant union rest hfield ih => rw [ih h.2]
  | case3 => rfl

end Step

namespace Path

variable {p : Path}

theorem steps_reverse (p : Path) : p.steps.reverse = p.last :: p.owners.reverse := by
  rw [steps, List.reverse_append, List.reverse_singleton, List.singleton_append]

theorem stored_of_led (h : Step.Led (p.last :: p.owners.reverse)) : p.stored = p := by
  rw [stored, steps_reverse, Step.alongLead_of_led h]
  simp only [List.reverse_reverse]

end Path

/-! ## fields of variants -/

namespace Decl

variable {union variant field lead own : Decl}

/-- Only unions with an internal tag have shared fields. -/
theorem leadField?_eq_none (h : ∀ tag, union.kind ≠ .union tag true) :
    union.leadField? variant field = none := by
  unfold leadField?
  split
  · next tag hk => exact absurd hk (h tag)
  · rfl

/-- The shared fields are those at the same positions. -/
theorem leadField?_shared {tag : String} {k : Nat} (hk : union.kind = .union tag true)
    (hlead : union.leadVariant? = some lead) (hlt : k < union.sharedFields)
    (hfield : variant.members[k]? = some field) (hown : lead.members[k]? = some own)
    (hnodup : (variant.members.map number).Nodup) :
    union.leadField? variant field = some (lead, own) := by
  have hidx : (variant.members.take union.sharedFields).findIdx? (·.number = field.number) =
      some k := by
    have hget : (variant.members.take union.sharedFields)[k]? = some field := by
      rwa [List.getElem?_take_of_lt hlt]
    obtain ⟨hlen, hget⟩ := List.getElem?_eq_some_iff.1 hget
    rw [List.findIdx?_eq_some_iff_getElem]
    refine ⟨hlen, by simp [hget], fun j hj => ?_⟩
    have hne := List.pairwise_iff_getElem.1 (List.pairwise_map.1
      (Path.nodup_take hnodup union.sharedFields)) j k (by omega) hlen hj
    simpa [hget] using hne
  simp only [leadField?, hk, hlead, hidx, hown, bind, Option.bind, pure]

/-- A field behind the shared ones is not shared. -/
theorem leadField?_own (h : field ∈ variant.members.drop union.sharedFields)
    (hnodup : (variant.members.map number).Nodup) : union.leadField? variant field = none := by
  have hidx : (variant.members.take union.sharedFields).findIdx? (·.number = field.number) =
      none := by
    rw [List.findIdx?_eq_none_iff]
    intro d hd
    rw [← List.take_append_drop union.sharedFields variant.members, List.map_append,
      List.nodup_append] at hnodup
    have hne := hnodup.2.2 _ (List.mem_map_of_mem hd) _ (List.mem_map_of_mem h)
    simpa using hne
  unfold leadField?
  split
  · rw [hidx]
    cases union.leadVariant? <;> rfl
  · rfl

/-- A variant of a union with an internal tag is no such union. -/
theorem Shared.kind_ne {d v : Decl} (h : d.Shared lead) (hv : v ∈ d.members) (tag : String) :
    v.kind ≠ .union tag true := by
  intro hk
  cases homit : v.isOmitted with
  | true => simp [isOmitted_iff, hk] at homit
  | false =>
    rw [(h.variant v hv homit).1] at hk
    cases hk

end Decl

/-! ## reached values -/

namespace Path

variable {g : Registry} {m : Model} {cs : List Condition} {p : Path} {v lead d : Decl}

theorem owners_member (p : Path) (d : Decl) : (p.member d).owners.getLast? = some p.last :=
  List.getLast?_concat

/-- A value that is reached does not stand right below a union with an internal tag. -/
theorem Reached.owner_kind (hm : m.Sound g) (h : p.Reached m.roots cs) {u : Step}
    (hu : p.owners.getLast? = some u) (tag : String) : u.decl.kind ≠ .union tag true := by
  induction h with
  | root => cases hu
  | part h homit hp hq ih =>
    cases hp with
    | slice =>
      obtain ⟨b, -, rfl⟩ := List.mem_map.1 hq
      exact ih hu
    | rank =>
      obtain ⟨b, -, rfl⟩ := List.mem_map.1 hq
      exact ih hu
    | struct hs hr hk =>
      obtain ⟨d, -, rfl⟩ := List.mem_map.1 hq
      rw [owners_member, Option.some.injEq] at hu
      rw [← hu, hk]
      exact nofun
  | @shared cs p q shared arms h homit hs hq ih =>
    cases hs with
    | external => cases hq
    | internal _ _ hk hlead =>
      obtain ⟨d, -, rfl⟩ := List.mem_map.1 hq
      rw [owners_member, Option.some.injEq] at hu
      obtain ⟨_, hshared⟩ := ((h.sound hm).self.union _ _ hk).shared_of_internal
      rw [← hu]
      exact hshared.kind_ne (List.mem_of_find?_eq_some hlead) tag
  | @arm cs p q shared arms a h homit hs ha hq ih =>
    cases hs with
    | external hs hr hk =>
      obtain ⟨v, -, hv⟩ := List.mem_filterMap.1 ha
      obtain ⟨-, -, hsub, -⟩ := externalVariant_spec hv
      rw [List.mem_singleton.1 (hsub hq), owners_member, Option.some.injEq] at hu
      rw [← hu, hk]
      exact nofun
    | internal _ _ hk hlead =>
      obtain ⟨v, hv, hvariant⟩ := List.mem_filterMap.1 ha
      obtain ⟨-, hparts, -⟩ := internalVariant_spec hvariant
      rw [hparts] at hq
      obtain ⟨d, -, rfl⟩ := List.mem_map.1 hq
      rw [owners_member, Option.some.injEq] at hu
      obtain ⟨_, hshared⟩ := ((h.sound hm).self.union _ _ hk).shared_of_internal
      rw [← hu]
      exact hshared.kind_ne hv tag
  | slice h homit hs hr ha ih => exact ih hu

/-- A field below something that does not stand right below a union with an internal tag. -/
theorem led_cons {s t : Step} {owners : List Step} (h : Step.Led (t :: owners.reverse))
    (howner : ∀ u, owners.getLast? = some u → ∀ tag, u.decl.kind ≠ .union tag true) :
    Step.Led (s :: t :: owners.reverse) := by
  cases howners : owners.reverse with
  | nil => trivial
  | cons u rest =>
    rw [howners] at h
    have hu : owners.getLast? = some u := by
      rw [← List.head?_reverse, howners]
      rfl
    refine ⟨fun lead own hfield => ?_, h⟩
    rw [Decl.leadField?_eq_none (howner u hu)] at hfield
    cases hfield

/-- Another index changes nothing for shared fields. -/
theorem led_withAccesses {owners : List Step} {s t : Step} (h : Step.Led (s :: owners))
    (hd : s.decl = t.decl) : Step.Led (t :: owners) := by
  match owners, h with
  | [], _ => trivial
  | [_], _ => trivial
  | _ :: _ :: _, h => exact ⟨hd ▸ h.1, h.2⟩

/-- The steps to a field of a variant, last first. -/
theorem owners_field (p : Path) (v d : Decl) :
    ((p.member v).member d).owners.reverse = .whole v :: p.last :: p.owners.reverse := by
  simp [member, steps]

/-- A value that is reached is reached along lead variants. -/
theorem Reached.led (hm : m.Sound g) (h : p.Reached m.roots cs) :
    Step.Led (p.last :: p.owners.reverse) := by
  induction h with
  | root => trivial
  | part h homit hp hq ih =>
    cases hp with
    | slice =>
      obtain ⟨b, -, rfl⟩ := List.mem_map.1 hq
      exact led_withAccesses ih rfl
    | rank =>
      obtain ⟨b, -, rfl⟩ := List.mem_map.1 hq
      exact led_withAccesses ih rfl
    | struct =>
      obtain ⟨d, -, rfl⟩ := List.mem_map.1 hq
      rw [member, steps, List.reverse_append]
      exact led_cons ih fun u hu => h.owner_kind hm hu
  | @shared cs p q shared arms h homit hs hq ih =>
    cases hs with
    | external => cases hq
    | @internal tag lead _ _ hk hlead =>
      obtain ⟨d, hd, rfl⟩ := List.mem_map.1 hq
      rw [owners_field]
      refine ⟨fun lead' own hfield => ?_, led_cons ih fun u hu => h.owner_kind hm hu⟩
      have hnodup := Row.nodup_variant (h.sound hm) (List.mem_of_find?_eq_some hlead)
      obtain ⟨k, hk', hget⟩ := List.getElem_of_mem hd
      rw [List.length_take] at hk'
      have hget' : lead.members[k]? = some d := by
        rw [List.getElem?_eq_getElem (by omega), ← hget, List.getElem_take]
      change p.last.decl.leadField? lead d = _ at hfield
      rw [Decl.leadField?_shared hk hlead (by omega) hget' hget' hnodup] at hfield
      cases hfield
      exact ⟨rfl, rfl⟩
  | @arm cs p q shared arms a h homit hs ha hq ih =>
    have hled (s : Step) : Step.Led (s :: p.last :: p.owners.reverse) :=
      led_cons ih fun u hu => h.owner_kind hm hu
    cases hs with
    | external hs hr hk =>
      obtain ⟨v, -, hv⟩ := List.mem_filterMap.1 ha
      obtain ⟨-, -, hsub, -⟩ := externalVariant_spec hv
      rw [List.mem_singleton.1 (hsub hq), member, steps, List.reverse_append]
      exact hled _
    | internal _ _ hk hlead =>
      obtain ⟨v, hv, hvariant⟩ := List.mem_filterMap.1 ha
      obtain ⟨-, hparts, -⟩ := internalVariant_spec hvariant
      rw [hparts] at hq
      obtain ⟨d, hd, rfl⟩ := List.mem_map.1 hq
      rw [owners_field]
      refine ⟨fun lead' own hfield => ?_, hled _⟩
      change p.last.decl.leadField? v d = _ at hfield
      rw [Decl.leadField?_own hd (Row.nodup_variant (h.sound hm) hv)] at hfield
      cases hfield
  | slice h homit hs hr ha ih => exact led_withAccesses ih rfl

/-- A value that is reached is stored where its path says. -/
theorem Reached.stored_eq (hm : m.Sound g) (h : p.Reached m.roots cs) : p.stored = p :=
  stored_of_led (h.led hm)

/-- A shared field is stored where that of the lead variant is. -/
theorem stored_shared (hm : m.Sound g) (h : p.Reached m.roots cs) {tag : String} {k : Nat}
    {own : Decl} (hk : p.last.decl.kind = .union tag true)
    (hlead : p.last.decl.leadVariant? = some lead) (hv : v ∈ p.last.decl.members)
    (hlt : k < p.last.decl.sharedFields) (hd : v.members[k]? = some d)
    (hown : lead.members[k]? = some own) :
    ((p.member v).member d).stored = (p.member lead).member own := by
  have hfield := Decl.leadField?_shared hk hlead hlt hd hown (Row.nodup_variant (h.sound hm) hv)
  rw [stored, steps_reverse, owners_field, Step.alongLead]
  simp only [member, Step.whole, hfield, Step.alongLead_of_led (h.led hm)]
  simp [steps]

end Path

end BitLayout
