import BitLayout.Proofs.Item.Reached

/-!
# BitLayout.Proofs.Item.Sizes

What values take in bits, by what they are taken apart into:

```
bits(p)  =  bits(part 1) + bits(part 2) + ..          a slice, an array or a struct
bits(p)  =  bits(shared parts) + bits(arm) + slack    a union, for each of its arms
```

* `Path.Parts.bits_eq`, `Path.Switch.bits_arm`: these equations;
* `Path.Switch.full`: a union takes no more than its shared parts and its largest arm.
-/

namespace BitLayout

/-! ## declarations -/

namespace Decl

variable {d lead v : Decl} {ds : List Decl} {g : Registry} {records : List (String × List Decl)}

theorem elementBits_of_union {tag : String} {internal : Bool}
    (hk : d.kind = .union tag internal) : d.elementBits = maxBits d.members := by
  obtain ⟨info, members, wire⟩ := d
  simp only [elementBits, show info.encoding.kind = .union tag internal from hk]
  rfl

theorem elementBits_of_struct (hk : d.kind = .struct) : d.elementBits = sumBits d.members := by
  obtain ⟨info, members, wire⟩ := d
  simp only [elementBits, show info.encoding.kind = .struct from hk]
  rfl

theorem elementBits_of_transformed {t : Transform} {w : Decl} (hk : d.kind = .transformed t)
    (hw : d.wire = some w) : d.elementBits = w.bits := by
  obtain ⟨info, members, wire⟩ := d
  obtain rfl : wire = some w := hw
  simp only [elementBits, show info.encoding.kind = .transformed t from hk]
  rfl

theorem elementBits_of_omitted (h : d.isOmitted = true) : d.elementBits = 0 := by
  obtain ⟨info, members, wire⟩ := d
  have hk : info.encoding.kind = .omitted := of_decide_eq_true h
  simp only [elementBits, hk]

theorem bits_of_omitted (h : d.isOmitted = true) : d.bits = 0 := by
  rw [bits, elementBits_of_omitted h, Nat.zero_mul]

/-- Some declaration is as large as the largest, unless none takes any bits. -/
theorem exists_bits_eq_maxBits (ds : List Decl) :
    maxBits ds = 0 ∨ ∃ d ∈ ds, d.bits = maxBits ds := by
  induction ds with
  | nil => exact .inl rfl
  | cons d ds ih =>
    have hmax : maxBits (d :: ds) = max d.bits (maxBits ds) := rfl
    by_cases hle : maxBits ds ≤ d.bits
    · exact .inr ⟨d, List.mem_cons_self, by omega⟩
    · obtain hzero | ⟨e, he, heq⟩ := ih
      · omega
      · exact .inr ⟨e, List.mem_cons_of_mem _ he, by omega⟩

theorem Shared.lead_mem (h : d.Shared lead) : lead ∈ d.members := List.mem_of_find?_eq_some h.found

theorem Shared.lead_kept (h : d.Shared lead) : lead.isOmitted = false := by
  simpa using List.find?_some h.found

/-- A variant takes the bits of the shared fields and of its own ones behind them. -/
theorem Shared.bits_eq (h : d.Shared lead) (hv : v ∈ d.members) (homit : v.isOmitted = false) :
    sumBits (lead.members.take d.sharedFields) + sumBits (v.members.drop d.sharedFields) =
      v.bits := by
  obtain ⟨hk, hextents⟩ := h.variant v hv homit
  have hshared := h.bits v hv homit
  rw [← hshared, ← sumBits_append, List.take_append_drop, Decl.bits, hextents,
    elementBits_of_struct hk]
  exact (Nat.mul_one _).symm

/-- The shared fields and the rest of a variant fit into the union, also if the variant is left
out. -/
theorem Shared.bits_le (h : d.Shared lead) (hd : d.Everywhere (Sound g records))
    (hv : v ∈ d.members) :
    sumBits (lead.members.take d.sharedFields) + sumBits (v.members.drop d.sharedFields) ≤
      maxBits d.members := by
  cases homit : v.isOmitted with
  | false =>
    rw [h.bits_eq hv homit]
    exact bits_le_maxBits hv
  | true =>
    have hlead := h.bits_eq h.lead_mem h.lead_kept
    have hle := bits_le_maxBits h.lead_mem
    rw [(hd.member hv).self.members_of_omitted homit, List.drop_nil, sumBits]
    omega

end Decl

/-! ## arrays and structs -/

/-- A value that is left out takes no bits. -/
theorem Step.bits_of_omitted {s : Step} (h : s.decl.isOmitted = true) : s.bits = 0 := by
  rw [Step.bits, Decl.elementBits_of_omitted h, Nat.zero_mul]

namespace Path

variable {p : Path} {ps shared : List Path} {arms : List Variant} {a : Variant} {extent : Nat}
  {rest : List Nat} {g : Registry} {records : List (String × List Decl)}

theorem bits_member (p : Path) (d : Decl) : (p.member d).last.bits = d.bits := by
  simp [member, Step.whole, Step.bits, Step.elements, Step.slice?, Step.remaining, Decl.bits]

theorem sumBits_members (p : Path) (ds : List Decl) :
    sumBits (ds.map p.member) = Decl.sumBits ds := by
  induction ds with
  | nil => rfl
  | cons d ds ih =>
    change (p.member d).last.bits + sumBits (ds.map p.member) = d.bits + Decl.sumBits ds
    rw [ih, bits_member]

/-- One element takes the bits of an element. -/
theorem bits_of_element (hs : p.last.slice? = none) (hr : p.last.remaining = []) :
    p.last.bits = p.last.decl.elementBits := by
  rw [Step.bits, Step.elements, hs, hr]
  exact Nat.mul_one _

/-- A union takes the bits of its largest variant. -/
theorem bits_of_union {tag : String} {internal : Bool} (hs : p.last.slice? = none)
    (hr : p.last.remaining = []) (hk : p.last.decl.kind = .union tag internal) :
    p.last.bits = Decl.maxBits p.last.decl.members := by
  rw [bits_of_element hs hr, Decl.elementBits_of_union hk]

/-- The bits of a run of indices. -/
theorem bits_access (hr : p.last.remaining = extent :: rest) (a : Access) :
    (p.access a).last.bits = p.last.decl.elementBits * (a.count * Decl.elementCount rest) := by
  have hslice : (p.access a).last.slice?.elim 1 Access.count = a.count := by
    rw [slice?_access]
    cases ha : a.isSlice with
    | true => rfl
    | false => exact (Access.count_of_single ha).symm
  rw [Step.bits, Step.elements, hslice, remaining_access hr]
  rfl

/-- The bits of a whole rank. -/
theorem bits_rank (hs : p.last.slice? = none) (hr : p.last.remaining = extent :: rest) :
    p.last.bits = p.last.decl.elementBits * (extent * Decl.elementCount rest) := by
  rw [Step.bits, Step.elements, hs, hr, Option.elim_none, Nat.one_mul]
  rfl

/-- The indices of a run take the bits of the run. -/
theorem sumBits_singles (hr : p.last.remaining = extent :: rest) (a : Access) :
    sumBits (a.singles.map p.access) = (p.access a).last.bits := by
  have hall (ks : List Nat) : sumBits ((ks.map Access.single).map p.access) =
      p.last.decl.elementBits * (ks.length * Decl.elementCount rest) := by
    induction ks with
    | nil => simp [sumBits]
    | cons k ks ih =>
      have hone : (p.access (.single k)).last.bits =
          p.last.decl.elementBits * (1 * Decl.elementCount rest) := bits_access hr _
      simp only [List.map_cons, sumBits, ih, hone, List.length_cons, Nat.add_mul, Nat.mul_add]
      omega
  rw [Access.singles, hall, List.length_range', bits_access hr]

/-- **Sizes of parts**: together, parts take the bits of the value. -/
theorem Parts.bits_eq {roots : List Decl} {cs : List Condition} (hp : p.Parts ps)
    (h : p.Reached roots cs) : sumBits ps = p.last.bits := by
  cases hp with
  | @slice a hs =>
    have heq := eq_access_of_slice hs
    obtain ⟨-, -, -, extent, rest, hr, -⟩ := h.of_access heq
    have hsum := sumBits_singles hr a
    rw [← heq] at hsum
    exact hsum
  | rank hs hr =>
    rw [sumBits_singles hr, bits_access hr, bits_rank hs hr]
  | struct hs hr hk =>
    rw [sumBits_members, bits_of_element hs hr, Decl.elementBits_of_struct hk]

/-! ## unions -/

/-- What the variants share fits into the union. -/
theorem Switch.bits_shared_le (hs : p.Switch shared arms)
    (hd : p.last.decl.Everywhere (Decl.Sound g records)) : sumBits shared ≤ p.last.bits := by
  cases hs with
  | external => exact Nat.zero_le _
  | @internal tag lead hs hr hk hlead =>
    have hshared := hd.self.shared_of_lead hk hlead
    have hle := hshared.bits_le hd hshared.lead_mem
    rw [sharedParts, sumBits_members, bits_of_union hs hr hk]
    omega

/-- **Sizes of arms**: behind the shared parts, each arm and its slack fill the union. -/
theorem Switch.bits_arm (hs : p.Switch shared arms)
    (hd : p.last.decl.Everywhere (Decl.Sound g records)) (ha : a ∈ arms) :
    sumBits shared + sumBits a.parts + a.slack = p.last.bits := by
  cases hs with
  | external hs hr hk =>
    obtain ⟨v, hv, hva⟩ := List.mem_filterMap.1 ha
    obtain ⟨id, -, rfl⟩ := Option.map_eq_some_iff.1 hva
    have hle := Decl.bits_le_maxBits hv
    have hparts : sumBits (if v.isOmitted && !v.encoding.default.isSome then []
        else [p.member v]) = v.bits := by
      split
      · next hdropped =>
        rw [Bool.and_eq_true] at hdropped
        exact (Decl.bits_of_omitted hdropped.1).symm
      · exact bits_member p v
    simp only [hparts, bits_of_union hs hr hk, bits_member, sumBits]
    omega
  | @internal tag lead hs hr hk hlead =>
    obtain ⟨v, hv, hva⟩ := List.mem_filterMap.1 ha
    have hle := (hd.self.shared_of_lead hk hlead).bits_le hd hv
    unfold internalVariant at hva
    dsimp only at hva
    split at hva
    · cases hva
      simp only [sharedParts, sumBits_members, bits_of_union hs hr hk]
      omega
    · cases hva

/-- Every variant that has an id has an arm, without slack if it is as large as the union. -/
theorem Switch.exists_arm (hs : p.Switch shared arms)
    (hd : p.last.decl.Everywhere (Decl.Sound g records)) {v : Decl}
    (hv : v ∈ p.last.decl.members) (homit : v.isOmitted = false) (hbits : v.bits = p.last.bits) :
    ∃ a ∈ arms, a.slack = 0 := by
  obtain ⟨tag, internal, hk⟩ := hs.kind
  obtain ⟨id, hid⟩ := Option.isSome_iff_exists.1 ((hd.self.union _ _ hk).variantId_isSome hv homit)
  cases hs with
  | @external tag selector =>
    have harm : ∃ a, p.externalVariant (p.sibling selector) v = some a ∧ a.slack = 0 := by
      rw [externalVariant, hid]
      refine ⟨_, rfl, ?_⟩
      dsimp only
      rw [bits_member]
      omega
    obtain ⟨a, harm, hslack⟩ := harm
    exact ⟨a, List.mem_filterMap.2 ⟨v, hv, harm⟩, hslack⟩
  | @internal tag lead _ _ hk hlead =>
    have hshared := hd.self.shared_of_lead hk hlead
    obtain ⟨selector, hsel⟩ := hshared.selector hv
    have harm : ∃ a, p.internalVariant lead v = some a ∧ a.slack = 0 := by
      unfold internalVariant
      dsimp only
      rw [hid, hsel]
      refine ⟨_, rfl, ?_⟩
      dsimp only
      rw [sharedParts, sumBits_members, sumBits_members, hshared.bits_eq hv homit]
      omega
    obtain ⟨a, harm, hslack⟩ := harm
    exact ⟨a, List.mem_filterMap.2 ⟨v, hv, harm⟩, hslack⟩

/-- **A union takes no more than it must**: its shared parts fill it, or one of its arms does. -/
theorem Switch.full (hs : p.Switch shared arms)
    (hd : p.last.decl.Everywhere (Decl.Sound g records)) :
    sumBits shared = p.last.bits ∨ ∃ a ∈ arms, a.slack = 0 := by
  have hle := hs.bits_shared_le hd
  have hbits : p.last.bits = Decl.maxBits p.last.decl.members := by
    cases hs with
    | external hs hr hk => exact bits_of_union hs hr hk
    | internal hs hr hk => exact bits_of_union hs hr hk
  obtain hzero | ⟨v, hv, hmax⟩ := Decl.exists_bits_eq_maxBits p.last.decl.members
  · left
    omega
  · cases homit : v.isOmitted with
    | true =>
      have hzero := Decl.bits_of_omitted homit
      left
      omega
    | false => exact .inr (hs.exists_arm hd hv homit (hmax.trans hbits.symm))

end Path

end BitLayout
