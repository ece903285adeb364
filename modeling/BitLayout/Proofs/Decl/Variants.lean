import BitLayout.Proofs.Decl.Sound
import Mathlib.Data.List.Nodup

/-!
# BitLayout.Proofs.Decl.Variants

What the checks of tags and variants guarantee.

* `variantIds_nodup`, `variantId_isSome`: the variants of a union have different ids, and each has
  one unless it is left out;
* `Decl.Shared`: the variants of a union with an internal tag agree in their leading fields, and the
  last of these is the tag (`shared_of_internal`);
* `Sound.struct_of_external`: only structs hold unions with external tags;
* `selector_of_external`: an external tag is a scalar in front of the union that it selects.
-/

namespace BitLayout.Decl

/-! ## ids -/

/-- Variants without a fault have different ids, other than those seen before. -/
theorem ids_of_idFault {union : String} {seen : List (Int × String)} {vs : List Decl}
    (h : idFault? union seen vs = none) :
    (vs.filterMap (·.encoding.variantId)).Nodup ∧
      (∀ id ∈ vs.filterMap (·.encoding.variantId), id ∉ seen.map Prod.fst) ∧
      ∀ v ∈ vs, v.isOmitted = false → v.encoding.variantId.isSome = true := by
  induction vs generalizing seen with
  | nil => exact ⟨List.nodup_nil, fun _ hid => (nomatch hid), fun _ hv => (nomatch hv)⟩
  | cons v vs ih =>
    rw [idFault?] at h
    split at h
    · next id hid =>
      split at h
      · cases h
      · next hfind =>
        obtain ⟨hnodup, hseen, hsome⟩ := ih h
        have hfresh : id ∉ seen.map Prod.fst := by
          intro hmem
          obtain ⟨p, hp, rfl⟩ := List.mem_map.1 hmem
          simpa using List.find?_eq_none.1 hfind p hp
        rw [List.filterMap_cons_some (f := fun v : Decl => v.encoding.variantId) hid]
        refine ⟨List.nodup_cons.2 ⟨fun hmem => hseen id hmem (by simp), hnodup⟩, ?_, ?_⟩
        · intro i hi
          rcases List.mem_cons.1 hi with rfl | hi
          · exact hfresh
          · intro hmem
            refine hseen i hi ?_
            rw [List.map_append]
            exact List.mem_append_left _ hmem
        · intro w hw homit
          rcases List.mem_cons.1 hw with rfl | hw
          · rw [hid]
            rfl
          · exact hsome w hw homit
    · next hid =>
      split at h
      · next homit =>
        obtain ⟨hnodup, hseen, hsome⟩ := ih h
        rw [List.filterMap_cons_none (f := fun v : Decl => v.encoding.variantId) hid]
        refine ⟨hnodup, hseen, fun w hw hw' => ?_⟩
        rcases List.mem_cons.1 hw with rfl | hw
        · rw [homit] at hw'
          cases hw'
        · exact hsome w hw hw'
      · cases h

variable {g : Registry} {records : List (String × List Decl)} {tag : String} {internal : Bool}
  {d : Decl}

/-- The ids of a union that has passed its check have no fault. -/
theorem UnionSound.idFault (h : d.UnionSound g records tag internal) :
    ∃ union, idFault? union [] d.members = none := by
  obtain ⟨union, -, -, hok⟩ := h.checked
  refine ⟨union, ?_⟩
  unfold checkVariants at hok
  split at hok
  · cases hok
  · assumption

/-- The variants of a union have different ids. -/
theorem UnionSound.variantIds_nodup (h : d.UnionSound g records tag internal) :
    d.variantIds.Nodup :=
  (ids_of_idFault h.idFault.choose_spec).1

/-- A variant has an id, unless it is left out. -/
theorem UnionSound.variantId_isSome (h : d.UnionSound g records tag internal) {v : Decl}
    (hv : v ∈ d.members) (homit : v.isOmitted = false) : v.encoding.variantId.isSome = true :=
  (ids_of_idFault h.idFault.choose_spec).2.2 v hv homit

/-! ## shared fields -/

/-- A name that is located is found there, and first. -/
theorem locate_spec {ds : List Decl} {name : String} {e : Decl} {k : Nat}
    (h : locate? ds name = some (e, k)) :
    ds.find? (·.name = name) = some e ∧ ds[k]? = some e ∧ e.name = name := by
  have hmem := List.mem_of_find?_eq_some h
  have hname := List.find?_some h
  refine ⟨?_, List.mk_mem_zipIdx_iff_getElem?.1 hmem, by simpa using hname⟩
  have hmap : ds.find? (·.name = name) = (locate? ds name).map Prod.fst := by
    conv_lhs => rw [← List.zipIdx_map_fst 0 ds]
    rw [List.find?_map]
    rfl
  rw [hmap, h]
  rfl

/-- Leading fields that agree stand at the same positions. -/
theorem agrees_of_lt_agreeing {as bs : List Decl} {k : Nat} (h : k < agreeing as bs) :
    ∃ a b, as[k]? = some a ∧ bs[k]? = some b ∧ a.agrees b = true := by
  induction as generalizing bs k with
  | nil => simp [agreeing] at h
  | cons a as ih =>
    cases bs with
    | nil => simp [agreeing] at h
    | cons b bs =>
      rw [agreeing, List.zip_cons_cons, List.takeWhile_cons] at h
      dsimp only at h
      split at h
      · next hab =>
        cases k with
        | zero => exact ⟨a, b, rfl, rfl, hab⟩
        | succ k =>
          rw [List.length_cons, Nat.add_lt_add_iff_right] at h
          exact ih h
      · simp at h

theorem agrees_refl (a : Decl) : a.agrees a = true := by simp [agrees]

theorem isScalar_iff : d.isScalar = true ↔ d.kind.isScalar = true ∧ d.extents = [] := by
  rw [isScalar, Bool.and_eq_true, List.isEmpty_iff]

/-- A scalar is not left out. -/
theorem isOmitted_of_scalar (h : d.isScalar = true) : d.isOmitted = false := by
  have hkind := (isScalar_iff.1 h).1
  rw [← Bool.not_eq_true, isOmitted_iff]
  intro homit
  rw [homit] at hkind
  cases hkind

/-- Fields that agree are scalars together. -/
theorem isScalar_of_agrees {e : Decl} (h : d.agrees e = true) : d.isScalar = e.isScalar := by
  simp only [agrees, Bool.and_eq_true, decide_eq_true_eq] at h
  obtain ⟨⟨-, hextents⟩, hencoding⟩ := h
  rw [isScalar, isScalar, kind, kind, hextents, hencoding]

/-- The least of some bounds is at most each of them. -/
theorem foldl_min_le (as vs : List Decl) (n : Nat) :
    vs.foldl (fun n v => min n (agreeing as v.members)) n ≤ n ∧
      ∀ v ∈ vs, vs.foldl (fun n v => min n (agreeing as v.members)) n ≤ agreeing as v.members := by
  induction vs generalizing n with
  | nil => exact ⟨Nat.le_refl _, fun _ hv => (nomatch hv)⟩
  | cons v vs ih =>
    obtain ⟨hle, hall⟩ := ih (min n (agreeing as v.members))
    rw [List.foldl_cons]
    constructor
    · omega
    · intro w hw
      rcases List.mem_cons.1 hw with rfl | hw
      · omega
      · exact hall w hw

/-- What the variants of a union with an internal tag share, where `lead` is the one through which
it is moved. -/
structure Shared (d lead : Decl) : Prop where
  found : d.leadVariant? = some lead
  pos : 0 < d.sharedFields
  tag : ∃ selector, lead.members[d.sharedFields - 1]? = some selector ∧ selector.isScalar = true
  variant : ∀ v ∈ d.members, v.isOmitted = false → v.kind = .struct ∧ v.extents = []
  agrees : ∀ v ∈ d.members, v.isOmitted = false → ∀ k < d.sharedFields, ∃ a b,
    lead.members[k]? = some a ∧ v.members[k]? = some b ∧ a.agrees b = true
  bits : ∀ v ∈ d.members, v.isOmitted = false →
    sumBits (v.members.take d.sharedFields) = sumBits (lead.members.take d.sharedFields)

/-- The shared fields end with the tag, and agree in all variants. -/
theorem internalTag_spec {lead : Decl} {others : List Decl} {n : Nat}
    (h : internalTag tag lead others = .ok n) :
    0 < n ∧ (∃ selector, lead.members[n - 1]? = some selector ∧ selector.name = tag ∧
        selector.isScalar = true) ∧
      ∀ v ∈ others, n ≤ agreeing lead.members v.members ∧
        placeOf v.members (n - 1) = placeOf lead.members (n - 1) := by
  unfold internalTag at h
  dsimp only at h
  split at h
  · cases h
  · next selector position hloc =>
    split at h
    · cases h
    · next hshared =>
      split at h
      · cases h
      · next hscalar =>
        split at h
        · cases h
        · next hfind =>
          cases h
          obtain ⟨-, hget, hname⟩ := locate_spec hloc
          refine ⟨Nat.succ_pos _, ⟨selector, hget, hname, by simpa using hscalar⟩, ?_⟩
          intro v hv
          have hle := (foldl_min_le lead.members others lead.members.length).2 v hv
          refine ⟨by omega, ?_⟩
          simpa using List.find?_eq_none.1 hfind v hv

/-- Fields through one that stands at the same place take the same bits. -/
theorem sumBits_take_of_placeOf {as bs : List Decl} {k : Nat} (h : placeOf as k = placeOf bs k) :
    sumBits (as.take (k + 1)) = sumBits (bs.take (k + 1)) := by
  rw [placeOf, placeOf, Prod.mk.injEq] at h
  obtain ⟨hfront, hown⟩ := h
  rw [List.take_add_one, List.take_add_one, sumBits_append, sumBits_append, hfront]
  cases ha : as[k]? <;> cases hb : bs[k]? <;> simp [ha, hb, bits] at hown ⊢
  simp [sumBits, hown.1]

/-- What has been checked of the variants with an internal tag. -/
theorem checkVariants_internal {union : String} {vs : List Decl} {n : Nat}
    (h : checkVariants g union tag true vs = .ok n) :
    ∃ lead others, vs.filter (!·.isOmitted) = lead :: others ∧
      (∀ v ∈ lead :: others, v.isStructInC g = true) ∧ internalTag tag lead others = .ok n := by
  unfold checkVariants at h
  split at h
  · cases h
  · split at h
    · next hfalse => simp at hfalse
    · split at h
      · cases h
      · split at h
        · cases h
        · next lead others hfilter =>
          split at h
          · cases h
          · next hfind =>
            refine ⟨lead, others, hfilter, fun v hv => ?_, h⟩
            simpa using List.find?_eq_none.1 hfind v hv

/-- The variants of a union with an internal tag agree through the tag. -/
theorem UnionSound.shared_of_internal (h : d.UnionSound g records tag true) :
    ∃ lead, d.Shared lead := by
  obtain ⟨union, -, -, hok⟩ := h.checked
  obtain ⟨lead, others, hfilter, hstruct, htag⟩ := checkVariants_internal hok
  obtain ⟨hpos, ⟨selector, hsel, -, hscalar⟩, hothers⟩ := internalTag_spec htag
  have hmem : ∀ v ∈ d.members, v.isOmitted = false → v = lead ∨ v ∈ others := by
    intro v hv homit
    rw [← List.mem_cons, ← hfilter, List.mem_filter]
    exact ⟨hv, by rw [homit]; rfl⟩
  refine ⟨lead, ?_, hpos, ⟨selector, hsel, hscalar⟩, fun v hv homit => ?_,
    fun v hv homit k hk => ?_, fun v hv homit => ?_⟩
  · rw [leadVariant?, ← List.head?_filter, hfilter]
    rfl
  · have hv := hstruct v (List.mem_cons.2 (hmem v hv homit))
    simp only [isStructInC, Bool.and_eq_true, decide_eq_true_eq, List.isEmpty_iff] at hv
    exact hv.1
  · rcases hmem v hv homit with rfl | hv
    · have hlt := List.getElem?_eq_some_iff.1 hsel |>.1
      have hget := List.getElem?_eq_getElem (l := v.members) (i := k) (by omega)
      exact ⟨_, _, hget, hget, agrees_refl _⟩
    · exact agrees_of_lt_agreeing (Nat.lt_of_lt_of_le hk (hothers v hv).1)
  · rcases hmem v hv homit with rfl | hv
    · rfl
    · have hplace := sumBits_take_of_placeOf (hothers v hv).2
      rwa [Nat.sub_add_cancel hpos] at hplace

/-- The variants of a union with an internal tag agree with the lead variant through the tag. -/
theorem Sound.shared_of_lead {lead : Decl} (h : d.Sound g records)
    (hk : d.kind = .union tag true) (hlead : d.leadVariant? = some lead) : d.Shared lead := by
  obtain ⟨lead', hshared⟩ := (h.union tag true hk).shared_of_internal
  obtain rfl : lead = lead' := Option.some.inj (hlead.symm.trans hshared.found)
  exact hshared

/-- Every variant tests a tag: its own, or that of the lead variant if it is left out. -/
theorem Shared.selector {lead : Decl} (h : d.Shared lead) {v : Decl} (hv : v ∈ d.members) :
    ∃ selector, (if v.isOmitted then lead else v).members[d.sharedFields - 1]? =
      some selector := by
  split
  · obtain ⟨selector, hsel, -⟩ := h.tag
    exact ⟨selector, hsel⟩
  · next homit =>
    have hlt := Nat.sub_lt h.pos Nat.one_pos
    obtain ⟨-, selector, -, hsel, -⟩ := h.agrees v hv (by simpa using homit) _ hlt
    exact ⟨selector, hsel⟩

/-- In every variant that is moved, the shared fields end with a scalar. -/
theorem Shared.scalar {lead : Decl} (h : d.Shared lead) {v : Decl} (hv : v ∈ d.members)
    (homit : v.isOmitted = false) :
    ∃ s, v.members[d.sharedFields - 1]? = some s ∧ s.isScalar = true := by
  obtain ⟨selector, hselector, hscalar⟩ := h.tag
  obtain ⟨a, b, ha, hb, hagrees⟩ := h.agrees v hv homit _ (Nat.sub_lt h.pos Nat.one_pos)
  obtain rfl : selector = a := Option.some.inj (hselector.symm.trans ha)
  exact ⟨b, hb, (isScalar_of_agrees hagrees).symm.trans hscalar⟩

/-- A variant that is moved has the shared fields. -/
theorem Shared.le_length {lead : Decl} (h : d.Shared lead) {v : Decl} (hv : v ∈ d.members)
    (homit : v.isOmitted = false) : d.sharedFields ≤ v.members.length := by
  have hpos := h.pos
  obtain ⟨-, b, -, hb, -⟩ := h.agrees v hv homit _ (Nat.sub_lt hpos Nat.one_pos)
  have hlt := (List.getElem?_eq_some_iff.1 hb).1
  omega

/-- What is left out has no members. -/
theorem Sound.members_of_omitted (h : d.Sound g records) (homit : d.isOmitted = true) :
    d.members = [] := by
  refine h.leaf ?_
  rw [isOmitted_iff.1 homit]
  rfl

/-- A variant of a union with an internal tag that has members is a struct that is moved. -/
theorem Shared.variant_struct {lead : Decl} (h : d.Shared lead)
    (hd : d.Everywhere (Sound g records)) {v : Decl} (hv : v ∈ d.members) (hne : v.members ≠ []) :
    v.isOmitted = false ∧ v.StructSound records := by
  have hsound := (hd.member hv).self
  cases homit : v.isOmitted with
  | true => exact absurd (hsound.members_of_omitted homit) hne
  | false => exact ⟨rfl, hsound.struct (h.variant v hv homit).1⟩

/-! ## records in memory -/

/-- Structs are structs in memory. -/
theorem StructSound.isUnionInMemory (h : d.StructSound records) : d.isUnionInMemory = false := by
  obtain ⟨record, hshape, -⟩ := h.shape
  rw [Decl.isUnionInMemory, hshape]

/-- Unions are unions in memory. -/
theorem UnionSound.isUnionInMemory (h : d.UnionSound g records tag internal) :
    d.isUnionInMemory = true := by
  obtain ⟨record, hshape, -⟩ := h.checked
  rw [Decl.isUnionInMemory, hshape]

/-- Only structs hold unions with external tags. -/
theorem Sound.struct_of_external (h : d.Sound g records) {u : Decl} (hu : u ∈ d.members)
    (hext : u.isExternal = true) : d.kind = .struct := by
  cases hk : d.kind with
  | struct => rfl
  | union tag internal =>
    have hnone := (h.union tag internal hk).tags u hu
    rw [hext] at hnone
    cases hnone
  | _ =>
    have hnil := h.leaf (by rw [hk]; rfl)
    rw [hnil] at hu
    cases hu

/-! ## external tags -/

/-- A value on the wire needs no tag from outside. -/
theorem isExternal_of_wireFault? {w : Decl} (h : wireFault? w = none) : w.isExternal = false := by
  unfold isExternal
  split
  · next hk =>
    rw [wireFault?, hk] at h
    cases h
  · rfl

/-- Where nothing is wrong with the tag of a field, an external tag is a scalar in front of it. -/
theorem selector_of_tagFault? {parent : RecordKind} {ds : List Decl} {k : Nat} {m : Decl}
    (h : tagFault? parent ds k m = none) (hm : ds[k]? = some m)
    (hk : m.kind = .union tag false) :
    ∃ j selector, j < k ∧ ds[j]? = some selector ∧ ds.find? (·.name = tag) = some selector ∧
      selector.isScalar = true := by
  rw [tagFault?, hk] at h
  dsimp only at h
  split at h
  · cases h
  · split at h
    · cases h
    · next selector j hloc =>
      obtain ⟨hfind, hj, -⟩ := locate_spec hloc
      split at h
      · cases h
      · next hle =>
        split at h
        · next hscalar =>
          refine ⟨j, selector, ?_, hj, hfind, hscalar⟩
          -- The union itself is no scalar, so the tag is another field.
          have hne : j ≠ k := by
            rintro rfl
            rw [hm, Option.some.injEq] at hj
            subst hj
            simp [isScalar, hk, Kind.isScalar] at hscalar
          omega
        · cases h

/-- An external tag in a struct is a scalar in front of the union that it selects. -/
theorem StructSound.selector_of_external (h : d.StructSound records) {k : Nat} {m : Decl}
    (hm : d.members[k]? = some m) (hk : m.kind = .union tag false) :
    ∃ j selector, j < k ∧ d.members[j]? = some selector ∧ d.member? tag = some selector ∧
      selector.isScalar = true := selector_of_tagFault? (h.tags k m hm) hm hk

end BitLayout.Decl
