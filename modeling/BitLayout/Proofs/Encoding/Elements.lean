import BitLayout.Proofs.Encoding.Shapes

/-!
# BitLayout.Proofs.Encoding.Elements

What the name of an element tells. Unfolding a type stops at an element that is written as a name,
and from the name alone everything about the element follows, however the name was reached. So two
declarations whose element types have the same tokens have the same elements.

* `Registry.unfold_inv`: the three ways in which a type unfolds;
* `Registry.unfold_mono`: a larger budget changes nothing;
* `Registry.elem_eq_of_type`: elements of one written type are equal;
* `Registry.width_of_unfold`: integers have at least one and at most 64 bits.
-/

namespace BitLayout

namespace Registry

variable {g : Registry} {budget : Nat} {type : TypeExpr} {t u : TypeRef} {name : String}

/-! ## unfolding -/

/-- The shape of a name that stands for no other type. -/
def plainShape? (g : Registry) (name : String) : Option ElementShape :=
  match ElementShape.primitive? name with
  | some shape => some shape
  | none => (g.record? name).map fun r => .record name r.kind

theorem unfold_array {elem : TypeExpr} {length : ArrayLength} {extent : Nat}
    (htype : type.unwrapped = .array elem length) (hextent : arrayExtent length = .ok extent)
    (h : g.unfold budget elem = .ok t) :
    g.unfold (budget + 1) type = .ok (t.array (.array elem length) extent) := by
  rw [unfold, htype]
  simp [hextent, h, bind, Except.bind, pure, Except.pure]

theorem unfold_plain {shape : ElementShape} (htype : type.unwrapped = .name name)
    (h : g.plainShape? name = some shape) :
    g.unfold (budget + 1) type = .ok ⟨[], .name name, [], shape⟩ := by
  rw [unfold, htype]
  unfold plainShape? at h
  cases hprim : ElementShape.primitive? name with
  | some found =>
    rw [hprim, Option.some.injEq] at h
    simp [hprim, h]
  | none =>
    rw [hprim] at h
    obtain ⟨r, hr, rfl⟩ := Option.map_eq_some_iff.1 h
    simp [hprim, hr]

theorem unfold_alias {found : TypeAlias} (htype : type.unwrapped = .name name)
    (hplain : g.plainShape? name = none) (halias : g.alias? name = some found)
    (h : g.unfold budget found.target = .ok t) :
    g.unfold (budget + 1) type = .ok (t.throughAlias name) := by
  rw [unfold, htype]
  unfold plainShape? at hplain
  cases hprim : ElementShape.primitive? name with
  | some shape => simp [hprim] at hplain
  | none =>
    rw [hprim, Option.map_eq_none_iff] at hplain
    simp [hprim, hplain, halias, h, Except.map]

/-- A type is an array, a name that stands for nothing else, or an alias. -/
theorem unfold_inv (h : g.unfold (budget + 1) type = .ok t) :
    (∃ elem length extent inner, type.unwrapped = .array elem length ∧
        arrayExtent length = .ok extent ∧ g.unfold budget elem = .ok inner ∧
        t = inner.array (.array elem length) extent) ∨
      (∃ name shape, type.unwrapped = .name name ∧ g.plainShape? name = some shape ∧
        t = ⟨[], .name name, [], shape⟩) ∨
      ∃ name found inner, type.unwrapped = .name name ∧ g.plainShape? name = none ∧
        g.alias? name = some found ∧ g.unfold budget found.target = .ok inner ∧
        t = inner.throughAlias name := by
  rw [unfold] at h
  split at h
  · next elem length htype =>
    cases hextent : arrayExtent length with
    | error e => simp [hextent, bind, Except.bind] at h
    | ok extent =>
      cases hinner : g.unfold budget elem with
      | error e => simp [hextent, hinner, bind, Except.bind] at h
      | ok inner =>
        simp only [hextent, hinner, bind, Except.bind, pure, Except.pure, Except.ok.injEq] at h
        exact .inl ⟨elem, length, extent, inner, htype, hextent, hinner, h.symm⟩
  · next name htype =>
    right
    cases hplain : g.plainShape? name with
    | some shape =>
      have hunfold : g.unfold (budget + 1) type = .ok ⟨[], .name name, [], shape⟩ :=
        unfold_plain htype hplain
      rw [unfold, htype] at hunfold
      simp only at hunfold
      rw [h, Except.ok.injEq] at hunfold
      exact .inl ⟨name, shape, htype, hplain, hunfold⟩
    | none =>
      unfold plainShape? at hplain
      cases hprim : ElementShape.primitive? name with
      | some shape => simp [hprim] at hplain
      | none =>
        simp only [hprim, Option.map_eq_none_iff] at hplain
        simp only [hprim, hplain] at h
        cases halias : g.alias? name with
        | none => simp [halias] at h
        | some found =>
          cases hinner : g.unfold budget found.target with
          | error e => simp [halias, hinner, Except.map] at h
          | ok inner =>
            simp only [halias, hinner, Except.map, Except.ok.injEq] at h
            refine .inr ⟨name, found, inner, htype, ?_, halias, hinner, h.symm⟩
            simp [plainShape?, hprim, hplain]
  · cases h

/-- A larger budget changes nothing. -/
theorem unfold_mono (h : g.unfold budget type = .ok t) {more : Nat} (hle : budget ≤ more) :
    g.unfold more type = .ok t := by
  induction budget generalizing type t more with
  | zero => simp [unfold] at h
  | succ budget ih =>
    obtain ⟨more, rfl⟩ := Nat.exists_eq_add_of_le' (Nat.lt_of_lt_of_le (Nat.succ_pos _) hle)
    have hle : budget ≤ more := by omega
    rcases unfold_inv h with ⟨elem, length, extent, inner, htype, hextent, hinner, rfl⟩ |
      ⟨name, shape, htype, hplain, rfl⟩ | ⟨name, found, inner, htype, hplain, halias, hinner, rfl⟩
    · exact unfold_array htype hextent (ih hinner hle)
    · exact unfold_plain htype hplain
    · exact unfold_alias htype hplain halias (ih hinner hle)

/-! ## elements -/

/-- The element of a type is written as a name, which unfolds to nothing but the element. -/
theorem unfold_elem (h : g.unfold budget type = .ok t) :
    ∃ name left, t.elem.type = .name name ∧ g.unfold left (.name name) = .ok ⟨[], t.elem⟩ := by
  induction budget generalizing type t with
  | zero => simp [unfold] at h
  | succ budget ih =>
    rcases unfold_inv h with ⟨elem, length, extent, inner, htype, hextent, hinner, rfl⟩ |
      ⟨name, shape, htype, hplain, rfl⟩ | ⟨name, found, inner, htype, hplain, halias, hinner, rfl⟩
    · obtain ⟨name, left, hname, hunfold⟩ := ih hinner
      exact ⟨name, left, hname, hunfold⟩
    · exact ⟨name, budget + 1, rfl, unfold_plain rfl hplain⟩
    · obtain ⟨ranks, elem⟩ := inner
      cases ranks with
      | nil => exact ⟨name, budget + 1, rfl, unfold_alias rfl hplain halias hinner⟩
      | cons rank ranks =>
        obtain ⟨name, left, hname, hunfold⟩ := ih hinner
        exact ⟨name, left, hname, hunfold⟩

/-- Elements of one written type are equal. -/
theorem elem_eq_of_type {budget' : Nat} {type' : TypeExpr} (h : g.unfold budget type = .ok t)
    (h' : g.unfold budget' type' = .ok u) (htype : t.elem.type = u.elem.type) :
    t.elem = u.elem := by
  obtain ⟨name, left, hname, hunfold⟩ := unfold_elem h
  obtain ⟨name', left', hname', hunfold'⟩ := unfold_elem h'
  have hsame : name' = name := by
    rw [hname, hname', TypeExpr.name.injEq] at htype
    exact htype.symm
  subst hsame
  have hleft := unfold_mono hunfold (Nat.le_max_left left left')
  have hright := unfold_mono hunfold' (Nat.le_max_right left left')
  rw [hleft, Except.ok.injEq, TypeRef.mk.injEq] at hright
  exact hright.2

/-- Elements whose types have the same tokens have the same type. -/
theorem elem_eq_of_tokens {budget' : Nat} {type' : TypeExpr} (h : g.unfold budget type = .ok t)
    (h' : g.unfold budget' type' = .ok u) (htokens : t.elem.type.tokens = u.elem.type.tokens) :
    t.elem = u.elem := by
  refine elem_eq_of_type h h' ?_
  obtain ⟨name, -, hname, -⟩ := unfold_elem h
  obtain ⟨name', -, hname', -⟩ := unfold_elem h'
  rw [hname, hname'] at htokens ⊢
  simpa [TypeExpr.tokens, TypeExpr.fragment, Fragment.ofWord, Fragment.ofTokens] using htokens

/-- Integers have at least one and at most 64 bits. -/
theorem width_of_unfold (h : g.unfold budget type = .ok t) {signed : Bool} {width : Nat}
    (hshape : t.elem.shape = .int signed width) : 0 < width ∧ width ≤ 64 := by
  induction budget generalizing type t with
  | zero => simp [unfold] at h
  | succ budget ih =>
    rcases unfold_inv h with ⟨elem, length, extent, inner, htype, hextent, hinner, rfl⟩ |
      ⟨name, shape, htype, hplain, rfl⟩ | ⟨name, found, inner, htype, hplain, halias, hinner, rfl⟩
    · exact ih hinner (by simpa using hshape)
    · simp only at hshape
      subst hshape
      unfold plainShape? at hplain
      split at hplain
      · next hprim =>
        cases hplain
        unfold ElementShape.primitive? at hprim
        split at hprim <;> simp at hprim <;> omega
      · simp at hplain
    · exact ih hinner (by simpa using hshape)

end Registry

end BitLayout
