import BitLayout.Encoding.Resolve

/-!
# BitLayout.Proofs.Encoding.Shapes

What an element must be for a declaration to travel as a struct or as a union: a record of that
kind, declared in the module.

* `record_of_unfold`: a type unfolds to a record only if the record is declared, with that kind;
* `suits_of_settle`: settling the kind keeps to the shape, and to what is asked;
* `resolve_cases`, `resolveKnown_cases`: how a declaration comes to be settled;
* `record_of_resolve`: all together, for a declaration that is settled;
* `room_of_resolve`: a terminated text has room for its terminator.
-/

namespace BitLayout

/-! ## types -/

namespace TypeRef

@[simp] theorem shape_throughAlias (name : String) (t : TypeRef) :
    (t.throughAlias name).elem.shape = t.elem.shape := by
  obtain ⟨ranks, elem⟩ := t
  cases ranks <;> rfl

@[simp] theorem shape_array (type : TypeExpr) (extent : Nat) (t : TypeRef) :
    (t.array type extent).elem.shape = t.elem.shape := rfl

end TypeRef

/-- A primitive is no record. -/
theorem ElementShape.primitive?_ne_record {name record : String} {kind : RecordKind} :
    ElementShape.primitive? name ≠ some (.record record kind) := by
  unfold primitive?
  split <;> simp

/-- A type unfolds to a record only if the record is declared, with that kind. -/
theorem Registry.record_of_unfold {g : Registry} {budget : Nat} {type : TypeExpr} {t : TypeRef}
    {record : String} {kind : RecordKind} (h : g.unfold budget type = .ok t)
    (hshape : t.elem.shape = .record record kind) :
    ∃ r, g.record? record = some r ∧ r.kind = kind := by
  induction budget generalizing type t with
  | zero => simp [unfold] at h
  | succ budget ih =>
    rw [unfold] at h
    split at h
    · next elem length _ =>
      cases he : arrayExtent length with
      | error e => simp [he, bind, Except.bind] at h
      | ok extent =>
        cases hi : g.unfold budget elem with
        | error e => simp [he, hi, bind, Except.bind] at h
        | ok inner =>
          simp only [he, hi, bind, Except.bind, pure, Except.pure, Except.ok.injEq] at h
          subst h
          exact ih hi (by simpa using hshape)
    · next name _ =>
      split at h
      · next shape hprim =>
        simp only [Except.ok.injEq] at h
        subst h
        simp only at hshape
        exact absurd (hshape ▸ hprim) ElementShape.primitive?_ne_record
      · split at h
        · next r hr =>
          simp only [Except.ok.injEq] at h
          subst h
          simp only [ElementShape.record.injEq] at hshape
          obtain ⟨rfl, rfl⟩ := hshape
          exact ⟨r, hr, rfl⟩
        · split at h
          · next found _ =>
            cases hi : g.unfold budget found.target with
            | error e => simp [hi, Except.map] at h
            | ok inner =>
              simp only [hi, Except.map, Except.ok.injEq] at h
              subst h
              exact ih hi (by simpa using hshape)
          · simp at h
    · simp at h

/-! ## kinds -/

namespace Config

variable {c : Config} {g : Registry} {elem : Element} {extents left : List Nat} {form : Option Form}

/-- What a settled kind says of the element, and of what was asked about it. -/
def Suits (form : Option Form) (elem : Element) : Kind → Prop
  | .omitted => False
  | .struct => ∃ record, elem.shape = .record record .struct
  | .union _ _ => ∃ record, elem.shape = .record record .union
  | .text length terminated => terminated = true → 0 < length
  | .transformed t => form = some (.transform t)
  | _ => True

/-- Without a form, only structs are more than scalars. -/
theorem suits_of_defaultKind {kind : Kind} (h : c.defaultKind elem = .ok kind) :
    Suits none elem kind := by
  unfold defaultKind at h
  split at h
  · cases h
    trivial
  · split at h <;> cases h <;> trivial
  · cases h
    trivial
  · next record hshape =>
    cases h
    exact ⟨record, hshape⟩
  · cases h

/-- A kind that is settled suits the element. -/
theorem suits_of_settle {kind : Kind} (h : c.settle form elem extents = .ok (kind, left)) :
    Suits form elem kind := by
  unfold settle at h
  split at h
  · cases hkind : c.defaultKind elem with
    | error e =>
      rw [hkind] at h
      cases h
    | ok found =>
      rw [hkind] at h
      cases h
      exact suits_of_defaultKind hkind
  · split at h
    · split at h <;> cases h
      trivial
    · cases h
  · split at h
    · split at h
      · cases h
      · next hroom =>
        cases h
        intro hterminated
        simp only [hterminated, Bool.true_and, decide_eq_true_eq] at hroom
        exact Nat.pos_of_ne_zero hroom
    · cases h
  · split at h <;> cases h <;> trivial
  · cases h
    rfl
  · split at h
    · next record hshape =>
      cases h
      exact ⟨record, hshape⟩
    · cases h

/-- The kind that a record of some kind gives a declaration. -/
def travelsAs (kind : Kind) : Option RecordKind :=
  match kind with
  | .struct => some .struct
  | .union _ _ => some .union
  | _ => none

/-- No kind is settled that leaves a declaration out. -/
theorem settle_ne_omitted {kind : Kind} (h : c.settle form elem extents = .ok (kind, left)) :
    kind ≠ .omitted := by
  rintro rfl
  exact suits_of_settle h

/-- A declaration of a known type is left out by what is asked about it, or its kind is settled. -/
theorem resolveKnown_cases {own : Option Request} {t : TypeRef} {r : Resolution}
    (h : c.resolveKnown g own t = .ok r) : ∃ request, c.effective g own t = .ok request ∧
      ((request.omitted = true ∧
          r = ⟨⟨.omitted, request.default, request.variantId⟩, t.extents, some t.elem⟩) ∨
        ∃ kind left, c.settle request.form t.elem t.extents = .ok (kind, left) ∧
          r = ⟨⟨kind, request.default, request.variantId⟩, left, some t.elem⟩) := by
  unfold resolveKnown at h
  cases he : c.effective g own t with
  | error e => simp [he, bind, Except.bind] at h
  | ok request =>
    refine ⟨request, rfl, ?_⟩
    by_cases homit : request.omitted = true
    · simp only [he, homit, bind, Except.bind, pure, Except.pure, if_true, Except.ok.injEq] at h
      exact .inl ⟨homit, h.symm⟩
    · cases hs : c.settle request.form t.elem t.extents with
      | error e => simp [he, homit, hs, bind, Except.bind] at h
      | ok settled =>
        simp only [he, homit, hs, bind, Except.bind, pure, Except.pure, Bool.false_eq_true,
          if_false, Except.ok.injEq] at h
        exact .inr ⟨settled.1, settled.2, rfl, h.symm⟩

/-- A declaration is left out or transformed by its own request, or its type is known. -/
theorem resolve_cases {own : Option Request} {type : TypeExpr} {r : Resolution}
    (h : c.resolve g own type = .ok r) :
    (∃ request, own = some request ∧
        r = ⟨⟨.omitted, request.default, request.variantId⟩, g.extentsOf type, none⟩) ∨
      (∃ t, g.resolveType type = .ok t ∧ c.resolveKnown g own t = .ok r) ∨
      ∃ request t, own = some request ∧
        r = ⟨⟨.transformed t, request.default, request.variantId⟩, [], none⟩ := by
  unfold resolve at h
  split at h
  · next request hown =>
    cases h
    exact .inl ⟨request, (Option.filter_eq_some_iff.1 hown).1, rfl⟩
  · split at h
    · next t ht _ => exact .inr (.inl ⟨t, ht, h⟩)
    · cases h
    · next request _ _ =>
      split at h
      · next t _ =>
        cases h
        exact .inr (.inr ⟨request, t, rfl, rfl⟩)
      · cases h

/-- A declaration of a known type that travels as a struct or union has an element of that
shape. -/
theorem shape_of_resolveKnown {own : Option Request} {t : TypeRef} {r : Resolution}
    {kind : RecordKind} (h : c.resolveKnown g own t = .ok r)
    (hkind : travelsAs r.encoding.kind = some kind) :
    r.elem = some t.elem ∧ ∃ record, t.elem.shape = .record record kind := by
  obtain ⟨request, -, ⟨-, rfl⟩ | ⟨found, left, hs, rfl⟩⟩ := resolveKnown_cases h
  · simp [travelsAs] at hkind
  · refine ⟨rfl, ?_⟩
    dsimp only at hkind
    unfold travelsAs at hkind
    split at hkind
    · cases hkind
      exact suits_of_settle hs
    · cases hkind
      exact suits_of_settle hs
    · cases hkind

/-- A declaration that travels as a terminated text has room for the terminator. -/
theorem room_of_resolve {own : Option Request} {type : TypeExpr} {r : Resolution} {length : Nat}
    (h : c.resolve g own type = .ok r) (hkind : r.encoding.kind = .text length true) :
    0 < length := by
  rcases resolve_cases h with ⟨request, -, rfl⟩ | ⟨t, -, hknown⟩ | ⟨request, t, -, rfl⟩
  · cases hkind
  · obtain ⟨request, -, ⟨-, rfl⟩ | ⟨found, left, hs, rfl⟩⟩ := resolveKnown_cases hknown
    · cases hkind
    · obtain rfl : found = .text length true := hkind
      exact suits_of_settle hs rfl
  · cases hkind

/-- A declaration that travels as a struct or union is a declared record of that kind. -/
theorem record_of_resolve {own : Option Request} {type : TypeExpr} {r : Resolution}
    {kind : RecordKind} (h : c.resolve g own type = .ok r)
    (hkind : travelsAs r.encoding.kind = some kind) :
    ∃ record found, r.elem.map Element.shape = some (.record record kind) ∧
      g.record? record = some found ∧ found.kind = kind := by
  rcases resolve_cases h with ⟨request, -, rfl⟩ | ⟨t, ht, hknown⟩ | ⟨request, t, -, rfl⟩
  · simp [travelsAs] at hkind
  · obtain ⟨helem, record, hrecord⟩ := shape_of_resolveKnown hknown hkind
    obtain ⟨found, hfound, hk⟩ := Registry.record_of_unfold ht hrecord
    exact ⟨record, found, by simp [helem, hrecord], hfound, hk⟩
  · simp [travelsAs] at hkind

end Config

end BitLayout
