import BitLayout.Proofs.Encoding.Acceptance
import BitLayout.Proofs.Encoding.Elements

/-!
# BitLayout.Proofs.Encoding.Ranges

Which values an integer can have on the wire. A range that is asked for, or that comes from the
type, is *valid*: it lies within the integer type, and its bits reach from its lower end to its
upper end:

```
type min  ≤  min  ≤  max  ≤  type max      max - min  <  2 ^ bits
```

* `IntegerRange.valid_of_ofRequest`: a range that is accepted is valid;
* `Config.integer_of_resolve`: whatever travels as an integer is one, with a valid range.
-/

namespace BitLayout

namespace IntegerRange

variable {signed : Bool} {width bits : Nat} {range : Option (Int × Int)} {r : IntegerRange}

/-- A range of an integer type whose bits reach from its lower end to its upper end. -/
structure Valid (signed : Bool) (width : Nat) (r : IntegerRange) : Prop where
  pos : 0 < r.bits
  bits_le : r.bits ≤ width
  ordered : r.min ≤ r.max
  within : (natural signed width).min ≤ r.min ∧ r.max ≤ (natural signed width).max
  reach : r.max - r.min < patterns r.bits

/-- Half of the patterns of some bits have one bit less. -/
theorem patterns_eq_double (h : 0 < bits) : patterns bits = patterns (bits - 1) * 2 := by
  rw [← patterns_succ, Nat.sub_add_cancel h]

/-- All values of an integer type together are its patterns. -/
theorem natural_span (signed : Bool) (h : 0 < width) :
    (natural signed width).max - (natural signed width).min = patterns width - 1 := by
  unfold natural representable
  cases signed with
  | true =>
    have hdouble := patterns_eq_double h
    simp only [if_true]
    omega
  | false =>
    simp only [Bool.false_eq_true, if_false]
    omega

/-- What some bits can show is a valid range, if the type has as many. -/
theorem valid_representable (h : 0 < bits) (hle : bits ≤ width) :
    (representable signed bits).Valid signed width := by
  have hspan := natural_span signed h
  have hpos := patterns_pos bits
  have hbits : (representable signed bits).bits = bits := by
    cases signed <;> rfl
  have hnatural : natural signed bits = representable signed bits := rfl
  rw [hnatural] at hspan
  refine ⟨by rwa [hbits], by rwa [hbits], by omega, ?_, by rw [hbits]; omega⟩
  unfold natural representable
  cases signed with
  | true =>
    have hmono : patterns (bits - 1) ≤ patterns (width - 1) := patterns_le_patterns (by omega)
    simp only [if_true]
    omega
  | false =>
    have hmono := patterns_le_patterns hle
    simp only [Bool.false_eq_true, if_false]
    omega

/-- A range that is accepted is valid. -/
theorem valid_of_ofRequest {bits : Option Nat} (hw : 0 < width)
    (h : ofRequest signed width bits range = .ok r) : r.Valid signed width := by
  obtain ⟨hadmissible, hchosen⟩ := ofRequest_eq_ok_iff.1 h
  cases range with
  | none =>
    obtain ⟨hpos, hle⟩ := getD_bits_mem hw hadmissible.count
    rw [hchosen.full rfl]
    exact valid_representable hpos hle
  | some ends =>
    obtain ⟨min, max⟩ := ends
    have hle := hadmissible.ordered _ _ rfl
    have hwithin := hadmissible.within _ _ rfl
    obtain ⟨hmin, hmax⟩ := hchosen.ends _ _ rfl
    have hbits : 1 ≤ r.bits ∧ r.bits ≤ width ∧ max - min < patterns r.bits := by
      cases bits with
      | none =>
        obtain ⟨⟨hpos, hreach⟩, hleast⟩ := hchosen.fewest rfl _ _ rfl
        -- All bits of the type would do, so that the fewest are not more.
        have hspan := natural_span signed hw
        exact ⟨hpos, hleast ⟨hw, by omega⟩, hreach⟩
      | some b =>
        rw [hchosen.asked b rfl]
        exact ⟨(hadmissible.count b rfl).1, (hadmissible.count b rfl).2,
          hadmissible.reach b _ _ rfl rfl⟩
    rw [← hmin, ← hmax] at hle hwithin hbits
    exact ⟨hbits.1, hbits.2.1, hle, hwithin, hbits.2.2⟩

end IntegerRange

namespace Config

variable {c : Config} {g : Registry} {elem : Element} {extents left : List Nat} {form : Option Form}
  {range : IntegerRange}

/-- What is settled to travel as an integer is one, and its range is valid. -/
theorem integer_of_settle (hwidth : ∀ signed width, elem.shape = .int signed width → 0 < width)
    (h : c.settle form elem extents = .ok (.integer range, left)) :
    ∃ signed width, elem.shape = .int signed width ∧ range.Valid signed width := by
  unfold settle at h
  split at h
  · unfold defaultKind at h
    split at h
    · simp [Except.map] at h
    · next signed width hshape =>
      split at h
      · simp [Except.map] at h
      · simp only [Except.map, Except.ok.injEq, Prod.mk.injEq, Kind.integer.injEq] at h
        obtain ⟨rfl, -⟩ := h
        exact ⟨signed, width, hshape,
          IntegerRange.valid_representable (hwidth _ _ hshape) (Nat.le_refl _)⟩
    · simp [Except.map] at h
    · simp [Except.map] at h
    · simp [Except.map] at h
  · split at h
    · next signed width hshape =>
      split at h
      · next found hfound =>
        simp only [Except.ok.injEq, Prod.mk.injEq, Kind.integer.injEq] at h
        obtain ⟨rfl, -⟩ := h
        exact ⟨signed, width, hshape, IntegerRange.valid_of_ofRequest (hwidth _ _ hshape) hfound⟩
      · cases h
    · cases h
  · split at h
    · split at h
      · cases h
      · simp at h
    · cases h
  · split at h <;> simp at h
  · simp at h
  · split at h <;> simp at h

/-- Whatever travels as an integer is one of at most 64 bits, with a valid range. -/
theorem integer_of_resolve {own : Option Request} {type : TypeExpr} {r : Resolution}
    (h : c.resolve g own type = .ok r) (hkind : r.encoding.kind = .integer range) :
    ∃ signed width, r.elem.map Element.shape = some (.int signed width) ∧ width ≤ 64 ∧
      range.Valid signed width := by
  rcases resolve_cases h with ⟨request, -, rfl⟩ | ⟨t, ht, hknown⟩ | ⟨request, t, -, rfl⟩
  · cases hkind
  · obtain ⟨request, -, ⟨-, rfl⟩ | ⟨kind, left, hs, rfl⟩⟩ := resolveKnown_cases hknown
    · cases hkind
    · obtain rfl : kind = .integer range := hkind
      obtain ⟨signed, width, hshape, hvalid⟩ := integer_of_settle
        (fun _ _ hshape => (Registry.width_of_unfold ht hshape).1) hs
      refine ⟨signed, width, ?_, (Registry.width_of_unfold ht hshape).2, hvalid⟩
      simp [hshape]
  · cases hkind

end Config

end BitLayout
