import BitLayout.Encoding.Integer
import Mathlib.Order.Bounds.Basic

/-!
# BitLayout.Proofs.Encoding.Acceptance

Which bits and ranges an integer type accepts, and which range it gets then. Both are said without
the order of the checks: what is asked for is *admissible* if

```
1  ≤  bits  ≤  width        type min  ≤  min  ≤  max  ≤  type max        max - min  <  2 ^ bits
```

as far as it is asked for, and the *chosen* range is the one asked for, in the bits asked for, or
else in the fewest; without a range it is all that the bits can show.

Main statement: `IntegerRange.ofRequest_eq_ok_iff`.
-/

namespace BitLayout

namespace IntegerRange

variable {signed : Bool} {width : Nat} {bits : Option Nat} {range : Option (Int × Int)}

/-- Bits and a range that an integer type can have. -/
structure Admissible (signed : Bool) (width : Nat) (bits : Option Nat)
    (range : Option (Int × Int)) : Prop where
  count : ∀ b, bits = some b → 1 ≤ b ∧ b ≤ width
  ordered : ∀ min max, range = some (min, max) → min ≤ max
  within : ∀ min max, range = some (min, max) →
    (natural signed width).min ≤ min ∧ max ≤ (natural signed width).max
  reach : ∀ b min max, bits = some b → range = some (min, max) → max - min < patterns b

/-- The range of an integer under the bits and the range asked for. -/
structure Chosen (signed : Bool) (width : Nat) (bits : Option Nat) (range : Option (Int × Int))
    (r : IntegerRange) : Prop where
  asked : ∀ b, bits = some b → r.bits = b
  fewest : bits = none → ∀ min max, range = some (min, max) →
    IsLeast {b | 1 ≤ b ∧ max - min < patterns b} r.bits
  ends : ∀ min max, range = some (min, max) → r.min = min ∧ r.max = max
  full : range = none → r = representable signed (bits.getD width)

/-- The bits that a range needs are those that reach from its lower end to its upper end. -/
theorem needed_le_iff {min max : Int} {b : Nat} :
    Nat.max 1 (bitLength (max - min).toNat) ≤ b ↔ 1 ≤ b ∧ max - min < patterns b := by
  have hpos := patterns_pos b
  have hreach : (max - min).toNat < patterns b ↔ max - min < patterns b := by omega
  rw [← hreach, lt_patterns_iff]
  exact Nat.max_le

theorem isLeast_needed (min max : Int) :
    IsLeast {b | 1 ≤ b ∧ max - min < patterns b} (Nat.max 1 (bitLength (max - min).toNat)) :=
  ⟨needed_le_iff.1 (Nat.le_refl _), fun _ hb => needed_le_iff.2 hb⟩

/-- The bits asked for pass if there are some, and not more than the type has. -/
theorem filter_bits_eq_none_iff : (bits.filter fun b => b = 0 || b > width) = none ↔
    ∀ b, bits = some b → 1 ≤ b ∧ b ≤ width := by
  cases bits with
  | none => simp
  | some b =>
    simp only [Option.filter_eq_none_iff, Option.some.injEq, forall_eq', Bool.or_eq_true,
      decide_eq_true_eq]
    omega

/-- Bits that pass, or else all of the type, are some, and not more than the type has. -/
theorem getD_bits_mem (hw : 0 < width) (h : ∀ b, bits = some b → 1 ≤ b ∧ b ≤ width) :
    0 < bits.getD width ∧ bits.getD width ≤ width := by
  cases bits with
  | none => exact ⟨hw, Nat.le_refl _⟩
  | some b => exact h b rfl

/-- What is asked for determines the range. -/
theorem Chosen.unique {r r' : IntegerRange} (h : Chosen signed width bits range r)
    (h' : Chosen signed width bits range r') : r = r' := by
  cases range with
  | none => rw [h.full rfl, h'.full rfl]
  | some ends =>
    obtain ⟨hmin, hmax⟩ := h.ends _ _ rfl
    obtain ⟨hmin', hmax'⟩ := h'.ends _ _ rfl
    have hbits : r.bits = r'.bits := by
      cases bits with
      | none => exact (h.fewest rfl _ _ rfl).unique (h'.fewest rfl _ _ rfl)
      | some b => rw [h.asked b rfl, h'.asked b rfl]
    cases r
    cases r'
    simp_all

/-- Admissible bits without a range are accepted. -/
theorem ofRequest_of_bits (h : Admissible signed width bits none) :
    ofRequest signed width bits none = .ok (representable signed (bits.getD width)) := by
  rw [ofRequest, filter_bits_eq_none_iff.2 h.count]

/-- An admissible range is accepted. -/
theorem ofRequest_of_range {min max : Int} (h : Admissible signed width bits (some (min, max))) :
    ofRequest signed width bits (some (min, max)) =
      .ok ⟨bits.getD (Nat.max 1 (bitLength (max - min).toNat)), min, max⟩ := by
  have hordered : ¬ min > max := Int.not_lt.2 (h.ordered min max rfl)
  have hwithin := h.within min max rfl
  have hinside : ¬ (min < (natural signed width).min ∨ max > (natural signed width).max) := by
    omega
  simp only [ofRequest, filter_bits_eq_none_iff.2 h.count, hordered, hinside, if_false]
  cases hbits : bits with
  | none => rfl
  | some b =>
    have hneeded := needed_le_iff.2 ⟨(h.count b hbits).1, h.reach b min max hbits rfl⟩
    simp only [Nat.not_lt.2 hneeded, if_false, Option.getD_some]

/-- What is accepted is admissible. -/
theorem admissible_of_ofRequest {r : IntegerRange}
    (h : ofRequest signed width bits range = .ok r) : Admissible signed width bits range := by
  unfold ofRequest at h
  split at h
  · cases h
  · next hfilter =>
    have hbits := filter_bits_eq_none_iff.1 hfilter
    split at h
    · exact ⟨hbits, fun _ _ hr => (nomatch hr), fun _ _ hr => (nomatch hr),
        fun _ _ _ _ hr => (nomatch hr)⟩
    · next min max =>
      dsimp only at h
      split at h
      · cases h
      · next hordered =>
        split at h
        · cases h
        · next hinside =>
          refine ⟨hbits, ?_, ?_, ?_⟩
          · rintro _ _ ⟨⟩
            exact Int.not_lt.1 hordered
          · rintro _ _ ⟨⟩
            omega
          · rintro b _ _ rfl ⟨⟩
            dsimp only at h
            split at h
            · cases h
            · next hneeded => exact (needed_le_iff.1 (Nat.not_lt.1 hneeded)).2

/-- What is admissible is accepted, with the chosen range. -/
theorem exists_chosen (h : Admissible signed width bits range) :
    ∃ r, ofRequest signed width bits range = .ok r ∧ Chosen signed width bits range r := by
  cases range with
  | none =>
    refine ⟨_, ofRequest_of_bits h, ?_, fun _ _ _ hr => (nomatch hr), fun _ _ hr => (nomatch hr),
      fun _ => rfl⟩
    rintro b rfl
    cases signed <;> rfl
  | some ends =>
    obtain ⟨min, max⟩ := ends
    refine ⟨_, ofRequest_of_range h, ?_, ?_, ?_, fun hr => (nomatch hr)⟩
    · rintro b rfl
      rfl
    · rintro rfl _ _ ⟨⟩
      exact isLeast_needed min max
    · rintro _ _ ⟨⟩
      exact ⟨rfl, rfl⟩

/-- **Acceptance**: an integer type accepts exactly the admissible requests, and gives them the
chosen range. -/
theorem ofRequest_eq_ok_iff {r : IntegerRange} : ofRequest signed width bits range = .ok r ↔
    Admissible signed width bits range ∧ Chosen signed width bits range r := by
  constructor
  · intro h
    have hadmissible := admissible_of_ofRequest h
    obtain ⟨r', hr', hchosen⟩ := exists_chosen hadmissible
    obtain rfl := Except.ok.inj (h.symm.trans hr')
    exact ⟨hadmissible, hchosen⟩
  · rintro ⟨hadmissible, h⟩
    obtain ⟨r', hr', hchosen⟩ := exists_chosen hadmissible
    rw [hr', hchosen.unique h]

/-- A request is accepted exactly if it is admissible. -/
theorem isOk_ofRequest_iff : (∃ r, ofRequest signed width bits range = .ok r) ↔
    Admissible signed width bits range :=
  ⟨fun ⟨_, hr⟩ => admissible_of_ofRequest hr, fun h => (exists_chosen h).imp fun _ hr => hr.1⟩

end IntegerRange

end BitLayout
