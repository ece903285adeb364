import BitLayout.Code.Formula
import BitLayout.Proofs.Encoding.Ranges

/-!
# BitLayout.Proofs.Code.Formulas

What becomes of a number on its way to the wire and back. Of the word that a formula leads to, the
stream moves the low bits; nothing is lost there, nor by any cast, since the range of an integer is
valid. So a number comes back as the nearest one in the range:

```
v  ~>  clamp(v) - min  <  2 ^ bits  ~>  clamp(v)
```

* `Formula.eval_toWire`, `Formula.toWire_mem`: what is written, and that it fits into the bits;
* `Formula.eval_fromWire`: what is read;
* `IntegerRange.restored_eq`: both together.
-/

namespace BitLayout

namespace IntegerRange

variable {width : Nat} {r : IntegerRange} {n : Int}

/-- The nearest number in a range. -/
def clamped (r : IntegerRange) (n : Int) : Int := Max.max r.min (Min.min r.max n)

theorem clamped_mem (h : r.min ≤ r.max) (n : Int) : r.min ≤ r.clamped n ∧ r.clamped n ≤ r.max := by
  unfold clamped
  omega

theorem clamped_of_mem (hmin : r.min ≤ n) (hmax : n ≤ r.max) : r.clamped n = n := by
  unfold clamped
  omega

/-- The least value of a type is not below that of a signed type with as many bits. -/
theorem natural_min_le (signed : Bool) {wider : Nat} (hle : width ≤ wider) :
    (natural true wider).min ≤ (natural signed width).min := by
  have hmono : patterns (width - 1) ≤ patterns (wider - 1) := patterns_le_patterns (by omega)
  cases signed with
  | true =>
    simp only [natural, representable, if_true]
    omega
  | false =>
    simp only [natural, representable, Bool.false_eq_true, if_false, if_true]
    omega

/-- The largest value of a type is not above that of a signed type with more bits. -/
theorem le_natural_max (signed : Bool) {wider : Nat} (hlt : width < wider) :
    (natural signed width).max ≤ (natural true wider).max := by
  have hmono : patterns width ≤ patterns (wider - 1) := patterns_le_patterns (by omega)
  have hhalf : patterns (width - 1) ≤ patterns width := patterns_le_patterns (by omega)
  cases signed with
  | true =>
    simp only [natural, representable, if_true]
    omega
  | false =>
    simp only [natural, representable, Bool.false_eq_true, if_false, if_true]
    omega

end IntegerRange

namespace IntegerType

/-- A value of a type is kept by a cast to it. -/
theorem wrap_of_mem {t : IntegerType} {n : Int} (hpos : 0 < t.bits)
    (hmin : (IntegerRange.natural t.signed t.bits).min ≤ n)
    (hmax : n ≤ (IntegerRange.natural t.signed t.bits).max) : t.wrap n = n := by
  unfold IntegerRange.natural IntegerRange.representable at hmin hmax
  unfold wrap
  cases hsigned : t.signed with
  | true =>
    have hdouble := IntegerRange.patterns_eq_double hpos
    simp only [hsigned, if_true] at hmin hmax ⊢
    apply Int.bmod_eq_of_le <;> omega
  | false =>
    simp only [hsigned, Bool.false_eq_true, if_false] at hmin hmax ⊢
    exact Int.emod_eq_of_lt hmin (by omega)

/-- A value of a type of at most 64 bits is kept by a cast to the type that formulas are computed
in. -/
theorem wide_wrap_of_mem {signed : Bool} {width : Nat} {n : Int} (hwidth : width ≤ 64)
    (hmin : (IntegerRange.natural signed width).min ≤ n)
    (hmax : n ≤ (IntegerRange.natural signed width).max) : wide.wrap n = n := by
  have hlt : width < 128 := by omega
  have hlow := IntegerRange.natural_min_le signed (Nat.le_of_lt hlt)
  have hhigh := IntegerRange.le_natural_max signed hlt
  exact wrap_of_mem (t := wide) (by decide) (Int.le_trans hlow hmin) (Int.le_trans hmax hhigh)

/-- A number of some bits is kept by a cast to a word of the stream that holds them. -/
theorem wrap_ofCarrier {bits : Nat} {n : Int} (hbits : bits ≤ 64) (hmin : 0 ≤ n)
    (hmax : n < patterns bits) : (ofCarrier (.ofBits bits)).wrap n = n := by
  have hmono := patterns_le_patterns (Carrier.le_bits_ofBits hbits)
  exact Int.emod_eq_of_lt hmin (by simp only [ofCarrier]; omega)

end IntegerType

namespace Formula

variable {signed : Bool} {width : Nat} {r : IntegerRange} {name : Tokens}

/-- What is written fits into the bits of the range. -/
theorem toWire_mem (h : r.Valid signed width) (n : Int) :
    0 ≤ r.clamped n - r.min ∧ r.clamped n - r.min < patterns r.bits := by
  have hmem := IntegerRange.clamped_mem h.ordered n
  have hreach := h.reach
  omega

/-- What is written is the distance of the nearest number in the range from its lower end. -/
theorem eval_toWire (h : r.Valid signed width) (hwidth : width ≤ 64) (n : Int) :
    (toWire r).eval n = r.clamped (IntegerType.wide.wrap n) - r.min := by
  have hmem := toWire_mem h (IntegerType.wide.wrap n)
  have hbits : r.bits ≤ 64 := Nat.le_trans h.bits_le hwidth
  exact IntegerType.wrap_ofCarrier hbits hmem.1 hmem.2

/-- What is read is the lower end of the range and the number on the wire together. -/
theorem eval_fromWire (h : r.Valid signed width) (hwidth : width ≤ 64) {w : Int} (hw : 0 ≤ w)
    (hmax : w ≤ r.max - r.min) : (fromWire r ⟨signed, width, name⟩).eval w = w + r.min := by
  have hpos : 0 < width := Nat.lt_of_lt_of_le h.pos h.bits_le
  have hwithin := h.within
  have hreach := h.reach
  have hmono := patterns_le_patterns h.bits_le
  have hwide : IntegerType.wide.wrap w = w := by
    have hge : (IntegerRange.natural false width).min ≤ w := hw
    have hle : w ≤ (IntegerRange.natural false width).max := by
      simp only [IntegerRange.natural, IntegerRange.representable, Bool.false_eq_true, if_false]
      omega
    exact IntegerType.wide_wrap_of_mem hwidth hge hle
  show IntegerType.wrap _ (IntegerType.wide.wrap w + r.min) = w + r.min
  rw [hwide]
  exact IntegerType.wrap_of_mem hpos (by simp only; omega) (by simp only; omega)

end Formula

namespace IntegerRange

variable {signed : Bool} {width : Nat} {r : IntegerRange} {n : Int}

/-- The number of a type that comes back from the wire: what is written, cut off to the bits that
the stream moves, and read. -/
def restored (r : IntegerRange) (type : IntegerType) (n : Int) : Int :=
  (Formula.fromWire r type).eval ((Formula.toWire r).eval n % patterns r.bits)

/-- The number that comes back is the nearest one in the range. -/
theorem restored_eq (h : r.Valid signed width) (hwidth : width ≤ 64) (name : Tokens) (n : Int) :
    r.restored ⟨signed, width, name⟩ n = r.clamped (IntegerType.wide.wrap n) := by
  have hmem := Formula.toWire_mem h (IntegerType.wide.wrap n)
  have hclamped := clamped_mem h.ordered (IntegerType.wide.wrap n)
  rw [restored, Formula.eval_toWire h hwidth, Int.emod_eq_of_lt hmem.1 hmem.2,
    Formula.eval_fromWire h hwidth hmem.1 (by omega)]
  omega

/-- A number comes back as it was if and only if it is in the range. -/
theorem restored_eq_self_iff (h : r.Valid signed width) (hwidth : width ≤ 64) (name : Tokens) :
    r.restored ⟨signed, width, name⟩ n = n ↔ r.min ≤ n ∧ n ≤ r.max := by
  rw [restored_eq h hwidth]
  constructor
  · intro heq
    rw [← heq]
    exact clamped_mem h.ordered _
  · rintro ⟨hmin, hmax⟩
    have hwithin := h.within
    have hwide : IntegerType.wide.wrap n = n :=
      IntegerType.wide_wrap_of_mem hwidth (Int.le_trans hwithin.1 hmin)
        (Int.le_trans hmax hwithin.2)
    rw [hwide, clamped_of_mem hmin hmax]

end IntegerRange

end BitLayout
