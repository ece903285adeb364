import BitLayout.Code.Statement
import BitLayout.Proofs.Code.Formulas

/-!
# BitLayout.Proofs.Strict.Integers

Integers in machine arithmetic. The definitions that run compute with integers of any size. Checking
a range and the formulas of the code have 128 bits only, and the word that a number travels in may
have fewer. Here a strict computation has no result as soon as a number is none of the type that it
is computed in:

```
1 << (bits - 1)      -half      half - 1      max - min           when a range is checked
v as i128      clamp(v) - min      .. as u8      w + min          when a value is moved
```

Nothing of this comes up for an integer type of at most 64 bits, since a range is not measured
before it is known to lie within the type.

Main statement: `IntegerRange.accepted_and_kept`.
-/

namespace BitLayout

namespace IntegerType

variable {t : IntegerType} {n m : Int}

/-- The type that a range is measured in. -/
def measure : IntegerType := ⟨false, 128, [.ident "u128"]⟩

/-- A number, if it is one of the type. -/
def exact (t : IntegerType) (n : Int) : Option Int := if t.wrap n = n then some n else none

theorem exact_of_wrap (h : t.wrap n = n) : t.exact n = some n := if_pos h

/-- A number of the type is kept by a cast to it. -/
theorem wrap_of_exact (h : t.exact n = some m) : n = m ∧ t.wrap n = m := by
  unfold exact at h
  split at h
  · next hwrap =>
    obtain rfl := Option.some.inj h
    exact ⟨rfl, hwrap⟩
  · cases h

/-- What a cast makes of a number is a number of the type. -/
theorem wrap_mem (hpos : 0 < t.bits) (n : Int) :
    (IntegerRange.natural t.signed t.bits).min ≤ t.wrap n ∧
      t.wrap n ≤ (IntegerRange.natural t.signed t.bits).max := by
  have hpatterns := patterns_pos t.bits
  unfold IntegerRange.natural IntegerRange.representable wrap
  cases t.signed with
  | true =>
    have hdouble := IntegerRange.patterns_eq_double hpos
    have hlow := Int.le_bmod (x := n) hpatterns
    have hhigh := Int.bmod_lt (x := n) hpatterns
    simp only [if_true]
    omega
  | false =>
    have hne : (patterns t.bits : Int) ≠ 0 := by omega
    have hlow := Int.emod_nonneg n hne
    have hhigh := Int.emod_lt_of_pos n (b := patterns t.bits) (by omega)
    simp only [Bool.false_eq_true, if_false]
    omega

/-- A type has the numbers from its least to its largest. -/
theorem exact_eq_some_iff (hpos : 0 < t.bits) : t.exact n = some n ↔
    (IntegerRange.natural t.signed t.bits).min ≤ n ∧
      n ≤ (IntegerRange.natural t.signed t.bits).max := by
  constructor
  · intro h
    rw [← (wrap_of_exact h).2]
    exact wrap_mem hpos n
  · rintro ⟨hmin, hmax⟩
    exact exact_of_wrap (wrap_of_mem hpos hmin hmax)

/-- Numbers up to the patterns of 64 bits are computed exactly. -/
theorem wide_exact (hmin : -(patterns 64 : Int) ≤ n) (hmax : n ≤ patterns 64) :
    wide.exact n = some n := by
  have hwide : (patterns 64 : Int) < patterns 127 := by decide
  refine (exact_eq_some_iff (t := wide) (by decide)).2 ⟨?_, ?_⟩
  · show -(patterns 127 : Int) ≤ n
    omega
  · show n ≤ (patterns 127 : Int) - 1
    omega

/-- And so are lengths. -/
theorem measure_exact (hmin : 0 ≤ n) (hmax : n ≤ patterns 64) : measure.exact n = some n := by
  have hmeasure : (patterns 64 : Int) < patterns 128 := by decide
  refine (exact_eq_some_iff (t := measure) (by decide)).2 ⟨hmin, ?_⟩
  show n ≤ (patterns 128 : Int) - 1
  omega

end IntegerType

/-! ## checking a range -/

namespace Strict

open IntegerType

variable {signed : Bool} {width bits : Nat}

/-- All values that so many bits can show. -/
def representable (signed : Bool) (bits : Nat) : Option IntegerRange :=
  if signed then
    if bits = 0 then none
    else do
      let half ← wide.exact (patterns (bits - 1))
      let min ← wide.exact (-half)
      let max ← wide.exact (half - 1)
      return ⟨bits, min, max⟩
  else do
    let all ← wide.exact (patterns bits)
    let max ← wide.exact (all - 1)
    return ⟨bits, 0, max⟩

/-- The fewest bits that a range needs. -/
def needed (min max : Int) : Option Nat := do
  let length ← wide.exact (max - min)
  let length ← measure.exact length
  return Nat.max 1 (bitLength length.toNat)

/-- The range of an integer type under the bits and the range asked for. -/
def integerRange (signed : Bool) (width : Nat) (bits : Option Nat) (range : Option (Int × Int)) :
    Option (Except IntegerError IntegerRange) :=
  match bits.filter fun b => b = 0 || b > width with
  | some b => some (.error (.bitsOutOfRange b width))
  | none =>
    match range with
    | none => (representable signed (bits.getD width)).map .ok
    | some (min, max) =>
      if min > max then some (.error (.reversed min max))
      else do
        let all ← representable signed width
        if min < all.min ∨ max > all.max then
          return .error (.outsideType min max all.min all.max)
        let few ← needed min max
        match bits with
        | some b =>
          if b < few then return .error (.tooFewBits b min max few) else return .ok ⟨b, min, max⟩
        | none => return .ok ⟨few, min, max⟩

/-- The ends of what at most 64 bits can show are computed exactly. -/
theorem representable_eq (hpos : 0 < bits) (hbits : bits ≤ 64) :
    representable signed bits = some (IntegerRange.representable signed bits) := by
  have hall : patterns bits ≤ patterns 64 := patterns_le_patterns hbits
  have hallpos := patterns_pos bits
  unfold representable IntegerRange.representable
  cases signed with
  | true =>
    have hhalf : patterns (bits - 1) ≤ patterns 64 := patterns_le_patterns (by omega)
    have hhalfpos := patterns_pos (bits - 1)
    rw [if_pos rfl, if_pos rfl, if_neg (Nat.ne_of_gt hpos), wide_exact (by omega) (by omega)]
    simp only [Option.bind_eq_bind, Option.bind_some]
    rw [wide_exact (by omega) (by omega), Option.bind_some, wide_exact (by omega) (by omega)]
    rfl
  | false =>
    rw [if_neg Bool.false_ne_true, if_neg Bool.false_ne_true, wide_exact (by omega) (by omega)]
    simp only [Option.bind_eq_bind, Option.bind_some]
    rw [wide_exact (by omega) (by omega)]
    rfl

/-- The length of a range within a type of at most 64 bits is computed exactly. -/
theorem needed_eq {min max : Int} (hpos : 0 < width) (hwidth : width ≤ 64) (hle : min ≤ max)
    (hmin : (IntegerRange.natural signed width).min ≤ min)
    (hmax : max ≤ (IntegerRange.natural signed width).max) :
    needed min max = some (Nat.max 1 (bitLength (max - min).toNat)) := by
  have hspan := IntegerRange.natural_span signed hpos
  have hall : patterns width ≤ patterns 64 := patterns_le_patterns hwidth
  rw [needed, wide_exact (by omega) (by omega), Option.bind_eq_bind, Option.bind_some,
    measure_exact (by omega) (by omega)]
  rfl

/-- Checking what is asked of an integer type never leaves the 128 bits. -/
theorem integerRange_eq (hpos : 0 < width) (hwidth : width ≤ 64) (bits : Option Nat)
    (range : Option (Int × Int)) : integerRange signed width bits range =
      some (IntegerRange.ofRequest signed width bits range) := by
  unfold integerRange IntegerRange.ofRequest
  cases hfilter : bits.filter fun b => b = 0 || b > width with
  | some b => rfl
  | none =>
    have hcount := IntegerRange.filter_bits_eq_none_iff.1 hfilter
    cases range with
    | none =>
      obtain ⟨hbits, hle⟩ := IntegerRange.getD_bits_mem hpos hcount
      simp only [representable_eq hbits (Nat.le_trans hle hwidth), Option.map_some]
    | some ends =>
      obtain ⟨min, max⟩ := ends
      dsimp only
      -- The ends are compared with each other and with the type before the range is measured.
      by_cases hreversed : min > max
      · rw [if_pos hreversed, if_pos hreversed]
      rw [if_neg hreversed, if_neg hreversed, representable_eq hpos hwidth, Option.bind_eq_bind,
        Option.bind_some]
      by_cases houtside : min < (IntegerRange.natural signed width).min ∨
          max > (IntegerRange.natural signed width).max
      · rw [if_pos houtside]
        exact if_pos houtside
      have hneeded := needed_eq hpos hwidth (Int.not_lt.1 hreversed)
        (Int.not_lt.1 fun h => houtside (.inl h)) (Int.not_lt.1 fun h => houtside (.inr h))
      rw [if_neg houtside]
      refine (if_neg houtside).trans ?_
      rw [hneeded, Option.bind_eq_bind, Option.bind_some]
      cases bits with
      | none => rfl
      | some b => exact (apply_ite some ..).symm

end Strict

/-! ## moving a value -/

namespace Formula

open IntegerType

variable {signed : Bool} {width : Nat} {r : IntegerRange} {name : Tokens} {n : Int}

/-- The value of a formula on an operand, if all numbers in it are numbers of their types. -/
def exact (operand : Int) : Formula → Option Int
  | .operand => some operand
  | grouped f => f.exact operand
  | cast f type => (f.exact operand).bind type.exact
  | plus f n => (f.exact operand).bind fun a => wide.exact (a + n)
  | minus f n => (f.exact operand).bind fun a => wide.exact (a - n)
  | clamp f min max =>
    if min ≤ max then (f.exact operand).map fun a => Max.max min (Min.min max a) else none

/-- A formula that has a strict value has this value. -/
theorem eval_of_exact {operand : Int} {f : Formula} (h : f.exact operand = some n) :
    f.eval operand = n := by
  induction f generalizing n with
  | operand => exact Option.some.inj h
  | grouped f ih => exact ih h
  | cast f type ih =>
    obtain ⟨a, ha, hn⟩ := Option.bind_eq_some_iff.1 h
    rw [eval, ih ha]
    exact (wrap_of_exact hn).2
  | plus f m ih =>
    obtain ⟨a, ha, hn⟩ := Option.bind_eq_some_iff.1 h
    rw [eval, ih ha]
    exact (wrap_of_exact hn).1
  | minus f m ih =>
    obtain ⟨a, ha, hn⟩ := Option.bind_eq_some_iff.1 h
    rw [eval, ih ha]
    exact (wrap_of_exact hn).1
  | clamp f min max ih =>
    simp only [exact] at h
    split at h
    · obtain ⟨a, ha, rfl⟩ := Option.map_eq_some_iff.1 h
      rw [eval, ih ha]
    · cases h

/-- A value of a type is led to the wire exactly. -/
theorem exact_toWire (h : r.Valid signed width) (hwidth : width ≤ 64)
    (hmin : (IntegerRange.natural signed width).min ≤ n)
    (hmax : n ≤ (IntegerRange.natural signed width).max) :
    (toWire r).exact n = some (r.clamped n - r.min) := by
  have hmem := toWire_mem h n
  have hbits : r.bits ≤ 64 := Nat.le_trans h.bits_le hwidth
  have hpatterns : patterns r.bits ≤ patterns 64 := patterns_le_patterns hbits
  have hwide : wide.exact n = some n := exact_of_wrap (wide_wrap_of_mem hwidth hmin hmax)
  have hminus : wide.exact (r.clamped n - r.min) = some (r.clamped n - r.min) :=
    wide_exact (by omega) (by omega)
  have hword : (ofCarrier (.ofBits r.bits)).exact (r.clamped n - r.min) =
      some (r.clamped n - r.min) := exact_of_wrap (wrap_ofCarrier hbits hmem.1 hmem.2)
  simp only [toWire, exact, Option.bind_some, hwide, if_pos h.ordered, Option.map_some]
  rw [← IntegerRange.clamped, hminus, Option.bind_some, hword]

/-- A number on the wire that is in the range is led back exactly. -/
theorem exact_fromWire (h : r.Valid signed width) (hwidth : width ≤ 64) {w : Int} (hw : 0 ≤ w)
    (hmax : w ≤ r.max - r.min) :
    (fromWire r ⟨signed, width, name⟩).exact w = some (w + r.min) := by
  have hpos : 0 < width := Nat.lt_of_lt_of_le h.pos h.bits_le
  have hwithin := h.within
  have hreach := h.reach
  have hpatterns : patterns r.bits ≤ patterns 64 :=
    patterns_le_patterns (Nat.le_trans h.bits_le hwidth)
  have hmin : (IntegerRange.natural signed width).min ≤ w + r.min := by omega
  have hle : w + r.min ≤ (IntegerRange.natural signed width).max := by omega
  have hwide : wide.exact w = some w := wide_exact (by omega) (by omega)
  have hplus : wide.exact (w + r.min) = some (w + r.min) :=
    exact_of_wrap (wide_wrap_of_mem hwidth hmin hle)
  have htype : IntegerType.exact ⟨signed, width, name⟩ (w + r.min) = some (w + r.min) :=
    exact_of_wrap (wrap_of_mem hpos hmin hle)
  simp only [fromWire, exact, Option.bind_some, hwide, hplus, htype]

end Formula

namespace IntegerRange

open Phrase

variable {signed : Bool} {width : Nat} {r : IntegerRange} {v : Int}

/-- A word of the stream that the statements for an integer use: they call the function for this
word, and what is saved is cast to its type. -/
structure Uses (r : IntegerRange) (type : IntegerType) (word : Carrier) : Prop where
  save : ∀ fns place, (Move.integer place r type).tokens fns .save = statement
    (call (word.function fns) [streamWord, (Formula.toWire r).tokens place.value, number r.bits])
  read : ∀ fns place, (Move.integer place r type).tokens fns .read = place.assign
    ((Formula.fromWire r type).tokens (call (word.function fns) [streamWord, number r.bits]))
  cast : ∃ f, Formula.toWire r = .cast f (.ofCarrier word)

/-- A value of an integer type on its way to the wire and back, under a range. -/
structure Travels (r : IntegerRange) (type : IntegerType) (word : Carrier) (v : Int) : Prop where
  /-- What is saved fits into the bits of the range. -/
  bits : 0 ≤ r.clamped v - r.min ∧ r.clamped v - r.min < patterns r.bits
  /-- It fits into the word. -/
  fits : r.clamped v - r.min < patterns word.bits
  /-- Nothing is cut off on the way there. -/
  saved : (Formula.toWire r).exact v = some (r.clamped v - r.min)
  /-- Nothing is cut off on the way back. -/
  read : (Formula.fromWire r type).exact (r.clamped v - r.min) = some (r.clamped v)
  /-- So the nearest value in the range comes back from the bits that the stream moves. -/
  restored : r.restored type v = r.clamped v
  /-- This is the value itself, if it is in the range. -/
  kept : r.min ≤ v → v ≤ r.max → r.clamped v = v

/-- Every value of an integer type travels under a valid range. -/
theorem Valid.travels (h : r.Valid signed width) (hwidth : width ≤ 64) (name : Tokens)
    (hmin : (natural signed width).min ≤ v) (hmax : v ≤ (natural signed width).max) :
    r.Travels ⟨signed, width, name⟩ (.ofBits r.bits) v := by
  have hmem := Formula.toWire_mem h v
  have hclamped := clamped_mem h.ordered v
  have hword : patterns r.bits ≤ patterns (Carrier.ofBits r.bits).bits :=
    patterns_le_patterns (Carrier.le_bits_ofBits (Nat.le_trans h.bits_le hwidth))
  have hsaved := Formula.exact_toWire h hwidth hmin hmax
  have hread : (Formula.fromWire r ⟨signed, width, name⟩).exact (r.clamped v - r.min) =
      some (r.clamped v) := by
    rw [Formula.exact_fromWire h hwidth hmem.1 (by omega), Int.sub_add_cancel]
  have hrestored : r.restored ⟨signed, width, name⟩ v = r.clamped v := by
    rw [restored, Formula.eval_of_exact hsaved, Int.emod_eq_of_lt hmem.1 hmem.2,
      Formula.eval_of_exact hread]
  exact ⟨hmem, by omega, hsaved, hread, hrestored, clamped_of_mem⟩

/-- **Integers are checked exactly, and survive the wire.** An integer type accepts exactly the
admissible requests, and no computation in the check overflows. An accepted request gets the chosen
range, and under this range every value of the type travels, in the word that the statements use. -/
theorem accepted_and_kept (signed : Bool) {width : Nat} (hpos : 0 < width) (hwidth : width ≤ 64)
    (bits : Option Nat) (range : Option (Int × Int)) :
    ((∃ r, ofRequest signed width bits range = .ok r) ↔ Admissible signed width bits range) ∧
    Strict.integerRange signed width bits range = some (ofRequest signed width bits range) ∧
    ∀ r, ofRequest signed width bits range = .ok r →
      Chosen signed width bits range r ∧
      ∀ name, ∃ word, r.Uses ⟨signed, width, name⟩ word ∧
        ∀ v, (natural signed width).min ≤ v → v ≤ (natural signed width).max →
          r.Travels ⟨signed, width, name⟩ word v := by
  refine ⟨isOk_ofRequest_iff, Strict.integerRange_eq hpos hwidth bits range, fun r hr => ?_⟩
  have hvalid := valid_of_ofRequest hpos hr
  refine ⟨(ofRequest_eq_ok_iff.1 hr).2, fun name => ⟨.ofBits r.bits, ?_, fun v hmin hmax => ?_⟩⟩
  · exact ⟨fun _ _ => rfl, fun _ _ => rfl, _, rfl⟩
  · exact hvalid.travels hwidth name hmin hmax

end IntegerRange

namespace Sample

/-- All numbers of 64 bits with a sign need 64 bits; halfway between the ends, minus one is saved as
the largest of 63 bits. -/
theorem widest_kept : ∃ r word,
    IntegerRange.ofRequest true 64 none (some (-9223372036854775808, 9223372036854775807)) = .ok r ∧
    r.bits = 64 ∧ r.Uses ⟨true, 64, Phrase.word "i64"⟩ word ∧
    r.Travels ⟨true, 64, Phrase.word "i64"⟩ word (-1) ∧
    (Formula.toWire r).exact (-1) = some 9223372036854775807 ∧ r.clamped (-1) = -1 := by
  have hr : IntegerRange.ofRequest true 64 none
      (some (-9223372036854775808, 9223372036854775807)) =
      .ok ⟨64, -9223372036854775808, 9223372036854775807⟩ := by decide
  obtain ⟨-, -, haccepted⟩ := @IntegerRange.accepted_and_kept true 64 (by decide) (by decide) none
    (some (-9223372036854775808, 9223372036854775807))
  obtain ⟨-, hkept⟩ := haccepted _ hr
  obtain ⟨word, huses, htravels⟩ := hkept (Phrase.word "i64")
  have hminus := htravels (-1) (by decide) (by decide)
  exact ⟨_, word, hr, rfl, huses, hminus, hminus.saved, by decide⟩

end Sample

end BitLayout
