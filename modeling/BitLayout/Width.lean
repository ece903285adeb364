/-!
# BitLayout.Width

How far so many bits reach: the number of their patterns, and how many bits a number needs. A number
fits into some bits exactly if it needs no more than these (`lt_patterns_iff`).
-/

namespace BitLayout

/-- The number of patterns of so many bits. -/
def patterns (bits : Nat) : Nat := Nat.pow 2 bits

/-- The fewest bits in which a number can be written; none for zero. -/
def bitLength (n : Nat) : Nat := if n = 0 then 0 else n.log2 + 1

@[simp] theorem patterns_zero : patterns 0 = 1 := rfl

theorem patterns_succ (bits : Nat) : patterns (bits + 1) = patterns bits * 2 :=
  Nat.pow_succ 2 bits

theorem patterns_pos (bits : Nat) : 0 < patterns bits := Nat.two_pow_pos bits

theorem patterns_le_patterns {a b : Nat} (h : a ≤ b) : patterns a ≤ patterns b :=
  Nat.pow_le_pow_right Nat.two_pos h

theorem lt_patterns_iff {n bits : Nat} : n < patterns bits ↔ bitLength n ≤ bits := by
  unfold bitLength
  split
  · next h =>
    subst h
    exact ⟨fun _ => Nat.zero_le _, fun _ => patterns_pos bits⟩
  · next h =>
    rw [Nat.succ_le_iff]
    exact (Nat.log2_lt h).symm

end BitLayout
