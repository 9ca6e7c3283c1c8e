import Mathlib.Tactic

/-! Numbers that agree in their leading bits. The numbers below `2 ^ width` that share
their first `bits` bits with an aligned one are a block that begins with it, and of two
blocks with a common number one begins inside the other. -/

namespace BtServer.Lib

/-- Bit `i` of a number of `width` bits, the most significant one being bit 0. -/
def leadingBit (width n i : Nat) : Bool := n.testBit (width - 1 - i)

/-- Two numbers agree in their first `bits` bits. -/
def Agree (width bits m n : Nat) : Prop := ∀ i < bits, leadingBit width m i = leadingBit width n i

/-- All bits of a number from `bits` on are zero. -/
def Aligned (width bits n : Nat) : Prop := ∀ i, bits ≤ i → i < width → leadingBit width n i = false

section
variable {width bits m n : Nat}

theorem agree_iff (short : bits ≤ width) (smallM : m < 2 ^ width) (smallN : n < 2 ^ width) :
    Agree width bits m n ↔ m / 2 ^ (width - bits) = n / 2 ^ (width - bits) := by
  have shifted : ∀ k j, (k / 2 ^ (width - bits)).testBit j = k.testBit (width - bits + j) := by
    intro k j
    rw [Nat.testBit_div_two_pow, Nat.add_comm]
  constructor
  · intro agree
    apply Nat.eq_of_testBit_eq
    intro j
    rw [shifted, shifted]
    by_cases inside : j < bits
    · have same := agree (bits - 1 - j) (by omega)
      rwa [leadingBit, leadingBit, show width - 1 - (bits - 1 - j) = width - bits + j by omega] at same
    · have high : 2 ^ width ≤ 2 ^ (width - bits + j) := Nat.pow_le_pow_right (by decide) (by omega)
      rw [Nat.testBit_lt_two_pow (by omega), Nat.testBit_lt_two_pow (by omega)]
  · intro same i inside
    have bit := congrArg (fun k => k.testBit (bits - 1 - i)) same
    simp only [shifted] at bit
    rwa [leadingBit, leadingBit, show width - 1 - i = width - bits + (bits - 1 - i) by omega]

theorem aligned_iff (short : bits ≤ width) : Aligned width bits n ↔ n % 2 ^ (width - bits) = 0 := by
  constructor
  · intro aligned
    apply Nat.eq_of_testBit_eq
    intro j
    rw [Nat.testBit_mod_two_pow, Nat.zero_testBit]
    by_cases inside : j < width - bits
    · have zero := aligned (width - 1 - j) (by omega) (by omega)
      rw [leadingBit, show width - 1 - (width - 1 - j) = j by omega] at zero
      rw [zero, Bool.and_false]
    · simp [inside]
  · intro zero i low high
    have bit := congrArg (fun k => k.testBit (width - 1 - i)) zero
    simp only [Nat.testBit_mod_two_pow, Nat.zero_testBit, Bool.and_eq_false_iff, decide_eq_false_iff_not] at bit
    exact bit.resolve_left (by omega)

end

section
variable {size first n : Nat}

theorem div_eq_iff_block (positive : 0 < size) (aligned : first % size = 0) :
    n / size = first / size ↔ first ≤ n ∧ n < first + size := by
  obtain ⟨q, rfl⟩ := Nat.dvd_of_mod_eq_zero aligned
  rw [Nat.mul_div_cancel_left _ positive, Nat.div_eq_iff positive, Nat.mul_comm q]
  omega

end

theorem blocks_meet {i j first second n : Nat} (inFirst : n / 2 ^ i = first / 2 ^ i) (inSecond : n / 2 ^ j = second / 2 ^ j) :
    second / 2 ^ i = first / 2 ^ i ∨ first / 2 ^ j = second / 2 ^ j := by
  rcases Nat.le_total j i with less | less
  · left
    obtain ⟨k, rfl⟩ := Nat.exists_eq_add_of_le less
    rw [Nat.pow_add, ← Nat.div_div_eq_div_mul, ← inSecond, Nat.div_div_eq_div_mul, ← Nat.pow_add, inFirst]
  · right
    obtain ⟨k, rfl⟩ := Nat.exists_eq_add_of_le less
    rw [Nat.pow_add, ← Nat.div_div_eq_div_mul, ← inFirst, Nat.div_div_eq_div_mul, ← Nat.pow_add, inSecond]

end BtServer.Lib
