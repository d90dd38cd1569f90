import Mathlib.Data.Nat.Bitwise
import Mathlib.Algebra.Order.Ring.Nat
import Mathlib.Tactic.NormNum

/-!
# Rounding of machine words

`x &&& ~~~(m - 1)` is the C idiom for rounding `x` down to a multiple of a power of two `m`, and
`(x + m - 1) &&& ~~~(m - 1)` the one for rounding up. These lemmas read both as arithmetic of
natural numbers.
-/

namespace UInt64

theorem lt_of_toNat_eq_two_pow {m : UInt64} {k : Nat} (h : m.toNat = 2 ^ k) : k < 64 := by
  have hm := m.toNat_lt
  rw [h] at hm
  exact (Nat.pow_lt_pow_iff_right (by norm_num)).1 hm

theorem one_le_of_toNat_eq_two_pow {m : UInt64} {k : Nat} (h : m.toNat = 2 ^ k) : 1 ≤ m := by
  rw [UInt64.le_iff_toNat_le, h]; exact Nat.one_le_two_pow

/-- Masking with the complement of `m - 1` rounds down to a multiple of a power of two `m`. -/
theorem toNat_and_not_sub_one {x m : UInt64} {k : Nat} (h : m.toNat = 2 ^ k) :
    (x &&& ~~~(m - 1)).toNat = x.toNat / m.toNat * m.toNat := by
  have hk := lt_of_toNat_eq_two_pow h
  have hm : (m - 1).toNat = 2 ^ k - 1 := by
    rw [UInt64.toNat_sub_of_le _ _ (one_le_of_toNat_eq_two_pow h), h]; rfl
  have hlt : 2 ^ k < 2 ^ 64 := Nat.pow_lt_pow_right (by norm_num) hk
  rw [h, ← Nat.shiftRight_eq_div_pow, ← Nat.shiftLeft_eq]
  apply Nat.eq_of_testBit_eq
  intro i
  rw [UInt64.toNat_and, UInt64.toNat_not, hm, Nat.testBit_and, Nat.testBit_shiftLeft,
    Nat.testBit_shiftRight]
  by_cases hi : i < 64
  · have hb : (UInt64.size - 1 - (2 ^ k - 1)).testBit i = !decide (i < k) := by
      have hsub : UInt64.size - 1 - (2 ^ k - 1) = 2 ^ 64 - (2 ^ k - 1 + 1) := by
        simp only [UInt64.size]; omega
      rw [hsub, Nat.testBit_two_pow_sub_succ (by omega), Nat.testBit_two_pow_sub_one]
      simp [hi]
    rw [hb]
    by_cases hik : k ≤ i
    · simp [hik, Nat.add_sub_cancel' hik]
    · simp [hik, Nat.lt_of_not_le hik]
  · have hx : x.toNat.testBit i = false :=
      Nat.testBit_lt_two_pow
        (lt_of_lt_of_le x.toNat_lt (Nat.pow_le_pow_right (by norm_num) (by omega)))
    by_cases hik : k ≤ i
    · simp [hx, Nat.add_sub_cancel' hik]
    · simp [hx, hik]

/-- Rounding up to a multiple of a power of two, when the sum does not wrap. -/
theorem toNat_add_sub_one_and_not {x m : UInt64} {k : Nat} (h : m.toNat = 2 ^ k)
    (hx : x.toNat + m.toNat - 1 < 2 ^ 64) :
    ((x + m - 1) &&& ~~~(m - 1)).toNat = (x.toNat + m.toNat - 1) / m.toNat * m.toNat := by
  have hm := one_le_of_toNat_eq_two_pow h
  rw [UInt64.le_iff_toNat_le] at hm
  have hsum : (x + m - 1).toNat = x.toNat + m.toNat - 1 := by
    have h1 : (1 : UInt64).toNat = 1 := rfl
    rw [UInt64.toNat_sub, UInt64.toNat_add, h1]
    have := x.toNat_lt
    have := m.toNat_lt
    omega
  rw [toNat_and_not_sub_one h, hsum]

/-- Masking with the complement of `y` takes the bits of `y` away. -/
theorem toNat_and_not (x y : UInt64) : (x &&& ~~~y).toNat = x.toNat - (x.toNat &&& y.toNat) := by
  have hsum : (x &&& ~~~y) + (x &&& y) = x := by
    apply UInt64.toBitVec_inj.1
    rw [UInt64.toBitVec_add, UInt64.toBitVec_and, UInt64.toBitVec_and, UInt64.toBitVec_not,
      BitVec.add_eq_or_of_and_eq_zero]
    · ext i hi
      simp only [BitVec.getElem_or, BitVec.getElem_and, BitVec.getElem_not]
      cases x.toBitVec[i] <;> cases y.toBitVec[i] <;> rfl
    · ext i hi
      simp only [BitVec.getElem_and, BitVec.getElem_not, BitVec.getElem_zero]
      cases x.toBitVec[i] <;> cases y.toBitVec[i] <;> rfl
  rw [UInt64.eq_sub_iff_add_eq.2 hsum, UInt64.toNat_sub_of_le _ _ (UInt64.le_iff_toNat_le.2 ?_),
    UInt64.toNat_and]
  rw [UInt64.toNat_and]
  exact Nat.and_le_left

end UInt64
