import ShieldLoader.Printf.Defs
import Mathlib.Data.Nat.Digits.Lemmas

/-!
# Decimal digits

`put_dec` divides by ten with multiplications and shifts, and takes five digits at a time. What it
leaves are the decimal digits of the number.
-/

namespace ShieldLoader

/-- The character of a decimal digit. -/
def digitByte (i : Nat) : UInt8 := UInt8.ofNat (48 + i)

theorem digits_ten (n : Nat) :
    Nat.digits 10 n = if n = 0 then [] else n % 10 :: Nat.digits 10 (n / 10) := by
  split
  · next h => rw [h, Nat.digits_zero]
  · next h => exact Nat.digits_def' (by decide) (Nat.pos_of_ne_zero h)

section
variable {d d0 d1 d2 d3 q : UInt32}

/-! ### Division by ten -/

theorem div_ten (h : d.toNat < 400) : ((d * 0xcd) >>> 11 : UInt32).toNat = d.toNat / 10 := by
  rw [UInt32.toNat_shiftRight, UInt32.toNat_mul, show (11 : UInt32).toNat % 32 = 11 from rfl,
    show (0xcd : UInt32).toNat = 0xcd from rfl, Nat.shiftRight_eq_div_pow,
    Nat.mod_eq_of_lt (by omega)]
  omega

theorem mod_ten (h : d.toNat < 400) :
    (d - (10 : UInt32) * ((d * 0xcd) >>> 11) : UInt32).toNat = d.toNat % 10 := by
  have hmul : ((10 : UInt32) * ((d * 0xcd) >>> 11)).toNat = 10 * (d.toNat / 10) := by
    rw [UInt32.toNat_mul, div_ten h, show (10 : UInt32).toNat = 10 from rfl,
      Nat.mod_eq_of_lt (by omega)]
  rw [UInt32.toNat_sub_of_le _ _ (by rw [UInt32.le_iff_toNat_le, hmul]; omega), hmul]
  omega

/-- With a smaller factor, for smaller numbers. -/
theorem div_ten_small (h : d.toNat < 69) : ((d * 0xd) >>> 7 : UInt32).toNat = d.toNat / 10 := by
  rw [UInt32.toNat_shiftRight, UInt32.toNat_mul, show (7 : UInt32).toNat % 32 = 7 from rfl,
    show (0xd : UInt32).toNat = 0xd from rfl, Nat.shiftRight_eq_div_pow,
    Nat.mod_eq_of_lt (by omega)]
  omega

theorem mod_ten_small (h : d.toNat < 69) :
    (d - (10 : UInt32) * ((d * 0xd) >>> 7) : UInt32).toNat = d.toNat % 10 := by
  have hmul : ((10 : UInt32) * ((d * 0xd) >>> 7)).toNat = 10 * (d.toNat / 10) := by
    rw [UInt32.toNat_mul, div_ten_small h, show (10 : UInt32).toNat = 10 from rfl,
      Nat.mod_eq_of_lt (by omega)]
  rw [UInt32.toNat_sub_of_le _ _ (by rw [UInt32.le_iff_toNat_le, hmul]; omega), hmul]
  omega

theorem digitByte_eq {x : Nat} (h : d.toNat = x) :
    (d + '0'.toNat.toUInt32).toUInt8 = digitByte x := by
  rw [← UInt8.toNat_inj, UInt32.toNat_toUInt8, UInt32.toNat_add, h, digitByte, UInt8.toNat_ofNat']
  show (x + 48) % 2 ^ 32 % 2 ^ 8 = _
  omega

theorem toNat_eq_zero : d = 0 ↔ d.toNat = 0 := by
  rw [← UInt32.toNat_inj]
  rfl

/-! ### Five digits -/

/-- The parts of a number of five digits, as the code takes them. -/
structure DecParts (q : Nat) (d0 d1 d2 d3 : UInt32) : Prop where
  eq : q + 6 * (d3.toNat + d2.toNat + d1.toNat) =
    4096 * d3.toNat + 256 * d2.toNat + 16 * d1.toNat + d0.toNat
  le_d0 : 6 * (d3.toNat + d2.toNat + d1.toNat) ≤ d0.toNat
  d0_lt : d0.toNat < 6 * (d3.toNat + d2.toNat + d1.toNat) + 16
  d1_lt : d1.toNat < 16
  d2_lt : d2.toNat < 16
  lt : q < 100000

theorem decParts (h : q.toNat < 100000) :
    DecParts q.toNat
      ((6 : UInt32) * (q >>> 12 + ((q >>> 8) &&& (0xf : UInt32)) + ((q >>> 4) &&& (0xf : UInt32))) +
        (q &&& (0xf : UInt32)))
      ((q >>> 4) &&& (0xf : UInt32)) ((q >>> 8) &&& (0xf : UInt32)) (q >>> 12) := by
  have hand (x : UInt32) : (x &&& (0xf : UInt32)).toNat = x.toNat % 16 := by
    rw [UInt32.toNat_and]
    exact Nat.and_two_pow_sub_one_eq_mod _ 4
  have h4 : (q >>> (4 : UInt32)).toNat = q.toNat / 16 := by
    rw [UInt32.toNat_shiftRight, Nat.shiftRight_eq_div_pow]
    rfl
  have h8 : (q >>> (8 : UInt32)).toNat = q.toNat / 16 / 16 := by
    rw [UInt32.toNat_shiftRight, Nat.shiftRight_eq_div_pow, Nat.div_div_eq_div_mul]
    rfl
  have h12 : (q >>> (12 : UInt32)).toNat = q.toNat / 16 / 16 / 16 := by
    rw [UInt32.toNat_shiftRight, Nat.shiftRight_eq_div_pow, Nat.div_div_eq_div_mul,
      Nat.div_div_eq_div_mul]
    rfl
  have h6 : (6 : UInt32).toNat = 6 := rfl
  refine ⟨?_, ?_, ?_, ?_, ?_, h⟩
  all_goals
    simp only [UInt32.toNat_add, UInt32.toNat_mul, hand, h4, h8, h12, h6]
    omega

namespace DecParts

variable {q : Nat} (hp : DecParts q d0 d1 d2 d3)
include hp

theorem first : d0.toNat % 10 = q % 10 ∧ d0.toNat < 400 := by
  obtain ⟨heq, hle, h0, h1, h2, hlt⟩ := hp
  omega

theorem second :
    ((d0 * 0xcd) >>> 11 + 9 * d3 + 5 * d2 + d1 : UInt32).toNat + 400 * d3.toNat + 20 * d2.toNat =
      q / 10 := by
  have hten := div_ten hp.first.2
  obtain ⟨heq, hle, h0, h1, h2, hlt⟩ := hp
  simp only [UInt32.toNat_add, UInt32.toNat_mul, hten, show (9 : UInt32).toNat = 9 from rfl,
    show (5 : UInt32).toNat = 5 from rfl]
  omega

theorem third (h : d.toNat + 400 * d3.toNat + 20 * d2.toNat = q / 10) (hd : d.toNat < 400) :
    ((d * 0xcd) >>> 11 + 2 * d2 : UInt32).toNat + 40 * d3.toNat = q / 10 / 10 := by
  have hten := div_ten hd
  have hdiv : q / 10 / 10 = d.toNat / 10 + 2 * d2.toNat + 40 * d3.toNat := by
    rw [← h]
    omega
  obtain ⟨heq, hle, h0, h1, h2, hlt⟩ := hp
  simp only [UInt32.toNat_add, UInt32.toNat_mul, hten, show (2 : UInt32).toNat = 2 from rfl]
  omega

theorem fourth (h : d.toNat + 40 * d3.toNat = q / 10 / 10) (hd : d.toNat < 69) :
    ((d * 0xd) >>> 7 + 4 * d3 : UInt32).toNat = q / 10 / 10 / 10 := by
  have hten := div_ten_small hd
  have hdiv : q / 10 / 10 / 10 = d.toNat / 10 + 4 * d3.toNat := by
    rw [← h]
    omega
  obtain ⟨heq, hle, h0, h1, h2, hlt⟩ := hp
  simp only [UInt32.toNat_add, UInt32.toNat_mul, hten, show (4 : UInt32).toNat = 4 from rfl]
  omega

theorem second_mod (h : d.toNat + 400 * d3.toNat + 20 * d2.toNat = q / 10) :
    d.toNat < 400 ∧ d.toNat % 10 = q / 10 % 10 := by
  obtain ⟨heq, hle, h0, h1, h2, hlt⟩ := hp
  omega

theorem third_mod (h : d.toNat + 40 * d3.toNat = q / 10 / 10) :
    d.toNat < 69 ∧ d.toNat % 10 = q / 10 / 10 % 10 := by
  obtain ⟨heq, hle, h0, h1, h2, hlt⟩ := hp
  omega

theorem second_eq_zero (h : d.toNat + 400 * d3.toNat + 20 * d2.toNat = q / 10) :
    d.toNat = 0 ↔ q / 10 = 0 := by
  obtain ⟨heq, hle, h0, h1, h2, hlt⟩ := hp
  omega

theorem fourth_lt (h : d.toNat = q / 10 / 10 / 10) : d.toNat < 400 := by
  have hlt := hp.lt
  omega

end DecParts

/-- `put_dec_full` leaves five digits. -/
theorem putDecFull_eq (h : q.toNat < 100000) :
    putDecFull q = [q.toNat % 10, q.toNat / 10 % 10, q.toNat / 10 / 10 % 10,
      q.toNat / 10 / 10 / 10 % 10, q.toNat / 10 / 10 / 10 / 10].map digitByte := by
  have hp := decParts h
  have h2 := hp.second
  have h2' := hp.second_mod h2
  have h3 := hp.third h2 h2'.1
  have h3' := hp.third_mod h3
  have h4 := hp.fourth h3 h3'.1
  have h4' := hp.fourth_lt h4
  simp only [putDecFull, digitByte_eq (mod_ten hp.first.2), digitByte_eq (mod_ten h2'.1),
    digitByte_eq (mod_ten_small h3'.1), digitByte_eq (mod_ten h4'), digitByte_eq (div_ten h4'),
    List.map_cons, List.map_nil, hp.first.1, h2'.2, h3'.2, h4]

/-- `put_dec_trunc` leaves the digits of a small number. -/
theorem putDecTrunc_eq (h : q.toNat < 100000) :
    putDecTrunc q = digitByte (q.toNat % 10) :: (Nat.digits 10 (q.toNat / 10)).map digitByte := by
  have hp := decParts h
  have h2 := hp.second
  have h2' := hp.second_mod h2
  have h3 := hp.third h2 h2'.1
  have h3' := hp.third_mod h3
  have h4 := hp.fourth h3 h3'.1
  have h4' := hp.fourth_lt h4
  have hz : ∀ {d : UInt32}, d.toNat + 40 * (q >>> 12).toNat = q.toNat / 10 / 10 →
      (d.toNat = 0 ∧ (q >>> 12).toNat = 0 ↔ q.toNat / 10 / 10 = 0) := by
    omega
  simp only [putDecTrunc, digitByte_eq (mod_ten hp.first.2), digitByte_eq (mod_ten h2'.1),
    digitByte_eq (mod_ten_small h3'.1), digitByte_eq (mod_ten h4'), digitByte_eq (div_ten h4'),
    hp.first.1, h2'.2, h3'.2, h4, hp.second_eq_zero h2, hz h3, toNat_eq_zero (d := _),
    div_ten h4']
  rw [digits_ten (q.toNat / 10), digits_ten (q.toNat / 10 / 10),
    digits_ten (q.toNat / 10 / 10 / 10),
    digits_ten (q.toNat / 10 / 10 / 10 / 10), digits_ten (q.toNat / 10 / 10 / 10 / 10 / 10)]
  rw [if_pos (c := q.toNat / 10 / 10 / 10 / 10 / 10 = 0) (by omega),
    Nat.mod_eq_of_lt (a := q.toNat / 10 / 10 / 10 / 10) (by omega)]
  split_ifs <;> rfl

end

theorem digits_pos {n : Nat} (h : n ≠ 0) :
    (Nat.digits 10 n).map digitByte =
      digitByte (n % 10) :: (Nat.digits 10 (n / 10)).map digitByte := by
  rw [digits_ten, if_neg h, List.map_cons]

/-- Five digits in front of the others. -/
theorem digits_five {n r : Nat} (h : 100000 ≤ n) (hr : r = n % 100000) :
    digitByte (n % 10) :: (Nat.digits 10 (n / 10)).map digitByte =
      [r % 10, r / 10 % 10, r / 10 / 10 % 10, r / 10 / 10 / 10 % 10,
        r / 10 / 10 / 10 / 10].map digitByte ++ (Nat.digits 10 (n / 100000)).map digitByte := by
  have h0 : n % 10 = r % 10 := by omega
  have h1 : n / 10 % 10 = r / 10 % 10 := by omega
  have h2 : n / 10 / 10 % 10 = r / 10 / 10 % 10 := by omega
  have h3 : n / 10 / 10 / 10 % 10 = r / 10 / 10 / 10 % 10 := by omega
  have h4 : n / 10 / 10 / 10 / 10 % 10 = r / 10 / 10 / 10 / 10 := by omega
  have h5 : n / 10 / 10 / 10 / 10 / 10 = n / 100000 := by omega
  rw [digits_pos (by omega), digits_pos (n := n / 10 / 10) (by omega),
    digits_pos (n := n / 10 / 10 / 10) (by omega), digits_pos (n := n / 10 / 10 / 10 / 10) (by omega),
    h0, h1, h2, h3, h4, h5]
  rfl

/-- `put_dec` leaves the digits of a number, and at least one. -/
theorem putDec_digits (num : UInt64) :
    putDec num = digitByte (num.toNat % 10) :: (Nat.digits 10 (num.toNat / 10)).map digitByte := by
  induction num using putDec.induct with
  | case1 num h =>
    rw [UInt64.lt_iff_toNat_lt] at h
    have hcast : num.toUInt32.toNat = num.toNat := by
      rw [UInt64.toNat_toUInt32]
      exact Nat.mod_eq_of_lt (Nat.lt_trans h (by decide))
    rw [putDec, dif_pos (UInt64.lt_iff_toNat_lt.2 h), putDecTrunc_eq (by rw [hcast]; exact h), hcast]
  | case2 num h ih =>
    have hle : 100000 ≤ num.toNat := by
      rw [UInt64.lt_iff_toNat_lt] at h
      exact Nat.le_of_not_lt h
    have hrem : (num % 100000).toUInt32.toNat = num.toNat % 100000 := by
      rw [UInt64.toNat_toUInt32, UInt64.toNat_mod]
      exact Nat.mod_eq_of_lt (Nat.lt_trans (Nat.mod_lt _ (by decide)) (by decide))
    have hdiv : (num / 100000).toNat = num.toNat / 100000 := by
      rw [UInt64.toNat_div]
      rfl
    have hpos : num.toNat / 100000 ≠ 0 := by omega
    rw [putDec, dif_neg h, putDecFull_eq (by rw [hrem]; exact Nat.mod_lt _ (by decide)), ih, hrem,
      hdiv, ← digits_pos hpos, digits_five hle rfl]

end ShieldLoader
