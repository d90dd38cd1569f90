import ShieldLoader.Fdt.Defs

/-!
# Big-endian numbers

`fdt32_to_cpu` and `fdt64_to_cpu` of what the little-endian processor loads are the big-endian
numbers in the memory.
-/

namespace ShieldLoader

/-- `swab64` reverses the bytes. -/
theorem toNat_swab64 (x : UInt64) : (swab64 x).toNat =
    ((((((x.toNat % 256 * 256 + x.toNat / 2 ^ 8 % 256) * 256 + x.toNat / 2 ^ 16 % 256) * 256 +
      x.toNat / 2 ^ 24 % 256) * 256 + x.toNat / 2 ^ 32 % 256) * 256 +
      x.toNat / 2 ^ 40 % 256) * 256 + x.toNat / 2 ^ 48 % 256) * 256 + x.toNat / 2 ^ 56 % 256 := by
  have hx := x.toNat_lt
  have h0 : x.toNat &&& 255 = x.toNat % 256 := Nat.and_two_pow_sub_one_eq_mod _ 8
  have hbyte := and_byte x.toNat
  rw [swab64]
  set d0 := x.toNat % 256 with hd0
  set d1 := x.toNat / 2 ^ 8 % 256 with hd1
  set d2 := x.toNat / 2 ^ 16 % 256 with hd2
  set d3 := x.toNat / 2 ^ 24 % 256 with hd3
  set d4 := x.toNat / 2 ^ 32 % 256 with hd4
  set d5 := x.toNat / 2 ^ 40 % 256 with hd5
  set d6 := x.toNat / 2 ^ 48 % 256 with hd6
  set d7 := x.toNat / 2 ^ 56 % 256 with hd7
  have e0 : ((x &&& 0x00000000000000ff) <<< 56).toNat = d0 * 2 ^ 56 := by
    show ((x.toNat &&& 255) <<< 56) % 2 ^ 64 = _
    rw [h0, Nat.shiftLeft_eq]
    omega
  have e1 : ((x &&& 0x000000000000ff00) <<< 40).toNat = d1 * 2 ^ 48 := by
    show ((x.toNat &&& 255 * 2 ^ 8) <<< 40) % 2 ^ 64 = _
    rw [hbyte 8, Nat.shiftLeft_eq]
    omega
  have e2 : ((x &&& 0x0000000000ff0000) <<< 24).toNat = d2 * 2 ^ 40 := by
    show ((x.toNat &&& 255 * 2 ^ 16) <<< 24) % 2 ^ 64 = _
    rw [hbyte 16, Nat.shiftLeft_eq]
    omega
  have e3 : ((x &&& 0x00000000ff000000) <<< 8).toNat = d3 * 2 ^ 32 := by
    show ((x.toNat &&& 255 * 2 ^ 24) <<< 8) % 2 ^ 64 = _
    rw [hbyte 24, Nat.shiftLeft_eq]
    omega
  have e4 : ((x &&& 0x000000ff00000000) >>> 8).toNat = d4 * 2 ^ 24 := by
    show (x.toNat &&& 255 * 2 ^ 32) >>> 8 = _
    rw [hbyte 32, Nat.shiftRight_eq_div_pow]
    omega
  have e5 : ((x &&& 0x0000ff0000000000) >>> 24).toNat = d5 * 2 ^ 16 := by
    show (x.toNat &&& 255 * 2 ^ 40) >>> 24 = _
    rw [hbyte 40, Nat.shiftRight_eq_div_pow]
    omega
  have e6 : ((x &&& 0x00ff000000000000) >>> 40).toNat = d6 * 2 ^ 8 := by
    show (x.toNat &&& 255 * 2 ^ 48) >>> 40 = _
    rw [hbyte 48, Nat.shiftRight_eq_div_pow]
    omega
  have e7 : ((x &&& 0xff00000000000000) >>> 56).toNat = d7 := by
    show (x.toNat &&& 255 * 2 ^ 56) >>> 56 = _
    rw [hbyte 56, Nat.shiftRight_eq_div_pow]
    omega
  -- the digits do not meet: a byte goes below those that are there
  have hbelow : ∀ a b k : Nat, b < 256 →
      a * 2 ^ (k + 8) ||| b * 2 ^ k = (a * 256 + b) * 2 ^ k := by
    intro a b k hb
    have hlt : b * 2 ^ k < 2 ^ (k + 8) := by
      rw [Nat.pow_add, Nat.mul_comm]
      exact Nat.mul_lt_mul_of_pos_left hb (Nat.two_pow_pos k)
    rw [mul_two_pow_or hlt, Nat.pow_add, Nat.add_mul, Nat.mul_assoc a, Nat.mul_comm 256]
  have s1 := hbelow d0 d1 48 (by omega)
  have s2 := hbelow (d0 * 256 + d1) d2 40 (by omega)
  have s3 := hbelow ((d0 * 256 + d1) * 256 + d2) d3 32 (by omega)
  have s4 := hbelow (((d0 * 256 + d1) * 256 + d2) * 256 + d3) d4 24 (by omega)
  have s5 := hbelow ((((d0 * 256 + d1) * 256 + d2) * 256 + d3) * 256 + d4) d5 16 (by omega)
  have s6 := hbelow (((((d0 * 256 + d1) * 256 + d2) * 256 + d3) * 256 + d4) * 256 + d5) d6 8
    (by omega)
  have s7 := hbelow ((((((d0 * 256 + d1) * 256 + d2) * 256 + d3) * 256 + d4) * 256 + d5) * 256 + d6)
    d7 0 (by omega)
  rw [Nat.pow_zero, Nat.mul_one, Nat.mul_one] at s7
  rw [UInt64.toNat_or, UInt64.toNat_or, UInt64.toNat_or, UInt64.toNat_or, UInt64.toNat_or,
    UInt64.toNat_or, UInt64.toNat_or, e0, e1, e2, e3, e4, e5, e6, e7, s1, s2, s3, s4, s5, s6, s7]

/-- `fdt32_to_cpu` of a load. -/
theorem toNat_fdt32 (m : Memory) (p : UInt64) : (fdt32 m p).toNat = bigEndian (m.slice p 4) := by
  have h := RegProp.toNat_swab32_load ⟨fun i => m (p + UInt64.ofNat i), 0, by decide⟩ 0
  have hload : RegProp.load ⟨fun i => m (p + UInt64.ofNat i), 0, by decide⟩ 0 = load32 m p := by
    simp only [RegProp.load, load32, Nat.zero_add]
  rw [hload] at h
  rw [fdt32, h]
  show _ = bigEndian [_, _, _, _]
  simp only [bigEndian, List.foldl_cons, List.foldl_nil, Nat.mul_comm 256, Nat.zero_mul,
    Nat.zero_add]

/-- A byte of the word that is loaded. -/
theorem toNat_word_byte (m : Memory) (p : UInt64) {i : Nat} (hi : i < 8) :
    (m (p + UInt64.ofNat i)).toNat = (m.word p).toNat / 256 ^ i % 256 := by
  rw [(@Memory.word_eq_iff m p _).1 rfl i hi, UInt64.byte, UInt8.toNat_ofNat']

/-- `fdt64_to_cpu` of a load. -/
theorem toNat_fdt64 (m : Memory) (p : UInt64) : (fdt64 m p).toNat = bigEndian (m.slice p 8) := by
  rw [fdt64, toNat_swab64]
  show _ = bigEndian [_, _, _, _, _, _, _, _]
  simp only [bigEndian, List.foldl_cons, List.foldl_nil,
    toNat_word_byte m p (show 0 < 8 by decide), toNat_word_byte m p (show 1 < 8 by decide),
    toNat_word_byte m p (show 2 < 8 by decide), toNat_word_byte m p (show 3 < 8 by decide),
    toNat_word_byte m p (show 4 < 8 by decide), toNat_word_byte m p (show 5 < 8 by decide),
    toNat_word_byte m p (show 6 < 8 by decide), toNat_word_byte m p (show 7 < 8 by decide),
    Nat.mul_comm 256, Nat.pow_zero, Nat.div_one, Nat.zero_mul, Nat.zero_add]
  norm_num

end ShieldLoader
