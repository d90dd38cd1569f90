import ShieldLoader.Fb.Numerals
import ShieldLoader.Printf.Decimal

/-!
# Numbers in a field

What `number` prints: the digits of the number in its base, behind the sign, the prefix and the
zeros, in a field of the width that the specification gives. The `short` that counts the padding
does not overflow for widths and precisions up to 32761.
-/

namespace ShieldLoader

open PrintfSpec

/-! ### Padding -/

theorem castShort_eq {x : Int} (h : -2 ^ 15 ≤ x) (h' : x < 2 ^ 15) : castShort x = x := by
  rw [castShort]
  omega

/-- The characters of a loop, and the count that is left of it. -/
theorem padLoop_eq (c : UInt8) {n : Nat} {w : Int} (hw : -2 ^ 15 < w) (hw' : w < 2 ^ 15)
    (hn : w ≤ n) : padLoop c (n + 1) w = (List.replicate w.toNat c, min w 0 - 1) := by
  have hcast : castShort (w - 1) = w - 1 := castShort_eq (by omega) (by omega)
  induction n generalizing w with
  | zero =>
    rw [padLoop, hcast, if_neg (by omega), min_eq_left (by omega), Int.toNat_of_nonpos (by omega)]
    rfl
  | succ n ih =>
    rw [padLoop, hcast]
    split
    · next h =>
      have hlen : w.toNat = (w - 1).toNat + 1 := by omega
      rw [ih (by omega) (by omega) (by omega) (castShort_eq (by omega) (by omega)), hlen,
        List.replicate_succ, min_eq_right h, min_eq_right (by omega)]
    · next h =>
      rw [min_eq_left (by omega), Int.toNat_of_nonpos (by omega)]
      rfl

theorem zeroLoop_eq {i : Int} {n : Nat} {p : Int} (hi : 0 ≤ i) (hp : -2 ^ 15 < p)
    (hp' : p < 2 ^ 15) (hn : p ≤ n + i) :
    zeroLoop i n p = List.replicate (p - i).toNat '0'.toNat.toUInt8 := by
  have hcast : castShort (p - 1) = p - 1 := castShort_eq (by omega) (by omega)
  induction n generalizing p with
  | zero =>
    rw [zeroLoop, Int.toNat_of_nonpos (by omega)]
    rfl
  | succ n ih =>
    rw [zeroLoop, hcast]
    split
    · next h =>
      have hlen : (p - i).toNat = (p - 1 - i).toNat + 1 := by omega
      rw [ih (by omega) (by omega) (by omega) (castShort_eq (by omega) (by omega)), hlen,
        List.replicate_succ]
    · next h =>
      rw [Int.toNat_of_nonpos (by omega)]
      rfl

/-! ### Digits -/

/-- The digits of a number, the lowest first, and at least one. -/
def plainDigits (b n : Nat) : List Nat := if n = 0 then [0] else Nat.digits b n

theorem digitByte_eq_numberDigit {locase : UInt8} (h : locase = 0 ∨ locase = small) {d : Nat}
    (hd : d < 10) : digitByte d = numberDigit locase d := by
  have hall : ∀ d : Fin 10, digitByte d.1 = numberDigit 0 d.1 ∧
      digitByte d.1 = numberDigit small d.1 := by
    decide
  rcases h with rfl | rfl
  · exact (hall ⟨d, hd⟩).1
  · exact (hall ⟨d, hd⟩).2

/-- Shifts and masks take the digits of a base that is a power of two. -/
theorem numberDigits_eq (locase : UInt8) {s n : Nat} (hs : 0 < s) (hs' : s ≤ 8) {num : UInt64}
    (h0 : num ≠ 0) (h : num.toNat < 2 ^ (s * n)) :
    numberDigits (UInt64.ofNat s) (2 ^ s - 1) locase n num =
      (Nat.digits (2 ^ s) num.toNat).map (numberDigit locase) := by
  induction n generalizing num with
  | zero =>
    have hzero : num.toNat = 0 := Nat.lt_one_iff.1 h
    exact absurd (UInt64.toNat_inj.1 hzero) h0
  | succ n ih =>
    have hpos : num.toNat ≠ 0 := fun hc => h0 (UInt64.toNat_inj.1 hc)
    have hmod : num.toUInt8.toNat &&& (2 ^ s - 1) = num.toNat % 2 ^ s := by
      rw [Nat.and_two_pow_sub_one_eq_mod, UInt64.toNat_toUInt8,
        Nat.mod_mod_of_dvd _ (pow_dvd_pow 2 hs')]
    have hdiv : (num >>> UInt64.ofNat s).toNat = num.toNat / 2 ^ s := by
      rw [UInt64.toNat_shiftRight, Nat.shiftRight_eq_div_pow, UInt64.toNat_ofNat_of_lt'
        (Nat.lt_of_le_of_lt hs' (by decide)), Nat.mod_eq_of_lt (by omega)]
    rw [numberDigits, hmod, Nat.digits_def' (Nat.one_lt_two_pow hs.ne') (Nat.pos_of_ne_zero hpos),
      List.map_cons]
    congr 1
    split
    · next hz =>
      rw [← hdiv, hz, show (0 : UInt64).toNat = 0 from rfl, Nat.digits_zero, List.map_nil]
    · next hz =>
      rw [← hdiv]
      refine ih hz ?_
      rw [hdiv]
      exact Nat.div_lt_of_lt_mul (by rwa [← pow_add, Nat.add_comm, ← Nat.mul_succ])

theorem numberTmp_digits {base locase : UInt8} (hb : base = 8 ∨ base = 10 ∨ base = 16)
    (h : locase = 0 ∨ locase = small) (num : UInt64) :
    numberTmp base locase num = (plainDigits base.toNat num.toNat).map (numberDigit locase) := by
  rw [numberTmp, plainDigits]
  split
  · next h0 =>
    rw [h0, show (0 : UInt64).toNat = 0 from rfl, if_pos rfl, List.map_singleton,
      ← digitByte_eq_numberDigit h (by decide)]
    decide
  · next h0 =>
    have hpos : num.toNat ≠ 0 := fun hc => h0 (UInt64.toNat_inj.1 hc)
    have hlt : num.toNat < 2 ^ (3 * 64) := num.toNat_lt.trans (by norm_num)
    have hlt' : num.toNat < 2 ^ (4 * 64) := num.toNat_lt.trans (by norm_num)
    rw [if_neg hpos]
    rcases hb with rfl | rfl | rfl
    · exact numberDigits_eq locase (by decide) (by decide) h0 hlt
    · have hten : (10 : UInt8).toNat = 10 := rfl
      rw [if_neg (by decide), putDec_digits, ← digits_pos hpos, hten]
      exact List.map_congr_left fun d hd =>
        digitByte_eq_numberDigit h (Nat.digits_lt_base (by decide) hd)
    · exact numberDigits_eq locase (by decide) (by decide) h0 hlt'

/-! ### The field -/

namespace PrintfSpec

/-- The base, the width and the precision are such that no `short` overflows. -/
structure Fits (spec : PrintfSpec) : Prop where
  base : spec.base = 8 ∨ spec.base = 10 ∨ spec.base = 16
  width_ge : -1 ≤ spec.fieldWidth
  width_lt : spec.fieldWidth < 2 ^ 15
  precision_ge : -1 ≤ spec.precision
  precision_lt : spec.precision < 32762

instance (spec : PrintfSpec) : Decidable spec.Fits :=
  decidable_of_iff ((spec.base = 8 ∨ spec.base = 10 ∨ spec.base = 16) ∧ -1 ≤ spec.fieldWidth ∧
      spec.fieldWidth < 2 ^ 15 ∧ -1 ≤ spec.precision ∧ spec.precision < 32762)
    ⟨fun h => ⟨h.1, h.2.1, h.2.2.1, h.2.2.2.1, h.2.2.2.2⟩,
      fun h => ⟨h.base, h.width_ge, h.width_lt, h.precision_ge, h.precision_lt⟩⟩

variable (spec : PrintfSpec) (num : UInt64)

/-- The number that is printed. -/
def value : Int := if spec.has sign then num.toInt64.toInt else num.toNat

/-- The sign in front of a number. -/
def signText (v : Int) : List UInt8 :=
  if v < 0 then bytes "-"
  else if spec.has sign then
    if spec.has plus then bytes "+" else if spec.has space then bytes " " else []
  else []

/-- The prefix for the base. -/
def baseText : List UInt8 :=
  if spec.has special then
    if spec.base = 16 then if spec.has small then bytes "0x" else bytes "0X"
    else if spec.base = 8 then bytes "0"
    else []
  else []

/-- The digits, the highest first. -/
def digitText (n : Nat) : List UInt8 :=
  (plainDigits spec.base.toNat n).reverse.map (numberDigit (spec.flags &&& small))

/-- A number in its field. -/
def fieldText : List UInt8 :=
  let front := spec.signText (spec.value num) ++ spec.baseText
  let digits := spec.digitText (spec.value num).natAbs
  let back := List.replicate (spec.precision.toNat - digits.length) '0'.toNat.toUInt8 ++ digits
  let n := spec.fieldWidth.toNat - (front ++ back).length
  if spec.has left then front ++ back ++ List.replicate n ' '.toNat.toUInt8
  else if spec.has zeropad then front ++ List.replicate n '0'.toNat.toUInt8 ++ back
  else List.replicate n ' '.toNat.toUInt8 ++ front ++ back

end PrintfSpec

section
variable {spec : PrintfSpec} {num : UInt64}

/-! #### The sign -/

theorem toInt_toInt64 (num : UInt64) :
    num.toInt64.toInt = if num.toNat < 2 ^ 63 then (num.toNat : Int) else num.toNat - 2 ^ 64 := by
  have h : num.toInt64.toInt = num.toBitVec.toInt := rfl
  rw [h, BitVec.toInt_eq_toNat_cond]
  show (if 2 * num.toNat < 2 ^ 64 then (num.toNat : Int) else (num.toNat : Int) - 2 ^ 64) = _
  split_ifs <;> omega

theorem numberSign_negative : numberSign num spec = '-'.toNat.toUInt8 ↔ spec.value num < 0 := by
  rw [numberSign, value]
  by_cases hs : spec.has sign
  · rw [if_pos hs, if_pos hs, ← Int64.toInt_zero, ← Int64.lt_iff_toInt_lt]
    by_cases hlt : num.toInt64 < 0
    · rw [if_pos hlt]
      exact ⟨fun _ => hlt, fun _ => rfl⟩
    · rw [if_neg hlt]
      refine ⟨fun h => ?_, fun h => absurd h hlt⟩
      split_ifs at h <;> exact absurd h (by decide)
  · rw [if_neg hs, if_neg hs]
    exact ⟨fun h => absurd h (by decide), fun h => absurd h (by omega)⟩

theorem signText_eq (spec : PrintfSpec) (num : UInt64) :
    (if numberSign num spec = 0 then [] else [numberSign num spec]) =
      spec.signText (spec.value num) := by
  have hneg := @numberSign_negative spec num
  rw [signText]
  by_cases hlt : spec.value num < 0
  · rw [if_pos hlt, hneg.2 hlt]
    rfl
  · have hsign := fun h => hlt (hneg.1 h)
    rw [if_neg hlt]
    unfold numberSign at hsign ⊢
    split_ifs at hsign ⊢ <;> first | rfl | exact absurd rfl hsign | contradiction

theorem natAbs_value (spec : PrintfSpec) (num : UInt64) :
    (if numberSign num spec = '-'.toNat.toUInt8 then -num else num).toNat =
      (spec.value num).natAbs := by
  have hneg := @numberSign_negative spec num
  have hlt := num.toNat_lt
  split
  · next h =>
    have hv := hneg.1 h
    rw [value] at hv ⊢
    split at hv
    · next hs =>
      rw [toInt_toInt64] at hv
      rw [if_pos hs, toInt_toInt64, UInt64.toNat_neg, show UInt64.size = 2 ^ 64 from rfl]
      split at hv
      · omega
      · next hge =>
        rw [if_neg hge]
        omega
    · omega
  · next h =>
    have hv := mt hneg.2 h
    rw [value] at hv ⊢
    split
    · next hs =>
      rw [if_pos hs, toInt_toInt64] at hv
      rw [toInt_toInt64]
      split
      · rfl
      · next hge =>
        rw [if_neg hge] at hv
        omega
    · rfl

/-! #### The flags -/

theorem and_small (flags : UInt8) : flags &&& small = 0 ∨ flags &&& small = small := by
  revert flags
  exact UInt8.forall_of_fin (by decide +kernel)

theorem right_flags (flags : UInt8) (h : flags &&& left = 0) :
    flags &&& (zeropad ||| left) = 0 ↔ flags &&& zeropad = 0 := by
  revert flags
  exact UInt8.forall_of_fin (by decide +kernel)

/-- With `LEFT`, `ZEROPAD` counts for nothing. -/
theorem left_flags (flags : UInt8) (h : flags &&& left ≠ 0) :
    (flags &&& ~~~zeropad) &&& (zeropad ||| left) ≠ 0 ∧ (flags &&& ~~~zeropad) &&& left ≠ 0 := by
  revert flags
  exact UInt8.forall_of_fin (by decide +kernel)

/-- The padding in front of a number, behind its sign and prefix, and behind it. -/
theorem padding_eq {w : Int} (hw : -32765 ≤ w) (hw' : w < 2 ^ 15) (front back : List UInt8) :
    let flags := if spec.has left then spec.flags &&& ~~~zeropad else spec.flags
    let lead := if flags &&& (zeropad ||| left) = 0 then padLoop ' '.toNat.toUInt8 65536 w else ([], w)
    let c := if flags &&& zeropad ≠ 0 then '0'.toNat.toUInt8 else ' '.toNat.toUInt8
    let fill := if flags &&& left = 0 then padLoop c 65536 lead.2 else ([], lead.2)
    lead.1 ++ front ++ fill.1 ++ back ++ (padLoop ' '.toNat.toUInt8 65536 fill.2).1 =
      if spec.has left then front ++ back ++ List.replicate w.toNat ' '.toNat.toUInt8
      else if spec.has zeropad then front ++ List.replicate w.toNat '0'.toNat.toUInt8 ++ back
      else List.replicate w.toNat ' '.toNat.toUInt8 ++ front ++ back := by
  intro flags lead c fill
  have hpad (c : UInt8) : padLoop c 65536 w = (List.replicate w.toNat c, min w 0 - 1) :=
    padLoop_eq c (by omega) hw' (by omega)
  -- a loop that has run leaves nothing for the next one
  have hnone {v : Int} (c : UInt8) (h0 : v < 0) (h1 : -2 ^ 15 < v) :
      padLoop c 65536 v = ([], v - 1) := by
    rw [padLoop_eq c h1 (by omega) (by omega), min_eq_left (by omega), Int.toNat_of_nonpos (by omega)]
    rfl
  by_cases hleft : spec.flags &&& left = 0
  · have hhas : spec.has left = false := by simp [has, hleft]
    have hflags : flags = spec.flags := by
      show (if spec.has left then _ else _) = _
      rw [hhas, if_neg Bool.false_ne_true]
    rw [hhas, if_neg Bool.false_ne_true]
    by_cases hz : spec.flags &&& zeropad = 0
    · have hlead : lead = (List.replicate w.toNat ' '.toNat.toUInt8, min w 0 - 1) := by
        show (if flags &&& _ = 0 then _ else _) = _
        rw [hflags, if_pos ((right_flags _ hleft).2 hz), hpad]
      have hfill : fill = ([], min w 0 - 1 - 1) := by
        show (if flags &&& _ = 0 then _ else _) = _
        rw [hflags, if_pos hleft, hlead]
        exact hnone c (by omega) (by omega)
      rw [hlead, hfill, hnone _ (by omega) (by omega), if_neg (by simp [has, hz])]
      simp only [List.append_nil]
    · have hlead : lead = ([], w) := by
        show (if flags &&& _ = 0 then _ else _) = _
        rw [hflags, if_neg (mt (right_flags _ hleft).1 hz)]
      have hc : c = '0'.toNat.toUInt8 := by
        show (if flags &&& zeropad ≠ 0 then _ else _) = _
        rw [hflags, if_pos hz]
      have hfill : fill = (List.replicate w.toNat '0'.toNat.toUInt8, min w 0 - 1) := by
        show (if flags &&& _ = 0 then _ else _) = _
        rw [hflags, if_pos hleft, hlead, hc, hpad]
      rw [hlead, hfill, hnone _ (by omega) (by omega), if_pos (by simp [has, hz])]
      simp only [List.nil_append, List.append_nil]
  · have hhas : spec.has left = true := by simp [has, hleft]
    have hflags : flags = spec.flags &&& ~~~zeropad := by
      show (if spec.has left then _ else _) = _
      rw [hhas, if_pos rfl]
    obtain ⟨hboth, hl⟩ := left_flags spec.flags hleft
    have hlead : lead = ([], w) := by
      show (if flags &&& _ = 0 then _ else _) = _
      rw [hflags, if_neg hboth]
    have hfill : fill = ([], w) := by
      show (if flags &&& _ = 0 then _ else _) = _
      rw [hflags, if_neg hl, hlead]
    rw [hlead, hfill, hpad, hhas, if_pos rfl]
    simp only [List.nil_append, List.append_nil]

/-! #### The text -/

theorem baseText_eq (hb : spec.base = 8 ∨ spec.base = 10 ∨ spec.base = 16) :
    (if spec.has special && spec.base ≠ 10 then
        if spec.base = 16 then ['0'.toNat.toUInt8, 'X'.toNat.toUInt8 ||| (spec.flags &&& small)]
        else ['0'.toNat.toUInt8]
      else []) = spec.baseText := by
  have hx : (if spec.has small then bytes "0x" else bytes "0X") =
      ['0'.toNat.toUInt8, 'X'.toNat.toUInt8 ||| (spec.flags &&& small)] := by
    rw [has]
    rcases and_small spec.flags with h | h <;> rw [h] <;> rfl
  rw [baseText, hx]
  rcases hb with h | h | h <;> cases spec.has special <;> rw [h] <;> rfl

/-- The sign and the prefix take their characters from the width. -/
theorem width_eq (h : spec.Fits) (sgn : UInt8) :
    let needPfx : Bool := spec.has special && spec.base ≠ 10
    let width := if sgn = 0 then spec.fieldWidth else castShort (spec.fieldWidth - 1)
    let width := if needPfx then castShort (width - 1) else width
    (if needPfx && spec.base = 16 then castShort (width - 1) else width) =
      spec.fieldWidth - (if sgn = 0 then [] else [sgn]).length - spec.baseText.length := by
  obtain ⟨hb, hge, hlt, -, -⟩ := h
  have hcast {x : Int} (hx : -2 ^ 15 ≤ x) (hx' : x < 2 ^ 15) := castShort_eq hx hx'
  rw [← baseText_eq hb]
  intro needPfx width1 width2
  have h1 : width1 = spec.fieldWidth - (if sgn = 0 then [] else [sgn]).length := by
    show (if sgn = 0 then _ else _) = _
    split
    · exact (Int.sub_zero _).symm
    · exact hcast (by omega) (by omega)
  have hle : (if sgn = 0 then [] else [sgn]).length ≤ 1 := by split <;> simp
  have h2 : width2 = width1 - if needPfx then 1 else 0 := by
    show (if needPfx then _ else _) = _
    split
    · exact hcast (by omega) (by omega)
    · exact (Int.sub_zero _).symm
  show (if needPfx && spec.base = 16 then castShort (width2 - 1) else width2) =
    _ - (((if needPfx then if spec.base = 16 then _ else _ else []) : List UInt8).length : Int)
  cases hn : needPfx with
  | false =>
    rw [h2, h1, hn]
    simp
  | true =>
    rw [hn, if_pos rfl] at h2
    by_cases h16 : spec.base = 16
    · rw [if_pos (by simp [h16]), if_pos rfl, if_pos h16, hcast (by omega) (by omega), h2, h1]
      simp only [List.length_cons, List.length_nil]
      omega
    · rw [if_neg (by simp [h16]), if_pos rfl, if_neg h16, h2, h1]
      simp only [List.length_cons, List.length_nil]
      omega

theorem length_signText_le (spec : PrintfSpec) (v : Int) : (spec.signText v).length ≤ 1 := by
  rw [signText]
  split_ifs <;> decide

theorem length_baseText_le (spec : PrintfSpec) : spec.baseText.length ≤ 2 := by
  rw [baseText]
  split_ifs <;> decide

theorem length_numberTmp_le (hb : spec.base = 8 ∨ spec.base = 10 ∨ spec.base = 16) (num : UInt64) :
    (numberTmp spec.base (spec.flags &&& small) num).length ≤ 22 := by
  have h8 : 8 ≤ spec.base.toNat := by
    rcases hb with h | h | h <;> rw [h] <;> decide
  have hnum : num.toNat < spec.base.toNat ^ 22 :=
    num.toNat_lt.trans_le ((by decide : 2 ^ 64 ≤ 8 ^ 22).trans (Nat.pow_le_pow_left h8 22))
  rw [numberTmp_digits hb (and_small _), List.length_map, plainDigits]
  split
  · decide
  · exact (Nat.digits_length_le_iff (by omega) _).2 hnum

/-- What `number` prints. -/
theorem number_eq (h : spec.Fits) : number num spec = spec.fieldText num := by
  unfold number
  extract_lets needPfx locase flags sgn num' width1 width2 width3 tmp precision width lead pfx c fill
  have hsgn : (if sgn = 0 then [] else [sgn]) = spec.signText (spec.value num) := signText_eq spec num
  have hpfx : pfx = spec.baseText := baseText_eq h.base
  have htmp : tmp.reverse = spec.digitText (spec.value num).natAbs := by
    rw [digitText, List.map_reverse, ← natAbs_value]
    exact congrArg List.reverse (numberTmp_digits h.base (and_small _) _)
  have hwidth : width3 = spec.fieldWidth - (spec.signText (spec.value num)).length -
      spec.baseText.length := hsgn ▸ width_eq h sgn
  have hlen : tmp.length = (spec.digitText (spec.value num).natAbs).length := by
    rw [← htmp, List.length_reverse]
  have hlen' : tmp.length ≤ 22 := length_numberTmp_le h.base num'
  have hprec : precision = max spec.precision tmp.length := by
    show (if _ then _ else _) = _
    split
    · rw [castShort_eq (by omega) (by omega), max_eq_right (by omega)]
    · rw [max_eq_left (by omega)]
  obtain ⟨hb, hge, hlt, hpge, hplt⟩ := h
  have hs := length_signText_le spec (spec.value num)
  have hp := length_baseText_le spec
  have hw : width = width3 - precision := castShort_eq (by omega) (by omega)
  have hzero : zeroLoop tmp.length 65536 precision =
      List.replicate (spec.precision.toNat - tmp.length) '0'.toNat.toUInt8 := by
    rw [zeroLoop_eq (by omega) (by omega) (by omega) (by omega)]
    congr 1
    omega
  have hn : spec.fieldWidth.toNat - (spec.signText (spec.value num) ++ spec.baseText ++
      (List.replicate (spec.precision.toNat - tmp.length) '0'.toNat.toUInt8 ++ tmp.reverse)).length =
      width.toNat := by
    simp only [List.length_append, List.length_replicate, List.length_reverse]
    omega
  have hpadding := @padding_eq spec width (by omega) (by omega)
    (spec.signText (spec.value num) ++ spec.baseText)
    (List.replicate (spec.precision.toNat - tmp.length) '0'.toNat.toUInt8 ++ tmp.reverse)
  rw [fieldText, ← hlen, ← htmp, hn, hzero, hsgn, hpfx]
  simpa only [List.append_assoc] using hpadding

/-! ### Numbers that are read back -/

theorem digit_numberDigit {locase : UInt8} (h : locase = 0 ∨ locase = small) {b d : Nat}
    (hb : b ≤ 16) (hd : d < b) : Ascii.digit b (numberDigit locase d) = some d := by
  have hall : ∀ d : Fin 16, Ascii.hexDigit (numberDigit 0 d.1) = some d.1 ∧
      Ascii.hexDigit (numberDigit small d.1) = some d.1 := by
    decide
  have hx : Ascii.hexDigit (numberDigit locase d) = some d := by
    rcases h with rfl | rfl
    · exact (hall ⟨d, hd.trans_le hb⟩).1
    · exact (hall ⟨d, hd.trans_le hb⟩).2
  rw [Ascii.digit, hx, Option.filter_some, if_pos (decide_eq_true hd)]

theorem digits_append (b n : Nat) (s t : List UInt8) :
    Ascii.digits b n (s ++ t) = (Ascii.digits b n s).bind fun m => Ascii.digits b m t := by
  induction s generalizing n with
  | nil => rfl
  | cons c s ih =>
    rw [List.cons_append, Ascii.digits, Ascii.digits, Option.bind_assoc]
    exact congrArg _ (funext fun d => ih _)

theorem digits_digits {locase : UInt8} (h : locase = 0 ∨ locase = small) {b : Nat} (hb : 1 < b)
    (hb' : b ≤ 16) (n : Nat) :
    Ascii.digits b 0 ((Nat.digits b n).reverse.map (numberDigit locase)) = some n := by
  induction n using Nat.strong_induction_on with
  | _ n ih =>
    cases n with
    | zero => rw [Nat.digits_zero]; rfl
    | succ n =>
      have hmod : (n + 1) % b < b := Nat.mod_lt _ (by omega)
      rw [Nat.digits_def' hb (Nat.succ_pos n), List.reverse_cons, List.map_append, digits_append,
        ih _ (Nat.div_lt_self (Nat.succ_pos n) hb), Option.bind_some, List.map_singleton,
        Ascii.digits, digit_numberDigit h hb' hmod, Option.bind_some, Ascii.digits, Nat.div_add_mod']

theorem digits_zeros {b n : Nat} (hb : 0 < b) (k : Nat) (s : List UInt8)
    (h : Ascii.digits b 0 s = some n) :
    Ascii.digits b 0 (List.replicate k '0'.toNat.toUInt8 ++ s) = some n := by
  induction k with
  | zero => exact h
  | succ k ih =>
    have hzero : Ascii.digit b '0'.toNat.toUInt8 = some 0 := by
      rw [Ascii.digit, show Ascii.hexDigit '0'.toNat.toUInt8 = some 0 by decide, Option.filter_some,
        if_pos (decide_eq_true hb)]
    rw [List.replicate_succ, List.cons_append, Ascii.digits, hzero, Option.bind_some, Nat.zero_mul]
    exact ih

theorem digits_digitText (hb : spec.base = 8 ∨ spec.base = 10 ∨ spec.base = 16) (n : Nat) :
    Ascii.digits spec.base.toNat 0 (spec.digitText n) = some n := by
  have hlt : 1 < spec.base.toNat ∧ spec.base.toNat ≤ 16 := by
    rcases hb with h | h | h <;> rw [h] <;> decide
  rw [digitText, plainDigits]
  split
  · next h =>
    rw [List.reverse_singleton, List.map_singleton, Ascii.digits,
      digit_numberDigit (and_small _) hlt.2 (by omega), h, Option.bind_some, Nat.zero_mul,
      Nat.zero_add, Ascii.digits]
  · exact digits_digits (and_small _) hlt.1 hlt.2 n

/-- The text that is left behind a number. -/
def NumberEnds (rest : List UInt8) : Prop := ∀ c ∈ rest.head?, Ascii.isNumeralChar c = false

variable {b n : Nat} {ds rest : List UInt8}

theorem NumberEnds.digit (h : NumberEnds rest) : ∀ c ∈ rest.head?, Ascii.digit b c = none := by
  intro c hc
  have hchar := h c hc
  rw [Ascii.isNumeralChar, Bool.or_eq_false_iff] at hchar
  by_contra hd
  exact Ascii.hexDigit_of_digit hd (Option.isNone_iff_eq_none.1 (by simpa using hchar.2))

/-- Digits are no `x`. -/
theorem second_ne_x (h : Ascii.digits b 0 ds = some n) (hne : ds ≠ []) (hrest : NumberEnds rest) :
    tolower (deref ((ds ++ rest).drop 1)) ≠ 'x'.toNat.toUInt8 := by
  rw [Ne, ← isX_iff]
  cases ds with
  | nil => exact absurd rfl hne
  | cons c ds =>
    cases ds with
    | nil =>
      cases rest with
      | nil =>
        show ¬Ascii.isX 0
        decide
      | cons d rest =>
        intro hx
        have hchar := hrest d rfl
        rw [Ascii.isNumeralChar, Bool.or_eq_false_iff] at hchar
        exact Bool.false_ne_true (hchar.1.symm.trans hx)
    | cons d ds =>
      intro hx
      have hmem : d ∈ c :: d :: ds := List.mem_cons_of_mem _ List.mem_cons_self
      exact Ascii.hexDigit_of_digit (Ascii.digit_ne_none_of_mem h hmem) (Ascii.digit_of_isX hx)

/-- Digits are read in their base. -/
theorem simpleStrtoull_digits (hb : 0 < b) (hb' : b ≤ 16) (h : Ascii.digits b 0 ds = some n)
    (hne : ds ≠ []) (hrest : NumberEnds rest) :
    simpleStrtoull (ds ++ rest) (UInt64.ofNat b) = (UInt64.ofNat n, rest) := by
  have hbase : UInt64.ofNat b ≠ 0 := by
    intro hc
    have := congrArg UInt64.toNat hc
    rw [UInt64.toNat_ofNat_of_lt' (hb'.trans_lt (by decide))] at this
    exact hb.ne' this
  have hx := second_ne_x h hne hrest
  rw [simpleStrtoull, if_neg hbase, if_neg fun h => hx h.2.2]
  exact simpleStrtoull.loop_digits hb' h hrest.digit

/-- With the prefix of the base, too. -/
theorem simpleStrtoull_baseText (hb : spec.base = 8 ∨ spec.base = 10 ∨ spec.base = 16)
    (h : Ascii.digits spec.base.toNat 0 ds = some n) (hne : ds ≠ []) (hrest : NumberEnds rest) :
    simpleStrtoull (spec.baseText ++ ds ++ rest) (UInt64.ofNat spec.base.toNat) =
      (UInt64.ofNat n, rest) := by
  have hlt : 0 < spec.base.toNat ∧ spec.base.toNat ≤ 16 := by
    rcases hb with h | h | h <;> rw [h] <;> decide
  rw [baseText]
  split
  · split
    · next h16 =>
      rw [h16] at h ⊢
      have hpre : ∃ x, (if spec.has small then bytes "0x" else bytes "0X") = ['0'.toNat.toUInt8, x] ∧
          tolower x = 'x'.toNat.toUInt8 := by
        cases spec.has small
        · exact ⟨_, rfl, by decide⟩
        · exact ⟨_, rfl, by decide⟩
      obtain ⟨x, hx, hlow⟩ := hpre
      have hbase : UInt64.ofNat (16 : UInt8).toNat = 16 := by decide
      rw [hx, simpleStrtoull, hbase, if_neg (by decide), if_pos ⟨rfl, rfl, hlow⟩]
      exact simpleStrtoull.loop_digits (by decide) h hrest.digit
    · split
      · exact simpleStrtoull_digits hlt.1 hlt.2 (digits_zeros hlt.1 1 ds h)
          (fun hc => hne (List.append_eq_nil_iff.1 hc).2) hrest
      · exact simpleStrtoull_digits hlt.1 hlt.2 h hne hrest
  · exact simpleStrtoull_digits hlt.1 hlt.2 h hne hrest

/-- Without blanks in front, a field is the sign, the prefix and digits, and blanks behind them. -/
theorem fieldText_front (h : spec.has left ∨ spec.has zeropad ∨ spec.fieldWidth ≤ 0) (num : UInt64) :
    ∃ m k, spec.fieldText num = spec.signText (spec.value num) ++ (spec.baseText ++
      (List.replicate m '0'.toNat.toUInt8 ++ spec.digitText (spec.value num).natAbs)) ++
        List.replicate k ' '.toNat.toUInt8 := by
  unfold fieldText
  extract_lets front digits back n
  by_cases hleft : spec.has left
  · rw [if_pos hleft]
    exact ⟨spec.precision.toNat - digits.length, n,
      by simp only [front, back, List.append_assoc, digits]⟩
  · rw [if_neg hleft]
    by_cases hz : spec.has zeropad
    · rw [if_pos hz]
      refine ⟨n + (spec.precision.toNat - digits.length), 0, ?_⟩
      simp only [front, back, List.append_assoc, List.replicate_add, List.replicate_zero,
        List.append_nil, digits]
    · rw [if_neg hz]
      have hn : n = 0 := by
        have hw := (h.resolve_left hleft).resolve_left hz
        omega
      refine ⟨spec.precision.toNat - digits.length, 0, ?_⟩
      rw [hn]
      simp only [front, back, List.append_assoc, List.replicate_zero, List.nil_append,
        List.append_nil, digits]

theorem digitText_ne_nil (spec : PrintfSpec) (n : Nat) : spec.digitText n ≠ [] := by
  rw [digitText, plainDigits]
  split
  · simp
  · next h =>
    intro hc
    rw [List.map_eq_nil_iff, List.reverse_eq_nil_iff, Nat.digits_eq_nil_iff_eq_zero] at hc
    exact h hc

/-- Neither a prefix nor a digit is a sign. -/
theorem front_ne_sign (h : Ascii.digits b 0 ds = some n) (hne : ds ≠ []) (rest : List UInt8) :
    deref (spec.baseText ++ ds ++ rest) ≠ '-'.toNat.toUInt8 := by
  have hds : deref (ds ++ rest) ≠ '-'.toNat.toUInt8 := by
    cases ds with
    | nil => exact absurd rfl hne
    | cons c ds =>
      intro hc
      have hdigit := Ascii.hexDigit_of_digit (Ascii.digit_ne_none_of_mem h List.mem_cons_self)
      rw [show c = _ from hc] at hdigit
      exact hdigit (by decide)
  rw [baseText]
  split_ifs
  any_goals exact hds
  all_goals exact show '0'.toNat.toUInt8 ≠ '-'.toNat.toUInt8 by decide

/-- A printed number is read back with `simple_strtoll`, whatever the base, the prefix, the zeros in
front and the blanks behind it are. -/
theorem simpleStrtoll_number (h : spec.Fits)
    (hpad : spec.has left ∨ spec.has zeropad ∨ spec.fieldWidth ≤ 0)
    (hsign : spec.has sign → ¬spec.has plus ∧ ¬spec.has space) (hrest : NumberEnds rest) :
    ∃ k, simpleStrtoll (number num spec ++ rest) (UInt64.ofNat spec.base.toNat) =
      (num, List.replicate k ' '.toNat.toUInt8 ++ rest) := by
  obtain ⟨m, k, htext⟩ := fieldText_front hpad num
  have hlt : 0 < spec.base.toNat := by
    rcases h.base with hb | hb | hb <;> rw [hb] <;> decide
  have hdigits := digits_zeros hlt m _ (digits_digitText h.base (spec.value num).natAbs)
  have hne : List.replicate m '0'.toNat.toUInt8 ++ spec.digitText (spec.value num).natAbs ≠ [] :=
    fun hc => digitText_ne_nil spec _ (List.append_eq_nil_iff.1 hc).2
  have hstops : NumberEnds (List.replicate k ' '.toNat.toUInt8 ++ rest) := by
    cases k with
    | zero => exact hrest
    | succ k => exact fun c hc => Option.some.inj hc ▸ by decide
  have hread := simpleStrtoull_baseText h.base hdigits hne hstops
  have habs : UInt64.ofNat (spec.value num).natAbs =
      if numberSign num spec = '-'.toNat.toUInt8 then -num else num := by
    rw [← natAbs_value, UInt64.ofNat_toNat]
  refine ⟨k, ?_⟩
  rw [number_eq h, htext, List.append_assoc, List.append_assoc, simpleStrtoll, signText]
  by_cases hneg : spec.value num < 0
  · rw [if_pos (numberSign_negative.2 hneg)] at habs
    have hhead (s : List UInt8) : deref (bytes "-" ++ s) = '-'.toNat.toUInt8 := rfl
    have hdrop (s : List UInt8) : (bytes "-" ++ s).drop 1 = s := rfl
    rw [if_pos hneg, if_pos (hhead _), hdrop, hread, habs, UInt64.neg_neg]
  · rw [if_neg (mt numberSign_negative.1 hneg)] at habs
    have hnone : (if spec.has sign then
        if spec.has plus then bytes "+" else if spec.has space then bytes " " else []
      else []) = [] := by
      split
      · next hs => rw [if_neg (hsign hs).1, if_neg (hsign hs).2]
      · rfl
    rw [if_neg hneg, hnone, List.nil_append, if_neg (front_ne_sign hdigits hne _), hread, habs]

theorem simpleStrtoll_number_small :
    ∃ k, simpleStrtoll (number (-255) ⟨.long, sign ||| special ||| zeropad ||| small, 16, 'l'.toNat.toUInt8,
        9, -1⟩ ++ bytes " more") (UInt64.ofNat (16 : UInt8).toNat) =
      (-255, List.replicate k ' '.toNat.toUInt8 ++ bytes " more") :=
  simpleStrtoll_number ⟨by decide, by decide, by decide, by decide, by decide⟩ (.inr (.inl rfl))
    (fun _ => ⟨by decide, by decide⟩) (fun c hc => Option.some.inj hc ▸ by decide)

end

end ShieldLoader
