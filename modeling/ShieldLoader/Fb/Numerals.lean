import ShieldLoader.Data.Numeral
import ShieldLoader.Fb.Strings

/-!
# What `simple_strtoull` reads

Without a base, `simple_strtoull` takes the longest numeral that the string starts with, modulo
`2 ^ 64`. Where there is none it takes nothing, and gives `0`.
-/

namespace ShieldLoader

open Ascii

/-! ### Characters -/

theorem UInt8.forall_of_fin {P : UInt8 → Prop} (h : ∀ i : Fin 256, P (UInt8.ofNat i.1)) (c : UInt8) :
    P c := by
  have := h ⟨c.toNat, c.toNat_lt⟩
  rwa [UInt8.ofNat_toNat] at this

theorem hexDigit_eq (c : UInt8) :
    hexDigit c = if isxdigit c then some (digitValue c).toNat else none := by
  revert c
  exact UInt8.forall_of_fin (by decide +kernel)

theorem isX_iff (c : UInt8) : isX c = true ↔ tolower c = 'x'.toNat.toUInt8 := by
  revert c
  exact UInt8.forall_of_fin (by decide +kernel)

theorem digit_eq {b : Nat} (hb : b ≤ 16) (c : UInt8) : digit b c =
    if isxdigit c ∧ digitValue c < UInt64.ofNat b then some (digitValue c).toNat else none := by
  have hof : (UInt64.ofNat b).toNat = b := UInt64.toNat_ofNat_of_lt' (hb.trans_lt (by decide))
  have hlt : digitValue c < UInt64.ofNat b ↔ (digitValue c).toNat < b := by
    rw [UInt64.lt_iff_toNat_lt, hof]
  simp only [digit, hexDigit_eq, hlt]
  by_cases hx : isxdigit c = true
  · by_cases hc : (digitValue c).toNat < b <;> simp [hx, hc, not_lt.1]
  · simp [hx]

/-! ### The loop -/

/-- The loop reads the digits of the base. -/
theorem simpleStrtoull.loop_digits {b n m : Nat} (hb : b ≤ 16) {ds rest : List UInt8}
    (h : digits b n ds = some m) (hrest : ∀ c ∈ rest.head?, digit b c = none) :
    simpleStrtoull.loop (UInt64.ofNat b) (UInt64.ofNat n) (ds ++ rest) = (UInt64.ofNat m, rest) := by
  induction ds generalizing n with
  | nil =>
    obtain rfl := Option.some.inj h
    cases rest with
    | nil => rfl
    | cons c rest =>
      have hc := hrest c rfl
      rw [digit_eq hb] at hc
      rw [List.nil_append, loop, if_neg]
      exact fun hd => absurd (if_pos hd ▸ hc) (Option.some_ne_none _)
  | cons c ds ih =>
    obtain ⟨d, hd, hds⟩ := digits_cons.1 h
    rw [digit_eq hb] at hd
    split at hd
    · next hc =>
      obtain rfl := Option.some.inj hd
      rw [List.cons_append, loop, if_pos hc, ← ih hds, UInt64.ofNat_add, UInt64.ofNat_mul,
        UInt64.ofNat_toNat]
    · cases hd

/-! ### The number -/

theorem isxdigit_iff (c : UInt8) : isxdigit c = true ↔ digit 16 c ≠ none := by
  have hlt : isxdigit c = true → digitValue c < 16 := by
    revert c
    exact UInt8.forall_of_fin (by decide +kernel)
  rw [digit_eq le_rfl]
  by_cases hx : isxdigit c = true
  · rw [if_pos ⟨hx, hlt hx⟩]
    exact iff_of_true hx (Option.some_ne_none _)
  · rw [if_neg fun h => hx h.1]
    exact iff_of_false hx fun h => h rfl

/-- How `simple_guess_base` tells a hexadecimal numeral. -/
theorem isHexTail_iff (s : List UInt8) : IsHexTail s ↔
    tolower (deref s) = 'x'.toNat.toUInt8 ∧ isxdigit (deref (s.drop 1)) = true := by
  constructor
  · rintro ⟨x, c, t, rfl, hx, hc⟩
    exact ⟨(isX_iff x).1 hx, (isxdigit_iff c).2 hc⟩
  · rintro ⟨hx, hc⟩
    match s with
    | [] => exact absurd hx (by decide)
    | [x] => exact absurd hc (by simp [deref]; decide)
    | x :: c :: s => exact ⟨x, c, s, rfl, (isX_iff x).2 hx, (isxdigit_iff c).1 hc⟩

/-- The base is guessed, and the prefix of a hexadecimal numeral is passed over. -/
theorem simpleStrtoull_zero (s : List UInt8) : simpleStrtoull s 0 =
    if simpleGuessBase s = 16 then simpleStrtoull.loop 16 0 (s.drop 2)
    else simpleStrtoull.loop (simpleGuessBase s) 0 s := by
  simp only [simpleStrtoull, if_true]
  by_cases h : simpleGuessBase s = 16
  · have hpre : deref s = '0'.toNat.toUInt8 ∧ tolower (deref (s.drop 1)) = 'x'.toNat.toUInt8 := by
      rw [simpleGuessBase] at h
      split at h
      · next h0 =>
        split at h
        · next hx => exact ⟨h0, hx.1⟩
        · exact absurd h (by decide)
      · exact absurd h (by decide)
    rw [if_pos ⟨h, hpre⟩, if_pos h, h]
  · rw [if_neg fun hc => h hc.1, if_neg h]

theorem simpleGuessBase_zero (s : List UInt8) [Decidable (IsHexTail s)] :
    simpleGuessBase ('0'.toNat.toUInt8 :: s) = if IsHexTail s then 16 else 8 := by
  have h0 : deref ('0'.toNat.toUInt8 :: s) = '0'.toNat.toUInt8 := rfl
  rw [simpleGuessBase, if_pos h0]
  exact if_congr (isHexTail_iff s).symm rfl rfl

/-- **`simple_strtoull` reads the longest numeral.** -/
theorem simpleStrtoull_spec (s : List UInt8) : ∃ f rest, s = f ++ rest ∧ IsLeading f s ∧
    simpleStrtoull s 0 = (UInt64.ofNat ((numeral f).getD 0), rest) := by
  classical
  rw [simpleStrtoull_zero]
  by_cases h0 : s.head? = some '0'.toNat.toUInt8
  · obtain ⟨s, rfl⟩ := List.head?_eq_some_iff.1 h0
    rw [simpleGuessBase_zero]
    by_cases hx : IsHexTail s
    · obtain ⟨x, c, t, rfl, hx', hc⟩ := id hx
      obtain ⟨f, rest, m, hct, hf, hrest⟩ := exists_digits 16 0 (c :: t)
      have hne : f ≠ [] := by
        rintro rfl
        have hcons : rest = c :: t := hct.symm
        exact hc (hrest c (by rw [hcons]; rfl))
      obtain ⟨hlead, hnum⟩ := isLeading_hex hx' hne hf hrest
      rw [if_pos hx, if_pos rfl, hct]
      refine ⟨_, rest, rfl, hlead, ?_⟩
      rw [hnum]
      exact simpleStrtoull.loop_digits le_rfl hf hrest
    · obtain ⟨f, rest, m, rfl, hf, hrest⟩ := exists_digits 8 0 s
      obtain ⟨hlead, hnum⟩ := isLeading_octal hx hf hrest
      have hloop : digits 8 0 ('0'.toNat.toUInt8 :: f) = some m := hf
      rw [if_neg hx, if_neg (by decide)]
      refine ⟨_, rest, rfl, hlead, ?_⟩
      rw [hnum]
      exact simpleStrtoull.loop_digits (by decide) hloop hrest
  · obtain ⟨f, rest, m, rfl, hf, hrest⟩ := exists_digits 10 0 s
    obtain ⟨hlead, hnum⟩ := isLeading_decimal h0 hf hrest
    have hbase : simpleGuessBase (f ++ rest) = 10 := by
      refine if_neg fun h => h0 ?_
      cases hs : f ++ rest with
      | nil => exact absurd (hs ▸ h) (by decide)
      | cons c t => exact congrArg some (by rwa [hs] at h)
    rw [hbase, if_neg (by decide)]
    refine ⟨f, rest, rfl, hlead, ?_⟩
    rw [hnum]
    exact simpleStrtoull.loop_digits (by decide) hf hrest

section
variable {f s w c rest : List UInt8}

theorem simpleStrtoull_of_isLeading (h : IsLeading f (f ++ rest)) :
    simpleStrtoull (f ++ rest) 0 = (UInt64.ofNat ((numeral f).getD 0), rest) := by
  obtain ⟨g, rest', heq, hg, hread⟩ := simpleStrtoull_spec (f ++ rest)
  obtain rfl := h.unique hg
  rw [hread, List.append_cancel_left heq]

/-! ### Where the number ends -/

/-- A numeral, or nothing, is passed over up to a blank or the end. -/
theorem simpleStrtoull_scanned (h : Scanned f) (hrest : ∀ c ∈ rest.head?, isNumeralChar c = false) :
    simpleStrtoull (f ++ rest) 0 = (UInt64.ofNat ((numeral f).getD 0), rest) :=
  simpleStrtoull_of_isLeading (h.isLeading hrest)

theorem simpleStrtoull_blank (h : Scanned f) :
    simpleStrtoull (f ++ blank :: c) 0 = (UInt64.ofNat ((numeral f).getD 0), blank :: c) :=
  simpleStrtoull_scanned h fun _ hc => Option.some.inj hc ▸ by decide

theorem simpleStrtoull_end (h : Scanned f) :
    simpleStrtoull f 0 = (UInt64.ofNat ((numeral f).getD 0), []) := by
  have hread := @simpleStrtoull_scanned f [] h (by simp)
  rwa [List.append_nil] at hread

theorem blank_notMem_scanned (h : Scanned f) : blank ∉ f := h.notMem (by decide)

/-- The number ends at a blank if what is before the first blank is a numeral, or nothing. -/
theorem deref_blank_iff (hw : blank ∉ w) :
    deref (simpleStrtoull (w ++ blank :: c) 0).2 = blank ↔ Scanned w := by
  constructor
  · intro h
    obtain ⟨f, rest, heq, hf, hread⟩ := simpleStrtoull_spec (w ++ blank :: c)
    rw [hread] at h
    cases rest with
    | nil => exact absurd h blank_ne_zero.symm
    | cons d rest =>
      obtain rfl : d = blank := h
      have hwords := congrArg words heq
      rw [words_append_blank hw, words_append_blank (blank_notMem_scanned hf.scanned)] at hwords
      exact (List.cons.inj hwords).1 ▸ hf.scanned
  · intro h
    rw [simpleStrtoull_blank h]
    rfl

theorem deref_ne_blank (h : blank ∉ s) : deref (simpleStrtoull s 0).2 ≠ blank := by
  intro hd
  refine h ((simpleStrtoull_suffix s 0).subset ?_)
  cases hr : (simpleStrtoull s 0).2 with
  | nil =>
    rw [hr] at hd
    exact absurd hd.symm blank_ne_zero
  | cons c rest =>
    rw [hr] at hd
    exact hd ▸ List.mem_cons_self

/-- The number ends at the end of the string if this is a numeral, or empty. -/
theorem deref_zero_iff (h0 : 0 ∉ s) : deref (simpleStrtoull s 0).2 = 0 ↔ Scanned s := by
  constructor
  · intro h
    obtain ⟨f, rest, heq, hf, hread⟩ := simpleStrtoull_spec s
    rw [hread] at h
    cases rest with
    | nil =>
      rw [List.append_nil] at heq
      exact heq ▸ hf.scanned
    | cons d rest =>
      obtain rfl : d = 0 := h
      exact absurd (heq ▸ by simp) h0
  · intro h
    rw [simpleStrtoull_end h]
    rfl

end

end ShieldLoader
