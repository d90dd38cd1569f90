import Mathlib.Data.List.Basic
import Mathlib.Data.List.Infix

/-!
# Words and numerals

Words of ASCII text between blanks, and the numerals of C: decimal, octal behind `0`, hexadecimal
behind `0x` or `0X`. A reader of numerals takes the longest one that a text starts with.
-/

namespace Ascii

/-- The blank. -/
abbrev blank : UInt8 := ' '.toNat.toUInt8

/-- The words between the blanks of a text. Two blanks in a row have an empty word between them. -/
def words (s : List UInt8) : List (List UInt8) := s.splitOn blank

section
variable {s t w : List UInt8}

theorem words_eq_singleton (h : blank ∉ s) : words s = [s] := List.splitOn_eq_singleton h

theorem words_append_blank (h : blank ∉ w) : words (w ++ blank :: s) = w :: words s :=
  List.splitOn_append_cons_self_of_not_mem h s

theorem words_append (s t : List UInt8) : words (s ++ blank :: t) = words s ++ words t :=
  List.splitOn_append_cons_self s t

theorem words_inj (h : words s = words t) : s = t := by
  have hs : [blank].intercalate (words s) = s := List.intercalate_splitOn blank
  have ht : [blank].intercalate (words t) = t := List.intercalate_splitOn blank
  rw [← hs, h, ht]

theorem words_eq_singleton_iff (h : blank ∉ w) : words s = [w] ↔ s = w := by
  rw [← words_eq_singleton h]
  exact ⟨words_inj, congrArg words⟩

theorem words_ne_nil (s : List UInt8) : words s ≠ [] := by
  rw [words]
  exact List.splitOn_ne_nil blank s

/-- A text is one word, or a word and, behind a blank, a text. -/
theorem words_cases (s : List UInt8) : blank ∉ s ∨ ∃ w t, blank ∉ w ∧ s = w ++ blank :: t := by
  by_cases h : blank ∈ s
  · obtain ⟨w, t, rfl, hw⟩ := List.eq_append_cons_of_mem h
    exact .inr ⟨w, t, hw, rfl⟩
  · exact .inl h

theorem isInfix_of_mem_words (h : w ∈ words s) : w <:+: s := by
  induction hn : s.length using Nat.strong_induction_on generalizing s with
  | _ n ih =>
    rcases words_cases s with hno | ⟨v, t, hv, rfl⟩
    · rw [words_eq_singleton hno, List.mem_singleton] at h
      exact h ▸ List.infix_rfl
    · rw [words_append_blank hv] at h
      cases List.mem_cons.1 h with
      | inl h => exact h ▸ (List.prefix_append ..).isInfix
      | inr h =>
        have hlt : t.length < n := by
          rw [← hn, List.length_append, List.length_cons]
          omega
        have hsuffix : t <:+ v ++ blank :: t := (List.suffix_cons ..).trans (List.suffix_append ..)
        exact (ih _ hlt h rfl).trans hsuffix.isInfix

/-- The first word of a text that starts with `w`. -/
theorem exists_words_append (hw : blank ∉ w) (s : List UInt8) : ∃ v rest ws, s = v ++ rest ∧
    (∀ c ∈ rest.head?, c = blank) ∧ words (w ++ s) = (w ++ v) :: ws := by
  rcases words_cases s with hno | ⟨v, t, hv, rfl⟩
  · have hws : blank ∉ w ++ s := List.not_mem_append hw hno
    exact ⟨s, [], [], (List.append_nil s).symm, by simp, words_eq_singleton hws⟩
  · refine ⟨v, blank :: t, words t, rfl, fun c hc => (Option.some.inj hc).symm, ?_⟩
    rw [← List.append_assoc, words_append_blank (List.not_mem_append hw hv)]

end

/-! ### Digits -/

/-- The value of a hexadecimal digit. -/
def hexDigit (c : UInt8) : Option Nat :=
  if '0'.toNat ≤ c.toNat ∧ c.toNat ≤ '9'.toNat then some (c.toNat - '0'.toNat)
  else if 'A'.toNat ≤ c.toNat ∧ c.toNat ≤ 'F'.toNat then some (c.toNat - 'A'.toNat + 10)
  else if 'a'.toNat ≤ c.toNat ∧ c.toNat ≤ 'f'.toNat then some (c.toNat - 'a'.toNat + 10)
  else none

/-- The value of a digit of base `b`. -/
def digit (b : Nat) (c : UInt8) : Option Nat := (hexDigit c).filter (· < b)

/-- The number of these digits of base `b`, behind those of `n`. -/
def digits (b : Nat) : Nat → List UInt8 → Option Nat
  | n, [] => some n
  | n, c :: s => (digit b c).bind fun d => digits b (n * b + d) s

section
variable {b n m : Nat} {s t ds rest : List UInt8} {c : UInt8}

theorem digits_cons : digits b n (c :: s) = some m ↔
    ∃ d, digit b c = some d ∧ digits b (n * b + d) s = some m := Option.bind_eq_some_iff

theorem hexDigit_of_digit (h : digit b c ≠ none) : hexDigit c ≠ none := by
  intro hc
  rw [digit, hc] at h
  exact h rfl

theorem digit_ne_none_of_mem (h : digits b n s = some m) (hc : c ∈ s) : digit b c ≠ none := by
  induction s generalizing n with
  | nil => exact absurd hc List.not_mem_nil
  | cons d s ih =>
    obtain ⟨v, hd, hs⟩ := digits_cons.1 h
    cases List.mem_cons.1 hc with
    | inl h => exact h ▸ hd ▸ Option.some_ne_none v
    | inr h => exact ih hs h

/-- The digits at the start of a text, up to a character that is none. -/
theorem exists_digits (b n : Nat) (s : List UInt8) : ∃ ds rest m, s = ds ++ rest ∧
    digits b n ds = some m ∧ ∀ c ∈ rest.head?, digit b c = none := by
  induction s generalizing n with
  | nil => exact ⟨[], [], n, rfl, rfl, by simp⟩
  | cons c s ih =>
    cases hc : digit b c with
    | none => exact ⟨[], c :: s, n, rfl, rfl, by simpa using hc⟩
    | some d =>
      obtain ⟨ds, rest, m, rfl, hds, hrest⟩ := ih (n * b + d)
      exact ⟨c :: ds, rest, m, rfl, digits_cons.2 ⟨d, hc, hds⟩, hrest⟩

/-- Text without a certain kind of character does not reach over one. -/
theorem length_le_before {P : UInt8 → Prop} (h : t <+: ds ++ rest) (ht : ∀ c ∈ t, P c)
    (hrest : ∀ c ∈ rest.head?, ¬P c) : t.length ≤ ds.length := by
  by_contra hlt
  cases rest with
  | nil =>
    rw [List.append_nil] at h
    exact hlt h.length_le
  | cons c rest =>
    rw [not_le] at hlt
    obtain ⟨u, hu⟩ := h
    have hget : (t ++ u)[ds.length]? = some c := by
      rw [hu]
      simp
    rw [List.getElem?_append_left hlt] at hget
    exact hrest c rfl (ht c (List.mem_of_getElem? hget))

end

/-! ### Numerals -/

/-- The letter of a hexadecimal numeral. -/
def isX (c : UInt8) : Bool := c = 'x'.toNat.toUInt8 || c = 'X'.toNat.toUInt8

/-- The numerals and their numbers. -/
inductive Numeral : List UInt8 → Nat → Prop
  | decimal {c s n} : c ≠ '0'.toNat.toUInt8 → digits 10 0 (c :: s) = some n → Numeral (c :: s) n
  | octal {s n} : digits 8 0 s = some n → Numeral ('0'.toNat.toUInt8 :: s) n
  | hex {x c s n} : isX x → digits 16 0 (c :: s) = some n →
    Numeral ('0'.toNat.toUInt8 :: x :: c :: s) n

/-- The number of a numeral. -/
def numeral : List UInt8 → Option Nat
  | [] => none
  | c :: s =>
    if c ≠ '0'.toNat.toUInt8 then digits 10 0 (c :: s)
    else
      match s with
      | x :: d :: s => if isX x then digits 16 0 (d :: s) else digits 8 0 (x :: d :: s)
      | s => digits 8 0 s

section
variable {s t f g rest : List UInt8} {n m : Nat} {c x : UInt8}

theorem digit_of_isX (h : isX x) : hexDigit x = none := by
  rw [isX, Bool.or_eq_true, decide_eq_true_iff, decide_eq_true_iff] at h
  rcases h with rfl | rfl <;> decide

theorem numeral_eq_some : numeral s = some n ↔ Numeral s n := by
  constructor
  · intro h
    cases s with
    | nil => cases h
    | cons c s =>
      unfold numeral at h
      dsimp only at h
      split at h
      · next hc => exact .decimal hc h
      · next hc =>
        obtain rfl := not_not.1 hc
        split at h
        · split at h
          · next hx => exact .hex hx h
          · exact .octal h
        · exact .octal h
  · intro h
    cases h with
    | decimal hc h =>
      unfold numeral
      dsimp only
      rw [if_pos hc, h]
    | hex hx h =>
      unfold numeral
      dsimp only
      rw [if_neg (not_not.2 rfl), if_pos hx, h]
    | octal h =>
      unfold numeral
      dsimp only
      rw [if_neg (not_not.2 rfl)]
      split
      · next x d s =>
        -- an `x` is no octal digit
        rw [if_neg, h]
        intro hx
        exact digit_ne_none_of_mem h List.mem_cons_self (by rw [digit, digit_of_isX hx]; rfl)
      · exact h

theorem Numeral.head_digit (h : Numeral (c :: s) n) : digit 10 c ≠ none := by
  cases h with
  | decimal _ h => exact digit_ne_none_of_mem h List.mem_cons_self
  | octal | hex => decide

/-- The characters of numerals. -/
def isNumeralChar (c : UInt8) : Bool := isX c || (hexDigit c).isSome

theorem Numeral.char (h : Numeral s n) (hc : c ∈ s) : isNumeralChar c := by
  have hdigits : ∀ {b n s m}, digits b n s = some m → c ∈ s → isNumeralChar c := by
    intro b n s m h hc
    have := hexDigit_of_digit (digit_ne_none_of_mem h hc)
    rw [isNumeralChar, Option.isSome_iff_ne_none.2 this, Bool.or_true]
  cases h with
  | decimal _ h => exact hdigits h hc
  | octal h =>
    rcases List.mem_cons.1 hc with rfl | hc
    · decide
    · exact hdigits h hc
  | hex hx h =>
    rcases List.mem_cons.1 hc with rfl | hc
    · decide
    · rcases List.mem_cons.1 hc with rfl | hc
      · rw [isNumeralChar, hx, Bool.true_or]
      · exact hdigits h hc

/-- The text is a numeral. -/
def IsNumeral (s : List UInt8) : Prop := (numeral s).isSome

instance (s : List UInt8) : Decidable (IsNumeral s) := inferInstanceAs (Decidable (_ = true))

/-- A text that a reader of numerals passes over as a whole: a numeral, or nothing. -/
def Scanned (s : List UInt8) : Prop := s = [] ∨ IsNumeral s

instance (s : List UInt8) : Decidable (Scanned s) := inferInstanceAs (Decidable (_ ∨ _))

theorem isNumeral_iff_exists : IsNumeral s ↔ ∃ n, numeral s = some n := Option.isSome_iff_exists

theorem isNumeral_iff : IsNumeral s ↔ s ≠ [] ∧ Scanned s := by
  refine ⟨fun h => ⟨?_, .inr h⟩, fun h => h.2.resolve_left h.1⟩
  rintro rfl
  exact Bool.false_ne_true h

theorem Scanned.char (h : Scanned s) (hc : c ∈ s) : isNumeralChar c := by
  rcases h with rfl | h
  · exact absurd hc List.not_mem_nil
  · obtain ⟨n, hn⟩ := isNumeral_iff_exists.1 h
    exact (numeral_eq_some.1 hn).char hc

theorem Scanned.notMem (h : Scanned s) (hc : isNumeralChar c = false) : c ∉ s := fun hmem =>
  Bool.false_ne_true (hc.symm.trans (h.char hmem))

/-- `f` is the longest numeral that `s` starts with, or empty, if it starts with none. -/
structure IsLeading (f s : List UInt8) : Prop where
  isPrefix : f <+: s
  scanned : Scanned f
  longest : ∀ g, g <+: s → IsNumeral g → g.length ≤ f.length

theorem IsLeading.unique (h : IsLeading f s) (h' : IsLeading g s) : f = g := by
  have hle : ∀ {f g}, IsLeading f s → IsLeading g s → g.length ≤ f.length := by
    intro f g h h'
    rcases h'.scanned with rfl | hg
    · exact Nat.zero_le _
    · exact h.longest g h'.isPrefix hg
  exact (List.prefix_of_prefix_length_le h.isPrefix h'.isPrefix (hle h' h)).eq_of_length
    ((hle h' h).antisymm (hle h h'))

/-- A numeral ends before a character that is in none. -/
theorem Scanned.isLeading (h : Scanned f) (hrest : ∀ c ∈ rest.head?, isNumeralChar c = false) :
    IsLeading f (f ++ rest) := by
  refine ⟨List.prefix_append .., h, fun g hg hn => ?_⟩
  have hg' : Scanned g := .inr hn
  refine length_le_before (P := fun c => isNumeralChar c) hg (fun c => hg'.char) ?_
  intro c hc
  rw [hrest c hc]
  exact Bool.false_ne_true

/-- A character and a digit behind a `0` that make it a hexadecimal numeral. -/
def IsHexTail (s : List UInt8) : Prop := ∃ x c t, s = x :: c :: t ∧ isX x ∧ digit 16 c ≠ none

/-- The longest numeral of a text that starts with no `0`. -/
theorem isLeading_decimal (hs : (f ++ rest).head? ≠ some '0'.toNat.toUInt8)
    (h : digits 10 0 f = some n) (hrest : ∀ c ∈ rest.head?, digit 10 c = none) :
    IsLeading f (f ++ rest) ∧ (numeral f).getD 0 = n := by
  have hnum : f = [] ∧ n = 0 ∨ numeral f = some n := by
    cases f with
    | nil => exact .inl ⟨rfl, (Option.some.inj h).symm⟩
    | cons c f => exact .inr (numeral_eq_some.2 (.decimal (fun hc => hs (by simp [hc])) h))
  refine ⟨⟨List.prefix_append .., ?_, fun g hg hn => ?_⟩, ?_⟩
  · exact hnum.imp And.left fun h => isNumeral_iff_exists.2 ⟨n, h⟩
  · obtain ⟨m, hm⟩ := isNumeral_iff_exists.1 hn
    obtain ⟨t, ht⟩ := hg
    rw [← ht] at hs
    cases numeral_eq_some.1 hm with
    | decimal _ hd =>
      exact length_le_before ⟨t, ht⟩ (fun c => digit_ne_none_of_mem hd)
        fun c hc => not_not.2 (hrest c hc)
    | octal | hex => exact absurd rfl hs
  · rcases hnum with ⟨rfl, rfl⟩ | h
    · rfl
    · rw [h]
      rfl

/-- The longest numeral of a text that starts with a `0` and is not hexadecimal. -/
theorem isLeading_octal (hs : ¬IsHexTail (f ++ rest)) (h : digits 8 0 f = some n)
    (hrest : ∀ c ∈ rest.head?, digit 8 c = none) :
    IsLeading ('0'.toNat.toUInt8 :: f) ('0'.toNat.toUInt8 :: (f ++ rest)) ∧
      numeral ('0'.toNat.toUInt8 :: f) = some n := by
  have hnum : numeral ('0'.toNat.toUInt8 :: f) = some n := numeral_eq_some.2 (.octal h)
  refine ⟨⟨⟨rest, rfl⟩, .inr (isNumeral_iff_exists.2 ⟨n, hnum⟩), fun g hg hn => ?_⟩, hnum⟩
  obtain ⟨m, hm⟩ := isNumeral_iff_exists.1 hn
  obtain ⟨t, ht⟩ := hg
  cases numeral_eq_some.1 hm with
  | decimal hc _ => exact absurd (List.cons.inj ht).1 hc
  | octal hd =>
    exact Nat.succ_le_succ (length_le_before ⟨t, (List.cons.inj ht).2⟩
      (fun c => digit_ne_none_of_mem hd) fun c hc => not_not.2 (hrest c hc))
  | @hex x c g m hx hd =>
    exact absurd ⟨x, c, g ++ t, (List.cons.inj ht).2.symm, hx,
      digit_ne_none_of_mem hd List.mem_cons_self⟩ hs

/-- The longest numeral of a text that starts as a hexadecimal one. -/
theorem isLeading_hex (hx : isX x) (hf : f ≠ []) (h : digits 16 0 f = some n)
    (hrest : ∀ c ∈ rest.head?, digit 16 c = none) :
    IsLeading ('0'.toNat.toUInt8 :: x :: f) ('0'.toNat.toUInt8 :: x :: (f ++ rest)) ∧
      numeral ('0'.toNat.toUInt8 :: x :: f) = some n := by
  have hnum : numeral ('0'.toNat.toUInt8 :: x :: f) = some n := by
    obtain ⟨c, f, rfl⟩ := List.exists_cons_of_ne_nil hf
    exact numeral_eq_some.2 (.hex hx h)
  refine ⟨⟨⟨rest, rfl⟩, .inr (isNumeral_iff_exists.2 ⟨n, hnum⟩), fun g hg hn => ?_⟩, hnum⟩
  obtain ⟨m, hm⟩ := isNumeral_iff_exists.1 hn
  obtain ⟨t, ht⟩ := hg
  cases numeral_eq_some.1 hm with
  | decimal hc _ => exact absurd (List.cons.inj ht).1 hc
  | @octal g m hd =>
    cases g with
    | nil => exact Nat.succ_le_succ (Nat.zero_le _)
    | cons c g =>
      have hc : c = x := (List.cons.inj (List.cons.inj ht).2).1
      have hdigit := digit_ne_none_of_mem hd List.mem_cons_self
      exact absurd (digit_of_isX hx) (hexDigit_of_digit (hc ▸ hdigit))
  | hex _ hd =>
    have hg := (List.cons.inj (List.cons.inj ht).2).2
    exact Nat.succ_le_succ (Nat.succ_le_succ (length_le_before ⟨t, hg⟩
      (fun c => digit_ne_none_of_mem hd) fun c hc => not_not.2 (hrest c hc)))

end

example : numeral ['0'.toNat.toUInt8, 'x'.toNat.toUInt8, 'F'.toNat.toUInt8] = some 15 := by decide

example : numeral ['0'.toNat.toUInt8, 'x'.toNat.toUInt8] = none := by decide

end Ascii
