import ShieldLoader.Data.Word
import Mathlib.Data.List.TakeWhile

/-!
# Strings

The functions of `string.c` and `vsprintf.c` that `fb.c` uses. A `char *` is the list of the bytes
from it to the end of its buffer; a byte past the end reads as `0`. The text of a string is what
comes before its first `0`.
-/

namespace ShieldLoader

/-- The bytes of a string literal, without its `0`. -/
def bytes (s : String) : List UInt8 := s.toList.map fun c => c.toNat.toUInt8

/-- The text of a C string. -/
def text (s : List UInt8) : List UInt8 := s.takeWhile (· ≠ 0)

/-- `*s`. -/
def deref (s : List UInt8) : UInt8 := s.headD 0

/-- `!memcmp (s, t, n)` for the `n` bytes `t`. -/
def memcmp (s t : List UInt8) : Bool := s.take t.length == t

/-- `!strcmp (s, t)` for a literal `t`. -/
def strcmp (s t : List UInt8) : Bool := text s == t

/-- `isdigit`. -/
def isdigit (c : UInt8) : Bool := '0'.toNat.toUInt8 ≤ c && c ≤ '9'.toNat.toUInt8

/-- `isxdigit`. -/
def isxdigit (c : UInt8) : Bool :=
  isdigit c || ('A'.toNat.toUInt8 ≤ c && c ≤ 'F'.toNat.toUInt8) ||
    ('a'.toNat.toUInt8 ≤ c && c ≤ 'f'.toNat.toUInt8)

/-- `isascii (c) && isgraph (c)`. -/
def isgraph (c : UInt8) : Bool := '!'.toNat.toUInt8 ≤ c && c ≤ '~'.toNat.toUInt8

/-- `TOLOWER`. -/
def tolower (c : UInt8) : UInt8 := c ||| 0x20

/-- `simple_guess_base`. -/
def simpleGuessBase (cp : List UInt8) : UInt64 :=
  if deref cp = '0'.toNat.toUInt8 then
    if tolower (deref (cp.drop 1)) = 'x'.toNat.toUInt8 ∧ isxdigit (deref (cp.drop 2)) then 16 else 8
  else 10

/-- The value of a hexadecimal digit. -/
def digitValue (c : UInt8) : UInt64 :=
  if isdigit c then c.toUInt64 - '0'.toNat.toUInt64
  else (tolower c).toUInt64 - 'a'.toNat.toUInt64 + 10

/-- The loop of `simple_strtoull`. -/
def simpleStrtoull.loop (base : UInt64) : UInt64 → List UInt8 → UInt64 × List UInt8
  | result, [] => (result, [])
  | result, c :: cp =>
    if isxdigit c ∧ digitValue c < base then loop base (result * base + digitValue c) cp
    else (result, c :: cp)

/-- `simple_strtoull`, with the end of the number. -/
def simpleStrtoull (cp : List UInt8) (base : UInt64) : UInt64 × List UInt8 :=
  let base := if base = 0 then simpleGuessBase cp else base
  let cp :=
    if base = 16 ∧ deref cp = '0'.toNat.toUInt8 ∧ tolower (deref (cp.drop 1)) = 'x'.toNat.toUInt8
    then cp.drop 2 else cp
  simpleStrtoull.loop base 0 cp

theorem blank_ne_zero : ' '.toNat.toUInt8 ≠ 0 := by decide

theorem simpleStrtoull.loop_suffix (base result : UInt64) (cp : List UInt8) :
    (simpleStrtoull.loop base result cp).2 <:+ cp := by
  induction cp generalizing result with
  | nil => exact List.suffix_rfl
  | cons c cp ih =>
    rw [simpleStrtoull.loop]
    split
    · exact (ih _).trans (List.suffix_cons c cp)
    · exact List.suffix_rfl

theorem simpleStrtoull_suffix (cp : List UInt8) (base : UInt64) :
    (simpleStrtoull cp base).2 <:+ cp := by
  rw [simpleStrtoull]
  refine (simpleStrtoull.loop_suffix ..).trans ?_
  split
  all_goals split
  all_goals first | exact List.suffix_rfl | exact List.drop_suffix 2 cp

/-- A number that does not end at a `0` or is not empty ends further on. -/
theorem simpleStrtoull_length_lt {cp : List UInt8} {base : UInt64} (h : deref cp ≠ 0)
    (hr : deref (simpleStrtoull cp base).2 = 0) : (simpleStrtoull cp base).2.length < cp.length := by
  refine lt_of_le_of_ne (simpleStrtoull_suffix cp base).length_le fun hlen => h ?_
  rwa [(simpleStrtoull_suffix cp base).eq_of_length hlen] at hr

theorem length_drop_one_lt {cp : List UInt8} (h : deref cp ≠ 0) :
    (cp.drop 1).length < cp.length := by
  cases cp with
  | nil => exact absurd rfl h
  | cons c cp => exact Nat.lt_succ_self _

theorem memcmp_iff {s t : List UInt8} : memcmp s t = true ↔ t <+: s := by
  rw [memcmp, beq_iff_eq, List.prefix_iff_eq_take, eq_comm]

/-! ### Formats -/

/-- `%lx`. -/
def fmtHex (n : UInt64) : List UInt8 := (Nat.toDigits 16 n.toNat).map fun c => c.toNat.toUInt8

/-- `%0*lx`. -/
def fmtHexPad (width : Nat) (n : UInt64) : List UInt8 :=
  List.replicate (width - (fmtHex n).length) '0'.toNat.toUInt8 ++ fmtHex n

/-- `%p`. -/
def fmtPointer (p : UInt64) : List UInt8 :=
  if p = 0 then List.replicate 10 ' '.toNat.toUInt8 ++ bytes "(null)" else fmtHexPad 16 p

/-- The text that `scnprintf` leaves in a buffer of `size` bytes. -/
def scnprintf (size : Nat) (s : List UInt8) : List UInt8 := s.take (size - 1)

theorem length_fmtHexPad {width : Nat} {n : UInt64} (h0 : 0 < width) (h : n.toNat < 16 ^ width) :
    (fmtHexPad width n).length = width := by
  have hle : (fmtHex n).length ≤ width := by
    rw [fmtHex, List.length_map]
    exact (Nat.length_toDigits_le_iff (by decide) h0).2 h
  rw [fmtHexPad, List.length_append, List.length_replicate]
  omega

theorem length_fmtHex_le (n : UInt64) : (fmtHex n).length ≤ 16 := by
  rw [fmtHex, List.length_map]
  exact (Nat.length_toDigits_le_iff (by decide) (by decide)).2 (n.toNat_lt.trans_le (by norm_num))

theorem digitChar_inj {m n : Nat} (hm : m < 16) (hn : n < 16)
    (h : m.digitChar.toNat.toUInt8 = n.digitChar.toNat.toUInt8) : m = n := by
  have hall : ∀ m n : Fin 16, m.1.digitChar.toNat.toUInt8 = n.1.digitChar.toNat.toUInt8 → m = n := by
    decide
  exact congrArg Fin.val (hall ⟨m, hm⟩ ⟨n, hn⟩ h)

theorem toDigits_inj {m n : Nat} (h : (Nat.toDigits 16 m).map (fun c => c.toNat.toUInt8) =
    (Nat.toDigits 16 n).map fun c => c.toNat.toUInt8) : m = n := by
  induction m using Nat.strong_induction_on generalizing n with
  | _ m ih =>
    rw [Nat.toDigits_eq_if (by decide) (n := m), Nat.toDigits_eq_if (by decide) (n := n)] at h
    by_cases hm : m < 16
    · by_cases hn : n < 16
      · rw [if_pos hm, if_pos hn] at h
        exact digitChar_inj hm hn (List.cons.inj h).1
      · rw [if_pos hm, if_neg hn, List.map_append] at h
        have hlen := congrArg List.length h
        simp at hlen
    · by_cases hn : n < 16
      · rw [if_neg hm, if_pos hn, List.map_append] at h
        have hlen := congrArg List.length h
        simp at hlen
      · rw [if_neg hm, if_neg hn, List.map_append, List.map_append] at h
        obtain ⟨h1, h2⟩ := List.append_inj' h rfl
        have hdiv := ih (m / 16) (by omega) h1
        have hmod := digitChar_inj (Nat.mod_lt m (by decide)) (Nat.mod_lt n (by decide))
          (List.cons.inj h2).1
        omega

/-- A number is read off its digits. -/
theorem fmtHex_inj {a b : UInt64} (h : fmtHex a = fmtHex b) : a = b :=
  UInt64.toNat_inj.1 (toDigits_inj h)

/-! ### Numbers that are read back -/

/-- A character of a hexadecimal number. -/
structure IsHexDigit (c : UInt8) : Prop where
  xdigit : isxdigit c = true
  lt : digitValue c < 16
  not_x : tolower c ≠ 'x'.toNat.toUInt8

/-- What a digit is to `simple_strtoull`. -/
theorem digitChar_spec {d : Nat} (h : d < 16) :
    IsHexDigit d.digitChar.toNat.toUInt8 ∧
      digitValue d.digitChar.toNat.toUInt8 = UInt64.ofNat d := by
  have hall : ∀ d : Fin 16, isxdigit d.1.digitChar.toNat.toUInt8 = true ∧
      digitValue d.1.digitChar.toNat.toUInt8 < 16 ∧
      tolower d.1.digitChar.toNat.toUInt8 ≠ 'x'.toNat.toUInt8 ∧
      digitValue d.1.digitChar.toNat.toUInt8 = UInt64.ofNat d.1 := by
    decide
  obtain ⟨hx, hlt, hne, hv⟩ := hall ⟨d, h⟩
  exact ⟨⟨hx, hlt, hne⟩, hv⟩

theorem isHexDigit_of_mem_fmtHex {n : UInt64} {c : UInt8} (h : c ∈ fmtHex n) : IsHexDigit c := by
  obtain ⟨ch, hch, rfl⟩ := List.mem_map.1 h
  generalize n.toNat = n at hch
  induction n using Nat.base_induction 16 (by decide) with
  | single d hd =>
    rw [Nat.toDigits_of_lt_base hd, List.mem_singleton] at hch
    exact hch ▸ (digitChar_spec hd).1
  | digit m d hd hm ih =>
    rw [← Nat.toDigits_append_toDigits (by decide) hm hd, Nat.toDigits_of_lt_base hd,
      List.mem_append, List.mem_singleton] at hch
    cases hch with
    | inl hch => exact ih hch
    | inr hch => exact hch ▸ (digitChar_spec hd).1

/-- The number of these digits, behind `r`. -/
def digitsValue (r : UInt64) (ds : List UInt8) : UInt64 :=
  ds.foldl (fun r c => r * 16 + digitValue c) r

theorem digitsValue_fmtHex (n : UInt64) : digitsValue 0 (fmtHex n) = n := by
  have hdigits : ∀ n : Nat, digitsValue 0
      ((Nat.toDigits 16 n).map fun c => c.toNat.toUInt8) = UInt64.ofNat n := by
    intro n
    induction n using Nat.base_induction 16 (by decide) with
    | single d hd =>
      rw [Nat.toDigits_of_lt_base hd, List.map_singleton, digitsValue, List.foldl_cons,
        List.foldl_nil, (digitChar_spec hd).2, UInt64.zero_mul, UInt64.zero_add]
    | digit m d hd hm ih =>
      rw [digitsValue] at ih ⊢
      rw [← Nat.toDigits_append_toDigits (by decide) hm hd, Nat.toDigits_of_lt_base hd,
        List.map_append, List.foldl_append, ih, List.map_singleton, List.foldl_cons,
        List.foldl_nil, (digitChar_spec hd).2, UInt64.ofNat_add, UInt64.ofNat_mul, UInt64.mul_comm]
      rfl
  rw [fmtHex, hdigits, UInt64.ofNat_toNat]

theorem digitsValue_fmtHexPad (width : Nat) (n : UInt64) :
    digitsValue 0 (fmtHexPad width n) = n := by
  have hzero : ∀ k : Nat, digitsValue 0 (List.replicate k '0'.toNat.toUInt8) = 0 := by
    intro k
    induction k with
    | zero => rfl
    | succ k ih => exact ih
  rw [fmtHexPad, digitsValue, List.foldl_append]
  exact (congrArg (digitsValue · (fmtHex n)) (hzero _)).trans (digitsValue_fmtHex n)

theorem isHexDigit_of_mem_fmtHexPad {width : Nat} {n : UInt64} {c : UInt8}
    (h : c ∈ fmtHexPad width n) : IsHexDigit c := by
  cases List.mem_append.1 h with
  | inl h =>
    obtain ⟨-, rfl⟩ := List.mem_replicate.1 h
    exact (digitChar_spec (by decide : 0 < 16)).1
  | inr h => exact isHexDigit_of_mem_fmtHex h

/-- The loop of `simple_strtoull` reads all digits. -/
theorem simpleStrtoull.loop_append {ds rest : List UInt8} (hds : ∀ c ∈ ds, IsHexDigit c)
    (hrest : isxdigit (deref rest) = false) (r : UInt64) :
    simpleStrtoull.loop 16 r (ds ++ rest) = (digitsValue r ds, rest) := by
  induction ds generalizing r with
  | nil =>
    cases rest with
    | nil => rfl
    | cons c rest =>
      rw [List.nil_append, loop, if_neg]
      · rfl
      · intro hc
        exact absurd (hrest.symm.trans hc.1) (by decide)
  | cons c ds ih =>
    have hc := hds c (List.mem_cons_self ..)
    rw [List.cons_append, loop, if_pos ⟨hc.xdigit, hc.lt⟩]
    exact ih (fun c hc => hds c (List.mem_cons_of_mem _ hc)) _

/-- A number is read back in base 16, up to where it ends. -/
theorem simpleStrtoull_fmtHexPad {width : Nat} {n : UInt64} {rest : List UInt8}
    (hrest : isxdigit (deref rest) = false) (hx : tolower (deref rest) ≠ 'x'.toNat.toUInt8) :
    simpleStrtoull (fmtHexPad width n ++ rest) 16 = (n, rest) := by
  have hpre : tolower (deref ((fmtHexPad width n ++ rest).drop 1)) ≠ 'x'.toNat.toUInt8 := by
    have hne : fmtHexPad width n ≠ [] := by
      rw [fmtHexPad, fmtHex]
      simp
    have hds := @isHexDigit_of_mem_fmtHexPad width n
    cases h : fmtHexPad width n with
    | nil => exact absurd h hne
    | cons c ds =>
      rw [h] at hds
      cases ds with
      | nil => exact hx
      | cons d ds => exact (hds (List.mem_cons_of_mem _ (List.mem_cons_self ..))).not_x
  have h16 : (16 : UInt64) ≠ 0 := by decide
  rw [simpleStrtoull, if_neg h16, if_neg fun h => hpre h.2.2,
    simpleStrtoull.loop_append (fun c => isHexDigit_of_mem_fmtHexPad) hrest, digitsValue_fmtHexPad]

/-- A number with `0x` is read back without a base. -/
theorem simpleStrtoull_fmtHex {n : UInt64} {rest : List UInt8}
    (hrest : isxdigit (deref rest) = false) :
    simpleStrtoull (bytes "0x" ++ fmtHex n ++ rest) 0 = (n, rest) := by
  have hdigits := @isHexDigit_of_mem_fmtHex n
  have hloop := simpleStrtoull.loop_append (fun c => @isHexDigit_of_mem_fmtHex n c) hrest 0
  rw [digitsValue_fmtHex] at hloop
  cases hds : fmtHex n with
  | nil => simp [fmtHex] at hds
  | cons d ds =>
    rw [hds] at hloop hdigits
    have hd : isxdigit d = true := (hdigits (List.mem_cons_self ..)).xdigit
    have h0 : deref (bytes "0x" ++ (d :: ds) ++ rest) = '0'.toNat.toUInt8 := rfl
    have hx : tolower (deref ((bytes "0x" ++ (d :: ds) ++ rest).drop 1)) = 'x'.toNat.toUInt8 := by
      show tolower 'x'.toNat.toUInt8 = _
      decide
    have hbase : simpleGuessBase (bytes "0x" ++ (d :: ds) ++ rest) = 16 := by
      rw [simpleGuessBase, if_pos h0, if_pos ⟨hx, hd⟩]
    simp only [simpleStrtoull, if_true, hbase, h0, hx, and_self]
    exact hloop

/-! ### Texts -/

theorem text_nil : text [] = [] := rfl

theorem text_cons (c : UInt8) (s : List UInt8) :
    text (c :: s) = if c = 0 then [] else c :: text s := by
  by_cases h : c = 0 <;> simp [text, h]

theorem text_append_of_notMem {p s : List UInt8} (h : 0 ∉ p) : text (p ++ s) = p ++ text s := by
  induction p with
  | nil => rfl
  | cons c p ih =>
    rw [List.mem_cons, not_or] at h
    rw [List.cons_append, text_cons, if_neg (Ne.symm h.1), ih h.2, List.cons_append]

theorem zero_notMem_text (s : List UInt8) : 0 ∉ text s := fun h => by
  simpa using List.mem_takeWhile_imp h

/-- The text of a string that ends. -/
theorem text_append_zero {p : List UInt8} (h : 0 ∉ p) (t : List UInt8) : text (p ++ 0 :: t) = p := by
  rw [text_append_of_notMem h, text_cons, if_pos rfl, List.append_nil]

theorem text_of_notMem {p : List UInt8} (h : 0 ∉ p) : text p = p := by
  rw [← List.append_nil p, text_append_of_notMem h, text_nil]

/-- What a string is before and at its end. -/
theorem text_cases (s : List UInt8) : text s = s ∨ ∃ t, s = text s ++ 0 :: t := by
  induction s with
  | nil => exact .inl rfl
  | cons c s ih =>
    by_cases h : c = 0
    · exact .inr ⟨s, by rw [text_cons, if_pos h, h, List.nil_append]⟩
    · rw [text_cons, if_neg h]
      rcases ih with ih | ⟨t, ht⟩
      · exact .inl (by rw [ih])
      · exact .inr ⟨t, by rw [List.cons_append, ← ht]⟩

/-- A string that ends is its text and what is behind it. -/
theorem eq_text_append {s : List UInt8} (h : 0 ∈ s) : ∃ t, s = text s ++ 0 :: t :=
  (text_cases s).resolve_left fun hs => zero_notMem_text s (hs.symm ▸ h)

theorem text_append_of_mem {p : List UInt8} (h : 0 ∈ p) (s : List UInt8) :
    text (p ++ s) = text p := by
  obtain ⟨t, ht⟩ := eq_text_append h
  have hp : p ++ s = text p ++ 0 :: (t ++ s) := by
    conv_lhs => rw [ht]
    rw [List.append_assoc, List.cons_append]
  rw [hp, text_append_zero (zero_notMem_text p)]

theorem text_append_end (s : List UInt8) : text (s ++ [0]) = text s := by
  by_cases h : 0 ∈ s
  · exact text_append_of_mem h [0]
  · rw [text_append_zero h, text_of_notMem h]

/-! What is read of a string that ends is its text. -/

section
variable {p : List UInt8} (t : List UInt8)

@[simp] theorem deref_append_zero : deref (p ++ 0 :: t) = deref p := by cases p <;> rfl

/-- A pointer to a character that is not the end can go on. -/
theorem drop_one_append_zero (h : deref p ≠ 0) : (p ++ 0 :: t).drop 1 = p.drop 1 ++ 0 :: t := by
  cases p with
  | nil => exact absurd rfl h
  | cons c p => rfl

theorem memcmp_append_zero {name : List UInt8} (hname : 0 ∉ name) :
    memcmp (p ++ 0 :: t) name = memcmp p name := by
  rw [Bool.eq_iff_iff, memcmp_iff, memcmp_iff]
  constructor
  · intro h
    obtain ⟨r, hr⟩ := h
    rcases List.append_eq_append_iff.1 hr with ⟨a, rfl, -⟩ | ⟨a, rfl, ha⟩
    · exact List.prefix_append ..
    · cases a with
      | nil => exact ⟨[], by rw [List.append_nil, List.append_nil]⟩
      | cons c a =>
        rw [List.cons_append, List.cons.injEq] at ha
        exact absurd (by simp [ha.1]) hname
  · exact fun h => h.trans (List.prefix_append ..)

/-- A name that is compared with its end is the whole text. -/
theorem memcmp_end {name : List UInt8} (hp : 0 ∉ p) (hname : 0 ∉ name) :
    memcmp (p ++ 0 :: t) (name ++ [0]) = decide (p = name) := by
  rw [Bool.eq_iff_iff, memcmp_iff, decide_eq_true_iff]
  constructor
  · intro h
    obtain ⟨r, hr⟩ := h
    have htext := congrArg text hr
    rw [List.append_assoc, List.singleton_append, text_append_zero hname, text_append_zero hp] at htext
    exact htext.symm
  · intro h
    exact h ▸ ⟨t, by rw [List.append_assoc, List.singleton_append]⟩

theorem strcmp_append_zero (hp : 0 ∉ p) (name : List UInt8) :
    strcmp (p ++ 0 :: t) name = (p == name) := by rw [strcmp, text_append_zero hp]

theorem simpleGuessBase_append_zero : simpleGuessBase (p ++ 0 :: t) = simpleGuessBase p := by
  cases p with
  | nil => rfl
  | cons c p =>
    cases p with
    | nil =>
      have hx : tolower 0 ≠ 'x'.toNat.toUInt8 := by decide
      have hend : tolower (deref []) ≠ 'x'.toNat.toUInt8 := by decide
      simp only [simpleGuessBase, List.cons_append, List.nil_append, List.drop_succ_cons,
        List.drop_zero, deref, List.headD_cons, hx, false_and, if_false, List.headD_nil]
    | cons d p =>
      simp only [simpleGuessBase, List.cons_append, List.drop_succ_cons, List.drop_zero,
        deref_append_zero]
      rfl

theorem simpleStrtoull.loop_append_zero (hp : 0 ∉ p) (base result : UInt64) :
    simpleStrtoull.loop base result (p ++ 0 :: t) =
      ((simpleStrtoull.loop base result p).1, (simpleStrtoull.loop base result p).2 ++ 0 :: t) := by
  induction p generalizing result with
  | nil =>
    have hzero : ¬(isxdigit 0 = true ∧ digitValue 0 < base) := fun h => absurd h.1 (by decide)
    exact if_neg hzero
  | cons c p ih =>
    rw [List.mem_cons, not_or] at hp
    rw [List.cons_append, loop, loop]
    split
    · exact ih hp.2 _
    · rfl

theorem simpleStrtoull_append_zero (hp : 0 ∉ p) (base : UInt64) : simpleStrtoull (p ++ 0 :: t) base =
    ((simpleStrtoull p base).1, (simpleStrtoull p base).2 ++ 0 :: t) := by
  have hend : tolower (deref []) ≠ 'x'.toNat.toUInt8 := by decide
  rw [simpleStrtoull, simpleStrtoull, simpleGuessBase_append_zero, deref_append_zero]
  generalize (if base = 0 then simpleGuessBase p else base) = base
  cases p with
  | nil =>
    have hzero : ¬(base = 16 ∧ deref [] = '0'.toNat.toUInt8 ∧
        tolower (deref (([] ++ 0 :: t).drop 1)) = 'x'.toNat.toUInt8) := fun h => absurd h.2.1 (by decide)
    rw [if_neg hzero, if_neg fun h => hend h.2.2]
    exact simpleStrtoull.loop_append_zero t hp base 0
  | cons c p =>
    simp only [List.cons_append, List.drop_succ_cons, List.drop_zero, deref_append_zero]
    split
    · next h =>
      cases p with
      | nil => exact absurd h.2.2 hend
      | cons d p =>
        rw [List.mem_cons, List.mem_cons, not_or, not_or] at hp
        exact simpleStrtoull.loop_append_zero t hp.2.2 base 0
    · exact simpleStrtoull.loop_append_zero t hp base 0

theorem zero_notMem_simpleStrtoull (hp : 0 ∉ p) (base : UInt64) : 0 ∉ (simpleStrtoull p base).2 :=
  fun h => hp ((simpleStrtoull_suffix p base).subset h)

end

end ShieldLoader
