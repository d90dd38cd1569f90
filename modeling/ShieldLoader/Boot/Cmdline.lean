import ShieldLoader.Boot.Main
import ShieldLoader.Fb.Numerals

/-!
# The ranges of the command line

`main` looks for ranges of memory in the kernel command line. `parse_range` searches the line for a
name such as `vpr=` and reads a size and a base behind it. The line is a list of words between
blanks, but the search is for text anywhere in the line: it also finds a name at the end of a longer
one.
-/

namespace ShieldLoader

open Ascii

/-! ### The functions of `main.c` -/

/-- `PAGE_SIZE`. -/
def pageSize : UInt64 := 4096

/-- `memparse`, with the end of the number. The cases of the `switch` fall through. -/
def memparse (ptr : List UInt8) : UInt64 × List UInt8 :=
  let ret := (simpleStrtoull ptr 0).1
  let endptr := (simpleStrtoull ptr 0).2
  let c := deref endptr
  if c = 'G'.toNat.toUInt8 ∨ c = 'g'.toNat.toUInt8 then (ret <<< 10 <<< 10 <<< 10, endptr.drop 1)
  else if c = 'M'.toNat.toUInt8 ∨ c = 'm'.toNat.toUInt8 then (ret <<< 10 <<< 10, endptr.drop 1)
  else if c = 'K'.toNat.toUInt8 ∨ c = 'k'.toNat.toUInt8 then (ret <<< 10, endptr.drop 1)
  else (ret, endptr)

/-- `parse_memloc`: the location and the size. -/
def parseMemloc (arg : List UInt8) : UInt64 × UInt64 :=
  let size := (memparse arg).1
  let at' := (memparse arg).2
  if deref at' ≠ '@'.toNat.toUInt8 then (size, pageSize)
  else ((memparse (at'.drop 1)).1, size)

/-- The loop of `strstr`, with `l1` characters to go. -/
def strstr.loop (s2 : List UInt8) : Nat → List UInt8 → Option (List UInt8)
  | 0, _ => none
  | l1 + 1, s1 =>
    if l1 + 1 < s2.length then none
    else if memcmp s1 s2 then some s1
    else loop s2 l1 (s1.drop 1)

/-- `strstr` for a literal `s2`. -/
def strstr (s1 s2 : List UInt8) : Option (List UInt8) :=
  if s2.length = 0 then some s1 else strstr.loop s2 (text s1).length s1

/-- `parse_range`: the base and the size. The command line may be missing. -/
def parseRange (cmdline : Option (List UInt8)) (rangeName : List UInt8) :
    Option (UInt64 × UInt64) := do
  let param ← strstr (← cmdline) rangeName
  some (parseMemloc (param.drop rangeName.length))

/-- The names that `main` gives to `parse_range`, with the tags of the reservations. -/
def rangeTags : List (List UInt8 × UInt32) :=
  [(bytes "tegra_fbmem=", lmbTag 'F' 'B' 'M' 'M'), (bytes "tsec=", lmbTag 'T' 'S' 'E' 'C'),
   (bytes "vpr=", lmbTag 'V' 'P' 'R' 'R'), (bytes "lp0_vec=", lmbTag 'L' 'P' '0' 'V'),
   (bytes "nvdumper_reserved=", lmbTag 'N' 'V' 'D' 'R')]

/-- The names of the ranges. -/
def rangeNames : List (List UInt8) := rangeTags.map Prod.fst

/-- What `main` takes from the command line. -/
def BootInfo.withCmdline (b : BootInfo) (cmdline : Option (List UInt8)) : BootInfo :=
  { b with
    fbmem := parseRange cmdline (bytes "tegra_fbmem=")
    tsec := parseRange cmdline (bytes "tsec=")
    vpr := parseRange cmdline (bytes "vpr=")
    lp0Vec := parseRange cmdline (bytes "lp0_vec=")
    nvdumper := parseRange cmdline (bytes "nvdumper_reserved=") }

/-! ### The search -/

/-- The first occurrence of `name` in `line` is behind `a`. -/
structure IsFirst (name line a rest : List UInt8) : Prop where
  eq : line = a ++ name ++ rest
  first : ∀ b rest', line = b ++ name ++ rest' → a.length ≤ b.length

section
variable {name line a b rest rest' : List UInt8} (t : List UInt8)

theorem IsFirst.unique (h : IsFirst name line a rest) (h' : IsFirst name line b rest') :
    rest = rest' := by
  have hlen : a.length = b.length := (h.first b rest' h'.eq).antisymm (h'.first a rest h.eq)
  have heq : a ++ name ++ rest = b ++ name ++ rest' := h.eq.symm.trans h'.eq
  exact (List.append_inj heq (by rw [List.length_append, hlen, List.length_append])).2

theorem strstr_cases (hne : name ≠ []) (hname : 0 ∉ name) (h0 : 0 ∉ line) :
    (¬name <:+: line ∧ strstr (line ++ 0 :: t) name = none) ∨
    ∃ a rest, IsFirst name line a rest ∧
      strstr (line ++ 0 :: t) name = some (name ++ rest ++ 0 :: t) := by
  rw [strstr, if_neg fun h => hne (List.length_eq_zero_iff.1 h), text_append_zero h0]
  induction line with
  | nil => exact .inl ⟨fun h => hne (List.infix_nil.1 h), rfl⟩
  | cons c line ih =>
    rw [List.mem_cons, not_or] at h0
    rw [List.length_cons, strstr.loop]
    split
    · next hlt => exact .inl ⟨fun h => absurd h.length_le (not_le.2 hlt), rfl⟩
    · split
      · next hc =>
        rw [memcmp_append_zero t hname, memcmp_iff] at hc
        obtain ⟨rest, hrest⟩ := hc
        exact .inr ⟨[], rest, ⟨hrest.symm, fun _ _ _ => Nat.zero_le _⟩, by rw [hrest]⟩
      · next hc =>
        rw [memcmp_append_zero t hname, memcmp_iff] at hc
        rcases ih h0.2 with ⟨hno, hnone⟩ | ⟨a, rest, ⟨rfl, hfirst⟩, hsome⟩
        · exact .inl ⟨fun h => (List.infix_cons_iff.1 h).elim hc hno, hnone⟩
        · refine .inr ⟨c :: a, rest, ⟨rfl, fun b rest' h => ?_⟩, hsome⟩
          cases b with
          | nil => exact absurd ⟨rest', h.symm⟩ hc
          | cons d b => exact Nat.succ_le_succ (hfirst b rest' (List.cons.inj h).2)

end

/-! ### The values -/

/-- The power of two of a multiplier. -/
def multiplier (c : UInt8) : Option Nat :=
  if c = 'G'.toNat.toUInt8 ∨ c = 'g'.toNat.toUInt8 then some 30
  else if c = 'M'.toNat.toUInt8 ∨ c = 'm'.toNat.toUInt8 then some 20
  else if c = 'K'.toNat.toUInt8 ∨ c = 'k'.toNat.toUInt8 then some 10
  else none

/-- The number that a text starts with, and what is behind it: the longest numeral, or nothing for
`0`, with a multiplier if there is one. -/
inductive StartsNumber : List UInt8 → Nat → List UInt8 → Prop
  | plain {f rest} : IsLeading f (f ++ rest) → (∀ c ∈ rest.head?, multiplier c = none) →
    StartsNumber (f ++ rest) ((numeral f).getD 0) rest
  | scaled {f c k rest} : IsLeading f (f ++ c :: rest) → multiplier c = some k →
    StartsNumber (f ++ c :: rest) ((numeral f).getD 0 * 2 ^ k) rest

/-- The size and the base that a text starts with. A number without `@` is the base of a page. -/
inductive StartsLocation : List UInt8 → Nat → Nat → Prop
  | page {s n rest} : StartsNumber s n rest → rest.head? ≠ some '@'.toNat.toUInt8 →
    StartsLocation s pageSize.toNat n
  | range {s n t m rest} : StartsNumber s n ('@'.toNat.toUInt8 :: t) → StartsNumber t m rest →
    StartsLocation s n m

section
variable {s rest : List UInt8} {n m : Nat} {c : UInt8}

theorem ofNat_shiftLeft (n : Nat) : UInt64.ofNat n <<< 10 = UInt64.ofNat (n * 2 ^ 10) := by
  rw [← Nat.shiftLeft_eq, UInt64.ofNat_shiftLeft n 10 (by decide)]
  rfl

theorem memparse_eq (s : List UInt8) : memparse s =
    (multiplier (deref (simpleStrtoull s 0).2)).elim (simpleStrtoull s 0) fun k =>
      ((simpleStrtoull s 0).1 * UInt64.ofNat (2 ^ k), (simpleStrtoull s 0).2.drop 1) := by
  have hshift : ∀ ret : UInt64, ret <<< 10 = ret * UInt64.ofNat (2 ^ 10) := by
    intro ret
    rw [← UInt64.ofNat_toNat (x := ret), ofNat_shiftLeft, UInt64.ofNat_mul]
  have hmul : ∀ (ret : UInt64) (i j : Nat), ret * UInt64.ofNat (2 ^ i) * UInt64.ofNat (2 ^ j) =
      ret * UInt64.ofNat (2 ^ (i + j)) := by
    intro ret i j
    rw [UInt64.mul_assoc, ← UInt64.ofNat_mul, pow_add]
  rw [memparse, multiplier]
  split_ifs
  · rw [hshift, hshift, hshift, hmul, hmul]
    rfl
  · rw [hshift, hshift, hmul]
    rfl
  · rw [hshift]
    rfl
  · rfl

theorem StartsNumber.memparse_eq (h : StartsNumber s n rest) :
    memparse s = (UInt64.ofNat n, rest) := by
  rw [ShieldLoader.memparse_eq]
  cases h with
  | @plain f rest hf hrest =>
    have hnone : multiplier (deref rest) = none := by
      cases rest with
      | nil => rfl
      | cons c rest => exact hrest c rfl
    rw [simpleStrtoull_of_isLeading hf, hnone]
    rfl
  | @scaled f c k rest hf hk =>
    rw [simpleStrtoull_of_isLeading hf, deref, List.headD_cons, hk, UInt64.ofNat_mul]
    rfl

theorem exists_startsNumber (s : List UInt8) : ∃ n rest, StartsNumber s n rest := by
  obtain ⟨f, rest, rfl, hf, -⟩ := simpleStrtoull_spec s
  cases rest with
  | nil => exact ⟨_, _, .plain hf (by simp)⟩
  | cons c rest =>
    cases hc : multiplier c with
    | none => exact ⟨_, _, .plain hf fun d hd => (Option.some.inj hd) ▸ hc⟩
    | some k => exact ⟨_, _, .scaled hf hc⟩

/-- `parse_memloc` reads the location that the text starts with. -/
theorem StartsLocation.parseMemloc_eq (h : StartsLocation s n m) :
    parseMemloc s = (UInt64.ofNat m, UInt64.ofNat n) := by
  cases h with
  | @page _ rest hm hrest =>
    have hne : deref rest ≠ '@'.toNat.toUInt8 := by
      cases rest with
      | nil => decide
      | cons c rest => exact fun hc => hrest (congrArg some hc)
    rw [parseMemloc, hm.memparse_eq]
    exact if_pos hne
  | @range _ t _ _ hn hm =>
    have heq : deref ('@'.toNat.toUInt8 :: t) = '@'.toNat.toUInt8 := rfl
    rw [parseMemloc, hn.memparse_eq]
    dsimp only
    rw [if_neg (not_not.2 heq), List.drop_one, List.tail_cons, hm.memparse_eq]

theorem exists_startsLocation (s : List UInt8) : ∃ n m, StartsLocation s n m := by
  obtain ⟨n, rest, hn⟩ := exists_startsNumber s
  by_cases h : rest.head? = some '@'.toNat.toUInt8
  · obtain ⟨t, rfl⟩ := List.head?_eq_some_iff.1 h
    obtain ⟨m, rest, hm⟩ := exists_startsNumber t
    exact ⟨n, m, .range hn hm⟩
  · exact ⟨_, n, .page hn h⟩

theorem memparse_suffix (s : List UInt8) : (memparse s).2 <:+ s := by
  rw [memparse_eq]
  cases multiplier (deref (simpleStrtoull s 0).2) with
  | none => exact simpleStrtoull_suffix s 0
  | some k => exact (List.drop_suffix 1 _).trans (simpleStrtoull_suffix s 0)

theorem memparse_append_zero (h0 : 0 ∉ s) (t : List UInt8) :
    memparse (s ++ 0 :: t) = ((memparse s).1, (memparse s).2 ++ 0 :: t) := by
  rw [memparse_eq, memparse_eq, simpleStrtoull_append_zero t h0, deref_append_zero]
  cases hc : multiplier (deref (simpleStrtoull s 0).2) with
  | none => rfl
  | some k =>
    have hend : multiplier 0 = none := by decide
    have hne : deref (simpleStrtoull s 0).2 ≠ 0 := fun hzero =>
      Option.some_ne_none k (hc.symm.trans (hzero ▸ hend))
    rw [Option.elim_some, Option.elim_some, drop_one_append_zero t hne]

theorem parseMemloc_append_zero (h0 : 0 ∉ s) (t : List UInt8) :
    parseMemloc (s ++ 0 :: t) = parseMemloc s := by
  rw [parseMemloc, parseMemloc, memparse_append_zero h0, deref_append_zero]
  refine ite_congr rfl (fun _ => rfl) fun hc => ?_
  have hne : deref (memparse s).2 ≠ 0 := not_not.1 hc ▸ by decide
  have h1 : 0 ∉ (memparse s).2.drop 1 := fun h =>
    h0 ((memparse_suffix s).subset (List.mem_of_mem_drop h))
  rw [drop_one_append_zero t hne, memparse_append_zero h1]

end

/-! ### Ranges from words -/

/-- A numeral with a multiplier, if any. -/
inductive Scaled : List UInt8 → Nat → Prop
  | plain {s n} : Numeral s n → Scaled s n
  | kilo {s n} : Numeral s n → Scaled (s ++ bytes "K") (n * 2 ^ 10)
  | mega {s n} : Numeral s n → Scaled (s ++ bytes "M") (n * 2 ^ 20)
  | giga {s n} : Numeral s n → Scaled (s ++ bytes "G") (n * 2 ^ 30)

/-- A location with its size and its base: `N1@N2`, or `N` for a page. -/
inductive Location : List UInt8 → Nat → Nat → Prop
  | page {s n} : Scaled s n → Location s pageSize.toNat n
  | range {s n t m} : Scaled s n → Scaled t m → Location (s ++ bytes "@" ++ t) n m

/-- The first word of `line` that starts with `name` goes on with `v`. -/
def IsFirstWord (name line v : List UInt8) : Prop :=
  (words line).find? (name.isPrefixOf ·) = some (name ++ v)

instance (name line v : List UInt8) : Decidable (IsFirstWord name line v) :=
  inferInstanceAs (Decidable (_ = _))

/-- `r` comes from the right word of `line`. -/
structure FromWord (name line : List UInt8) (r : Option (UInt64 × UInt64)) : Prop where
  isSome_iff : r.isSome ↔ ∃ w ∈ words line, name <+: w
  location : ∀ v size base, IsFirstWord name line v → Location v size base →
    r = some (UInt64.ofNat base, UInt64.ofNat size)

/-- The text before a word. -/
def EndsBlank (a : List UInt8) : Prop := ∀ c ∈ a.getLast?, c = blank

section
variable {s v name line a rest w : List UInt8} {n m : Nat}

/-- A number ends where nothing of it can follow. -/
theorem Scaled.startsNumber (h : Scaled s n) (hrest : ∀ c ∈ rest.head?,
    isNumeralChar c = false ∧ multiplier c = none) : StartsNumber (s ++ rest) n rest := by
  have hnumeral : ∀ {s n}, Numeral s n → Scanned s ∧ (numeral s).getD 0 = n := by
    intro s n h
    have hn := numeral_eq_some.2 h
    exact ⟨.inr (isNumeral_iff_exists.2 ⟨n, hn⟩), by rw [hn]; rfl⟩
  have hscaled : ∀ {s n c k}, Numeral s n → isNumeralChar c = false → multiplier c = some k →
      StartsNumber (s ++ c :: rest) (n * 2 ^ k) rest := by
    intro s n c k h hc hk
    obtain ⟨hs, hn⟩ := hnumeral h
    have hlead : IsLeading s (s ++ c :: rest) := hs.isLeading fun d hd => Option.some.inj hd ▸ hc
    exact hn ▸ .scaled hlead hk
  cases h with
  | plain h =>
    obtain ⟨hs, hn⟩ := hnumeral h
    exact hn ▸ .plain (hs.isLeading fun c hc => (hrest c hc).1) fun c hc => (hrest c hc).2
  | kilo h | mega h | giga h =>
    rw [List.append_assoc]
    exact hscaled h (by decide) (by decide)

/-- A location is read off the start of a text, up to a blank or the end. -/
theorem Location.startsLocation (h : Location v n m) (hrest : ∀ c ∈ rest.head?, c = blank) :
    StartsLocation (v ++ rest) n m := by
  have hblank : ∀ c ∈ rest.head?, isNumeralChar c = false ∧ multiplier c = none := by
    intro c hc
    rw [hrest c hc]
    decide
  cases h with
  | page h =>
    exact .page (h.startsNumber hblank) fun hc => absurd (hrest _ hc) (by decide)
  | range h1 h2 =>
    rw [List.append_assoc, List.append_assoc]
    refine .range (h1.startsNumber ?_) (h2.startsNumber hblank)
    intro c hc
    rw [← Option.some.inj hc]
    decide

theorem isFirstWord_exists (h : ∃ w ∈ words line, name <+: w) : ∃ v, IsFirstWord name line v := by
  obtain ⟨w, hw, hname⟩ := h
  have hsome : ((words line).find? (name.isPrefixOf ·)).isSome :=
    List.find?_isSome.2 ⟨w, hw, List.isPrefixOf_iff_prefix.2 hname⟩
  obtain ⟨u, hu⟩ := Option.isSome_iff_exists.1 hsome
  obtain ⟨v, rfl⟩ := List.isPrefixOf_iff_prefix.1 (List.find?_some hu)
  exact ⟨v, hu⟩

theorem IsFirstWord.exists_word (h : IsFirstWord name line v) : ∃ w ∈ words line, name <+: w :=
  ⟨name ++ v, List.mem_of_find?_eq_some h, List.prefix_append ..⟩

theorem IsFirstWord.unique (h : IsFirstWord name line v) (h' : IsFirstWord name line w) : v = w :=
  List.append_cancel_left (Option.some.inj (h.symm.trans h'))

/-- A name at the start of a word is found there. -/
theorem IsFirst.isFirstWord (h : IsFirst name line a rest) (hblank : blank ∉ name)
    (ha : EndsBlank a) : ∃ v rest', rest = v ++ rest' ∧ (∀ c ∈ rest'.head?, c = blank) ∧
      IsFirstWord name line v := by
  obtain ⟨v, rest', ws, hrest, hhead, hwords⟩ := exists_words_append hblank rest
  refine ⟨v, rest', hrest, hhead, ?_⟩
  have hname : name.isPrefixOf (name ++ v) = true :=
    List.isPrefixOf_iff_prefix.2 (List.prefix_append ..)
  rw [IsFirstWord, List.find?_eq_some_iff_append, h.eq]
  refine ⟨hname, ?_⟩
  cases a using List.reverseRecOn with
  | nil => exact ⟨[], ws, hwords, by simp⟩
  | append_singleton a c =>
    obtain rfl : c = blank := ha c (by simp)
    have hsplit : a ++ [blank] ++ name ++ rest = a ++ blank :: (name ++ rest) := by simp
    refine ⟨words a, ws, by rw [hsplit, words_append, hwords], ?_⟩
    -- a name in an earlier word would be found there
    intro w hw
    rw [Bool.not_eq_true', Bool.eq_false_iff]
    intro hpre
    have hinfix := (List.isPrefixOf_iff_prefix.1 hpre).isInfix.trans (isInfix_of_mem_words hw)
    obtain ⟨b, b', hb⟩ := hinfix
    have hle := h.first b (b' ++ blank :: (name ++ rest)) (by rw [h.eq, hsplit, ← hb]; simp)
    have hlen := congrArg List.length hb
    simp at hle hlen
    omega

end

/-! ### What `parse_range` finds -/

/-- The first place of `name` in `line` is the start of a word. Elsewhere it does no harm if what is
read there is what the right word says. -/
def FoundAtWord (name line : List UInt8) : Prop :=
  ∀ a rest, IsFirst name line a rest → EndsBlank a ∨ ∃ v, IsFirstWord name line v ∧
    ∀ size base, Location v size base → ∃ size' base', StartsLocation rest size' base' ∧
      UInt64.ofNat size' = UInt64.ofNat size ∧ UInt64.ofNat base' = UInt64.ofNat base

section
variable {name line : List UInt8}

theorem rangeNames_spec (h : name ∈ rangeNames) : name ≠ [] ∧ 0 ∉ name ∧ blank ∉ name := by
  have hall : ∀ name ∈ rangeNames, name ≠ [] ∧ 0 ∉ name ∧ blank ∉ name := by decide
  exact hall name h

/-- `parse_range` reads what is behind the first place of the name. -/
theorem parseRange_cases (hname : name ∈ rangeNames) (h0 : 0 ∉ line) (t : List UInt8) :
    (¬name <:+: line ∧ parseRange (some (line ++ 0 :: t)) name = none) ∨
    ∃ a rest, IsFirst name line a rest ∧
      parseRange (some (line ++ 0 :: t)) name = some (parseMemloc rest) := by
  obtain ⟨hne, hzero, -⟩ := rangeNames_spec hname
  have heq : parseRange (some (line ++ 0 :: t)) name =
      (strstr (line ++ 0 :: t) name).bind fun param =>
        some (parseMemloc (param.drop name.length)) := rfl
  rw [heq]
  rcases strstr_cases t hne hzero h0 with ⟨hno, hnone⟩ | ⟨a, rest, hfirst, hsome⟩
  · exact .inl ⟨hno, by rw [hnone, Option.bind_none]⟩
  · have hrest : 0 ∉ rest := fun h => h0 (hfirst.eq ▸ List.mem_append_right _ h)
    refine .inr ⟨a, rest, hfirst, ?_⟩
    rw [hsome, Option.bind_some, List.append_assoc, List.drop_left, parseMemloc_append_zero hrest]

theorem isInfix_of_word (h : ∃ w ∈ words line, name <+: w) : name <:+: line := by
  obtain ⟨w, hw, hpre⟩ := h
  exact hpre.isInfix.trans (isInfix_of_mem_words hw)

theorem FoundAtWord.fromWord (h : FoundAtWord name line) (hname : name ∈ rangeNames) (h0 : 0 ∉ line)
    (t : List UInt8) : FromWord name line (parseRange (some (line ++ 0 :: t)) name) := by
  obtain ⟨-, -, hblank⟩ := rangeNames_spec hname
  rcases parseRange_cases hname h0 t with ⟨hno, heq⟩ | ⟨a, rest, hfirst, heq⟩
  · rw [heq]
    refine ⟨iff_of_false Bool.false_ne_true fun h => hno (isInfix_of_word h), fun v _ _ hv _ => ?_⟩
    exact absurd (isInfix_of_word hv.exists_word) hno
  · rw [heq]
    rcases h a rest hfirst with ha | ⟨v, hv, hloc⟩
    · obtain ⟨v, rest', rfl, hhead, hv⟩ := hfirst.isFirstWord hblank ha
      refine ⟨iff_of_true rfl hv.exists_word, fun u size base hu hlocation => ?_⟩
      obtain rfl := hv.unique hu
      rw [(hlocation.startsLocation hhead).parseMemloc_eq]
    · refine ⟨iff_of_true rfl hv.exists_word, fun u size base hu hlocation => ?_⟩
      obtain rfl := hv.unique hu
      obtain ⟨size', base', hstart, hsize, hbase⟩ := hloc size base hlocation
      rw [hstart.parseMemloc_eq, hsize, hbase]

/-- **`parse_range` finds the word that starts with a name** if the name stands nowhere before it. -/
theorem parseRange_fromWord_iff (hname : name ∈ rangeNames) (h0 : 0 ∉ line) (t : List UInt8) :
    FromWord name line (parseRange (some (line ++ 0 :: t)) name) ↔ FoundAtWord name line := by
  constructor
  · intro h a rest hfirst
    rcases parseRange_cases hname h0 t with ⟨hno, -⟩ | ⟨a', rest', hfirst', heq⟩
    · exact absurd ⟨a, rest, hfirst.eq.symm⟩ hno
    · obtain rfl : rest = rest' := hfirst.unique hfirst'
      rw [heq] at h
      obtain ⟨v, hv⟩ := isFirstWord_exists (h.isSome_iff.1 rfl)
      refine .inr ⟨v, hv, fun size base hloc => ?_⟩
      obtain ⟨size', base', hstart⟩ := exists_startsLocation rest
      have hread := Option.some.inj (h.location v size base hv hloc)
      rw [hstart.parseMemloc_eq, Prod.mk.injEq] at hread
      exact ⟨size', base', hstart, hread.2, hread.1⟩
  · exact fun h => h.fromWord hname h0 t

end

theorem parseRange_fromWord_first : FromWord (bytes "vpr=") (bytes "vpr=4K@2M quiet")
    (parseRange (some (bytes "vpr=4K@2M quiet" ++ [0])) (bytes "vpr=")) := by
  refine (parseRange_fromWord_iff (by decide) (by decide) []).2 fun a rest h => .inl ?_
  have hnil : a = [] := List.eq_nil_of_length_eq_zero
    (Nat.le_zero.1 (h.first [] (bytes "4K@2M quiet") (by decide)))
  rw [hnil]
  exact fun c hc => absurd hc (by simp)

/-- A name inside a longer one is taken for a word: there may be none, or a later one. -/
theorem parseRange_inside_word :
    ¬FromWord (bytes "vpr=") (bytes "no_vpr=1")
      (parseRange (some (bytes "no_vpr=1" ++ [0])) (bytes "vpr=")) ∧
    ¬FromWord (bytes "vpr=") (bytes "no_vpr=1 vpr=4K@2M")
      (parseRange (some (bytes "no_vpr=1 vpr=4K@2M" ++ [0])) (bytes "vpr=")) := by
  constructor
  · intro h
    have hsome : (parseRange (some (bytes "no_vpr=1" ++ [0])) (bytes "vpr=")).isSome := by decide
    exact absurd (h.isSome_iff.1 hsome) (by decide)
  · intro h
    have hsize : Numeral (bytes "4") 4 := numeral_eq_some.1 (by decide)
    have hbase : Numeral (bytes "2") 2 := numeral_eq_some.1 (by decide)
    have hloc : Location (bytes "4K@2M") (4 * 2 ^ 10) (2 * 2 ^ 20) :=
      .range (.kilo hsize) (.mega hbase)
    exact absurd (h.location _ _ _ (by decide) hloc) (by decide)

/-! ### The reservations -/

/-- `main` asks for the reservation of the range in the right word. -/
theorem BootInfo.mem_reservations_of_word {name line v : List UInt8} {tag : UInt32}
    {size base : Nat} (h : (name, tag) ∈ rangeTags) (h0 : 0 ∉ line) (hfound : FoundAtWord name line)
    (hv : IsFirstWord name line v) (hloc : Location v size base) (b : BootInfo) (t : List UInt8) :
    ⟨UInt64.ofNat base, UInt64.ofNat size, tag, .runtime⟩ ∈
      (b.withCmdline (some (line ++ 0 :: t))).reservations := by
  have hname : name ∈ rangeNames := List.mem_map_of_mem (f := Prod.fst) h
  have hread := (hfound.fromWord hname h0 t).location v size base hv hloc
  simp only [rangeTags, List.mem_cons, Prod.mk.injEq, List.not_mem_nil, or_false] at h
  rcases h with ⟨rfl, rfl⟩ | ⟨rfl, rfl⟩ | ⟨rfl, rfl⟩ | ⟨rfl, rfl⟩ | ⟨rfl, rfl⟩
  all_goals simp [reservations, withCmdline, fb, hread]

end ShieldLoader
