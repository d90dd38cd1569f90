import ShieldLoader.Fb.Defs
import ShieldLoader.Fdt.Layout
import ShieldLoader.Printf.Number
import ShieldLoader.Printf.Output

/-!
# The formats of the replies

`fb.c` makes the texts that it sends with `vsprintf.c`; its model writes them with `fmtHex`,
`fmtHexPad`, `fmtPointer` and `scnprintf`. Both are the same texts, for every format of `fb.c`. A
format is read token by token, and what a token prints does not depend on the one before it.
-/

namespace ShieldLoader

open Fuel PrintfSpec

/-! ### Numbers -/

theorem digitChar_toUInt8 {d : Nat} (h : d < 16) :
    d.digitChar.toNat.toUInt8 = numberDigit small d := by
  have hall : ∀ d : Fin 16, d.1.digitChar.toNat.toUInt8 = numberDigit small d.1 := by
    decide
  exact hall ⟨d, h⟩

theorem fmtHex_eq (n : UInt64) :
    fmtHex n = (plainDigits 16 n.toNat).reverse.map (numberDigit small) := by
  rw [fmtHex]
  generalize n.toNat = n
  induction n using Nat.base_induction 16 (by decide) with
  | single d hd =>
    rw [Nat.toDigits_of_lt_base hd, List.map_singleton, digitChar_toUInt8 hd, plainDigits]
    split
    · next h0 => rw [h0]; rfl
    · next h0 => rw [Nat.digits_of_lt 16 d h0 hd]; rfl
  | digit m d hd hm ih =>
    have hne : 16 * m + d ≠ 0 := by omega
    rw [plainDigits, if_neg hm.ne'] at ih
    rw [← Nat.toDigits_append_toDigits (by decide) hm hd, List.map_append, ih, plainDigits, if_neg hne,
      Nat.toDigits_of_lt_base hd, Nat.add_comm, Nat.digits_add 16 (by decide) d m hd (.inr hm.ne'),
      List.reverse_cons, List.map_append, List.map_singleton, List.map_singleton, digitChar_toUInt8 hd]

/-- A specification for base 16 with small digits and without a sign or a prefix. -/
theorem fieldText_hex {spec : PrintfSpec} (n : UInt64) (hbase : spec.base = 16)
    (hflags : spec.flags = small ∨ spec.flags = zeropad ||| small) (hprec : spec.precision = -1) :
    spec.fieldText n = List.replicate (spec.fieldWidth.toNat - (fmtHex n).length)
      (if spec.flags = small then ' '.toNat.toUInt8 else '0'.toNat.toUInt8) ++ fmtHex n := by
  have hhas (flag : UInt8) : spec.has flag = decide (spec.flags &&& flag ≠ 0) := rfl
  have hvalue : spec.value n = n.toNat := by
    rw [value, hhas]
    rcases hflags with h | h <;> rw [h] <;> rfl
  have hsign : spec.signText (spec.value n) = [] := by
    rw [signText, hvalue, if_neg (by omega), hhas]
    rcases hflags with h | h <;> rw [h] <;> rfl
  have hpfx : spec.baseText = [] := by
    rw [baseText, hhas]
    rcases hflags with h | h <;> rw [h] <;> rfl
  have hdigits : spec.digitText (spec.value n).natAbs = fmtHex n := by
    have hsmall : spec.flags &&& small = small := by
      rcases hflags with h | h <;> rw [h] <;> rfl
    rw [digitText, hsmall, hvalue, hbase, fmtHex_eq]
    rfl
  have hnone : (-1 : Int).toNat = 0 := rfl
  rw [fieldText, hsign, hpfx, hdigits, hprec, hhas, hhas]
  simp only [hnone, Nat.zero_sub, List.replicate_zero, List.nil_append, List.append_nil]
  rcases hflags with h | h <;> rw [h] <;> rfl

/-- `number` prints a number in base 16 as `fmtHexPad` does. -/
theorem number_hexPad {spec : PrintfSpec} (n : UInt64) (hbase : spec.base = 16)
    (hflags : spec.flags = zeropad ||| small) (hprec : spec.precision = -1)
    (hw : 0 ≤ spec.fieldWidth) (hw' : spec.fieldWidth < 2 ^ 15) :
    number n spec = fmtHexPad spec.fieldWidth.toNat n := by
  rw [number_eq ⟨.inr (.inr hbase), by omega, hw', by omega, by omega⟩,
    fieldText_hex n hbase (.inr hflags) hprec, hflags, if_neg (by decide), fmtHexPad]

theorem number_hex {spec : PrintfSpec} (n : UInt64) (hbase : spec.base = 16)
    (hflags : spec.flags = small) (hprec : spec.precision = -1) (hw : spec.fieldWidth = -1) :
    number n spec = fmtHex n := by
  rw [number_eq ⟨.inr (.inr hbase), by omega, by omega, by omega, by omega⟩,
    fieldText_hex n hbase (.inl hflags) hprec, hw, show (-1 : Int).toNat = 0 from rfl, Nat.zero_sub]
  rfl

/-! ### Tokens -/

theorem deref_append_ne {s : List UInt8} {c : UInt8} (hne : s ≠ []) (hc : c ∉ s) (t : List UInt8) :
    deref (s ++ t) ≠ c := by
  cases s with
  | nil => exact absurd rfl hne
  | cons d s => exact fun heq => hc (heq ▸ List.mem_cons_self ..)

/-- The conversions of the replies, whatever comes behind them. -/
theorem formatDecode_conversions {spec : PrintfSpec} (h : ¬spec.type.Pending) (rest : List UInt8) :
    formatDecode (bytes "%lx" ++ rest) spec =
      (rest, ⟨.ulong, small, 16, 'l'.toNat.toUInt8, -1, -1⟩) ∧
    formatDecode (bytes "%08x" ++ rest) spec = (rest, ⟨.uint, zeropad ||| small, 16, 255, 8, -1⟩) ∧
    formatDecode (bytes "%c" ++ rest) spec = (rest, ⟨.char, 0, 10, 255, -1, -1⟩) ∧
    formatDecode (bytes "%p" ++ rest) spec =
      ('p'.toNat.toUInt8 :: rest, ⟨.ptr, 0, 10, 255, -1, -1⟩) ∧
    formatDecode (bytes "%0*" ++ rest) spec =
      (rest, ⟨.width, zeropad, spec.base, spec.qualifier, -1, spec.precision⟩) := by
  have hlx : bytes "%lx" = [37, 108, 120] := by decide
  have h08x : bytes "%08x" = [37, 48, 56, 120] := by decide
  have hc : bytes "%c" = [37, 99] := by decide
  have hp : bytes "%p" = [37, 112] := by decide
  have hstar : bytes "%0*" = [37, 48, 42] := by decide
  rw [hlx, h08x, hc, hp, hstar]
  simp only [formatDecode, if_neg fun hw => h (.inl hw), if_neg fun hp => h (.inr hp)]
  -- every comparison is between two characters of the conversion or a literal of the code
  simp +decide [formatDecode.width, formatDecode.precision, formatDecode.qualifier,
    formatDecode.conversion, formatFlag, deref, tolower, integerType, has, isdigit, skipAtoi, castShort,
    castInt]

/-- `lx` behind a width. -/
theorem formatDecode_width {base qualifier : UInt8} {w precision : Int} (h : 0 ≤ w)
    (rest : List UInt8) :
    formatDecode (bytes "lx" ++ rest) ⟨.width, zeropad, base, qualifier, w, precision⟩ =
      (rest, ⟨.ulong, zeropad ||| small, 16, 'l'.toNat.toUInt8, w, -1⟩) := by
  have hlx : bytes "lx" = [108, 120] := by decide
  rw [formatDecode, if_pos rfl, hlx]
  simp +decide [formatDecode.precision, formatDecode.qualifier, formatDecode.conversion, deref, tolower,
    integerType, has, not_lt.2 h]

/-- What stands before a conversion, or at the end. -/
theorem formatDecode_literal {spec : PrintfSpec} (h : ¬spec.type.Pending) {lit rest : List UInt8}
    (hne : lit ≠ []) (hlit : '%'.toNat.toUInt8 ∉ lit)
    (hrest : rest = [] ∨ deref rest = '%'.toNat.toUInt8) :
    formatDecode (lit ++ rest) spec = (rest, { spec with type := .none }) := by
  rw [formatDecode, if_neg fun hw => h (.inl hw), if_neg fun hp => h (.inr hp)]
  have hdrop : (lit ++ rest).dropWhile (· ≠ '%'.toNat.toUInt8) = rest := by
    have hall : ∀ c ∈ lit, decide (c ≠ '%'.toNat.toUInt8) = true := fun c hc =>
      decide_eq_true fun heq => hlit (heq ▸ hc)
    rw [List.dropWhile_append_of_pos hall]
    cases rest with
    | nil => rfl
    | cons c rest =>
      rcases hrest with hrest | hrest
      · cases hrest
      · exact List.dropWhile_cons_of_neg fun hc => of_decide_eq_true hc hrest
  dsimp only
  rw [if_pos (deref_append_ne hne hlit rest), hdrop]

/-! ### Texts -/

/-- A text has been printed, and no memory was read or stored to for it. -/
structure Printed.Plain (m : Memory) (out : List UInt8) (r : Printed) : Prop where
  out : r.out = out
  touched : r.touched = []
  mem : r.mem = m

/-- From here on the format prints a text and reads nothing, whatever the last token was. -/
def Prints (m : Memory) (args : Nat → UInt64) (fmt : List UInt8) (taken : Nat) (out : List UInt8) :
    Prop :=
  ∀ spec acc, ¬spec.type.Pending → ∃ r,
    Yields (fun n => loop (Printed.turn args) n ⟨fmt, spec, taken, acc, [], m⟩) r ∧
      r.Plain m (acc ++ out)

theorem Prints.printedText {m : Memory} {args : Nat → UInt64} {fmt out : List UInt8}
    (h : Prints m args fmt 0 out) : ∃ r, printedText m fmt args = some r ∧ r.Plain m out := by
  obtain ⟨r, ⟨N, hN⟩, hplain⟩ := h PrintfSpec.zero [] (by decide)
  refine ⟨r, ?_, hplain⟩
  rw [← printedText_eq m fmt args (le_max_right N _)]
  exact hN _ (le_max_left ..)

section
variable {m : Memory} {args : Nat → UInt64} {fmt rest out : List UInt8} {k : Nat}

/-- A token. -/
theorem yields_token {spec : PrintfSpec} {acc t : List UInt8} {r : List UInt8 × PrintfSpec}
    {x : Printed} (hfmt : deref fmt ≠ 0) (hr : formatDecode fmt spec = r)
    (ht : tokenText m (args k) fmt r = some t) (htouches : tokenTouches m (args k) r = [])
    (hcount : r.2.type ≠ .nrchars)
    (h : Yields (fun n => loop (Printed.turn args) n ⟨(tokenNext (args k) r).1,
      (tokenNext (args k) r).2, k + tokenTakes r.2.type, acc ++ t, [], m⟩) x) :
    Yields (fun n => loop (Printed.turn args) n ⟨fmt, spec, k, acc, [], m⟩) x := by
  have hmem : tokenMem m (args k) acc.length r = m := by
    rw [tokenMem]
    split
    · next htype => exact absurd htype hcount
    · rfl
  refine Yields.loop_next (Yields.const fun n => ?_) h
  rw [Printed.turn, if_neg hfmt]
  subst hr
  dsimp only
  rw [ht, htouches, hmem]
  rfl

theorem Prints.nil : Prints m args [] k [] := fun spec acc _ =>
  ⟨⟨[], spec, k, acc, [], m⟩, Yields.loop_done (Yields.const fun _ => rfl),
    (List.append_nil acc).symm, rfl, rfl⟩

/-- A conversion whose text depends on its argument alone. -/
theorem Prints.conversion {conv t : List UInt8} {spec' : PrintfSpec} {rest' : List UInt8}
    (hconv : conv ≠ [] ∧ 0 ∉ conv)
    (hr : ∀ spec : PrintfSpec, ¬spec.type.Pending →
      formatDecode (conv ++ rest) spec = (rest', spec'))
    (ht : tokenText m (args k) (conv ++ rest) (rest', spec') = some t)
    (htouches : tokenTouches m (args k) (rest', spec') = [])
    (hnext : (tokenNext (args k) (rest', spec')).1 = rest)
    (hpending : ¬(tokenNext (args k) (rest', spec')).2.type.Pending)
    (htype : tokenTakes spec'.type = 1 ∧ spec'.type ≠ .nrchars) (h : Prints m args rest (k + 1) out) :
    Prints m args (conv ++ rest) k (t ++ out) := by
  intro spec acc hspec
  obtain ⟨r, hrest, hplain⟩ := h (tokenNext (args k) (rest', spec')).2 (acc ++ t) hpending
  refine ⟨r, ?_, List.append_assoc acc t out ▸ hplain⟩
  refine yields_token (deref_append_ne hconv.1 hconv.2 rest) (hr spec hspec) ht htouches htype.2 ?_
  rw [hnext, htype.1]
  exact hrest

/-- What stands before a conversion, or at the end. -/
theorem Prints.literal {lit : List UInt8} (hne : lit ≠ []) (hlit : '%'.toNat.toUInt8 ∉ lit)
    (hzero : 0 ∉ lit) (hrest : rest = [] ∨ deref rest = '%'.toNat.toUInt8)
    (h : Prints m args rest k out) : Prints m args (lit ++ rest) k (lit ++ out) := by
  intro spec acc hspec
  have htext : tokenText m (args k) (lit ++ rest) (rest, { spec with type := .none }) = some lit := by
    rw [tokenText]
    dsimp only
    rw [List.length_append, Nat.add_sub_cancel, List.take_left]
  obtain ⟨r, hend, hplain⟩ := h { spec with type := .none } (acc ++ lit)
    (by rintro (h | h) <;> cases h)
  refine ⟨r, ?_, List.append_assoc acc lit out ▸ hplain⟩
  exact yields_token (deref_append_ne hne hzero rest) (formatDecode_literal hspec hne hlit hrest)
    htext rfl (fun htype => by cases htype) hend

/-- `%lx`. -/
theorem Prints.hex (h : Prints m args rest (k + 1) out) :
    Prints m args (bytes "%lx" ++ rest) k (fmtHex (args k) ++ out) :=
  Prints.conversion (by decide) (fun _ hspec => (formatDecode_conversions hspec rest).1)
    (congrArg some (number_hex _ rfl rfl rfl rfl)) rfl rfl (by rintro (h | h) <;> cases h) (by decide) h

/-- `%08x`, of an `unsigned`. -/
theorem Prints.hexPad (h : Prints m args rest (k + 1) out) :
    Prints m args (bytes "%08x" ++ rest) k (fmtHexPad 8 (args k).toUInt32.toUInt64 ++ out) :=
  Prints.conversion (by decide) (fun _ hspec => (formatDecode_conversions hspec rest).2.1)
    (congrArg some (number_hexPad _ rfl rfl rfl (show (0 : Int) ≤ 8 by decide)
      (show (8 : Int) < 2 ^ 15 by decide))) rfl rfl (by rintro (h | h) <;> cases h) (by decide) h

/-- `%c`. -/
theorem Prints.char (h : Prints m args rest (k + 1) out) :
    Prints m args (bytes "%c" ++ rest) k ([(args k).toUInt8] ++ out) := by
  have hloop : charLoop 65536 (-1) = ([], -2) := by decide
  have hloop' : charLoop 65536 (-2) = ([], -3) := by decide
  refine Prints.conversion (by decide) (fun _ hspec => (formatDecode_conversions hspec rest).2.2.1)
    ?_ rfl rfl (by rintro (h | h) <;> cases h) (by decide) h
  rw [tokenText]
  dsimp only
  rw [show has ⟨.char, 0, 10, 255, -1, -1⟩ left = false by decide, if_neg Bool.false_ne_true, hloop,
    hloop']
  rfl

theorem stringText_null (m : Memory) :
    stringText (StrSrc.lit (bytes "(null)") m) ⟨.ptr, 0, 10, 255, 16, -1⟩ =
      List.replicate 10 ' '.toNat.toUInt8 ++ bytes "(null)" := by
  show stringText (fun i => (bytes "(null)").getD i 0) _ = _
  decide +kernel

theorem pointerText_eq (ptr : UInt64) (hrest : isalnum (deref rest) = false) :
    pointerText m ('p'.toNat.toUInt8 :: rest) ptr ⟨.ptr, 0, 10, 255, -1, -1⟩ =
      some (fmtPointer ptr) := by
  have hU : deref rest ≠ 'U'.toNat.toUInt8 := fun heq => absurd (heq ▸ hrest) (by decide)
  have hV : deref rest ≠ 'V'.toNat.toUInt8 := fun heq => absurd (heq ▸ hrest) (by decide)
  rw [pointerText, fmtPointer]
  dsimp only
  rw [if_pos rfl, if_pos rfl, List.drop_succ_cons, List.drop_zero, if_neg hU, if_neg hV]
  split
  · next h0 => rw [stringText_null]
  · next h0 =>
    rw [number_hexPad ptr rfl (by decide) rfl (show (0 : Int) ≤ 16 by decide)
      (show (16 : Int) < 2 ^ 15 by decide)]
    rfl

/-- `%p`. -/
theorem Prints.pointer (hrest : isalnum (deref rest) = false) (h : Prints m args rest (k + 1) out) :
    Prints m args (bytes "%p" ++ rest) k (fmtPointer (args k) ++ out) := by
  have hU : deref rest ≠ 'U'.toNat.toUInt8 := fun heq => absurd (heq ▸ hrest) (by decide)
  have htouches : pointerReads ('p'.toNat.toUInt8 :: rest) (args k) = [] := if_neg fun h => hU h.2
  have hnext : ('p'.toNat.toUInt8 :: rest).dropWhile isalnum = rest := by
    rw [List.dropWhile_cons_of_pos (by decide)]
    cases rest with
    | nil => rfl
    | cons c rest => exact List.dropWhile_cons_of_neg (Bool.eq_false_iff.1 hrest)
  exact Prints.conversion (by decide)
    (fun _ hspec => (formatDecode_conversions hspec rest).2.2.2.1) (pointerText_eq _ hrest) htouches
    hnext (by rintro (h | h) <;> cases h) (by decide) h

/-- `%0*lx`: the width is an argument. -/
theorem Prints.hexWidth (hpos : 0 ≤ argInt (args k)) (hlt : argInt (args k) < 2 ^ 15)
    (h : Prints m args rest (k + 2) out) : Prints m args (bytes "%0*lx" ++ rest) k
      (fmtHexPad (argInt (args k)).toNat (args (k + 1)) ++ out) := by
  intro spec acc hspec
  have hsplit : bytes "%0*lx" ++ rest = bytes "%0*" ++ (bytes "lx" ++ rest) := by
    rw [← List.append_assoc]
    exact congrArg (· ++ rest) (by decide)
  have hcast : castShort (argInt (args k)) = argInt (args k) := castShort_eq (by omega) hlt
  have hnext : tokenNext (args k) (bytes "lx" ++ rest,
      ⟨.width, zeropad, spec.base, spec.qualifier, -1, spec.precision⟩) = (bytes "lx" ++ rest,
      ⟨.width, zeropad, spec.base, spec.qualifier, argInt (args k), spec.precision⟩) := by
    rw [tokenNext]
    dsimp only
    rw [hcast]
  let spec' : PrintfSpec := ⟨.ulong, zeropad ||| small, 16, 'l'.toNat.toUInt8, argInt (args k), -1⟩
  have htext : number (args (k + 1)) spec' = fmtHexPad (argInt (args k)).toNat (args (k + 1)) :=
    number_hexPad _ rfl rfl rfl hpos hlt
  obtain ⟨r, hend, hplain⟩ := h spec'
    (acc ++ fmtHexPad (argInt (args k)).toNat (args (k + 1))) (by rintro (h | h) <;> cases h)
  refine ⟨r, ?_, List.append_assoc acc _ out ▸ hplain⟩
  rw [hsplit]
  refine yields_token (deref_append_ne (by decide) (by decide) _)
    (formatDecode_conversions hspec _).2.2.2.2 rfl rfl (fun htype => by cases htype) ?_
  rw [hnext, List.append_nil]
  exact yields_token (deref_append_ne (by decide) (by decide) _) (formatDecode_width hpos rest)
    (congrArg some htext) rfl (fun htype => by cases htype) hend

end

/-! ### The replies -/

/-- The formats of `fb.c`, and the texts of the model for them. -/
inductive Reply (args : Nat → UInt64) : List UInt8 → List UInt8 → Prop
  /-- `fb_request_data`. -/
  | data : Reply args (bytes "DATA%08x") (bytes "DATA" ++ fmtHexPad 8 (args 0).toUInt32.toUInt64)
  /-- `fb_oem_cmd_alloc_ex`. -/
  | alloc : Reply args (bytes "0x%lx") (bytes "0x" ++ fmtHex (args 0))
  /-- `fb_oem_cmd_smccc`. -/
  | smccc : Reply args (bytes "0x%lx 0x%lx 0x%lx 0x%lx")
    (bytes "0x" ++ fmtHex (args 0) ++ bytes " 0x" ++ fmtHex (args 1) ++ bytes " 0x" ++
      fmtHex (args 2) ++ bytes " 0x" ++ fmtHex (args 3))
  /-- `fb_oem_cmd_peek_exe`, for a character. -/
  | char : Reply args (bytes " %c ") (bytes " " ++ [(args 0).toUInt8] ++ bytes " ")
  /-- `fb_oem_cmd_peek_exe`, for a number of a width. -/
  | item (width : 0 ≤ argInt (args 0) ∧ argInt (args 0) ≤ 16) :
    Reply args (bytes "%0*lx ") (fmtHexPad (argInt (args 0)).toNat (args 1) ++ bytes " ")
  /-- `fb_rx_data_complete`. -/
  | loaded : Reply args (bytes "Loaded at %p-%p")
    (bytes "Loaded at " ++ fmtPointer (args 0) ++ bytes "-" ++ fmtPointer (args 1))

namespace Reply

variable {m : Memory} {args : Nat → UInt64} {fmt out : List UInt8}

theorem prints (h : Reply args fmt out) : Prints m args fmt 0 out := by
  -- the literal parts of the formats
  have lit (s : String) {rest out : List UInt8} {k : Nat}
      (hs : bytes s ≠ [] ∧ '%'.toNat.toUInt8 ∉ bytes s ∧ 0 ∉ bytes s)
      (hrest : rest = [] ∨ deref rest = '%'.toNat.toUInt8) (h : Prints m args rest k out) :
      Prints m args (bytes s ++ rest) k (bytes s ++ out) := .literal hs.1 hs.2.1 hs.2.2 hrest h
  have hnil {k : Nat} : Prints m args [] k [] := .nil
  cases h with
  | data =>
    have hfmt : bytes "DATA%08x" = bytes "DATA" ++ (bytes "%08x" ++ []) := by decide
    have h := lit "DATA" (by decide) (.inr (by decide)) (.hexPad (k := 0) hnil)
    rw [hfmt]
    simpa only [List.append_nil] using h
  | alloc =>
    have hfmt : bytes "0x%lx" = bytes "0x" ++ (bytes "%lx" ++ []) := by decide
    have h := lit "0x" (by decide) (.inr (by decide)) (.hex (k := 0) hnil)
    rw [hfmt]
    simpa only [List.append_nil] using h
  | smccc =>
    have hfmt : bytes "0x%lx 0x%lx 0x%lx 0x%lx" = bytes "0x" ++ (bytes "%lx" ++ (bytes " 0x" ++
        (bytes "%lx" ++ (bytes " 0x" ++ (bytes "%lx" ++ (bytes " 0x" ++ (bytes "%lx" ++ []))))))) := by
      decide
    have h3 := lit " 0x" (by decide) (.inr (by decide)) (.hex (k := 3) hnil)
    have h2 := lit " 0x" (by decide) (.inr (by decide)) (.hex (k := 2) h3)
    have h1 := lit " 0x" (by decide) (.inr (by decide)) (.hex (k := 1) h2)
    have h := lit "0x" (by decide) (.inr (by decide)) (.hex (k := 0) h1)
    rw [hfmt]
    simpa only [List.append_assoc, List.append_nil] using h
  | char =>
    have hfmt : bytes " %c " = bytes " " ++ (bytes "%c" ++ (bytes " " ++ [])) := by decide
    have h := lit " " (by decide) (.inr (by decide))
      (.char (k := 0) (lit " " (by decide) (.inl rfl) hnil))
    rw [hfmt]
    simpa only [List.append_assoc, List.append_nil] using h
  | item width =>
    have hfmt : bytes "%0*lx " = bytes "%0*lx" ++ (bytes " " ++ []) := by decide
    have h := Prints.hexWidth (k := 0) width.1 (by omega) (lit " " (by decide) (.inl rfl) hnil)
    rw [hfmt]
    simpa only [List.append_nil] using h
  | loaded =>
    have hfmt : bytes "Loaded at %p-%p" =
        bytes "Loaded at " ++ (bytes "%p" ++ (bytes "-" ++ (bytes "%p" ++ []))) := by decide
    have h1 := lit "-" (by decide) (.inr (by decide)) (.pointer (k := 1) (by decide) hnil)
    have h := lit "Loaded at " (by decide) (.inr (by decide)) (.pointer (k := 0) (by decide) h1)
    rw [hfmt]
    simpa only [List.append_assoc, List.append_nil] using h

theorem length_le (h : Reply args fmt out) : out.length ≤ 128 := by
  have hpad {w : Nat} (n : UInt64) (hw : w ≤ 16) : (fmtHexPad w n).length ≤ 16 := by
    have hn := length_fmtHex_le n
    rw [fmtHexPad, List.length_append, List.length_replicate]
    omega
  have hptr (p : UInt64) : (fmtPointer p).length ≤ 16 := by
    rw [fmtPointer]
    split
    · decide
    · exact hpad p (le_refl _)
  have hlit : (bytes "DATA").length = 4 ∧ (bytes "0x").length = 2 ∧ (bytes " 0x").length = 3 ∧
      (bytes " ").length = 1 ∧ (bytes "Loaded at ").length = 10 ∧ (bytes "-").length = 1 := by decide
  obtain ⟨hdata, hx, hblankx, hblank, hloaded, hdash⟩ := hlit
  cases h with
  | data =>
    have h0 := hpad (args 0).toUInt32.toUInt64 (by decide : 8 ≤ 16)
    rw [List.length_append]
    omega
  | alloc =>
    have h0 := length_fmtHex_le (args 0)
    rw [List.length_append]
    omega
  | smccc =>
    have h0 := length_fmtHex_le (args 0)
    have h1 := length_fmtHex_le (args 1)
    have h2 := length_fmtHex_le (args 2)
    have h3 := length_fmtHex_le (args 3)
    simp only [List.length_append]
    omega
  | char =>
    simp only [List.length_append, List.length_singleton]
    omega
  | item width =>
    have h1 := @hpad (argInt (args 0)).toNat (args 1) (by omega)
    rw [List.length_append]
    omega
  | loaded =>
    have h0 := hptr (args 0)
    have h1 := hptr (args 1)
    simp only [List.length_append]
    omega

end Reply

theorem fbLoadedText_reply (fb : FbMem) :
    Reply (fun i => [fb.lastLoaded, fb.lastLoaded + fb.loadSize - 1].getD i 0)
      (bytes "Loaded at %p-%p") (fbLoadedText fb) :=
  .loaded

theorem fbOemCmdPeekExe.item_reply {peek : FbPeekState} (h : isAccess peek.access = true)
    (value : UInt64) :
    if peek.ascii ∧ isgraph value.toUInt8 then
      Reply (fun _ => value) (bytes " %c ") (fbOemCmdPeekExe.item peek value)
    else Reply (fun i => [2 * peek.access, value].getD i 0) (bytes "%0*lx ")
      (fbOemCmdPeekExe.item peek value) := by
  have hwidth : argInt (2 * peek.access) = 2 * peek.access.toNat ∧ peek.access.toNat ≤ 8 := by
    simp only [isAccess, Bool.or_eq_true, decide_eq_true_eq] at h
    rcases h with ((h | h) | h) | h <;> rw [h] <;> decide
  obtain ⟨hwidth, hle⟩ := hwidth
  rw [fbOemCmdPeekExe.item]
  split
  · exact .char
  · have hnat : (argInt (2 * peek.access)).toNat = 2 * peek.access.toNat := by omega
    have hitem := @Reply.item (fun i => [2 * peek.access, value].getD i 0)
      (show 0 ≤ argInt (2 * peek.access) ∧ argInt (2 * peek.access) ≤ 16 by omega)
    exact hnat ▸ hitem

/-- `vscnprintf` of a text that reads nothing. -/
theorem vscnprintf_text (slots : Memory → UInt64 → Nat → UInt64) {m : Memory} {buf size : UInt64}
    {fmt : List UInt8} {args : Nat → UInt64} {r : Printed} {out : List UInt8}
    (hr : printedText m fmt args = some r) (hplain : r.Plain m out) (hpos : 0 < size.toNat)
    (hsize : size.toNat < 2 ^ 31) (hroom : buf.toNat + size.toNat < 2 ^ 64)
    (hlt : out.length < 2 ^ 31) (hlen : buf.toNat + out.length < 2 ^ 64) :
    ∃ m', Yields (vscnprintf slots m buf size fmt args)
        (m', ((scnprintf size.toNat out).length : Int)) ∧
      m'.Holds buf (scnprintf size.toNat out ++ [0]) ∧
      ∀ x, size.toNat ≤ (x - buf).toNat → m' x = m x := by
  have hbuf : bufRoom buf size = size.toNat := by
    rw [bufRoom]
    omega
  have hcast {n : Nat} (hn : n < 2 ^ 31) : castInt n = n := by
    rw [castInt]
    omega
  have h32 : size.toUInt32.toNat = size.toNat := by
    rw [UInt64.toNat_toUInt32, Nat.mod_eq_of_lt (by omega)]
  have hyields := vsnprintf_yields slots (by rw [h32, hcast hsize]; omega) hr
    (by rw [hplain.out]; exact hlen) fun x hx => absurd (hplain.touched ▸ hx) List.not_mem_nil
  have hholds := holds_printed m buf size out (hbuf ▸ hpos)
  rw [hplain.out, hplain.mem, hbuf] at hyields
  rw [hbuf] at hholds
  refine ⟨m.stored buf size.toNat (out.take (size.toNat - 1) ++ [0]), hyields.map_eq ?_, hholds,
    fun x hx => Memory.stored_outside hx⟩
  have hless : UInt64.ofInt (castInt out.length) < size ↔ out.length < size.toNat := by
    rw [hcast hlt, uInt64_ofInt_natCast, UInt64.lt_iff_toNat_lt,
      UInt64.toNat_ofNat_of_lt' (hlt.trans (by decide))]
  rw [scnprintf, List.length_take]
  dsimp only
  split
  · next h =>
    have hfits := hless.1 h
    rw [hcast hlt, Nat.min_eq_right (by omega)]
  · next h =>
    have hfull := mt hless.2 h
    have hne : size ≠ 0 := by
      rintro rfl
      exact absurd hpos (by decide)
    have hsub : (size - 1).toNat = size.toNat - 1 :=
      UInt64.toNat_sub_of_le _ _ (UInt64.le_iff_toNat_le.2 hpos)
    rw [if_pos hne, hsub, hcast (by omega), Nat.min_eq_left (by omega)]

/-- **The formats of `fb.c` make the texts of the model**: `vscnprintf` leaves the text of the reply
in the buffer as far as there is room for it, with a zero behind it, changes nothing else, and
returns its length. -/
theorem vscnprintf_reply (slots : Memory → UInt64 → Nat → UInt64) (m : Memory) {buf size : UInt64}
    {fmt : List UInt8} {args : Nat → UInt64} {out : List UInt8} (h : Reply args fmt out)
    (hpos : 0 < size.toNat) (hsize : size.toNat < 2 ^ 31) (hroom : buf.toNat + size.toNat < 2 ^ 64)
    (hlen : buf.toNat + 128 < 2 ^ 64) :
    ∃ m', Yields (vscnprintf slots m buf size fmt args)
        (m', ((scnprintf size.toNat out).length : Int)) ∧
      m'.Holds buf (scnprintf size.toNat out ++ [0]) ∧
      ∀ x, size.toNat ≤ (x - buf).toNat → m' x = m x := by
  have hle := h.length_le
  obtain ⟨r, hr, hplain⟩ := h.prints.printedText
  exact vscnprintf_text slots hr hplain hpos hsize hroom (by omega) (by omega)

theorem vscnprintf_reply_small :
    ∃ m', Yields (vscnprintf arraySlots smallText 0x1000 60 (bytes "0x%lx") fun _ => 0x83000000)
        (m', ((scnprintf 60 (bytes "0x" ++ fmtHex 0x83000000)).length : Int)) ∧
      m'.Holds 0x1000 (scnprintf 60 (bytes "0x" ++ fmtHex 0x83000000) ++ [0]) ∧
      ∀ x, 60 ≤ (x - 0x1000).toNat → m' x = smallText x :=
  vscnprintf_reply arraySlots smallText (Reply.alloc : Reply (fun _ => 0x83000000) _ _) (by decide)
    (by decide) (by decide) (by decide)

end ShieldLoader
