import ShieldLoader.Data.Fuel
import ShieldLoader.Printf.Buffer
import Mathlib.Logic.Relation

/-!
# What is printed

The text that a format and its arguments make, without a buffer: token after token, what each one
prints and which addresses are read for it or stored to. Where no `%pV` calls `vsnprintf` again, it
ends, stores what fits of this text and a zero, changes nothing else but for the counts of `%n`, and
returns the length of the text.
-/

namespace ShieldLoader

open Fuel

/-! ### Tokens -/

/-- What a token prints. What `%pV` prints is up to another call. -/
def tokenText (m : Memory) (arg : UInt64) (fmt : List UInt8) (r : List UInt8 × PrintfSpec) :
    Option (List UInt8) :=
  match r.2.type with
  | .none => some (fmt.take (fmt.length - r.1.length))
  | .width | .precision | .nrchars => some []
  | .char =>
    let lead := if r.2.has PrintfSpec.left then ([], r.2.fieldWidth)
      else charLoop 65536 r.2.fieldWidth
    some (lead.1 ++ [arg.toUInt8] ++ (charLoop 65536 lead.2).1)
  | .str => some (stringText (StrSrc.at arg m) r.2)
  | .ptr => pointerText m r.1 arg r.2
  | .percentChar | .invalid => some ['%'.toNat.toUInt8]
  | type => some (number (integerArg type arg) r.2)

/-- The addresses that are read for a token or stored to. -/
def tokenTouches (m : Memory) (arg : UInt64) (r : List UInt8 × PrintfSpec) : List UInt64 :=
  match r.2.type with
  | .str =>
    if arg < 4096 then []
    else (List.range (stringReads (StrSrc.at arg m) r.2)).map fun i => arg + UInt64.ofNat i
  | .ptr => pointerReads r.1 arg
  | .nrchars => (List.range (nrcharsSize r.2.qualifier)).map fun i => arg + UInt64.ofNat i
  | _ => []

/-- The memory after a token that comes behind `count` characters, but for the buffer. -/
def tokenMem (m : Memory) (arg : UInt64) (count : Nat) (r : List UInt8 × PrintfSpec) : Memory :=
  match r.2.type with
  | .nrchars => m.stored arg (nrcharsSize r.2.qualifier) (countBytes r.2.qualifier count)
  | _ => m

/-- What a token leaves for the next one: the format, and the specification. -/
def tokenNext (arg : UInt64) (r : List UInt8 × PrintfSpec) : List UInt8 × PrintfSpec :=
  match r.2.type with
  | .width => (r.1, { r.2 with fieldWidth := castShort (argInt arg) })
  | .precision => (r.1, { r.2 with precision := castShort (argInt arg) })
  | .char =>
    let lead := if r.2.has PrintfSpec.left then ([], r.2.fieldWidth)
      else charLoop 65536 r.2.fieldWidth
    (r.1, { r.2 with fieldWidth := (charLoop 65536 lead.2).2 })
  | .ptr => (r.1.dropWhile isalnum, r.2)
  | _ => r

/-- The number of arguments that a token takes. -/
def tokenTakes (type : FormatType) : Nat :=
  if type = .none ∨ type = .percentChar ∨ type = .invalid then 0 else 1

/-- The text so far, the addresses that are read for it or stored to, and the memory but for the
buffer. -/
structure Printed where
  fmt : List UInt8
  spec : PrintfSpec
  taken : Nat
  out : List UInt8
  touched : List UInt64
  mem : Memory

namespace Printed

/-- Nothing has been printed. -/
def start (m : Memory) (fmt : List UInt8) : Printed := ⟨fmt, PrintfSpec.zero, 0, [], [], m⟩

/-- The next token. -/
def turn (args : Nat → UInt64) (_ : Nat) (s : Printed) : Option (Turn Printed Printed) :=
  if deref s.fmt = 0 then some (.done s)
  else
    let r := formatDecode s.fmt s.spec
    let arg := args s.taken
    (tokenText s.mem arg s.fmt r).map fun t =>
      .next ⟨(tokenNext arg r).1, (tokenNext arg r).2, s.taken + tokenTakes r.2.type, s.out ++ t,
        s.touched ++ tokenTouches s.mem arg r, tokenMem s.mem arg s.out.length r⟩

/-- Token after token. -/
def Reaches (args : Nat → UInt64) : Printed → Printed → Prop :=
  Relation.ReflTransGen fun s s' => turn args 0 s = some (.next s')

end Printed

/-- The text of a format and its arguments, the addresses that are read for it or stored to, and the
memory but for the buffer. -/
def printedText (m : Memory) (fmt : List UInt8) (args : Nat → UInt64) : Option Printed :=
  loop (Printed.turn args) (2 * fmt.length + 1) (.start m fmt)

/-- A width or a precision is still to come. -/
def FormatType.Pending (type : FormatType) : Prop := type = .width ∨ type = .precision

instance (type : FormatType) : Decidable type.Pending := inferInstanceAs (Decidable (_ ∨ _))

/-- The measure of the loop. -/
def tokenMeasure (r : List UInt8 × PrintfSpec) : Nat :=
  2 * r.1.length + if r.2.type.Pending then 1 else 0

section
variable {fmt : List UInt8} {spec : PrintfSpec}

theorem integerType_not_pending (spec : PrintfSpec) : ¬(integerType spec).Pending := by
  rw [integerType]
  split_ifs <;> decide

theorem conversion_le (fmt : List UInt8) (spec : PrintfSpec) :
    (formatDecode.conversion fmt spec).1.length ≤ fmt.length ∧
      ¬(formatDecode.conversion fmt spec).2.type.Pending := by
  have hdrop : (fmt.drop 1).length ≤ fmt.length := (List.drop_suffix 1 fmt).length_le
  unfold formatDecode.conversion
  extract_lets spec' c fmt' integer
  have hinteger (spec : PrintfSpec) :
      (integer spec).1.length ≤ fmt.length ∧ ¬(integer spec).2.type.Pending :=
    ⟨hdrop, integerType_not_pending spec⟩
  have hconst {r : List UInt8 × PrintfSpec} (hle : r.1.length ≤ fmt.length)
      (htype : r.2.type ≠ .width ∧ r.2.type ≠ .precision) :
      r.1.length ≤ fmt.length ∧ ¬r.2.type.Pending := ⟨hle, not_or.2 htype⟩
  split_ifs
  all_goals first
    | exact hinteger _
    | exact hconst hdrop ⟨nofun, nofun⟩
    | exact hconst (le_refl _) ⟨nofun, nofun⟩

theorem qualifier_le (fmt : List UInt8) (spec : PrintfSpec) :
    (formatDecode.qualifier fmt spec).1.length ≤ fmt.length ∧
      ¬(formatDecode.qualifier fmt spec).2.type.Pending := by
  have hle (k : Nat) (spec : PrintfSpec) := (conversion_le (fmt.drop k) spec).imp_left
    fun h => h.trans (List.drop_suffix k fmt).length_le
  unfold formatDecode.qualifier
  extract_lets c
  split_ifs
  · exact hle 2 _
  · exact hle 2 _
  · exact hle 1 _
  · exact conversion_le fmt _

theorem length_skipAtoi (s : List UInt8) : (skipAtoi s).2.length ≤ s.length :=
  (List.dropWhile_suffix _).length_le

theorem tokenMeasure_of_not {r : List UInt8 × PrintfSpec} (h : ¬r.2.type.Pending) :
    tokenMeasure r = 2 * r.1.length := by
  rw [tokenMeasure, if_neg h, Nat.add_zero]

theorem tokenMeasure_le (r : List UInt8 × PrintfSpec) : tokenMeasure r ≤ 2 * r.1.length + 1 := by
  rw [tokenMeasure]
  split <;> omega

theorem tokenMeasure_qualifier (fmt : List UInt8) (spec : PrintfSpec) :
    tokenMeasure (formatDecode.qualifier fmt spec) ≤ 2 * fmt.length := by
  have h := qualifier_le fmt spec
  rw [tokenMeasure_of_not h.2]
  omega

/-- What is behind a character of the format is shorter than the format. -/
theorem length_drop_one (h : deref fmt ≠ 0) : (fmt.drop 1).length + 1 = fmt.length := by
  cases fmt with
  | nil => exact absurd rfl h
  | cons c fmt => rfl

theorem tokenMeasure_precision (fmt : List UInt8) (spec : PrintfSpec) :
    tokenMeasure (formatDecode.precision fmt spec) ≤ 2 * fmt.length := by
  unfold formatDecode.precision
  extract_lets spec' fmt' p
  split
  · next hdot =>
    have hlen : fmt'.length + 1 = fmt.length := length_drop_one (hdot ▸ by decide)
    split
    · have hskip := length_skipAtoi fmt'
      exact (tokenMeasure_qualifier _ _).trans (by omega)
    · split
      · have hdrop := (List.drop_suffix 1 fmt').length_le
        exact (tokenMeasure_le _).trans (by show 2 * (fmt'.drop 1).length + 1 ≤ _; omega)
      · exact (tokenMeasure_qualifier _ _).trans (by omega)
  · exact tokenMeasure_qualifier _ _

theorem tokenMeasure_width (fmt : List UInt8) (spec : PrintfSpec) :
    tokenMeasure (formatDecode.width fmt spec) ≤ 2 * fmt.length + 1 := by
  unfold formatDecode.width
  split
  · have hskip := length_skipAtoi fmt
    exact (tokenMeasure_precision _ _).trans (by omega)
  · split
    · have hdrop := (List.drop_suffix 1 fmt).length_le
      exact (tokenMeasure_le _).trans (by show 2 * (fmt.drop 1).length + 1 ≤ _; omega)
    · exact (tokenMeasure_precision _ _).trans (by omega)

/-- Text in front of a conversion is not empty. -/
theorem length_text_lt (h : deref fmt ≠ 0) (hc : deref fmt ≠ '%'.toNat.toUInt8) :
    tokenMeasure (fmt.dropWhile (· ≠ '%'.toNat.toUInt8), { spec with type := .none }) <
      2 * fmt.length := by
  rw [tokenMeasure_of_not (by rintro (h | h) <;> cases h)]
  show 2 * (fmt.dropWhile _).length < _
  cases fmt with
  | nil => exact absurd rfl h
  | cons c fmt =>
    have hle := (List.dropWhile_suffix (l := fmt) (· ≠ '%'.toNat.toUInt8)).length_le
    have hskip : (c :: fmt).dropWhile (· ≠ '%'.toNat.toUInt8) =
        fmt.dropWhile (· ≠ '%'.toNat.toUInt8) := List.dropWhile_cons_of_pos (decide_eq_true hc)
    rw [hskip, List.length_cons]
    omega

/-- A token makes the measure smaller. -/
theorem formatDecode_lt (h : deref fmt ≠ 0) (spec : PrintfSpec) :
    tokenMeasure (formatDecode fmt spec) < tokenMeasure (fmt, spec) := by
  have hpending : spec.type.Pending → tokenMeasure (fmt, spec) = 2 * fmt.length + 1 := by
    intro hp
    rw [tokenMeasure, if_pos hp]
  have hle : 2 * fmt.length ≤ tokenMeasure (fmt, spec) := Nat.le_add_right ..
  unfold formatDecode
  split
  · next hw =>
    rw [hpending (.inl hw)]
    extract_lets spec'
    split <;> exact Nat.lt_succ_of_le (tokenMeasure_precision _ _)
  · split
    · next hp =>
      rw [hpending (.inr hp)]
      exact Nat.lt_succ_of_le (tokenMeasure_qualifier _ _)
    · have hlen := length_drop_one h
      extract_lets spec' flags
      refine Nat.lt_of_lt_of_le ?_ hle
      split
      · next hc => exact length_text_lt h hc
      · have hflags := (List.dropWhile_suffix (l := fmt.drop 1) (formatFlag · ≠ 0)).length_le
        exact Nat.lt_of_le_of_lt (tokenMeasure_width _ _) (by omega)

end

theorem tokenNext_le (arg : UInt64) (r : List UInt8 × PrintfSpec) :
    tokenMeasure (tokenNext arg r) ≤ tokenMeasure r := by
  obtain ⟨fmt, type, flags, base, qualifier, width, precision⟩ := r
  cases type
  case ptr =>
    have hle := (List.dropWhile_suffix (l := fmt) isalnum).length_le
    exact Nat.add_le_add_right (Nat.mul_le_mul_left 2 hle) _
  all_goals
    dsimp only [tokenMeasure, tokenNext]
    exact le_refl _

/-! ### The loop -/

section
variable {args : Nat → UInt64} {n k : Nat} {s s' r : Printed}

namespace Printed

theorem turn_lt (h : turn args k s = some (.next s')) :
    tokenMeasure (s'.fmt, s'.spec) < tokenMeasure (s.fmt, s.spec) := by
  rw [turn] at h
  split at h
  · cases h
  · next h0 =>
    obtain ⟨t, -, ht⟩ := Option.map_eq_some_iff.1 h
    cases ht
    exact Nat.lt_of_le_of_lt (tokenNext_le _ _) (formatDecode_lt h0 _)

/-- What a loop has printed and touched, it still has in the end. -/
theorem loop_grows (h : loop (turn args) k s = some r) : s.out <+: r.out ∧ s.touched ⊆ r.touched := by
  induction k generalizing s with
  | zero => cases h
  | succ k ih =>
    obtain ⟨t, ht, hrest⟩ := Option.bind_eq_some_iff.1 h
    rw [turn] at ht
    split at ht
    · obtain rfl := Option.some.inj ht
      obtain rfl := Option.some.inj hrest
      exact ⟨List.prefix_rfl, List.Subset.refl _⟩
    · obtain ⟨text, -, rfl⟩ := Option.map_eq_some_iff.1 ht
      obtain ⟨hout, htouched⟩ := ih hrest
      exact ⟨(List.prefix_append ..).trans hout, fun x hx => htouched (List.mem_append_left _ hx)⟩

end Printed

/-- More fuel does not change what is printed. -/
theorem printedText_eq (m : Memory) (fmt : List UInt8) (args : Nat → UInt64) {k : Nat}
    (hk : 2 * fmt.length + 1 ≤ k) :
    loop (Printed.turn args) k (.start m fmt) = printedText m fmt args :=
  loop_of_lt (fun s : Printed => tokenMeasure (s.fmt, s.spec)) (fun _ _ => rfl)
    (fun _ _ => Printed.turn_lt) hk (Nat.lt_succ_self _)

end

/-! ### The loop of `vsnprintf` -/

section
variable {m : Memory} {args : Nat → UInt64} {buf end_ : UInt64} {n k : Nat} {s r : Printed}
  {slots : Memory → UInt64 → Nat → UInt64} {vsn : VsnprintfFun}

/-- The loop of `vsnprintf` behind a text. -/
def Printed.state (buf : UInt64) (n : Nat) (s : Printed) : Printf :=
  ⟨s.fmt, s.spec, s.taken, PrintfBuf.after s.mem buf n s.out⟩

/-- A turn of that loop. -/
def Printed.stateTurn (buf : UInt64) (n : Nat) : Turn Printed Printed → Turn Printf PrintfBuf :=
  Turn.after (fun s => .next (s.state buf n)) fun s => .done (PrintfBuf.after s.mem buf n s.out)

/-- There is room for the text, and what is read or stored to is not in the buffer. -/
structure Separate (buf end_ : UInt64) (n : Nat) (s : Printed) : Prop where
  room : Room buf end_ n s.out
  touched : ∀ x ∈ s.touched, n ≤ (x - buf).toNat

/-- The string of an argument is read as it is in the memory. -/
theorem str_after {arg : UInt64} {out : List UInt8} {r : List UInt8 × PrintfSpec}
    (htype : r.2.type = .str) (htouch : ∀ x ∈ tokenTouches m arg r, n ≤ (x - buf).toNat)
    (hroom : Room buf end_ n (out ++ stringText (StrSrc.at arg m) r.2)) :
    string end_ (StrSrc.at arg) r.2 (PrintfBuf.after m buf n out) =
      PrintfBuf.after m buf n (out ++ stringText (StrSrc.at arg m) r.2) := by
  refine string_after hroom fun out j hj => ?_
  rw [StrSrc.at, StrSrc.at]
  split
  · rfl
  · next hpage =>
    refine Memory.stored_outside (htouch _ ?_)
    rw [tokenTouches, htype]
    show _ ∈ if arg < 4096 then _ else _
    rw [if_neg hpage]
    exact List.mem_map.2 ⟨j, List.mem_range.2 hj, rfl⟩

/-- A token of `vsnprintf` puts its text behind the text so far. -/
theorem turn_after {t : Turn Printed Printed} (ht : Printed.turn args k s = some t)
    (h : ∀ s', t = .next s' → Separate buf end_ n s') :
    vsnprintf.turn slots vsn buf end_ args k (s.state buf n) = some (Printed.stateTurn buf n t) := by
  rw [Printed.turn] at ht
  unfold vsnprintf.turn
  show (if deref s.fmt = 0 then _ else _) = _
  by_cases h0 : deref s.fmt = 0
  · rw [if_pos h0] at ht
    obtain rfl := Option.some.inj ht
    rw [if_pos h0]
    rfl
  · rw [if_neg h0] at ht
    obtain ⟨text, htext, rfl⟩ := Option.map_eq_some_iff.1 ht
    have hsep := h _ rfl
    have hroom : Room buf end_ n (s.out ++ text) := hsep.room
    have htouch : ∀ x ∈ tokenTouches s.mem (args s.taken) (formatDecode s.fmt s.spec),
        n ≤ (x - buf).toNat := fun x hx => hsep.touched x (List.mem_append_right _ hx)
    rw [if_neg h0]
    dsimp only [Printed.state, Printed.stateTurn, Turn.after]
    clear ht h hsep
    generalize args s.taken = arg at htext htouch ⊢
    generalize formatDecode s.fmt s.spec = r at htext htouch ⊢
    obtain ⟨fmt, type, flags, base, qualifier, width, precision⟩ := r
    have hnext {fmt : List UInt8} {spec : PrintfSpec} {taken : Nat} {b b' : PrintfBuf} (hb : b = b') :
        some (.next ⟨fmt, spec, taken, b⟩ : Turn Printf PrintfBuf) =
          some (.next ⟨fmt, spec, taken, b'⟩) := congrArg _ (congrArg _ (congrArg _ hb))
    cases type
    case ptr =>
      show Option.map _ (pointer slots vsn k end_ fmt arg _ _) = _
      rw [pointer_after htext hroom htouch]
      rfl
    all_goals obtain rfl := Option.some.inj htext
    case none => exact hnext (PrintfBuf.copy_after hroom)
    case width => exact hnext (congrArg _ (List.append_nil _).symm)
    case precision => exact hnext (congrArg _ (List.append_nil _).symm)
    case char => exact hnext (PrintfBuf.puts_after hroom)
    case str => exact hnext (str_after rfl htouch hroom)
    case percentChar => exact hnext (PrintfBuf.put_after hroom.left)
    case invalid => exact hnext (PrintfBuf.put_after hroom.left)
    case nrchars =>
      have hout : ∀ i < nrcharsSize qualifier, n ≤ (arg + UInt64.ofNat i - buf).toNat :=
        fun i hi => htouch _ (List.mem_map.2 ⟨i, List.mem_range.2 hi, rfl⟩)
      exact hnext ((PrintfBuf.storeCount_after hroom.left hout).trans
        (congrArg _ (List.append_nil _).symm))
    all_goals exact hnext (PrintfBuf.puts_after hroom)

theorem Separate.front (h : Separate buf end_ n r) (hs : s.out <+: r.out ∧ s.touched ⊆ r.touched) :
    Separate buf end_ n s := by
  obtain ⟨⟨cs, hcs⟩, htouched⟩ := hs
  exact ⟨(hcs ▸ h.room).left, fun x hx => h.touched x (htouched hx)⟩

/-- With room for the text, the loop of `vsnprintf` prints it. -/
theorem loop_after (h : loop (Printed.turn args) k s = some r) (hsep : Separate buf end_ n r) :
    loop (vsnprintf.turn slots vsn buf end_ args) k (s.state buf n) =
      some (PrintfBuf.after r.mem buf n r.out) := by
  induction k generalizing s with
  | zero => cases h
  | succ k ih =>
    obtain ⟨t, ht, hrest⟩ := Option.bind_eq_some_iff.1 h
    have hturn : vsnprintf.turn slots vsn buf end_ args k (s.state buf n) =
        some (Printed.stateTurn buf n t) := turn_after ht fun s' hs' => by
      subst hs'
      exact hsep.front (Printed.loop_grows hrest)
    rw [loop, hturn]
    cases t with
    | next s' => exact ih hrest
    | done r' =>
      obtain rfl := Option.some.inj hrest
      rfl

/-- The zero is stored behind the text, or at the end of the buffer. -/
theorem finish_after {size : UInt64} {out : List UInt8} (h : Room buf end_ size.toNat out) :
    vsnprintf.finish size end_ (PrintfBuf.after m buf size.toNat out) =
      m.stored buf size.toNat (out.take (size.toNat - 1) ++ [0]) := by
  have hsize := h.size
  have hend := end_.toNat_lt
  rw [vsnprintf.finish]
  split
  · next hpos =>
    obtain ⟨n, hn⟩ : ∃ n, size.toNat = n + 1 := ⟨size.toNat - 1, by
      rw [UInt64.lt_iff_toNat_lt] at hpos
      have h0 : UInt64.toNat 0 = 0 := rfl
      omega⟩
    split
    · next hlt =>
      have hout := h.str_lt.1 hlt
      rw [List.take_of_length_le (by omega), Memory.stored_concat hout (by omega)]
      rfl
    · next hge =>
      have hout := not_lt.1 (mt h.str_lt.2 hge)
      have hlast : end_ - 1 = buf + UInt64.ofNat n := by
        rw [← UInt64.toNat_inj, UInt64.toNat_add, UInt64.toNat_ofNat_of_lt_two_pow (by omega),
          UInt64.toNat_sub_of_le _ _ (by rw [UInt64.le_iff_toNat_le]; show 1 ≤ _; omega)]
        show end_.toNat - 1 = _
        omega
      rw [hlast, hn, Nat.add_sub_cancel]
      exact Memory.stored_last (by omega) (by omega)
  · next hpos =>
    have h0 : size.toNat = 0 := by
      rw [UInt64.lt_iff_toNat_lt] at hpos
      exact Nat.eq_zero_of_not_pos hpos
    rw [h0]
    show m.stored buf 0 out = _
    rw [Memory.stored_zero, Memory.stored_zero]

/-- The bytes of a buffer that are in front of the end of the memory. -/
def bufRoom (buf size : UInt64) : Nat := min size.toNat (2 ^ 64 - 1 - buf.toNat)

/-- The ends of the buffer, as `vsnprintf` takes them. -/
theorem vsnprintf_eq (slots : Memory → UInt64 → Nat → UInt64) (m : Memory) (buf size : UInt64)
    (fmt : List UInt8) (args : Nat → UInt64) (hsize : 0 ≤ castInt size.toUInt32.toNat) :
    ∃ end_ size' : UInt64, end_.toNat = buf.toNat + bufRoom buf size ∧
      size'.toNat = bufRoom buf size ∧ ∀ fuel, ∃ vsn, vsnprintf slots m buf size fmt args (fuel + 1) =
        (loop (vsnprintf.turn slots vsn buf end_ args) fuel
          ⟨fmt, PrintfSpec.zero, 0, ⟨m, buf⟩⟩).map fun b =>
            (vsnprintf.finish size' end_ b, castInt (b.str - buf).toNat) := by
  have hbuf := buf.toNat_lt
  have hsz := size.toNat_lt
  have hwrap : buf + size < buf ↔ 2 ^ 64 ≤ buf.toNat + size.toNat := by
    rw [UInt64.lt_iff_toNat_lt, UInt64.toNat_add]
    omega
  by_cases hlt : buf + size < buf
  · have hmax : UInt64.toNat (-1) = 2 ^ 64 - 1 := rfl
    refine ⟨-1, -1 - buf, ?_, ?_, fun fuel => ⟨fun m buf size fmt args =>
      vsnprintf slots m buf size fmt args fuel, ?_⟩⟩
    · rw [bufRoom, hmax]
      have := hwrap.1 hlt
      omega
    · rw [bufRoom, UInt64.toNat_sub_of_le _ _ (by rw [UInt64.le_iff_toNat_le, hmax]; omega), hmax]
      have := hwrap.1 hlt
      omega
    · simp only [vsnprintf, if_neg (not_lt.2 hsize), if_pos hlt]
  · have hle := mt hwrap.2 hlt
    refine ⟨buf + size, size, ?_, ?_, fun fuel => ⟨fun m buf size fmt args =>
      vsnprintf slots m buf size fmt args fuel, ?_⟩⟩
    · rw [bufRoom, UInt64.toNat_add]
      omega
    · rw [bufRoom]
      omega
    · simp only [vsnprintf, if_neg (not_lt.2 hsize), if_neg hlt]

/-- What `vsnprintf` leaves in the memory, and what it returns. -/
theorem vsnprintf_yields (slots : Memory → UInt64 → Nat → UInt64) {m : Memory} {buf size : UInt64}
    {fmt : List UInt8} {args : Nat → UInt64} (hsize : 0 ≤ castInt size.toUInt32.toNat) {r : Printed}
    (hr : printedText m fmt args = some r) (hlen : buf.toNat + r.out.length < 2 ^ 64)
    (htouched : ∀ x ∈ r.touched, bufRoom buf size ≤ (x - buf).toNat) :
    Yields (vsnprintf slots m buf size fmt args)
      (r.mem.stored buf (bufRoom buf size) (r.out.take (bufRoom buf size - 1) ++ [0]),
        castInt r.out.length) := by
  obtain ⟨end_, size', hend, hsize', heq⟩ := vsnprintf_eq slots m buf size fmt args hsize
  have hstate : (⟨m, buf⟩ : PrintfBuf) = PrintfBuf.after m buf (bufRoom buf size) [] := by
    rw [PrintfBuf.after, Memory.stored_nil]
    exact congrArg _ (UInt64.add_zero buf).symm
  refine Yields.of_succ ⟨2 * fmt.length + 1, fun k hk => ?_⟩
  obtain ⟨vsn, hvsn⟩ := heq k
  have hroom : Room buf end_ (bufRoom buf size) r.out := ⟨hend, hlen⟩
  have hloop : loop (vsnprintf.turn slots vsn buf end_ args) k
      ⟨fmt, PrintfSpec.zero, 0, PrintfBuf.after m buf (bufRoom buf size) []⟩ =
        some (PrintfBuf.after r.mem buf (bufRoom buf size) r.out) :=
    loop_after ((printedText_eq m fmt args hk).trans hr) ⟨hroom, htouched⟩
  have hstr : ((PrintfBuf.after r.mem buf (bufRoom buf size) r.out).str - buf).toNat =
      r.out.length := (Memory.sub_toNat_eq (by omega)).2 rfl
  show vsnprintf slots m buf size fmt args (k + 1) = _
  rw [hvsn, hstate, hloop, Option.map_some, hstr, ← hsize']
  exact congrArg some (congrArg (·, _) (finish_after (hsize' ▸ hroom)))

theorem bufRoom_lt (buf size : UInt64) : bufRoom buf size < 2 ^ 64 := by
  have hlt := size.toNat_lt
  rw [bufRoom]
  omega

/-- A buffer that holds what fits of a text. -/
theorem holds_printed (m : Memory) (buf size : UInt64) (out : List UInt8)
    (hpos : 0 < bufRoom buf size) :
    (m.stored buf (bufRoom buf size) (out.take (bufRoom buf size - 1) ++ [0])).Holds buf
      (out.take (bufRoom buf size - 1) ++ [0]) := by
  refine Memory.holds_stored ?_ (bufRoom_lt buf size)
  rw [List.length_append, List.length_take, List.length_singleton]
  omega

end

/-- A string in the memory, for an example. -/
def smallText : Memory := Memory.ofBytes 0x2000 (bytes "hi")

/-- Its slots, where a list of arguments lies in the memory as an array. -/
def arraySlots (m : Memory) (list : UInt64) (i : Nat) : UInt64 := m.word (list + UInt64.ofNat (8 * i))

end ShieldLoader
