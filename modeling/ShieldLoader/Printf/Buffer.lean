import ShieldLoader.Printf.Defs

/-!
# The buffer

What goes to the buffer is a text: the characters before its end are stored, and all of them are
counted. The state of the buffer is then a function of the text, and each part of a format only puts
its own text behind it.
-/

namespace ShieldLoader

/-- The buffer behind a text. -/
def PrintfBuf.after (m : Memory) (buf : UInt64) (n : Nat) (out : List UInt8) : PrintfBuf :=
  ⟨m.stored buf n out, buf + UInt64.ofNat out.length⟩

section
variable {m : Memory} {buf end_ : UInt64} {n : Nat} {out cs : List UInt8} {c : UInt8}

/-- The text, and what it starts with, are in front of the end of the memory. -/
structure Room (buf end_ : UInt64) (n : Nat) (out : List UInt8) : Prop where
  size : end_.toNat = buf.toNat + n
  text : buf.toNat + out.length < 2 ^ 64

theorem Room.left (h : Room buf end_ n (out ++ cs)) : Room buf end_ n out :=
  ⟨h.size, by have := h.text; rw [List.length_append] at this; omega⟩

theorem Room.toNat_str (h : Room buf end_ n out) :
    (buf + UInt64.ofNat out.length).toNat = buf.toNat + out.length := by
  have htext := h.text
  rw [UInt64.toNat_add, UInt64.toNat_ofNat_of_lt_two_pow (by omega), Nat.mod_eq_of_lt htext]

theorem Room.str_lt (h : Room buf end_ n out) :
    buf + UInt64.ofNat out.length < end_ ↔ out.length < n := by
  rw [UInt64.lt_iff_toNat_lt, h.toNat_str, h.size]
  omega

theorem PrintfBuf.put_after (h : Room buf end_ n out) :
    (after m buf n out).put end_ c = after m buf n (out ++ [c]) := by
  have hstr : buf + UInt64.ofNat (out ++ [c]).length = buf + UInt64.ofNat out.length + 1 := by
    rw [List.length_append, List.length_singleton, UInt64.ofNat_add, UInt64.add_assoc]
    rfl
  rw [after, after, put, hstr]
  congr 1
  split
  · next hlt => exact (Memory.stored_concat (h.str_lt.1 hlt) (by have := h.text; omega)).symm
  · next hge => exact (Memory.stored_full (not_lt.1 (mt h.str_lt.2 hge))).symm

theorem PrintfBuf.puts_after (h : Room buf end_ n (out ++ cs)) :
    (after m buf n out).puts end_ cs = after m buf n (out ++ cs) := by
  induction cs generalizing out with
  | nil => rw [List.append_nil]; rfl
  | cons c cs ih =>
    have happend : out ++ c :: cs = out ++ [c] ++ cs := by simp
    rw [happend] at h ⊢
    rw [← ih h, ← put_after h.left.left]
    rfl

/-- Text between two conversions is copied as a whole. -/
theorem PrintfBuf.copy_after (h : Room buf end_ n (out ++ cs)) :
    (after m buf n out).copy end_ cs = after m buf n (out ++ cs) := by
  have hlt := h.left.text
  have hsize := h.size
  have hend := end_.toNat_lt
  rw [after, after, copy, List.length_append, UInt64.ofNat_add, ← UInt64.add_assoc]
  congr 1
  split
  · next hstr =>
    have hout := h.left.str_lt.1 hstr
    have hroom : (end_ - (buf + UInt64.ofNat out.length)).toNat = n - out.length := by
      rw [UInt64.toNat_sub_of_le _ _ (UInt64.le_of_lt hstr), h.left.toNat_str, hsize]
      omega
    funext x
    rw [hroom]
    exact Memory.stored_append hout (by omega) x
  · next hstr => exact (Memory.stored_full (not_lt.1 (mt h.left.str_lt.2 hstr))).symm

end

/-! ### Strings -/

section
variable {m m' : Memory} {buf end_ : UInt64} {n : Nat} {out : List UInt8} {s s' : Nat → UInt8}
  {src : StrSrc} {spec : PrintfSpec}

theorem strnlen_le (s : Nat → UInt8) (count i : Nat) : strnlen s count i ≤ i + count := by
  induction count generalizing i with
  | zero => exact le_refl _
  | succ count ih =>
    rw [strnlen]
    split
    · omega
    · have := ih (i + 1)
      omega

theorem le_strnlen (s : Nat → UInt8) (count i : Nat) : i ≤ strnlen s count i := by
  induction count generalizing i with
  | zero => exact le_refl _
  | succ count ih =>
    rw [strnlen]
    split
    · exact le_refl _
    · exact (Nat.le_succ i).trans (ih (i + 1))

/-- `strnlen` reads up to the zero, or up to its limit. -/
theorem strnlen_congr {count i : Nat}
    (h : ∀ j, i ≤ j → j ≤ strnlen s count i → j < i + count → s' j = s j) :
    strnlen s' count i = strnlen s count i := by
  induction count generalizing i with
  | zero => rfl
  | succ count ih =>
    have hhead := h i (le_refl _) (le_strnlen ..) (by omega)
    rw [strnlen] at h
    rw [strnlen, strnlen, hhead]
    split
    · rfl
    · next hs =>
      rw [if_neg hs] at h
      exact ih fun j hj hj' hlt => h j (by omega) hj' (by omega)

/-- The limit for the characters of a string. -/
def PrintfSpec.limit (spec : PrintfSpec) : Nat := (UInt64.ofInt spec.precision).toNat

/-- A string in its field. -/
def stringText (s : Nat → UInt8) (spec : PrintfSpec) : List UInt8 :=
  let len := castInt (strnlen s spec.limit 0)
  let lead := if spec.has PrintfSpec.left then ([], spec.fieldWidth)
    else blankLoop len 65536 spec.fieldWidth
  lead.1 ++ (List.range len.toNat).map s ++ (blankLoop len 65536 lead.2).1

/-- The number of characters that are read of a string. -/
def stringReads (s : Nat → UInt8) (spec : PrintfSpec) : Nat :=
  min (strnlen s spec.limit 0 + 1) spec.limit

theorem castInt_le {x : Int} (h : 0 ≤ x) : castInt x ≤ x := by
  rw [castInt]
  omega

theorem PrintfBuf.copyStr_after {k i : Nat} (h : Room buf end_ n (out ++ (List.range' i k).map s))
    (hsrc : ∀ out j, i ≤ j → j < i + k → src (m.stored buf n out) j = s j) :
    copyStr end_ src k i (after m buf n out) = after m buf n (out ++ (List.range' i k).map s) := by
  induction k generalizing i out with
  | zero => rw [List.range'_zero, List.map_nil, List.append_nil]; rfl
  | succ k ih =>
    have happend : out ++ (List.range' i (k + 1)).map s =
        out ++ [s i] ++ (List.range' (i + 1) k).map s := by
      rw [List.range'_succ, List.map_cons, List.append_assoc, List.singleton_append]
    rw [happend] at h ⊢
    have hchar : src (after m buf n out).mem i = s i := hsrc out i (le_refl _) (by omega)
    rw [copyStr, hchar, put_after h.left.left]
    exact ih h fun out j hj hlt => hsrc out j (by omega) (by omega)

/-- A string that is not in the buffer is printed as it is. -/
theorem string_after (h : Room buf end_ n (out ++ stringText s spec))
    (hsrc : ∀ out, ∀ j < stringReads s spec, src (m.stored buf n out) j = s j) :
    string end_ src spec (PrintfBuf.after m buf n out) =
      PrintfBuf.after m buf n (out ++ stringText s spec) := by
  have hlen : strnlen (src (m.stored buf n out)) spec.limit 0 = strnlen s spec.limit 0 :=
    strnlen_congr fun j _ hj hlt => hsrc out j (by rw [stringReads]; omega)
  have hle := strnlen_le s spec.limit 0
  have hread : ∀ out j, 0 ≤ j → j < 0 + (castInt (strnlen s spec.limit 0)).toNat →
      src (m.stored buf n out) j = s j := by
    intro out j _ hj
    have hcast := castInt_le (Int.natCast_nonneg (strnlen s spec.limit 0))
    exact hsrc out j (by rw [stringReads]; omega)
  have hlen' : castInt (strnlen (src (PrintfBuf.after m buf n out).mem)
      (UInt64.ofInt spec.precision).toNat 0) = castInt (strnlen s spec.limit 0) :=
    congrArg (fun k : Nat => castInt k) hlen
  rw [stringText, List.range_eq_range'] at h ⊢
  rw [string, hlen']
  generalize castInt (strnlen s spec.limit 0) = len at h hread ⊢
  generalize (if spec.has PrintfSpec.left then ([], spec.fieldWidth)
    else blankLoop len 65536 spec.fieldWidth) = lead at h ⊢
  rw [← List.append_assoc, ← List.append_assoc] at h ⊢
  rw [PrintfBuf.puts_after h.left.left, PrintfBuf.copyStr_after h.left hread, PrintfBuf.puts_after h]

end

/-! ### Pointers -/

section
variable {m m' : Memory} {buf end_ : UInt64} {n : Nat} {out fmt : List UInt8} {spec : PrintfSpec}
  {ptr : UInt64}

/-- What is printed for a pointer, with the format from the `p` on. What `%pV` prints is up to
another call. -/
def pointerText (m : Memory) (fmt : List UInt8) (ptr : UInt64) (spec : PrintfSpec) :
    Option (List UInt8) :=
  let wide := if spec.fieldWidth = -1 then { spec with fieldWidth := 16 } else spec
  if ptr = 0 then some (stringText (StrSrc.lit (bytes "(null)") m) wide)
  else if deref (fmt.drop 1) = 'U'.toNat.toUInt8 then
    some (stringText (StrSrc.lit (uuidText m ptr (deref (fmt.drop 2))) m) spec)
  else if deref (fmt.drop 1) = 'V'.toNat.toUInt8 then none
  else
    let flags := if spec.fieldWidth = -1 then spec.flags ||| PrintfSpec.small ||| PrintfSpec.zeropad
      else spec.flags ||| PrintfSpec.small
    some (number ptr { wide with flags := flags, base := 16 })

/-- The addresses that are read for a pointer. -/
def pointerReads (fmt : List UInt8) (ptr : UInt64) : List UInt64 :=
  if ptr ≠ 0 ∧ deref (fmt.drop 1) = 'U'.toNat.toUInt8 then
    (List.range 16).map fun i => ptr + UInt64.ofNat i
  else []

theorem uuidText_congr {addr : UInt64} (c : UInt8)
    (h : ∀ i < 16, m' (addr + UInt64.ofNat i) = m (addr + UInt64.ofNat i)) :
    uuidText m' addr c = uuidText m addr c := by
  have hlt : ∀ little : Bool, ∀ i < 16, (uuidIndex little).getD i 0 < 16 := by decide
  have hbytes : ∀ (little : Bool) (g : Nat → List UInt8),
      ((List.range 16).flatMap fun i =>
        packHexByte (m' (addr + UInt64.ofNat ((uuidIndex little).getD i 0))) ++ g i) =
      (List.range 16).flatMap fun i =>
        packHexByte (m (addr + UInt64.ofNat ((uuidIndex little).getD i 0))) ++ g i := by
    intro little g
    refine List.flatMap_congr fun i hi => ?_
    rw [h _ (hlt little i (List.mem_range.1 hi))]
  rw [uuidText, uuidText, hbytes]

theorem pointer_after {slots : Memory → UInt64 → Nat → UInt64} {vsn : VsnprintfFun} {fuel : Nat}
    {t : List UInt8} (ht : pointerText m fmt ptr spec = some t) (hroom : Room buf end_ n (out ++ t))
    (hreads : ∀ x ∈ pointerReads fmt ptr, n ≤ (x - buf).toNat) :
    pointer slots vsn fuel end_ fmt ptr spec (PrintfBuf.after m buf n out) =
      some (PrintfBuf.after m buf n (out ++ t)) := by
  rw [pointerText] at ht
  rw [pointer]
  by_cases h0 : ptr = 0
  · rw [if_pos h0] at ht
    obtain rfl := Option.some.inj ht
    rw [if_pos h0]
    exact congrArg some (string_after hroom fun _ _ _ => rfl)
  · rw [if_neg h0] at ht
    rw [if_neg h0]
    by_cases hU : deref (fmt.drop 1) = 'U'.toNat.toUInt8
    · rw [if_pos hU] at ht
      obtain rfl := Option.some.inj ht
      have huuid : uuidText (PrintfBuf.after m buf n out).mem ptr (deref (fmt.drop 2)) =
          uuidText m ptr (deref (fmt.drop 2)) := by
        refine uuidText_congr _ fun i hi => Memory.stored_outside (hreads _ ?_)
        rw [pointerReads, if_pos ⟨h0, hU⟩]
        exact List.mem_map.2 ⟨i, List.mem_range.2 hi, rfl⟩
      rw [if_pos hU, huuid]
      exact congrArg some (string_after hroom fun _ _ _ => rfl)
    · rw [if_neg hU] at ht
      rw [if_neg hU]
      by_cases hV : deref (fmt.drop 1) = 'V'.toNat.toUInt8
      · rw [if_pos hV] at ht
        cases ht
      · rw [if_neg hV] at ht
        obtain rfl := Option.some.inj ht
        rw [if_neg hV]
        exact congrArg some (PrintfBuf.puts_after hroom)

end

/-! ### Counts -/

/-- The bytes that `%n` stores for a text of this length. -/
def countBytes (qualifier : UInt8) (len : Nat) : List UInt8 :=
  (bigBytes (nrcharsSize qualifier) len).reverse

theorem PrintfBuf.storeCount_after {m : Memory} {buf end_ ip : UInt64} {n : Nat} {out : List UInt8}
    {qualifier : UInt8} (h : Room buf end_ n out)
    (hip : ∀ i < nrcharsSize qualifier, n ≤ (ip + UInt64.ofNat i - buf).toNat) :
    (after m buf n out).storeCount buf qualifier ip =
      after (m.stored ip (nrcharsSize qualifier) (countBytes qualifier out.length)) buf n out := by
  have hlt := h.text
  have hlen : (buf + UInt64.ofNat out.length - buf).toNat = out.length := by
    rw [UInt64.add_comm, UInt64.add_sub_cancel, UInt64.toNat_ofNat_of_lt_two_pow (by omega)]
  rw [storeCount, after, after]
  dsimp only
  rw [hlen, ← Memory.stored_comm hip, countBytes]

end ShieldLoader
