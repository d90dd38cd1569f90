import ShieldLoader.Fb.Numerals
import ShieldLoader.Fb.Peek
import ShieldLoader.Fb.Statuses
import ShieldLoader.Fb.Texts

/-!
# What the parsers of commands accept

The arguments of `oem alloc`, `oem free` and `oem peek` are words between single blanks. The scanner
of numbers reads `0` from an empty word, and `fb_oem_cmd_alloc_ex` does not look at what follows the
alignment in the same word, so each of the three parsers accepts more than numerals.
-/

namespace ShieldLoader

open Ascii

/-! ### Fields -/

/-- A number and the blank behind it are taken off a string. -/
def field {α : Type} (cmd : List UInt8) (f : UInt64 → List UInt8 → Option α) : Option α :=
  if deref (simpleStrtoull cmd 0).2 ≠ blank then none
  else f (simpleStrtoull cmd 0).1 ((simpleStrtoull cmd 0).2.drop 1)

/-- The first of several words is a numeral or empty, and the others are right. -/
def FieldWords (P : List (List UInt8) → Prop) (ws : List (List UInt8)) : Prop :=
  ∃ w ws', ws = w :: ws' ∧ ws' ≠ [] ∧ Scanned w ∧ P ws'

section
variable {α : Type} {cmd w c : List UInt8} {f : UInt64 → List UInt8 → Option α}

theorem field_of_word (hw : blank ∉ w) : field (w ++ blank :: c) f =
    if Scanned w then f (UInt64.ofNat ((numeral w).getD 0)) c else none := by
  by_cases hs : Scanned w
  · rw [if_pos hs, field, simpleStrtoull_blank hs]
    rfl
  · rw [if_neg hs, field, if_pos (mt (deref_blank_iff hw).1 hs)]

theorem field_of_notMem (h : blank ∉ cmd) : field cmd f = none := if_pos (deref_ne_blank h)

theorem field_append_zero (h0 : 0 ∉ cmd) (t : List UInt8) :
    field (cmd ++ 0 :: t) f = field cmd fun n c => f n (c ++ 0 :: t) := by
  rw [field, field, simpleStrtoull_append_zero _ h0, deref_append_zero]
  refine ite_congr rfl (fun _ => rfl) fun hd => ?_
  obtain ⟨-, hdrop⟩ := string_behind_number h0 (not_not.1 hd)
  rw [hdrop]

/-- A field in front of other words. -/
theorem isSome_field {P : List (List UInt8) → Prop} (h0 : 0 ∉ cmd) {t : List UInt8}
    (h : ∀ c, 0 ∉ c → ∀ n, (f n (c ++ 0 :: t)).isSome ↔ P (words c)) :
    (field (cmd ++ 0 :: t) f).isSome ↔ FieldWords P (words cmd) := by
  rw [field_append_zero h0]
  rcases words_cases cmd with hno | ⟨w, c, hw, rfl⟩
  · rw [field_of_notMem hno, words_eq_singleton hno]
    refine iff_of_false Bool.false_ne_true ?_
    rintro ⟨w, ws, heq, hne, -⟩
    exact hne (List.cons.inj heq).2.symm
  · have hc : 0 ∉ c := fun h => h0 (by simp [h])
    rw [field_of_word hw, words_append_blank hw]
    constructor
    · intro hsome
      split at hsome
      · next hs => exact ⟨w, words c, rfl, words_ne_nil c, hs, (h c hc _).1 hsome⟩
      · cases hsome
    · rintro ⟨w', ws, heq, -, hs, hP⟩
      obtain ⟨rfl, rfl⟩ := List.cons.inj heq
      rw [if_pos hs]
      exact (h c hc _).2 hP

/-- A number that ends the string is its only word. -/
theorem scanned_iff_words : Scanned cmd ↔ ∃ w, words cmd = [w] ∧ Scanned w := by
  constructor
  · exact fun h => ⟨cmd, words_eq_singleton (blank_notMem_scanned h), h⟩
  · rintro ⟨w, hw, hs⟩
    rwa [words_inj (hw.trans (words_eq_singleton (blank_notMem_scanned hs)).symm)]

end

/-! ### What the parsers accept -/

section
variable {cmd w c : List UInt8}

theorem fbOemCmdFree.args_eq (cmd : List UInt8) : args cmd =
    field cmd fun addr cmd => field cmd fun size cmd =>
      if deref (simpleStrtoull cmd 0).2 ≠ 0 then none
      else some (addr, size, (simpleStrtoull cmd 0).1) := by
  simp only [args, field, blank]

theorem fbOemCmdFree.isSome_last (h0 : 0 ∉ cmd) (addr size : UInt64) (t : List UInt8) :
    (if deref (simpleStrtoull (cmd ++ 0 :: t) 0).2 ≠ 0 then none
      else some (addr, size, (simpleStrtoull (cmd ++ 0 :: t) 0).1)).isSome ↔
    ∃ w, words cmd = [w] ∧ Scanned w := by
  rw [← scanned_iff_words, ← deref_zero_iff h0, simpleStrtoull_append_zero _ h0, deref_append_zero]
  by_cases hd : deref (simpleStrtoull cmd 0).2 = 0 <;> simp [hd]

/-- `fb_oem_cmd_free` accepts three words, each a numeral or empty. -/
theorem fbOemCmdFree.args_isSome (h0 : 0 ∉ cmd) (t : List UInt8) :
    (args (cmd ++ 0 :: t)).isSome ↔ ∃ addr size align, words cmd = [addr, size, align] ∧
      Scanned addr ∧ Scanned size ∧ Scanned align := by
  have hfields : (args (cmd ++ 0 :: t)).isSome ↔
      FieldWords (FieldWords fun ws => ∃ w, ws = [w] ∧ Scanned w) (words cmd) := by
    rw [args_eq]
    apply isSome_field h0
    intro c hc addr
    apply isSome_field hc
    intro d hd size
    exact isSome_last hd addr size t
  rw [hfields]
  constructor
  · rintro ⟨addr, -, haddr, -, h1, size, -, rfl, -, h2, align, rfl, h3⟩
    exact ⟨addr, size, align, haddr, h1, h2, h3⟩
  · rintro ⟨addr, size, align, h, h1, h2, h3⟩
    exact ⟨addr, _, h, by simp, h1, size, _, rfl, by simp, h2, align, rfl, h3⟩

/-- What may stand behind the alignment. -/
def AllocEnd (rest : List (List UInt8)) : Prop :=
  rest = [] ∨ rest = [bytes "boot"] ∨ rest = [bytes "runtime"]

instance (rest : List (List UInt8)) : Decidable (AllocEnd rest) :=
  inferInstanceAs (Decidable (_ ∨ _))

theorem fbOemCmdAllocEx.args_eq (cmd : List UInt8) : args cmd =
    field cmd fun size cmd => (fbOemCmdAllocEx.type (simpleStrtoull cmd 0).2).map fun type =>
      (size, (simpleStrtoull cmd 0).1, type) := by
  simp only [args, field, blank]

/-- What is read behind the alignment. -/
theorem fbOemCmdAllocEx.isSome_type (h0 : 0 ∉ cmd) (t : List UInt8) :
    (type ((simpleStrtoull (cmd ++ 0 :: t) 0).2)).isSome ↔
      ∃ align rest, words cmd = align :: rest ∧ (¬Scanned align ∨ AllocEnd rest) := by
  rw [simpleStrtoull_append_zero _ h0, type, deref_append_zero]
  rcases words_cases cmd with hno | ⟨w, c, hw, rfl⟩
  · rw [if_neg (deref_ne_blank hno), words_eq_singleton hno]
    exact iff_of_true rfl ⟨cmd, [], rfl, .inr (.inl rfl)⟩
  · rw [words_append_blank hw]
    by_cases hs : Scanned w
    · have hc : 0 ∉ c := fun h => h0 (by simp [h])
      have hdrop : (blank :: c ++ 0 :: t).drop 1 = c ++ 0 :: t := rfl
      have hderef : deref (blank :: c) = blank := rfl
      have hend : AllocEnd (words c) ↔ c = bytes "boot" ∨ c = bytes "runtime" := by
        rw [AllocEnd, or_iff_right (words_ne_nil c), words_eq_singleton_iff (by decide),
          words_eq_singleton_iff (by decide)]
      rw [simpleStrtoull_blank hs, if_pos hderef, hdrop]
      dsimp only
      rw [memcmp_end t hc (show 0 ∉ bytes "boot" by decide),
        memcmp_end t hc (show 0 ∉ bytes "runtime" by decide)]
      have hright : (∃ align rest, w :: words c = align :: rest ∧
          (¬Scanned align ∨ AllocEnd rest)) ↔ AllocEnd (words c) := by
        constructor
        · rintro ⟨align, rest, heq, h⟩
          obtain ⟨rfl, rfl⟩ := List.cons.inj heq
          exact h.resolve_left (not_not.2 hs)
        · exact fun h => ⟨w, _, rfl, .inr h⟩
      rw [hright, hend]
      simp only [decide_eq_true_iff]
      split_ifs with h1 h2
      · exact iff_of_true rfl (.inl h1)
      · exact iff_of_true rfl (.inr h2)
      · exact iff_of_false Bool.false_ne_true (not_or.2 ⟨h1, h2⟩)
    · rw [if_neg (mt (deref_blank_iff hw).1 hs)]
      exact iff_of_true rfl ⟨w, words c, rfl, .inl hs⟩

/-- `fb_oem_cmd_alloc_ex` accepts a numeral, or nothing, in front of the alignment. -/
theorem fbOemCmdAllocEx.args_isSome (h0 : 0 ∉ cmd) (t : List UInt8) :
    (args (cmd ++ 0 :: t)).isSome ↔ ∃ size align rest, words cmd = size :: align :: rest ∧
      Scanned size ∧ (¬Scanned align ∨ AllocEnd rest) := by
  have hfields : (args (cmd ++ 0 :: t)).isSome ↔ FieldWords (fun ws =>
      ∃ align rest, ws = align :: rest ∧ (¬Scanned align ∨ AllocEnd rest)) (words cmd) := by
    rw [args_eq]
    apply isSome_field h0
    intro c hc size
    rw [Option.isSome_map]
    exact isSome_type hc t
  rw [hfields]
  constructor
  · rintro ⟨size, -, hsize, -, h1, align, rest, rfl, h2⟩
    exact ⟨size, align, rest, hsize, h1, h2⟩
  · rintro ⟨size, align, rest, h, h1, h2⟩
    exact ⟨size, _, h, by simp, h1, align, rest, rfl, h2⟩

/-- The text is a numeral of one of the widths. -/
def IsWidth (w : List UInt8) : Prop := ∃ n, numeral w = some n ∧ isAccess (UInt64.ofNat n) = true

theorem fbOemCmdPeek.args_eq (cmd : List UInt8) : args cmd =
    field cmd fun addr cmd =>
      if !isAccess (access cmd).2.1 then none
      else if deref (items (access cmd).2.2).2 ≠ 0 then none
      else some ⟨addr, (access cmd).2.1, (items (access cmd).2.2).1, (access cmd).1⟩ := by
  simp only [args, field, blank]

/-- What may stand behind the width: nothing, or a blank and a numeral or nothing. -/
def PeekEnd (rest : List UInt8) : Prop := rest = [] ∨ ∃ n, rest = blank :: n ∧ Scanned n

theorem fbOemCmdPeek.deref_items_iff (h0 : 0 ∉ cmd) : deref (items cmd).2 = 0 ↔ PeekEnd cmd := by
  rw [items]
  cases cmd with
  | nil => exact iff_of_true rfl (.inl rfl)
  | cons c cmd =>
    rw [List.mem_cons, not_or] at h0
    have hend : PeekEnd (c :: cmd) ↔ c = blank ∧ Scanned cmd := by simp [PeekEnd]
    rw [hend]
    split
    · next hc =>
      rw [and_iff_right (show c = blank from hc)]
      exact deref_zero_iff h0.2
    · next hc => exact iff_of_false (fun h => h0.1 h.symm) fun h => hc h.1

/-- What `fb_oem_cmd_peek` reads behind the address. -/
theorem fbOemCmdPeek.access_iff : isAccess (access cmd).2.1 = true ∧ PeekEnd (access cmd).2.2 ↔
    ∃ w rest, cmd = w ++ rest ∧ (w = bytes "c" ∨ IsWidth w) ∧ PeekEnd rest := by
  constructor
  · rw [access]
    split
    · next hc =>
      cases cmd with
      | nil => exact absurd hc (by decide)
      | cons c cmd =>
        obtain rfl : c = 'c'.toNat.toUInt8 := hc
        exact fun h => ⟨bytes "c", cmd, rfl, .inl rfl, h.2⟩
    · obtain ⟨f, rest, rfl, -, hread⟩ := simpleStrtoull_spec cmd
      rw [hread]
      rintro ⟨hacc, hend⟩
      refine ⟨f, rest, rfl, .inr ?_, hend⟩
      cases hn : numeral f with
      | none =>
        have hzero : isAccess (UInt64.ofNat ((numeral f).getD 0)) = false := by
          rw [hn]
          decide
        exact absurd (hzero.symm.trans hacc) Bool.false_ne_true
      | some n =>
        rw [hn] at hacc
        exact ⟨n, hn, hacc⟩
  · rintro ⟨w, rest, rfl, rfl | ⟨n, hn, hacc⟩, hend⟩
    · exact ⟨rfl, hend⟩
    · have hc : deref (w ++ rest) ≠ 'c'.toNat.toUInt8 := by
        have hnum := numeral_eq_some.1 hn
        cases w with
        | nil => cases hn
        | cons c w =>
          rintro rfl
          exact hnum.head_digit (by decide)
      have hread : simpleStrtoull (w ++ rest) 0 = (UInt64.ofNat n, rest) := by
        have hscan : Scanned w := .inr (isNumeral_iff_exists.2 ⟨n, hn⟩)
        rcases hend with rfl | ⟨c, rfl, -⟩
        · rw [List.append_nil, simpleStrtoull_end hscan, hn]
          rfl
        · rw [simpleStrtoull_blank hscan, hn]
          rfl
      rw [access, if_neg hc, hread]
      exact ⟨hacc, hend⟩

/-- The same in words. -/
theorem peekEnd_iff_words {P : List UInt8 → Prop} (hP : ∀ w, P w → blank ∉ w) :
    (∃ w rest, cmd = w ++ rest ∧ P w ∧ PeekEnd rest) ↔
    ∃ w rest, words cmd = w :: rest ∧ P w ∧ (rest = [] ∨ ∃ n, rest = [n] ∧ Scanned n) := by
  constructor
  · rintro ⟨w, rest, rfl, hw, rfl | ⟨n, rfl, hn⟩⟩
    · exact ⟨w, [], by rw [List.append_nil, words_eq_singleton (hP w hw)], hw, .inl rfl⟩
    · refine ⟨w, [n], ?_, hw, .inr ⟨n, rfl, hn⟩⟩
      rw [words_append_blank (hP w hw), words_eq_singleton (blank_notMem_scanned hn)]
  · rintro ⟨w, rest, hwords, hw, hrest⟩
    rcases words_cases cmd with hno | ⟨v, c, hv, rfl⟩
    · rw [words_eq_singleton hno] at hwords
      obtain ⟨rfl, -⟩ := List.cons.inj hwords
      exact ⟨cmd, [], (List.append_nil _).symm, hw, .inl rfl⟩
    · rw [words_append_blank hv] at hwords
      obtain ⟨rfl, rfl⟩ := List.cons.inj hwords
      refine ⟨v, blank :: c, rfl, hw, .inr ⟨c, rfl, ?_⟩⟩
      exact scanned_iff_words.2 (hrest.resolve_left (words_ne_nil c))

/-- `fb_oem_cmd_peek` accepts a numeral or nothing, a width, and a numeral or nothing. -/
theorem fbOemCmdPeek.args_isSome (h0 : 0 ∉ cmd) (t : List UInt8) :
    (args (cmd ++ 0 :: t)).isSome ↔ ∃ addr w rest, words cmd = addr :: w :: rest ∧ Scanned addr ∧
      (w = bytes "c" ∨ IsWidth w) ∧ (rest = [] ∨ ∃ n, rest = [n] ∧ Scanned n) := by
  have hblank : ∀ w, w = bytes "c" ∨ IsWidth w → blank ∉ w := by
    rintro _ (rfl | ⟨n, hn, -⟩)
    · decide
    · exact blank_notMem_scanned (.inr (isNumeral_iff_exists.2 ⟨n, hn⟩))
  have hfields : (args (cmd ++ 0 :: t)).isSome ↔ FieldWords (fun ws => ∃ w rest, ws = w :: rest ∧
      (w = bytes "c" ∨ IsWidth w) ∧ (rest = [] ∨ ∃ n, rest = [n] ∧ Scanned n)) (words cmd) := by
    rw [args_eq]
    apply isSome_field h0
    intro c hc addr
    obtain ⟨hc₁, haccess⟩ := fbOemCmdPeek.access_append_zero hc
    obtain ⟨-, hitems⟩ := fbOemCmdPeek.items_append_zero hc₁
    rw [← peekEnd_iff_words hblank, ← access_iff, ← deref_items_iff hc₁, haccess t, hitems t,
      deref_append_zero]
    by_cases ha : isAccess (access c).2.1 = true
    · by_cases hd : deref (items (access c).2.2).2 = 0 <;> simp [ha, hd]
    · simp [ha]
  rw [hfields]
  constructor
  · rintro ⟨addr, -, haddr, -, h1, w, rest, rfl, h2⟩
    exact ⟨addr, w, rest, haddr, h1, h2⟩
  · rintro ⟨addr, w, rest, h, h1, h2⟩
    exact ⟨addr, _, h, by simp, h1, w, rest, rfl, h2⟩

end

end ShieldLoader
