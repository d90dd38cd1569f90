import ShieldLoader.Data.Segment
import ShieldLoader.Lmb.Defs
import Mathlib.Tactic.Set

/-!
# The table that an array holds

`LmbRegion.table` reads the first `cnt` entries of an array as segments of natural numbers. The
array edits of `lmb.c` (update of one entry, removal by shifting down, insertion by shifting up)
are list edits of the table.
-/

namespace ShieldLoader

/-- The labels of the segments of a table. -/
abbrev LmbLabel := LmbType × UInt32

abbrev LmbSegment := Segment Nat LmbLabel

/-- The range `[base, base + size)` of natural numbers, labelled by type and tag. -/
def LmbProperty.seg (p : LmbProperty) : LmbSegment :=
  ⟨p.base.toNat, p.base.toNat + p.size.toNat, p.type, p.tag⟩

@[simp] theorem LmbProperty.seg_lo (p : LmbProperty) : p.seg.lo = p.base.toNat := rfl

@[simp] theorem LmbProperty.seg_hi (p : LmbProperty) :
    p.seg.hi = p.base.toNat + p.size.toNat := rfl

@[simp] theorem LmbProperty.seg_label (p : LmbProperty) : p.seg.label = (p.type, p.tag) := rfl

theorem LmbProperty.seg_inj {p q : LmbProperty} : p.seg = q.seg ↔ p = q := by
  refine ⟨fun h => ?_, fun h => h ▸ rfl⟩
  have hb := congrArg Segment.lo h
  have hs := congrArg Segment.hi h
  have hl := congrArg Segment.label h
  cases p; cases q
  simp only [seg_lo, seg_hi, seg_label, Prod.mk.injEq] at hb hs hl
  simp only [mk.injEq, ← UInt64.toNat_inj]
  exact ⟨hb, by omega, hl.2, hl.1⟩

namespace LmbRegion

variable (rgn : LmbRegion)

/-- The entries `0..cnt-1` as segments. -/
def table : List LmbSegment := (List.range rgn.cnt.toNat).map fun i => (rgn.region i).seg

@[simp] theorem length_table : rgn.table.length = rgn.cnt.toNat := by simp [table]

@[simp] theorem getElem_table {i : Nat} (h : i < rgn.table.length) :
    rgn.table[i] = (rgn.region i).seg := by simp [table]

variable {rgn}

theorem mem_table {s : LmbSegment} :
    s ∈ rgn.table ↔ ∃ i < rgn.cnt.toNat, (rgn.region i).seg = s := by
  simp [table, List.mem_map]

theorem seg_mem_table {i : Nat} (h : i < rgn.cnt.toNat) : (rgn.region i).seg ∈ rgn.table :=
  mem_table.2 ⟨i, h, rfl⟩

/-- The table around one of its indices. -/
theorem table_eq_append {i : Nat} (h : i < rgn.cnt.toNat) :
    rgn.table = rgn.table.take i ++ (rgn.region i).seg :: rgn.table.drop (i + 1) := by
  have hi : i < rgn.table.length := by simpa using h
  conv_lhs => rw [← List.take_append_drop i rgn.table, List.drop_eq_getElem_cons hi]
  rw [getElem_table]

theorem mem_take_table {i : Nat} {s : LmbSegment} (h : i ≤ rgn.cnt.toNat) :
    s ∈ rgn.table.take i ↔ ∃ j < i, (rgn.region j).seg = s := by
  rw [List.mem_take_iff_getElem]
  simp only [getElem_table, length_table, min_eq_left h, exists_prop]

theorem mem_drop_table {i : Nat} {s : LmbSegment} :
    s ∈ rgn.table.drop i ↔ ∃ j, i ≤ j ∧ j < rgn.cnt.toNat ∧ (rgn.region j).seg = s := by
  rw [List.mem_drop_iff_getElem]
  simp only [getElem_table, length_table]
  constructor
  · rintro ⟨j, hj, rfl⟩
    exact ⟨i + j, by omega, by omega, by simp⟩
  · rintro ⟨j, hij, hj, rfl⟩
    exact ⟨j - i, by omega, by congr 2; omega⟩

/-- An update of one entry. -/
theorem table_update {i : Nat} {p : LmbProperty} :
    table { rgn with region := Function.update rgn.region i p } = rgn.table.set i p.seg := by
  apply List.ext_getElem (by simp)
  intro j h1 h2
  rw [getElem_table, List.getElem_set]
  split
  · next h => subst h; simp
  · next h => simp [Function.update_of_ne (Ne.symm h)]

theorem table_update_eq {i : Nat} {p : LmbProperty} (h : i < rgn.cnt.toNat) :
    table { rgn with region := Function.update rgn.region i p } =
      rgn.table.take i ++ p.seg :: rgn.table.drop (i + 1) := by
  rw [table_update, List.set_eq_take_append_cons_drop, if_pos (by simpa using h)]

end LmbRegion

/-! ### Removal by shifting down -/

theorem lmbRemoveRegion.shift_apply (region : Nat → LmbProperty) (i n k : Nat) :
    shift region i n k = if i ≤ k ∧ k < i + n then region (k + 1) else region k := by
  induction n generalizing region i with
  | zero => rw [shift, if_neg (by omega)]
  | succ n ih =>
    rw [shift, ih]
    rcases Nat.lt_trichotomy k i with hk | rfl | hk
    · rw [if_neg (by omega), if_neg (by omega), Function.update_of_ne (by omega)]
    · rw [if_neg (by omega), if_pos (by omega), Function.update_self]
    · rw [Function.update_of_ne (by omega), Function.update_of_ne (by omega)]
      congr 1
      simp only [eq_iff_iff]; omega

/-- On a table that is not empty, `lmb_remove_region` stays in the array and erases one entry. -/
theorem lmbRemoveRegion_eq {rgn : LmbRegion} {r : Nat} (hr : r < rgn.cnt.toNat)
    (hcnt : rgn.cnt.toNat ≤ maxLmbRegions + 1) :
    ∃ rgn', lmbRemoveRegion rgn r = some rgn' ∧ rgn'.cnt.toNat = rgn.cnt.toNat - 1 ∧
      rgn'.table = rgn.table.take r ++ rgn.table.drop (r + 1) ∧
      ∀ k, rgn'.region k = if r ≤ k ∧ k < rgn.cnt.toNat - 1 then rgn.region (k + 1)
        else rgn.region k := by
  have h1 : (rgn.cnt - 1).toNat = rgn.cnt.toNat - 1 := by
    have : (1 : UInt64).toNat = 1 := rfl
    rw [UInt64.toNat_sub_of_le _ _ (by rw [UInt64.le_iff_toNat_le]; omega), this]
  have hreg : ∀ k, lmbRemoveRegion.shift rgn.region r ((rgn.cnt - 1).toNat - r) k =
      if r ≤ k ∧ k < rgn.cnt.toNat - 1 then rgn.region (k + 1) else rgn.region k := by
    intro k
    rw [lmbRemoveRegion.shift_apply, h1]
    congr 1
    simp only [eq_iff_iff]; omega
  refine ⟨_, by rw [lmbRemoveRegion, if_neg (by omega)], h1, ?_, hreg⟩
  rw [← List.eraseIdx_eq_take_drop_succ]
  apply List.ext_getElem
  · rw [List.length_eraseIdx]; simp [h1, hr]
  · intro k hk _
    simp only [LmbRegion.length_table, h1] at hk
    simp only [LmbRegion.getElem_table, List.getElem_eraseIdx, hreg]
    split_ifs <;> first | rfl | omega

/-! ### Insertion by shifting up -/

theorem lmbAddRegion.insert_of_lt (region : Nat → LmbProperty) (p : LmbProperty) {n k : Nat}
    (h : n < k) : insert region p n k = region k := by
  induction n generalizing region with
  | zero => rfl
  | succ n ih =>
    rw [insert]
    split
    · rw [ih _ (by omega), Function.update_of_ne (by omega)]
    · rw [Function.update_of_ne (by omega)]

/-- The last loop of `lmb_add_region` puts the entry behind the last one whose base is not above
its own, and moves the entries behind that by one. Below all entries it is put nowhere (`m = 0`). -/
theorem lmbAddRegion.insert_apply (region : Nat → LmbProperty) (p : LmbProperty) (n : Nat) :
    ∃ m ≤ n, (∀ k, m ≤ k → k < n → p.base < (region k).base) ∧
      (0 < m → ¬p.base < (region (m - 1)).base) ∧
      ∀ k ≤ n, insert region p n k =
        if k < m then region k else if k = m ∧ 0 < m then p else region (k - 1) := by
  induction n generalizing region with
  | zero => exact ⟨0, le_rfl, by omega, by omega, fun k hk => by obtain rfl : k = 0 := by omega
                                                                 simp [insert]⟩
  | succ n ih =>
    rw [insert]
    split
    · next hlt =>
      obtain ⟨m, hm, hgt, hle, hval⟩ := ih (Function.update region (n + 1) (region n))
      have hne : ∀ k ≤ n, Function.update region (n + 1) (region n) k = region k :=
        fun k hk => Function.update_of_ne (by omega) ..
      refine ⟨m, by omega, fun k hk hkn => ?_, fun h => ?_, fun k hk => ?_⟩
      · rcases Nat.lt_succ_iff_lt_or_eq.1 hkn with hkn | rfl
        · rw [← hne k (by omega)]; exact hgt k hk hkn
        · exact hlt
      · rw [← hne _ (by omega)]; exact hle h
      · rcases Nat.le_succ_iff.1 hk with hk | rfl
        · rw [hval k hk, hne k hk, hne (k - 1) (by omega)]
        · rw [insert_of_lt _ _ (by omega), Function.update_self, if_neg (by omega),
            if_neg (by omega), Nat.succ_sub_one]
    · next hlt =>
      refine ⟨n + 1, le_rfl, by omega, fun _ => hlt, fun k hk => ?_⟩
      split_ifs with h1 h2
      · rw [Function.update_of_ne (by omega)]
      · rw [h2.1, Function.update_self]
      · omega

/-- The insertion of `lmb_add_region` into a table whose first base is its least one. -/
theorem lmbAddRegion.insert_table {rgn rgn' : LmbRegion} {p : LmbProperty}
    (hmin : ∀ k < rgn.cnt.toNat, (rgn.region 0).base ≤ (rgn.region k).base)
    (hcnt : rgn.cnt.toNat ≠ 0) (hcnt' : rgn'.cnt.toNat = rgn.cnt.toNat + 1)
    (hreg : rgn'.region =
      let region := insert rgn.region p rgn.cnt.toNat
      if p.base < (region 0).base then Function.update region 0 p else region) :
    ∃ m ≤ rgn.cnt.toNat, rgn'.table = rgn.table.take m ++ p.seg :: rgn.table.drop m ∧
      (∀ s ∈ rgn.table.drop m, p.base.toNat < s.lo) ∧
      (0 < m → (rgn.region (m - 1)).base ≤ p.base) := by
  obtain ⟨m, hm, hgt, hle, hval⟩ := insert_apply rgn.region p rgn.cnt.toNat
  have hval' : ∀ k ≤ rgn.cnt.toNat, rgn'.region k =
      if k < m then rgn.region k else if k = m then p else rgn.region (k - 1) := by
    intro k hk
    have h0 : insert rgn.region p rgn.cnt.toNat 0 = rgn.region 0 := by
      rw [hval 0 (by omega)]
      split_ifs <;> first | rfl | omega
    simp only [hreg, h0]
    rcases Nat.eq_zero_or_pos m with rfl | hpos
    · rw [if_pos (hgt 0 (by omega) (by omega))]
      rcases Nat.eq_zero_or_pos k with rfl | hk0
      · simp
      · rw [Function.update_of_ne (by omega), hval k hk]
        split_ifs <;> first | rfl | omega
    · have hp : ¬p.base < (rgn.region 0).base := by
        have h1 := hmin (m - 1) (by omega)
        have h2 := hle hpos
        rw [UInt64.lt_iff_toNat_lt] at h2 ⊢
        rw [UInt64.le_iff_toNat_le] at h1
        omega
      rw [if_neg hp, hval k hk]
      split_ifs <;> first | rfl | omega
  refine ⟨m, hm, ?_, fun s hs => ?_, fun h => ?_⟩
  · apply List.ext_getElem
    · simp [hcnt']; omega
    · intro k hk _
      simp only [LmbRegion.length_table, hcnt'] at hk
      rw [LmbRegion.getElem_table, hval' k (by omega), List.getElem_append]
      simp only [List.length_take, LmbRegion.length_table, min_eq_left hm, List.getElem_cons]
      split_ifs with h1 h2 h3
      · simp
      · rfl
      · omega
      · omega
      · rw [List.getElem_drop, LmbRegion.getElem_table]
        congr 2; omega
  · obtain ⟨j, hj, hjc, rfl⟩ := LmbRegion.mem_drop_table.1 hs
    exact UInt64.lt_iff_toNat_lt.1 (hgt j hj hjc)
  · have := hle h
    rw [UInt64.lt_iff_toNat_lt] at this
    rw [UInt64.le_iff_toNat_le]
    omega

end ShieldLoader
