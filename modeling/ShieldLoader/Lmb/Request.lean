import ShieldLoader.Lmb.Own
import ShieldLoader.Lmb.Calls
import Mathlib.Data.Nat.ModEq

/-!
# Allocation requests of any kind

What `lmb_alloc_base` does with every 64-bit size and limit. `Chosen` is the block that the search
takes, also when the limit is smaller than the rounded size and the code subtracts the size from it,
and `LmbRegion.Takes` says when `lmb_add_region` then accepts the block.
-/

namespace ShieldLoader

open Segment

/-! ### The search with any size and limit -/

/-- The block that the search takes for a size that is already rounded. A limit below the size is
passed over by every entry that is too small; an entry that is large enough makes the first block to
try wrap, and that one is taken when it overlaps nothing in the arithmetic of the code. -/
inductive Chosen (lmb : Lmb) (s align maxAddr : Nat) : Nat → Prop
  | fit {b} : maxAddr = 0 ∨ s ≤ maxAddr →
    IsGreatest {b | Reached lmb s align maxAddr lmb.memory.cnt.toNat b} b →
    Chosen lmb s align maxAddr b
  | wrap {m b} : maxAddr ≠ 0 → maxAddr < s → m ∈ lmb.memory.table → m.lo < maxAddr →
    m.lo + s ≤ m.hi → b + s = 2 ^ 64 + maxAddr / align * align →
    (∀ r ∈ lmb.reserved.table, r.hi ≤ b ∨ maxAddr / align * align ≤ r.lo) →
    Chosen lmb s align maxAddr b

section
variable {lmb : Lmb} {size align maxAddr : UInt64}

theorem PowTwo.dvd (ha : PowTwo align) : align.toNat ∣ 2 ^ 64 := by
  obtain ⟨k, hk⟩ := ha
  rw [hk]
  exact Nat.pow_dvd_pow 2 (UInt64.lt_of_toNat_eq_two_pow hk).le

/-- The first block of an entry whose limit is smaller than the size. -/
theorem lmbAllocBase.start_wrap {p : LmbProperty} (ha : PowTwo align) (hdvd : align.toNat ∣ size.toNat)
    (hp : p.seg.hi < 2 ^ 64) (h0 : maxAddr ≠ 0) (hlt : maxAddr.toNat < size.toNat)
    (hlo : p.seg.lo < maxAddr.toNat) (hfit : p.seg.lo + size.toNat ≤ p.seg.hi) :
    ∃ base, start p size align maxAddr = some base ∧
      base.toNat + size.toNat = 2 ^ 64 + maxAddr.toNat / align.toNat * align.toNat := by
  have hend := LmbProperty.toNat_end hp
  simp only [LmbProperty.seg_lo, LmbProperty.seg_hi] at hend hp hlo hfit
  have hmin : (min (p.base + p.size) maxAddr).toNat = maxAddr.toNat := by
    rw [UInt64.toNat_min]; omega
  have hsub : (min (p.base + p.size) maxAddr - size).toNat =
      2 ^ 64 - size.toNat + maxAddr.toNat := by
    have := size.toNat_lt
    rw [UInt64.toNat_sub, hmin, Nat.mod_eq_of_lt (by omega)]
  have hround : (2 ^ 64 - size.toNat + maxAddr.toNat) / align.toNat * align.toNat =
      2 ^ 64 - size.toNat + maxAddr.toNat / align.toNat * align.toNat := by
    have hd := Nat.dvd_sub ha.dvd hdvd
    rw [Nat.add_div_of_dvd_right hd, Nat.add_mul, Nat.div_mul_cancel hd]
  have hsize : ¬p.size < size := by rw [UInt64.lt_iff_toNat_lt]; omega
  refine ⟨lmbAlignDown (min (p.base + p.size) maxAddr - size) align, ?_, ?_⟩
  · rw [start, if_neg hsize, if_neg (show maxAddr ≠ lmbAllocAnywhere from h0),
      if_pos (UInt64.lt_iff_toNat_lt.2 hlo)]
  · rw [lmbAlignDown_toNat ha, hsub, hround]
    have := size.toNat_lt
    omega

/-- The block that wraps is tried once. -/
theorem lmbAllocBase.scan_wrap {reserved : LmbRegion} {lmbbase base : UInt64} {a : Nat}
    (hres : ∀ s ∈ reserved.table, s.hi < 2 ^ 64) (ha : a < size.toNat) (hb : 0 < base.toNat)
    (hle : lmbbase.toNat ≤ base.toNat) (hsum : base.toNat + size.toNat = 2 ^ 64 + a) (n : Nat) :
    scan reserved lmbbase size align (n + 1) base =
      if ∀ r ∈ reserved.table, r.hi ≤ base.toNat ∨ a ≤ r.lo then some base else none := by
  have hend : (base + size).toNat = a := by
    rw [UInt64.toNat_add]; have := size.toNat_lt; omega
  have hov : ∀ i < reserved.cnt.toNat,
      lmbAddrsOverlap base size (reserved.region i).base (reserved.region i).size = true ↔
        base.toNat < (reserved.region i).seg.hi ∧ (reserved.region i).seg.lo < a := by
    intro i hi
    rw [lmbAddrsOverlap, Bool.and_eq_true, decide_eq_true_iff, decide_eq_true_iff,
      UInt64.lt_iff_toNat_lt, UInt64.lt_iff_toNat_lt,
      LmbProperty.toNat_end (hres _ (LmbRegion.seg_mem_table hi)), hend]
    rfl
  have hne : base ≠ 0 := fun h => by rw [h] at hb; exact absurd hb (by decide)
  rw [scan, if_pos ⟨hne, UInt64.le_iff_toNat_le.2 hle⟩]
  rcases h : lmbOverlapsRegion reserved base size with _ | j
  · refine (if_pos fun r hr => ?_).symm
    obtain ⟨i, hi, rfl⟩ := LmbRegion.mem_table.1 hr
    have := List.find?_eq_none.1 h i (List.mem_range.2 hi)
    rw [hov i hi] at this
    omega
  · obtain ⟨hj, as, bs, hab, -⟩ := List.find?_eq_some_iff_append.1 h
    have hjc : j < reserved.cnt.toNat := List.mem_range.1 (hab ▸ by simp)
    obtain ⟨h1, h2⟩ := (hov j hjc).1 hj
    have hlow : (reserved.region j).base < size := by
      rw [UInt64.lt_iff_toNat_lt]
      exact h2.trans ha
    simp only [if_pos hlow]
    refine (if_neg fun hall => ?_).symm
    rcases hall _ (LmbRegion.seg_mem_table hjc) with h | h <;> omega

/-- A limit below the size: at most one entry makes the search try a block. -/
theorem lmbAllocBase.search_wrap (hmem : lmb.memory.Ok) (hres : lmb.reserved.Ok) (ha : PowTwo align)
    (hdvd : align.toNat ∣ size.toNat) (h0 : maxAddr ≠ 0) (hlt : maxAddr.toNat < size.toNat)
    (n : Nat) (hn : n ≤ lmb.memory.cnt.toNat) {b : UInt64} :
    search lmb size align maxAddr n = some b ↔
      b.toNat + size.toNat = 2 ^ 64 + maxAddr.toNat / align.toNat * align.toNat ∧
      (∀ r ∈ lmb.reserved.table,
        r.hi ≤ b.toNat ∨ maxAddr.toNat / align.toNat * align.toNat ≤ r.lo) ∧
      ∃ i < n, (lmb.memory.region i).seg.lo < maxAddr.toNat ∧
        (lmb.memory.region i).seg.lo + size.toNat ≤ (lmb.memory.region i).seg.hi := by
  induction n generalizing b with
  | zero => simp [search]
  | succ n ih =>
    have hfit := hmem.fits _ (LmbRegion.seg_mem_table (show n < lmb.memory.cnt.toNat by omega))
    by_cases hin : (lmb.memory.region n).seg.lo < maxAddr.toNat ∧
        (lmb.memory.region n).seg.lo + size.toNat ≤ (lmb.memory.region n).seg.hi
    · obtain ⟨base, hst, hsum⟩ :=
        lmbAllocBase.start_wrap ha hdvd hfit h0 hlt hin.1 hin.2
      have ha' : maxAddr.toNat / align.toNat * align.toNat < size.toNat :=
        (Nat.div_mul_le_self ..).trans_lt hlt
      have hs := size.toNat_lt
      have hsc := @lmbAllocBase.scan_wrap size align lmb.reserved (lmb.memory.region n).base base _
        hres.fits ha' (by omega) (by simp only [LmbProperty.seg_lo] at hin; omega) hsum base.toNat
      have hsame : b.toNat + size.toNat = 2 ^ 64 + maxAddr.toNat / align.toNat * align.toNat ↔
          base = b := by
        rw [← UInt64.toNat_inj]; omega
      -- the entries below end before this one starts, and are too small
      have hbelow : ∀ c, search lmb size align maxAddr n ≠ some c := by
        intro c hc
        obtain ⟨-, -, i, hi, hlo, hfit⟩ := (ih (by omega)).1 hc
        have := hmem.hi_le_lo hi (show n < lmb.memory.cnt.toNat by omega)
        omega
      simp only [search, hst, hsc]
      split_ifs with hall
      · simp only [Option.some.injEq, hsame]
        exact ⟨fun h => ⟨h, h ▸ hall, n, by omega, hin⟩, fun h => h.1⟩
      · refine ⟨fun h => absurd h (hbelow b), ?_⟩
        rintro ⟨h1, h2, -⟩
        rw [hsame.1 h1] at hall
        exact absurd h2 hall
    · have hst : start (lmb.memory.region n) size align maxAddr = none := by
        simp only [LmbProperty.seg_lo, LmbProperty.seg_hi] at hin
        rw [start]
        split_ifs with h1 h2 h3
        · rfl
        · exact absurd h2 h0
        · rw [UInt64.lt_iff_toNat_lt] at h1 h3
          omega
        · rfl
      simp only [search, hst, ih (show n ≤ lmb.memory.cnt.toNat by omega)]
      refine and_congr_right fun _ => and_congr_right fun _ => ?_
      constructor
      · rintro ⟨i, hi, h⟩
        exact ⟨i, by omega, h⟩
      · rintro ⟨i, hi, h⟩
        rcases Nat.lt_succ_iff_lt_or_eq.1 hi with hi | rfl
        · exact ⟨i, hi, h⟩
        · exact absurd h hin

/-- **The search of `__lmb_alloc_base` for every size and limit.** -/
theorem lmbAllocBase.search_eq_some_iff (hmem : lmb.memory.Ok) (hres : lmb.reserved.Ok)
    (ha : PowTwo align) (hdvd : align.toNat ∣ size.toNat) {b : UInt64} :
    search lmb size align maxAddr lmb.memory.cnt.toNat = some b ↔
      Chosen lmb size.toNat align.toNat maxAddr.toNat b.toNat := by
  by_cases hwide : maxAddr = 0 ∨ size.toNat ≤ maxAddr.toNat
  · obtain ⟨h1, h2⟩ := search_spec_below hmem hres ha hwide _ le_rfl
    have hwide' : maxAddr.toNat = 0 ∨ size.toNat ≤ maxAddr.toNat :=
      hwide.imp_left fun h => by rw [h]; rfl
    constructor
    · exact fun h => .fit hwide' (h1 b h)
    · rintro (⟨-, hb⟩ | ⟨h0, hlt, -⟩)
      · rcases hs : search lmb size align maxAddr lmb.memory.cnt.toNat with _ | b'
        · exact absurd hb.1 (h2 hs _)
        · rw [UInt64.toNat_inj.1 ((h1 b' hs).unique hb)]
      · omega
  · rw [not_or, not_le] at hwide
    have h0 : maxAddr.toNat ≠ 0 := fun h => hwide.1 (UInt64.toNat_inj.1 h)
    rw [search_wrap hmem hres ha hdvd hwide.1 hwide.2 _ le_rfl]
    constructor
    · rintro ⟨h1, h2, i, hi, h3, h4⟩
      exact .wrap h0 hwide.2 (LmbRegion.seg_mem_table hi) h3 h4 h1 h2
    · rintro (⟨h, -⟩ | ⟨-, -, hm, h3, h4, h1, h2⟩)
      · omega
      · obtain ⟨i, hi, rfl⟩ := LmbRegion.mem_table.1 hm
        exact ⟨h1, h2, i, hi, h3, h4⟩

end

/-! ### Whether `lmb_add_region` accepts -/

/-- `lmb_add_region` does not refuse the range `p`, which overlaps nothing: the table has room, or
the first entry near `p` takes it or is merged with its successor. A table that was emptied takes
every range, unless its stale entries look mergeable. -/
def LmbRegion.Takes (rgn : LmbRegion) (p : LmbProperty) : Prop :=
  if rgn.cnt = 0 then ¬rgn.StalePair
  else rgn.cnt.toNat < maxLmbRegions ∨ ∃ i < rgn.cnt.toNat,
    (∀ j < i, lmbAddrsAdjacent p.base p.size (rgn.region j).base (rgn.region j).size = 0) ∧
      lmbAddrsAdjacent p.base p.size (rgn.region i).base (rgn.region i).size ≠ 0 ∧
      (p.seg.label = (rgn.region i).seg.label ∨ i + 1 < rgn.cnt.toNat ∧
        lmbRegionsAdjacent rgn i (i + 1) ≠ 0 ∧
        (rgn.region i).seg.label = (rgn.region (i + 1)).seg.label)

section
variable {rgn : LmbRegion} {p : LmbProperty}

theorem LmbProperty.label_eq_iff {p q : LmbProperty} :
    p.seg.label = q.seg.label ↔ p.tag = q.tag ∧ p.type = q.type := by
  simp [Prod.ext_iff, and_comm]

/-- The search loop of `lmb_add_region` for a range that overlaps nothing. -/
theorem lmbAddRegion.scan_first
    (hov : ∀ i < rgn.cnt.toNat,
      ¬lmbAddrsOverlap p.base p.size (rgn.region i).base (rgn.region i).size = true) (n i : Nat)
    (hn : i + n = rgn.cnt.toNat)
    (hclear : ∀ j < i, lmbAddrsAdjacent p.base p.size (rgn.region j).base (rgn.region j).size = 0) :
    (∃ k < rgn.cnt.toNat, scan rgn p.base p.size i n =
        some (k, lmbAddrsAdjacent p.base p.size (rgn.region k).base (rgn.region k).size) ∧
      lmbAddrsAdjacent p.base p.size (rgn.region k).base (rgn.region k).size ≠ 0 ∧
      ∀ j < k, lmbAddrsAdjacent p.base p.size (rgn.region j).base (rgn.region j).size = 0) ∨
    (scan rgn p.base p.size i n = some (rgn.cnt.toNat, 0) ∧ ∀ j < rgn.cnt.toNat,
      lmbAddrsAdjacent p.base p.size (rgn.region j).base (rgn.region j).size = 0) := by
  induction n generalizing i with
  | zero =>
    obtain rfl : i = rgn.cnt.toNat := by omega
    exact .inr ⟨rfl, hclear⟩
  | succ n ih =>
    have hi : i < rgn.cnt.toNat := by omega
    rw [scan, if_neg (hov i hi)]
    by_cases hadj : lmbAddrsAdjacent p.base p.size (rgn.region i).base (rgn.region i).size = 0
    · simp only [hadj, ne_eq, not_true_eq_false, if_false]
      refine ih (i + 1) (by omega) fun j hj => ?_
      rcases Nat.lt_succ_iff_lt_or_eq.1 hj with hj | rfl
      · exact hclear j hj
      · exact hadj
    · exact .inl ⟨i, hi, by simp only [ne_eq, hadj, not_false_eq_true, if_true], hadj, hclear⟩

/-- The entry with the label of the range counts as merged, any other is left alone. -/
theorem lmbAddRegion.grow_count {q : LmbProperty} {adjacent : Int} (h : adjacent ≠ 0) :
    (p.seg.label = q.seg.label → (grow q p.size p.type p.tag adjacent).2 = 1) ∧
    (p.seg.label ≠ q.seg.label → grow q p.size p.type p.tag adjacent = (q, 0)) := by
  rw [Ne, LmbProperty.label_eq_iff, grow]
  refine ⟨fun hl => ?_, fun hl => if_neg hl⟩
  rw [if_pos hl]
  split_ifs
  · rfl
  · rfl
  · omega

/-- The merge after the search loop, counted. -/
theorem lmbAddRegion.merge_count {i c : Nat} (h0 : 0 < rgn.cnt.toNat)
    (hcnt : rgn.cnt.toNat ≤ maxLmbRegions) :
    ∃ rgn' c', merge rgn i c = some (rgn', c') ∧ c ≤ c' ∧
      (c' = c ↔ ¬(i + 1 < rgn.cnt.toNat ∧ lmbRegionsAdjacent rgn i (i + 1) ≠ 0 ∧
        (rgn.region i).seg.label = (rgn.region (i + 1)).seg.label)) ∧ (c' = c → rgn' = rgn) ∧
      0 < rgn'.cnt.toNat ∧ rgn'.cnt.toNat ≤ rgn.cnt.toNat := by
  have hpred : (rgn.cnt - 1).toNat = rgn.cnt.toNat - 1 := by
    rw [UInt64.toNat_sub_of_le _ _ (by rw [UInt64.le_iff_toNat_le, UInt64.toNat_one]; omega),
      UInt64.toNat_one]
  have htest : (i < (rgn.cnt - 1).toNat ∧ lmbRegionsAdjacent rgn i (i + 1) ≠ 0 ∧
      (rgn.region i).tag = (rgn.region (i + 1)).tag ∧
      (rgn.region i).type = (rgn.region (i + 1)).type) ↔
        (i + 1 < rgn.cnt.toNat ∧ lmbRegionsAdjacent rgn i (i + 1) ≠ 0 ∧
          (rgn.region i).seg.label = (rgn.region (i + 1)).seg.label) := by
    rw [LmbProperty.label_eq_iff, hpred, Nat.lt_sub_iff_add_lt]
  rw [merge, if_congr htest rfl rfl]
  split
  · next h =>
    have hroom : ¬maxLmbRegions < (rgn.cnt - 1).toNat := by omega
    simp only [lmbCoalesceRegions, lmbRemoveRegion, if_neg hroom]
    refine ⟨_, c + 1, rfl, by omega, iff_of_false (by omega) (not_not.2 h), fun h => by omega, ?_⟩
    dsimp only
    omega
  · next h => exact ⟨rgn, c, rfl, le_rfl, iff_of_true rfl h, fun _ => rfl, h0, le_rfl⟩

/-- A call never leaves the array when the table has an entry and is within its bound, and the
table stays so. -/
theorem lmbAddRegion_cnt (h0 : 0 < rgn.cnt.toNat) (hcnt : rgn.cnt.toNat ≤ maxLmbRegions) :
    ∃ r rgn', lmbAddRegion rgn p.base p.size p.type p.tag = some (r, rgn') ∧
      0 < rgn'.cnt.toNat ∧ rgn'.cnt.toNat ≤ maxLmbRegions := by
  by_cases hd : rgn.cnt = 1 ∧ (rgn.region 0).size = 0
  · refine ⟨0, { rgn with region := Function.update rgn.region 0 p }, ?_, h0, hcnt⟩
    rw [lmbAddRegion, if_pos hd]
  rw [lmbAddRegion, if_neg hd]
  cases lmbAddRegion.scan rgn p.base p.size 0 rgn.cnt.toNat with
  | none => exact ⟨-1, rgn, rfl, h0, hcnt⟩
  | some found =>
    obtain ⟨i, adjacent⟩ := found
    dsimp only
    set q := lmbAddRegion.grow (rgn.region i) p.size p.type p.tag adjacent
    obtain ⟨rgn', c', hmerge, -, -, -, hpos, hle⟩ := @lmbAddRegion.merge_count
      { rgn with region := Function.update rgn.region i q.1 } i q.2 h0 hcnt
    rw [hmerge]
    by_cases hc : c' = 0
    · refine ⟨(lmbAddRegion.place rgn' p).1, (lmbAddRegion.place rgn' p).2,
        congrArg some (if_neg (not_not.2 hc)), ?_⟩
      rw [lmbAddRegion.place]
      split
      · exact ⟨hpos, hle.trans hcnt⟩
      · next hroom =>
        have hsucc : (rgn'.cnt + 1).toNat = rgn'.cnt.toNat + 1 := by
          rw [UInt64.toNat_add, UInt64.toNat_one]
          simp only [maxLmbRegions] at hroom
          omega
        dsimp only
        omega
    · exact ⟨_, _, congrArg some (if_pos hc), hpos, hle.trans hcnt⟩

theorem lmbAddRegion.place_nonneg_iff (rgn : LmbRegion) (p : LmbProperty) :
    0 ≤ (place rgn p).1 ↔ rgn.cnt.toNat < maxLmbRegions := by
  rw [place]
  split
  · next h => exact iff_of_false (by simp) (by omega)
  · next h => exact iff_of_true le_rfl (by omega)

/-- What the first index with a property says. -/
theorem exists_first_iff {f : Nat → Int} {P : Nat → Prop} {n k : Nat} (hk : k < n) (hf : f k ≠ 0)
    (hfirst : ∀ j < k, f j = 0) : (∃ i < n, (∀ j < i, f j = 0) ∧ f i ≠ 0 ∧ P i) ↔ P k := by
  constructor
  · rintro ⟨i, -, h1, h2, h3⟩
    rcases Nat.lt_trichotomy i k with h | rfl | h
    · exact absurd (hfirst i h) h2
    · exact h3
    · exact absurd (h1 k h) hf
  · exact fun h => ⟨k, hk, hfirst, hf, h⟩

/-- `lmb_add_region` succeeds with a range that overlaps nothing, whether or not the range wraps,
exactly when the table takes it. -/
theorem lmbAddRegion_takes_iff (hcnt : rgn.cnt.toNat ≤ maxLmbRegions)
    (hov : ∀ i < rgn.cnt.toNat,
      ¬lmbAddrsOverlap p.base p.size (rgn.region i).base (rgn.region i).size = true) :
    (∃ r rgn', lmbAddRegion rgn p.base p.size p.type p.tag = some (r, rgn') ∧ 0 ≤ r) ↔
      rgn.Takes p := by
  rw [LmbRegion.Takes]
  split
  · next h0 =>
    rcases lmbAddRegion_empty (p := p) h0 with ⟨hpair, hnone⟩ | ⟨hno, rgn', hr, -⟩
    · refine iff_of_false ?_ (not_not.2 hpair)
      rw [hnone]
      simp
    · exact iff_of_true ⟨0, rgn', hr, le_rfl⟩ hno
  · next h0 =>
    have hpos := LmbRegion.toNat_cnt_pos.2 h0
    by_cases hd : rgn.cnt = 1 ∧ (rgn.region 0).size = 0
    · refine iff_of_true ⟨0, _, by rw [lmbAddRegion, if_pos hd], le_rfl⟩ (.inl ?_)
      rw [hd.1]
      decide
    rw [lmbAddRegion, if_neg hd]
    rcases lmbAddRegion.scan_first hov _ 0 (Nat.zero_add _) (by omega) with
      ⟨k, hk, hscan, hadj, hfirst⟩ | ⟨hscan, hfirst⟩
    · simp only [hscan]
      rw [exists_first_iff hk hadj hfirst]
      obtain ⟨hgrow, hkeep⟩ := @lmbAddRegion.grow_count p (rgn.region k) _ hadj
      by_cases hl : p.seg.label = (rgn.region k).seg.label
      · refine iff_of_true ?_ (.inr (.inl hl))
        obtain ⟨rgn', c', hm, hc, -⟩ := @lmbAddRegion.merge_count
          { rgn with region := Function.update rgn.region k (lmbAddRegion.grow (rgn.region k) p.size
            p.type p.tag (lmbAddrsAdjacent p.base p.size (rgn.region k).base
              (rgn.region k).size)).1 } k 1 hpos hcnt
        refine ⟨c', rgn', ?_, by omega⟩
        simp only [hgrow hl, hm, Option.bind_eq_bind, Option.bind_some, Option.pure_def,
          if_pos (show c' ≠ 0 by omega)]
      · simp only [hkeep hl, Function.update_eq_self]
        obtain ⟨rgn', c', hm, -, hc, hsame, -⟩ := @lmbAddRegion.merge_count rgn k 0 hpos hcnt
        simp only [hm, Option.bind_eq_bind, Option.bind_some, Option.pure_def, hl, false_or]
        by_cases hc0 : c' = 0
        · have hno := hc.1 hc0
          obtain rfl := hsame hc0
          simp only [hc0, ne_eq, not_true_eq_false, if_false, hno, or_false,
            ← lmbAddRegion.place_nonneg_iff rgn' p]
          refine ⟨?_, fun h => ⟨_, _, rfl, h⟩⟩
          rintro ⟨r, rgn'', h, hr⟩
          obtain ⟨rfl, -⟩ := Prod.mk.inj (Option.some.inj h)
          exact hr
        · have hyes := not_not.1 (mt hc.2 hc0)
          refine iff_of_true ⟨c', rgn', by rw [if_pos hc0], by omega⟩ (.inr hyes)
    · simp only [hscan, lmbAddRegion.grow_zero, Function.update_eq_self]
      obtain ⟨rgn', c', hm, -, hc, hsame, -⟩ := @lmbAddRegion.merge_count rgn rgn.cnt.toNat 0 hpos hcnt
      obtain rfl : c' = 0 := hc.2 (by omega)
      obtain rfl := hsame rfl
      have hplace := lmbAddRegion.place_nonneg_iff rgn' p
      simp only [hm, Option.bind_eq_bind, Option.bind_some, Option.pure_def, ne_eq,
        not_true_eq_false, if_false]
      constructor
      · rintro ⟨r, rgn'', h, hr⟩
        obtain ⟨rfl, -⟩ := Prod.mk.inj (Option.some.inj h)
        exact .inl (hplace.1 hr)
      · rintro (h | ⟨i, hi, -, hadj, -⟩)
        · exact ⟨_, _, rfl, hplace.2 h⟩
        · exact absurd (hfirst i hi) hadj

end

/-! ### `lmb_alloc_base` -/

/-- One gigabyte of memory, of which nothing is reserved. -/
def lmbRam : Lmb where
  memory := ⟨1, fun _ => ⟨0x80000000, 0x40000000, lmbTag 'R' 'A' 'M' 'R', .free⟩⟩
  reserved := ⟨1, fun _ => lmbDummy⟩

theorem lmbRam_sound : lmbRam.Sound where
  memory := LmbRegion.sound_of_single rfl rfl (by decide) (by decide)
  memory_ne := by decide
  reserved := LmbRegion.Initial.sound ⟨rfl, rfl⟩

/-- Reserved ranges, two of them below `0x90000000` and one at the end of the memory. -/
def lmbRamReserved : LmbRegion where
  cnt := 3
  region := fun i => [⟨0x8fffc800, 0x1000, lmbTagNone, .boot⟩,
    ⟨0x8ffff000, 0x2000, lmbTagNone, .runtime⟩,
    ⟨0xbfff0000, 0x10000, lmbTagNone, .runtime⟩].getD i lmbDummy

theorem lmbRamReserved_ok : lmbRamReserved.Ok :=
  .inl ⟨by decide, ⟨by decide, by decide⟩, by decide⟩

section
variable {lmb : Lmb} {size align maxAddr : UInt64} {type : LmbType} {tag : UInt32}

/-- **`lmb_alloc_base` is complete and takes the highest block**, as long as the reserved table has
room. -/
theorem lmbAllocBase_greatest (hmem : lmb.memory.Ok) (hres : lmb.reserved.Ok)
    (hcnt : 1 ≤ lmb.reserved.cnt.toNat) (hroom : lmb.reserved.cnt.toNat < maxLmbRegions)
    (ha : PowTwo align) (hs : 1 ≤ size.toNat) (hround : size.toNat + align.toNat - 1 < 2 ^ 64)
    (htype : type = .boot ∨ type = .runtime)
    (hmax : maxAddr = 0 ∨ (lmbAlignUp size align).toNat ≤ maxAddr.toNat) :
    ∃ b lmb', lmbAllocBase lmb size align maxAddr type tag = some (b, lmb') ∧
      (b ≠ 0 → IsGreatest
        {c | BlockFit lmb (lmbAlignUp size align).toNat align.toNat maxAddr.toNat c} b.toNat) ∧
      (b = 0 ↔ ¬∃ c, BlockFit lmb (lmbAlignUp size align).toNat align.toNat maxAddr.toNat c) := by
  have hreq : Request lmb size align maxAddr :=
    ⟨hs, ha, hround, hmax.elim (fun h => .inl (by rw [h]; rfl)) fun h => .inr (.inl h)⟩
  have hmmio : type ≠ .mmio := by rcases htype with rfl | rfl <;> decide
  rcases lmbAllocBase_cases tag hmem hres hreq hmmio with
    ⟨hno, heq⟩ | ⟨p, hps, -, -, hb, hfit, hdis, heq⟩
  · exact ⟨0, lmb, heq, fun h => absurd rfl h, iff_of_true rfl fun ⟨c, hc⟩ => hno c hc⟩
  · have hpos : p.seg.lo < p.seg.hi := by
      have := hreq.rounded_pos
      simp only [LmbProperty.seg_lo, LmbProperty.seg_hi, hps]
      omega
    obtain ⟨r, rgn', hr, hcase⟩ :=
      lmbAddRegion_ok hres hcnt hpos hfit (not_hidden_of_disjoint hdis)
    have hne : p.base ≠ 0 := fun h => hb.1.ne_zero (by rw [h]; rfl)
    rcases hcase with ⟨-, -, ⟨f, hf, hov⟩ | hfull⟩ | ⟨-, hr0, -⟩
    · exact absurd hov (hdis f hf)
    · omega
    · refine ⟨p.base, { lmb with reserved := rgn' }, ?_, fun _ => hb,
        iff_of_false hne (not_not.2 ⟨_, hb.1⟩)⟩
      rw [heq, hr, Option.map_some, if_neg (by omega)]

/-- The highest block below the limit is below two reserved ranges. -/
theorem lmbAllocBase_greatest_ram :
    let lmb : Lmb := { lmbRam with reserved := lmbRamReserved }
    ∃ lmb', lmbAllocBase lmb 0x1800 0x1000 0x90000000 .boot lmbTagNone = some (0x8fffa000, lmb') ∧
      IsGreatest {c | BlockFit lmb 0x2000 0x1000 0x90000000 c} 0x8fffa000 := by
  intro lmb
  have hr : ∃ r ∈ lmbAllocBase lmb 0x1800 0x1000 0x90000000 .boot lmbTagNone, r.1 = 0x8fffa000 := by
    decide
  obtain ⟨⟨_, lmb'⟩, hr, rfl⟩ := hr
  obtain ⟨b, lmb'', hr', hb, -⟩ := @lmbAllocBase_greatest lmb 0x1800 0x1000 0x90000000 .boot lmbTagNone
    lmbRam_sound.memory.ok lmbRamReserved_ok (by decide) (by decide) ⟨12, by decide⟩ (by decide)
    (by decide) (.inl rfl) (.inr (by decide))
  obtain ⟨rfl, rfl⟩ := Prod.mk.inj (Option.some.inj (hr'.symm.trans hr))
  exact ⟨_, hr, hb (by decide)⟩

theorem dvd_lmbAlignUp (ha : PowTwo align) : align.toNat ∣ (lmbAlignUp size align).toNat := by
  obtain ⟨k, hk⟩ := ha
  rw [lmbAlignUp, UInt64.toNat_and_not_sub_one hk]
  exact Nat.dvd_mul_left ..

/-- A size is rounded up by less than the alignment. -/
theorem lmbAlignUp_lt (ha : PowTwo align) (hround : size.toNat + align.toNat - 1 < 2 ^ 64) :
    (lmbAlignUp size align).toNat < size.toNat + align.toNat := by
  rw [lmbAlignUp_toNat ha hround]
  have := ha.pos
  have := Nat.div_mul_le_self (size.toNat + align.toNat - 1) align.toNat
  omega

/-- The request wraps: its size when it is rounded up, or its limit when the size is subtracted. -/
def Wraps (size align maxAddr : UInt64) : Prop :=
  2 ^ 64 ≤ size.toNat + align.toNat - 1 ∨
    maxAddr ≠ 0 ∧ maxAddr.toNat < (lmbAlignUp size align).toNat

/-- A block that a request that wraps is given does not fit. -/
theorem Chosen.not_blockFit {b : Nat} (hmem : lmb.memory.Ok) (ha : PowTwo align)
    (h : Chosen lmb (lmbAlignUp size align).toNat align.toNat maxAddr.toNat b)
    (hw : Wraps size align maxAddr) :
    ¬BlockFit lmb size.toNat align.toNat maxAddr.toNat b := by
  intro hb
  obtain ⟨m, hm, hlo, hhi⟩ := hb.known
  have hfit := hmem.fits m hm
  by_cases hround : 2 ^ 64 ≤ size.toNat + align.toNat - 1
  · -- the block is not at `0`, so its end cannot lie below `2 ^ 64`
    have := Nat.le_of_dvd (Nat.pos_of_ne_zero hb.ne_zero) hb.aligned
    omega
  · obtain ⟨h0, hlt⟩ := hw.resolve_left hround
    have h0' : maxAddr.toNat ≠ 0 := fun h => h0 (UInt64.toNat_inj.1 h)
    have hbelow := hb.below h0'
    have hup := lmbAlignUp_lt ha (not_le.1 hround)
    have hdown := Nat.div_add_mod maxAddr.toNat align.toNat
    have hmod := Nat.mod_lt maxAddr.toNat ha.pos
    rw [Nat.mul_comm] at hdown
    obtain ⟨k, hk⟩ := ha
    have halign : 2 * align.toNat ≤ 2 ^ 64 := by
      have hk' := UInt64.lt_of_toNat_eq_two_pow hk
      rw [hk, ← Nat.pow_succ']
      exact Nat.pow_le_pow_right (by decide) hk'
    rcases h with ⟨hwide, -⟩ | ⟨-, -, -, -, -, hsum, -⟩ <;> omega

/-- A block that a request that does not wrap is given fits. -/
theorem Chosen.blockFit {b : Nat} (ha : PowTwo align) (hs : 1 ≤ size.toNat)
    (h : Chosen lmb (lmbAlignUp size align).toNat align.toNat maxAddr.toNat b)
    (hw : ¬Wraps size align maxAddr) :
    BlockFit lmb size.toNat align.toNat maxAddr.toNat b := by
  rw [Wraps, not_or, not_le] at hw
  have hle := le_lmbAlignUp ha hw.1
  rcases h with ⟨-, hb⟩ | ⟨h0, hlt, -⟩
  · have hfit := blockFit_iff.2 ((reached_iff (hs.trans hle)).1 hb.1)
    obtain ⟨m, hm, h1, h2⟩ := hfit.known
    exact ⟨hfit.ne_zero, hfit.aligned, ⟨m, hm, h1, by omega⟩,
      fun h => by have := hfit.below h; omega, fun r hr => by have := hfit.free r hr; omega⟩
  · exact absurd ⟨fun h => h0 (by rw [h]; rfl), hlt⟩ hw.2

/-- When `lmb_alloc_base` returns the block `b`. -/
theorem lmbAllocBase.found_iff (hcnt : lmb.reserved.cnt.toNat ≤ maxLmbRegions) (htype : type ≠ .mmio)
    {b : UInt64} (hb : b ≠ 0) : (∃ lmb', lmbAllocBase lmb size align maxAddr type tag = some (b, lmb')) ↔
      search lmb (lmbAlignUp size align) align maxAddr lmb.memory.cnt.toNat = some b ∧
        lmb.reserved.Takes ⟨b, lmbAlignUp size align, tag, type⟩ := by
  have htakes : ∀ {base : UInt64},
      search lmb (lmbAlignUp size align) align maxAddr lmb.memory.cnt.toNat = some base → _ :=
    fun {base} hs => @lmbAddRegion_takes_iff lmb.reserved ⟨base, lmbAlignUp size align, tag, type⟩
      hcnt fun i hi => Bool.eq_false_iff.1 <|
        lmbOverlapsRegion_eq_none.1 (lmbAllocBase.search_overlaps _ hs).2 i hi
  constructor
  · rintro ⟨lmb', h⟩
    rcases lmbAllocBase_inv h with ⟨rfl, -⟩ | ⟨-, base, r, reserved, hs, hadd, hbase, -⟩
    · exact absurd rfl hb
    have hr : ¬r < 0 := fun hr => hb (by rw [hbase, if_pos hr])
    rw [if_neg hr] at hbase
    subst hbase
    exact ⟨hs, (htakes hs).1 ⟨r, reserved, hadd, not_lt.1 hr⟩⟩
  · rintro ⟨hs, htake⟩
    obtain ⟨r, reserved, hadd, hr⟩ := (htakes hs).2 htake
    dsimp only at hadd
    refine ⟨{ lmb with reserved }, ?_⟩
    rw [lmbAllocBase_found htype hs, hadd]
    exact congrArg some (Prod.ext (if_neg (not_lt.2 hr)) rfl)

/-- **Soundness of `lmb_alloc_base` for all arguments**: the block that it returns is aligned, lies
in one memory entry and below the limit and meets nothing that was reserved, unless the request wraps
and there is a block that the reserved table takes. -/
theorem lmbAllocBase_sound_iff (hmem : lmb.memory.Ok) (hres : lmb.reserved.Ok)
    (hs : 1 ≤ size.toNat) (ha : PowTwo align) (htype : type = .boot ∨ type = .runtime) :
    (∀ b lmb', lmbAllocBase lmb size align maxAddr type tag = some (b, lmb') → b ≠ 0 →
      BlockFit lmb size.toNat align.toNat maxAddr.toNat b.toNat) ↔
    (Wraps size align maxAddr → ∀ b : UInt64,
      Chosen lmb (lmbAlignUp size align).toNat align.toNat maxAddr.toNat b.toNat →
        ¬lmb.reserved.Takes ⟨b, lmbAlignUp size align, tag, type⟩) := by
  have hmmio : type ≠ .mmio := by rcases htype with rfl | rfl <;> decide
  have hchosen := @lmbAllocBase.search_eq_some_iff lmb (lmbAlignUp size align) align maxAddr hmem hres
    ha (dvd_lmbAlignUp ha)
  constructor
  · intro h hw b hb htakes
    have hs := hchosen.2 hb
    have hne := (lmbAllocBase.search_overlaps _ hs).1
    obtain ⟨lmb', hr⟩ := (lmbAllocBase.found_iff hres.cnt_le hmmio hne).2 ⟨hs, htakes⟩
    exact hb.not_blockFit hmem ha hw (h b lmb' hr hne)
  · intro h b lmb' hr hne
    obtain ⟨hsearch, htakes⟩ := (lmbAllocBase.found_iff hres.cnt_le hmmio hne).1 ⟨lmb', hr⟩
    have hb := hchosen.1 hsearch
    by_cases hw : Wraps size align maxAddr
    · exact absurd htakes (h hw b hb)
    · exact hb.blockFit ha hs hw

/-- The block that is returned is below the reserved range at the end of the memory. -/
theorem lmbAllocBase_sound_iff_ram :
    let lmb : Lmb := { lmbRam with reserved := lmbRamReserved }
    ¬Wraps 0x1800 0x1000 lmbAllocAnywhere ∧
      (∀ b lmb', lmbAllocBase lmb 0x1800 0x1000 lmbAllocAnywhere .boot lmbTagNone = some (b, lmb') →
        b ≠ 0 → BlockFit lmb 0x1800 0x1000 0 b.toNat) ∧
      ∃ r ∈ lmbAllocBase lmb 0x1800 0x1000 lmbAllocAnywhere .boot lmbTagNone, r.1 = 0xbffee000 := by
  intro lmb
  have hw : ¬Wraps 0x1800 0x1000 lmbAllocAnywhere := by
    unfold Wraps
    decide
  have hiff := @lmbAllocBase_sound_iff lmb 0x1800 0x1000 lmbAllocAnywhere .boot lmbTagNone
    lmbRam_sound.memory.ok lmbRamReserved_ok (by decide) ⟨12, by decide⟩ (.inl rfl)
  exact ⟨hw, hiff.2 fun h => absurd h hw, by decide⟩

/-- A request for all but one byte of the address space is rounded to nothing and gets the end of the
memory. -/
theorem lmbAllocBase_wrapped :
    lmbRam.memory.Ok ∧ lmbRam.reserved.Ok ∧ PowTwo 0x100000 ∧
      ∃ b lmb', lmbAllocBase lmbRam 0xffffffffffffffff 0x100000 lmbAllocAnywhere .boot lmbTagNone =
          some (b, lmb') ∧ b ≠ 0 ∧
        ¬BlockFit lmbRam (0xffffffffffffffff : UInt64).toNat 0x100000 0 b.toNat := by
  have h : ∃ r ∈ lmbAllocBase lmbRam 0xffffffffffffffff 0x100000 lmbAllocAnywhere .boot lmbTagNone,
      r.1 = 0xc0000000 := by decide
  obtain ⟨⟨_, lmb'⟩, hr, rfl⟩ := h
  refine ⟨lmbRam_sound.memory.ok, lmbRam_sound.reserved.ok, ⟨20, by decide⟩, _, lmb', hr, by decide,
    fun hb => ?_⟩
  obtain ⟨m, hm, -, hhi⟩ := hb.known
  have := lmbRam_sound.memory.ok.fits m hm
  simp only [UInt64.toNat_ofNat] at hhi
  omega

end

end ShieldLoader
