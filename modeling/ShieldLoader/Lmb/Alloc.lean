import ShieldLoader.Data.Word
import ShieldLoader.Lmb.WellFormed
import Mathlib.Order.Bounds.Basic
import Mathlib.Data.Nat.Factorization.Basic

/-!
# The search of `__lmb_alloc_base`

`BlockFit` says, in natural numbers, which blocks a request may be given. On well-formed tables the
search of `__lmb_alloc_base` returns the highest of them, and none when there is none: each jump of
the inner loop passes only over blocks that the entry it jumped below overlaps.
-/

namespace ShieldLoader

open Segment

/-- `align` is a power of two. -/
def PowTwo (align : UInt64) : Prop := ∃ k, align.toNat = 2 ^ k

/-- No entry of the table meets `[b, b + s)`. -/
def FreeAt (rgn : LmbRegion) (s b : Nat) : Prop := ∀ r ∈ rgn.table, r.hi ≤ b ∨ b + s ≤ r.lo

/-- The block `[b, b + s)` is aligned, lies in one entry of the memory table and below the limit,
and meets no reserved entry. -/
structure BlockFit (lmb : Lmb) (s align maxAddr b : Nat) : Prop where
  ne_zero : b ≠ 0
  aligned : align ∣ b
  known : ∃ m ∈ lmb.memory.table, m.lo ≤ b ∧ b + s ≤ m.hi
  below : maxAddr ≠ 0 → b + s ≤ maxAddr
  free : FreeAt lmb.reserved s b

section
variable {align : UInt64} (ha : PowTwo align)
include ha

theorem PowTwo.pos : 0 < align.toNat := by
  obtain ⟨k, hk⟩ := ha
  rw [hk]; exact Nat.two_pow_pos k

theorem lmbAlignDown_toNat (x : UInt64) :
    (lmbAlignDown x align).toNat = x.toNat / align.toNat * align.toNat := by
  obtain ⟨k, hk⟩ := ha
  exact UInt64.toNat_and_not_sub_one hk

theorem lmbAlignDown_le (x : UInt64) : (lmbAlignDown x align).toNat ≤ x.toNat := by
  rw [lmbAlignDown_toNat ha]; exact Nat.div_mul_le_self ..

theorem dvd_lmbAlignDown (x : UInt64) : align.toNat ∣ (lmbAlignDown x align).toNat := by
  rw [lmbAlignDown_toNat ha]; exact Nat.dvd_mul_left ..

/-- Rounding down gives the greatest multiple. -/
theorem le_lmbAlignDown {x : UInt64} {b : Nat} (hb : align.toNat ∣ b) (h : b ≤ x.toNat) :
    b ≤ (lmbAlignDown x align).toNat := by
  obtain ⟨c, rfl⟩ := hb
  rw [lmbAlignDown_toNat ha, Nat.mul_comm align.toNat c]
  refine Nat.mul_le_mul_right _ ((Nat.le_div_iff_mul_le ha.pos).2 ?_)
  rwa [Nat.mul_comm]

theorem lmbAlignUp_toNat {size : UInt64} (h : size.toNat + align.toNat - 1 < 2 ^ 64) :
    (lmbAlignUp size align).toNat = (size.toNat + align.toNat - 1) / align.toNat * align.toNat := by
  obtain ⟨k, hk⟩ := ha
  exact UInt64.toNat_add_sub_one_and_not hk h

theorem le_lmbAlignUp {size : UInt64} (h : size.toNat + align.toNat - 1 < 2 ^ 64) :
    size.toNat ≤ (lmbAlignUp size align).toNat := by
  rw [lmbAlignUp_toNat ha h]
  have h1 := Nat.div_add_mod (size.toNat + align.toNat - 1) align.toNat
  have h2 := Nat.mod_lt (size.toNat + align.toNat - 1) ha.pos
  rw [Nat.mul_comm] at h1
  omega

end

/-- `lmb_overlaps_region` finds the first entry that overlaps the range. -/
theorem lmbOverlapsRegion_cases {rgn : LmbRegion} {base size : UInt64}
    (hfits : ∀ s ∈ rgn.table, s.hi < 2 ^ 64) (hfit : base.toNat + size.toNat < 2 ^ 64) :
    (lmbOverlapsRegion rgn base size = none ∧
      FreeAt rgn size.toNat base.toNat) ∨
    ∃ j < rgn.cnt.toNat, lmbOverlapsRegion rgn base size = some j ∧
      base.toNat < (rgn.region j).seg.hi ∧ (rgn.region j).seg.lo < base.toNat + size.toNat := by
  let p : LmbProperty := ⟨base, size, 0, .invalid⟩
  have hov : ∀ i < rgn.cnt.toNat, lmbAddrsOverlap base size (rgn.region i).base (rgn.region i).size
      = true ↔ p.seg.Overlaps (rgn.region i).seg := fun i hi =>
    lmbAddrsOverlap_iff (p := p) hfit (hfits _ (LmbRegion.seg_mem_table hi))
  rcases h : lmbOverlapsRegion rgn base size with _ | j
  · refine .inl ⟨rfl, fun r hr => ?_⟩
    obtain ⟨i, hi, rfl⟩ := LmbRegion.mem_table.1 hr
    have := List.find?_eq_none.1 h i (List.mem_range.2 hi)
    rw [hov i hi] at this
    exact not_overlaps_iff.1 this
  · obtain ⟨hj, hmem⟩ := List.find?_eq_some_iff_append.1 h
    have hjc : j < rgn.cnt.toNat := by
      obtain ⟨as, bs, hab, _⟩ := hmem
      exact List.mem_range.1 (hab ▸ by simp)
    exact .inr ⟨j, hjc, rfl, (hov j hjc).1 hj⟩

/-- A block that meets an entry is not free. -/
theorem not_freeAt_of_meets {rgn : LmbRegion} {j s c : Nat} (hj : j < rgn.cnt.toNat)
    (hlo : (rgn.region j).seg.lo < c + s) (hhi : c < (rgn.region j).seg.hi) : ¬FreeAt rgn s c := by
  intro hall
  rcases hall _ (LmbRegion.seg_mem_table hj) with h | h <;> omega

/-- No block between an entry that the block at `base` meets and the highest one that fits below the
entry is free. -/
theorem not_freeAt_of_skipped {rgn : LmbRegion} {j c : Nat} {base size align : UInt64}
    (hj : j < rgn.cnt.toNat) (hhi : base.toNat < (rgn.region j).seg.hi)
    (hge : size.toNat ≤ (rgn.region j).base.toNat) (ha : PowTwo align) (hc : align.toNat ∣ c)
    (hlt : (lmbAlignDown ((rgn.region j).base - size) align).toNat < c) (hcb : c ≤ base.toNat) :
    ¬FreeAt rgn size.toNat c := by
  have hsub : ((rgn.region j).base - size).toNat = (rgn.region j).base.toNat - size.toNat :=
    UInt64.toNat_sub_of_le _ _ (UInt64.le_iff_toNat_le.2 hge)
  refine not_freeAt_of_meets hj ?_ (hcb.trans_lt hhi)
  by_contra hcon
  rw [LmbProperty.seg_lo] at hcon
  have hle := le_lmbAlignDown ha hc (x := (rgn.region j).base - size) (by omega)
  omega

/-- The inner loop finds the highest free block of the alignment at or below `base`, if there is
one at or above `lmbbase`. -/
theorem lmbAllocBase.scan_spec {reserved : LmbRegion} {lmbbase size align : UInt64}
    (hfits : ∀ s ∈ reserved.table, s.hi < 2 ^ 64) (ha : PowTwo align) (n : Nat) (base : UInt64)
    (hn : base.toNat < n) (hb : align.toNat ∣ base.toNat)
    (hfit : base.toNat + size.toNat < 2 ^ 64) :
    (∀ b, scan reserved lmbbase size align n base = some b →
      b.toNat ≠ 0 ∧ lmbbase.toNat ≤ b.toNat ∧ b.toNat ≤ base.toNat ∧ align.toNat ∣ b.toNat ∧
      FreeAt reserved size.toNat b.toNat ∧
      ∀ c, align.toNat ∣ c → b.toNat < c → c ≤ base.toNat →
        ¬FreeAt reserved size.toNat c) ∧
    (scan reserved lmbbase size align n base = none →
      ∀ c, align.toNat ∣ c → c ≠ 0 → lmbbase.toNat ≤ c → c ≤ base.toNat →
        ¬FreeAt reserved size.toNat c) := by
  induction n generalizing base with
  | zero => omega
  | succ n ih =>
    rw [scan]
    split
    · next hin =>
      have hne : base.toNat ≠ 0 := fun h => hin.1 (UInt64.toNat_inj.1 h)
      have hle := UInt64.le_iff_toNat_le.1 hin.2
      rcases lmbOverlapsRegion_cases hfits hfit with ⟨hj, hfree⟩ | ⟨j, hjc, hj, h1, h2⟩
      · simp only [hj]
        refine ⟨?_, by simp⟩
        rintro b ⟨⟩
        exact ⟨hne, hle, le_rfl, hb, hfree, fun c _ hbc hcb => by omega⟩
      · -- no block from the jump target up to `base` is free
        simp only [LmbProperty.seg_lo] at h2
        simp only [hj]
        split
        · next hlt =>
          rw [UInt64.lt_iff_toNat_lt] at hlt
          refine ⟨by simp, fun _ c _ _ _ hcb => not_freeAt_of_meets hjc ?_ (hcb.trans_lt h1)⟩
          rw [LmbProperty.seg_lo]
          omega
        · next hge =>
          rw [UInt64.lt_iff_toNat_lt, not_lt] at hge
          set next := lmbAlignDown ((reserved.region j).base - size) align
          have hdown : next.toNat ≤ (reserved.region j).base.toNat - size.toNat := by
            rw [← UInt64.toNat_sub_of_le _ _ (UInt64.le_iff_toNat_le.2 hge)]
            exact lmbAlignDown_le ha _
          obtain ⟨ih1, ih2⟩ := ih next (by omega) (dvd_lmbAlignDown ha _) (by omega)
          refine ⟨fun b hb' => ?_, fun hnone c hc hc0 hlc hcb => ?_⟩
          · obtain ⟨g1, g2, g3, g4, g5, g6⟩ := ih1 b hb'
            refine ⟨g1, g2, by omega, g4, g5, fun c hc hbc hcb => ?_⟩
            rcases Nat.lt_or_ge next.toNat c with h | h
            · exact not_freeAt_of_skipped hjc h1 hge ha hc h hcb
            · exact g6 c hc hbc h
          · rcases Nat.lt_or_ge next.toNat c with h | h
            · exact not_freeAt_of_skipped hjc h1 hge ha hc h hcb
            · exact ih2 hnone c hc hc0 hlc h
    · next hout =>
      refine ⟨by simp, fun _ c _ hc0 hlc hcb => ?_⟩
      rw [not_and_or, UInt64.le_iff_toNat_le] at hout
      rcases hout with h | h
      · have : base = 0 := not_not.1 h
        rw [this, UInt64.toNat_zero] at hcb
        omega
      · omega

/-- The block `[b, b + s)` lies in the segment and below the limit. -/
def Within (m : LmbSegment) (s maxAddr b : Nat) : Prop :=
  m.lo ≤ b ∧ b + s ≤ m.hi ∧ (maxAddr ≠ 0 → b + s ≤ maxAddr)

/-- The inner loop starts from the highest aligned block of the entry and below the limit. -/
theorem lmbAllocBase.start_spec {p : LmbProperty} {size align maxAddr : UInt64} (ha : PowTwo align)
    (hp : p.seg.hi < 2 ^ 64) (hmax : maxAddr = 0 ∨ size.toNat ≤ maxAddr.toNat) :
    (start p size align maxAddr = none → (maxAddr.toNat ≠ 0 → p.seg.lo < maxAddr.toNat) →
      ∀ c, ¬Within p.seg size.toNat maxAddr.toNat c) ∧
    ∀ base, start p size align maxAddr = some base →
      align.toNat ∣ base.toNat ∧ base.toNat + size.toNat ≤ p.seg.hi ∧
      (maxAddr.toNat ≠ 0 → p.seg.lo < maxAddr.toNat ∧ base.toNat + size.toNat ≤ maxAddr.toNat) ∧
      ∀ c, align.toNat ∣ c → Within p.seg size.toNat maxAddr.toNat c → c ≤ base.toNat := by
  have hend := LmbProperty.toNat_end hp
  -- both starting points are the rounded down difference of a word that is large enough
  have hdown : ∀ top : UInt64, size.toNat ≤ top.toNat →
      align.toNat ∣ (lmbAlignDown (top - size) align).toNat ∧
      (lmbAlignDown (top - size) align).toNat + size.toNat ≤ top.toNat ∧
      ∀ c, align.toNat ∣ c → c + size.toNat ≤ top.toNat →
        c ≤ (lmbAlignDown (top - size) align).toNat := by
    intro top htop
    have hsub : (top - size).toNat = top.toNat - size.toNat :=
      UInt64.toNat_sub_of_le _ _ (UInt64.le_iff_toNat_le.2 htop)
    have hle := lmbAlignDown_le ha (top - size)
    refine ⟨dvd_lmbAlignDown ha _, by omega, fun c hc h => le_lmbAlignDown ha hc (by omega)⟩
  rw [start]
  simp only [LmbProperty.seg_hi] at hend hp ⊢
  split
  · next h =>
    rw [UInt64.lt_iff_toNat_lt] at h
    refine ⟨fun _ _ c hc => ?_, by simp⟩
    simp only [Within, LmbProperty.seg_lo, LmbProperty.seg_hi] at hc
    omega
  · next h =>
    rw [UInt64.lt_iff_toNat_lt, not_lt] at h
    split
    · next hm =>
      have hm0 : maxAddr.toNat = 0 := by rw [hm]; rfl
      obtain ⟨h1, h2, h3⟩ := hdown (p.base + p.size) (by omega)
      refine ⟨by simp, ?_⟩
      rintro base ⟨⟩
      exact ⟨h1, by omega, fun h => absurd hm0 h, fun c hc hw => h3 c hc (hend ▸ hw.2.1)⟩
    · next hm =>
      have hm0 : maxAddr.toNat ≠ 0 := fun h => hm (UInt64.toNat_inj.1 h)
      have hmax' : size.toNat ≤ maxAddr.toNat := hmax.resolve_left hm
      split
      · next hlt =>
        have hmin : (min (p.base + p.size) maxAddr).toNat =
            min (p.base + p.size).toNat maxAddr.toNat := by
          simp only [UInt64.toNat_min]
        obtain ⟨h1, h2, h3⟩ := hdown (min (p.base + p.size) maxAddr) (by omega)
        refine ⟨by simp, ?_⟩
        rintro base ⟨⟩
        refine ⟨h1, by omega, fun _ => ⟨UInt64.lt_iff_toNat_lt.1 hlt, by omega⟩,
          fun c hc hw => h3 c hc ?_⟩
        have g1 := hw.2.1
        have g2 := hw.2.2 hm0
        simp only [LmbProperty.seg_hi] at g1
        omega
      · next hge =>
        rw [UInt64.lt_iff_toNat_lt, not_lt] at hge
        exact ⟨fun _ hlo => absurd (hlo hm0) hge.not_gt, by simp⟩

/-- A block that fits in one of the first `n` memory entries. -/
def FitBelow (lmb : Lmb) (s align maxAddr n b : Nat) : Prop :=
  b ≠ 0 ∧ align ∣ b ∧ FreeAt lmb.reserved s b ∧
    ∃ i < n, Within (lmb.memory.region i).seg s maxAddr b

/-- A block that fits in one of the first `n` memory entries that start below the limit. -/
def Reached (lmb : Lmb) (s align maxAddr n b : Nat) : Prop :=
  b ≠ 0 ∧ align ∣ b ∧ FreeAt lmb.reserved s b ∧
    ∃ i < n, (maxAddr ≠ 0 → (lmb.memory.region i).seg.lo < maxAddr) ∧
      Within (lmb.memory.region i).seg s maxAddr b

/-- Only a block of size `0` can fit in an entry that starts at the limit. -/
theorem reached_iff {lmb : Lmb} {s align maxAddr n b : Nat} (hs : 0 < s) :
    Reached lmb s align maxAddr n b ↔ FitBelow lmb s align maxAddr n b := by
  refine and_congr_right fun _ => and_congr_right fun _ => and_congr_right fun _ =>
    exists_congr fun i => and_congr_right fun _ => and_iff_right_of_imp fun hw h => ?_
  have h1 := hw.1
  have h2 := hw.2.2 h
  omega

theorem blockFit_iff {lmb : Lmb} {s align maxAddr b : Nat} : BlockFit lmb s align maxAddr b ↔
    FitBelow lmb s align maxAddr lmb.memory.cnt.toNat b := by
  constructor
  · rintro ⟨h1, h2, ⟨m, hm, h3, h4⟩, h5, h6⟩
    obtain ⟨i, hi, rfl⟩ := LmbRegion.mem_table.1 hm
    exact ⟨h1, h2, h6, i, hi, h3, h4, h5⟩
  · rintro ⟨h1, h2, h6, i, hi, h3, h4, h5⟩
    exact ⟨h1, h2, ⟨_, LmbRegion.seg_mem_table hi, h3, h4⟩, h5, h6⟩

theorem LmbRegion.Ok.hi_le_lo {rgn : LmbRegion} (h : rgn.Ok) {i j : Nat} (hij : i < j)
    (hj : j < rgn.cnt.toNat) : (rgn.region i).seg.hi ≤ (rgn.region j).seg.lo := by
  rcases h with h | h
  · have := List.pairwise_iff_getElem.1 h.wf.sorted i j (by simp; omega) (by simpa using hj) hij
    simpa using this
  · rw [h.1, UInt64.toNat_one] at hj
    omega

theorem lmbAllocBase.search_spec_below {lmb : Lmb} {size align maxAddr : UInt64}
    (hmem : lmb.memory.Ok) (hres : lmb.reserved.Ok) (ha : PowTwo align)
    (hmax : maxAddr = 0 ∨ size.toNat ≤ maxAddr.toNat) (n : Nat) (hn : n ≤ lmb.memory.cnt.toNat) :
    (∀ b, search lmb size align maxAddr n = some b →
      IsGreatest {b | Reached lmb size.toNat align.toNat maxAddr.toNat n b} b.toNat) ∧
    (search lmb size align maxAddr n = none →
      ∀ b, ¬Reached lmb size.toNat align.toNat maxAddr.toNat n b) := by
  induction n with
  | zero => exact ⟨by simp [search], fun _ b h => by obtain ⟨_, _, _, i, hi, _⟩ := h; omega⟩
  | succ n ih =>
    have hfit := hmem.fits _ (LmbRegion.seg_mem_table (show n < lmb.memory.cnt.toNat by omega))
    obtain ⟨hstart0, hstart1⟩ := lmbAllocBase.start_spec ha hfit hmax
    obtain ⟨ih1, ih2⟩ := ih (by omega)
    -- with no block in entry `n` the answer is that of the entries below
    have hskip : (∀ c, align.toNat ∣ c → c ≠ 0 → FreeAt lmb.reserved size.toNat c →
        (maxAddr.toNat ≠ 0 → (lmb.memory.region n).seg.lo < maxAddr.toNat) →
        ¬Within (lmb.memory.region n).seg size.toNat maxAddr.toNat c) →
        ∀ c, Reached lmb size.toNat align.toNat maxAddr.toNat (n + 1) c ↔
          Reached lmb size.toNat align.toNat maxAddr.toNat n c := by
      intro hno c
      constructor
      · rintro ⟨h1, h2, h3, i, hi, hlim, hw⟩
        rcases Nat.lt_succ_iff_lt_or_eq.1 hi with hi | rfl
        · exact ⟨h1, h2, h3, i, hi, hlim, hw⟩
        · exact absurd hw (hno c h2 h1 h3 hlim)
      · rintro ⟨h1, h2, h3, i, hi, hlim, hw⟩
        exact ⟨h1, h2, h3, i, by omega, hlim, hw⟩
    rw [search]
    rcases hst : lmbAllocBase.start (lmb.memory.region n) size align maxAddr with _ | base
    · simp only [hskip fun c _ _ _ hlim => hstart0 hst hlim c]
      exact ⟨ih1, ih2⟩
    · obtain ⟨g1, g2, g3, g4⟩ := hstart1 base hst
      obtain ⟨hscan1, hscan2⟩ := @lmbAllocBase.scan_spec _ (lmb.memory.region n).base size _ hres.fits ha
        (base.toNat + 1) base (by omega) g1 (by omega)
      rcases hsc : lmbAllocBase.scan lmb.reserved (lmb.memory.region n).base size align
        (base.toNat + 1) base with _ | b
      · simp only [hsc, hskip fun c hc hc0 hfree _ hw =>
          hscan2 hsc c hc hc0 hw.1 (g4 c hc hw) hfree]
        exact ⟨ih1, ih2⟩
      · obtain ⟨k1, k2, k3, k4, k5, k6⟩ := hscan1 b hsc
        simp only [hsc]
        refine ⟨?_, by simp⟩
        rintro _ ⟨⟩
        refine ⟨⟨k1, k4, k5, n, by omega, fun h => (g3 h).1, k2, by omega,
          fun h => by have := g3 h; omega⟩, ?_⟩
        rintro c ⟨h1, h2, h3, i, hi, -, hw⟩
        rcases Nat.lt_succ_iff_lt_or_eq.1 hi with hi | rfl
        · have := hmem.hi_le_lo hi (show n < lmb.memory.cnt.toNat by omega)
          have := hw.2.1
          simp only [LmbProperty.seg_lo] at *
          omega
        · by_contra hcon
          exact k6 c h2 (by omega) (g4 c h2 hw) h3

/-- What the search returns fits, also when the tables are not in order. -/
theorem lmbAllocBase.search_sound {lmb : Lmb} {size align maxAddr b : UInt64}
    (hmem : ∀ s ∈ lmb.memory.table, s.hi < 2 ^ 64)
    (hres : ∀ s ∈ lmb.reserved.table, s.hi < 2 ^ 64) (ha : PowTwo align)
    (hmax : maxAddr = 0 ∨ size.toNat ≤ maxAddr.toNat) (n : Nat) (hn : n ≤ lmb.memory.cnt.toNat)
    (h : search lmb size align maxAddr n = some b) :
    FitBelow lmb size.toNat align.toNat maxAddr.toNat n b.toNat := by
  induction n with
  | zero => simp [search] at h
  | succ n ih =>
    have hfit := hmem _ (LmbRegion.seg_mem_table (show n < lmb.memory.cnt.toNat by omega))
    obtain ⟨-, hstart⟩ := lmbAllocBase.start_spec ha hfit hmax
    have hbelow : search lmb size align maxAddr n = some b →
        FitBelow lmb size.toNat align.toNat maxAddr.toNat (n + 1) b.toNat := by
      intro h
      obtain ⟨h1, h2, h3, i, hi, hw⟩ := ih (by omega) h
      exact ⟨h1, h2, h3, i, by omega, hw⟩
    rw [search] at h
    rcases hst : lmbAllocBase.start (lmb.memory.region n) size align maxAddr with _ | base
    · simp only [hst] at h
      exact hbelow h
    · obtain ⟨g1, g2, g3, -⟩ := hstart base hst
      obtain ⟨hscan, -⟩ := @lmbAllocBase.scan_spec _ (lmb.memory.region n).base size _ hres ha
        (base.toNat + 1) base (by omega) g1 (by omega)
      rcases hsc : lmbAllocBase.scan lmb.reserved (lmb.memory.region n).base size align
        (base.toNat + 1) base with _ | b'
      · simp only [hst, hsc] at h
        exact hbelow h
      · simp only [hst, hsc, Option.some.injEq] at h
        subst h
        obtain ⟨k1, k2, k3, k4, k5, -⟩ := hscan b' hsc
        exact ⟨k1, k4, k5, n, by omega, k2, by omega, fun h => by have := g3 h; omega⟩

/-- The limit of a request does not make the code subtract the size from a smaller limit: it is
absent, or leaves room for the size, or rules out every memory entry that is large enough. -/
def Limit (lmb : Lmb) (s maxAddr : Nat) : Prop :=
  maxAddr = 0 ∨ s ≤ maxAddr ∨ ∀ m ∈ lmb.memory.table, m.lo < maxAddr → m.hi < m.lo + s

theorem lmbAllocBase.search_eq_none {lmb : Lmb} {size align maxAddr : UInt64} (h0 : maxAddr ≠ 0)
    (h : ∀ m ∈ lmb.memory.table, m.lo < maxAddr.toNat → m.hi < m.lo + size.toNat) (n : Nat)
    (hn : n ≤ lmb.memory.cnt.toNat) : search lmb size align maxAddr n = none := by
  induction n with
  | zero => rfl
  | succ n ih =>
    have hstart : start (lmb.memory.region n) size align maxAddr = none := by
      have := h _ (LmbRegion.seg_mem_table (i := n) (by omega))
      simp only [LmbProperty.seg_lo, LmbProperty.seg_hi] at this
      rw [start]
      split
      · rfl
      · next hsize =>
        rw [UInt64.lt_iff_toNat_lt] at hsize
        rw [if_neg (show maxAddr ≠ lmbAllocAnywhere from h0), if_neg]
        rw [UInt64.lt_iff_toNat_lt]
        intro hlt
        have := this hlt
        omega
    simp only [search, hstart, ih (by omega)]

/-- **The search of `__lmb_alloc_base`** returns the highest block that fits, and none only when no
block fits. -/
theorem lmbAllocBase.search_spec {lmb : Lmb} {size align maxAddr : UInt64}
    (hmem : lmb.memory.Ok) (hres : lmb.reserved.Ok) (ha : PowTwo align) (hs : 0 < size.toNat)
    (hmax : Limit lmb size.toNat maxAddr.toNat) :
    (∀ b, search lmb size align maxAddr lmb.memory.cnt.toNat = some b →
      IsGreatest {b | BlockFit lmb size.toNat align.toNat maxAddr.toNat b} b.toNat) ∧
    (search lmb size align maxAddr lmb.memory.cnt.toNat = none →
      ∀ b, ¬BlockFit lmb size.toNat align.toNat maxAddr.toNat b) := by
  by_cases hwide : maxAddr = 0 ∨ size.toNat ≤ maxAddr.toNat
  · simp only [blockFit_iff, ← reached_iff hs]
    exact search_spec_below hmem hres ha hwide _ le_rfl
  · rw [not_or] at hwide
    have h0 : maxAddr.toNat ≠ 0 := fun h => hwide.1 (UInt64.toNat_inj.1 h)
    have hnone := (hmax.resolve_left h0).resolve_left hwide.2
    rw [lmbAllocBase.search_eq_none hwide.1 hnone _ le_rfl]
    exact ⟨by simp, fun _ b hb => by have := hb.below h0; omega⟩

/-- The arguments of a request that does not wrap: a size that is not zero and can be rounded up to
a power of two, and a limit that leaves room for it. -/
structure Request (lmb : Lmb) (size align maxAddr : UInt64) : Prop where
  pos : 0 < size.toNat
  powTwo : PowTwo align
  fits : size.toNat + align.toNat - 1 < 2 ^ 64
  limit : Limit lmb (lmbAlignUp size align).toNat maxAddr.toNat

theorem Request.rounded_pos {lmb : Lmb} {size align maxAddr : UInt64}
    (h : Request lmb size align maxAddr) : 0 < (lmbAlignUp size align).toNat :=
  h.pos.trans_le (le_lmbAlignUp h.powTwo h.fits)

/-- **`lmb_alloc_base`** records the highest block that fits with `lmb_add_region`. -/
theorem lmbAllocBase_cases {lmb : Lmb} {size align maxAddr : UInt64} {type : LmbType} (tag : UInt32)
    (hmem : lmb.memory.Ok) (hres : lmb.reserved.Ok) (hreq : Request lmb size align maxAddr)
    (htype : type ≠ .mmio) :
    let s := lmbAlignUp size align
    ((∀ b, ¬BlockFit lmb s.toNat align.toNat maxAddr.toNat b) ∧
      lmbAllocBase lmb size align maxAddr type tag = some (0, lmb)) ∨
    ∃ p : LmbProperty, p.size = s ∧ p.type = type ∧ p.tag = tag ∧
      IsGreatest {b | BlockFit lmb s.toNat align.toNat maxAddr.toNat b} p.base.toNat ∧
      p.seg.hi < 2 ^ 64 ∧ (∀ f ∈ lmb.reserved.table, ¬p.seg.Overlaps f) ∧
      lmbAllocBase lmb size align maxAddr type tag =
        (lmbAddRegion lmb.reserved p.base p.size p.type p.tag).map fun r =>
          (if r.1 < 0 then 0 else p.base, { lmb with reserved := r.2 }) := by
  intro s
  obtain ⟨h1, h2⟩ :=
    lmbAllocBase.search_spec hmem hres hreq.powTwo hreq.rounded_pos hreq.limit
  rcases hs : lmbAllocBase.search lmb s align maxAddr lmb.memory.cnt.toNat with _ | b
  · exact .inl ⟨h2 hs, lmbAllocBase_none (.inr hs)⟩
  · have hb := h1 b hs
    refine .inr ⟨⟨b, s, tag, type⟩, rfl, rfl, rfl, hb, ?_, fun f hf => ?_,
      lmbAllocBase_found htype hs⟩
    · obtain ⟨m, hm, -, hle⟩ := hb.1.known
      exact hle.trans_lt (hmem.fits m hm)
    · exact not_overlaps_iff.2 (hb.1.free f hf)

end ShieldLoader
