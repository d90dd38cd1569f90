import ShieldLoader.Lmb.Alloc

/-!
# What `lmb_free` does to a table

`FreeStep` lists the outcomes of `lmb_free` on a well-formed reserved table. Four of them edit the
entry that holds the range; the split re-adds what is behind the range with `lmb_add_region`, after
the entry has been truncated, and inherits the outcomes of that call.
-/

namespace ShieldLoader

open Segment

/-- The outcomes of `lmb_free` for the range `[lo, hi)`. -/
inductive FreeStep (t : List LmbSegment) (lo hi : Nat) : Int → List LmbSegment → Prop
  | refused : (∀ e ∈ t, e.lo ≤ lo → hi ≤ e.hi → e.label.1 = .mmio) → FreeStep t lo hi (-1) t
  | whole {L e R} : t = L ++ e :: R → e.label.1 ≠ .mmio → e.lo = lo → e.hi = hi →
    FreeStep t lo hi 0 (L ++ R)
  | front {L e R} : t = L ++ e :: R → e.label.1 ≠ .mmio → e.lo = lo → hi < e.hi →
    FreeStep t lo hi 0 (L ++ ⟨hi, e.hi, e.label⟩ :: R)
  | back {L e R} : t = L ++ e :: R → e.label.1 ≠ .mmio → e.lo < lo → e.hi = hi →
    FreeStep t lo hi 0 (L ++ ⟨e.lo, lo, e.label⟩ :: R)
  | split {L e R r t'} : t = L ++ e :: R → e.label.1 ≠ .mmio → e.lo < lo → hi < e.hi →
    AddStep (L ++ ⟨e.lo, lo, e.label⟩ :: R) ⟨hi, e.hi, e.label⟩ r t' → FreeStep t lo hi r t'

/-- The search loop of `lmb_free`, read on the table. -/
theorem lmbFree.find_cases {rgn : LmbRegion} {base «end» : UInt64} (hok : rgn.Ok) (n i : Nat)
    (hn : i + n = rgn.cnt.toNat) :
    (find rgn base «end» i n = none ∧ ∀ k, i ≤ k → k < rgn.cnt.toNat →
      ¬((rgn.region k).seg.lo ≤ base.toNat ∧ «end».toNat ≤ (rgn.region k).seg.hi)) ∨
    ∃ k < rgn.cnt.toNat, find rgn base «end» i n = some k ∧
      (rgn.region k).seg.lo ≤ base.toNat ∧ «end».toNat ≤ (rgn.region k).seg.hi ∧
      ∀ j, i ≤ j → j < k →
        ¬((rgn.region j).seg.lo ≤ base.toNat ∧ «end».toNat ≤ (rgn.region j).seg.hi) := by
  induction n generalizing i with
  | zero => exact .inl ⟨rfl, by omega⟩
  | succ n ih =>
    have hi : i < rgn.cnt.toNat := by omega
    have hfit := hok.fits _ (LmbRegion.seg_mem_table hi)
    have htest : ((rgn.region i).base ≤ base ∧
        «end» ≤ (rgn.region i).base + (rgn.region i).size) ↔
          ((rgn.region i).seg.lo ≤ base.toNat ∧ «end».toNat ≤ (rgn.region i).seg.hi) := by
      rw [UInt64.le_iff_toNat_le, UInt64.le_iff_toNat_le, LmbProperty.toNat_end hfit]
      rfl
    by_cases h : (rgn.region i).base ≤ base ∧
        «end» ≤ (rgn.region i).base + (rgn.region i).size
    · obtain ⟨h1, h2⟩ := htest.1 h
      exact .inr ⟨i, hi, by simp only [find, if_pos h], h1, h2, by omega⟩
    · simp only [find, if_neg h]
      rcases ih (i + 1) (by omega) with ⟨h1, h2⟩ | ⟨k, hk, h1, h2, h3, h4⟩
      · refine .inl ⟨h1, fun k hk hkc => ?_⟩
        rcases hk.eq_or_lt with rfl | hk
        · exact mt htest.2 h
        · exact h2 k hk hkc
      · refine .inr ⟨k, hk, h1, h2, h3, fun j hj hjk => ?_⟩
        rcases hj.eq_or_lt with rfl | hj
        · exact mt htest.2 h
        · exact h4 j hj hjk

section
variable {t t' L R : List LmbSegment} {e : LmbSegment} {lo hi : Nat} {r : Int}

/-- What a range leaves of the entry that it lies strictly inside. -/
theorem split_wf (hwf : Segment.WF (L ++ e :: R)) (hlo : e.lo < lo) (hle : lo ≤ hi)
    (hhi : hi < e.hi) :
    Segment.WF (L ++ ⟨e.lo, lo, e.label⟩ :: R) ∧
      ∀ f ∈ L ++ ⟨e.lo, lo, e.label⟩ :: R, ¬Overlaps ⟨hi, e.hi, e.label⟩ f := by
  refine ⟨hwf.replace hlo hwf.left_le fun r hr => ?_, fun f hf => not_overlaps_iff.2 ?_⟩
  · have := hwf.le_right r hr
    simp only
    omega
  · rcases List.mem_append.1 hf with hf | hf
    · have := hwf.left_le f hf
      left; simp only
      omega
    · rcases List.mem_cons.1 hf with rfl | hf
      · left; simp only
        omega
      · exact .inr (hwf.le_right f hf)

theorem not_hidden_of_disjoint {n : LmbSegment} (h : ∀ f ∈ t, ¬n.Overlaps f) : ¬Hidden t n :=
  fun ⟨_, f, hf, hov⟩ => h f hf hov

/-- `lmb_free` keeps a table well formed. -/
theorem FreeStep.wf (h : FreeStep t lo hi r t') (hwf : Segment.WF t) (hlt : lo < hi) :
    Segment.WF t' := by
  cases h with
  | refused => exact hwf
  | whole h => subst h; exact hwf.erase
  | front h _ hlo hhi =>
    subst h hlo
    refine hwf.replace hhi (fun l hl => ?_) hwf.le_right
    exact (hwf.left_le l hl).trans (by simp only; omega)
  | back h _ hlo hhi =>
    subst h hhi
    refine hwf.replace hlo hwf.left_le fun r hr => ?_
    exact le_trans (by simp only; omega) (hwf.le_right r hr)
  | split h _ hlo hhi hadd =>
    subst h
    obtain ⟨h1, h2⟩ := split_wf hwf hlo hlt.le hhi
    rcases hadd.cases_wf h1 hhi (not_hidden_of_disjoint h2) with ⟨_, rfl, _⟩ | ⟨_, _, h3, _⟩
    · exact h1
    · exact h3

end

theorem FreeStep.fits {t t' : List LmbSegment} {lo hi : Nat} {r : Int} (h : FreeStep t lo hi r t')
    (hle : lo ≤ hi) (hfit : ∀ s ∈ t, s.hi < 2 ^ 64) : ∀ s ∈ t', s.hi < 2 ^ 64 := by
  cases h with
  | refused => exact hfit
  | whole h =>
    subst h
    simp only [List.forall_mem_append, List.forall_mem_cons] at hfit ⊢
    exact ⟨hfit.1, hfit.2.2⟩
  | front h =>
    subst h
    simp only [List.forall_mem_append, List.forall_mem_cons] at hfit ⊢
    exact hfit
  | back h _ _ hhi =>
    subst h hhi
    simp only [List.forall_mem_append, List.forall_mem_cons] at hfit ⊢
    exact ⟨hfit.1, by omega, hfit.2.2⟩
  | @split L e R r t' h _ _ hhi hadd =>
    subst h
    refine hadd.forall_mem (P := fun s => s.hi < 2 ^ 64) (fun ha hb => max_lt ha hb) ?_ ?_
    · simp only [List.forall_mem_append, List.forall_mem_cons] at hfit ⊢
      exact ⟨hfit.1, by omega, hfit.2.2⟩
    · exact hfit e (by simp)

theorem FreeStep.length_le {t t' : List LmbSegment} {lo hi : Nat} {r : Int}
    (h : FreeStep t lo hi r t') (ht : t.length ≤ maxLmbRegions) : t'.length ≤ maxLmbRegions := by
  cases h with
  | refused => exact ht
  | whole h | front h | back h => subst h; simp only [List.length_append, List.length_cons] at *; omega
  | split h _ _ _ hadd => subst h; exact hadd.length_le (by simpa using ht)

/-! ### The pieces of the entry that is found -/

section
variable {p : LmbProperty} {base «end» s : UInt64}

theorem LmbProperty.truncate_seg (h : p.seg.lo < base.toNat) :
    LmbProperty.seg { p with size := base - p.base } = ⟨p.seg.lo, base.toNat, p.seg.label⟩ := by
  rw [LmbProperty.seg_lo] at h
  simp only [LmbProperty.seg, UInt64.toNat_sub_of_le _ _ (UInt64.le_iff_toNat_le.2 h.le),
    Segment.mk.injEq, and_true, true_and]
  omega

theorem LmbProperty.rest_seg (hfit : p.seg.hi < 2 ^ 64) (h : «end».toNat < p.seg.hi) :
    (LmbProperty.mk «end» (p.base + p.size - «end») p.tag p.type).seg =
      ⟨«end».toNat, p.seg.hi, p.seg.label⟩ := by
  have hend := LmbProperty.toNat_end hfit
  have hsub : (p.base + p.size - «end»).toNat = p.seg.hi - «end».toNat := by
    rw [UInt64.toNat_sub_of_le _ _ (UInt64.le_iff_toNat_le.2 (hend ▸ h.le)), hend]
  simp only [LmbProperty.seg, hsub, Segment.mk.injEq, and_true, true_and]
  rw [LmbProperty.seg_hi] at h
  omega

/-- The entry without its first `s` bytes. -/
theorem LmbProperty.front_seg (hlo : p.seg.lo = base.toNat) (hend : (base + s).toNat =
      base.toNat + s.toNat) (hhi : base.toNat + s.toNat ≤ p.seg.hi) :
    LmbProperty.seg { p with base := base + s, size := p.size - s } =
      ⟨base.toNat + s.toNat, p.seg.hi, p.seg.label⟩ := by
  rw [LmbProperty.seg_lo] at hlo
  rw [LmbProperty.seg_hi] at hhi
  have hsize := UInt64.toNat_sub_of_le p.size s (UInt64.le_iff_toNat_le.2 (by omega))
  simp only [LmbProperty.seg, hend, hsize, Segment.mk.injEq, and_true, true_and]
  omega

/-- The entry without its last `s` bytes. -/
theorem LmbProperty.back_seg (hlo : p.seg.lo ≤ base.toNat)
    (hhi : p.seg.hi = base.toNat + s.toNat) :
    LmbProperty.seg { p with size := p.size - s } = ⟨p.seg.lo, base.toNat, p.seg.label⟩ := by
  rw [LmbProperty.seg_lo] at hlo
  rw [LmbProperty.seg_hi] at hhi
  have hsize := UInt64.toNat_sub_of_le p.size s (UInt64.le_iff_toNat_le.2 (by omega))
  simp only [LmbProperty.seg, hsize, Segment.mk.injEq, and_true, true_and]
  omega

end

/-- The split of the entry `k` around `[base, end)`: it is truncated, and what lies behind is added
again. -/
theorem lmbFree.split_step {rgn : LmbRegion} {base «end» : UInt64} {k : Nat} (hwf : rgn.WF)
    (hk : k < rgn.cnt.toNat) (hlo : (rgn.region k).seg.lo < base.toNat)
    (hle : base.toNat ≤ «end».toNat) (hhi : «end».toNat < (rgn.region k).seg.hi) :
    let p := rgn.region k
    let q : LmbProperty := { p with size := base - p.base }
    ∃ r rgn', lmbAddRegion { rgn with region := Function.update rgn.region k q } «end»
        (p.base + p.size - «end») p.type p.tag = some (r, rgn') ∧
      AddStep (rgn.table.take k ++ ⟨p.seg.lo, base.toNat, p.seg.label⟩ :: rgn.table.drop (k + 1))
        ⟨«end».toNat, p.seg.hi, p.seg.label⟩ r rgn'.table := by
  intro p q
  replace hlo : p.seg.lo < base.toNat := hlo
  replace hhi : «end».toNat < p.seg.hi := hhi
  have hfitk := hwf.fits _ (LmbRegion.seg_mem_table hk)
  have htab := LmbRegion.table_eq_append hk
  let n : LmbProperty := ⟨«end», p.base + p.size - «end», p.tag, p.type⟩
  have hq : q.seg = ⟨p.seg.lo, base.toNat, p.seg.label⟩ := LmbProperty.truncate_seg hlo
  have hn : n.seg = ⟨«end».toNat, p.seg.hi, p.seg.label⟩ := LmbProperty.rest_seg hfitk hhi
  let rgn1 : LmbRegion := { rgn with region := Function.update rgn.region k q }
  have htab1 : rgn1.table = rgn.table.take k ++ ⟨p.seg.lo, base.toNat, p.seg.label⟩ ::
      rgn.table.drop (k + 1) := by
    rw [← hq]
    exact LmbRegion.table_update_eq hk
  have hwf1 := (split_wf (htab ▸ hwf.wf) hlo hle hhi).1
  have hWF1 : rgn1.WF := by
    have hfits := hwf.fits
    refine ⟨hwf.cnt_le, htab1 ▸ hwf1, ?_⟩
    rw [htab1]
    rw [htab] at hfits
    simp only [List.forall_mem_append, List.forall_mem_cons] at hfits ⊢
    exact ⟨hfits.1, base.toNat_lt, hfits.2.2⟩
  have hn64 : n.seg.hi < 2 ^ 64 := by rw [hn]; exact hfitk
  obtain ⟨r, rgn', hr, hstep, _⟩ := lmbAddRegion_step (show 0 < rgn1.cnt.toNat from Nat.zero_lt_of_lt hk)
    hwf.cnt_le hWF1.not_dummy hWF1.fits hn64 hWF1.pairwise_lo
  exact ⟨r, rgn', hr, by rwa [hn, htab1] at hstep⟩

/-- **The outcomes of `lmb_free`** on a well-formed reserved table, for a range that is not empty
and does not wrap. When the table is emptied the array still holds the entry that was freed. -/
theorem lmbFree_step {lmb : Lmb} {base size align : UInt64} (hok : lmb.reserved.Ok)
    (hs : 0 < (lmbAlignUp size align).toNat)
    (hfit : base.toNat + (lmbAlignUp size align).toNat < 2 ^ 64) :
    ∃ r lmb', lmbFree lmb base size align = some (r, lmb') ∧ lmb'.memory = lmb.memory ∧
      FreeStep lmb.reserved.table base.toNat (base.toNat + (lmbAlignUp size align).toNat) r
        lmb'.reserved.table ∧
      (lmb'.reserved.cnt = 0 → lmb'.reserved.region = lmb.reserved.region) ∧
      (lmb' = lmb ∨ lmb.reserved.WF) := by
  set s := lmbAlignUp size align with hsdef
  set rgn := lmb.reserved with hrgn
  have hend : (base + s).toNat = base.toNat + s.toNat := by
    rw [UInt64.toNat_add, Nat.mod_eq_of_lt hfit]
  rcases @lmbFree.find_cases rgn base (base + s) hok rgn.cnt.toNat 0 (by omega) with
    ⟨hfind, hno⟩ | ⟨k, hk, hfind, hlo, hhi, -⟩
  · refine ⟨-1, lmb, by rw [lmbFree, hfind], rfl, .refused fun e he h1 h2 => ?_, fun _ => rfl,
      .inl rfl⟩
    obtain ⟨k, hk, rfl⟩ := LmbRegion.mem_table.1 he
    exact absurd ⟨h1, hend ▸ h2⟩ (hno k (by omega) hk)
  rw [hend] at hhi
  have hmem := LmbRegion.seg_mem_table hk
  have hwf : rgn.WF := by
    refine hok.resolve_right fun h => ?_
    rw [h.table_eq, List.mem_singleton] at hmem
    rw [hmem] at hhi
    simp only [LmbProperty.seg_hi, lmbDummy, UInt64.toNat_zero] at hhi
    omega
  have hfitk := hwf.fits _ hmem
  have hrgnend : ((rgn.region k).base + (rgn.region k).size).toNat = (rgn.region k).seg.hi :=
    LmbProperty.toNat_end hfitk
  have htab := LmbRegion.table_eq_append hk
  set p := rgn.region k with hp
  have hne0 : rgn.cnt ≠ 0 := fun h => by rw [h] at hk; exact absurd hk (Nat.not_lt_zero _)
  have hbase : p.base = base ↔ p.seg.lo = base.toNat := UInt64.toNat_inj.symm
  have hends : p.base + p.size = base + s ↔ p.seg.hi = base.toNat + s.toNat := by
    rw [← UInt64.toNat_inj, hrgnend, hend]
  simp only [lmbFree, ← hsdef, ← hrgn, hfind, ← hp]
  by_cases hmmio : p.type = .mmio
  · refine ⟨-1, lmb, by rw [if_pos hmmio], rfl, .refused fun e he h1 h2 => ?_, fun _ => rfl,
      .inl rfl⟩
    -- the range is not empty, so only one entry holds it
    have heq : e = p.seg := hwf.wf.eq_of_mem (x := base.toNat) he hmem ⟨h1, by omega⟩
      ⟨hlo, by omega⟩
    rw [heq]
    exact hmmio
  rw [if_neg hmmio]
  by_cases h1 : p.base = base <;> by_cases h2 : p.base + p.size = base + s
  · obtain ⟨rgn', hr, hc, ht, hreg⟩ := lmbRemoveRegion_eq hk (hwf.cnt_le.trans (Nat.le_succ _))
    refine ⟨0, { lmb with reserved := rgn' }, by rw [if_pos ⟨h1, h2⟩, hr]; rfl, rfl, ?_, ?_, .inr hwf⟩
    · exact ht ▸ .whole htab hmmio (hbase.1 h1) (hends.1 h2)
    · intro h
      have hc0 : rgn.cnt.toNat - 1 = 0 := by rw [← hc, show rgn'.cnt = 0 from h]; rfl
      funext j
      rw [hreg j, if_neg (by omega)]
  · rw [if_neg fun h => h2 h.2, if_pos h1]
    refine ⟨0, _, rfl, rfl, ?_, fun h => absurd h hne0, .inr hwf⟩
    rw [LmbRegion.table_update_eq hk, LmbProperty.front_seg (hbase.1 h1) hend hhi]
    exact .front htab hmmio (hbase.1 h1) (lt_of_le_of_ne hhi fun h => h2 (hends.2 h.symm))
  · rw [if_neg fun h => h1 h.1, if_neg h1, if_pos h2]
    refine ⟨0, _, rfl, rfl, ?_, fun h => absurd h hne0, .inr hwf⟩
    rw [LmbRegion.table_update_eq hk, LmbProperty.back_seg hlo (hends.1 h2)]
    exact .back htab hmmio (lt_of_le_of_ne hlo fun h => h1 (hbase.2 h)) (hends.1 h2)
  · have hlo' : p.seg.lo < base.toNat := lt_of_le_of_ne hlo fun h => h1 (hbase.2 h)
    have hhi' : base.toNat + s.toNat < p.seg.hi :=
      lt_of_le_of_ne hhi fun h => h2 (hends.2 h.symm)
    obtain ⟨r, rgn', hr, hstep⟩ :=
      lmbFree.split_step hwf hk hlo' (show base.toNat ≤ (base + s).toNat by omega)
        (show (base + s).toNat < p.seg.hi by omega)
    refine ⟨r, { lmb with reserved := rgn' }, ?_, rfl, ?_, ?_, .inr hwf⟩
    · rw [if_neg fun h => h1 h.1, if_neg h1, if_neg h2, hr]; rfl
    · rw [hend] at hstep
      exact .split htab hmmio hlo' hhi' hstep
    · intro h
      have hne := hstep.ne_nil (by simp)
      have : rgn'.table.length = 0 := by rw [LmbRegion.length_table, show rgn'.cnt = 0 from h]; rfl
      exact absurd (List.length_eq_zero_iff.1 this) hne

/-- `lmb_free` keeps the reserved table well formed. -/
theorem lmbFree_ok {lmb lmb' : Lmb} {base size align : UInt64} {r : Int} (hok : lmb.reserved.Ok)
    (hs : 0 < (lmbAlignUp size align).toNat)
    (hfit : base.toNat + (lmbAlignUp size align).toNat < 2 ^ 64)
    (h : lmbFree lmb base size align = some (r, lmb')) : lmb'.reserved.Ok := by
  obtain ⟨r', lmb'', h', _, hstep, _, hsame⟩ := lmbFree_step hok hs hfit
  obtain ⟨rfl, rfl⟩ := Prod.mk.inj (Option.some.inj (h.symm.trans h'))
  rcases hsame with rfl | hwf
  · exact hok
  · exact .inl ⟨by simpa using hstep.length_le (by simpa using hwf.cnt_le),
      hstep.wf hwf.wf (by omega), hstep.fits (by omega) hwf.fits⟩

end ShieldLoader
