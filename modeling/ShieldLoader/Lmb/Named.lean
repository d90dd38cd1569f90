import ShieldLoader.Lmb.Mmio
import ShieldLoader.Lmb.Request

/-!
# What a call names and what it does

A call of `lmb_free` or `lmb_alloc_base` names a range: an address, and a size that is rounded up.
This is about calls that report success, for every size and alignment: does the range that the call
names leave the reserved table, or enter it?
-/

namespace ShieldLoader

open Segment

/-- `size` rounded up as `lmb_align_up` does it, without wrapping. -/
def maskUp (size align : Nat) : Nat :=
  if align = 0 then size else size + align - 1 - ((size + align - 1) &&& (align - 1))

/-- The `n` bytes at `lo` were entered in `t`, and are not entered in `t'`. -/
def Removed (t : List LmbSegment) (lo n : Nat) (t' : List LmbSegment) : Prop :=
  ∀ x, lo ≤ x → x < lo + n → Covers t x ∧ ¬Covers t' x

/-- The `n` bytes at `lo` are addresses, were not entered in `t`, and are in `t'`. -/
def Added (t : List LmbSegment) (lo n : Nat) (t' : List LmbSegment) : Prop :=
  n = 0 ∨ lo + n < 2 ^ 64 ∧ ∀ x, lo ≤ x → x < lo + n → ¬Covers t x ∧ Covers t' x

/-- There is something for `lmb_free` to remove: one entry that is not `LMB_MMIO` holds the range. -/
def Removable (lmb : Lmb) (base size align : UInt64) : Prop :=
  let n := maskUp size.toNat align.toNat
  n = 0 ∨ align ≠ 0 ∧ ∃ e ∈ lmb.reserved.table, e.label.1 ≠ .mmio ∧ e.lo ≤ base.toNat ∧
    base.toNat + n ≤ e.hi

/-- `lmb_add_region` lists a range that it does not refuse: it is not lost, and on an emptied table
it is below the stale first entry or inside it. -/
def LmbRegion.Lists (rgn : LmbRegion) (n : LmbSegment) : Prop :=
  if rgn.cnt = 0 then n.lo < (rgn.region 0).seg.lo ∨ n.Inside (rgn.region 0).seg
  else ¬Lost rgn.table n

/-- The block `b` that `lmb_alloc_base` takes is listed in the reserved table. -/
def BlockListed (lmb : Lmb) (size align : UInt64) (type : LmbType) (tag : UInt32) (b : UInt64) :
    Prop :=
  let n := maskUp size.toNat align.toNat
  n = 0 ∨ b.toNat + n < 2 ^ 64 ∧ lmb.reserved.Lists ⟨b.toNat, b.toNat + n, type, tag⟩

/-! ### Rounding -/

section
variable {size align : UInt64}

theorem lmbAlignUp_zero_right : lmbAlignUp size 0 = 0 := by
  rw [lmbAlignUp]
  exact UInt64.and_zero

theorem lmbAlignUp_eq_maskUp (h0 : align ≠ 0) (h : size.toNat + align.toNat - 1 < 2 ^ 64) :
    (lmbAlignUp size align).toNat = maskUp size.toNat align.toNat := by
  have hpos : align.toNat ≠ 0 := fun h => h0 (UInt64.toNat_inj.1 h)
  have h1 : (align - 1).toNat = align.toNat - 1 := by
    rw [UInt64.toNat_sub_of_le _ _ (by rw [UInt64.le_iff_toNat_le, UInt64.toNat_one]; omega),
      UInt64.toNat_one]
  have hsum : (size + align - 1).toNat = size.toNat + align.toNat - 1 := by
    rw [UInt64.toNat_sub, UInt64.toNat_add, UInt64.toNat_one]
    have := size.toNat_lt
    have := align.toNat_lt
    omega
  rw [lmbAlignUp, UInt64.toNat_and_not, hsum, h1, maskUp, if_neg hpos]

/-- A size whose rounding wraps names more than there are addresses. -/
theorem le_maskUp_of_wrap (h : 2 ^ 64 ≤ size.toNat + align.toNat - 1) :
    2 ^ 64 ≤ maskUp size.toNat align.toNat := by
  have hs := size.toNat_lt
  have ha := align.toNat_lt
  have hpos : align.toNat ≠ 0 := by omega
  rw [maskUp, if_neg hpos]
  set x := size.toNat + align.toNat - 1 with hx
  -- the mask leaves the bit above the word alone
  have hmod : x &&& (align.toNat - 1) = x % 2 ^ 64 &&& (align.toNat - 1) := by
    apply Nat.eq_of_testBit_eq
    intro i
    rw [Nat.testBit_and, Nat.testBit_and, Nat.testBit_mod_two_pow]
    by_cases hi : i < 64
    · simp [hi]
    · have : (align.toNat - 1).testBit i = false :=
        Nat.testBit_lt_two_pow
          (lt_of_lt_of_le (by omega) (Nat.pow_le_pow_right (by norm_num) (not_lt.1 hi)))
      simp [this]
  have hle := Nat.and_le_left (n := x % 2 ^ 64) (m := align.toNat - 1)
  rw [hmod]
  omega

/-- What the code makes of a size. -/
theorem maskUp_cases (size align : UInt64) :
    (lmbAlignUp size align).toNat = maskUp size.toNat align.toNat ∧ align ≠ 0 ∨
      align = 0 ∧ lmbAlignUp size align = 0 ∧ maskUp size.toNat align.toNat = size.toNat ∨
      2 ^ 64 ≤ maskUp size.toNat align.toNat := by
  by_cases h0 : align = 0
  · subst h0
    exact .inr (.inl ⟨rfl, lmbAlignUp_zero_right, rfl⟩)
  · rcases Nat.lt_or_ge (size.toNat + align.toNat - 1) (2 ^ 64) with h | h
    · exact .inl ⟨lmbAlignUp_eq_maskUp h0 h, h0⟩
    · exact .inr (.inr (le_maskUp_of_wrap h))

end

/-! ### Freeing -/

section
variable {t t' : List LmbSegment} {lo hi : Nat} {r : Int}

/-- `lmb_add_region` adds no points but those of the range. -/
theorem AddStep.den_subset {n : LmbSegment} (h : AddStep t n r t') (hwf : Segment.WF t)
    (hn : n.lo < n.hi) (hh : ¬Hidden t n) : den t' ⊆ den t ∪ den [n] := by
  rcases h.cases_wf hwf hn hh with ⟨-, rfl, -⟩ | ⟨-, -, -, ⟨hden, -⟩ | ⟨-, hden⟩⟩
  · exact Set.subset_union_left
  · exact hden.subset
  · exact hden.subset.trans Set.subset_union_left

/-- **A range leaves the table exactly when it lies in one entry that is not `LMB_MMIO`.** -/
theorem FreeStep.removed_iff (h : FreeStep t lo hi r t') (hwf : Segment.WF t) (hlt : lo < hi) :
    (∀ x, lo ≤ x → x < hi → Covers t x ∧ ¬Covers t' x) ↔
      ∃ e ∈ t, e.label.1 ≠ .mmio ∧ e.lo ≤ lo ∧ hi ≤ e.hi := by
  -- an entry that is cut, and what is left of it beside the range
  have hcut : ∀ {L R : List LmbSegment} {e : LmbSegment}, t = L ++ e :: R → e.lo ≤ lo → hi ≤ e.hi →
      (∀ x k, (x, k) ∈ den t' → (x, k) ∈ den (L ++ R) ∨ x < lo ∨ hi ≤ x) →
      ∀ x, lo ≤ x → x < hi → Covers t x ∧ ¬Covers t' x := by
    rintro L R e rfl h1 h2 hsub x hx1 hx2
    have hx : x ∈ e.ico := ⟨h1.trans hx1, hx2.trans_le h2⟩
    refine ⟨⟨e, by simp, hx⟩, fun hc => ?_⟩
    obtain ⟨k, hk⟩ := covers_iff_den.1 hc
    rcases hsub x k hk with h | h | h
    · exact hwf.not_mem_den_erase hx h
    · exact absurd hx1 h.not_ge
    · exact absurd hx2 h.not_gt
  cases h with
  | refused hno =>
    refine iff_of_false (fun h => (h lo le_rfl hlt).2 (h lo le_rfl hlt).1) ?_
    rintro ⟨e, he, hm, h1, h2⟩
    exact hm (hno e he h1 h2)
  | @whole L e R h hm h1 h2 =>
    refine iff_of_true (hcut h h1.le h2.ge fun x k hk => .inl hk) ?_
    exact ⟨e, by simp [h], hm, h1.le, h2.ge⟩
  | @front L e R h hm h1 h2 =>
    refine iff_of_true (hcut h h1.le h2.le fun x k hk => ?_) ⟨e, by simp [h], hm, h1.le, h2.le⟩
    rw [den_middle] at hk
    rcases hk with hk | hk
    · exact .inl hk
    · simp only [mem_den_cons, den_nil, Set.mem_empty_iff_false, or_false, mem_ico] at hk
      exact .inr (.inr hk.1.1)
  | @back L e R h hm h1 h2 =>
    refine iff_of_true (hcut h h1.le h2.ge fun x k hk => ?_) ⟨e, by simp [h], hm, h1.le, h2.ge⟩
    rw [den_middle] at hk
    rcases hk with hk | hk
    · exact .inl hk
    · simp only [mem_den_cons, den_nil, Set.mem_empty_iff_false, or_false, mem_ico] at hk
      exact .inr (.inl hk.1.2)
  | @split L e R r t' h hm h1 h2 hadd =>
    refine iff_of_true (hcut h h1.le h2.le fun x k hk => ?_) ⟨e, by simp [h], hm, h1.le, h2.le⟩
    obtain ⟨hwf', hdis⟩ := split_wf (h ▸ hwf) h1 hlt.le h2
    have hsub := hadd.den_subset hwf' h2 (not_hidden_of_disjoint hdis) hk
    rw [den_middle] at hsub
    simp only [Set.mem_union, mem_den_cons, den_nil, Set.mem_empty_iff_false, or_false, mem_ico]
      at hsub
    rcases hsub with (hsub | hsub) | hsub
    · exact .inl hsub
    · exact .inr (.inl hsub.1.2)
    · exact .inr (.inr hsub.1.1)

end

section
variable {lmb lmb' : Lmb} {base size align : UInt64} {r : Int}

/-- No entry reaches the end of the addresses. -/
theorem not_covers_top {rgn : LmbRegion} (hok : rgn.Ok) : ¬Covers rgn.table (2 ^ 64 - 1) := by
  rintro ⟨e, he, -, hx⟩
  have := hok.fits e he
  omega

theorem exists_lmbFree_eq_some (hok : lmb.reserved.Ok) (base size align : UInt64) :
    ∃ r lmb', lmbFree lmb base size align = some (r, lmb') := by
  by_cases h0 : lmbAlignUp size align = 0
  · obtain ⟨r, lmb', h, -⟩ := @lmbFree_nothing lmb base size align hok h0
    exact ⟨r, lmb', h⟩
  rcases Nat.lt_or_ge (base.toNat + (lmbAlignUp size align).toNat) (2 ^ 64) with hfit | hwrap
  · have hpos : 0 < (lmbAlignUp size align).toNat :=
      Nat.pos_of_ne_zero fun h => h0 (UInt64.toNat_inj.1 h)
    obtain ⟨r, lmb', h, -⟩ := lmbFree_step hok hpos hfit
    exact ⟨r, lmb', h⟩
  · obtain ⟨r, lmb', h, -⟩ := lmbFree_wrapped hok hwrap
    exact ⟨r, lmb', h⟩

/-- **The range that a free names leaves the table exactly when there is something to remove.** -/
theorem lmbFree_removed_iff (hok : lmb.reserved.Ok)
    (h : lmbFree lmb base size align = some (r, lmb')) :
    Removed lmb.reserved.table base.toNat (maskUp size.toNat align.toNat) lmb'.reserved.table ↔
      Removable lmb base size align := by
  by_cases h0 : maskUp size.toNat align.toNat = 0
  · refine iff_of_true (fun x h1 h2 => ?_) (.inl h0)
    rw [h0, Nat.add_zero] at h2
    exact absurd h1 h2.not_ge
  have hne : Removable lmb base size align ↔ align ≠ 0 ∧ ∃ e ∈ lmb.reserved.table,
      e.label.1 ≠ .mmio ∧ e.lo ≤ base.toNat ∧ base.toNat + maskUp size.toNat align.toNat ≤ e.hi :=
    or_iff_right h0
  rw [hne]
  have hbase := base.toNat_lt
  rcases Nat.lt_or_ge (base.toNat + maskUp size.toNat align.toNat) (2 ^ 64) with hfit | hwrap
  · rcases maskUp_cases size align with ⟨hs, ha⟩ | ⟨ha, hs, -⟩ | hbig
    · obtain ⟨r', lmb'', hr, -, hstep, -⟩ := lmbFree_step hok (by omega) (hs ▸ hfit)
      obtain ⟨rfl, rfl⟩ := Prod.mk.inj (Option.some.inj (h.symm.trans hr))
      rw [hs] at hstep
      rw [and_iff_right ha]
      rcases hok with hwf | hinit
      · exact hstep.removed_iff hwf.wf (by omega)
      · -- the dummy holds nothing
        have hno : ∀ e ∈ lmb.reserved.table,
            ¬base.toNat + maskUp size.toNat align.toNat ≤ e.hi := by
          rw [hinit.table_eq]
          simp only [List.mem_singleton, forall_eq, LmbProperty.seg_hi, lmbDummy,
            UInt64.toNat_zero]
          omega
        obtain ⟨-, ht⟩ := hstep.eq_of_not_le hno
        rw [ht]
        refine iff_of_false (fun hrem => ?_) fun hrem => ?_
        · obtain ⟨hc, hn⟩ := hrem base.toNat le_rfl (by omega)
          exact hn hc
        · obtain ⟨e, he, -, -, h2⟩ := hrem
          exact hno e he h2
    · obtain ⟨r', lmb'', hr, -, hden, -⟩ := @lmbFree_nothing lmb base size align hok hs
      obtain ⟨rfl, rfl⟩ := Prod.mk.inj (Option.some.inj (h.symm.trans hr))
      refine iff_of_false (fun hrem => ?_) fun hc => hc.1 ha
      obtain ⟨hc, hn⟩ := hrem base.toNat le_rfl (by omega)
      rw [covers_iff_den, hden, ← covers_iff_den] at hn
      exact hn hc
    · omega
  · refine iff_of_false (fun hrem => ?_) ?_
    · exact not_covers_top hok (hrem (2 ^ 64 - 1) (by omega) (by omega)).1
    · rintro ⟨-, e, he, -, -, hle⟩
      have := hok.fits e he
      omega

end

/-! ### Allocating -/

section
variable {rgn rgn' : LmbRegion} {p : LmbProperty} {r : Int}

/-- The table of `lmb_init` has too few entries to lose a range. -/
theorem Lost.wf {n : LmbSegment} (h : Lost rgn.table n) (hok : rgn.Ok) : rgn.WF := by
  refine hok.resolve_right fun hinit => ?_
  obtain ⟨L, e, f, R, heq, -⟩ := h
  have := congrArg List.length heq
  rw [hinit.table_eq] at this
  simp at this
  omega

/-- A range that `lmb_add_region` does not refuse is in the table after it exactly when the table
lists it. -/
theorem covers_iff_lists (hok : rgn.Ok) (hn : p.seg.lo < p.seg.hi) (hp : p.seg.hi < 2 ^ 64)
    (hdis : ∀ f ∈ rgn.table, ¬p.seg.Overlaps f)
    (h : lmbAddRegion rgn p.base p.size p.type p.tag = some (r, rgn')) (hr : 0 ≤ r) :
    (∀ x ∈ p.seg.ico, Covers rgn'.table x) ↔ rgn.Lists p.seg := by
  by_cases h0 : rgn.cnt = 0
  · rcases lmbAddRegion_empty (p := p) h0 with ⟨-, hnone⟩ | ⟨-, rgn'', hadd, -, ht⟩
    · exact absurd (h.symm.trans hnone) (by simp)
    obtain ⟨rfl, rfl⟩ := Prod.mk.inj (Option.some.inj (h.symm.trans hadd))
    rw [LmbRegion.Lists, if_pos h0, ht]
    simp only [covers_cons, covers_nil, or_false]
    by_cases hb : p.base < (rgn.region 0).base
    · rw [if_pos hb]
      exact iff_of_true (fun x hx => hx) (.inl (UInt64.lt_iff_toNat_lt.1 hb))
    · have hb' : ¬p.seg.lo < (rgn.region 0).seg.lo := fun hlt => hb (UInt64.lt_iff_toNat_lt.2 hlt)
      rw [if_neg hb, or_iff_right hb']
      refine ⟨fun hc => ?_, fun hin x hx => hin.mem hx⟩
      have h1 := hc p.seg.lo ⟨le_rfl, hn⟩
      have h2 := hc (p.seg.hi - 1) ⟨by omega, by omega⟩
      exact ⟨h1.1, by have := h2.2; omega⟩
  · rw [LmbRegion.Lists, if_neg h0]
    have hpos := LmbRegion.toNat_cnt_pos.2 h0
    constructor
    · intro hc hlost
      have hwf := hlost.wf hok
      obtain ⟨r', rgn'', hadd, hstep, -⟩ :=
        lmbAddRegion_step hpos hwf.cnt_le hwf.not_dummy hwf.fits hp hwf.pairwise_lo
      obtain ⟨rfl, rfl⟩ := Prod.mk.inj (Option.some.inj (h.symm.trans hadd))
      obtain ⟨-, hden⟩ := hstep.eq_of_lost hwf.wf hlost hdis
      have hlo : p.seg.lo ∈ p.seg.ico := ⟨le_rfl, hn⟩
      have hcov := hc _ hlo
      rw [covers_iff_den, hden, ← covers_iff_den] at hcov
      obtain ⟨f, hf, hx⟩ := hcov
      exact hdis f hf (.of_mem hlo hx)
    · intro hl x hx
      obtain ⟨r', rgn'', hadd, hcase⟩ :=
        lmbAddRegion_ok hok hpos hn hp (not_hidden_of_disjoint hdis)
      obtain ⟨rfl, rfl⟩ := Prod.mk.inj (Option.some.inj (h.symm.trans hadd))
      rcases hcase with ⟨rfl, -⟩ | ⟨-, -, -, -, hden, -⟩
      · exact absurd hr (by decide)
      · rw [covers_iff_den, (hden.resolve_right fun hlost => hl hlost.1).1]
        exact ⟨p.seg.label, .inr ⟨p.seg, by simp, hx, rfl⟩⟩

end

section
variable {lmb lmb' : Lmb} {size align maxAddr b : UInt64} {type : LmbType} {tag : UInt32}

/-- Nothing is a multiple of `0` in the eyes of `lmb_align_down`. -/
theorem lmbAllocBase.search_zero_right (n : Nat) :
    search lmb size 0 maxAddr n = none := by
  have hdown : ∀ x, lmbAlignDown x 0 = 0 := fun x => UInt64.and_zero
  induction n with
  | zero => rfl
  | succ n ih =>
    rw [search]
    cases hst : start (lmb.memory.region n) size 0 maxAddr with
    | none => exact ih
    | some base =>
      have hbase : base = 0 := by
        rw [start] at hst
        split_ifs at hst
        all_goals exact (Option.some.inj hst).symm.trans (hdown _)
      subst hbase
      exact ih

/-- A call of `lmb_alloc_base` that returns `0` leaves the tables as they are. -/
theorem lmbAllocBase_eq_of_zero
    (h : lmbAllocBase lmb size align maxAddr type tag = some (0, lmb')) : lmb' = lmb := by
  rcases lmbAllocBase_inv h with ⟨-, rfl⟩ | ⟨-, base, r, reserved, hs, hadd, h0, rfl⟩
  · rfl
  by_cases hr : r < 0
  · rw [lmbAddRegion_eq_of_neg (p := ⟨base, lmbAlignUp size align, tag, type⟩) hadd hr]
  · rw [if_neg hr] at h0
    exact absurd h0.symm (lmbAllocBase.search_overlaps _ hs).1

/-- **The block that an allocation names enters the table exactly when it is listed.** -/
theorem lmbAllocBase_added_iff (hok : lmb.reserved.Ok)
    (h : lmbAllocBase lmb size align maxAddr type tag = some (b, lmb')) (hb : b ≠ 0) :
    Added lmb.reserved.table b.toNat (maskUp size.toNat align.toNat) lmb'.reserved.table ↔
      BlockListed lmb size align type tag b := by
  rw [Added, BlockListed]
  refine or_congr_right' fun h0 => and_congr_right fun hfit => ?_
  rcases lmbAllocBase_inv h with ⟨h0, -⟩ | ⟨-, base, r, reserved, hs, hadd, rfl, rfl⟩
  · exact absurd h0 hb
  · have hr : ¬r < 0 := fun hr => hb (if_pos hr)
    rw [if_neg hr] at hfit ⊢
    rcases maskUp_cases size align with ⟨hsize, -⟩ | ⟨rfl, -⟩ | hbig
    · set p : LmbProperty := ⟨base, lmbAlignUp size align, tag, type⟩ with hp
      have hseg : p.seg =
          ⟨base.toNat, base.toNat + maskUp size.toNat align.toNat, type, tag⟩ := by
        rw [← hsize]
        rfl
      have hhi : p.seg.hi < 2 ^ 64 := hseg ▸ hfit
      have hdis : ∀ f ∈ lmb.reserved.table, ¬p.seg.Overlaps f := by
        intro f hf
        obtain ⟨i, hi, rfl⟩ := LmbRegion.mem_table.1 hf
        have hov := lmbOverlapsRegion_eq_none.1 (lmbAllocBase.search_overlaps _ hs).2 i hi
        rw [← lmbAddrsOverlap_iff hhi (hok.fits _ hf)]
        exact Bool.eq_false_iff.1 hov
      rw [← hseg, ← covers_iff_lists hok ?_ hhi hdis hadd (not_lt.1 hr)]
      · refine ⟨fun hall x hx => ?_, fun hall x h1 h2 => ⟨?_, hall x ?_⟩⟩
        · rw [hseg] at hx
          exact (hall x hx.1 hx.2).2
        · rintro ⟨f, hf, hx⟩
          refine hdis f hf (.of_mem (x := x) ?_ hx)
          rw [hseg]
          exact ⟨h1, h2⟩
        · rw [hseg]
          exact ⟨h1, h2⟩
      · rw [hseg]
        show base.toNat < base.toNat + _
        omega
    · rw [lmbAllocBase.search_zero_right] at hs
      exact absurd hs (by simp)
    · omega

end

end ShieldLoader
