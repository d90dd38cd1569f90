import ShieldLoader.Lmb.Mmio
import ShieldLoader.Lmb.Named

/-!
# The queries

`lmb_is_known` compares sums that wrap and so accepts a range that wraps around the address space
into the memory entry that it starts in. `lmb_is_reserved` and `lmb_overlaps_region` agree on every
address, except on the table of `lmb_init`, whose dummy entry seems to end at the last address when
its upper bound is computed as inclusive.
-/

namespace ShieldLoader

open Segment

/-! ### Known ranges -/

/-- The range lies in one entry of the memory table. -/
def Lmb.Contains (lmb : Lmb) (base size : Nat) : Prop :=
  ∃ m ∈ lmb.memory.table, m.lo ≤ base ∧ base + size ≤ m.hi

section
variable {lmb : Lmb} {base size : UInt64}

/-- The test of `lmb_is_known`, on an entry that is not empty and does not wrap. -/
theorem lmbIsKnown_eq_true_iff (hwf : lmb.memory.WF) : lmbIsKnown lmb base size = true ↔
    ∃ m ∈ lmb.memory.table, base.toNat ∈ m.ico ∧ m.lo ≤ (base + size).toNat ∧
      (base + size).toNat ≤ m.hi := by
  simp only [lmbIsKnown, List.any_eq_true, List.mem_range, Bool.and_eq_true, decide_eq_true_eq,
    LmbRegion.mem_table, exists_exists_and_eq_and]
  refine exists_congr fun i => and_congr_right fun hi => ?_
  have hmem := LmbRegion.seg_mem_table hi
  have hfit := hwf.fits _ hmem
  have hpos := hwf.wf.proper _ hmem
  have hend := LmbProperty.toNat_end hfit
  have hlast : ((lmb.memory.region i).base + (lmb.memory.region i).size - 1).toNat =
      (lmb.memory.region i).seg.hi - 1 := by
    rw [UInt64.toNat_sub_of_le _ _ (by rw [UInt64.le_iff_toNat_le, UInt64.toNat_one]; omega), hend,
      UInt64.toNat_one]
  simp only [UInt64.le_iff_toNat_le, hlast, hend, mem_ico, ← LmbProperty.seg_lo]
  omega

/-- **`lmb_is_known` is containment in one memory entry**, and `lmb_reserve` accepts no other range,
exactly when the range does not wrap around to the start of the entry it begins in. -/
theorem lmbIsKnown_exact_iff (hwf : lmb.memory.WF) (hsize : 1 ≤ size.toNat) :
    ((lmbIsKnown lmb base size = true ↔ lmb.Contains base.toNat size.toNat) ∧
      ∀ type tag r lmb', lmbReserve lmb base size type tag = some (r, lmb') → 0 ≤ r →
        lmb.Contains base.toNat size.toNat) ↔
    (base.toNat + size.toNat < 2 ^ 64 ∨
      ∀ m ∈ lmb.memory.table, base.toNat ∈ m.ico → base.toNat + size.toNat - 2 ^ 64 < m.lo) := by
  have hbase := base.toNat_lt
  have hsize' := size.toNat_lt
  have hknown := @lmbIsKnown_eq_true_iff lmb base size hwf
  have hwrap : ¬base.toNat + size.toNat < 2 ^ 64 → ¬lmb.Contains base.toNat size.toNat := by
    rintro hw ⟨m, hm, -, hhi⟩
    have := hwf.fits m hm
    omega
  constructor
  · rintro ⟨hiff, -⟩
    refine or_iff_not_imp_left.2 fun hw m hm hin => ?_
    by_contra hlo
    refine hwrap hw (hiff.1 (hknown.2 ⟨m, hm, hin, ?_, ?_⟩))
    · rw [UInt64.toNat_add]
      omega
    · rw [UInt64.toNat_add]
      have := hin.2
      omega
  · intro hcond
    have hiff : lmbIsKnown lmb base size = true ↔ lmb.Contains base.toNat size.toNat := by
      rw [hknown]
      rcases Nat.lt_or_ge (base.toNat + size.toNat) (2 ^ 64) with hfit | hw
      · rw [UInt64.toNat_add, Nat.mod_eq_of_lt hfit]
        refine exists_congr fun m => and_congr_right fun _ => ?_
        simp only [mem_ico]
        omega
      · refine iff_of_false ?_ (hwrap hw.not_gt)
        rintro ⟨m, hm, hin, hlo, -⟩
        have hlt := hcond.resolve_left hw.not_gt m hm hin
        rw [UInt64.toNat_add] at hlo
        omega
    refine ⟨hiff, fun type tag r lmb' hr hr0 => hiff.1 ?_⟩
    by_contra hno
    rcases lmbReserve_inv hr with ⟨rfl, -⟩ | ⟨-, hknown, -⟩
    · exact absurd hr0 (by decide)
    · exact hno hknown

theorem lmbIsKnown_exact_ram :
    (lmbIsKnown lmbRam 0x80001000 0x1000 = true ↔ lmbRam.Contains 0x80001000 0x1000) ∧
      ∀ type tag r lmb', lmbReserve lmbRam 0x80001000 0x1000 type tag = some (r, lmb') → 0 ≤ r →
        lmbRam.Contains 0x80001000 0x1000 :=
  (@lmbIsKnown_exact_iff lmbRam 0x80001000 0x1000 ⟨by decide, by decide, by decide⟩
    (by decide)).2 (.inl (by decide))

/-- A range that wraps around to below its own start, in the one memory entry, is known and is
reserved. -/
theorem lmbIsKnown_wrapped :
    lmbRam.memory.WF ∧ lmbIsKnown lmbRam 0x90000000 0xfffffffff8000000 = true ∧
      ¬lmbRam.Contains 0x90000000 0xfffffffff8000000 ∧
      ∃ r ∈ lmbReserve lmbRam 0x90000000 0xfffffffff8000000 .boot lmbTagNone, 0 ≤ r.1 := by
  refine ⟨⟨by decide, by decide, by decide⟩, by decide, ?_, by decide⟩
  rintro ⟨m, hm, -, hhi⟩
  have hall : ∀ m ∈ lmbRam.memory.table, m.hi < 2 ^ 64 := by decide
  have := hall m hm
  omega

end

/-! ### Reserved addresses -/

section
variable {rgn : LmbRegion} {lmb : Lmb} {a : UInt64}

/-- `lmb_overlaps_region` finds an entry for a single address exactly when one holds it. -/
theorem lmbOverlapsRegion_one_iff (hfits : ∀ s ∈ rgn.table, s.hi < 2 ^ 64)
    (ha : a.toNat + 1 < 2 ^ 64) :
    (lmbOverlapsRegion rgn a 1).isSome ↔ Covers rgn.table a.toNat := by
  rcases @lmbOverlapsRegion_cases rgn a 1 hfits ha with
    ⟨hnone, hfree⟩ | ⟨j, hj, hsome, hhi, hlo⟩
  · rw [hnone]
    refine iff_of_false (by simp) ?_
    rintro ⟨s, hs, h1, h2⟩
    have := hfree s hs
    rw [UInt64.toNat_one] at this
    omega
  · rw [hsome]
    rw [UInt64.toNat_one] at hlo
    exact iff_of_true rfl ⟨_, LmbRegion.seg_mem_table hj, by omega, hhi⟩

/-- So does `lmb_is_reserved`, when no entry is empty. -/
theorem lmbIsReserved_iff (hwf : lmb.reserved.WF) :
    lmbIsReserved lmb a = true ↔ Covers lmb.reserved.table a.toNat := by
  simp only [lmbIsReserved, List.any_eq_true, List.mem_range, Bool.and_eq_true, decide_eq_true_eq,
    Covers, LmbRegion.mem_table, exists_exists_and_eq_and]
  refine exists_congr fun i => and_congr_right fun hi => ?_
  have hmem := LmbRegion.seg_mem_table hi
  have hfit := hwf.fits _ hmem
  have hpos := hwf.wf.proper _ hmem
  have hlast : ((lmb.reserved.region i).base + (lmb.reserved.region i).size - 1).toNat =
      (lmb.reserved.region i).seg.hi - 1 := by
    rw [UInt64.toNat_sub_of_le _ _ (by
      rw [UInt64.le_iff_toNat_le, UInt64.toNat_one, LmbProperty.toNat_end hfit]; omega),
      LmbProperty.toNat_end hfit, UInt64.toNat_one]
  simp only [UInt64.le_iff_toNat_le, hlast, mem_ico, ← LmbProperty.seg_lo]
  omega

/-- The dummy of `lmb_init` makes every address reserved. -/
theorem lmbIsReserved_initial (h : lmb.reserved.Initial) : lmbIsReserved lmb a = true := by
  have hzero : (0 : UInt64) ≤ a := UInt64.le_iff_toNat_le.2 (Nat.zero_le _)
  have hmax : a ≤ 0 + 0 - 1 := UInt64.le_iff_toNat_le.2 (Nat.le_of_lt_succ a.toNat_lt)
  simp only [lmbIsReserved, List.any_eq_true, List.mem_range, Bool.and_eq_true, decide_eq_true_eq]
  refine ⟨0, by rw [h.1]; decide, ?_⟩
  rw [h.2]
  exact ⟨hzero, hmax⟩

end

/-- The allocator with the bytes that are reserved as the results of the calls tell it. -/
structure QueryState where
  lmb : Lmb
  held : Set Nat

namespace LmbCall

/-- The reserved bytes after a call that returned `r`. -/
def holds (held : Set Nat) (r : Int) : LmbCall → Set Nat
  | add .. => held
  | reserve base size .. =>
    if 0 ≤ r then held ∪ Set.Ico base.toNat (base.toNat + size.toNat) else held
  | alloc size align .. =>
    if r ≠ 0 then held ∪ Set.Ico r.toNat (r.toNat + (lmbAlignUp size align).toNat) else held
  | free base size align =>
    if 0 ≤ r then held \ Set.Ico base.toNat (base.toNat + (lmbAlignUp size align).toNat) else held

end LmbCall

/-- A range that is taken becomes the reserved range: an emptied table has no stale entry below it,
or exactly it, and on any other the range is not lost. -/
def LmbRegion.Adds (rgn : LmbRegion) (n : LmbSegment) : Prop :=
  if rgn.cnt = 0 then
    n.lo < (rgn.region 0).seg.lo ∨ n.lo = (rgn.region 0).seg.lo ∧ n.hi = (rgn.region 0).seg.hi
  else ¬Lost rgn.table n

/-- The condition on the effect of a call on the reserved table. -/
def LmbCall.Exact (lmb : Lmb) : LmbCall → Prop
  | .add .. => True
  | .reserve base size type tag => (type = .boot ∨ type = .runtime) → lmbIsKnown lmb base size →
      lmb.reserved.Adds (LmbProperty.mk base size tag type).seg
  | .alloc size align maxAddr type tag => type ≠ .mmio → ∀ b, lmbAllocBase.search lmb
      (lmbAlignUp size align) align maxAddr lmb.memory.cnt.toNat = some b →
        lmb.reserved.Adds (LmbProperty.mk b (lmbAlignUp size align) tag type).seg
  | .free base size align =>
    Tail lmb.reserved.table base.toNat (base.toNat + (lmbAlignUp size align).toNat) Recorded

/-- A call that keeps the reserved table in order and has the effect that it reports, as a step. -/
def QueryStep (s s' : QueryState) : Prop :=
  ∃ c r, (MmioCall.call c).Valid ∧ (MmioCall.call c).Good s.lmb ∧ c.Exact s.lmb ∧
    c.exec s.lmb = some (r, s'.lmb) ∧ s'.held = c.holds s.held r

/-- The invariant: the entries hold the reserved bytes. -/
structure QueryState.Inv (s : QueryState) : Prop where
  memory : s.lmb.memory.Loose
  reserved : s.lmb.reserved.Sound
  held : ∀ x, Covers s.lmb.reserved.table x ↔ x ∈ s.held

/-- A range that is not hidden and is added is in the table exactly when it is not refused. -/
theorem lmbAddRegion_covers {rgn rgn' : LmbRegion} {p : LmbProperty} {r : Int} (hs : rgn.Sound)
    (hn : p.seg.lo < p.seg.hi) (hp : p.seg.hi < 2 ^ 64) (hh : ¬Hides rgn.table p.seg)
    (hadds : rgn.Adds p.seg)
    (h : lmbAddRegion rgn p.base p.size p.type p.tag = some (r, rgn')) :
    rgn'.Sound ∧ ∀ x, Covers rgn'.table x ↔ Covers rgn.table x ∨ 0 ≤ r ∧ x ∈ p.seg.ico := by
  have hs' := (lmbAddRegion_den hs hn hp hh h).1
  refine ⟨hs', fun x => ?_⟩
  by_cases h0 : rgn.cnt = 0
  · rcases lmbAddRegion_empty (p := p) h0 with ⟨-, hnone⟩ | ⟨-, rgn'', hr, -, ht⟩
    · exact absurd (h.symm.trans hnone) (by simp)
    obtain ⟨rfl, rfl⟩ := Prod.mk.inj (Option.some.inj (h.symm.trans hr))
    rw [LmbRegion.Adds, if_pos h0] at hadds
    have hsame : x ∈ (if p.base < (rgn.region 0).base then p.seg else (rgn.region 0).seg).ico ↔
        x ∈ p.seg.ico := by
      split
      · rfl
      · next hb =>
        have heq := hadds.resolve_left fun hlt => hb (UInt64.lt_iff_toNat_lt.2 hlt)
        rw [mem_ico, mem_ico, heq.1, heq.2]
    rw [ht, LmbRegion.table_eq_nil h0, covers_cons, hsame]
    simp
  rw [LmbRegion.Adds, if_neg h0] at hadds
  have hpos := LmbRegion.toNat_cnt_pos.2 h0
  obtain ⟨r', rgn'', hr, -, hov, -⟩ := lmbAddRegion_sound hs hn hp ⟨fun h => absurd h h0, hh⟩
  obtain ⟨rfl, rfl⟩ := Prod.mk.inj (Option.some.inj (h.symm.trans hr))
  by_cases hmeet : ∃ f ∈ rgn.table, p.seg.Overlaps f
  · obtain ⟨rfl, rfl⟩ := hov hmeet
    simp
  · have hdis : ∀ f ∈ rgn.table, ¬p.seg.Overlaps f := fun f hf ho => hmeet ⟨f, hf, ho⟩
    obtain ⟨r', rgn'', hr', hcase⟩ := lmbAddRegion_ok hs.ok hpos hn hp (not_hidden_of_disjoint hdis)
    obtain ⟨rfl, rfl⟩ := Prod.mk.inj (Option.some.inj (h.symm.trans hr'))
    rcases hcase with ⟨rfl, rfl, -⟩ | ⟨-, hr0, -, -, hden, -⟩
    · simp
    · rw [covers_iff_den, (hden.resolve_right fun hl => hadds hl.1).1]
      simp only [hr0, true_and, Set.mem_union, exists_or, ← covers_iff_den, covers_cons, covers_nil,
        or_false]

/-- So is a block of the search, which is free. -/
theorem not_hides_of_freeAt {rgn : LmbRegion} {b s : UInt64} {type : LmbType} {tag : UInt32}
    (h : FreeAt rgn s.toNat b.toNat) : ¬Hides rgn.table (LmbProperty.mk b s tag type).seg := by
  rintro ⟨L, e, R, ht, -, ⟨f, hf, hov⟩, -⟩
  exact not_overlaps_iff.2 (h f (by simp [ht, hf])) hov

section
variable {s : QueryState} {lmb' : Lmb} {r : Int}

theorem QueryStep.inv_reserve {base size : UInt64} {type : LmbType} {tag : UInt32} (h : s.Inv)
    (hv : (MmioCall.call (.reserve base size type tag)).Valid)
    (hg : (MmioCall.call (.reserve base size type tag)).Good s.lmb)
    (he : (LmbCall.reserve base size type tag).Exact s.lmb)
    (hr : lmbReserve s.lmb base size type tag = some (r, lmb')) :
    (QueryState.mk lmb' ((LmbCall.reserve base size type tag).holds s.held r)).Inv := by
  rcases lmbReserve_inv hr with ⟨rfl, rfl⟩ | ⟨htype, hknown, reserved, hr', rfl⟩
  · exact h
  · obtain ⟨hs', hcov⟩ := lmbAddRegion_covers (p := ⟨base, size, tag, type⟩) h.reserved
      (Nat.lt_add_of_pos_right hv.1) hv.2 (hg htype hknown) (he htype hknown) hr'
    refine ⟨h.memory, hs', fun x => ?_⟩
    rw [hcov, h.held, LmbCall.holds]
    split_ifs with hr0
    · simp [hr0]
    · simp [hr0]

theorem QueryStep.inv_alloc {size align maxAddr b : UInt64} {type : LmbType} {tag : UInt32}
    (h : s.Inv) (hv : (MmioCall.call (.alloc size align maxAddr type tag)).Valid)
    (hg : (MmioCall.call (.alloc size align maxAddr type tag)).Good s.lmb)
    (he : (LmbCall.alloc size align maxAddr type tag).Exact s.lmb)
    (hr : lmbAllocBase s.lmb size align maxAddr type tag = some (b, lmb')) :
    (QueryState.mk lmb' ((LmbCall.alloc size align maxAddr type tag).holds s.held b.toNat)).Inv := by
  rcases lmbAllocBase_inv hr with ⟨rfl, rfl⟩ | ⟨htype, base, r', reserved, hs, hr', rfl, rfl⟩
  · exact h
  · obtain ⟨hfit, hfree⟩ := lmbAllocBase.search_clear h.memory.fits h.reserved.ok.fits (hg htype) hs
    have hbase : base ≠ 0 := (lmbAllocBase.search_overlaps _ hs).1
    obtain ⟨hs', hcov⟩ := lmbAddRegion_covers (p := ⟨base, lmbAlignUp size align, tag, type⟩)
      h.reserved (Nat.lt_add_of_pos_right hv) hfit (not_hides_of_freeAt hfree) (he htype _ hs) hr'
    refine ⟨h.memory, hs', fun x => ?_⟩
    rw [hcov, h.held, LmbCall.holds]
    by_cases hneg : r' < 0
    · simp [hneg, not_le.2 hneg]
    · have hne : base.toNat ≠ 0 := fun h => hbase (UInt64.toNat_inj.1 h)
      simp [hneg, not_lt.1 hneg, hne]

theorem QueryStep.inv_free {base size align : UInt64} (h : s.Inv)
    (hv : (MmioCall.call (.free base size align)).Valid)
    (he : (LmbCall.free base size align).Exact s.lmb)
    (hr : lmbFree s.lmb base size align = some (r, lmb')) :
    (QueryState.mk lmb' ((LmbCall.free base size align).holds s.held r)).Inv := by
  obtain ⟨r', lmb'', hr', hmem, hstep, -⟩ := lmbFree_step h.reserved.ok hv.1 hv.2
  obtain ⟨rfl, rfl⟩ := Prod.mk.inj (Option.some.inj (hr.symm.trans hr'))
  have hlt : base.toNat < base.toNat + (lmbAlignUp size align).toNat :=
    Nat.lt_add_of_pos_right hv.1
  refine ⟨hmem ▸ h.memory, lmbFree_sound h.reserved hv.1 hv.2 hr, fun x => ?_⟩
  have hcarved : Carved s.lmb.reserved.table base.toNat
      (base.toNat + (lmbAlignUp size align).toNat) r lmb'.reserved.table := by
    rcases h.reserved.ok with hwf | hinit
    · exact (hstep.carved_iff hwf.wf hlt).2 fun L e R hhit _ => he L e R hhit.eq
    · have hno : ∀ e ∈ s.lmb.reserved.table,
          ¬base.toNat + (lmbAlignUp size align).toNat ≤ e.hi := by
        rw [hinit.table_eq]
        simp only [List.mem_singleton, forall_eq, LmbProperty.seg_hi, lmbDummy, UInt64.toNat_zero]
        omega
      obtain ⟨rfl, ht⟩ := hstep.eq_of_not_le hno
      rw [ht]
      exact carved_refused
  rw [LmbCall.holds]
  split_ifs with hr0
  · rw [covers_iff_den, (hcarved.2 hr0).2, Set.mem_sdiff, ← h.held, covers_iff_den]
    simp only [Set.mem_ofPred_eq, exists_and_right, Set.mem_Ico]
  · rw [covers_iff_den, hcarved.1 (not_le.1 hr0), ← covers_iff_den, h.held]

end

/-- Every step keeps the invariant. -/
theorem QueryStep.inv {s s' : QueryState} (hstep : QueryStep s s') (h : s.Inv) : s'.Inv := by
  obtain ⟨c, r, hv, hg, he, hr, hheld⟩ := hstep
  obtain ⟨lmb', held'⟩ := s'
  simp only at hr hheld
  subst hheld
  cases c with
  | add base size tag =>
    obtain ⟨⟨ret, memory⟩, hmem, heq⟩ := Option.bind_eq_some_iff.1 hr
    obtain ⟨-, rfl⟩ := Prod.mk.inj (Option.some.inj heq)
    obtain ⟨ret', memory', hmem', hloose, -⟩ :=
      lmbAddRegion_loose (p := ⟨base, size, tag, .free⟩) h.memory hv.2
    obtain ⟨-, rfl⟩ := Prod.mk.inj (Option.some.inj (hmem.symm.trans hmem'))
    exact ⟨hloose, h.reserved, h.held⟩
  | reserve => exact QueryStep.inv_reserve h hv hg he hr
  | alloc =>
    obtain ⟨⟨b, lmb''⟩, hb, heq⟩ := Option.map_eq_some_iff.1 hr
    obtain ⟨rfl, rfl⟩ := Prod.mk.inj heq
    exact QueryStep.inv_alloc h hv hg he hb
  | free => exact QueryStep.inv_free h hv he hr

/-- **The two queries agree on every address but the last**, and say which bytes are reserved, in
every state that a run of good calls reaches, exactly when the reserved table is no longer the one
of `lmb_init`. -/
theorem queries_agree_of_run {lmb₀ : Lmb} {s : QueryState}
    (h : Relation.ReflTransGen QueryStep ⟨lmbInit lmb₀, ∅⟩ s) :
    (∀ a : UInt64, a.toNat < 2 ^ 64 - 1 →
      (lmbIsReserved s.lmb a = true ↔ (lmbOverlapsRegion s.lmb.reserved a 1).isSome) ∧
        ((lmbOverlapsRegion s.lmb.reserved a 1).isSome ↔ a.toNat ∈ s.held)) ↔
      ¬s.lmb.reserved.Initial := by
  have hinv : s.Inv := by
    induction h with
    | refl =>
      obtain ⟨hm, hr⟩ := lmbInit_initial lmb₀
      refine ⟨hm.loose, hr.sound, fun x => ?_⟩
      rw [covers_iff_den, hr.den_table]
      simp
    | tail _ hstep ih => exact hstep.inv ih
  constructor
  · intro hall hinit
    have h0 : (0 : UInt64).toNat < 2 ^ 64 - 1 := by decide
    have hsome := (hall 0 h0).1.1 (lmbIsReserved_initial hinit)
    rw [lmbOverlapsRegion_one_iff hinv.reserved.ok.fits (by decide), covers_iff_den,
      hinit.den_table] at hsome
    simp at hsome
  · intro hinit a ha
    have hwf := hinv.reserved.ok.resolve_right hinit
    have hone := lmbOverlapsRegion_one_iff hwf.fits (a := a) (by omega)
    refine ⟨?_, ?_⟩
    · rw [lmbIsReserved_iff hwf, hone]
    · rw [hone, hinv.held]

theorem queries_agree_of_run_reserve :
    let ram : LmbCall := .add 0x80000000 0x40000000 (lmbTag 'R' 'A' 'M' 'R')
    let image : LmbCall := .reserve 0x80000000 0x3000 .boot lmbTagNone
    ∃ r₁ ∈ ram.exec (lmbInit lmbZero), ∃ r₂ ∈ image.exec r₁.2, ∀ a : UInt64, a.toNat < 2 ^ 64 - 1 →
      (lmbIsReserved r₂.2 a = true ↔ (lmbOverlapsRegion r₂.2.reserved a 1).isSome) ∧
        ((lmbOverlapsRegion r₂.2.reserved a 1).isSome ↔ a.toNat ∈ image.holds ∅ r₂.1) := by
  intro ram image
  have hrun : ∃ r₁ ∈ ram.exec (lmbInit lmbZero), ∃ r₂ ∈ image.exec r₁.2,
      r₁.2.reserved.cnt = 1 ∧ r₁.2.reserved.region 0 = lmbDummy ∧
      r₂.2.reserved.table = [⟨0x80000000, 0x80003000, .boot, lmbTagNone⟩] := by decide
  obtain ⟨⟨r₁, lmb₁⟩, e₁, ⟨r₂, lmb₂⟩, e₂, hcnt, hdummy, ht⟩ := hrun
  have hinit : lmb₁.reserved.Initial := ⟨hcnt, hdummy⟩
  have h₁ : QueryStep ⟨lmbInit lmbZero, ∅⟩ ⟨lmb₁, ∅⟩ :=
    ⟨ram, r₁, ⟨by decide, by decide⟩, trivial, trivial, e₁, rfl⟩
  have h₂ : QueryStep ⟨lmb₁, ∅⟩ ⟨lmb₂, image.holds ∅ r₂⟩ := by
    refine ⟨image, r₂, ⟨by decide, by decide⟩, fun _ _ => ?_, fun _ _ => ?_, e₂, rfl⟩
    · rintro ⟨L, e, R, heq, -, ⟨f, hf, hov⟩, -⟩
      exact hinit.not_overlaps f (by simp [heq, hf]) hov
    · rw [LmbRegion.Adds, if_neg (show ¬lmb₁.reserved.cnt = 0 by rw [hcnt]; decide)]
      exact fun hl => (hl.wf (.inr hinit)).not_dummy ⟨hcnt, by rw [hdummy]; rfl⟩
  refine ⟨_, e₁, _, e₂, (queries_agree_of_run (.tail (.single h₁) h₂)).2 fun h => ?_⟩
  rw [h.table_eq] at ht
  exact absurd ht (by decide)

/-- Before anything is reserved, an address is reserved and overlaps no entry. -/
theorem queries_disagree_initially :
    ¬(lmbIsReserved (lmbInit lmbZero) 0x1000 = true ↔
      (lmbOverlapsRegion (lmbInit lmbZero).reserved 0x1000 1).isSome) := by
  decide

end ShieldLoader
