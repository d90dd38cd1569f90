import ShieldLoader.Lmb.Release
import ShieldLoader.Boot.Loose

/-!
# `LMB_MMIO` ranges

`lmb_add_mmio` adds a range to the memory table and then, only when that returned `0`, to the
reserved table. A range that the memory table joins to one of its entries is reported as added but
never reserved. Runs of the other calls keep every added range out of reach.
-/

namespace ShieldLoader

open Segment

/-- The byte is in an entry of the reserved table of type `LMB_MMIO`. -/
def Lmb.IsMmio (lmb : Lmb) (x : Nat) : Prop :=
  ∃ e ∈ lmb.reserved.table, e.label.1 = .mmio ∧ x ∈ e.ico

instance (lmb : Lmb) (x : Nat) : Decidable (lmb.IsMmio x) :=
  inferInstanceAs (Decidable (∃ e ∈ lmb.reserved.table, _))

/-- `lmb_add_region` reports success for `n` without an entry of its own for it: it extends the
first entry near `n`, or merges that entry with its successor. -/
def LmbRegion.Coalesces (rgn : LmbRegion) (n : LmbSegment) : Prop :=
  ¬(rgn.cnt = 1 ∧ (rgn.region 0).size = 0) ∧ ∃ L e R, rgn.table = L ++ e :: R ∧
    (∀ l ∈ L, n.Clear l) ∧ ¬n.Overlaps e ∧ n.Touches e ∧
    (n.label = e.label ∨ ∃ f ∈ R.head?, e.Mergeable f)

/-- `lmb_add_region` gives `n` an entry of its own. -/
def LmbRegion.Inserts (rgn : LmbRegion) (n : LmbSegment) : Prop :=
  (rgn.cnt = 1 ∧ (rgn.region 0).size = 0) ∨ Fresh rgn.table n ∧ rgn.table.length < maxLmbRegions

/-- `lmb_add_region` records the points of `n`. A table that was emptied does so only below its
stale entry. -/
def LmbRegion.Enters (rgn : LmbRegion) (n : LmbSegment) : Prop :=
  if rgn.cnt = 0 then n.lo < (rgn.region 0).seg.lo
  else (∀ f ∈ rgn.table, ¬n.Overlaps f) ∧ Recorded rgn.table n

/-! ### Additions to one table -/

section
variable {rgn rgn' : LmbRegion} {p : LmbProperty} {r : Int}

theorem lmbAddRegion.grow_fst {q : LmbProperty} {size : UInt64} {type : LmbType} {tag : UInt32}
    {adjacent : Int} (h : (grow q size type tag adjacent).2 = 0) :
    (grow q size type tag adjacent).1 = q := by
  rw [grow] at h ⊢
  split_ifs at h ⊢ <;> rfl

/-- A refused range leaves the table alone, whatever the table. -/
theorem lmbAddRegion_eq_of_neg
    (h : lmbAddRegion rgn p.base p.size p.type p.tag = some (r, rgn')) (hr : r < 0) :
    rgn' = rgn := by
  rw [lmbAddRegion] at h
  split_ifs at h with hd
  · obtain ⟨rfl, -⟩ := Prod.mk.inj (Option.some.inj h)
    exact absurd hr (by decide)
  rcases hscan : lmbAddRegion.scan rgn p.base p.size 0 rgn.cnt.toNat with _ | ⟨i, adjacent⟩
  · simp only [hscan] at h
    exact (Prod.mk.inj (Option.some.inj h)).2.symm
  simp only [hscan] at h
  obtain ⟨⟨rgn1, c⟩, hmerge, heq⟩ := Option.bind_eq_some_iff.1 h
  simp only [Option.pure_def, Option.some.injEq] at heq
  have hfst := @lmbAddRegion.grow_fst (rgn.region i) p.size p.type p.tag adjacent
  generalize lmbAddRegion.grow (rgn.region i) p.size p.type p.tag adjacent = g at hmerge hfst
  by_cases hc : c = 0
  · -- nothing was merged, so nothing was extended
    subst hc
    have hgrow : g.2 = 0 ∧ rgn1 = { rgn with region := Function.update rgn.region i g.1 } := by
      rw [lmbAddRegion.merge] at hmerge
      split_ifs at hmerge with hm
      · obtain ⟨rgn2, -, heq2⟩ := Option.bind_eq_some_iff.1 hmerge
        simp at heq2
      · obtain ⟨h1, h2⟩ := Prod.mk.inj (Option.some.inj hmerge)
        exact ⟨h2, h1.symm⟩
    obtain ⟨h0, rfl⟩ := hgrow
    simp only [ne_eq, not_true_eq_false, if_false, hfst h0, Function.update_eq_self,
      lmbAddRegion.place] at heq
    split at heq
    · exact (Prod.mk.inj heq).2.symm
    · obtain ⟨rfl, -⟩ := Prod.mk.inj heq
      exact absurd hr (by decide)
  · simp only [if_pos hc, Prod.mk.injEq] at heq
    omega

/-- What a table in which entries may overlap does with a range that it does not refuse. -/
theorem lmbAddRegion_coalesces_or_inserts (hl : rgn.Loose) (hp : p.seg.hi < 2 ^ 64)
    (h : lmbAddRegion rgn p.base p.size p.type p.tag = some (r, rgn')) (hr : 0 ≤ r) :
    rgn.Coalesces p.seg ∧ r ≠ 0 ∨ rgn.Inserts p.seg ∧ r = 0 := by
  by_cases hd : rgn.cnt = 1 ∧ (rgn.region 0).size = 0
  · rw [lmbAddRegion, if_pos hd] at h
    exact .inr ⟨.inl hd, (Prod.mk.inj (Option.some.inj h)).1.symm⟩
  obtain ⟨r', rgn'', h', hstep, -⟩ := lmbAddRegion_step hl.pos hl.cnt_le hd hl.fits hp hl.sorted
  obtain ⟨rfl, rfl⟩ := Prod.mk.inj (Option.some.inj (h.symm.trans h'))
  generalize htab : rgn'.table = t' at hstep
  cases hstep with
  | overlap | full => omega
  | grow heq hL ho ht hlab =>
    exact .inl ⟨⟨hd, _, _, _, heq, hL, ho, ht, .inl hlab⟩, by decide⟩
  | growMerge heq hL ho ht hlab =>
    exact .inl ⟨⟨hd, _, _, _, heq, hL, ho, ht, .inl hlab⟩, by decide⟩
  | lost heq hL ho ht _ hm =>
    exact .inl ⟨⟨hd, _, _, _, heq, hL, ho, ht, .inr ⟨_, rfl, hm⟩⟩, by decide⟩
  | insert _ hf hlen => exact .inr ⟨.inr ⟨hf, hlen⟩, rfl⟩

/-- A sound table loses no point to an addition that hides no overlap, and has those of a range that
it enters. -/
theorem lmbAddRegion_den (hs : rgn.Sound) (hn : p.seg.lo < p.seg.hi) (hp : p.seg.hi < 2 ^ 64)
    (hh : ¬Hides rgn.table p.seg)
    (h : lmbAddRegion rgn p.base p.size p.type p.tag = some (r, rgn')) :
    rgn'.Sound ∧ den rgn.table ⊆ den rgn'.table ∧
      (rgn.Enters p.seg → den [p.seg] ⊆ den rgn'.table) := by
  have hpair : rgn.cnt = 0 → ¬rgn.StalePair := by
    intro h0 hst
    rcases lmbAddRegion_empty (p := p) h0 with ⟨-, hnone⟩ | ⟨hno, -⟩
    · exact absurd (h.symm.trans hnone) (by simp)
    · exact hno hst
  obtain ⟨r', rgn'', h', hs', hov, -⟩ := lmbAddRegion_sound hs hn hp ⟨hpair, hh⟩
  obtain ⟨rfl, rfl⟩ := Prod.mk.inj (Option.some.inj (h.symm.trans h'))
  refine ⟨hs', ?_⟩
  by_cases h0 : rgn.cnt = 0
  · rw [LmbRegion.Enters, if_pos h0, LmbRegion.table_eq_nil h0, den_nil]
    refine ⟨Set.empty_subset _, fun hlt => ?_⟩
    rcases lmbAddRegion_empty (p := p) h0 with ⟨hst, -⟩ | ⟨-, rgn'', h', -, ht⟩
    · exact absurd hst (hpair h0)
    · obtain ⟨-, rfl⟩ := Prod.mk.inj (Option.some.inj (h.symm.trans h'))
      rw [ht, if_pos (UInt64.lt_iff_toNat_lt.2 hlt)]
  rw [LmbRegion.Enters, if_neg h0]
  by_cases hmeet : ∃ f ∈ rgn.table, p.seg.Overlaps f
  · obtain ⟨-, rfl⟩ := hov hmeet
    obtain ⟨f, hf, hfo⟩ := hmeet
    exact ⟨subset_rfl, fun hin => absurd hfo (hin.1 f hf)⟩
  have hdis : ∀ f ∈ rgn.table, ¬p.seg.Overlaps f := fun f hf hfo => hmeet ⟨f, hf, hfo⟩
  have hpos := LmbRegion.toNat_cnt_pos.2 h0
  rcases hs.ok with hwf | hinit
  · obtain ⟨r', rgn'', h', hstep, -⟩ :=
      lmbAddRegion_step hpos hwf.cnt_le hwf.not_dummy hwf.fits hp hwf.pairwise_lo
    obtain ⟨rfl, rfl⟩ := Prod.mk.inj (Option.some.inj (h.symm.trans h'))
    refine ⟨?_, fun hin => ?_⟩
    · rcases hstep.cases_wf hwf.wf hn (not_hidden_of_disjoint hdis) with
        ⟨-, ht, -⟩ | ⟨-, -, -, ⟨hden, -⟩ | ⟨-, hden⟩⟩
      · rw [ht]
      · exact hden ▸ Set.subset_union_left
      · exact hden.ge
    · rw [(hstep.den_recorded hwf.wf hn hdis hin.2).2]
      exact Set.subset_union_right
  · rw [lmbAddRegion, if_pos ⟨hinit.1, by rw [hinit.2]; rfl⟩] at h
    obtain ⟨-, rfl⟩ := Prod.mk.inj (Option.some.inj h)
    have ht : LmbRegion.table { rgn with region := Function.update rgn.region 0 p } = [p.seg] := by
      rw [LmbRegion.table_update, hinit.table_eq]
      rfl
    rw [hinit.den_table, ht]
    exact ⟨Set.empty_subset _, fun _ => subset_rfl⟩

end

/-! ### The other calls -/

theorem Lmb.isMmio_iff {lmb : Lmb} {x : Nat} :
    lmb.IsMmio x ↔ ∃ tag, (x, (LmbType.mmio, tag)) ∈ den lmb.reserved.table := by
  constructor
  · rintro ⟨e, he, ht, hx⟩
    exact ⟨e.label.2, e, he, hx, Prod.ext ht rfl⟩
  · rintro ⟨tag, e, he, hx, hl⟩
    exact ⟨e, he, by rw [hl], hx⟩

theorem Lmb.IsMmio.mono {lmb lmb' : Lmb} {x : Nat} (h : lmb.IsMmio x)
    (hsub : ∀ tag, (x, (LmbType.mmio, tag)) ∈ den lmb.reserved.table →
      (x, (LmbType.mmio, tag)) ∈ den lmb'.reserved.table) : lmb'.IsMmio x := by
  obtain ⟨tag, hx⟩ := Lmb.isMmio_iff.1 h
  exact Lmb.isMmio_iff.2 ⟨tag, hsub tag hx⟩

/-- `lmb_free` takes no point of type `LMB_MMIO` away. -/
theorem FreeStep.mem_den_of_mmio {t t' : List LmbSegment} {lo hi : Nat} {r : Int}
    {p : Nat × LmbLabel} (h : FreeStep t lo hi r t') (hwf : Segment.WF t) (hlt : lo < hi)
    (hp : p ∈ den t) (hm : p.2.1 = .mmio) : p ∈ den t' := by
  have herase : ∀ {L e R}, t = L ++ e :: R → e.label.1 ≠ .mmio → p ∈ den (L ++ R) := by
    intro L e R heq he
    rw [heq, den_middle] at hp
    refine hp.resolve_right fun hin => he ?_
    obtain ⟨s, hs, -, hl⟩ := hin
    rw [← List.mem_singleton.1 hs, hl, hm]
  have hkeep : ∀ {L R : List LmbSegment} {s : LmbSegment}, p ∈ den (L ++ R) →
      p ∈ den (L ++ s :: R) := by
    intro L R s h
    rw [den_middle]
    exact .inl h
  cases h with
  | refused => exact hp
  | whole heq he => exact herase heq he
  | front heq he | back heq he => exact hkeep (herase heq he)
  | @split L e R _ _ heq he h1 h2 hadd =>
    obtain ⟨hwf1, hdis⟩ := split_wf (heq ▸ hwf) h1 hlt.le h2
    have hp1 := hkeep (s := ⟨e.lo, lo, e.label⟩) (herase heq he)
    rcases hadd.cases_wf hwf1 h2 (not_hidden_of_disjoint hdis) with
      ⟨-, ht, -⟩ | ⟨-, -, -, ⟨hden, -⟩ | ⟨-, hden⟩⟩
    · exact ht ▸ hp1
    · exact hden ▸ .inl hp1
    · exact hden ▸ hp1

/-- The block that the search takes ends below `2 ^ 64`, for any alignment. -/
theorem lmbAllocBase.scan_fits {reserved : LmbRegion} {lmbbase size align base b : UInt64} (n : Nat)
    (hfit : base.toNat + size.toNat < 2 ^ 64)
    (h : scan reserved lmbbase size align n base = some b) : b.toNat + size.toNat < 2 ^ 64 := by
  induction n generalizing base with
  | zero => simp [scan] at h
  | succ n ih =>
    rw [scan] at h
    split at h
    · rcases hov : lmbOverlapsRegion reserved base size with _ | j
      · simp only [hov, Option.some.injEq] at h
        exact h ▸ hfit
      · simp only [hov] at h
        split at h
        · exact absurd h (by simp)
        · next hge =>
          refine ih ?_ h
          rw [UInt64.lt_iff_toNat_lt, not_lt] at hge
          have hsub := UInt64.toNat_sub_of_le _ _ (UInt64.le_iff_toNat_le.2 hge)
          have hdown : (lmbAlignDown ((reserved.region j).base - size) align).toNat ≤ _ :=
            UInt64.le_iff_toNat_le.1 UInt64.and_le_left
          have := (reserved.region j).base.toNat_lt
          omega
    · exact absurd h (by simp)

section
variable {lmb : Lmb} {size align maxAddr b : UInt64}

theorem lmbAllocBase.start_fits {p : LmbProperty} (hp : p.seg.hi < 2 ^ 64)
    (hmax : maxAddr = 0 ∨ size.toNat ≤ maxAddr.toNat) (h : start p size align maxAddr = some b) :
    b.toNat + size.toNat < 2 ^ 64 := by
  have hend := LmbProperty.toNat_end hp
  simp only [LmbProperty.seg_hi] at hp hend
  have hdown : ∀ top : UInt64, size.toNat ≤ top.toNat →
      (lmbAlignDown (top - size) align).toNat + size.toNat < 2 ^ 64 := by
    intro top htop
    have hsub := UInt64.toNat_sub_of_le _ _ (UInt64.le_iff_toNat_le.2 htop)
    have hle : (lmbAlignDown (top - size) align).toNat ≤ _ :=
      UInt64.le_iff_toNat_le.1 UInt64.and_le_left
    have := top.toNat_lt
    omega
  rw [start] at h
  split_ifs at h with h1 h2 h3
  · rw [UInt64.lt_iff_toNat_lt] at h1
    exact Option.some.inj h ▸ hdown _ (by omega)
  · rw [UInt64.lt_iff_toNat_lt] at h1
    have hmax' := hmax.resolve_left h2
    exact Option.some.inj h ▸ hdown _ (by rw [UInt64.toNat_min]; omega)

theorem lmbAllocBase.search_fits (hmem : ∀ s ∈ lmb.memory.table, s.hi < 2 ^ 64)
    (hmax : maxAddr = 0 ∨ size.toNat ≤ maxAddr.toNat) (n : Nat) (hn : n ≤ lmb.memory.cnt.toNat)
    (h : search lmb size align maxAddr n = some b) : b.toNat + size.toNat < 2 ^ 64 := by
  induction n with
  | zero => simp [search] at h
  | succ n ih =>
    rw [search] at h
    have hp := hmem _ (LmbRegion.seg_mem_table (show n < lmb.memory.cnt.toNat by omega))
    rcases hst : start (lmb.memory.region n) size align maxAddr with _ | base
    · simp only [hst] at h
      exact ih (by omega) h
    · rcases hsc : scan lmb.reserved (lmb.memory.region n).base size align (base.toNat + 1) base
        with _ | b'
      · simp only [hst, hsc] at h
        exact ih (by omega) h
      · simp only [hst, hsc, Option.some.injEq] at h
        exact h ▸ scan_fits _ (start_fits hp hmax hst) hsc

/-- What `lmb_alloc_base` takes overlaps no reserved entry and does not wrap, also when the memory
table is out of order and the alignment is not a power of two. -/
theorem lmbAllocBase.search_clear (hmem : ∀ s ∈ lmb.memory.table, s.hi < 2 ^ 64)
    (hres : ∀ s ∈ lmb.reserved.table, s.hi < 2 ^ 64)
    (hlim : Limit lmb size.toNat maxAddr.toNat)
    (h : search lmb size align maxAddr lmb.memory.cnt.toNat = some b) :
    b.toNat + size.toNat < 2 ^ 64 ∧ FreeAt lmb.reserved size.toNat b.toNat := by
  have hmax : maxAddr = 0 ∨ size.toNat ≤ maxAddr.toNat := by
    by_contra hno
    rw [not_or] at hno
    have h0 : maxAddr.toNat ≠ 0 := fun h => hno.1 (UInt64.toNat_inj.1 h)
    rw [search_eq_none hno.1 ((hlim.resolve_left h0).resolve_left hno.2) _ le_rfl] at h
    exact absurd h (by simp)
  have hfit := search_fits hmem hmax _ le_rfl h
  refine ⟨hfit, ?_⟩
  rcases lmbOverlapsRegion_cases hres hfit with ⟨-, hfree⟩ | ⟨j, -, hj, -⟩
  · exact hfree
  · exact absurd (hj.symm.trans (search_overlaps _ h).2) (by simp)

end

/-! ### Runs -/

/-- The allocator with the ranges that `lmb_add_mmio` reported as added. -/
structure MmioState where
  lmb : Lmb
  mmio : List LmbSegment

inductive MmioCall where
  | call (c : LmbCall)
  | addMmio (base size : UInt64) (tag : UInt32)

namespace MmioCall

/-- The return value and the state after the call; `none` when it does not return. -/
def exec (s : MmioState) : MmioCall → Option (Int × MmioState)
  | call c => (c.exec s.lmb).map fun r => (r.1, ⟨r.2, s.mmio⟩)
  | addMmio base size tag => (lmbAddMmio s.lmb base size tag).map fun r =>
      (r.1, ⟨r.2, if 0 ≤ r.1 then LmbProperty.seg ⟨base, size, tag, .mmio⟩ :: s.mmio else s.mmio⟩)

/-- The ranges of the call are not empty and do not wrap. -/
def Valid : MmioCall → Prop
  | call (.add base size _) | call (.reserve base size _ _) | addMmio base size _ =>
    0 < size.toNat ∧ base.toNat + size.toNat < 2 ^ 64
  | call (.alloc size align ..) => 0 < (lmbAlignUp size align).toNat
  | call (.free base size align) =>
    0 < (lmbAlignUp size align).toNat ∧ base.toNat + (lmbAlignUp size align).toNat < 2 ^ 64

/-- The condition on a call. A range for the reserved table hides no overlap, the limit of a request
leaves room for its size, and a range for `lmb_add_mmio` is one that the memory table gives an entry
of its own and the reserved table then enters, or is of type `LMB_MMIO` before. -/
def Good (lmb : Lmb) : MmioCall → Prop
  | call (.reserve base size type tag) => (type = .boot ∨ type = .runtime) →
      lmbIsKnown lmb base size → ¬Hides lmb.reserved.table (LmbProperty.mk base size tag type).seg
  | call (.alloc size align maxAddr type _) => type ≠ .mmio →
      Limit lmb (lmbAlignUp size align).toNat maxAddr.toNat
  | call _ => True
  | addMmio base size tag =>
    let n := (LmbProperty.mk base size tag .mmio).seg
    (lmb.memory.Coalesces n → ∀ x ∈ n.ico, lmb.IsMmio x) ∧
      (lmb.memory.Inserts n → ¬Hides lmb.reserved.table n ∧
        (lmb.reserved.Enters n ∨ ∀ x ∈ n.ico, lmb.IsMmio x))

end MmioCall

/-- The byte is of type `LMB_MMIO`. The next call of `lmb_reserve` with a range that holds it is
refused exactly if it is good, a good one of `lmb_alloc_base` returns no block that holds it, and
`lmb_free` refuses every range that does. -/
structure Untouchable (lmb : Lmb) (x : Nat) : Prop where
  covered : lmb.IsMmio x
  reserve {base size : UInt64} {type : LmbType} {tag : UInt32} :
    (MmioCall.call (.reserve base size type tag)).Valid →
    base.toNat ≤ x → x < base.toNat + size.toNat →
    (lmbReserve lmb base size type tag = some (-1, lmb) ↔
      (MmioCall.call (.reserve base size type tag)).Good lmb)
  alloc {size align maxAddr b : UInt64} {type : LmbType} {tag : UInt32} {lmb' : Lmb} :
    (MmioCall.call (.alloc size align maxAddr type tag)).Valid →
    (MmioCall.call (.alloc size align maxAddr type tag)).Good lmb →
    lmbAllocBase lmb size align maxAddr type tag = some (b, lmb') → b ≠ 0 →
    x < b.toNat ∨ b.toNat + (lmbAlignUp size align).toNat ≤ x
  free {base size align : UInt64} : (MmioCall.call (.free base size align)).Valid →
    base.toNat ≤ x → x < base.toNat + (lmbAlignUp size align).toNat →
    lmbFree lmb base size align = some (-1, lmb)

/-- A call that the condition allows, as a step. -/
def MmioStep (s s' : MmioState) : Prop :=
  ∃ c r, MmioCall.Valid c ∧ c.Good s.lmb ∧ c.exec s = some (r, s')

/-- The invariant. The entries of the memory table may overlap. -/
structure MmioState.Inv (s : MmioState) : Prop where
  memory : s.lmb.memory.Loose
  reserved : s.lmb.reserved.Sound
  covered : ∀ m ∈ s.mmio, ∀ x ∈ m.ico, s.lmb.IsMmio x

section
variable {lmb : Lmb} {x : Nat}

/-- A table with an entry that is not empty is well formed. -/
theorem Lmb.IsMmio.wf (h : lmb.IsMmio x) (hs : lmb.reserved.Sound) :
    lmb.reserved.WF ∧ lmb.reserved.cnt ≠ 0 := by
  obtain ⟨e, he, -, hx⟩ := h
  refine ⟨hs.ok.resolve_right fun hinit => ?_, fun h0 => ?_⟩
  · exact hinit.not_overlaps e he (.of_mem hx hx)
  · rw [LmbRegion.table_eq_nil h0] at he
    exact absurd he (by simp)

/-- The entry of a byte keeps it out of reach. -/
theorem Lmb.IsMmio.untouchable (h : lmb.IsMmio x) (hm : lmb.memory.Loose)
    (hs : lmb.reserved.Sound) : Untouchable lmb x := by
  obtain ⟨hwf, h0⟩ := h.wf hs
  obtain ⟨e, he, hmmio, hx⟩ := h
  refine ⟨⟨e, he, hmmio, hx⟩, ?_, ?_, ?_⟩
  · intro base size type tag hv hlo hhi
    let p : LmbProperty := ⟨base, size, tag, type⟩
    have hn : p.seg.lo < p.seg.hi := Nat.lt_add_of_pos_right hv.1
    have hmeet : ∃ f ∈ lmb.reserved.table, p.seg.Overlaps f :=
      ⟨e, he, .of_mem (s := p.seg) ⟨hlo, hhi⟩ hx⟩
    by_cases hacc : (type = .boot ∨ type = .runtime) ∧ lmbIsKnown lmb base size = true
    · rw [lmbReserve_accepted hacc.1 hacc.2]
      constructor
      · intro hr htype hknown
        obtain ⟨⟨r, rgn'⟩, hadd, heq⟩ := Option.map_eq_some_iff.1 hr
        obtain ⟨rfl, hsame⟩ := Prod.mk.inj heq
        obtain rfl : rgn' = lmb.reserved := congrArg Lmb.reserved hsame
        exact ((lmbAddRegion_admits_iff (p := p) hs hn hv.2).2
          ⟨-1, lmb.reserved, hadd, hs.ok.ordered, fun _ => ⟨rfl, rfl⟩⟩).2
      · intro hg
        obtain ⟨r, rgn', hr, -, hov, -⟩ := lmbAddRegion_sound (p := p) hs hn hv.2
          ⟨fun h => absurd h h0, hg hacc.1 hacc.2⟩
        obtain ⟨rfl, rfl⟩ := hov hmeet
        simp only [p] at hr
        rw [hr]
        rfl
    · exact iff_of_true (lmbReserve_refused hacc) fun htype hknown => absurd ⟨htype, hknown⟩ hacc
  · intro size align maxAddr b type tag lmb' hv hg h hb
    rcases lmbAllocBase_inv h with ⟨rfl, -⟩ | ⟨htype, b', r, reserved, hsr, -, hbase, -⟩
    · exact absurd rfl hb
    · have hbb' : b = b' := by
        split_ifs at hbase
        · exact absurd hbase hb
        · exact hbase
      have hfree := (lmbAllocBase.search_clear hm.fits hwf.fits (hg htype) hsr).2 e he
      rw [← hbb'] at hfree
      obtain ⟨h1, h2⟩ := hx
      omega
  · intro base size align hv hlo hhi
    have hend : (base + lmbAlignUp size align).toNat = base.toNat + (lmbAlignUp size align).toNat := by
      rw [UInt64.toNat_add, Nat.mod_eq_of_lt hv.2]
    rw [lmbFree]
    rcases lmbFree.hit_cases base (base + lmbAlignUp size align) hs.ok with
      ⟨hfind, -⟩ | ⟨k, hk, hfind, hhit⟩
    · simp only [hfind]
    · -- the entry that is found holds the byte, so it is the one of type `LMB_MMIO`
      have h1 := hhit.lo_le
      have h2 := hhit.le_hi
      have hsame := hwf.wf.eq_of_mem (x := x) (LmbRegion.seg_mem_table hk) he
        ⟨by omega, by omega⟩ hx
      have htype : (lmb.reserved.region k).type = .mmio := by
        rw [← hsame] at hmmio
        exact hmmio
      simp only [hfind, if_pos htype]

/-- A call that leaves the points of the reserved table keeps the invariant. -/
theorem MmioState.Inv.of_den {s : MmioState} {lmb' : Lmb} (h : s.Inv) (hm : lmb'.memory.Loose)
    (hs : lmb'.reserved.Sound)
    (hsub : ∀ x tag, (x, (LmbType.mmio, tag)) ∈ den s.lmb.reserved.table →
      (x, (LmbType.mmio, tag)) ∈ den lmb'.reserved.table) : (MmioState.mk lmb' s.mmio).Inv :=
  ⟨hm, hs, fun m hmem x hx => (h.covered m hmem x hx).mono (hsub x)⟩

/-- `lmb_add_mmio` keeps the invariant, and has the range that it reports as added reserved. -/
theorem MmioStep.inv_addMmio {s : MmioState} {base size : UInt64} {tag : UInt32} {r : Int}
    {lmb' : Lmb} (h : s.Inv) (hv : (MmioCall.addMmio base size tag).Valid)
    (hg : (MmioCall.addMmio base size tag).Good s.lmb)
    (hr : lmbAddMmio s.lmb base size tag = some (r, lmb')) :
    (MmioState.mk lmb' s.mmio).Inv ∧
      (0 ≤ r → ∀ x ∈ (LmbProperty.mk base size tag .mmio).seg.ico, lmb'.IsMmio x) := by
  let p : LmbProperty := ⟨base, size, tag, .mmio⟩
  obtain ⟨⟨ret, memory⟩, hmem, heq⟩ := Option.bind_eq_some_iff.1 hr
  obtain ⟨ret', memory', hmem', hloose, -⟩ := lmbAddRegion_loose (p := p) h.memory hv.2
  obtain ⟨rfl, rfl⟩ := Prod.mk.inj (Option.some.inj (hmem.symm.trans hmem'))
  by_cases h0 : ret = 0
  · simp only [if_pos h0] at heq
    obtain ⟨⟨ret', reserved⟩, hres, heq⟩ := Option.bind_eq_some_iff.1 heq
    obtain ⟨rfl, rfl⟩ := Prod.mk.inj (Option.some.inj heq)
    have hins := (lmbAddRegion_coalesces_or_inserts (p := p) h.memory hv.2 hmem h0.ge).resolve_left
      fun hc => hc.2 h0
    obtain ⟨hh, hin⟩ := hg.2 hins.1
    obtain ⟨hs', hsub, hnew⟩ := lmbAddRegion_den (p := p) h.reserved
      (Nat.lt_add_of_pos_right hv.1) hv.2 hh hres
    refine ⟨h.of_den hloose hs' fun x tag hx => hsub hx, fun _ x hx => ?_⟩
    rcases hin with hin | hcov
    · exact Lmb.isMmio_iff.2 ⟨tag, hnew hin ⟨p.seg, List.mem_singleton.2 rfl, hx, rfl⟩⟩
    · exact (hcov x hx).mono fun tag hx => hsub hx
  · simp only [if_neg h0] at heq
    obtain ⟨rfl, rfl⟩ := Prod.mk.inj (Option.some.inj heq)
    refine ⟨h.of_den hloose h.reserved fun _ _ hx => hx, fun hr0 x hx => ?_⟩
    rcases lmbAddRegion_coalesces_or_inserts (p := p) h.memory hv.2 hmem hr0 with hc | ⟨-, hz⟩
    · exact hg.1 hc.1 x hx
    · exact absurd hz h0

end

/-- An addition to the reserved table that hides no overlap keeps the invariant. -/
theorem MmioState.Inv.addReserved {s : MmioState} {p : LmbProperty} {r : Int}
    {reserved : LmbRegion} (h : s.Inv) (hn : p.seg.lo < p.seg.hi) (hp : p.seg.hi < 2 ^ 64)
    (hh : ¬Hides s.lmb.reserved.table p.seg)
    (hr : lmbAddRegion s.lmb.reserved p.base p.size p.type p.tag = some (r, reserved)) :
    (MmioState.mk { s.lmb with reserved } s.mmio).Inv := by
  obtain ⟨hs', hsub, -⟩ := lmbAddRegion_den h.reserved hn hp hh hr
  exact h.of_den h.memory hs' fun x tag hx => hsub hx

section
variable {s : MmioState} {r : Int} {lmb' : Lmb}

theorem MmioStep.inv_reserve {base size : UInt64} {type : LmbType} {tag : UInt32} (h : s.Inv)
    (hv : (MmioCall.call (.reserve base size type tag)).Valid)
    (hg : (MmioCall.call (.reserve base size type tag)).Good s.lmb)
    (hr : lmbReserve s.lmb base size type tag = some (r, lmb')) :
    (MmioState.mk lmb' s.mmio).Inv := by
  rcases lmbReserve_inv hr with ⟨-, rfl⟩ | ⟨htype, hknown, reserved, hr', rfl⟩
  · exact h
  · exact h.addReserved (p := ⟨base, size, tag, type⟩) (Nat.lt_add_of_pos_right hv.1) hv.2
      (hg htype hknown) hr'

theorem MmioStep.inv_alloc {size align maxAddr b : UInt64} {type : LmbType} {tag : UInt32}
    (h : s.Inv) (hv : (MmioCall.call (.alloc size align maxAddr type tag)).Valid)
    (hg : (MmioCall.call (.alloc size align maxAddr type tag)).Good s.lmb)
    (hr : lmbAllocBase s.lmb size align maxAddr type tag = some (b, lmb')) :
    (MmioState.mk lmb' s.mmio).Inv := by
  rcases lmbAllocBase_inv hr with ⟨-, rfl⟩ | ⟨htype, base, r', reserved, hsr, hr', -, rfl⟩
  · exact h
  · obtain ⟨hfit, hfree⟩ :=
      lmbAllocBase.search_clear h.memory.fits h.reserved.ok.fits (hg htype) hsr
    refine h.addReserved (p := ⟨base, lmbAlignUp size align, tag, type⟩)
      (Nat.lt_add_of_pos_right hv) hfit (fun hh => ?_) hr'
    obtain ⟨L, e, R, ht, -, ⟨f, hf, hov⟩, -⟩ := hh
    exact not_overlaps_iff.2 (hfree f (by simp [ht, hf])) hov

theorem MmioStep.inv_free {base size align : UInt64} (h : s.Inv)
    (hv : (MmioCall.call (.free base size align)).Valid)
    (hr : lmbFree s.lmb base size align = some (r, lmb')) : (MmioState.mk lmb' s.mmio).Inv := by
  obtain ⟨r', lmb'', hr', hmem, hstep, -, hsame⟩ := lmbFree_step h.reserved.ok hv.1 hv.2
  obtain ⟨rfl, rfl⟩ := Prod.mk.inj (Option.some.inj (hr.symm.trans hr'))
  refine h.of_den (hmem ▸ h.memory) (lmbFree_sound h.reserved hv.1 hv.2 hr) fun x tag hx => ?_
  rcases hsame with rfl | hwf
  · exact hx
  · exact hstep.mem_den_of_mmio hwf.wf (Nat.lt_add_of_pos_right hv.1) hx rfl

end

/-- Every step keeps the invariant. -/
theorem MmioStep.inv {s s' : MmioState} (hstep : MmioStep s s') (h : s.Inv) : s'.Inv := by
  obtain ⟨c, r, hv, hg, hr⟩ := hstep
  cases c with
  | addMmio base size tag =>
    obtain ⟨⟨r', lmb'⟩, hr', heq⟩ := Option.map_eq_some_iff.1 hr
    obtain ⟨-, rfl⟩ := Prod.mk.inj heq
    obtain ⟨hi, hnew⟩ := MmioStep.inv_addMmio h hv hg hr'
    refine ⟨hi.memory, hi.reserved, ?_⟩
    split_ifs with hr0
    · exact List.forall_mem_cons.2 ⟨hnew hr0, hi.covered⟩
    · exact hi.covered
  | call c =>
    obtain ⟨⟨r', lmb'⟩, hr', heq⟩ := Option.map_eq_some_iff.1 hr
    obtain ⟨-, rfl⟩ := Prod.mk.inj heq
    cases c with
    | add base size tag =>
      obtain ⟨⟨ret, memory⟩, hmem, heq⟩ := Option.bind_eq_some_iff.1 hr'
      obtain ⟨-, rfl⟩ := Prod.mk.inj (Option.some.inj heq)
      obtain ⟨ret', memory', hmem', hloose, -⟩ :=
        lmbAddRegion_loose (p := ⟨base, size, tag, .free⟩) h.memory hv.2
      obtain ⟨-, rfl⟩ := Prod.mk.inj (Option.some.inj (hmem.symm.trans hmem'))
      exact h.of_den hloose h.reserved fun _ _ hx => hx
    | reserve => exact MmioStep.inv_reserve h hv hg hr'
    | alloc =>
      obtain ⟨⟨b, lmb''⟩, hb, heq⟩ := Option.map_eq_some_iff.1 hr'
      obtain ⟨-, rfl⟩ := Prod.mk.inj heq
      exact MmioStep.inv_alloc h hv hg hb
    | free => exact MmioStep.inv_free h hv hr'

/-- A call of `lmb_add_mmio` that fails changes nothing, whatever the tables. -/
theorem lmbAddMmio_eq_of_neg {lmb lmb' : Lmb} {base size : UInt64} {tag : UInt32} {r : Int}
    (h : lmbAddMmio lmb base size tag = some (r, lmb')) (hr : r < 0) : lmb' = lmb := by
  obtain ⟨⟨ret, memory⟩, hmem, heq⟩ := Option.bind_eq_some_iff.1 h
  by_cases h0 : ret = 0
  · simp only [if_pos h0] at heq
    obtain ⟨⟨ret', reserved⟩, -, heq⟩ := Option.bind_eq_some_iff.1 heq
    obtain ⟨rfl, -⟩ := Prod.mk.inj (Option.some.inj heq)
    omega
  · simp only [if_neg h0] at heq
    obtain ⟨rfl, rfl⟩ := Prod.mk.inj (Option.some.inj heq)
    rw [lmbAddRegion_eq_of_neg (p := ⟨base, size, tag, .mmio⟩) hmem hr]

/-- **After every run of good calls the ranges that `lmb_add_mmio` reported as added are out of
reach** of good calls, and the calls of it that fail change nothing. -/
theorem mmio_untouchable_of_run {lmb₀ : Lmb} {s : MmioState}
    (h : Relation.ReflTransGen MmioStep ⟨lmbInit lmb₀, []⟩ s) :
    (∀ m ∈ s.mmio, ∀ x ∈ m.ico, Untouchable s.lmb x) ∧
      ∀ base size tag r lmb', lmbAddMmio s.lmb base size tag = some (r, lmb') → r < 0 →
        lmb' = s.lmb := by
  have hinv : s.Inv := by
    induction h with
    | refl =>
      obtain ⟨hm, hr⟩ := lmbInit_initial lmb₀
      exact ⟨hm.loose, hr.sound, by simp⟩
    | tail _ hstep ih => exact hstep.inv ih
  exact ⟨fun m hm x hx => (hinv.covered m hm x hx).untouchable hinv.memory hinv.reserved,
    fun base size tag r lmb' h hr => lmbAddMmio_eq_of_neg h hr⟩

theorem mmio_untouchable_of_run_add :
    let c : MmioCall := .addMmio 0x70006000 0x1000 (lmbTag 'U' 'A' 'R' 'T')
    ∃ r ∈ c.exec ⟨lmbInit lmbZero, []⟩, r.1 = 0 ∧ Untouchable r.2.lmb 0x70006fff := by
  intro c
  have hrun : ∃ r ∈ c.exec ⟨lmbInit lmbZero, []⟩, r.1 = 0 ∧
      r.2.mmio = [⟨0x70006000, 0x70007000, .mmio, lmbTag 'U' 'A' 'R' 'T'⟩] := by decide
  obtain ⟨⟨_, s⟩, hr, h0, hm⟩ := hrun
  have hinit := (lmbInit_initial lmbZero).2
  have hno : ∀ {n : LmbSegment}, ¬Hides (lmbInit lmbZero).reserved.table n := by
    rintro n ⟨L, e, R, heq, -, ⟨f, hf, hov⟩, -⟩
    exact hinit.not_overlaps f (by simp [heq, hf]) hov
  have hlost : ∀ {n : LmbSegment}, Recorded (lmbInit lmbZero).reserved.table n := by
    intro n
    rw [hinit.table_eq]
    refine ⟨fun h => absurd h.2 (by decide), fun hl => ?_⟩
    obtain ⟨L, e, f, R, heq, -⟩ := hl
    have := congrArg List.length heq
    simp at this
    omega
  have hg : c.Good (lmbInit lmbZero) := by
    refine ⟨fun hc => absurd ⟨rfl, rfl⟩ hc.1, fun _ => ⟨hno, .inl ?_⟩⟩
    rw [LmbRegion.Enters, if_neg (by decide)]
    exact ⟨hinit.not_overlaps, hlost⟩
  refine ⟨_, hr, h0, ?_⟩
  refine (mmio_untouchable_of_run (.single ⟨c, _, ⟨by decide, by decide⟩, hg, hr⟩)).1 _
    (by rw [hm]; exact List.mem_singleton.2 rfl) _ ⟨by decide, by decide⟩

/-- The second of two adjacent ranges of one tag is reported as added and is not reserved, and
`lmb_reserve` then gives it away. -/
theorem mmio_not_reserved :
    let uart := lmbTag 'U' 'A' 'R' 'T'
    ∃ r₁ ∈ (MmioCall.addMmio 0x70006000 0x1000 uart).exec ⟨lmbInit lmbZero, []⟩,
      ∃ r₂ ∈ (MmioCall.addMmio 0x70007000 0x1000 uart).exec r₁.2, r₂.1 = 1 ∧
        (∃ m ∈ r₂.2.mmio, 0x70007000 ∈ m.ico) ∧ ¬r₂.2.lmb.IsMmio 0x70007000 ∧
        ∃ r₃ ∈ lmbReserve r₂.2.lmb 0x70007000 0x1000 .boot lmbTagNone, r₃.1 = 0 := by
  decide

end ShieldLoader
