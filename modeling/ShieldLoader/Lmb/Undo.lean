import ShieldLoader.Lmb.Canonical
import ShieldLoader.Lmb.Heap
import ShieldLoader.Lmb.Request

/-!
# Freeing what was just allocated

On a canonical table `lmb_free` undoes each of the ways in which `lmb_add_region` records a block:
an entry of its own is removed, an entry that was grown is cut back, and two entries that were fused
are split again, with the slot that the fusion has freed.
-/

namespace ShieldLoader

open Segment

section
variable {t t' t'' L R : List LmbSegment} {m n f : LmbSegment} {lo hi : Nat} {r r' : Int}

/-- What a free does to the entry that holds its range. -/
theorem FreeStep.of_holder (h : FreeStep (L ++ m :: R) lo hi r t') (hwf : Segment.WF (L ++ m :: R))
    (hlt : lo < hi) (hmmio : m.label.1 ≠ .mmio) (hlo : m.lo ≤ lo) (hhi : hi ≤ m.hi) :
    (m.lo = lo ∧ m.hi = hi ∧ r = 0 ∧ t' = L ++ R) ∨
    (m.lo = lo ∧ hi < m.hi ∧ r = 0 ∧ t' = L ++ ⟨hi, m.hi, m.label⟩ :: R) ∨
    (m.lo < lo ∧ m.hi = hi ∧ r = 0 ∧ t' = L ++ ⟨m.lo, lo, m.label⟩ :: R) ∨
    (m.lo < lo ∧ hi < m.hi ∧
      AddStep (L ++ ⟨m.lo, lo, m.label⟩ :: R) ⟨hi, m.hi, m.label⟩ r t') := by
  have hsame : ∀ {L' e R'}, L ++ m :: R = L' ++ e :: R' → e.lo ≤ lo → hi ≤ e.hi →
      e = m ∧ L = L' ∧ R = R' := by
    intro L' e R' heq h1 h2
    have hem : e = m := hwf.eq_of_mem (x := lo) (by simp [heq]) (by simp) ⟨h1, hlt.trans_le h2⟩
      ⟨hlo, hlt.trans_le hhi⟩
    subst hem
    exact ⟨rfl, hwf.split_unique heq⟩
  cases h with
  | refused hno => exact absurd (hno m (by simp) hlo hhi) hmmio
  | whole heq _ h1 h2 =>
    obtain ⟨rfl, rfl, rfl⟩ := hsame heq h1.le h2.ge
    exact .inl ⟨h1, h2, rfl, rfl⟩
  | front heq _ h1 h2 =>
    obtain ⟨rfl, rfl, rfl⟩ := hsame heq h1.le h2.le
    exact .inr (.inl ⟨h1, h2, rfl, rfl⟩)
  | back heq _ h1 h2 =>
    obtain ⟨rfl, rfl, rfl⟩ := hsame heq h1.le h2.ge
    exact .inr (.inr (.inl ⟨h1, h2, rfl, rfl⟩))
  | split heq _ h1 h2 hadd =>
    obtain ⟨rfl, rfl, rfl⟩ := hsame heq h1.le h2.le
    exact .inr (.inr (.inr ⟨h1, h2, hadd⟩))

/-- Nothing in a canonical table is mergeable with one of its entries. -/
theorem not_mergeable_of_middle (hwf : Segment.WF (L ++ f :: R)) (hcan : Canonical (L ++ f :: R)) :
    ∀ e ∈ L ++ R, ¬e.Mergeable f := by
  have hf := hwf.proper f (by simp)
  have hcan' := List.pairwise_append.1 hcan
  intro e he hm
  rcases List.mem_append.1 he with he | he
  · have h1 := hwf.left_le e he
    have h2 := hwf.proper e (by simp [he])
    exact hcan'.2.2 e he f (by simp) ⟨hm.1.resolve_right (by omega), hm.2⟩
  · have h1 := hwf.le_right e he
    have h2 := hwf.proper e (by simp [he])
    exact (List.pairwise_cons.1 hcan'.2.1).1 e he ⟨hm.1.resolve_left (by omega), hm.2.symm⟩

/-- An entry of a canonical table that was taken out is put back where it was. -/
theorem AddStep.reinsert (h : AddStep (L ++ R) f r t') (hwf : Segment.WF (L ++ f :: R))
    (hcan : Canonical (L ++ f :: R)) (hroom : (L ++ R).length < maxLmbRegions) :
    r = 0 ∧ t' = L ++ f :: R := by
  have hf := hwf.proper f (by simp)
  have hdis : ∀ e ∈ L ++ R, ¬f.Overlaps e := by
    intro e he
    rw [not_overlaps_iff]
    rcases List.mem_append.1 he with he | he
    · exact .inl (hwf.left_le e he)
    · exact .inr (hwf.le_right e he)
  have hcan' : Canonical (L ++ R) :=
    hcan.sublist (List.Sublist.append_left (List.sublist_cons_self f R) L)
  obtain ⟨M, -, rfl, L', m, R', heq, rfl, hM, hden⟩ := h.merged hwf.erase hcan' hf hdis hroom
  have hnil : M = [] := by
    refine List.eq_nil_iff_forall_not_mem.2 fun e he => ?_
    exact not_mergeable_of_middle hwf hcan e (by simp [heq, he]) (hM e he)
  subst hnil
  rcases h.cases_wf hwf.erase hf (not_hidden_of_disjoint hdis) with ⟨h1, -⟩ | ⟨-, -, hwf', -⟩
  · exact absurd h1 (by decide)
  rw [den_nil, Set.empty_union] at hden
  obtain rfl := den_singleton_inj (hwf'.proper m (by simp)) hden
  refine ⟨rfl, hwf'.ext hwf fun s => ?_⟩
  have hmem : s ∈ L ++ R ↔ s ∈ L' ++ R' := by rw [heq, List.append_nil]
  simp only [List.mem_append, List.mem_cons] at hmem ⊢
  tauto

/-- A range that an entry has grown by is freed. -/
theorem FreeStep.undo_grow {L R : List LmbSegment} {e : LmbSegment}
    (hfree : FreeStep (L ++ e.join n :: R) n.lo n.hi r' t'') (hwf : Segment.WF (L ++ e :: R))
    (hn : n.lo < n.hi) (hdis : ∀ x ∈ L ++ e :: R, ¬n.Overlaps x) (ht : n.Touches e)
    (hl : n.label = e.label) (hmmio : n.label.1 ≠ .mmio) : r' = 0 ∧ t'' = L ++ e :: R := by
  have he := hwf.proper e (by simp)
  have hwf' := (AddStep.grow_wf hwf hn hdis ht hl).1
  have hin := inside_join_right e n
  have hcases := hfree.of_holder hwf' hn (hl ▸ hmmio) hin.1 hin.2
  rcases ht with ht | ht
  · have hj : e.join n = ⟨n.lo, e.hi, e.label⟩ := by
      simp only [join, Segment.mk.injEq, and_true]
      omega
    rw [hj] at hcases
    rcases hcases with ⟨-, h, -⟩ | ⟨-, -, rfl, rfl⟩ | ⟨h, -⟩ | ⟨h, -⟩
    · exact absurd h (by simp only; omega)
    · exact ⟨rfl, by rw [ht]⟩
    · exact absurd h (lt_irrefl _)
    · exact absurd h (lt_irrefl _)
  · have hj : e.join n = ⟨e.lo, n.hi, e.label⟩ := by
      simp only [join, Segment.mk.injEq, and_true]
      omega
    rw [hj] at hcases
    rcases hcases with ⟨h, -⟩ | ⟨-, h, -⟩ | ⟨-, -, rfl, rfl⟩ | ⟨-, h, -⟩
    · exact absurd h (by simp only; omega)
    · exact absurd h (lt_irrefl _)
    · exact ⟨rfl, by rw [← ht]⟩
    · exact absurd h (lt_irrefl _)

/-- A range that two entries are fused over is freed. -/
theorem FreeStep.undo_growMerge {L R : List LmbSegment} {e f : LmbSegment}
    (hfree : FreeStep (L ++ (e.join n).join f :: R) n.lo n.hi r' t'')
    (hwf : Segment.WF (L ++ e :: f :: R)) (hcan : Canonical (L ++ e :: f :: R))
    (hlen : (L ++ e :: f :: R).length ≤ maxLmbRegions) (hn : n.lo < n.hi)
    (ht : n.Touches e) (hl : n.label = e.label) (hm : (e.join n).Mergeable f)
    (hmmio : n.label.1 ≠ .mmio) : r' = 0 ∧ t'' = L ++ e :: f :: R := by
  obtain ⟨hen, hnf, hfl⟩ := between_of_growMerge hwf hcan hn ht hl hm
  have he := hwf.proper e (by simp)
  have hf := hwf.proper f (by simp)
  have hj : (e.join n).join f = ⟨e.lo, f.hi, e.label⟩ := by
    simp only [join, Segment.mk.injEq, and_true]
    omega
  have hwf' : Segment.WF (L ++ ⟨e.lo, f.hi, e.label⟩ :: R) := hwf.merge
  rw [hj] at hfree
  have hcases := hfree.of_holder hwf' hn (hl ▸ hmmio) (by simp only; omega) (by simp only; omega)
  rcases hcases with ⟨h, -⟩ | ⟨h, -⟩ | ⟨-, h, -⟩ | ⟨-, -, hadd⟩
  · exact absurd h (by simp only; omega)
  · exact absurd h (by simp only; omega)
  · exact absurd h (by simp only; omega)
  -- the tail that is split off is the entry that was fused
  have he' : (⟨e.lo, n.lo, e.label⟩ : LmbSegment) = e := by rw [← hen]
  have hf' : (⟨n.hi, f.hi, e.label⟩ : LmbSegment) = f := by rw [hnf, ← hl, ← hfl]
  simp only [he', hf'] at hadd
  have hmid : L ++ e :: f :: R = (L ++ [e]) ++ f :: R := by simp
  have hout : L ++ e :: R = (L ++ [e]) ++ R := by simp
  rw [hmid] at hwf hcan hlen
  rw [hout] at hadd
  rw [hmid]
  refine hadd.reinsert hwf hcan ?_
  simp only [List.length_append, List.length_cons] at hlen ⊢
  omega

/-- **Freeing a range that was just recorded restores the table**, however it was recorded. -/
theorem FreeStep.undo (hadd : AddStep t n r t') (hfree : FreeStep t' n.lo n.hi r' t'')
    (hr : 0 ≤ r) (hwf : Segment.WF t) (hcan : Canonical t) (hlen : t.length ≤ maxLmbRegions)
    (hn : n.lo < n.hi) (hdis : ∀ e ∈ t, ¬n.Overlaps e) (hmmio : n.label.1 ≠ .mmio) :
    r' = 0 ∧ t'' = t := by
  cases hadd with
  | overlap | full => omega
  | @grow L e R h _ _ ht hl =>
    subst h
    exact hfree.undo_grow hwf hn hdis ht hl hmmio
  | @growMerge L e f R h _ _ ht hl hm =>
    subst h
    exact hfree.undo_growMerge hwf hcan hlen hn ht hl hm hmmio
  | lost h _ _ _ _ hm =>
    subst h
    exact absurd hm (not_mergeable_of_canonical hwf hcan)
  | insert h _ _ hL hR =>
    subst h
    have hwf' := (AddStep.insert_wf hwf hn hdis hL hR).1
    rcases hfree.of_holder hwf' hn hmmio le_rfl le_rfl with
      ⟨-, -, rfl, rfl⟩ | ⟨-, h, -⟩ | ⟨h, -⟩ | ⟨h, -⟩
    · exact ⟨rfl, rfl⟩
    · exact absurd h (lt_irrefl _)
    · exact absurd h (lt_irrefl _)
    · exact absurd h (lt_irrefl _)

end

/-- The table determines the entries. -/
theorem LmbRegion.eq_of_table_eq {rgn rgn' : LmbRegion} (h : rgn'.table = rgn.table) :
    rgn'.cnt = rgn.cnt ∧ ∀ i < rgn.cnt.toNat, rgn'.region i = rgn.region i := by
  have hcnt : rgn'.cnt.toNat = rgn.cnt.toNat := by rw [← length_table, ← length_table, h]
  refine ⟨UInt64.toNat_inj.1 hcnt, fun i hi => ?_⟩
  rw [← LmbProperty.seg_inj]
  have hget : rgn'.table[i]? = rgn.table[i]? := by rw [h]
  rwa [List.getElem?_eq_getElem (by rw [length_table]; omega),
    List.getElem?_eq_getElem (by rw [length_table]; exact hi), getElem_table, getElem_table,
    Option.some_inj] at hget

/-- A range that a table took is taken again by any table with the same entries. -/
theorem AddStep.nonneg_of_nonneg {t t' t'' : List LmbSegment} {n : LmbSegment} {r r' : Int}
    (h : AddStep t n r t') (h' : AddStep t n r' t'') (hr : 0 ≤ r)
    (hdis : ∀ f ∈ t, ¬n.Overlaps f) : 0 ≤ r' := by
  cases h' with
  | overlap heq _ hov => exact absurd hov (hdis _ (by simp [heq]))
  | full hf hlen =>
    have := h.eq_of_full hf hdis hlen
    omega
  | grow | growMerge | lost | insert => omega

/-- Which blocks fit depends on the entries of the two tables only. -/
theorem BlockFit.congr {lmb lmb' : Lmb} {s align maxAddr b : Nat} (hm : lmb'.memory = lmb.memory)
    (ht : lmb'.reserved.table = lmb.reserved.table) :
    BlockFit lmb' s align maxAddr b ↔ BlockFit lmb s align maxAddr b := by
  have hfree : FreeAt lmb'.reserved s b ↔ FreeAt lmb.reserved s b := by rw [FreeAt, FreeAt, ht]
  constructor
  · intro h
    exact ⟨h.ne_zero, h.aligned, hm ▸ h.known, h.below, hfree.1 h.free⟩
  · intro h
    exact ⟨h.ne_zero, h.aligned, hm ▸ h.known, h.below, hfree.2 h.free⟩

section
variable {lmb : Lmb} {size align maxAddr : UInt64} {type : LmbType} {tag : UInt32}

/-- **Allocate and free is the identity.** For a canonical reserved table of at least one entry,
`lmb_free` of a block that `lmb_alloc_base` has returned succeeds and restores the entries, and the
same request then returns the same block. -/
theorem lmbFree_lmbAllocBase (hmem : lmb.memory.Ok) (hres : lmb.reserved.WF)
    (hcan : Canonical lmb.reserved.table) (hcnt : lmb.reserved.cnt ≠ 0) (hsize : 1 ≤ size.toNat)
    (halign : PowTwo align) (hround : size.toNat + align.toNat - 1 < 2 ^ 64)
    (hmax : maxAddr = 0 ∨ (lmbAlignUp size align).toNat ≤ maxAddr.toNat)
    (htype : type = .boot ∨ type = .runtime) {b : UInt64} {lmb₁ : Lmb}
    (halloc : lmbAllocBase lmb size align maxAddr type tag = some (b, lmb₁)) (hb : b ≠ 0) :
    ∃ r lmb₂, lmbFree lmb₁ b size align = some (r, lmb₂) ∧ 0 ≤ r ∧ lmb₂.memory = lmb.memory ∧
      lmb₂.reserved.cnt = lmb.reserved.cnt ∧
      (∀ i < lmb.reserved.cnt.toNat, lmb₂.reserved.region i = lmb.reserved.region i) ∧
      ∃ lmb₃, lmbAllocBase lmb₂ size align maxAddr type tag = some (b, lmb₃) := by
  have hmmio : type ≠ .mmio := by rcases htype with rfl | rfl <;> decide
  have hpos := LmbRegion.toNat_cnt_pos.2 hcnt
  have hreq : Request lmb size align maxAddr :=
    ⟨hsize, halign, hround, hmax.elim (fun h => .inl (by rw [h]; rfl)) fun h => .inr (.inl h)⟩
  rcases lmbAllocBase_cases tag hmem (.inl hres) hreq hmmio with
    ⟨-, hnone⟩ | ⟨p, hps, rfl, rfl, hbest, hfit, hdis, heq⟩
  · rw [hnone, Option.some.injEq, Prod.mk.injEq] at halloc
    exact absurd halloc.1.symm hb
  -- the block is recorded
  obtain ⟨r, rgn₁, hr, hadd, -⟩ :=
    lmbAddRegion_step hpos hres.cnt_le hres.not_dummy hres.fits hfit hres.pairwise_lo
  have hlt : p.seg.lo < p.seg.hi := by
    rw [LmbProperty.seg_lo, LmbProperty.seg_hi, hps]
    exact Nat.lt_add_of_pos_right hreq.rounded_pos
  rw [heq, hr, Option.map_some, Option.some.injEq, Prod.mk.injEq] at halloc
  obtain ⟨hbp, rfl⟩ := halloc
  have hr0 : 0 ≤ r := by
    by_contra hneg
    exact hb (by rw [← hbp, if_pos (not_le.1 hneg)])
  rw [if_neg (not_lt.2 hr0)] at hbp
  subst hbp
  -- and freed
  have hlen : lmb.reserved.table.length ≤ maxLmbRegions := by
    rw [LmbRegion.length_table]
    exact hres.cnt_le
  have hwf₁ : rgn₁.WF := hres.of_addStep hadd hr0 hlt hfit hdis
  have hfit₀ := hfit
  rw [LmbProperty.seg_hi, hps] at hfit
  obtain ⟨r', lmb₂, hfree, hmem₂, hstep, -⟩ :=
    @lmbFree_step { lmb with reserved := rgn₁ } p.base size align (.inl hwf₁) hreq.rounded_pos hfit
  rw [← hps] at hstep
  obtain ⟨rfl, htab⟩ := hstep.undo hadd hr0 hres.wf hcan hlen hlt hdis hmmio
  obtain ⟨hcnt₂, hreg₂⟩ := LmbRegion.eq_of_table_eq htab
  refine ⟨0, lmb₂, hfree, le_rfl, hmem₂, hcnt₂, hreg₂, ?_⟩
  -- the same request is answered alike
  have hres₂ : lmb₂.reserved.WF := by
    refine ⟨?_, ?_, ?_⟩
    · rw [hcnt₂]
      exact hres.cnt_le
    · rw [htab]
      exact hres.wf
    · rw [htab]
      exact hres.fits
  have hreq₂ : Request lmb₂ size align maxAddr :=
    ⟨hsize, halign, hround, hmax.elim (fun h => .inl (by rw [h]; rfl)) fun h => .inr (.inl h)⟩
  have hsame : ∀ x, BlockFit lmb₂ (lmbAlignUp size align).toNat align.toNat maxAddr.toNat x ↔
      BlockFit lmb (lmbAlignUp size align).toNat align.toNat maxAddr.toNat x :=
    fun x => BlockFit.congr hmem₂ htab
  rcases lmbAllocBase_cases p.tag (hmem₂ ▸ hmem) (.inl hres₂) hreq₂ hmmio with
    ⟨hno, -⟩ | ⟨q, hqs, hqt, hqg, hbest₂, -, -, heq₂⟩
  · exact absurd ((hsame _).2 hbest.1) (hno _)
  simp only [hsame] at hbest₂
  have hpq : q = p := by
    rw [← LmbProperty.seg_inj]
    simp only [LmbProperty.seg, hbest₂.unique hbest, hqs, hps, hqt, hqg]
  subst hpq
  have hpos₂ : 0 < lmb₂.reserved.cnt.toNat := by rwa [hcnt₂]
  obtain ⟨r₂, rgn₃, hr₂, hadd₂, -⟩ :=
    lmbAddRegion_step hpos₂ hres₂.cnt_le hres₂.not_dummy hres₂.fits hfit₀ hres₂.pairwise_lo
  rw [htab] at hadd₂
  have hr₂0 := hadd.nonneg_of_nonneg hadd₂ hr0 hdis
  exact ⟨_, by rw [heq₂, hr₂, Option.map_some, if_neg (not_lt.2 hr₂0)]⟩

/-- The block fills the gap between two entries, which it fuses. -/
theorem lmbFree_lmbAllocBase_fused :
    let gap : LmbRegion :=
      ⟨2, fun i => ⟨if i = 0 then 0xbfffd000 else 0xbffff000, 0x1000, lmbTagNone, .boot⟩⟩
    let lmb : Lmb := { lmbRam with reserved := gap }
    ∃ lmb₁, lmbAllocBase lmb 0x1000 0x1000 0 .boot lmbTagNone = some (0xbfffe000, lmb₁) ∧
      ∃ r lmb₂, lmbFree lmb₁ 0xbfffe000 0x1000 0x1000 = some (r, lmb₂) ∧ 0 ≤ r ∧
        lmb₂.reserved.cnt = 2 ∧ ∀ i < lmb.reserved.cnt.toNat, lmb₂.reserved.region i = gap.region i := by
  intro gap lmb
  have hrun : ∃ x ∈ lmbAllocBase lmb 0x1000 0x1000 0 .boot lmbTagNone, x.1 = 0xbfffe000 := by decide
  obtain ⟨⟨b, lmb₁⟩, halloc, rfl⟩ := hrun
  obtain ⟨r, lmb₂, hfree, hr, -, hcnt, hreg, -⟩ :=
    @lmbFree_lmbAllocBase lmb 0x1000 0x1000 0 .boot lmbTagNone lmbRam_sound.memory.ok
      ⟨by decide, by decide, by decide⟩ (by decide) (by decide) (by decide) ⟨12, rfl⟩ (by decide)
      (.inl rfl) (.inl rfl) _ lmb₁ halloc (by decide)
  exact ⟨lmb₁, halloc, r, lmb₂, hfree, hr, hcnt, hreg⟩

end

end ShieldLoader
