import ShieldLoader.Lmb.Calls
import ShieldLoader.Lmb.Canonical

/-!
# Coalesced tables

In a coalesced table no two entries that touch have one label. `lmb_add_region` looks for an entry
that the new range touches and stops at the first. When that entry has another label, the range is
inserted, even if it could have been merged with the entry above it (`Wedged`).
-/

namespace ShieldLoader

open Segment

/-- No two touching entries have one label. -/
def Coalesced (t : List LmbSegment) : Prop := t.Pairwise fun a b => ¬a.Mergeable b

/-- The range lies between an entry with another label, which ends where it starts, and an entry
with its own label. -/
def Wedged (t : List LmbSegment) (n : LmbSegment) : Prop :=
  ∃ e ∈ t, ∃ f ∈ t, e.hi = n.lo ∧ e.label ≠ n.label ∧ n.hi = f.lo ∧ f.label = n.label

instance (t : List LmbSegment) (n : LmbSegment) : Decidable (Wedged t n) :=
  inferInstanceAs (Decidable (∃ e ∈ t, ∃ f ∈ t, _ ∧ _))

theorem Coalesced.canonical {t : List LmbSegment} (h : Coalesced t) : Canonical t :=
  h.imp fun hab hm => hab ⟨.inl hm.1, hm.2⟩

theorem coalesced_iff {t : List LmbSegment} (hwf : Segment.WF t) : Coalesced t ↔ Canonical t := by
  refine ⟨Coalesced.canonical, fun h => ?_⟩
  refine (h.and hwf.sorted).imp_of_mem ?_
  rintro a b ha hb ⟨hab, hle⟩ ⟨ht | ht, hl⟩
  · exact hab ⟨ht, hl⟩
  · have h1 := hwf.proper a ha
    have h2 := hwf.proper b hb
    omega

section
variable {t t' : List LmbSegment} {n : LmbSegment} {r : Int}

/-- The entries that a fresh range touches have other labels, unless the range is wedged. -/
theorem Fresh.label_ne (h : Fresh t n) (hwf : Segment.WF t) (hn : n.lo < n.hi) (hw : ¬Wedged t n) :
    ∀ s ∈ t, n.Touches s → n.label ≠ s.label := by
  rcases h with h | ⟨L, e, R, rfl, hL, -, ht, hne, -⟩
  · exact fun s hs ht => absurd ht (h s hs).2
  · intro s hs hts
    rcases hts with hhi | hlo
    · rcases ht with hhi' | hlo'
      · have he := hwf.proper e (by simp)
        have hs' := hwf.proper s hs
        rwa [hwf.eq_of_overlaps hs (b := e) (by simp) ⟨by omega, by omega⟩]
      · exact fun hl => hw ⟨e, by simp, s, hs, hlo', hne.symm, hhi, hl.symm⟩
    · rwa [eq_of_first hwf hn hL (.inr ht) hs hlo]

/-- No neighbours are left unmerged, unless the range is wedged. -/
theorem AddStep.canonical (h : AddStep t n r t') (hwf : Segment.WF t) (hcan : Canonical t)
    (hn : n.lo < n.hi) (hdis : ∀ e ∈ t, ¬n.Overlaps e) (hw : ¬Wedged t n) : Canonical t' := by
  cases h with
  | overlap | full => exact hcan
  | @grow L e R h hL _ ht hl hm =>
    subst h
    obtain ⟨hrest, hleft, hright⟩ := canonical_split_iff.1 hcan
    have hwf' := (AddStep.grow_wf hwf hn hdis ht hl).1
    refine canonical_split_iff.2 ⟨hrest, fun l hlL => ?_, fun s hs => ?_⟩
    · rintro ⟨h, hll⟩
      rcases min_choice e.lo n.lo with hmin | hmin
      · exact hleft l hlL ⟨h.trans hmin, hll⟩
      · exact (hL l hlL).2 (.inr (h.trans hmin))
    · rintro ⟨h, hll⟩
      cases R with
      | nil => simp at hs
      | cons f R =>
        rcases List.mem_cons.1 hs with rfl | hs
        · exact hm s rfl ⟨.inl h, hll⟩
        · have h1 := hwf'.le_right f (by simp)
          have h2 := hwf'.proper f (by simp)
          have h3 := hwf'.sorted
          have h4 := (List.pairwise_cons.1 (List.pairwise_append.1 h3).2.1).2
          have h5 := (List.pairwise_cons.1 h4).1 s hs
          omega
  | @growMerge L e f R h _ _ ht hl hm =>
    subst h
    obtain ⟨hen, hnf, hfl⟩ := between_of_growMerge hwf hcan hn ht hl hm
    have he := hwf.proper e (by simp)
    have hf := hwf.proper f (by simp)
    have hj : (e.join n).join f = ⟨e.lo, f.hi, e.label⟩ := by
      simp only [join, Segment.mk.injEq, and_true]
      omega
    obtain ⟨hrest, hleft, -⟩ := canonical_split_iff.1 hcan
    obtain ⟨hrest, -, hright⟩ := canonical_split_iff.1 hrest
    rw [hj]
    refine canonical_split_iff.2 ⟨hrest, hleft, fun s hs => ?_⟩
    rintro ⟨h, hll⟩
    exact hright s hs ⟨h, (hfl.trans hl).trans hll⟩
  | lost h _ _ _ _ hm =>
    subst h
    exact absurd hm (not_mergeable_of_canonical hwf hcan)
  | @insert L R h hf _ _ _ =>
    subst h
    have hne := hf.label_ne hwf hn hw
    refine canonical_split_iff.2 ⟨hcan, fun l hl => ?_, fun s hs => ?_⟩
    · exact fun h => hne l (by simp [hl]) (.inr h.1) h.2.symm
    · exact fun h => hne s (by simp [hs]) (.inl h.1) h.2

/-- A wedged range is inserted, and its neighbour of the same label is left beside it. -/
theorem AddStep.not_canonical (h : AddStep t n r t') (hwf : Segment.WF t) (hcan : Canonical t)
    (hn : n.lo < n.hi) (hdis : ∀ e ∈ t, ¬n.Overlaps e) (hroom : t.length < maxLmbRegions)
    (hw : Wedged t n) : ¬Canonical t' := by
  obtain ⟨e, he, f, hf, hen, hne, hnf, hfl⟩ := hw
  cases h with
  | overlap h _ hov =>
    subst h
    exact absurd hov (hdis _ (by simp))
  | full _ hlen => omega
  | grow h hL _ ht hl | growMerge h hL _ ht hl =>
    subst h
    rw [eq_of_first hwf hn hL (.inr ht) he hen] at hne
    exact absurd hl.symm hne
  | lost h _ _ _ _ hm =>
    subst h
    exact absurd hm (not_mergeable_of_canonical hwf hcan)
  | @insert L R h _ _ hL hR =>
    subst h
    intro hcan'
    rcases List.mem_append.1 hf with hf | hf
    · have := hL f hf
      omega
    · exact (canonical_split_iff.1 hcan').2.2 f hf ⟨hnf, hfl.symm⟩

end

section
variable {rgn : LmbRegion} {p : LmbProperty}

theorem LmbRegion.Initial.not_wedged (h : rgn.Initial) {n : LmbSegment} (hn : n.lo < n.hi) :
    ¬Wedged rgn.table n := by
  rintro ⟨e, he, f, hf, -, -, hnf, -⟩
  rw [h.table_eq, List.mem_singleton] at hf
  subst hf
  exact absurd (hnf ▸ hn) (Nat.not_lt_zero _)

theorem coalesced_singleton (s : LmbSegment) : Coalesced [s] := List.pairwise_singleton _ _

/-- **`lmb_add_region` keeps tables coalesced except where it goes wrong**: for a range that
overlaps nothing, and with a free slot, the table that it leaves is coalesced if and only if the
range is not wedged, and an emptied table does not start with two stale entries that look mergeable. -/
theorem lmbAddRegion_coalesced_iff (hok : rgn.WF ∧ Coalesced rgn.table ∨ rgn.Initial)
    (hroom : rgn.cnt.toNat < maxLmbRegions) (hn : p.seg.lo < p.seg.hi) (hp : p.seg.hi < 2 ^ 64)
    (hdis : ∀ e ∈ rgn.table, ¬p.seg.Overlaps e) :
    (∃ r rgn', lmbAddRegion rgn p.base p.size p.type p.tag = some (r, rgn') ∧
      Coalesced rgn'.table) ↔
    (rgn.cnt = 0 → ¬rgn.StalePair) ∧ ¬Wedged rgn.table p.seg := by
  rcases hok with ⟨hwf, hco⟩ | hinit
  · by_cases h0 : rgn.cnt = 0
    · have hw : ¬Wedged rgn.table p.seg := by
        rintro ⟨e, he, -⟩
        rw [LmbRegion.table_eq_nil h0] at he
        exact List.not_mem_nil he
      rcases lmbAddRegion_empty (p := p) h0 with ⟨hst, hnone⟩ | ⟨hst, rgn', hr, -, ht⟩
      · exact iff_of_false (by simp [hnone]) fun h => h.1 h0 hst
      · refine iff_of_true ⟨0, rgn', hr, ?_⟩ ⟨fun _ => hst, hw⟩
        rw [ht]
        exact coalesced_singleton _
    · have hpos := LmbRegion.toNat_cnt_pos.2 h0
      have hlen : rgn.table.length < maxLmbRegions := by rwa [LmbRegion.length_table]
      obtain ⟨r, rgn', hr, hstep, -⟩ :=
        lmbAddRegion_step hpos hwf.cnt_le hwf.not_dummy hwf.fits hp hwf.pairwise_lo
      obtain ⟨M, rgn'', hr', hwf', -⟩ :=
        lmbAddRegion_merged hwf hco.canonical hpos hroom hn hp hdis
      obtain ⟨-, rfl⟩ := Prod.mk.inj (Option.some.inj (hr.symm.trans hr'))
      have hcan := hco.canonical
      have hiff : Coalesced rgn'.table ↔ ¬Wedged rgn.table p.seg := by
        rw [coalesced_iff hwf'.wf]
        refine ⟨fun h hw => ?_, hstep.canonical hwf.wf hcan hn hdis⟩
        exact hstep.not_canonical hwf.wf hcan hn hdis hlen hw h
      rw [and_iff_right fun h => absurd h h0, ← hiff]
      constructor
      · rintro ⟨r₁, rgn₁, hr₁, h₁⟩
        obtain ⟨-, rfl⟩ := Prod.mk.inj (Option.some.inj (hr.symm.trans hr₁))
        exact h₁
      · exact fun h => ⟨r, rgn', hr, h⟩
  · obtain ⟨rgn', hr, -, ht, -⟩ := lmbAddRegion_initial hinit hn hp
    refine iff_of_true ⟨0, rgn', hr, ?_⟩ ⟨fun h0 => ?_, hinit.not_wedged hn⟩
    · rw [ht]
      exact coalesced_singleton _
    · exact absurd (hinit.1.symm.trans h0) (by decide)

end

/-- Two entries of other types, with a gap of `0x1000` between them. -/
def lmbGap : LmbRegion :=
  ⟨2, fun i => if i = 0 then ⟨0x1000, 0x1000, lmbTagNone, .boot⟩
    else ⟨0x3000, 0x1000, lmbTagNone, .runtime⟩⟩

theorem lmbGap_wf : lmbGap.WF ∧ Coalesced lmbGap.table := by
  have hwf : lmbGap.WF := ⟨by decide, by decide, by decide⟩
  exact ⟨hwf, (coalesced_iff hwf.wf).2 (by decide)⟩

/-- A range of the type of the lower entry is merged with it. -/
theorem lmbAddRegion_coalesced_lower :
    ∃ r rgn', lmbAddRegion lmbGap 0x2000 0x1000 .boot lmbTagNone = some (r, rgn') ∧
      Coalesced rgn'.table :=
  (@lmbAddRegion_coalesced_iff lmbGap ⟨0x2000, 0x1000, lmbTagNone, .boot⟩ (.inl lmbGap_wf)
    (by decide) (by decide) (by decide) (by decide)).2 ⟨by decide, by decide⟩

/-- A range of the type of the upper entry stays beside it. -/
theorem lmbAddRegion_coalesced_upper :
    ¬∀ (rgn : LmbRegion) (p : LmbProperty), rgn.WF ∧ Coalesced rgn.table ∨ rgn.Initial →
      rgn.cnt.toNat < maxLmbRegions → p.seg.lo < p.seg.hi → p.seg.hi < 2 ^ 64 →
      (∀ e ∈ rgn.table, ¬p.seg.Overlaps e) →
      ∃ r rgn', lmbAddRegion rgn p.base p.size p.type p.tag = some (r, rgn') ∧
        Coalesced rgn'.table := by
  intro h
  obtain ⟨r, rgn', hr, hco⟩ := h lmbGap ⟨0x2000, 0x1000, lmbTagNone, .runtime⟩ (.inl lmbGap_wf)
    (by decide) (by decide) (by decide) (by decide)
  have ht : (lmbAddRegion lmbGap 0x2000 0x1000 .runtime lmbTagNone).map (fun r => r.2.table) =
      some [⟨0x1000, 0x2000, .boot, lmbTagNone⟩, ⟨0x2000, 0x3000, .runtime, lmbTagNone⟩,
        ⟨0x3000, 0x4000, .runtime, lmbTagNone⟩] := by decide
  rw [hr, Option.map_some, Option.some.injEq] at ht
  exact absurd (ht ▸ hco.canonical) (by decide)

end ShieldLoader
