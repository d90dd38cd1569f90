import ShieldLoader.Lmb.Free

/-!
# Tables without mergeable neighbours

On a canonical table the merge at the end of `lmb_add_region` can only join the entry that has just
been grown, so no range is lost: with a free slot, a range that overlaps nothing is recorded as an
entry of its own or merged with the neighbours that it touches.
-/

namespace ShieldLoader

open Segment

/-- The range `n` and the entries `M`, all of which touch it and have its label, become one entry. -/
def Merged (t : List LmbSegment) (n : LmbSegment) (M t' : List LmbSegment) : Prop :=
  ∃ L m R, t = L ++ M ++ R ∧ t' = L ++ m :: R ∧ (∀ e ∈ M, e.Mergeable n) ∧
    den [m] = den M ∪ den [n]

theorem Merged.length {t t' M : List LmbSegment} {n : LmbSegment} (h : Merged t n M t') :
    t'.length + M.length = t.length + 1 := by
  obtain ⟨L, m, R, rfl, rfl, -, -⟩ := h
  simp only [List.length_append, List.length_cons]
  omega

theorem Merged.den_eq {t t' M : List LmbSegment} {n : LmbSegment} (h : Merged t n M t') :
    den t' = den t ∪ den [n] := by
  obtain ⟨L, m, R, rfl, rfl, -, hm⟩ := h
  rw [den_append, den_cons, hm, den_append, den_append]
  ext p
  simp only [Set.mem_union]
  tauto

section
variable {t t' L R : List LmbSegment} {n e f : LmbSegment} {r : Int}

/-- Neighbours in a canonical table are not mergeable. -/
theorem not_mergeable_of_canonical (hwf : Segment.WF (L ++ e :: f :: R))
    (hcan : Canonical (L ++ e :: f :: R)) : ¬e.Mergeable f := by
  rintro ⟨ht, hl⟩
  have hef := (List.pairwise_cons.1 (List.pairwise_append.1 hcan).2.1).1 f (by simp)
  have hle := hwf.le_right f (by simp)
  have he := hwf.proper e (by simp)
  have hf := hwf.proper f (by simp)
  exact hef ⟨ht.resolve_right (by omega), hl⟩

/-- When the grown entry is merged with its successor, the range lies between the two. -/
theorem between_of_growMerge (hwf : Segment.WF (L ++ e :: f :: R))
    (hcan : Canonical (L ++ e :: f :: R)) (hn : n.lo < n.hi) (ht : n.Touches e)
    (hl : n.label = e.label) (hm : (e.join n).Mergeable f) :
    e.hi = n.lo ∧ n.hi = f.lo ∧ f.label = n.label := by
  have hef := hwf.le_right f (by simp)
  have he := hwf.proper e (by simp)
  have hf := hwf.proper f (by simp)
  obtain ⟨hjoin, hlab⟩ := hm
  have hlab' : e.label = f.label := hlab
  have hgap : ¬e.hi = f.lo := fun h => not_mergeable_of_canonical hwf hcan ⟨.inl h, hlab'⟩
  simp only [Touches, join] at hjoin ht
  refine ⟨?_, ?_, hlab'.symm.trans hl.symm⟩ <;> omega

/-- **A range that overlaps nothing is recorded**, as an entry of its own or merged with one or both
neighbours, when the table is canonical and has a free slot. -/
theorem AddStep.merged (h : AddStep t n r t') (hwf : Segment.WF t) (hcan : Canonical t)
    (hn : n.lo < n.hi) (hdis : ∀ e ∈ t, ¬n.Overlaps e) (hroom : t.length < maxLmbRegions) :
    ∃ M, M.length ≤ 2 ∧ r = M.length ∧ Merged t n M t' := by
  cases h with
  | overlap h _ hov =>
    subst h
    exact absurd hov (hdis _ (by simp))
  | full _ hlen => omega
  | @grow L e R h _ _ ht hl =>
    subst h
    have hm : e.Mergeable n := ⟨ht.symm, hl.symm⟩
    refine ⟨[e], by simp, rfl, L, e.join n, R, by simp, rfl, by simpa using hm, ?_⟩
    exact den_join (hwf.proper e (by simp)) hn hm
  | @growMerge L e f R h _ _ ht hl hm =>
    subst h
    obtain ⟨hen, hnf, hfl⟩ := between_of_growMerge hwf hcan hn ht hl hm
    have he := hwf.proper e (by simp)
    have hf := hwf.proper f (by simp)
    have hem : e.Mergeable n := ⟨ht.symm, hl.symm⟩
    have hfm : f.Mergeable n := ⟨.inr hnf, hfl⟩
    refine ⟨[e, f], by simp, rfl, L, (e.join n).join f, R, by simp, rfl, by simp [hem, hfm], ?_⟩
    have hjoin : (e.join n).lo < (e.join n).hi := by
      simp only [join]
      omega
    rw [den_join hjoin hf hm, den_join he hn hem, den_cons e [f]]
    ext p
    simp only [Set.mem_union]
    tauto
  | lost h _ _ _ _ hm =>
    subst h
    exact absurd hm (not_mergeable_of_canonical hwf hcan)
  | @insert L R h _ _ _ _ =>
    subst h
    exact ⟨[], by simp, rfl, L, n, R, by simp, rfl, by simp, by simp⟩

end

section
variable {rgn : LmbRegion} {p : LmbProperty}

/-- The dummy of `lmb_init` is replaced by the first range. -/
theorem lmbAddRegion_initial (hinit : rgn.Initial) (hn : p.seg.lo < p.seg.hi)
    (hp : p.seg.hi < 2 ^ 64) :
    ∃ rgn', lmbAddRegion rgn p.base p.size p.type p.tag = some (0, rgn') ∧ rgn'.cnt = rgn.cnt ∧
      rgn'.table = [p.seg] ∧ rgn'.WF := by
  have ht : LmbRegion.table { rgn with region := Function.update rgn.region 0 p } = [p.seg] := by
    rw [LmbRegion.table_update, hinit.table_eq]
    rfl
  refine ⟨{ rgn with region := Function.update rgn.region 0 p }, ?_, rfl, ht, ?_, ?_, ?_⟩
  · rw [lmbAddRegion, if_pos ⟨hinit.1, by rw [hinit.2]; rfl⟩]
  · simp only [hinit.1]
    decide
  · rw [ht]
    exact .singleton hn
  · rw [ht]
    simpa using hp

/-- A canonical table with a free slot records the range. -/
theorem lmbAddRegion_merged (hwf : rgn.WF) (hcan : Canonical rgn.table) (h0 : 1 ≤ rgn.cnt.toNat)
    (hroom : rgn.cnt.toNat < maxLmbRegions) (hn : p.seg.lo < p.seg.hi) (hp : p.seg.hi < 2 ^ 64)
    (hdis : ∀ e ∈ rgn.table, ¬p.seg.Overlaps e) :
    ∃ M rgn', lmbAddRegion rgn p.base p.size p.type p.tag = some ((M.length : Int), rgn') ∧
      rgn'.WF ∧ M.length ≤ 2 ∧ Merged rgn.table p.seg M rgn'.table ∧
      AddStep rgn.table p.seg M.length rgn'.table := by
  have hlen : rgn.table.length < maxLmbRegions := by rwa [LmbRegion.length_table]
  obtain ⟨r, rgn', hr, hstep, -⟩ :=
    lmbAddRegion_step h0 hwf.cnt_le hwf.not_dummy hwf.fits hp hwf.pairwise_lo
  obtain ⟨M, hM, rfl, hmerged⟩ := hstep.merged hwf.wf hcan hn hdis hlen
  exact ⟨M, rgn', hr, hwf.of_addStep hstep (by omega) hn hp hdis, hM, hmerged, hstep⟩

/-- **`lmb_add_region` is exact** on a canonical table with a free slot. It takes every range that
overlaps nothing and adds exactly its points; the dummy of `lmb_init` is replaced by the range, and
any other table has its number of entries changed by the neighbours that the range is merged with. -/
theorem lmbAddRegion_exact (hok : rgn.WF ∧ Canonical rgn.table ∨ rgn.Initial)
    (h0 : 1 ≤ rgn.cnt.toNat) (hroom : rgn.cnt.toNat < maxLmbRegions) (hn : p.seg.lo < p.seg.hi)
    (hp : p.seg.hi < 2 ^ 64) (hdis : ∀ e ∈ rgn.table, ¬p.seg.Overlaps e) :
    ∃ r rgn', lmbAddRegion rgn p.base p.size p.type p.tag = some (r, rgn') ∧ 0 ≤ r ∧ rgn'.WF ∧
      den rgn'.table = den rgn.table ∪ den [p.seg] ∧
      (rgn.Initial → rgn'.table = [p.seg] ∧ rgn'.cnt = rgn.cnt) ∧
      (¬rgn.Initial → ∃ M, M.length ≤ 2 ∧ r = M.length ∧ Merged rgn.table p.seg M rgn'.table ∧
        rgn'.cnt.toNat + M.length = rgn.cnt.toNat + 1) := by
  rcases hok with ⟨hwf, hcan⟩ | hinit
  · obtain ⟨M, rgn', hr, hwf', hM, hmerged, -⟩ :=
      lmbAddRegion_merged hwf hcan h0 hroom hn hp hdis
    have hcnt := hmerged.length
    rw [LmbRegion.length_table, LmbRegion.length_table] at hcnt
    refine ⟨M.length, rgn', hr, by omega, hwf', hmerged.den_eq, fun hinit => ?_,
      fun _ => ⟨M, hM, rfl, hmerged, hcnt⟩⟩
    exact absurd ⟨hinit.1, by rw [hinit.2]; rfl⟩ hwf.not_dummy
  · obtain ⟨rgn', hr, hcnt, ht, hwf'⟩ := lmbAddRegion_initial hinit hn hp
    refine ⟨0, rgn', hr, le_rfl, hwf', ?_, fun _ => ⟨ht, hcnt⟩, fun h => absurd hinit h⟩
    rw [ht, hinit.den_table, Set.empty_union]

/-- The range closes the gap between two entries with its label. -/
theorem lmbAddRegion_exact_between :
    let rgn : LmbRegion :=
      ⟨2, fun i => ⟨if i = 0 then 0x1000 else 0x3000, 0x1000, lmbTagNone, .boot⟩⟩
    let p : LmbProperty := ⟨0x2000, 0x1000, lmbTagNone, .boot⟩
    ∃ r rgn', lmbAddRegion rgn p.base p.size p.type p.tag = some (r, rgn') ∧ 0 ≤ r ∧ rgn'.WF ∧
      den rgn'.table = den rgn.table ∪ den [p.seg] ∧
      ∃ M, M.length ≤ 2 ∧ r = M.length ∧ Merged rgn.table p.seg M rgn'.table := by
  intro rgn p
  have hwf : rgn.WF := ⟨by decide, by decide, by decide⟩
  have hnot : ¬rgn.Initial := fun h => absurd h.1 (by decide)
  obtain ⟨r, rgn', hr, hpos, hwf', hden, -, hmerged⟩ :=
    @lmbAddRegion_exact rgn p (.inl ⟨hwf, by decide⟩) (by decide) (by decide)
      (by decide) (by decide) (by decide)
  obtain ⟨M, hM, hrM, hmerged, -⟩ := hmerged hnot
  exact ⟨r, rgn', hr, hpos, hwf', hden, M, hM, hrM, hmerged⟩

end

end ShieldLoader
