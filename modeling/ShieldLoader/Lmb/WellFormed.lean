import ShieldLoader.Lmb.AddRegion

/-!
# Well-formed tables

A table is well formed when its entries are in order, disjoint, not empty and end below `2 ^ 64`.
On such a table a call of `lmb_add_region` refuses a range that overlaps an entry, and for any other
range it fails for want of room, or records exactly the range, or loses it (`Lost`).
-/

namespace ShieldLoader

open Segment

/-- A table of `lmb.c` that is well formed. -/
structure LmbRegion.WF (rgn : LmbRegion) : Prop where
  cnt_le : rgn.cnt.toNat ≤ maxLmbRegions
  wf : Segment.WF rgn.table
  fits : ∀ s ∈ rgn.table, s.hi < 2 ^ 64

/-- The table of `lmb_init`. -/
def LmbRegion.Initial (rgn : LmbRegion) : Prop := rgn.cnt = 1 ∧ rgn.region 0 = lmbDummy

/-- Well formed, or as `lmb_init` left it. -/
def LmbRegion.Ok (rgn : LmbRegion) : Prop := rgn.WF ∨ rgn.Initial

/-- The ranges that `lmb_add_region` loses: `n` ends at the entry `e`, no entry ends where `n`
starts, and `e` has another label than `n` and is continued, with its own label, by its successor
`f`. The code then merges `f` into `e` and reports the merge as if it had been that of `n`. -/
def Lost (t : List LmbSegment) (n : LmbSegment) : Prop :=
  ∃ L e f R, t = L ++ e :: f :: R ∧ (∀ l ∈ L, l.hi ≠ n.lo) ∧ n.hi = e.lo ∧ n.label ≠ e.label ∧
    e.hi = f.lo ∧ e.label = f.label

/-- `n` touches an entry from above and yet overlaps an entry. -/
def Hidden (t : List LmbSegment) (n : LmbSegment) : Prop :=
  (∃ e ∈ t, e.hi = n.lo) ∧ ∃ f ∈ t, n.Overlaps f

namespace AddStep

variable {t t' L R : List LmbSegment} {n e f : LmbSegment} {r : Int}

/-- A property of the entries and of the new range that joining keeps holds of the new entries. -/
theorem forall_mem {P : LmbSegment → Prop} (hjoin : ∀ {a b}, P a → P b → P (a.join b))
    (h : AddStep t n r t') (ht : ∀ s ∈ t, P s) (hn : P n) : ∀ s ∈ t', P s := by
  cases h with
  | overlap | full => exact ht
  | grow h =>
    subst h
    simp only [List.forall_mem_append, List.forall_mem_cons] at ht ⊢
    exact ⟨ht.1, hjoin ht.2.1 hn, ht.2.2⟩
  | growMerge h =>
    subst h
    simp only [List.forall_mem_append, List.forall_mem_cons] at ht ⊢
    exact ⟨ht.1, hjoin (hjoin ht.2.1 hn) ht.2.2.1, ht.2.2.2⟩
  | lost h =>
    subst h
    simp only [List.forall_mem_append, List.forall_mem_cons] at ht ⊢
    exact ⟨ht.1, hjoin ht.2.1 ht.2.2.1, ht.2.2.2⟩
  | insert h =>
    subst h
    simp only [List.forall_mem_append, List.forall_mem_cons] at ht ⊢
    exact ⟨ht.1, hn, ht.2⟩

/-- Entries are only ever extended. -/
theorem inside (h : AddStep t n r t') : ∀ e ∈ t, ∃ e' ∈ t', e.Inside e' := by
  have hkeep : ∀ {s : LmbSegment}, s ∈ t' → ∃ e' ∈ t', s.Inside e' := fun hs => ⟨_, hs, .refl _⟩
  cases h with
  | overlap | full => exact fun e he => hkeep he
  | @grow L e R h =>
    subst h
    simp only [List.forall_mem_append, List.forall_mem_cons]
    exact ⟨fun s hs => hkeep (by simp [hs]), ⟨e.join n, by simp, inside_join_left ..⟩,
      fun s hs => hkeep (by simp [hs])⟩
  | @growMerge L e f R h =>
    subst h
    simp only [List.forall_mem_append, List.forall_mem_cons]
    exact ⟨fun s hs => hkeep (by simp [hs]),
      ⟨(e.join n).join f, by simp, (inside_join_left ..).trans (inside_join_left ..)⟩,
      ⟨(e.join n).join f, by simp, inside_join_right ..⟩, fun s hs => hkeep (by simp [hs])⟩
  | @lost L e f R h =>
    subst h
    simp only [List.forall_mem_append, List.forall_mem_cons]
    exact ⟨fun s hs => hkeep (by simp [hs]), ⟨e.join f, by simp, inside_join_left ..⟩,
      ⟨e.join f, by simp, inside_join_right ..⟩, fun s hs => hkeep (by simp [hs])⟩
  | insert h =>
    subst h
    simp only [List.forall_mem_append]
    exact ⟨fun s hs => hkeep (by simp [hs]), fun s hs => hkeep (by simp [hs])⟩

theorem length_le (h : AddStep t n r t') (ht : t.length ≤ maxLmbRegions) :
    t'.length ≤ maxLmbRegions := by
  cases h <;> subst_vars <;> simp_all <;> omega

theorem ne_nil (h : AddStep t n r t') (ht : t ≠ []) : t' ≠ [] := by
  cases h <;> simp_all

theorem eq_of_neg (h : AddStep t n r t') (hr : r < 0) : r = -1 ∧ t' = t := by
  cases h <;> simp_all

/-- In a well-formed table, a range that touches an entry and neither overlaps it nor is near what
precedes it overlaps nothing. -/
theorem disjoint_of_touches (hwf : Segment.WF (L ++ e :: R)) (hh : ¬Hidden (L ++ e :: R) n)
    (hL : ∀ l ∈ L, n.Clear l) (he : ¬n.Overlaps e) (ht : n.Touches e) :
    ∀ f ∈ L ++ e :: R, ¬n.Overlaps f := by
  rcases ht with ht | ht
  · intro f hf
    rcases List.mem_append.1 hf with hf | hf
    · exact (hL f hf).1
    · rcases List.mem_cons.1 hf with rfl | hf
      · exact he
      · have h1 := hwf.le_right f hf
        have h2 := hwf.proper e (by simp)
        exact fun h => absurd (h.2.trans_eq ht) (by omega)
  · exact fun f hf hov => hh ⟨⟨e, by simp, ht⟩, f, hf, hov⟩

theorem disjoint_of_fresh (hwf : Segment.WF t) (hh : ¬Hidden t n) (hf : Fresh t n) :
    ∀ f ∈ t, ¬n.Overlaps f := by
  rcases hf with hf | ⟨L, e, R, rfl, hL, he, ht, _⟩
  · exact fun f h => (hf f h).1
  · exact disjoint_of_touches hwf hh hL he ht

/-- A range that overlaps nothing and touches `e`, with nothing near before, lies against `e`. -/
theorem le_of_disjoint (hwf : Segment.WF (L ++ e :: R))
    (hdis : ∀ f ∈ L ++ e :: R, ¬n.Overlaps f) (ht : n.Touches e) :
    (n.hi = e.lo ∧ (∀ l ∈ L, l.hi ≤ n.lo) ∧ ∀ r ∈ R, e.hi ≤ r.lo) ∨
      (e.hi = n.lo ∧ (∀ l ∈ L, l.hi ≤ e.lo) ∧ ∀ r ∈ R, n.hi ≤ r.lo) := by
  have he := hwf.proper e (by simp)
  rcases ht with ht | ht
  · refine .inl ⟨ht, fun l hl => ?_, hwf.le_right⟩
    have h1 := hwf.left_le l hl
    have h2 := hwf.proper l (by simp [hl])
    rcases not_overlaps_iff.1 (hdis l (by simp [hl])) with h | h
    · exact h
    · omega
  · refine .inr ⟨ht, hwf.left_le, fun r hr => ?_⟩
    have h1 := hwf.le_right r hr
    have h2 := hwf.proper r (by simp [hr])
    rcases not_overlaps_iff.1 (hdis r (by simp [hr])) with h | h
    · omega
    · exact h

/-- Growing `e` by a range against it records exactly that range. -/
theorem grow_wf (hwf : Segment.WF (L ++ e :: R)) (hn : n.lo < n.hi)
    (hdis : ∀ f ∈ L ++ e :: R, ¬n.Overlaps f) (ht : n.Touches e) (hl : n.label = e.label) :
    Segment.WF (L ++ e.join n :: R) ∧
      den (L ++ e.join n :: R) = den (L ++ e :: R) ∪ den [n] := by
  have he := hwf.proper e (by simp)
  have hden : den (L ++ e.join n :: R) = den (L ++ e :: R) ∪ den [n] := by
    rw [den_append, den_append, den_cons (e.join n), den_cons e,
      den_join he hn ⟨ht.symm, hl.symm⟩]
    ext p; simp only [Set.mem_union]; tauto
  refine ⟨?_, hden⟩
  rcases le_of_disjoint hwf hdis ht with ⟨ht, hL, hR⟩ | ⟨ht, hL, hR⟩
  · exact hwf.replace (by simp only [join]; omega) (fun l h => le_min (hwf.left_le l h) (hL l h))
      fun r h => max_le (hR r h) (by have := hR r h; omega)
  · exact hwf.replace (by simp only [join]; omega)
      (fun l h => le_min (hL l h) (by have := hL l h; omega))
      fun r h => max_le (hwf.le_right r h) (hR r h)

/-- Merging `e` with its successor changes nothing but the number of entries. -/
theorem merge_wf (hwf : Segment.WF (L ++ e :: f :: R)) (hm : e.Mergeable f) :
    e.hi = f.lo ∧ Segment.WF (L ++ e.join f :: R) ∧
      den (L ++ e.join f :: R) = den (L ++ e :: f :: R) := by
  have he := hwf.proper e (by simp)
  have hf := hwf.proper f (by simp)
  have hef := hwf.le_right f (by simp)
  have ht : e.hi = f.lo := hm.1.resolve_right (by omega)
  have hj : e.join f = ⟨e.lo, f.hi, e.label⟩ := by
    simp only [join, Segment.mk.injEq, and_true]; omega
  refine ⟨ht, hj ▸ hwf.merge, ?_⟩
  rw [den_append, den_append, den_cons (e.join f), den_cons e, den_cons f, den_join he hf hm]
  ext p; simp only [Set.mem_union]; tauto

/-- Insertion of a range that overlaps nothing, at its place in the order. -/
theorem insert_wf (hwf : Segment.WF (L ++ R)) (hn : n.lo < n.hi)
    (hdis : ∀ f ∈ L ++ R, ¬n.Overlaps f) (hL : ∀ l ∈ L, l.lo ≤ n.lo) (hR : ∀ r ∈ R, n.lo < r.lo) :
    Segment.WF (L ++ n :: R) ∧ den (L ++ n :: R) = den (L ++ R) ∪ den [n] := by
  refine ⟨hwf.insert hn (fun l hl => ?_) fun r hr => ?_, ?_⟩
  · have h1 := hL l hl
    rcases not_overlaps_iff.1 (hdis l (by simp [hl])) with h | h <;> omega
  · have h1 := hR r hr
    have h2 := hwf.proper r (by simp [hr])
    rcases not_overlaps_iff.1 (hdis r (by simp [hr])) with h | h <;> omega
  · rw [den_middle]

/-- **The outcomes on a well-formed table**, for a range that is not hidden: it is refused because
it overlaps an entry or because the table is full; or it overlaps nothing and is recorded, or it
overlaps nothing and is lost. -/
theorem cases_wf (hwf : Segment.WF t) (hn : n.lo < n.hi) (hh : ¬Hidden t n)
    (h : AddStep t n r t') :
    (r = -1 ∧ t' = t ∧ ((∃ f ∈ t, n.Overlaps f) ∨ maxLmbRegions ≤ t.length)) ∨
    ((∀ f ∈ t, ¬n.Overlaps f) ∧ 0 ≤ r ∧ Segment.WF t' ∧
      (den t' = den t ∪ den [n] ∧ (∃ e ∈ t', n.Inside e) ∨ Lost t n ∧ den t' = den t)) := by
  cases h with
  | overlap h _ hov => subst h; exact .inl ⟨rfl, rfl, .inl ⟨_, by simp, hov⟩⟩
  | full _ hlen => exact .inl ⟨rfl, rfl, .inr hlen⟩
  | @grow L e R h hL he ht hl _ =>
    subst h
    have hdis := disjoint_of_touches hwf hh hL he ht
    obtain ⟨h1, h2⟩ := grow_wf hwf hn hdis ht hl
    exact .inr ⟨hdis, by omega, h1, .inl ⟨h2, e.join n, by simp, inside_join_right ..⟩⟩
  | @growMerge L e f R h hL he ht hl hm =>
    subst h
    have hdis := disjoint_of_touches hwf hh hL he ht
    obtain ⟨h1, h2⟩ := grow_wf hwf hn hdis ht hl
    obtain ⟨_, h3, h4⟩ := merge_wf h1 hm
    exact .inr ⟨hdis, by omega, h3, .inl ⟨h4.trans h2, (e.join n).join f, by simp,
      (inside_join_right ..).trans (inside_join_left ..)⟩⟩
  | @lost L e f R h hL he ht hl hm =>
    subst h
    have hdis := disjoint_of_touches hwf hh hL he ht
    obtain ⟨h3, h1, h2⟩ := merge_wf hwf hm
    refine .inr ⟨hdis, by omega, h1, .inr ⟨⟨_, _, _, _, rfl, fun l hl h => ?_, ?_, hl, h3, hm.2⟩, h2⟩⟩
    · exact (hL l hl).2 (.inr h)
    · refine ht.resolve_right fun h => ?_
      have hf := hwf.proper f (by simp)
      exact hdis f (by simp) ⟨by omega, by omega⟩
  | insert h hf _ hL hR =>
    subst h
    have hdis := disjoint_of_fresh hwf hh hf
    obtain ⟨h1, h2⟩ := insert_wf hwf hn hdis hL hR
    exact .inr ⟨hdis, le_rfl, h1, .inl ⟨h2, n, by simp, .refl _⟩⟩

end AddStep

/-! ### `lmb_add_region` on a well-formed table -/

namespace LmbRegion

variable {rgn : LmbRegion}

theorem WF.pairwise_lo (h : rgn.WF) : rgn.table.Pairwise fun a b => a.lo ≤ b.lo :=
  h.wf.sorted.imp_of_mem fun ha _ hab => (h.wf.proper _ ha).le.trans hab

theorem WF.not_dummy (h : rgn.WF) : ¬(rgn.cnt = 1 ∧ (rgn.region 0).size = 0) := by
  rintro ⟨hc, hs⟩
  have := h.wf.proper _ (seg_mem_table (i := 0) (by rw [hc]; decide))
  simp [hs] at this

theorem Initial.table_eq (h : rgn.Initial) : rgn.table = [lmbDummy.seg] := by
  rw [table, h.1]
  simp [h.2]

theorem not_overlaps_dummy {n : LmbSegment} : ¬n.Overlaps lmbDummy.seg :=
  fun h => absurd h.1 (Nat.not_lt_zero _)

theorem Initial.den_table (h : rgn.Initial) : den rgn.table = ∅ := by
  rw [h.table_eq]
  ext ⟨x, k⟩
  simp [LmbProperty.seg, lmbDummy]

/-- The dummy entry is removed, and stays behind as a stale one. -/
theorem Initial.remove (h : rgn.Initial) :
    ∃ rgn', lmbRemoveRegion rgn 0 = some rgn' ∧ rgn'.cnt = 0 ∧ rgn'.region 0 = lmbDummy := by
  have hcnt : rgn.cnt.toNat = 1 := by
    rw [h.1]
    rfl
  obtain ⟨rgn', hr, hc, -, hreg⟩ := @lmbRemoveRegion_eq rgn 0 (by omega) (by rw [hcnt]; decide)
  refine ⟨rgn', hr, UInt64.toNat_inj.1 (by rw [hc, hcnt]; rfl), ?_⟩
  rw [hreg 0, if_neg (by omega), h.2]

theorem Initial.not_overlaps (h : rgn.Initial) {n : LmbSegment} :
    ∀ f ∈ rgn.table, ¬n.Overlaps f := by
  rw [h.table_eq]
  simpa using not_overlaps_dummy

theorem Ok.cnt_le (h : rgn.Ok) : rgn.cnt.toNat ≤ maxLmbRegions := by
  rcases h with h | h
  · exact h.cnt_le
  · rw [h.1]; decide

theorem Ok.fits (h : rgn.Ok) : ∀ s ∈ rgn.table, s.hi < 2 ^ 64 := by
  rcases h with h | h
  · exact h.fits
  · rw [h.table_eq]; simp [lmbDummy]

end LmbRegion

/-- A range that overlaps nothing and is taken keeps the table well formed. -/
theorem LmbRegion.WF.of_addStep {rgn rgn' : LmbRegion} {n : LmbSegment} {r : Int} (hwf : rgn.WF)
    (hstep : AddStep rgn.table n r rgn'.table) (hr : 0 ≤ r) (hn : n.lo < n.hi) (hfit : n.hi < 2 ^ 64)
    (hdis : ∀ f ∈ rgn.table, ¬n.Overlaps f) : rgn'.WF := by
  have hlen := hstep.length_le (by simpa using hwf.cnt_le)
  refine ⟨by simpa using hlen, ?_, ?_⟩
  · rcases hstep.cases_wf hwf.wf hn fun ⟨_, f, hf, hov⟩ => hdis f hf hov with ⟨h, -⟩ | ⟨-, -, h, -⟩
    · omega
    · exact h
  · exact hstep.forall_mem (P := fun s => s.hi < 2 ^ 64) (fun ha hb => max_lt ha hb) hwf.fits hfit

/-- **`lmb_add_region` on a well-formed table that is not empty**, for a range that is neither
empty nor hidden and does not wrap. -/
theorem lmbAddRegion_ok {rgn : LmbRegion} {p : LmbProperty} (hok : rgn.Ok)
    (h0 : 0 < rgn.cnt.toNat) (hn : p.seg.lo < p.seg.hi) (hp : p.seg.hi < 2 ^ 64)
    (hh : ¬Hidden rgn.table p.seg) :
    ∃ r rgn', lmbAddRegion rgn p.base p.size p.type p.tag = some (r, rgn') ∧
      ((r = -1 ∧ rgn' = rgn ∧
          ((∃ f ∈ rgn.table, p.seg.Overlaps f) ∨ maxLmbRegions ≤ rgn.cnt.toNat)) ∨
        ((∀ f ∈ rgn.table, ¬p.seg.Overlaps f) ∧ 0 ≤ r ∧ rgn'.WF ∧ rgn'.table ≠ [] ∧
          (den rgn'.table = den rgn.table ∪ den [p.seg] ∧ (∃ e ∈ rgn'.table, p.seg.Inside e) ∨
            Lost rgn.table p.seg ∧ den rgn'.table = den rgn.table) ∧
          (∀ e ∈ rgn.table, e.lo < e.hi → ∃ e' ∈ rgn'.table, e.Inside e') ∧
          ∀ Q : LmbLabel → Prop, (∀ s ∈ rgn.table, s.lo < s.hi → Q s.label) → Q p.seg.label →
            ∀ s ∈ rgn'.table, Q s.label)) := by
  rcases hok with hwf | hinit
  · obtain ⟨r, rgn', hr, hstep, hneg⟩ :=
      lmbAddRegion_step h0 hwf.cnt_le hwf.not_dummy hwf.fits hp hwf.pairwise_lo
    refine ⟨r, rgn', hr, ?_⟩
    rcases hstep.cases_wf hwf.wf hn hh with ⟨rfl, _, h⟩ | ⟨h1, h2, h3, h4⟩
    · exact .inl ⟨rfl, hneg (by omega), by simpa using h⟩
    · have hfits : ∀ s ∈ rgn'.table, s.hi < 2 ^ 64 :=
        hstep.forall_mem (P := fun s => s.hi < 2 ^ 64) (fun ha hb => max_lt ha hb) hwf.fits hp
      have hlen := hstep.length_le (by simpa using hwf.cnt_le)
      have hne : rgn.table ≠ [] := by
        rw [Ne, ← List.length_eq_zero_iff, LmbRegion.length_table]; omega
      refine .inr ⟨h1, h2, ⟨by simpa using hlen, h3, hfits⟩, hstep.ne_nil hne, h4,
        fun e he _ => hstep.inside e he, fun Q hQ hQp => ?_⟩
      exact hstep.forall_mem (P := fun s => Q s.label) (fun ha _ => ha)
        (fun s hs => hQ s hs (hwf.wf.proper s hs)) hQp
  · refine ⟨0, { rgn with region := Function.update rgn.region 0 p }, ?_, .inr ?_⟩
    · rw [lmbAddRegion, if_pos ⟨hinit.1, by rw [hinit.2]; rfl⟩]
    · have ht : LmbRegion.table { rgn with region := Function.update rgn.region 0 p } = [p.seg] := by
        rw [LmbRegion.table_update, hinit.table_eq]; rfl
      refine ⟨hinit.not_overlaps, le_rfl, ⟨?_, ?_, ?_⟩, by simp [ht],
        .inl ⟨?_, p.seg, by simp [ht], .refl _⟩, fun e he hlt => ?_, fun Q _ hQp => ?_⟩
      · simp only [hinit.1]; decide
      · rw [ht]; exact .singleton hn
      · rw [ht]; simpa using hp
      · rw [ht, hinit.den_table, Set.empty_union]
      · rw [hinit.table_eq, List.mem_singleton] at he
        rw [he] at hlt
        exact absurd hlt (Nat.lt_irrefl 0)
      · rw [ht]; simpa using hQp

end ShieldLoader
