import ShieldLoader.Lmb.Heap

/-!
# Tables that need not be well formed

The ranges that a device tree and a command line name may be empty and may overlap each other. What
is left of well-formedness then is that the entries are in order of their bases and do not wrap.
Additions keep this, and they never take a point away.
-/

namespace ShieldLoader

open Segment

/-- At least one entry, and the entries in order of their bases and not wrapping. -/
structure LmbRegion.Loose (rgn : LmbRegion) : Prop where
  pos : 0 < rgn.cnt.toNat
  cnt_le : rgn.cnt.toNat ≤ maxLmbRegions
  sorted : rgn.table.Pairwise fun a b => a.lo ≤ b.lo
  fits : ∀ s ∈ rgn.table, s.hi < 2 ^ 64

theorem LmbRegion.Initial.loose {rgn : LmbRegion} (h : rgn.Initial) : rgn.Loose := by
  refine ⟨by rw [h.1]; decide, by rw [h.1]; decide, ?_, ?_⟩
  · rw [h.table_eq]
    exact List.pairwise_singleton ..
  · rw [h.table_eq]
    simp [lmbDummy]

/-- No label other than `k` occurs twice. -/
def Distinct (t : List LmbSegment) (k : LmbLabel) : Prop :=
  t.Pairwise fun a b => a.label = b.label → a.label = k

namespace AddStep

variable {t t' : List LmbSegment} {n : LmbSegment} {r : Int}

/-- The order of the bases is kept. -/
theorem sorted (h : AddStep t n r t') (ht : t.Pairwise fun a b => a.lo ≤ b.lo)
    (hord : ∀ s ∈ t, s.lo ≤ s.hi) (hn : n.lo ≤ n.hi) : t'.Pairwise fun a b => a.lo ≤ b.lo := by
  -- a range against `e` with nothing near before lies above what is before `e`
  have hgrow : ∀ {L e R}, t = L ++ e :: R → (∀ l ∈ L, n.Clear l) → ¬n.Overlaps e → n.Touches e →
      (L ++ e.join n :: R).Pairwise fun a b => a.lo ≤ b.lo := by
    rintro L e R rfl hL he htouch
    rw [List.pairwise_append, List.pairwise_cons] at ht ⊢
    obtain ⟨h1, ⟨h2, h3⟩, h4⟩ := ht
    refine ⟨h1, ⟨fun r hr => (min_le_left ..).trans (h2 r hr), h3⟩, fun l hl b hb => ?_⟩
    rcases List.mem_cons.1 hb with rfl | hb
    · refine le_min (h4 l hl e (by simp)) ?_
      obtain ⟨hov, hto⟩ := hL l hl
      have hne : n.hi ≠ l.lo := fun h => hto (.inl h)
      have h5 := h4 l hl e (by simp)
      have h6 := hord l (by simp [hl])
      have h7 := hord e (by simp)
      rcases htouch with ht | ht
      · rcases not_overlaps_iff.1 hov with h | h <;> omega
      · exact h5.trans (h7.trans ht.le)
    · exact h4 l hl b (by simp [hb])
  have hmerge : ∀ {L : List LmbSegment} {e f : LmbSegment} {R}, (L ++ e :: f :: R).Pairwise
      (fun a b => a.lo ≤ b.lo) → (L ++ e.join f :: R).Pairwise fun a b => a.lo ≤ b.lo := by
    intro L e f R ht
    rw [List.pairwise_append, List.pairwise_cons, List.pairwise_cons] at ht
    obtain ⟨h1, ⟨h2, h3, h4⟩, h5⟩ := ht
    have hef := h2 f (by simp)
    rw [List.pairwise_append, List.pairwise_cons]
    refine ⟨h1, ⟨fun r hr => (min_le_right ..).trans (h3 r hr), h4⟩, fun l hl b hb => ?_⟩
    rcases List.mem_cons.1 hb with rfl | hb
    · exact le_min (h5 l hl e (by simp)) (h5 l hl f (by simp))
    · exact h5 l hl b (by simp [hb])
  cases h with
  | overlap | full => exact ht
  | grow h hL he htouch => exact hgrow h hL he htouch
  | growMerge h hL he htouch => exact hmerge (hgrow h hL he htouch)
  | lost h => exact hmerge (h ▸ ht)
  | insert h _ _ hL hR =>
    subst h
    rw [List.pairwise_append] at ht ⊢
    obtain ⟨h1, h2, h3⟩ := ht
    refine ⟨h1, List.pairwise_cons.2 ⟨fun r hr => (hR r hr).le, h2⟩, fun l hl b hb => ?_⟩
    rcases List.mem_cons.1 hb with rfl | hb
    · exact hL l hl
    · exact h3 l hl b hb

/-- A range that is not refused is recorded, when no other label occurs twice. -/
theorem recorded (h : AddStep t n r t') (hr : 0 ≤ r) (hd : Distinct t n.label) :
    ∃ e ∈ t', n.Inside e := by
  cases h with
  | overlap | full => omega
  | @grow L e => exact ⟨e.join n, by simp, inside_join_right ..⟩
  | @growMerge L e f =>
    exact ⟨(e.join n).join f, by simp, (inside_join_right ..).trans (inside_join_left ..)⟩
  | lost h _ _ _ hl hm =>
    rw [Distinct, h, List.pairwise_append, List.pairwise_cons] at hd
    exact absurd (hd.2.1.1 _ (by simp) hm.2).symm hl
  | insert => exact ⟨n, by simp, .refl _⟩

/-- Only the label of the range that is added can come to occur twice. -/
theorem distinct (h : AddStep t n r t') {k : LmbLabel} (hd : Distinct t k)
    (hn : ∀ e ∈ t, e.label = n.label → e.label = k) : Distinct t' k := by
  have hmerge : ∀ {L : List LmbSegment} {e f : LmbSegment} {R},
      Distinct (L ++ e :: f :: R) k → Distinct (L ++ e.join f :: R) k := by
    intro L e f R hd
    simp only [Distinct, List.pairwise_append, List.pairwise_cons, List.forall_mem_cons] at hd ⊢
    exact ⟨hd.1, ⟨hd.2.1.1.2, hd.2.1.2.2⟩, fun l hl => ⟨(hd.2.2 l hl).1, (hd.2.2 l hl).2.2⟩⟩
  have hgrow : ∀ {L : List LmbSegment} {e : LmbSegment} {R},
      Distinct (L ++ e :: R) k → Distinct (L ++ e.join n :: R) k := by
    intro L e R hd
    simp only [Distinct, List.pairwise_append, List.pairwise_cons, List.forall_mem_cons] at hd ⊢
    exact hd
  cases h with
  | overlap | full => exact hd
  | grow h => exact hgrow (h ▸ hd)
  | growMerge h => exact hmerge (hgrow (h ▸ hd))
  | lost h => exact hmerge (h ▸ hd)
  | insert h =>
    subst h
    simp only [List.forall_mem_append] at hn
    simp only [Distinct, List.pairwise_append, List.pairwise_cons, List.forall_mem_cons] at hd ⊢
    exact ⟨hd.1, ⟨fun r hr he => he.trans (hn.2 r hr he.symm), hd.2.1⟩,
      fun l hl => ⟨fun he => hn.1 l hl he, hd.2.2 l hl⟩⟩

/-- The reasons for a refusal. -/
theorem refused (h : AddStep t n r t') (hr : r < 0) :
    (∃ f ∈ t, n.Overlaps f) ∨ maxLmbRegions ≤ t.length := by
  cases h with
  | overlap h _ hov => exact .inl ⟨_, by simp [h], hov⟩
  | full _ hlen => exact .inr hlen
  | _ => omega

end AddStep

theorem LmbProperty.seg_le (p : LmbProperty) : p.seg.lo ≤ p.seg.hi := Nat.le_add_right ..

theorem LmbRegion.seg_le {rgn : LmbRegion} : ∀ s ∈ rgn.table, s.lo ≤ s.hi := by
  intro s hs
  obtain ⟨i, -, rfl⟩ := mem_table.1 hs
  exact (rgn.region i).seg_le

/-- **`lmb_add_region` on a loose table** keeps it loose and takes no point away. A range that is
refused overlaps an entry or finds the table full, and any other one is recorded when no other label
occurs twice. -/
theorem lmbAddRegion_loose {rgn : LmbRegion} {p : LmbProperty} (h : rgn.Loose)
    (hp : p.seg.hi < 2 ^ 64) :
    ∃ r rgn', lmbAddRegion rgn p.base p.size p.type p.tag = some (r, rgn') ∧ rgn'.Loose ∧
      (∀ x, Covers rgn.table x → Covers rgn'.table x) ∧
      (r < 0 → r = -1 ∧ rgn' = rgn ∧
        ((∃ f ∈ rgn.table, p.seg.Overlaps f) ∨ maxLmbRegions ≤ rgn.cnt.toNat)) ∧
      (0 ≤ r → Distinct rgn.table p.seg.label → ∀ x ∈ p.seg.ico, Covers rgn'.table x) ∧
      (∀ k, Distinct rgn.table k → (∀ e ∈ rgn.table, e.label = p.seg.label → e.label = k) →
        Distinct rgn'.table k) ∧
      ∀ s ∈ rgn'.table, s.label = p.seg.label ∨ ∃ e ∈ rgn.table, s.label = e.label := by
  by_cases hd : rgn.cnt = 1 ∧ (rgn.region 0).size = 0
  · have ht0 : rgn.table = [(rgn.region 0).seg] := by simp [LmbRegion.table, hd.1]
    have ht : LmbRegion.table { rgn with region := Function.update rgn.region 0 p } = [p.seg] := by
      rw [LmbRegion.table_update, ht0]; rfl
    refine ⟨0, { rgn with region := Function.update rgn.region 0 p }, by rw [lmbAddRegion, if_pos hd],
      ⟨h.pos, h.cnt_le, ?_, ?_⟩, fun x hx => ?_, by simp, fun _ _ x hx => ?_, fun k _ _ => ?_, ?_⟩
    · rw [ht]
      exact List.pairwise_singleton ..
    · rw [ht]
      simpa using hp
    · rw [ht0] at hx
      simp only [covers_cons, covers_nil, or_false, mem_ico, LmbProperty.seg_lo, LmbProperty.seg_hi,
        hd.2, UInt64.toNat_zero] at hx
      omega
    · rw [ht]
      exact covers_cons.2 (.inl hx)
    · rw [ht]
      exact List.pairwise_singleton ..
    · rw [ht]
      simp
  · obtain ⟨r, rgn', hr, hstep, hsame⟩ :=
      lmbAddRegion_step h.pos h.cnt_le hd h.fits hp h.sorted
    have hne : rgn'.table ≠ [] := hstep.ne_nil fun h0 => by
      have := h.pos
      rw [← LmbRegion.length_table, h0] at this
      exact absurd this (by simp)
    have hlen := hstep.length_le (by simpa using h.cnt_le)
    refine ⟨r, rgn', hr, ⟨LmbRegion.toNat_cnt_pos.2 (mt LmbRegion.table_eq_nil hne),
      by simpa using hlen, hstep.sorted h.sorted LmbRegion.seg_le p.seg_le, ?_⟩, fun x hx => ?_, fun hr0 => ?_,
      fun hr0 hd x hx => ?_, fun k hd hn => hstep.distinct hd hn, ?_⟩
    · exact hstep.forall_mem (P := fun s => s.hi < 2 ^ 64) (fun ha hb => max_lt ha hb) h.fits hp
    · obtain ⟨e, he, hxe⟩ := hx
      obtain ⟨e', he', hin⟩ := hstep.inside e he
      exact ⟨e', he', hin.mem hxe⟩
    · exact ⟨(hstep.eq_of_neg hr0).1, hsame hr0, by simpa using hstep.refused hr0⟩
    · obtain ⟨e, he, hin⟩ := hstep.recorded hr0 hd
      exact ⟨e, he, hin.mem hx⟩
    · exact hstep.forall_mem (P := fun s => s.label = p.seg.label ∨ ∃ e ∈ rgn.table,
        s.label = e.label) (fun ha _ => ha) (fun s hs => .inr ⟨s, hs, rfl⟩) (.inl rfl)

end ShieldLoader
