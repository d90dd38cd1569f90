import ShieldLoader.Data.Segment

/-!
# The runs of a set

A run of a set is a half-open interval in it that no larger one contains. In a table where no
segment ends at another, the segments are the runs of the points of the table.
-/

namespace Segment

variable {β κ : Type*} [LinearOrder β]

/-- `[lo, hi)` is a maximal interval of the set. -/
structure IsRun (U : Set β) (lo hi : β) : Prop where
  lt : lo < hi
  subset : Set.Ico lo hi ⊆ U
  maximal : ∀ a b, a ≤ lo → hi ≤ b → Set.Ico a b ⊆ U → a = lo ∧ b = hi

theorem not_isRun_empty {lo hi : β} : ¬IsRun (∅ : Set β) lo hi :=
  fun h => h.subset ⟨le_rfl, h.lt⟩

section
variable {t : List (Segment β κ)} {s : Segment β κ}

/-- No segment ends where another one starts. -/
def Gapped (t : List (Segment β κ)) : Prop := ∀ a ∈ t, ∀ b ∈ t, a.hi ≠ b.lo

/-- A canonical table with one label is gapped. -/
theorem Canonical.gapped (hcan : Canonical t) (hwf : WF t) {k : κ} (hk : ∀ s ∈ t, s.label = k) :
    Gapped t := by
  have hself : ∀ s ∈ t, s.hi ≠ s.lo := fun s hs => (hwf.proper s hs).ne'
  have hforward : t.Pairwise fun a b => a.hi ≠ b.lo :=
    hcan.imp_of_mem fun ha hb hab h => hab ⟨h, (hk _ ha).trans (hk _ hb).symm⟩
  have hbackward : t.Pairwise fun a b => b.hi ≠ a.lo := by
    refine hwf.sorted.imp_of_mem fun {a b} ha hb hab => ?_
    exact ((hwf.proper a ha).trans_le (hab.trans (hwf.proper b hb).le)).ne'
  exact fun a ha b hb => hforward.forall_of_forall_of_flip hself hbackward ha hb

/-- The end of a segment is a point of no other one. -/
theorem Gapped.not_covers_hi (hg : Gapped t) (hwf : WF t) (hs : s ∈ t) : ¬Covers t s.hi := by
  rintro ⟨u, hu, hlo, hhi⟩
  have hov : s.Overlaps u := by
    refine ⟨(hwf.proper s hs).trans hhi, ?_⟩
    exact lt_of_le_of_ne hlo fun h => hg s hs u hu h.symm
  obtain rfl := hwf.eq_of_overlaps hs hu hov
  exact lt_irrefl _ hhi

/-- An interval of covered points lies in the segment of its first point. -/
theorem Gapped.inside (hg : Gapped t) (hwf : WF t) (hs : s ∈ t) {a b : β} (ha : a ∈ s.ico)
    (hab : Set.Ico a b ⊆ {x | Covers t x}) : b ≤ s.hi := by
  by_contra hlt
  exact hg.not_covers_hi hwf hs (hab ⟨ha.2.le, not_le.1 hlt⟩)

/-- **The segments of a gapped table are the runs of its points.** -/
theorem isRun_covers_iff (hwf : WF t) (hg : Gapped t) {lo hi : β} :
    IsRun {x | Covers t x} lo hi ↔ ∃ s ∈ t, s.lo = lo ∧ s.hi = hi := by
  constructor
  · intro h
    obtain ⟨s, hs, hlo⟩ := h.subset ⟨le_rfl, h.lt⟩
    have hhi := hg.inside hwf hs hlo h.subset
    exact ⟨s, hs, h.maximal s.lo s.hi hlo.1 hhi fun x hx => ⟨s, hs, hx⟩⟩
  · rintro ⟨s, hs, rfl, rfl⟩
    refine ⟨hwf.proper s hs, fun x hx => ⟨s, hs, hx⟩, fun a b ha hb hab => ?_⟩
    have hlt := hwf.proper s hs
    -- the segment of the point `a` reaches the end of `s`
    obtain ⟨u, hu, hau⟩ := hab ⟨le_rfl, ha.trans_lt (hlt.trans_le hb)⟩
    have hbu := hg.inside hwf hu hau hab
    obtain rfl : s = u :=
      hwf.eq_of_overlaps hs hu ⟨hlt.trans_le (hb.trans hbu), (hau.1.trans ha).trans_lt hlt⟩
    exact ⟨le_antisymm ha hau.1, le_antisymm hbu hb⟩

end

end Segment
