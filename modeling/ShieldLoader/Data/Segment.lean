import Mathlib.Order.Interval.Set.LinearOrder
import Mathlib.Data.List.Basic
import Mathlib.Data.List.Pairwise
import Mathlib.Data.List.Sort
import Mathlib.Tactic.Order

/-!
# Tables of labelled segments

A segment is a half-open interval of a linear order with a label, and a table is a list of them.
`WF` tables are in order, pairwise disjoint and free of empty segments. The denotation `den` of a
table is the set of its labelled points; each edit of a table keeps `WF` and changes `den` in one
way.
-/

/-- A labelled half-open interval. -/
structure Segment (β κ : Type*) where
  lo : β
  hi : β
  label : κ
  deriving DecidableEq

namespace Segment

variable {β κ : Type*} [LinearOrder β]

/-- The points of a segment. -/
def ico (s : Segment β κ) : Set β := Set.Ico s.lo s.hi

@[simp] theorem mem_ico {s : Segment β κ} {x : β} : x ∈ s.ico ↔ s.lo ≤ x ∧ x < s.hi := Iff.rfl

instance {s : Segment β κ} {x : β} : Decidable (x ∈ s.ico) :=
  inferInstanceAs (Decidable (_ ∧ _))

/-- The usual test for two segments having a point in common. -/
def Overlaps (s t : Segment β κ) : Prop := s.lo < t.hi ∧ t.lo < s.hi

instance (s t : Segment β κ) : Decidable (s.Overlaps t) := inferInstanceAs (Decidable (_ ∧ _))

theorem Overlaps.symm {s t : Segment β κ} (h : s.Overlaps t) : t.Overlaps s := And.symm h

theorem not_overlaps_iff {s t : Segment β κ} : ¬s.Overlaps t ↔ t.hi ≤ s.lo ∨ s.hi ≤ t.lo := by
  simp only [Overlaps, not_and_or, not_lt]

theorem Overlaps.of_mem {s t : Segment β κ} {x : β} (hs : x ∈ s.ico) (ht : x ∈ t.ico) :
    s.Overlaps t :=
  ⟨hs.1.trans_lt ht.2, ht.1.trans_lt hs.2⟩

/-- Two segments that are not empty and overlap have a point in common. -/
theorem Overlaps.exists_mem {s t : Segment β κ} (hs : s.lo < s.hi) (ht : t.lo < t.hi)
    (h : s.Overlaps t) : ∃ x, x ∈ s.ico ∧ x ∈ t.ico :=
  ⟨max s.lo t.lo, ⟨le_max_left .., max_lt hs h.2⟩, ⟨le_max_right .., max_lt h.1 ht⟩⟩

/-- One of the two segments ends where the other starts. -/
def Touches (s t : Segment β κ) : Prop := s.hi = t.lo ∨ t.hi = s.lo

/-- The two segments neither overlap nor touch. -/
def Clear (s t : Segment β κ) : Prop := ¬s.Overlaps t ∧ ¬s.Touches t

/-- Touching segments with one label. -/
def Mergeable (s t : Segment β κ) : Prop := s.Touches t ∧ s.label = t.label

/-- The segment that spans both, labelled as the first. -/
def join (s t : Segment β κ) : Segment β κ := ⟨min s.lo t.lo, max s.hi t.hi, s.label⟩

/-- Every point of the first segment is one of the second. -/
def Inside (s t : Segment β κ) : Prop := t.lo ≤ s.lo ∧ s.hi ≤ t.hi

instance (s t : Segment β κ) : Decidable (s.Inside t) := inferInstanceAs (Decidable (_ ∧ _))

theorem Inside.refl (s : Segment β κ) : s.Inside s := ⟨le_rfl, le_rfl⟩

theorem Inside.trans {s t u : Segment β κ} (h1 : s.Inside t) (h2 : t.Inside u) : s.Inside u :=
  ⟨h2.1.trans h1.1, h1.2.trans h2.2⟩

theorem Inside.mem {s t : Segment β κ} {x : β} (h : s.Inside t) (hx : x ∈ s.ico) : x ∈ t.ico :=
  ⟨h.1.trans hx.1, hx.2.trans_le h.2⟩

theorem Inside.not_overlaps {s t u : Segment β κ} (h : s.Inside t) (hu : ¬u.Overlaps t) :
    ¬u.Overlaps s :=
  fun ho => hu ⟨ho.1.trans_le h.2, h.1.trans_lt ho.2⟩

theorem inside_join_left (s t : Segment β κ) : s.Inside (s.join t) :=
  ⟨min_le_left .., le_max_left ..⟩

theorem inside_join_right (s t : Segment β κ) : t.Inside (s.join t) :=
  ⟨min_le_right .., le_max_right ..⟩

/-- The segments are in order and pairwise disjoint, and none is empty. -/
structure WF (t : List (Segment β κ)) : Prop where
  sorted : t.Pairwise fun a b => a.hi ≤ b.lo
  proper : ∀ s ∈ t, s.lo < s.hi

/-- No segment continues an earlier one with the same label. -/
def Canonical (t : List (Segment β κ)) : Prop :=
  t.Pairwise fun a b => ¬(a.hi = b.lo ∧ a.label = b.label)

instance [DecidableEq κ] (t : List (Segment β κ)) : Decidable (Canonical t) :=
  inferInstanceAs (Decidable (t.Pairwise _))

instance (t : List (Segment β κ)) : Decidable (WF t) :=
  decidable_of_iff ((t.Pairwise fun a b => a.hi ≤ b.lo) ∧ ∀ s ∈ t, s.lo < s.hi)
    ⟨fun h => ⟨h.1, h.2⟩, fun h => ⟨h.1, h.2⟩⟩

/-- The labelled points of a table. -/
def den (t : List (Segment β κ)) : Set (β × κ) := {p | ∃ s ∈ t, p.1 ∈ s.ico ∧ s.label = p.2}

/-- Some segment of the table has the point. -/
def Covers (t : List (Segment β κ)) (x : β) : Prop := ∃ s ∈ t, x ∈ s.ico

instance {t : List (Segment β κ)} {x : β} : Decidable (Covers t x) :=
  inferInstanceAs (Decidable (∃ s ∈ t, x ∈ s.ico))

theorem covers_iff_den {t : List (Segment β κ)} {x : β} : Covers t x ↔ ∃ k, (x, k) ∈ den t :=
  ⟨fun ⟨s, hs, hx⟩ => ⟨s.label, s, hs, hx, rfl⟩, fun ⟨_, s, hs, hx, _⟩ => ⟨s, hs, hx⟩⟩

@[simp] theorem den_nil : den ([] : List (Segment β κ)) = ∅ := by simp [den]

@[simp] theorem mem_den_cons {s : Segment β κ} {t : List (Segment β κ)} {p : β × κ} :
    p ∈ den (s :: t) ↔ (p.1 ∈ s.ico ∧ s.label = p.2) ∨ p ∈ den t := by
  simp [den]

@[simp] theorem mem_den_append {t u : List (Segment β κ)} {p : β × κ} :
    p ∈ den (t ++ u) ↔ p ∈ den t ∨ p ∈ den u := by
  simp [den, or_and_right, exists_or]

theorem den_cons (s : Segment β κ) (t : List (Segment β κ)) : den (s :: t) = den [s] ∪ den t := by
  ext p; simp

theorem den_append (t u : List (Segment β κ)) : den (t ++ u) = den t ∪ den u := by
  ext p; simp

theorem den_middle (L : List (Segment β κ)) (s : Segment β κ) (R : List (Segment β κ)) :
    den (L ++ s :: R) = den (L ++ R) ∪ den [s] := by
  ext p
  simp only [mem_den_append, mem_den_cons, den_nil, Set.mem_union, Set.mem_empty_iff_false, or_false]
  tauto

/-- The points of a segment that is not empty determine it. -/
theorem den_singleton_inj {s t : Segment β κ} (hs : s.lo < s.hi) (h : den [s] = den [t]) : s = t := by
  have hmem : ∀ x k, (x ∈ s.ico ∧ s.label = k) ↔ (x ∈ t.ico ∧ t.label = k) := fun x k => by
    simpa using congrArg ((x, k) ∈ ·) h
  have hlabel : t.label = s.label := ((hmem s.lo s.label).1 ⟨⟨le_rfl, hs⟩, rfl⟩).2
  have hico : s.ico = t.ico := by
    ext x
    simpa [hlabel] using hmem x s.label
  obtain ⟨hlo, hhi⟩ := (Set.Ico_eq_Ico_iff (.inl hs)).1 hico
  cases s; cases t
  simp only at hlo hhi hlabel
  rw [hlo, hhi, hlabel]

/-- Joining two mergeable segments adds no point. -/
theorem den_join {s t : Segment β κ} (hs : s.lo < s.hi) (ht : t.lo < t.hi) (h : s.Mergeable t) :
    den [s.join t] = den [s] ∪ den [t] := by
  ext ⟨x, k⟩
  simp only [mem_den_cons, den_nil, Set.mem_empty_iff_false, or_false, mem_ico, Set.mem_union, join,
    ← h.2, ← or_and_right]
  refine and_congr_left fun _ => ?_
  rcases h.1 with h | h
  · rw [min_eq_left (by order), max_eq_right (by order), ← h]
    constructor
    · rintro ⟨h1, h2⟩
      rcases lt_or_ge x s.hi with hx | hx
      · exact .inl ⟨h1, hx⟩
      · exact .inr ⟨hx, h2⟩
    · rintro (⟨h1, h2⟩ | ⟨h1, h2⟩)
      · exact ⟨h1, by order⟩
      · exact ⟨by order, h2⟩
  · rw [min_eq_right (by order), max_eq_left (by order), ← h]
    constructor
    · rintro ⟨h1, h2⟩
      rcases lt_or_ge x t.hi with hx | hx
      · exact .inr ⟨h1, hx⟩
      · exact .inl ⟨hx, h2⟩
    · rintro (⟨h1, h2⟩ | ⟨h1, h2⟩)
      · exact ⟨by order, h2⟩
      · exact ⟨h1, by order⟩

@[simp] theorem covers_nil {x : β} : ¬Covers ([] : List (Segment β κ)) x := by simp [Covers]

@[simp] theorem covers_cons {s : Segment β κ} {t : List (Segment β κ)} {x : β} :
    Covers (s :: t) x ↔ x ∈ s.ico ∨ Covers t x := by
  simp [Covers]

@[simp] theorem covers_append {t u : List (Segment β κ)} {x : β} :
    Covers (t ++ u) x ↔ Covers t x ∨ Covers u x := by
  simp [Covers, or_and_right, exists_or]

omit [LinearOrder β] in
/-- What `Canonical` says about one segment of the table. -/
theorem canonical_split_iff {L R : List (Segment β κ)} {e : Segment β κ} :
    Canonical (L ++ e :: R) ↔ Canonical (L ++ R) ∧
      (∀ l ∈ L, ¬(l.hi = e.lo ∧ l.label = e.label)) ∧
      ∀ r ∈ R, ¬(e.hi = r.lo ∧ e.label = r.label) := by
  simp only [Canonical, List.pairwise_append, List.pairwise_cons, List.forall_mem_cons]
  constructor
  · rintro ⟨hL, ⟨he, hR⟩, hLR⟩
    exact ⟨⟨hL, hR, fun l hl => (hLR l hl).2⟩, fun l hl => (hLR l hl).1, he⟩
  · rintro ⟨⟨hL, hR, hLR⟩, hl, he⟩
    exact ⟨hL, ⟨he, hR⟩, fun l hlL => ⟨hl l hlL, hLR l hlL⟩⟩

namespace WF

variable {L R t : List (Segment β κ)} {e e' f n : Segment β κ}

theorem nil : WF ([] : List (Segment β κ)) := ⟨.nil, by simp⟩

theorem singleton (h : n.lo < n.hi) : WF [n] := ⟨List.pairwise_singleton _ _, by simpa⟩

/-- What the order says about one segment of the table. -/
theorem split_iff : WF (L ++ e :: R) ↔
    WF (L ++ R) ∧ e.lo < e.hi ∧ (∀ l ∈ L, l.hi ≤ e.lo) ∧ ∀ r ∈ R, e.hi ≤ r.lo := by
  constructor
  · rintro ⟨hs, hp⟩
    rw [List.pairwise_append, List.pairwise_cons] at hs
    obtain ⟨hL, ⟨heR, hR⟩, hLR⟩ := hs
    refine ⟨⟨List.pairwise_append.2 ⟨hL, hR, fun l hl r hr => hLR l hl r (by simp [hr])⟩, ?_⟩,
      hp e (by simp), fun l hl => hLR l hl e (by simp), heR⟩
    intro s hs
    rcases List.mem_append.1 hs with hs | hs
    · exact hp s (by simp [hs])
    · exact hp s (by simp [hs])
  · rintro ⟨⟨hs, hp⟩, he, hl, hr⟩
    rw [List.pairwise_append] at hs
    refine ⟨List.pairwise_append.2 ⟨hs.1, List.pairwise_cons.2 ⟨hr, hs.2.1⟩, ?_⟩, ?_⟩
    · intro l hlL x hx
      rcases List.mem_cons.1 hx with rfl | hx
      · exact hl l hlL
      · exact hs.2.2 l hlL x hx
    · intro s hs
      rcases List.mem_append.1 hs with hs | hs
      · exact hp s (by simp [hs])
      · rcases List.mem_cons.1 hs with rfl | hs
        · exact he
        · exact hp s (by simp [hs])

theorem erase (h : WF (L ++ e :: R)) : WF (L ++ R) := (split_iff.1 h).1

theorem left_le (h : WF (L ++ e :: R)) : ∀ l ∈ L, l.hi ≤ e.lo := (split_iff.1 h).2.2.1

theorem le_right (h : WF (L ++ e :: R)) : ∀ r ∈ R, e.hi ≤ r.lo := (split_iff.1 h).2.2.2

theorem insert (h : WF (L ++ R)) (hn : n.lo < n.hi) (hl : ∀ l ∈ L, l.hi ≤ n.lo)
    (hr : ∀ r ∈ R, n.hi ≤ r.lo) : WF (L ++ n :: R) :=
  split_iff.2 ⟨h, hn, hl, hr⟩

theorem replace (h : WF (L ++ e :: R)) (hn : e'.lo < e'.hi) (hl : ∀ l ∈ L, l.hi ≤ e'.lo)
    (hr : ∀ r ∈ R, e'.hi ≤ r.lo) : WF (L ++ e' :: R) :=
  h.erase.insert hn hl hr

/-- Two neighbours are replaced by the segment that spans both. -/
theorem merge (h : WF (L ++ e :: f :: R)) {k : κ} : WF (L ++ ⟨e.lo, f.hi, k⟩ :: R) := by
  have he := split_iff.1 h
  have hf : WF ((L ++ [e]) ++ f :: R) := by simpa using h
  have hef : e.hi ≤ f.lo := hf.left_le e (by simp)
  have hff := hf.proper f (by simp)
  refine insert ?_ (he.2.1.trans_le (hef.trans hff.le)) he.2.2.1 hf.le_right
  exact split_iff.1 he.1 |>.1

/-- A segment stands at one place of the table. -/
theorem split_unique (h : WF (L ++ e :: R)) {L' R' : List (Segment β κ)}
    (heq : L ++ e :: R = L' ++ e :: R') : L = L' ∧ R = R' := by
  have he : e ∉ L := fun hm => absurd (h.left_le e hm) (h.proper e (by simp)).not_ge
  have he' : e ∉ R := fun hm => absurd (h.le_right e hm) (h.proper e (by simp)).not_ge
  obtain ⟨hL, -, hR⟩ := (List.append_cons_inj_of_notMem he he').1 heq
  exact ⟨hL, hR⟩

/-- The points of one segment belong to no other one. -/
theorem not_mem_den_erase (h : WF (L ++ e :: R)) {p : β × κ} (hp : p.1 ∈ e.ico) :
    p ∉ den (L ++ R) := by
  rw [mem_den_append]
  rintro (⟨s, hs, hx, -⟩ | ⟨s, hs, hx, -⟩)
  · exact absurd ((h.left_le s hs).trans hp.1) hx.2.not_ge
  · exact absurd ((h.le_right s hs).trans hx.1) hp.2.not_ge

/-- A table without a range that lies in one of its segments. -/
theorem den_carve (h : WF (L ++ e :: R)) {lo hi : β} (hlo : e.lo ≤ lo) (hhi : hi ≤ e.hi)
    (hle : lo ≤ hi) :
    {p ∈ den (L ++ e :: R) | ¬(lo ≤ p.1 ∧ p.1 < hi)} =
      den (L ++ R) ∪ den [⟨e.lo, lo, e.label⟩] ∪ den [⟨hi, e.hi, e.label⟩] := by
  ext p
  have hout := fun hp => h.not_mem_den_erase (p := p) hp
  simp only [mem_den_append] at hout
  simp only [Set.mem_ofPred_eq, Set.mem_union, mem_den_append, mem_den_cons, den_nil,
    Set.mem_empty_iff_false, or_false, mem_ico, not_and, not_lt]
  constructor
  · rintro ⟨hL | ⟨⟨h1, h2⟩, hk⟩ | hR, hp⟩
    · exact .inl (.inl (.inl hL))
    · rcases lt_or_ge p.1 lo with h3 | h3
      · exact .inl (.inr ⟨⟨h1, h3⟩, hk⟩)
      · exact .inr ⟨⟨hp h3, h2⟩, hk⟩
    · exact .inl (.inl (.inr hR))
  · have hkeep : p ∈ den L ∨ p ∈ den R → lo ≤ p.1 → hi ≤ p.1 := by
      intro hLR h1
      by_contra h2
      exact hout ⟨hlo.trans h1, (not_le.1 h2).trans_le hhi⟩ hLR
    rintro (((hL | hR) | ⟨⟨h1, h2⟩, hk⟩) | ⟨⟨h1, h2⟩, hk⟩)
    · exact ⟨.inl hL, hkeep (.inl hL)⟩
    · exact ⟨.inr (.inr hR), hkeep (.inr hR)⟩
    · exact ⟨.inr (.inl ⟨⟨h1, h2.trans_le (hle.trans hhi)⟩, hk⟩), fun h3 => absurd h3 h2.not_ge⟩
    · exact ⟨.inr (.inl ⟨⟨hlo.trans (hle.trans h1), h2⟩, hk⟩), fun _ => h1⟩

/-- Two segments of a table that overlap are the same one. -/
theorem eq_of_overlaps (h : WF t) {a b : Segment β κ} (ha : a ∈ t) (hb : b ∈ t)
    (hab : a.Overlaps b) : a = b := by
  have hp := h.sorted
  induction t with
  | nil => simp at ha
  | cons s t ih =>
    rw [List.pairwise_cons] at hp
    have ht : WF t := ⟨hp.2, fun s hs => h.proper s (by simp [hs])⟩
    rcases List.mem_cons.1 ha with rfl | ha' <;> rcases List.mem_cons.1 hb with rfl | hb'
    · rfl
    · exact absurd hab.2 (hp.1 b hb').not_gt
    · exact absurd hab.1 (hp.1 a ha').not_gt
    · exact ih ht ha' hb' hp.2

/-- A point has one segment and so one label. -/
theorem eq_of_mem (h : WF t) {a b : Segment β κ} {x : β} (ha : a ∈ t) (hb : b ∈ t)
    (hax : x ∈ a.ico) (hbx : x ∈ b.ico) : a = b :=
  h.eq_of_overlaps ha hb (.of_mem hax hbx)

/-- The order of a table is that of its segments. -/
theorem ext {u : List (Segment β κ)} (ht : WF t) (hu : WF u) (h : ∀ s, s ∈ t ↔ s ∈ u) : t = u := by
  have hlt : ∀ {v : List (Segment β κ)}, WF v → v.Pairwise fun a b => a.lo < b.lo := fun hv =>
    hv.sorted.imp_of_mem fun ha _ hab => (hv.proper _ ha).trans_le hab
  have : Std.Irrefl fun a b : Segment β κ => a.lo < b.lo := ⟨fun a => lt_irrefl a.lo⟩
  have : Std.Antisymm fun a b : Segment β κ => a.lo < b.lo :=
    ⟨fun a b hab hba => absurd hab hba.not_gt⟩
  exact (hlt ht).eq_of_mem_iff (hlt hu) h

end WF

end Segment
