import ShieldLoader.Data.Word
import ShieldLoader.Lmb.Table

/-!
# What `lmb_add_region` does to a table

`AddStep` lists the outcomes of a call, as edits of the table with the guards under which the code
takes them; `lmbAddRegion_step` shows that there are no others. It asks only that the entries are in
order of their bases and do not wrap: the entries may overlap or be empty. The one outcome that
reports success without recording the range is `AddStep.lost`.
-/

namespace ShieldLoader

open Segment

/-! ### The comparisons of the code -/

section
variable {p q : LmbProperty} (hp : p.seg.hi < 2 ^ 64) (hq : q.seg.hi < 2 ^ 64)
include hp

theorem LmbProperty.toNat_end : (p.base + p.size).toNat = p.seg.hi := by
  rw [seg_hi] at hp ⊢
  rw [UInt64.toNat_add, Nat.mod_eq_of_lt hp]

include hq

theorem lmbAddrsOverlap_iff :
    lmbAddrsOverlap p.base p.size q.base q.size = true ↔ p.seg.Overlaps q.seg := by
  rw [lmbAddrsOverlap, Bool.and_eq_true, decide_eq_true_iff, decide_eq_true_iff,
    UInt64.lt_iff_toNat_lt, UInt64.lt_iff_toNat_lt, LmbProperty.toNat_end hp,
    LmbProperty.toNat_end hq]
  rfl

theorem lmbAddrsAdjacent_eq : lmbAddrsAdjacent p.base p.size q.base q.size =
    if p.seg.hi = q.seg.lo then 1 else if q.seg.hi = p.seg.lo then -1 else 0 := by
  simp only [lmbAddrsAdjacent, ← UInt64.toNat_inj, LmbProperty.toNat_end hp,
    LmbProperty.toNat_end hq, LmbProperty.seg_lo, eq_comm]

theorem lmbAddrsAdjacent_eq_zero_iff :
    lmbAddrsAdjacent p.base p.size q.base q.size = 0 ↔ ¬p.seg.Touches q.seg := by
  rw [lmbAddrsAdjacent_eq hp hq, Touches]
  split_ifs <;> simp_all

end

/-- The search loop of `lmb_add_region`, read on the table. -/
theorem lmbAddRegion.scan_eq {rgn : LmbRegion} {p : LmbProperty}
    (hfit : ∀ s ∈ rgn.table, s.hi < 2 ^ 64) (hp : p.seg.hi < 2 ^ 64) (n i : Nat)
    (hn : i + n = rgn.cnt.toNat) (hclear : ∀ k < i, p.seg.Clear (rgn.region k).seg) :
    (∃ k < rgn.cnt.toNat, scan rgn p.base p.size i n = none ∧
      (∀ j < k, p.seg.Clear (rgn.region j).seg) ∧ p.seg.Overlaps (rgn.region k).seg) ∨
    (∃ k < rgn.cnt.toNat, scan rgn p.base p.size i n =
        some (k, lmbAddrsAdjacent p.base p.size (rgn.region k).base (rgn.region k).size) ∧
      (∀ j < k, p.seg.Clear (rgn.region j).seg) ∧ ¬p.seg.Overlaps (rgn.region k).seg ∧
      p.seg.Touches (rgn.region k).seg) ∨
    (scan rgn p.base p.size i n = some (rgn.cnt.toNat, 0) ∧
      ∀ j < rgn.cnt.toNat, p.seg.Clear (rgn.region j).seg) := by
  induction n generalizing i with
  | zero =>
    obtain rfl : i = rgn.cnt.toNat := by omega
    exact .inr (.inr ⟨rfl, hclear⟩)
  | succ n ih =>
    have hi : i < rgn.cnt.toNat := by omega
    have hq := hfit _ (LmbRegion.seg_mem_table hi)
    rw [scan]
    split
    · next h => exact .inl ⟨i, hi, rfl, hclear, (lmbAddrsOverlap_iff hp hq).1 h⟩
    · next h =>
      rw [lmbAddrsOverlap_iff hp hq] at h
      have hadj := lmbAddrsAdjacent_eq_zero_iff hp hq
      simp only [ne_eq, ite_not]
      split
      · next ht =>
        refine ih (i + 1) (by omega) fun k hk => ?_
        rcases Nat.lt_succ_iff_lt_or_eq.1 hk with hk | rfl
        · exact hclear k hk
        · exact ⟨h, hadj.1 ht⟩
      · next ht => exact .inr (.inl ⟨i, hi, rfl, hclear, h, not_not.1 (mt hadj.2 ht)⟩)

/-! ### The outcomes -/

/-- Nothing in the table keeps `lmb_add_region` from inserting `n` as an entry of its own: either
no entry is near, or the first one that touches `n` has another label and cannot be merged with its
successor. -/
def Fresh (t : List LmbSegment) (n : LmbSegment) : Prop :=
  (∀ e ∈ t, n.Clear e) ∨
  ∃ L e R, t = L ++ e :: R ∧ (∀ l ∈ L, n.Clear l) ∧ ¬n.Overlaps e ∧ n.Touches e ∧
    n.label ≠ e.label ∧ ∀ f ∈ R.head?, ¬e.Mergeable f

/-- The outcomes of `lmb_add_region` for the range `n` on a table `t` of at least one entry. -/
inductive AddStep (t : List LmbSegment) (n : LmbSegment) : Int → List LmbSegment → Prop
  | overlap {L e R} : t = L ++ e :: R → (∀ l ∈ L, n.Clear l) → n.Overlaps e → AddStep t n (-1) t
  | grow {L e R} : t = L ++ e :: R → (∀ l ∈ L, n.Clear l) → ¬n.Overlaps e → n.Touches e →
    n.label = e.label → (∀ f ∈ R.head?, ¬(e.join n).Mergeable f) →
    AddStep t n 1 (L ++ e.join n :: R)
  | growMerge {L e f R} : t = L ++ e :: f :: R → (∀ l ∈ L, n.Clear l) → ¬n.Overlaps e →
    n.Touches e → n.label = e.label → (e.join n).Mergeable f →
    AddStep t n 2 (L ++ (e.join n).join f :: R)
  | lost {L e f R} : t = L ++ e :: f :: R → (∀ l ∈ L, n.Clear l) → ¬n.Overlaps e →
    n.Touches e → n.label ≠ e.label → e.Mergeable f → AddStep t n 1 (L ++ e.join f :: R)
  | full : Fresh t n → maxLmbRegions ≤ t.length → AddStep t n (-1) t
  | insert {L R} : t = L ++ R → Fresh t n → t.length < maxLmbRegions → (∀ l ∈ L, l.lo ≤ n.lo) →
    (∀ r ∈ R, n.lo < r.lo) → AddStep t n 0 (L ++ n :: R)

/-- The entry that the search loop leaves behind. -/
theorem lmbAddRegion.grow_eq {p q : LmbProperty} (hp : p.seg.hi < 2 ^ 64) (hq : q.seg.hi < 2 ^ 64)
    (ht : p.seg.Touches q.seg) :
    let g := grow q p.size p.type p.tag (lmbAddrsAdjacent p.base p.size q.base q.size)
    (p.seg.label = q.seg.label ∧ g.2 = 1 ∧ g.1.seg = q.seg.join p.seg) ∨
    (p.seg.label ≠ q.seg.label ∧ g = (q, 0)) := by
  have hlab : (p.tag = q.tag ∧ p.type = q.type) ↔ p.seg.label = q.seg.label := by
    simp [Prod.ext_iff, and_comm]
  simp only [grow, hlab]
  split
  · next hl =>
    refine .inl ⟨hl, ?_⟩
    simp only [LmbProperty.seg_label, Prod.mk.injEq] at hl
    rw [lmbAddrsAdjacent_eq hp hq]
    simp only [LmbProperty.seg_hi] at hp hq
    split
    · next h =>
      simp only [LmbProperty.seg_hi, LmbProperty.seg_lo] at h
      have hb : (q.base - p.size).toNat = p.base.toNat := by
        rw [UInt64.toNat_sub_of_le _ _ (by rw [UInt64.le_iff_toNat_le]; omega)]; omega
      have hs : (q.size + p.size).toNat = q.size.toNat + p.size.toNat := by
        rw [UInt64.toNat_add, Nat.mod_eq_of_lt (by omega)]
      simp only [Int.one_pos, if_true, true_and, Segment.join, LmbProperty.seg, hb, hs, Segment.mk.injEq,
        and_true]
      omega
    · next h =>
      have h' : q.seg.hi = p.seg.lo := ht.resolve_left h
      rw [if_pos h']
      simp only [LmbProperty.seg_hi, LmbProperty.seg_lo] at h h'
      have hs : (q.size + p.size).toNat = q.size.toNat + p.size.toNat := by
        rw [UInt64.toNat_add, Nat.mod_eq_of_lt (by omega)]
      simp only [show ¬(0 : Int) < -1 by decide, show (-1 : Int) < 0 by decide, if_true, if_false,
        true_and, Segment.join, LmbProperty.seg, hs, Segment.mk.injEq, and_true]
      omega
  · next hl => exact .inr ⟨hl, rfl⟩

theorem lmbAddRegion.grow_zero (q : LmbProperty) (size : UInt64) (type : LmbType) (tag : UInt32) :
    grow q size type tag 0 = (q, 0) := by
  simp [grow]

section
variable {rgn : LmbRegion} {i : Nat}

/-- The merge of two neighbours. -/
theorem lmbCoalesceRegions_eq (hi : i + 1 < rgn.cnt.toNat)
    (h0 : (rgn.region i).seg.hi < 2 ^ 64) (h1 : (rgn.region (i + 1)).seg.hi < 2 ^ 64)
    (hcnt : rgn.cnt.toNat ≤ maxLmbRegions)
    (hle : (rgn.region i).seg.lo ≤ (rgn.region (i + 1)).seg.lo)
    (ht : (rgn.region i).seg.Touches (rgn.region (i + 1)).seg) :
    ∃ rgn', lmbCoalesceRegions rgn i (i + 1) = some rgn' ∧
      rgn'.table = rgn.table.take i ++
        (rgn.region i).seg.join (rgn.region (i + 1)).seg :: rgn.table.drop (i + 2) := by
  let q : LmbProperty :=
    { rgn.region i with size := (rgn.region i).size + (rgn.region (i + 1)).size }
  have hq : q.seg = (rgn.region i).seg.join (rgn.region (i + 1)).seg := by
    simp only [LmbProperty.seg_hi, LmbProperty.seg_lo] at h0 h1 hle
    simp only [Touches, LmbProperty.seg_hi, LmbProperty.seg_lo] at ht
    simp only [q, join, LmbProperty.seg, UInt64.toNat_add, Segment.mk.injEq, and_true]
    omega
  have hi' : i + 1 < (LmbRegion.mk rgn.cnt (Function.update rgn.region i q)).cnt.toNat := hi
  obtain ⟨rgn', hr, _, ht', _⟩ := lmbRemoveRegion_eq hi' (by simp only; omega)
  refine ⟨rgn', hr, ?_⟩
  rw [ht', LmbRegion.table_update_eq (by omega), hq]
  have hlen : (rgn.table.take i).length = i := by simp; omega
  rw [List.take_append, List.drop_append, hlen, List.take_of_length_le (by omega),
    List.drop_of_length_le (l := rgn.table.take i) (by omega)]
  simp [show i + 1 - i = 1 by omega, show i + 1 + 1 - i = 2 by omega, Nat.add_assoc]

/-- The merge after the search loop. -/
theorem lmbAddRegion.merge_eq {c : Nat} (hcnt : 0 < rgn.cnt.toNat)
    (hcnt' : rgn.cnt.toNat ≤ maxLmbRegions) (hi : i < rgn.cnt.toNat)
    (hfit : ∀ s ∈ rgn.table, s.hi < 2 ^ 64)
    (hle : i + 1 < rgn.cnt.toNat → (rgn.region i).seg.lo ≤ (rgn.region (i + 1)).seg.lo) :
    (∃ f R rgn', rgn.table.drop (i + 1) = f :: R ∧ (rgn.region i).seg.Mergeable f ∧
      merge rgn i c = some (rgn', c + 1) ∧
      rgn'.table = rgn.table.take i ++ (rgn.region i).seg.join f :: R) ∨
    (∀ f ∈ (rgn.table.drop (i + 1)).head?, ¬(rgn.region i).seg.Mergeable f) ∧
      merge rgn i c = some (rgn, c) := by
  have hpred : (rgn.cnt - 1).toNat = rgn.cnt.toNat - 1 := by
    rw [UInt64.toNat_sub_of_le _ _ (by rw [UInt64.le_iff_toNat_le, UInt64.toNat_one]; omega),
      UInt64.toNat_one]
  rw [merge, hpred]
  rcases Nat.lt_or_ge (i + 1) rgn.cnt.toNat with hi' | hi'
  · have h0 := hfit _ (LmbRegion.seg_mem_table hi)
    have h1 := hfit _ (LmbRegion.seg_mem_table hi')
    have hdrop : rgn.table.drop (i + 1) =
        (rgn.region (i + 1)).seg :: rgn.table.drop (i + 2) := by
      rw [List.drop_eq_getElem_cons (by simpa using hi'), LmbRegion.getElem_table]
    have htest : (lmbRegionsAdjacent rgn i (i + 1) ≠ 0 ∧
        (rgn.region i).tag = (rgn.region (i + 1)).tag ∧
        (rgn.region i).type = (rgn.region (i + 1)).type) ↔
          (rgn.region i).seg.Mergeable (rgn.region (i + 1)).seg := by
      rw [lmbRegionsAdjacent, Ne, lmbAddrsAdjacent_eq_zero_iff h0 h1, not_not, Mergeable]
      simp [Prod.ext_iff, and_comm]
    rw [hdrop]
    by_cases hm : (rgn.region i).seg.Mergeable (rgn.region (i + 1)).seg
    · obtain ⟨rgn', hr, ht⟩ := lmbCoalesceRegions_eq hi' h0 h1 hcnt' (hle hi') hm.1
      exact .inl ⟨_, _, rgn', rfl, hm, by rw [if_pos ⟨by omega, htest.2 hm⟩, hr]; rfl, ht⟩
    · exact .inr ⟨by simpa using hm, by rw [if_neg fun h => hm (htest.1 h.2)]⟩
  · refine .inr ⟨?_, by rw [if_neg (by omega)]⟩
    rw [List.drop_of_length_le (by simpa using hi')]
    simp

/-- The merge behind an entry that has grown. -/
theorem lmbAddRegion.merge_grown {q : LmbProperty} {n : LmbSegment} (hcnt : 0 < rgn.cnt.toNat)
    (hcnt' : rgn.cnt.toNat ≤ maxLmbRegions) (hi : i < rgn.cnt.toNat)
    (hfit : ∀ s ∈ rgn.table, s.hi < 2 ^ 64) (hn : n.hi < 2 ^ 64)
    (hq : q.seg = (rgn.region i).seg.join n)
    (hle : i + 1 < rgn.cnt.toNat → (rgn.region i).seg.lo ≤ (rgn.region (i + 1)).seg.lo) :
    let grown : LmbRegion := { rgn with region := Function.update rgn.region i q }
    (∃ f R rgn', rgn.table.drop (i + 1) = f :: R ∧ ((rgn.region i).seg.join n).Mergeable f ∧
      merge grown i 1 = some (rgn', 2) ∧
      rgn'.table = rgn.table.take i ++ ((rgn.region i).seg.join n).join f :: R) ∨
    (∀ f ∈ (rgn.table.drop (i + 1)).head?, ¬((rgn.region i).seg.join n).Mergeable f) ∧
      merge grown i 1 = some (grown, 1) := by
  intro grown
  have hself : grown.region i = q := Function.update_self ..
  have htable : grown.table = rgn.table.set i q.seg := LmbRegion.table_update
  have htake : grown.table.take i = rgn.table.take i := by
    rw [htable, List.take_set_of_le le_rfl]
  have hdrop : grown.table.drop (i + 1) = rgn.table.drop (i + 1) := by
    rw [htable, List.drop_set_of_lt (Nat.lt_succ_self i)]
  have hfit' : ∀ s ∈ grown.table, s.hi < 2 ^ 64 := by
    intro s hs
    rw [htable] at hs
    cases List.mem_or_eq_of_mem_set hs with
    | inl hs => exact hfit s hs
    | inr hs =>
      rw [hs, hq]
      exact max_lt (hfit _ (LmbRegion.seg_mem_table hi)) hn
  have hle' : i + 1 < grown.cnt.toNat →
      (grown.region i).seg.lo ≤ (grown.region (i + 1)).seg.lo := by
    intro h
    have hnext : grown.region (i + 1) = rgn.region (i + 1) := Function.update_of_ne (by omega) ..
    rw [hself, hq, hnext]
    exact (min_le_left ..).trans (hle h)
  have hmerge := @merge_eq grown i 1 hcnt hcnt' hi hfit' hle'
  rwa [hself, hq, htake, hdrop] at hmerge

end

/-- The end of `lmb_add_region`: the table is full, or the entry is put where its base belongs. -/
theorem lmbAddRegion.place_table {rgn : LmbRegion} (p : LmbProperty) (h0 : 0 < rgn.cnt.toNat)
    (hsort : rgn.table.Pairwise fun a b => a.lo ≤ b.lo) :
    (maxLmbRegions ≤ rgn.table.length ∧ place rgn p = (-1, rgn)) ∨
    rgn.table.length < maxLmbRegions ∧ (place rgn p).1 = 0 ∧
      ∃ L R, rgn.table = L ++ R ∧ (place rgn p).2.table = L ++ p.seg :: R ∧
        (∀ l ∈ L, l.lo ≤ p.seg.lo) ∧ ∀ r ∈ R, p.seg.lo < r.lo := by
  have hget := List.pairwise_iff_getElem.1 hsort
  simp only [LmbRegion.length_table, LmbRegion.getElem_table, LmbProperty.seg_lo] at hget
  have hle0 : ∀ j k, j ≤ k → k < rgn.cnt.toNat → (rgn.region j).base ≤ (rgn.region k).base := by
    intro j k hjk hk
    rw [UInt64.le_iff_toNat_le]
    rcases hjk.eq_or_lt with rfl | hjk
    · exact le_rfl
    · exact hget j k (by omega) hk hjk
  rw [place, LmbRegion.length_table]
  split
  · next hfull => exact .inl ⟨hfull, rfl⟩
  · next hroom =>
    have hsucc : (rgn.cnt + 1).toNat = rgn.cnt.toNat + 1 := by
      rw [UInt64.toNat_add, UInt64.toNat_one, Nat.mod_eq_of_lt]
      simp only [maxLmbRegions] at hroom; omega
    refine .inr ⟨by omega, rfl, ?_⟩
    simp only
    generalize hrgn' : LmbRegion.mk (rgn.cnt + 1) _ = rgn'
    have hcnt' : rgn'.cnt.toNat = rgn.cnt.toNat + 1 := by rw [← hrgn', hsucc]
    obtain ⟨m, hm, htab, hgt, hle⟩ := insert_table (fun k hk => hle0 0 k (by omega) hk)
      (by omega) hcnt' (by rw [← hrgn'])
    refine ⟨_, _, (List.take_append_drop m rgn.table).symm, htab, fun l hl => ?_, hgt⟩
    obtain ⟨j, hj, rfl⟩ := (LmbRegion.mem_take_table hm).1 hl
    have h1 := UInt64.le_iff_toNat_le.1 (hle (by omega))
    have h2 := UInt64.le_iff_toNat_le.1 (hle0 j (m - 1) (by omega) (by omega))
    exact h2.trans h1

/-- The end of `lmb_add_region`, when nothing was coalesced. -/
theorem lmbAddRegion.place_step {rgn : LmbRegion} {p : LmbProperty} (h0 : 0 < rgn.cnt.toNat)
    (hsort : rgn.table.Pairwise fun a b => a.lo ≤ b.lo) (hfresh : Fresh rgn.table p.seg) :
    AddStep rgn.table p.seg (place rgn p).1 (place rgn p).2.table ∧
      ((place rgn p).1 < 0 → (place rgn p).2 = rgn) := by
  rcases place_table p h0 hsort with ⟨hfull, heq⟩ | ⟨hroom, hr, L, R, ht, ht', hL, hR⟩
  · rw [heq]
    exact ⟨.full hfresh hfull, fun _ => rfl⟩
  · rw [hr, ht']
    exact ⟨.insert ht hfresh hroom hL hR, fun h => absurd h (lt_irrefl 0)⟩

/-- **The outcomes of `lmb_add_region`** on a table of at least one entry other than the dummy. A
call that is refused changes nothing. -/
theorem lmbAddRegion_step {rgn : LmbRegion} {p : LmbProperty} (h0 : 0 < rgn.cnt.toNat)
    (hcnt : rgn.cnt.toNat ≤ maxLmbRegions) (hnd : ¬(rgn.cnt = 1 ∧ (rgn.region 0).size = 0))
    (hfit : ∀ s ∈ rgn.table, s.hi < 2 ^ 64) (hp : p.seg.hi < 2 ^ 64)
    (hsort : rgn.table.Pairwise fun a b => a.lo ≤ b.lo) :
    ∃ r rgn', lmbAddRegion rgn p.base p.size p.type p.tag = some (r, rgn') ∧
      AddStep rgn.table p.seg r rgn'.table ∧ (r < 0 → rgn' = rgn) := by
  have hscan := lmbAddRegion.scan_eq hfit hp rgn.cnt.toNat 0 (by omega) (by omega)
  rw [lmbAddRegion, if_neg hnd]
  rcases hscan with ⟨k, hk, hscan, hclear, hov⟩ | ⟨k, hk, hscan, hclear, hov, ht⟩ | ⟨hscan, hclear⟩
  · refine ⟨-1, rgn, by rw [hscan], .overlap (LmbRegion.table_eq_append hk) ?_ hov, fun _ => rfl⟩
    intro l hl
    obtain ⟨j, hj, rfl⟩ := (LmbRegion.mem_take_table hk.le).1 hl
    exact hclear j hj
  · have hclear' : ∀ l ∈ rgn.table.take k, p.seg.Clear l := by
      intro l hl
      obtain ⟨j, hj, rfl⟩ := (LmbRegion.mem_take_table hk.le).1 hl
      exact hclear j hj
    have htab := LmbRegion.table_eq_append hk
    have hle : k + 1 < rgn.cnt.toNat → (rgn.region k).seg.lo ≤ (rgn.region (k + 1)).seg.lo := by
      intro h
      have := List.pairwise_iff_getElem.1 hsort k (k + 1) (by simpa using hk) (by simpa using h)
        (by omega)
      simpa using this
    simp only [hscan]
    rcases lmbAddRegion.grow_eq hp (hfit _ (LmbRegion.seg_mem_table hk)) ht with
      ⟨hl, hc, hq⟩ | ⟨hl, hg⟩
    · rw [hc]
      rcases lmbAddRegion.merge_grown h0 hcnt hk hfit hp hq hle with
        ⟨f, R, rgn', hR, hm, hmerge, ht'⟩ | ⟨hm, hmerge⟩
      · refine ⟨2, rgn', by rw [hmerge]; rfl, ?_, by omega⟩
        rw [ht']
        exact .growMerge (htab.trans (by rw [hR])) hclear' hov ht hl hm
      · refine ⟨1, _, by rw [hmerge]; rfl, ?_, by omega⟩
        rw [LmbRegion.table_update_eq hk, hq]
        exact .grow htab hclear' hov ht hl hm
    · rw [hg, Function.update_eq_self]
      rcases lmbAddRegion.merge_eq (c := 0) h0 hcnt hk hfit hle with
        ⟨f, R, rgn', hR, hm, hmerge, ht'⟩ | ⟨hm, hmerge⟩
      · refine ⟨1, rgn', by rw [hmerge]; rfl, ?_, by omega⟩
        rw [ht']
        exact .lost (htab.trans (by rw [hR])) hclear' hov ht hl hm
      · have hfresh : Fresh rgn.table p.seg :=
          .inr ⟨_, _, _, htab, hclear', hov, ht, hl, hm⟩
        exact ⟨_, _, by rw [hmerge]; rfl, lmbAddRegion.place_step h0 hsort hfresh⟩
  · have hfresh : Fresh rgn.table p.seg := by
      left; intro e he
      obtain ⟨j, hj, rfl⟩ := LmbRegion.mem_table.1 he
      exact hclear j hj
    have hmerge : lmbAddRegion.merge rgn rgn.cnt.toNat 0 = some (rgn, 0) := by
      rw [lmbAddRegion.merge, if_neg]
      rw [UInt64.toNat_sub_of_le _ _ (by rw [UInt64.le_iff_toNat_le, UInt64.toNat_one]; omega)]
      omega
    simp only [hscan, lmbAddRegion.grow_zero, Function.update_eq_self]
    exact ⟨_, _, by rw [hmerge]; rfl, lmbAddRegion.place_step h0 hsort hfresh⟩

/-! ### The calls that add to the reserved table -/

section
variable {lmb lmb' : Lmb} {base size align maxAddr b : UInt64} {type : LmbType} {tag : UInt32}
  {r : Int}

theorem lmbReserve_refused
    (h : ¬((type = .boot ∨ type = .runtime) ∧ lmbIsKnown lmb base size = true)) :
    lmbReserve lmb base size type tag = some (-1, lmb) := by
  rw [lmbReserve]
  split_ifs with htype hknown
  · rfl
  · rfl
  · exact absurd ⟨by tauto, by simpa using hknown⟩ h

theorem lmbReserve_accepted (htype : type = .boot ∨ type = .runtime)
    (hknown : lmbIsKnown lmb base size = true) : lmbReserve lmb base size type tag =
      (lmbAddRegion lmb.reserved base size type tag).map fun r =>
        (r.1, { lmb with reserved := r.2 }) := by
  rw [lmbReserve, if_neg (by tauto), if_neg (by simp [hknown])]
  cases lmbAddRegion lmb.reserved base size type tag <;> rfl

theorem lmbReserve_inv (h : lmbReserve lmb base size type tag = some (r, lmb')) :
    r = -1 ∧ lmb' = lmb ∨
    (type = .boot ∨ type = .runtime) ∧ lmbIsKnown lmb base size = true ∧
      ∃ reserved, lmbAddRegion lmb.reserved base size type tag = some (r, reserved) ∧
        lmb' = { lmb with reserved } := by
  by_cases hacc : (type = .boot ∨ type = .runtime) ∧ lmbIsKnown lmb base size = true
  · rw [lmbReserve_accepted hacc.1 hacc.2] at h
    obtain ⟨⟨r', reserved⟩, hadd, heq⟩ := Option.map_eq_some_iff.1 h
    obtain ⟨rfl, rfl⟩ := Prod.mk.inj heq
    exact .inr ⟨hacc.1, hacc.2, reserved, hadd, rfl⟩
  · rw [lmbReserve_refused hacc] at h
    obtain ⟨rfl, rfl⟩ := Prod.mk.inj (Option.some.inj h)
    exact .inl ⟨rfl, rfl⟩

theorem lmbAllocBase_none (h : type = .mmio ∨ lmbAllocBase.search lmb (lmbAlignUp size align) align
      maxAddr lmb.memory.cnt.toNat = none) :
    lmbAllocBase lmb size align maxAddr type tag = some (0, lmb) := by
  rw [lmbAllocBase]
  split_ifs with htype
  · rfl
  · simp only [h.resolve_left htype]

theorem lmbAllocBase_found (htype : type ≠ .mmio)
    (h : lmbAllocBase.search lmb (lmbAlignUp size align) align maxAddr lmb.memory.cnt.toNat =
      some b) : lmbAllocBase lmb size align maxAddr type tag =
      (lmbAddRegion lmb.reserved b (lmbAlignUp size align) type tag).map fun r =>
        (if r.1 < 0 then 0 else b, { lmb with reserved := r.2 }) := by
  rw [lmbAllocBase, if_neg htype]
  simp only [h]
  cases lmbAddRegion lmb.reserved b (lmbAlignUp size align) type tag <;> rfl

theorem lmbAllocBase_inv (h : lmbAllocBase lmb size align maxAddr type tag = some (b, lmb')) :
    b = 0 ∧ lmb' = lmb ∨
    type ≠ .mmio ∧ ∃ base r reserved,
      lmbAllocBase.search lmb (lmbAlignUp size align) align maxAddr lmb.memory.cnt.toNat =
        some base ∧
      lmbAddRegion lmb.reserved base (lmbAlignUp size align) type tag = some (r, reserved) ∧
      b = (if r < 0 then 0 else base) ∧ lmb' = { lmb with reserved } := by
  by_cases htype : type = .mmio
  · rw [lmbAllocBase_none (.inl htype)] at h
    obtain ⟨rfl, rfl⟩ := Prod.mk.inj (Option.some.inj h)
    exact .inl ⟨rfl, rfl⟩
  cases hs : lmbAllocBase.search lmb (lmbAlignUp size align) align maxAddr lmb.memory.cnt.toNat with
  | none =>
    rw [lmbAllocBase_none (.inr hs)] at h
    obtain ⟨rfl, rfl⟩ := Prod.mk.inj (Option.some.inj h)
    exact .inl ⟨rfl, rfl⟩
  | some base =>
    rw [lmbAllocBase_found htype hs] at h
    obtain ⟨⟨r, reserved⟩, hadd, heq⟩ := Option.map_eq_some_iff.1 h
    obtain ⟨rfl, rfl⟩ := Prod.mk.inj heq
    exact .inr ⟨htype, base, r, reserved, rfl, hadd, rfl, rfl⟩

end

end ShieldLoader
