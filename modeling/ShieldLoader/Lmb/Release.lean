import ShieldLoader.Lmb.Heap
import ShieldLoader.Lmb.Request

/-!
# What `lmb_free` releases

For every 64-bit base and size: the call either leaves the recorded points alone and fails, or
succeeds and takes exactly the named range out of one entry. Ranges that wrap, and ranges inside an
entry whose rest cannot be recorded again, are where it does neither.
-/

namespace ShieldLoader

open Segment

/-- `size` rounded up to a multiple of `align`, without wrapping. -/
def roundUp (size align : Nat) : Nat := (size + align - 1) / align * align

/-- `e` is the first entry that the search of `lmb_free` accepts for a range from `lo` to `hi`. -/
structure FreeHit (t : List LmbSegment) (lo hi : Nat) (L : List LmbSegment) (e : LmbSegment)
    (R : List LmbSegment) : Prop where
  eq : t = L ++ e :: R
  first : ∀ l ∈ L, ¬(l.lo ≤ lo ∧ hi ≤ l.hi)
  lo_le : e.lo ≤ lo
  le_hi : hi ≤ e.hi

/-- `lmb_add_region` records the range `n`, which overlaps nothing. -/
def Recorded (t : List LmbSegment) (n : LmbSegment) : Prop :=
  ¬(Fresh t n ∧ maxLmbRegions ≤ t.length) ∧ ¬Lost t n

/-- What becomes of the points of a table when `[lo, hi)` is to be taken out of it and `r` is
returned. -/
def Carved (t : List LmbSegment) (lo hi : Nat) (r : Int) (t' : List LmbSegment) : Prop :=
  (r < 0 → den t' = den t) ∧
    (0 ≤ r → (∃ e ∈ t, e.label.1 ≠ .mmio ∧ e.lo ≤ lo ∧ hi ≤ e.hi) ∧
      den t' = {p ∈ den t | ¬(lo ≤ p.1 ∧ p.1 < hi)})

/-- `lmb_free` removes exactly the range that its arguments name, or nothing. -/
def FreeExact (lmb : Lmb) (base size align : UInt64) : Prop :=
  ∃ r lmb', lmbFree lmb base size align = some (r, lmb') ∧
    Carved lmb.reserved.table base.toNat (base.toNat + roundUp size.toNat align.toNat) r
      lmb'.reserved.table

/-- The condition under which it does. Only an entry that is found and is not `LMB_MMIO` matters. A
range that does not wrap must not leave a rest behind it that is not recorded again. One that wraps
must wrap to below the end of the entry and start there, or behind it with nothing but the type and
tag of the entry between. -/
def FreeGood (lmb : Lmb) (base size align : UInt64) : Prop :=
  let s := roundUp size.toNat align.toNat
  let t := lmb.reserved.table
  ∀ L e R, FreeHit t base.toNat (base + lmbAlignUp size align).toNat L e R → e.label.1 ≠ .mmio →
    if base.toNat + s < 2 ^ 64 then
      s ≠ 0 → e.lo < base.toNat → base.toNat + s < e.hi →
        Recorded (L ++ ⟨e.lo, base.toNat, e.label⟩ :: R) ⟨base.toNat + s, e.hi, e.label⟩
    else s < 2 ^ 64 ∧ (base + lmbAlignUp size align).toNat < e.hi ∧ e.hi ≤ base.toNat ∧
      ∀ x, e.hi ≤ x → x < base.toNat → (x, e.label) ∈ den t

/-! ### Ranges that are not empty and do not wrap -/

section
variable {t t' L R : List LmbSegment} {e : LmbSegment} {lo hi : Nat} {r : Int}

/-- The entry that is found is the only one that can hold the range. -/
theorem FreeHit.of_mem (hwf : Segment.WF (L ++ e :: R)) (hlt : lo < hi) (hlo : e.lo ≤ lo)
    (hhi : hi ≤ e.hi) : FreeHit (L ++ e :: R) lo hi L e R := by
  refine ⟨rfl, fun l hl ⟨_, h⟩ => ?_, hlo, hhi⟩
  have := hwf.left_le l hl
  omega

theorem FreeHit.unique {L' R' : List LmbSegment} {e' : LmbSegment} (h : FreeHit t lo hi L e R)
    (h' : FreeHit t lo hi L' e' R') : L = L' ∧ e = e' ∧ R = R' :=
  first_unique (h.eq.symm.trans h'.eq) h.first (fun hn => hn ⟨h.lo_le, h.le_hi⟩) h'.first
    fun hn => hn ⟨h'.lo_le, h'.le_hi⟩

/-- The points of a piece of an entry are not in the rest of the table. -/
theorem den_truncated (hwf : Segment.WF (L ++ e :: R)) {x : Nat} (hx : x ∈ e.ico)
    (hb : lo ≤ x) {k : LmbLabel} : (x, k) ∉ den (L ++ ⟨e.lo, lo, e.label⟩ :: R) := by
  have hout := hwf.not_mem_den_erase (p := (x, k)) hx
  rw [mem_den_append] at hout
  rw [mem_den_append, mem_den_cons, mem_ico]
  rintro (h | ⟨⟨-, h⟩, -⟩ | h)
  · exact hout (.inl h)
  · exact absurd h hb.not_gt
  · exact hout (.inr h)

/-- A range that overlaps nothing and is neither lost nor short of a slot is added to the points. -/
theorem AddStep.den_recorded {n : LmbSegment} (h : AddStep t n r t') (hwf : Segment.WF t)
    (hn : n.lo < n.hi) (hdis : ∀ f ∈ t, ¬n.Overlaps f) (hrec : Recorded t n) :
    0 ≤ r ∧ den t' = den t ∪ den [n] := by
  rcases h.cases_wf hwf hn (not_hidden_of_disjoint hdis) with
    ⟨rfl, -, -⟩ | ⟨-, hr, -, ⟨hden, -⟩ | ⟨hl, -⟩⟩
  · cases h with
    | overlap h _ hov => exact absurd hov (hdis _ (by simp [h]))
    | full hf hlen => exact absurd ⟨hf, hlen⟩ hrec.1
  · exact ⟨hr, hden⟩
  · exact absurd hl hrec.2

/-- A free strictly inside an entry removes the range, if what is behind it is recorded again. -/
theorem AddStep.carved_iff (hwf : Segment.WF (L ++ e :: R)) (hlo : e.lo < lo) (hlt : lo < hi)
    (hhi : hi < e.hi) (hmmio : e.label.1 ≠ .mmio)
    (h : AddStep (L ++ ⟨e.lo, lo, e.label⟩ :: R) ⟨hi, e.hi, e.label⟩ r t') :
    Carved (L ++ e :: R) lo hi r t' ↔
      Recorded (L ++ ⟨e.lo, lo, e.label⟩ :: R) ⟨hi, e.hi, e.label⟩ := by
  obtain ⟨hwf1, hdis⟩ := split_wf hwf hlo hlt.le hhi
  have hcarve := hwf.den_carve hlo.le hhi.le hlt.le
  rw [← den_middle] at hcarve
  constructor
  · rintro ⟨hneg, hpos⟩
    refine ⟨fun ⟨hf, hlen⟩ => ?_, fun hlost => ?_⟩
    · -- the entry stays truncated
      obtain rfl := h.eq_of_full hf hdis hlen
      obtain ⟨-, rfl⟩ := h.eq_of_neg (by decide)
      have hmem : (lo, e.label) ∈ den (L ++ e :: R) := ⟨e, by simp, ⟨hlo.le, hlt.trans hhi⟩, rfl⟩
      rw [← hneg (by decide)] at hmem
      exact den_truncated hwf ⟨hlo.le, hlt.trans hhi⟩ le_rfl hmem
    · obtain ⟨rfl, hden⟩ := h.eq_of_lost hwf1 hlost hdis
      have hmem : (hi, e.label) ∈ den t' := by
        rw [(hpos (by decide)).2, hcarve]
        exact .inr ⟨_, List.mem_singleton.2 rfl, ⟨le_rfl, hhi⟩, rfl⟩
      rw [hden] at hmem
      exact den_truncated hwf ⟨hlo.le.trans hlt.le, hhi⟩ hlt.le hmem
  · intro hrec
    obtain ⟨hr, hden⟩ := h.den_recorded hwf1 hhi hdis hrec
    refine ⟨fun h => by omega, fun _ => ⟨⟨e, by simp, hmmio, hlo.le, hhi.le⟩, ?_⟩⟩
    rw [hden, hcarve]

/-- The outcomes of `lmb_free` for a range that is not empty and does not wrap. -/
theorem FreeStep.carved_iff (h : FreeStep t lo hi r t') (hwf : Segment.WF t) (hlt : lo < hi) :
    Carved t lo hi r t' ↔ ∀ L e R, FreeHit t lo hi L e R → e.label.1 ≠ .mmio → e.lo < lo →
      hi < e.hi → Recorded (L ++ ⟨e.lo, lo, e.label⟩ :: R) ⟨hi, e.hi, e.label⟩ := by
  -- a free of a whole entry, or at one of its ends
  have hend : ∀ {L e R}, t = L ++ e :: R → e.label.1 ≠ .mmio → e.lo ≤ lo → hi ≤ e.hi →
      den t' = den (L ++ R) ∪ den [⟨e.lo, lo, e.label⟩] ∪ den [⟨hi, e.hi, e.label⟩] →
      Carved t lo hi 0 t' := by
    rintro L e R rfl hm hlo hhi hden
    exact ⟨fun h => absurd h (lt_irrefl _), fun _ => ⟨⟨e, by simp, hm, hlo, hhi⟩,
      hden.trans (hwf.den_carve hlo hhi hlt.le).symm⟩⟩
  have hnone : ∀ {a : Nat} {k : LmbLabel}, den [(⟨a, a, k⟩ : LmbSegment)] = ∅ := by
    intro a k
    ext p
    simp only [mem_den_cons, mem_ico, den_nil, Set.mem_empty_iff_false, or_false, iff_false]
    omega
  have hvac : ∀ {L e R}, t = L ++ e :: R → e.lo ≤ lo → hi ≤ e.hi → (e.lo < lo → hi < e.hi → False) →
      ∀ L e R, FreeHit t lo hi L e R → e.label.1 ≠ .mmio → e.lo < lo →
      hi < e.hi → Recorded (L ++ ⟨e.lo, lo, e.label⟩ :: R) ⟨hi, e.hi, e.label⟩ := by
    rintro L e R rfl hlo hhi hno L' e' R' hhit - h1 h2
    obtain ⟨-, rfl, -⟩ := (FreeHit.of_mem hwf hlt hlo hhi).unique hhit
    exact (hno h1 h2).elim
  cases h with
  | refused hno =>
    refine iff_of_true ⟨fun _ => rfl, fun h => absurd h (by decide)⟩ fun L e R hhit hm => ?_
    exact absurd (hno e (by simp [hhit.eq]) hhit.lo_le hhit.le_hi) hm
  | whole heq hm h1 h2 =>
    refine iff_of_true (hend heq hm h1.le h2.ge ?_) (hvac heq h1.le h2.ge fun h => by omega)
    rw [h1, h2, hnone, hnone, Set.union_empty, Set.union_empty]
  | @front L e R heq hm h1 h2 =>
    refine iff_of_true (hend heq hm h1.le h2.le ?_) (hvac heq h1.le h2.le fun h => by omega)
    rw [h1, hnone, Set.union_empty, den_middle]
  | @back L e R heq hm h1 h2 =>
    refine iff_of_true (hend heq hm h1.le h2.ge ?_) (hvac heq h1.le h2.ge fun _ => by omega)
    rw [h2, hnone, Set.union_empty, den_middle]
  | split heq hm h1 h2 hadd =>
    subst heq
    rw [hadd.carved_iff hwf h1 hlt h2 hm]
    constructor
    · rintro hrec L' e' R' hhit - - -
      obtain ⟨rfl, rfl, rfl⟩ := (FreeHit.of_mem hwf hlt h1.le h2.le).unique hhit
      exact hrec
    · exact fun h => h _ _ _ (.of_mem hwf hlt h1.le h2.le) hm h1 h2

end

/-! ### Other ranges -/

section
variable {size align : UInt64}

theorem lmbAlignUp_of_wrap (ha : PowTwo align)
    (hround : 2 ^ 64 ≤ size.toNat + align.toNat - 1) : lmbAlignUp size align = 0 := by
  obtain ⟨k, hk⟩ := ha
  have h1 := size.toNat_lt
  have h2 := align.toNat_lt
  have hsum : (size + align - 1).toNat = size.toNat + align.toNat - 1 - 2 ^ 64 := by
    rw [UInt64.toNat_sub, UInt64.toNat_add, UInt64.toNat_one]; omega
  rw [← UInt64.toNat_inj, lmbAlignUp, UInt64.toNat_and_not_sub_one hk, hsum,
    Nat.div_eq_of_lt (by omega), Nat.zero_mul]
  rfl

theorem roundUp_eq (ha : PowTwo align) (hround : size.toNat + align.toNat - 1 < 2 ^ 64) :
    (lmbAlignUp size align).toNat = roundUp size.toNat align.toNat :=
  lmbAlignUp_toNat ha hround

theorem le_roundUp_of_wrap (ha : PowTwo align)
    (hround : 2 ^ 64 ≤ size.toNat + align.toNat - 1) :
    2 ^ 64 ≤ roundUp size.toNat align.toNat :=
  calc 2 ^ 64 = 2 ^ 64 / align.toNat * align.toNat := (Nat.div_mul_cancel ha.dvd).symm
    _ ≤ _ := Nat.mul_le_mul_right _ (Nat.div_le_div_right hround)

end

/-- The search of `lmb_free`, with the entry that it finds. -/
theorem lmbFree.hit_cases {rgn : LmbRegion} (base «end» : UInt64) (hok : rgn.Ok) :
    (find rgn base «end» 0 rgn.cnt.toNat = none ∧
      ∀ L e R, ¬FreeHit rgn.table base.toNat «end».toNat L e R) ∨
    ∃ k < rgn.cnt.toNat, find rgn base «end» 0 rgn.cnt.toNat = some k ∧
      FreeHit rgn.table base.toNat «end».toNat (rgn.table.take k) (rgn.region k).seg
        (rgn.table.drop (k + 1)) := by
  rcases @lmbFree.find_cases rgn base «end» hok rgn.cnt.toNat 0 (by omega) with
    ⟨hfind, hno⟩ | ⟨k, hk, hfind, hlo, hhi, hfirst⟩
  · refine .inl ⟨hfind, fun L e R hhit => ?_⟩
    obtain ⟨k, hk, rfl⟩ := LmbRegion.mem_table.1 (show e ∈ rgn.table by simp [hhit.eq])
    exact hno k (by omega) hk ⟨hhit.lo_le, hhit.le_hi⟩
  · refine .inr ⟨k, hk, hfind, LmbRegion.table_eq_append hk, fun l hl => ?_, hlo, hhi⟩
    obtain ⟨j, hj, rfl⟩ := (LmbRegion.mem_take_table hk.le).1 hl
    exact hfirst j (by omega) hj

/-- An entry that is found in the table of `lmb_init` is at `0`. -/
theorem LmbRegion.Initial.eq_dummy {rgn : LmbRegion} {k : Nat} (h : rgn.Initial)
    (hk : k < rgn.cnt.toNat) : k = 0 ∧ rgn.region k = lmbDummy := by
  rw [h.1, UInt64.toNat_one] at hk
  obtain rfl : k = 0 := by omega
  exact ⟨rfl, h.2⟩

/-- The rest of an entry that is cut in two without a gap is joined to it again. -/
theorem AddStep.den_rejoin {L R t' : List LmbSegment} {e : LmbSegment} {x : Nat} {r : Int}
    (hwf : Segment.WF (L ++ e :: R)) (hlo : e.lo < x) (hhi : x < e.hi)
    (h : AddStep (L ++ ⟨e.lo, x, e.label⟩ :: R) ⟨x, e.hi, e.label⟩ r t') :
    0 ≤ r ∧ Segment.WF t' ∧ den t' = den (L ++ e :: R) := by
  obtain ⟨hwf1, hdis⟩ := split_wf hwf hlo le_rfl hhi
  have hmem : (⟨e.lo, x, e.label⟩ : LmbSegment) ∈ L ++ ⟨e.lo, x, e.label⟩ :: R := by simp
  have hnotL : ∀ l ∈ L, Clear ⟨x, e.hi, e.label⟩ l := by
    intro l hl
    have h1 := hwf.left_le l hl
    have h2 := hwf.proper l (by simp [hl])
    refine ⟨hdis l (by simp [hl]), ?_⟩
    rintro (h | h) <;> simp only at h <;> omega
  have hfirst : ∀ {L' e' R'}, L ++ ⟨e.lo, x, e.label⟩ :: R = L' ++ e' :: R' →
      (∀ l ∈ L', Clear ⟨x, e.hi, e.label⟩ l) → Touches ⟨x, e.hi, e.label⟩ e' →
      (⟨e.lo, x, e.label⟩ : LmbSegment) = e' := by
    intro L' e' R' heq hL' ht
    exact (first_unique heq hnotL (fun h => h.2 (.inr rfl)) hL' fun h => h.2 ht).2.1
  have hfresh : ¬Fresh (L ++ ⟨e.lo, x, e.label⟩ :: R) ⟨x, e.hi, e.label⟩ := by
    rintro (hf | ⟨L', e', R', heq, hL', -, ht, hlab, -⟩)
    · exact (hf _ hmem).2 (.inr rfl)
    · exact hlab (by rw [← hfirst heq hL' ht])
  have hden : den (L ++ ⟨e.lo, x, e.label⟩ :: R) ∪ den [⟨x, e.hi, e.label⟩] =
      den (L ++ e :: R) := by
    have := hwf.den_carve hlo.le hhi.le le_rfl
    rw [den_middle, ← this]
    ext p
    simp only [Set.mem_ofPred_eq]
    exact and_iff_left fun h => absurd h.2 h.1.not_gt
  rcases h.cases_wf hwf1 hhi (not_hidden_of_disjoint hdis) with
    ⟨rfl, -, -⟩ | ⟨-, hr, hwf', ⟨hden', -⟩ | ⟨⟨L', e', f, R', heq, hL', htouch, hlab, -⟩, -⟩⟩
  · cases h with
    | overlap heq _ hov => exact absurd hov (hdis _ (by simp [heq]))
    | full hf => exact absurd hf hfresh
  · exact ⟨hr, hwf', hden'.trans hden⟩
  · rw [heq] at hmem
    rcases List.mem_append.1 hmem with hm | hm
    · exact absurd rfl (hL' _ hm)
    · -- the entry that the rest ends at lies behind the truncated one
      have hlow := (heq ▸ hwf1 : Segment.WF (L' ++ e' :: f :: R'))
      rcases List.mem_cons.1 hm with rfl | hm
      · simp only at htouch
        omega
      · have h1 := hlow.le_right _ hm
        have h2 := hlow.proper e' (by simp)
        simp only at h1 htouch
        omega

theorem FreeStep.eq_of_not_le {t t' : List LmbSegment} {lo hi : Nat} {r : Int}
    (h : FreeStep t lo hi r t') (hno : ∀ e ∈ t, ¬hi ≤ e.hi) : r = -1 ∧ t' = t := by
  cases h with
  | refused => exact ⟨rfl, rfl⟩
  | whole heq _ _ h => exact absurd h.ge (hno _ (by simp [heq]))
  | front heq _ _ h => exact absurd h.le (hno _ (by simp [heq]))
  | back heq _ _ h => exact absurd h.ge (hno _ (by simp [heq]))
  | split heq _ _ h => exact absurd h.le (hno _ (by simp [heq]))

/-- A range is refused when the first entry that is near overlaps it, whatever the order of the
entries. -/
theorem lmbAddRegion_refused {rgn : LmbRegion} {p : LmbProperty} {k : Nat}
    (hnd : ¬(rgn.cnt = 1 ∧ (rgn.region 0).size = 0)) (hfit : ∀ s ∈ rgn.table, s.hi < 2 ^ 64)
    (hp : p.seg.hi < 2 ^ 64) (hk : k < rgn.cnt.toNat)
    (hclear : ∀ j < k, p.seg.Clear (rgn.region j).seg) (hov : p.seg.Overlaps (rgn.region k).seg) :
    lmbAddRegion rgn p.base p.size p.type p.tag = some (-1, rgn) := by
  rw [lmbAddRegion, if_neg hnd]
  rcases lmbAddRegion.scan_eq hfit hp rgn.cnt.toNat 0 (by omega) (by omega) with
    ⟨_, _, hscan, _, _⟩ | ⟨k', _, _, hclear', hno, ht⟩ | ⟨_, hclear'⟩
  · rw [hscan]
  · rcases Nat.lt_trichotomy k' k with h | rfl | h
    · exact absurd ht (hclear k' h).2
    · exact absurd hov hno
    · exact absurd hov (hclear' k h).1
  · exact absurd hov (hclear' k hk).1

/-- The split of the entry `k` around a range that wraps: what is added again starts below the end of
the truncated entry, and is refused. -/
theorem lmbFree.split_refused {rgn : LmbRegion} {base «end» : UInt64} {k : Nat} (hwf : rgn.WF)
    (hk : k < rgn.cnt.toNat)
    (hfirst : ∀ l ∈ rgn.table.take k, ¬(l.lo ≤ base.toNat ∧ «end».toNat ≤ l.hi))
    (hlt : «end».toNat < base.toNat) (hlo : (rgn.region k).seg.lo < base.toNat)
    (hhi : «end».toNat < (rgn.region k).seg.hi) :
    let p := rgn.region k
    let rgn1 : LmbRegion :=
      { rgn with region := Function.update rgn.region k { p with size := base - p.base } }
    rgn1.table =
        rgn.table.take k ++ ⟨p.seg.lo, base.toNat, p.seg.label⟩ :: rgn.table.drop (k + 1) ∧
      lmbAddRegion rgn1 «end» (p.base + p.size - «end») p.type p.tag = some (-1, rgn1) := by
  intro p rgn1
  replace hlo : p.seg.lo < base.toNat := hlo
  replace hhi : «end».toNat < p.seg.hi := hhi
  have hfitk : p.seg.hi < 2 ^ 64 := hwf.fits _ (LmbRegion.seg_mem_table hk)
  have htab := LmbRegion.table_eq_append hk
  let n : LmbProperty := ⟨«end», p.base + p.size - «end», p.tag, p.type⟩
  have hq := LmbProperty.truncate_seg hlo
  have hn : n.seg = ⟨«end».toNat, p.seg.hi, p.seg.label⟩ := LmbProperty.rest_seg hfitk hhi
  have htab1 : rgn1.table =
      rgn.table.take k ++ ⟨p.seg.lo, base.toNat, p.seg.label⟩ :: rgn.table.drop (k + 1) := by
    rw [← hq]
    exact LmbRegion.table_update_eq hk
  have hk1 : (rgn1.region k).seg = ⟨p.seg.lo, base.toNat, p.seg.label⟩ := by
    rw [← hq]
    exact congrArg LmbProperty.seg (Function.update_self ..)
  refine ⟨htab1, lmbAddRegion_refused (p := n) (k := k) ?_ ?_ (hn ▸ hfitk) hk (fun j hj => ?_) ?_⟩
  · rintro ⟨hc, hs⟩
    obtain rfl : k = 0 := by
      rw [show rgn.cnt = 1 from hc, UInt64.toNat_one] at hk
      omega
    have hend := congrArg Segment.hi hk1
    rw [LmbProperty.seg_hi, hs] at hend
    have hstart := congrArg Segment.lo hk1
    simp only [LmbProperty.seg_lo, UInt64.toNat_zero] at *
    omega
  · have hfits := hwf.fits
    rw [htab] at hfits
    rw [htab1]
    simp only [List.forall_mem_append, List.forall_mem_cons] at hfits ⊢
    exact ⟨hfits.1, base.toNat_lt, hfits.2.2⟩
  · -- the entries before this one end below the wrapped end of the range
    have hj1 : rgn1.region j = rgn.region j := Function.update_of_ne (by omega) ..
    have hmem : (rgn.region j).seg ∈ rgn.table.take k :=
      (LmbRegion.mem_take_table hk.le).2 ⟨j, hj, rfl⟩
    have hle : _ ≤ p.seg.lo := (htab ▸ hwf.wf : Segment.WF _).left_le _ hmem
    have hlt' := hwf.wf.proper _ (List.mem_of_mem_take hmem)
    have hfirst := hfirst _ hmem
    rw [hj1, hn]
    constructor
    · rw [not_overlaps_iff]
      simp only
      omega
    · rintro (h | h) <;> simp only at h <;> omega
  · rw [hk1, hn]
    exact ⟨hlt, hwf.wf.proper _ (LmbRegion.seg_mem_table hk)⟩

section
variable {lmb : Lmb} {base size align : UInt64} (hok : lmb.reserved.Ok)
include hok

/-- A free of a size that is rounded to nothing changes no point, and fails unless an entry is
found. -/
theorem lmbFree_nothing (hs : lmbAlignUp size align = 0) :
    ∃ r lmb', lmbFree lmb base size align = some (r, lmb') ∧ lmb'.memory = lmb.memory ∧
      den lmb'.reserved.table = den lmb.reserved.table ∧
      (lmb' = lmb ∨ lmb'.reserved.WF ∧ lmb'.reserved.cnt ≠ 0 ∨
        lmb'.reserved.cnt = 0 ∧ lmb'.reserved.region 0 = lmbDummy) ∧
      (r = -1 ∧ (∀ L e R, FreeHit lmb.reserved.table base.toNat base.toNat L e R →
          e.label.1 = .mmio) ∨
        0 ≤ r ∧ ∃ L e R, FreeHit lmb.reserved.table base.toNat base.toNat L e R ∧
          e.label.1 ≠ .mmio) := by
  have hsub : ∀ x : UInt64, x - 0 = x := fun x => UInt64.sub_zero ..
  rw [lmbFree]
  simp only [hs, UInt64.add_zero, hsub]
  rcases lmbFree.hit_cases base base hok with ⟨hfind, hno⟩ | ⟨k, hk, hfind, hhit⟩
  · simp only [hfind]
    exact ⟨-1, lmb, rfl, rfl, rfl, .inl rfl, .inl ⟨rfl, fun L e R h => absurd h (hno L e R)⟩⟩
  simp only [hfind]
  by_cases hmmio : (lmb.reserved.region k).type = .mmio
  · rw [if_pos hmmio]
    refine ⟨-1, lmb, rfl, rfl, rfl, .inl rfl, .inl ⟨rfl, fun L e R h => ?_⟩⟩
    rw [← (hhit.unique h).2.1]
    exact hmmio
  have hend := LmbProperty.toNat_end (hok.fits _ (LmbRegion.seg_mem_table hk))
  have hlo := hhit.lo_le
  have hhi := hhit.le_hi
  set p := lmb.reserved.region k with hp
  have hright : ∀ r : Int, 0 ≤ r → (r = -1 ∧ (∀ L e R,
      FreeHit lmb.reserved.table base.toNat base.toNat L e R → e.label.1 = .mmio) ∨
      0 ≤ r ∧ ∃ L e R, FreeHit lmb.reserved.table base.toNat base.toNat L e R ∧
        e.label.1 ≠ .mmio) :=
    fun r hr => .inr ⟨hr, _, _, _, hhit, hmmio⟩
  have hsame : Function.update lmb.reserved.region k p = lmb.reserved.region :=
    Function.update_eq_self ..
  rw [if_neg hmmio]
  by_cases h1 : p.base = base <;> by_cases h2 : p.base + p.size = base
  · -- only the dummy entry is empty
    rw [if_pos ⟨h1, h2⟩]
    have hempty : ¬p.seg.lo < p.seg.hi := by
      rw [← hend, h2, LmbProperty.seg_lo, h1]
      exact lt_irrefl _
    have hinit : lmb.reserved.Initial := hok.resolve_left fun hwf =>
      hempty (hwf.wf.proper _ (LmbRegion.seg_mem_table hk))
    obtain ⟨rfl, hdummy⟩ := hinit.eq_dummy hk
    obtain ⟨rgn', hr, hc0, hdummy'⟩ := hinit.remove
    refine ⟨0, { lmb with reserved := rgn' }, by rw [hr]; rfl, rfl, ?_, .inr (.inr ⟨hc0, hdummy'⟩),
      hright 0 le_rfl⟩
    rw [LmbRegion.table_eq_nil hc0, hinit.den_table, den_nil]
  · rw [if_neg fun h => h2 h.2, if_pos h1]
    refine ⟨0, lmb, ?_, rfl, rfl, .inl rfl, hright 0 le_rfl⟩
    rw [show { p with base } = p by rw [← h1], hsame]
  · rw [if_neg fun h => h1 h.1, if_neg h1, if_pos h2]
    refine ⟨0, lmb, ?_, rfl, rfl, .inl rfl, hright 0 le_rfl⟩
    rw [hsame]
  · rw [if_neg fun h => h1 h.1, if_neg h1, if_neg h2]
    have hlo' : p.seg.lo < base.toNat := lt_of_le_of_ne hlo fun h => h1 (UInt64.toNat_inj.1 h)
    have hhi' : base.toNat < p.seg.hi := by
      refine lt_of_le_of_ne hhi fun h => h2 (UInt64.toNat_inj.1 ?_)
      rw [hend, h]
    have hwf : lmb.reserved.WF := hok.resolve_right fun hinit => by
      rw [hp, (hinit.eq_dummy hk).2] at hhi'
      exact absurd hhi' (Nat.not_lt_zero _)
    have hwf' : Segment.WF (lmb.reserved.table.take k ++ p.seg :: lmb.reserved.table.drop (k + 1)) :=
      hhit.eq ▸ hwf.wf
    obtain ⟨r, rgn', hr, hstep⟩ := lmbFree.split_step hwf hk hlo' le_rfl hhi'
    obtain ⟨hr0, hwf1, hden⟩ := hstep.den_rejoin hwf' hlo' hhi'
    have hfree : FreeStep lmb.reserved.table base.toNat base.toNat r rgn'.table :=
      .split hhit.eq hmmio hlo' hhi' hstep
    exact ⟨r, { lmb with reserved := rgn' }, by rw [hr]; rfl, rfl, hden.trans (by rw [← hhit.eq]),
      .inr (.inl ⟨⟨by simpa using hfree.length_le (by simpa using hwf.cnt_le), hwf1,
        hfree.fits le_rfl hwf.fits⟩, fun h => hstep.ne_nil (by simp) (LmbRegion.table_eq_nil h)⟩),
      hright r hr0⟩

/-- A free of a range that wraps fails and changes nothing when no entry is found; else it succeeds,
or fails after it has made the entry end where the range starts. -/
theorem lmbFree_wrapped (hwrap : 2 ^ 64 ≤ base.toNat + (lmbAlignUp size align).toNat) :
    let t := lmb.reserved.table
    let hi := (base + lmbAlignUp size align).toNat
    ∃ r lmb', lmbFree lmb base size align = some (r, lmb') ∧
      (r = -1 ∧ lmb' = lmb ∧ (∀ L e R, FreeHit t base.toNat hi L e R → e.label.1 = .mmio) ∨
      ∃ L e R, FreeHit t base.toNat hi L e R ∧ e.label.1 ≠ .mmio ∧
        (0 ≤ r ∧ (e.lo = base.toNat ∧ base.toNat < e.hi ∨ e.hi = hi) ∨
          r = -1 ∧ e.lo < base.toNat ∧ hi < e.hi ∧ Segment.WF t ∧
          lmb'.reserved.table = L ++ ⟨e.lo, base.toNat, e.label⟩ :: R)) := by
  intro t hi
  have hlt : hi < base.toNat := by
    have := (lmbAlignUp size align).toNat_lt
    have := base.toNat_lt
    simp only [hi, UInt64.toNat_add]
    omega
  rw [lmbFree]
  generalize hend : base + lmbAlignUp size align = «end»
  have hhieq : hi = «end».toNat := by rw [← hend]
  rcases lmbFree.hit_cases base «end» hok with ⟨hfind, hno⟩ | ⟨k, hk, hfind, hhit⟩
  · simp only [hfind]
    exact ⟨-1, lmb, rfl, .inl ⟨rfl, rfl, fun L e R h => absurd (hhieq ▸ h) (hno L e R)⟩⟩
  simp only [hfind]
  rw [← hhieq] at hhit
  by_cases hmmio : (lmb.reserved.region k).type = .mmio
  · rw [if_pos hmmio]
    refine ⟨-1, lmb, rfl, .inl ⟨rfl, rfl, fun L e R h => ?_⟩⟩
    rw [← (hhit.unique h).2.1]
    exact hmmio
  rw [if_neg hmmio]
  have hfitk := hok.fits _ (LmbRegion.seg_mem_table hk)
  have hrgnend := LmbProperty.toNat_end hfitk
  have hlo := hhit.lo_le
  have hhi := hhit.le_hi
  set p := lmb.reserved.region k with hp
  -- an entry that ends where it starts is the dummy, which is at `0`
  have hwf_or : lmb.reserved.WF ∨ p = lmbDummy :=
    hok.imp_right fun hinit => (hinit.eq_dummy hk).2
  have hproper : lmb.reserved.WF → p.seg.lo < p.seg.hi := fun hwf =>
    hwf.wf.proper _ (LmbRegion.seg_mem_table hk)
  have hbase : p.base = base ↔ p.seg.lo = base.toNat := UInt64.toNat_inj.symm
  have hends : p.base + p.size = «end» ↔ p.seg.hi = hi := by
    rw [← UInt64.toNat_inj, hrgnend, hhieq]
  by_cases h1 : p.base = base
  · have hlow : base.toNat < p.seg.hi := by
      rcases hwf_or with hwf | hdummy
      · have := hproper hwf
        have := hbase.1 h1
        omega
      · have := hbase.1 h1
        rw [hdummy] at this
        have : base.toNat = 0 := this.symm
        omega
    have h2 : ¬p.base + p.size = «end» := fun h => by
      have := hends.1 h
      omega
    rw [if_neg fun h => h2 h.2, if_pos h1]
    exact ⟨0, _, rfl, .inr ⟨_, _, _, hhit, hmmio, .inl ⟨le_rfl, .inl ⟨hbase.1 h1, hlow⟩⟩⟩⟩
  by_cases h2 : p.base + p.size = «end»
  · rw [if_neg fun h => h1 h.1, if_neg h1, if_pos h2]
    exact ⟨0, _, rfl, .inr ⟨_, _, _, hhit, hmmio, .inl ⟨le_rfl, .inr (hends.1 h2)⟩⟩⟩
  rw [if_neg fun h => h1 h.1, if_neg h1, if_neg h2]
  have hlo' : p.seg.lo < base.toNat := lt_of_le_of_ne hlo fun h => h1 (hbase.2 h)
  have hhi' : hi < p.seg.hi := lt_of_le_of_ne hhi fun h => h2 (hends.2 h.symm)
  have hwf : lmb.reserved.WF := hwf_or.resolve_right fun hdummy => by
    rw [hdummy] at hhi'
    exact absurd hhi' (Nat.not_lt_zero _)
  obtain ⟨ht, hadd⟩ :=
    lmbFree.split_refused hwf hk (hhieq ▸ hhit.first) (hhieq ▸ hlt) hlo' (hhieq ▸ hhi')
  exact ⟨-1, _, by rw [hadd]; rfl, .inr ⟨_, _, _, hhit, hmmio, .inr
    ⟨rfl, hlo', hhi', hwf.wf, ht⟩⟩⟩

omit hok in
theorem freeExact_iff {r : Int} {lmb' : Lmb} (h : lmbFree lmb base size align = some (r, lmb')) :
    FreeExact lmb base size align ↔ Carved lmb.reserved.table base.toNat
      (base.toNat + roundUp size.toNat align.toNat) r lmb'.reserved.table := by
  refine ⟨fun ⟨r', lmb'', h', hc⟩ => ?_, fun hc => ⟨r, lmb', h, hc⟩⟩
  obtain ⟨rfl, rfl⟩ := Prod.mk.inj (Option.some.inj (h.symm.trans h'))
  exact hc

omit hok in
/-- A failure that changes nothing is exact. -/
theorem carved_refused {t : List LmbSegment} {lo hi : Nat} : Carved t lo hi (-1) t :=
  ⟨fun _ => rfl, fun h => absurd h (by decide)⟩

omit hok in
/-- Growing an entry upward changes no point exactly when its type and tag follow it already. -/
theorem den_grown_iff {L R : List LmbSegment} {e : LmbSegment} {x : Nat}
    (hwf : Segment.WF (L ++ e :: R)) (hlo : e.lo < x) :
    den (L ++ ⟨e.lo, x, e.label⟩ :: R) = den (L ++ e :: R) ↔
      e.hi ≤ x ∧ ∀ y, e.hi ≤ y → y < x → (y, e.label) ∈ den (L ++ e :: R) := by
  have he := hwf.proper e (by simp)
  constructor
  · intro h
    refine ⟨?_, fun y h1 h2 => ?_⟩
    · by_contra hlt
      have hmem : (x, e.label) ∈ den (L ++ e :: R) := ⟨e, by simp, ⟨hlo.le, not_le.1 hlt⟩, rfl⟩
      rw [← h] at hmem
      exact den_truncated hwf ⟨hlo.le, not_le.1 hlt⟩ le_rfl hmem
    · rw [← h]
      exact ⟨⟨e.lo, x, e.label⟩, by simp, ⟨he.le.trans h1, h2⟩, rfl⟩
  · rintro ⟨hle, hcov⟩
    rw [den_middle L e R] at hcov ⊢
    rw [den_middle]
    ext ⟨y, l⟩
    simp only [Set.mem_union, mem_den_cons, mem_ico, den_nil, Set.mem_empty_iff_false, or_false]
      at hcov ⊢
    constructor
    · rintro (h | ⟨⟨h1, h2⟩, rfl⟩)
      · exact .inl h
      · rcases Nat.lt_or_ge y e.hi with h3 | h3
        · exact .inr ⟨⟨h1, h3⟩, rfl⟩
        · simpa using hcov y h3 h2
    · rintro (h | ⟨⟨h1, h2⟩, rfl⟩)
      · exact .inl h
      · exact .inr ⟨⟨h1, h2.trans_le hle⟩, rfl⟩

omit hok in
/-- No entry that is not `LMB_MMIO` is found. -/
theorem freeGood_of_mmio {hi : Nat} (hend : (base + lmbAlignUp size align).toNat = hi)
    (h : ∀ L e R, FreeHit lmb.reserved.table base.toNat hi L e R → e.label.1 = .mmio) :
    FreeGood lmb base size align := by
  subst hend
  exact fun L e R hhit hm => absurd (h L e R hhit) hm

/-- A size of zero. -/
theorem freeExact_zero (hs : lmbAlignUp size align = 0)
    (h0 : roundUp size.toNat align.toNat = 0) :
    FreeExact lmb base size align ↔ FreeGood lmb base size align := by
  obtain ⟨r, lmb', hr, -, hden, -, hcase⟩ := @lmbFree_nothing lmb base size align hok hs
  rw [freeExact_iff hr, h0, Nat.add_zero]
  refine iff_of_true ⟨fun _ => hden, fun hr0 => ?_⟩ fun L e R _ _ => ?_
  · rcases hcase with ⟨rfl, -⟩ | ⟨-, L, e, R, hhit, hm⟩
    · exact absurd hr0 (by decide)
    · refine ⟨⟨e, by simp [hhit.eq], hm, hhit.lo_le, hhit.le_hi⟩, hden.trans ?_⟩
      ext p
      simp only [Set.mem_ofPred_eq]
      exact (and_iff_left fun h => absurd h.2 h.1.not_gt).symm
  · rw [if_pos (by have := base.toNat_lt; omega)]
    exact fun h => absurd h0 h

/-- A range that is not empty and does not wrap. -/
theorem freeExact_fits (hs : (lmbAlignUp size align).toNat = roundUp size.toNat align.toNat)
    (hpos : 0 < roundUp size.toNat align.toNat)
    (hfit : base.toNat + roundUp size.toNat align.toNat < 2 ^ 64) :
    FreeExact lmb base size align ↔ FreeGood lmb base size align := by
  have hend : (base + lmbAlignUp size align).toNat =
      base.toNat + roundUp size.toNat align.toNat := by
    rw [UInt64.toNat_add, hs, Nat.mod_eq_of_lt hfit]
  obtain ⟨r, lmb', hr, -, hstep, -, -⟩ := lmbFree_step hok (hs ▸ hpos) (hs ▸ hfit)
  rw [freeExact_iff hr]
  rw [hs] at hstep
  rcases hok with hwf | hinit
  · rw [hstep.carved_iff hwf.wf (by omega), FreeGood, hend]
    simp only [if_pos hfit, ne_eq, hpos.ne', not_false_eq_true, true_imp_iff]
  · have hno : ∀ e ∈ lmb.reserved.table,
        ¬base.toNat + roundUp size.toNat align.toNat ≤ e.hi := by
      rw [hinit.table_eq]
      simp only [List.mem_singleton, forall_eq, LmbProperty.seg_hi, lmbDummy,
        UInt64.toNat_zero]
      omega
    obtain ⟨rfl, ht⟩ := hstep.eq_of_not_le hno
    rw [ht]
    exact iff_of_true carved_refused (freeGood_of_mmio hend fun L e R h =>
      absurd h.le_hi (hno e (by simp [h.eq])))

/-- A range that wraps. -/
theorem freeExact_wraps (hs : (lmbAlignUp size align).toNat = roundUp size.toNat align.toNat)
    (hwrap : ¬base.toNat + roundUp size.toNat align.toNat < 2 ^ 64) :
    FreeExact lmb base size align ↔ FreeGood lmb base size align := by
  obtain ⟨r, lmb', hr, hcase⟩ := lmbFree_wrapped hok (hs.symm ▸ not_lt.1 hwrap)
  rw [freeExact_iff hr]
  rcases hcase with ⟨rfl, rfl, hno⟩ | ⟨L, e, R, hhit, hm, hcase⟩
  · exact iff_of_true carved_refused (freeGood_of_mmio rfl hno)
  have hgood : FreeGood lmb base size align ↔
      (base + lmbAlignUp size align).toNat < e.hi ∧ e.hi ≤ base.toNat ∧
        ∀ x, e.hi ≤ x → x < base.toNat → (x, e.label) ∈ den lmb.reserved.table := by
    have hlt : roundUp size.toNat align.toNat < 2 ^ 64 := hs ▸ (lmbAlignUp size align).toNat_lt
    constructor
    · intro h
      have := h L e R hhit hm
      rw [if_neg hwrap] at this
      exact this.2
    · intro h L' e' R' hhit' _
      obtain ⟨-, rfl, -⟩ := hhit.unique hhit'
      rw [if_neg hwrap]
      exact ⟨hlt, h⟩
  rw [hgood]
  have hbound : ∀ m ∈ lmb.reserved.table,
      ¬base.toNat + roundUp size.toNat align.toNat ≤ m.hi := fun m hmem h => by
    have := hok.fits m hmem
    omega
  rcases hcase with ⟨hr0, hcase⟩ | ⟨rfl, hlo, hhi, hwf, ht⟩
  · refine iff_of_false (fun hc => ?_) (by rcases hcase with h | h <;> omega)
    obtain ⟨⟨m, hmem, -, -, h⟩, -⟩ := hc.2 hr0
    exact hbound m hmem h
  · have heq := den_grown_iff (x := base.toNat) (hhit.eq ▸ hwf) hlo
    rw [← hhit.eq, ← ht] at heq
    rw [and_iff_right hhi, ← heq]
    exact ⟨fun hc => hc.1 (by decide), fun h => ⟨fun _ => h, fun h => absurd h (by decide)⟩⟩

/-- A size that wraps when it is rounded up. -/
theorem freeExact_overflow (ha : PowTwo align)
    (hround : 2 ^ 64 ≤ size.toNat + align.toNat - 1) :
    FreeExact lmb base size align ↔ FreeGood lmb base size align := by
  have hzero := lmbAlignUp_of_wrap ha hround
  have hlarge := le_roundUp_of_wrap ha hround
  obtain ⟨r, lmb', hr, -, hden, -, hcase⟩ := @lmbFree_nothing lmb base size align hok hzero
  rw [freeExact_iff hr]
  have hend : (base + lmbAlignUp size align).toNat = base.toNat := by
    rw [hzero, UInt64.add_zero]
  rcases hcase with ⟨rfl, hno⟩ | ⟨hr0, L, e, R, hhit, hm⟩
  · exact iff_of_true ⟨fun _ => hden, fun h => absurd h (by decide)⟩ (freeGood_of_mmio hend hno)
  · refine iff_of_false (fun hc => ?_) fun hg => ?_
    · obtain ⟨⟨m, hmem, -, -, h⟩, -⟩ := hc.2 hr0
      have := hok.fits m hmem
      omega
    · have := hg L e R (hend.symm ▸ hhit) hm
      rw [if_neg (by omega)] at this
      omega

/-- **`lmb_free` for every base and size** on a well-formed reserved table. -/
theorem lmbFree_exact_iff (ha : PowTwo align) :
    FreeExact lmb base size align ↔ FreeGood lmb base size align := by
  by_cases hround : size.toNat + align.toNat - 1 < 2 ^ 64
  · have hs := roundUp_eq ha hround
    rcases Nat.eq_zero_or_pos (roundUp size.toNat align.toNat) with h0 | hpos
    · exact freeExact_zero hok (UInt64.toNat_inj.1 (hs.trans h0)) h0
    by_cases hfit : base.toNat + roundUp size.toNat align.toNat < 2 ^ 64
    · exact freeExact_fits hok hs hpos hfit
    · exact freeExact_wraps hok hs hfit
  · exact freeExact_overflow hok ha (not_lt.1 hround)

end

/-! ### Runs -/

/-- A call that leaves the table to be freed from in order, as a step. A free may name an empty
range. The range of `lmb_add_mmio` is one that the memory table admits, and the reserved table where
it is added to that as well. -/
inductive ReleaseStep (lmb lmb' : Lmb) : Prop
  | call (c : LmbCall) {r : Int} (returns : c.exec lmb = some (r, lmb'))
    (good : match c with
      | .free base size align => PowTwo align ∧
          base.toNat + roundUp size.toNat align.toNat < 2 ^ 64 ∧ FreeGood lmb base size align
      | c => c.Valid ∧ c.Limited lmb ∧ c.Good lmb)
  | addMmio {base size : UInt64} {tag : UInt32} {r : Int}
    (valid : 0 < size.toNat ∧ base.toNat + size.toNat < 2 ^ 64)
    (memory : lmb.memory.Admits (LmbProperty.mk base size tag .mmio).seg)
    (reserved : r = 0 → lmb.reserved.Admits (LmbProperty.mk base size tag .mmio).seg)
    (returns : lmbAddMmio lmb base size tag = some (r, lmb'))

/-- The invariant: as `Lmb.Sound`, or the dummy entry of `lmb_init` was freed. -/
structure Lmb.Steady (lmb : Lmb) : Prop where
  memory : lmb.memory.Sound
  memory_ne : lmb.memory.cnt ≠ 0
  reserved : lmb.reserved.Sound ∨ lmb.reserved.cnt = 0 ∧ lmb.reserved.region 0 = lmbDummy

theorem Lmb.Steady.reserved_ok {lmb : Lmb} (h : lmb.Steady) : lmb.reserved.Ok :=
  h.reserved.elim (fun hs => hs.ok) fun he => LmbRegion.ok_of_empty he.1

section
variable {lmb lmb' : Lmb} {r : Int}

/-- A call other than `lmb_add` and `lmb_free` adds at most one range to the reserved table and
leaves the memory table alone. -/
theorem lmbReserve_frame {base size : UInt64} {type : LmbType} {tag : UInt32}
    (h : lmbReserve lmb base size type tag = some (r, lmb')) : lmb'.memory = lmb.memory ∧
      (lmb'.reserved = lmb.reserved ∨ ∃ p : LmbProperty, ∃ r',
        lmbAddRegion lmb.reserved p.base p.size p.type p.tag = some (r', lmb'.reserved)) := by
  rcases lmbReserve_inv h with ⟨-, rfl⟩ | ⟨-, -, reserved, hr, rfl⟩
  · exact ⟨rfl, .inl rfl⟩
  · exact ⟨rfl, .inr ⟨⟨base, size, tag, type⟩, r, hr⟩⟩

theorem lmbAllocBase_frame {size align maxAddr b : UInt64} {type : LmbType} {tag : UInt32}
    (h : lmbAllocBase lmb size align maxAddr type tag = some (b, lmb')) :
    lmb'.memory = lmb.memory ∧ (lmb'.reserved = lmb.reserved ∨ ∃ p : LmbProperty, ∃ r',
      lmbAddRegion lmb.reserved p.base p.size p.type p.tag = some (r', lmb'.reserved)) := by
  rcases lmbAllocBase_inv h with ⟨-, rfl⟩ | ⟨-, base, r', reserved, -, hr, -, rfl⟩
  · exact ⟨rfl, .inl rfl⟩
  · exact ⟨rfl, .inr ⟨⟨base, lmbAlignUp size align, tag, type⟩, r', hr⟩⟩

/-- On a table that was emptied of the dummy entry any addition restores the dummy. -/
theorem lmbAddRegion_dummy {rgn rgn' : LmbRegion} {p : LmbProperty} (h0 : rgn.cnt = 0)
    (hd : rgn.region 0 = lmbDummy)
    (h : lmbAddRegion rgn p.base p.size p.type p.tag = some (r, rgn')) : rgn'.Initial := by
  rcases lmbAddRegion_empty (p := p) h0 with ⟨-, hnone⟩ | ⟨-, rgn'', hr, hc, ht⟩
  · exact absurd (h.symm.trans hnone) (by simp)
  obtain ⟨-, rfl⟩ := Prod.mk.inj (Option.some.inj (h.symm.trans hr))
  rw [hd, if_neg fun hlt => absurd (UInt64.lt_iff_toNat_lt.1 hlt) (Nat.not_lt_zero _)] at ht
  refine ⟨hc, LmbProperty.seg_inj.1 ?_⟩
  have hmem := LmbRegion.seg_mem_table (show 0 < rgn'.cnt.toNat by rw [hc]; decide)
  rwa [ht, List.mem_singleton] at hmem

/-- Every step keeps the invariant. -/
theorem ReleaseStep.steady (h : ReleaseStep lmb lmb') (hs : lmb.Steady) : lmb'.Steady := by
  -- what an addition to the reserved table leaves, when the table was emptied of the dummy
  have hdummy : lmb.reserved.cnt = 0 ∧ lmb.reserved.region 0 = lmbDummy →
      (lmb'.reserved = lmb.reserved ∨ ∃ p : LmbProperty, ∃ r',
        lmbAddRegion lmb.reserved p.base p.size p.type p.tag = some (r', lmb'.reserved)) →
      lmb'.reserved.Sound ∨ lmb'.reserved.cnt = 0 ∧ lmb'.reserved.region 0 = lmbDummy := by
    rintro hd (heq | ⟨p, r', hr'⟩)
    · exact .inr (heq ▸ hd)
    · exact .inl (lmbAddRegion_dummy hd.1 hd.2 hr').sound
  have hadmitted {p : LmbProperty} {r' : Int} (hv : 0 < p.size.toNat ∧ p.seg.hi < 2 ^ 64)
      (hadm : lmb.reserved.Admits p.seg)
      (hr' : lmbAddRegion lmb.reserved p.base p.size p.type p.tag = some (r', lmb'.reserved)) :
      lmb'.reserved.Sound ∨ lmb'.reserved.cnt = 0 ∧ lmb'.reserved.region 0 = lmbDummy := by
    rcases hs.reserved with hres | hd
    · obtain ⟨r'', reserved, hr'', hs', -⟩ :=
        lmbAddRegion_sound hres (Nat.lt_add_of_pos_right hv.1) hv.2 hadm
      obtain ⟨-, rfl⟩ := Prod.mk.inj (Option.some.inj (hr'.symm.trans hr''))
      exact .inl hs'
    · exact .inl (lmbAddRegion_dummy hd.1 hd.2 hr').sound
  rcases h with ⟨c, hr, hc⟩ | @⟨base, size, tag, r, hv, hmem, hres, hr⟩
  case addMmio =>
    obtain ⟨⟨ret, memory⟩, hadd, heq⟩ := Option.bind_eq_some_iff.1 hr
    obtain ⟨ret', memory', hadd', hs', -, hne⟩ := lmbAddRegion_sound (p := ⟨base, size, tag, .mmio⟩)
      hs.memory (Nat.lt_add_of_pos_right hv.1) hv.2 hmem
    obtain ⟨rfl, rfl⟩ := Prod.mk.inj (Option.some.inj (hadd.symm.trans hadd'))
    by_cases h0 : ret = 0
    · simp only [if_pos h0] at heq
      obtain ⟨⟨ret', reserved⟩, hadd', heq⟩ := Option.bind_eq_some_iff.1 heq
      obtain ⟨rfl, rfl⟩ := Prod.mk.inj (Option.some.inj heq)
      exact ⟨hs', hne hs.memory_ne, hadmitted (p := ⟨base, size, tag, .mmio⟩) hv (hres h0) hadd'⟩
    · simp only [if_neg h0] at heq
      obtain ⟨rfl, rfl⟩ := Prod.mk.inj (Option.some.inj heq)
      exact ⟨hs', hne hs.memory_ne, hs.reserved⟩
  have hsound : lmb.reserved.Sound → c.Valid → c.Limited lmb → c.Good lmb → lmb'.Steady := by
    intro hres hv hl hg
    obtain ⟨r', lmb'', hr', h', -⟩ := c.exec_sound ⟨hs.memory, hs.memory_ne, hres⟩ hv hl hg
    obtain ⟨-, rfl⟩ := Prod.mk.inj (Option.some.inj (hr.symm.trans hr'))
    exact ⟨h'.memory, h'.memory_ne, .inl h'.reserved⟩
  cases c with
  | add base size tag =>
    obtain ⟨hv, -, hg⟩ := hc
    obtain ⟨r', memory, hr', hs', -, hne⟩ :=
      lmbAddRegion_sound (p := ⟨base, size, tag, .free⟩) hs.memory (Nat.lt_add_of_pos_right hv.1)
        hv.2 ⟨fun h0 => absurd h0 hs.memory_ne, hg⟩
    simp only [LmbCall.exec, lmbAdd, hr', Option.bind_eq_bind, Option.bind_some, Option.pure_def,
      Option.some.injEq, Prod.mk.injEq] at hr
    obtain ⟨-, rfl⟩ := hr
    exact ⟨hs', hne hs.memory_ne, hs.reserved⟩
  | reserve base size type tag =>
    rcases hs.reserved with hres | hd
    · exact hsound hres hc.1 hc.2.1 hc.2.2
    · obtain ⟨hm, hframe⟩ := lmbReserve_frame hr
      exact ⟨hm ▸ hs.memory, hm ▸ hs.memory_ne, hdummy hd hframe⟩
  | alloc size align maxAddr type tag =>
    rcases hs.reserved with hres | hd
    · exact hsound hres hc.1 hc.2.1 hc.2.2
    · obtain ⟨⟨b, lmb''⟩, hr', heq⟩ := Option.map_eq_some_iff.1 hr
      obtain ⟨-, rfl⟩ := Prod.mk.inj heq
      obtain ⟨hm, hframe⟩ := lmbAllocBase_frame hr'
      exact ⟨hm ▸ hs.memory, hm ▸ hs.memory_ne, hdummy hd hframe⟩
  | free base size align =>
    obtain ⟨ha, hfit, -⟩ := hc
    have hround : size.toNat + align.toNat - 1 < 2 ^ 64 := by
      by_contra hwrap
      have := le_roundUp_of_wrap ha (not_lt.1 hwrap)
      omega
    have heq := roundUp_eq ha hround
    by_cases h0 : (lmbAlignUp size align).toNat = 0
    · obtain ⟨r', lmb'', hr', hm, -, hcase, -⟩ :=
        @lmbFree_nothing lmb base size align hs.reserved_ok (UInt64.toNat_inj.1 h0)
      obtain ⟨-, rfl⟩ := Prod.mk.inj (Option.some.inj (hr.symm.trans hr'))
      rcases hcase with rfl | ⟨hwf, hne⟩ | hd
      · exact hs
      · exact ⟨hm ▸ hs.memory, hm ▸ hs.memory_ne, .inl (hwf.sound hne)⟩
      · exact ⟨hm ▸ hs.memory, hm ▸ hs.memory_ne, .inr hd⟩
    · have hpos := Nat.pos_of_ne_zero h0
      obtain ⟨r', lmb'', hr', hm, hstep, hreg, -⟩ :=
        @lmbFree_step lmb base size align hs.reserved_ok hpos (heq ▸ hfit)
      obtain ⟨rfl, rfl⟩ := Prod.mk.inj (Option.some.inj (hr.symm.trans hr'))
      refine ⟨hm ▸ hs.memory, hm ▸ hs.memory_ne, ?_⟩
      rcases hs.reserved with hres | ⟨hc, hd⟩
      · exact .inl (lmbFree_sound hres hpos (heq ▸ hfit) hr)
      · rw [LmbRegion.table_eq_nil hc] at hstep
        have ht := (hstep.eq_of_not_le (by simp)).2
        have hc' : lmb'.reserved.cnt = 0 := by
          rw [← UInt64.toNat_inj, ← LmbRegion.length_table, ht]
          rfl
        exact .inr ⟨hc', by rw [hreg hc', hd]⟩

end

/-- **After every run of good calls `lmb_free` removes exactly the range that it is given, or
nothing**, for exactly the arguments that `FreeGood` allows. -/
theorem lmbFree_exact_of_run {lmb₀ lmb : Lmb}
    (h : Relation.ReflTransGen ReleaseStep (lmbInit lmb₀) lmb) {base size align : UInt64}
    (ha : PowTwo align) : FreeExact lmb base size align ↔ FreeGood lmb base size align := by
  have hinit := lmbInit_sound lmb₀
  have hs : lmb.Steady := by
    induction h with
    | refl => exact ⟨hinit.memory, hinit.memory_ne, .inl hinit.reserved⟩
    | tail _ hstep ih => exact hstep.steady ih
  exact lmbFree_exact_iff hs.reserved_ok ha

set_option synthInstance.maxSize 512 in
/-- The image is reserved behind a device. Part of it can be freed, and nothing of the device. -/
theorem lmbFree_exact_of_run_reserve :
    let ram : LmbCall := .add 0x80000000 0x40000000 (lmbTag 'R' 'A' 'M' 'R')
    let image : LmbCall := .reserve 0x80000000 0x3000 .boot lmbTagNone
    ∃ r₁ ∈ ram.exec (lmbInit lmbZero),
      ∃ r₂ ∈ lmbAddMmio r₁.2 0x70006000 0x1000 (lmbTag 'U' 'A' 'R' 'T'), ∃ r₃ ∈ image.exec r₂.2,
        FreeExact r₃.2 0x80000000 0x1000 0x1000 ∧ FreeExact r₃.2 0x70006000 0x1000 0x1000 := by
  intro ram image
  have hrun : ∃ r₁ ∈ ram.exec (lmbInit lmbZero),
      ∃ r₂ ∈ lmbAddMmio r₁.2 0x70006000 0x1000 (lmbTag 'U' 'A' 'R' 'T'), ∃ r₃ ∈ image.exec r₂.2,
      (r₁.2.memory.table = [⟨0x80000000, 0xc0000000, .free, lmbTag 'R' 'A' 'M' 'R'⟩] ∧
        r₁.2.memory.cnt = 1 ∧ r₁.2.reserved.cnt = 1 ∧ r₁.2.reserved.region 0 = lmbDummy) ∧
      (r₂.2.reserved.table = [⟨0x70006000, 0x70007000, .mmio, lmbTag 'U' 'A' 'R' 'T'⟩] ∧
        r₂.2.reserved.cnt = 1) ∧
      r₃.2.reserved.table = [⟨0x70006000, 0x70007000, .mmio, lmbTag 'U' 'A' 'R' 'T'⟩,
        ⟨0x80000000, 0x80003000, .boot, lmbTagNone⟩] := by decide
  obtain ⟨⟨_, lmb₁⟩, e₁, ⟨_, lmb₂⟩, e₂, ⟨_, lmb₃⟩, e₃, ⟨ht₁, hc₁, hcnt, hdummy⟩, ⟨ht₂, hc₂⟩, ht₃⟩ :=
    hrun
  have hno {t : List LmbSegment} {n : LmbSegment} (hdis : ∀ f ∈ t, ¬n.Overlaps f) : ¬Hides t n := by
    rintro ⟨L, e, R, rfl, -, ⟨f, hf, hov⟩, -⟩
    exact hdis f (by simp [hf]) hov
  have h₁ : ReleaseStep (lmbInit lmbZero) lmb₁ :=
    .call ram e₁ ⟨⟨by decide, by decide⟩, trivial, hno (lmbInit_initial lmbZero).1.not_overlaps⟩
  have h₂ : ReleaseStep lmb₁ lmb₂ := by
    refine .addMmio ⟨by decide, by decide⟩
      ⟨fun h0 => absurd (hc₁.symm.trans h0) (by decide), hno ?_⟩
      (fun _ => ⟨fun h0 => absurd (hcnt.symm.trans h0) (by decide),
        hno (LmbRegion.Initial.not_overlaps ⟨hcnt, hdummy⟩)⟩) e₂
    rw [ht₁, List.forall_mem_singleton]
    decide
  have h₃ : ReleaseStep lmb₂ lmb₃ := by
    refine .call image e₃ ⟨⟨by decide, by decide⟩, trivial, fun _ _ =>
      ⟨fun h0 => absurd (hc₂.symm.trans h0) (by decide), hno ?_⟩⟩
    show ∀ f ∈ lmb₂.reserved.table, _
    rw [ht₂, List.forall_mem_singleton]
    decide
  have hrun := Relation.ReflTransGen.tail (.tail (.single h₁) h₂) h₃
  refine ⟨_, e₁, _, e₂, _, e₃, (lmbFree_exact_of_run hrun ⟨12, by decide⟩).2 ?_,
    (lmbFree_exact_of_run hrun ⟨12, by decide⟩).2 ?_⟩ <;> intro L e R hhit hmmio
  all_goals
    have he : e ∈ lmb₃.reserved.table := by simp [hhit.eq]
    rw [ht₃, List.mem_pair] at he
    obtain rfl := he.resolve_left fun heq => hmmio (heq ▸ rfl)
    rw [if_pos (by decide)]
    exact fun _ h => absurd h (by decide)

/-- A free of a range that wraps to the start of the entry fails after it has cut the entry off. -/
theorem lmbFree_truncates :
    ∃ lmb ∈ LmbCall.execs (lmbInit lmbZero)
        [.add 0x80000000 0x40000000 (lmbTag 'R' 'A' 'M' 'R'),
          .reserve 0x80000000 0x3000 .boot lmbTagNone],
      PowTwo 0x1000 ∧ ¬FreeExact lmb 0x80001000 0xfffffffffffff000 0x1000 := by
  have h : ∃ lmb ∈ LmbCall.execs (lmbInit lmbZero)
        [.add 0x80000000 0x40000000 (lmbTag 'R' 'A' 'M' 'R'),
          .reserve 0x80000000 0x3000 .boot lmbTagNone],
      ∃ r ∈ lmbFree lmb 0x80001000 0xfffffffffffff000 0x1000, r.1 = -1 ∧
        lmb.reserved.table = [⟨0x80000000, 0x80003000, .boot, lmbTagNone⟩] ∧
        r.2.reserved.table = [⟨0x80000000, 0x80001000, .boot, lmbTagNone⟩] := by decide
  obtain ⟨lmb, hlmb, ⟨_, lmb'⟩, hr, rfl, ht, ht'⟩ := h
  refine ⟨lmb, hlmb, ⟨12, by decide⟩, fun hexact => ?_⟩
  obtain ⟨r, lmb'', hr', hneg, -⟩ := hexact
  obtain ⟨rfl, rfl⟩ := Prod.mk.inj (Option.some.inj (hr'.symm.trans hr))
  have hden := hneg (by decide)
  have hmem : (0x80001000, (LmbType.boot, lmbTagNone)) ∈ den lmb.reserved.table :=
    ⟨_, by rw [ht]; exact List.mem_singleton.2 rfl, ⟨by decide, by decide⟩, rfl⟩
  rw [← hden, ht'] at hmem
  obtain ⟨s, hs, hx, -⟩ := hmem
  rw [List.mem_singleton.1 hs] at hx
  exact absurd hx.2 (by decide)

end ShieldLoader
