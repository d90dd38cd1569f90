import ShieldLoader.Lmb.WellFormed

/-!
# A block with a label of its own

A block whose label no entry has is never coalesced: `lmb_add_region` gives it an entry of its own
or has no room. `lmb_free` takes that entry away again if no entry before it passes the test that
it makes, with sums that wrap, on its way there. Neither the block nor its end has to be in range.
-/

namespace ShieldLoader

open Segment

/-- `lmb_overlaps_region` finds nothing. -/
theorem lmbOverlapsRegion_eq_none {rgn : LmbRegion} {base size : UInt64} :
    lmbOverlapsRegion rgn base size = none ↔ ∀ i < rgn.cnt.toNat,
      lmbAddrsOverlap base size (rgn.region i).base (rgn.region i).size = false := by
  simp [lmbOverlapsRegion]

/-! ### The search -/

theorem lmbAllocBase.scan_overlaps {reserved : LmbRegion} {lmbbase size align b : UInt64} (n : Nat)
    {base : UInt64} (h : scan reserved lmbbase size align n base = some b) :
    b ≠ 0 ∧ lmbOverlapsRegion reserved b size = none := by
  induction n generalizing base with
  | zero => simp [scan] at h
  | succ n ih =>
    rw [scan] at h
    split at h
    · next hin =>
      cases hov : lmbOverlapsRegion reserved base size with
      | none =>
        simp only [hov, Option.some.injEq] at h
        exact h ▸ ⟨hin.1, hov⟩
      | some j =>
        simp only [hov] at h
        split at h
        · simp at h
        · exact ih h
    · simp at h

/-- A block that is found has an address, and meets no entry as `lmb_addrs_overlap` sees it. -/
theorem lmbAllocBase.search_overlaps {lmb : Lmb} {size align maxAddr b : UInt64} (n : Nat)
    (h : search lmb size align maxAddr n = some b) :
    b ≠ 0 ∧ lmbOverlapsRegion lmb.reserved b size = none := by
  induction n with
  | zero => simp [search] at h
  | succ n ih =>
    rw [search] at h
    cases hst : start (lmb.memory.region n) size align maxAddr with
    | none => exact ih (by simpa only [hst] using h)
    | some base =>
      simp only [hst] at h
      cases hsc : scan lmb.reserved (lmb.memory.region n).base size align (base.toNat + 1) base with
      | none => exact ih (by simpa only [hsc] using h)
      | some b' =>
        simp only [hsc, Option.some.injEq] at h
        exact h ▸ scan_overlaps _ hsc

/-! ### Adding -/

/-- The search loop of `lmb_add_region` meets no entry: it stops at an adjacent one or runs to the
end. -/
theorem lmbAddRegion.scan_clear {rgn : LmbRegion} {base size : UInt64}
    (hclear : lmbOverlapsRegion rgn base size = none) (n i : Nat) (hn : i + n = rgn.cnt.toNat) :
    ∃ k adjacent, scan rgn base size i n = some (k, adjacent) ∧
      (k < rgn.cnt.toNat ∨ k = rgn.cnt.toNat ∧ adjacent = 0) := by
  induction n generalizing i with
  | zero => exact ⟨i, 0, rfl, .inr ⟨by omega, rfl⟩⟩
  | succ n ih =>
    have hi := lmbOverlapsRegion_eq_none.1 hclear i (by omega)
    rw [scan, hi, if_neg Bool.false_ne_true]
    simp only
    split
    · exact ⟨i, _, rfl, .inl (by omega)⟩
    · exact ih (i + 1) (by omega)

theorem lmbAddRegion.grow_of_ne {q : LmbProperty} {size : UInt64} {type : LmbType} {tag : UInt32}
    {adjacent : Int} (h : q.seg.label ≠ (type, tag)) : grow q size type tag adjacent = (q, 0) := by
  rw [grow, if_neg]
  rintro ⟨rfl, rfl⟩
  exact h rfl

/-- Entries that continue no earlier one of their label are not merged. -/
theorem lmbAddRegion.merge_canonical {rgn : LmbRegion} {i : Nat} (hwf : rgn.WF)
    (hcan : Canonical rgn.table) (h0 : 0 < rgn.cnt.toNat) (hi : i ≤ rgn.cnt.toNat) :
    merge rgn i 0 = some (rgn, 0) := by
  rcases hi.lt_or_eq with hi | rfl
  · refine (lmbAddRegion.merge_eq h0 hwf.cnt_le hi hwf.fits fun hi' => ?_).elim ?_ And.right
    · have := List.pairwise_iff_getElem.1 hwf.pairwise_lo i (i + 1) (by simpa using hi)
        (by simpa using hi') (Nat.lt_succ_self i)
      simpa using this
    · rintro ⟨f, R, _, hdrop, ⟨htouch, hlabel⟩, -, -⟩
      have htab := LmbRegion.table_eq_append hi
      rw [hdrop] at htab
      rw [htab] at hcan
      have hcan' := (List.pairwise_cons.1 (List.pairwise_append.1 hcan).2.1).1 f (by simp)
      have hwf' : Segment.WF (rgn.table.take i ++ (rgn.region i).seg :: f :: R) := htab ▸ hwf.wf
      have hle := hwf'.le_right f (by simp)
      have h1 := hwf'.proper f (by simp)
      have h2 := hwf'.proper (rgn.region i).seg (by simp)
      refine absurd ⟨htouch.resolve_right fun h => ?_, hlabel⟩ hcan'
      omega
  · rw [merge, if_neg]
    have := UInt64.toNat_sub_of_le rgn.cnt 1
      (by rw [UInt64.le_iff_toNat_le, UInt64.toNat_one]; omega)
    rw [UInt64.toNat_one] at this
    omega

/-- **A block with a new label gets an entry of its own**, where its base belongs, or there is no
room for it. -/
theorem lmbAddRegion_own {rgn : LmbRegion} {p : LmbProperty} (hwf : rgn.WF)
    (hcan : Canonical rgn.table) (hne : rgn.table ≠ [])
    (hlabel : ∀ e ∈ rgn.table, e.label ≠ p.seg.label)
    (hclear : lmbOverlapsRegion rgn p.base p.size = none) :
    lmbAddRegion rgn p.base p.size p.type p.tag = some (-1, rgn) ∨
    rgn.table.length < maxLmbRegions ∧
      ∃ rgn' L R, lmbAddRegion rgn p.base p.size p.type p.tag = some (0, rgn') ∧
        rgn.table = L ++ R ∧ rgn'.table = L ++ p.seg :: R ∧
        (∀ l ∈ L, l.lo ≤ p.seg.lo) ∧ ∀ r ∈ R, p.seg.lo < r.lo := by
  have h0 : 0 < rgn.cnt.toNat := by
    rw [← LmbRegion.length_table]
    exact List.length_pos_of_ne_nil hne
  obtain ⟨k, adjacent, hscan, hk⟩ := lmbAddRegion.scan_clear hclear rgn.cnt.toNat 0 (by omega)
  have hgrow : lmbAddRegion.grow (rgn.region k) p.size p.type p.tag adjacent =
      (rgn.region k, 0) := by
    rcases hk with hk | ⟨-, rfl⟩
    · exact lmbAddRegion.grow_of_ne (hlabel _ (LmbRegion.seg_mem_table hk))
    · exact lmbAddRegion.grow_zero ..
  have hmerge := lmbAddRegion.merge_canonical hwf hcan h0 (hk.elim le_of_lt fun h => h.1.le)
  have hadd : lmbAddRegion rgn p.base p.size p.type p.tag = some (lmbAddRegion.place rgn p) := by
    rw [lmbAddRegion, if_neg hwf.not_dummy]
    simp only [hscan, hgrow, Function.update_eq_self, hmerge]
    rfl
  rw [hadd]
  rcases lmbAddRegion.place_table p h0 hwf.pairwise_lo with
    ⟨-, heq⟩ | ⟨hroom, hr, L, R, ht, ht', hL, hR⟩
  · exact .inl (congrArg some heq)
  · exact .inr ⟨hroom, _, L, R, by rw [← hr], ht, ht', hL, hR⟩

/-! ### Freeing -/

/-- The search loop of `lmb_free` finds the first entry that passes its test. -/
theorem lmbFree.find_first {rgn : LmbRegion} {base «end» : UInt64} {k : Nat} (n i : Nat)
    (hik : i ≤ k) (hkn : k < i + n)
    (hk : (rgn.region k).base ≤ base ∧ «end» ≤ (rgn.region k).base + (rgn.region k).size)
    (hfirst : ∀ j, i ≤ j → j < k →
      ¬((rgn.region j).base ≤ base ∧ «end» ≤ (rgn.region j).base + (rgn.region j).size)) :
    find rgn base «end» i n = some k := by
  induction n generalizing i with
  | zero => omega
  | succ n ih =>
    rw [find]
    rcases hik.eq_or_lt with rfl | hlt
    · rw [if_pos hk]
    · rw [if_neg (hfirst i le_rfl hlt)]
      exact ih (i + 1) hlt (by omega) fun j hj => hfirst j (by omega)

/-- **`lmb_free` takes an entry away** that is the range it frees, if none before it holds that
range. -/
theorem lmbFree_own {lmb : Lmb} {base size align : UInt64} {type : LmbType} {tag : UInt32}
    {L R : List LmbSegment} (hcnt : lmb.reserved.cnt.toNat ≤ maxLmbRegions + 1)
    (ht : lmb.reserved.table =
      L ++ (LmbProperty.mk base (lmbAlignUp size align) tag type).seg :: R)
    (htype : type ≠ .mmio) (hfit : ∀ l ∈ L, l.hi < 2 ^ 64)
    (hfirst : ∀ l ∈ L, ¬(l.lo ≤ base.toNat ∧ (base + lmbAlignUp size align).toNat ≤ l.hi)) :
    ∃ lmb', lmbFree lmb base size align = some (0, lmb') ∧ lmb'.memory = lmb.memory ∧
      lmb'.reserved.table = L ++ R := by
  have hlen := congrArg List.length ht
  simp only [LmbRegion.length_table, List.length_append, List.length_cons] at hlen
  have hk : L.length < lmb.reserved.cnt.toNat := by omega
  have hget : ∀ j < lmb.reserved.cnt.toNat, some (lmb.reserved.region j).seg =
      (L ++ (LmbProperty.mk base (lmbAlignUp size align) tag type).seg :: R)[j]? := by
    intro j hj
    rw [← ht, List.getElem?_eq_getElem (by rwa [LmbRegion.length_table]), LmbRegion.getElem_table]
  have hown : lmb.reserved.region L.length = ⟨base, lmbAlignUp size align, tag, type⟩ := by
    rw [← LmbProperty.seg_inj, ← Option.some_inj, hget _ hk]
    simp
  have hbefore : ∀ j < L.length, ¬((lmb.reserved.region j).base ≤ base ∧
      base + lmbAlignUp size align ≤
        (lmb.reserved.region j).base + (lmb.reserved.region j).size) := by
    intro j hj
    have hmem : (lmb.reserved.region j).seg ∈ L := by
      refine List.mem_of_getElem? (i := j) ?_
      rw [hget j (by omega), List.getElem?_append_left hj]
    have hno := hfirst _ hmem
    rwa [← LmbProperty.toNat_end (hfit _ hmem), LmbProperty.seg_lo, ← UInt64.le_iff_toNat_le,
      ← UInt64.le_iff_toNat_le] at hno
  have hfind : lmbFree.find lmb.reserved base (base + lmbAlignUp size align) 0
      lmb.reserved.cnt.toNat = some L.length := by
    refine lmbFree.find_first _ 0 (Nat.zero_le _) (by omega) ?_ fun j _ hj => hbefore j hj
    rw [hown]
    exact ⟨UInt64.le_refl _, UInt64.le_refl _⟩
  obtain ⟨rgn', hr, -, ht', -⟩ := lmbRemoveRegion_eq hk hcnt
  refine ⟨{ lmb with reserved := rgn' }, ?_, rfl, ?_⟩
  · simp only [lmbFree, hfind, hown, if_neg htype, and_self, if_true, hr]
    rfl
  · rw [ht', ht, List.take_left, List.drop_append, List.drop_of_length_le (by omega)]
    simp

end ShieldLoader
