import ShieldLoader.Data.Runs
import ShieldLoader.Lmb.Coalesced
import Mathlib.Data.Finset.Card

/-!
# Registering the memory

`main` calls `lmb_add` for every range of memory, all with one tag. Whatever the order of the calls,
the table stays canonical, and so holds the runs of the memory that has been added.
-/

namespace ShieldLoader

open Segment

/-! ### The calls -/

/-- A range of memory with its tag, as `lmb_add` records it. -/
def memorySeg (tag : UInt32) (range : UInt64 × UInt64) : LmbSegment :=
  (LmbProperty.mk range.1 range.2 tag .free).seg

/-- `lmb_add` of one range `(base, size)` after the other, as long as each is taken. -/
def lmbRegister (lmb : Lmb) (tag : UInt32) : List (UInt64 × UInt64) → Option Lmb
  | [] => some lmb
  | range :: ranges => do
    let (ret, lmb) ← lmbAdd lmb range.1 range.2 tag
    if ret < 0 then none else lmbRegister lmb tag ranges

/-- The memory table after the ranges `A` were added. -/
structure Registered (rgn : LmbRegion) (tag : UInt32) (A : List (UInt64 × UInt64)) : Prop where
  ok : A = [] ∧ rgn.Initial ∨ A ≠ [] ∧ rgn.WF ∧ Canonical rgn.table
  label : A ≠ [] → ∀ s ∈ rgn.table, s.label = (.free, tag)
  points : den rgn.table = den (A.map (memorySeg tag))
  pos : 1 ≤ rgn.cnt.toNat
  cnt_le : rgn.cnt.toNat ≤ max 1 A.length

/-- One more range. -/
theorem Registered.add {lmb : Lmb} {tag : UInt32} {A : List (UInt64 × UInt64)}
    {range : UInt64 × UInt64} (h : Registered lmb.memory tag A) (hlen : A.length < maxLmbRegions)
    (hpos : 0 < range.2.toNat) (hfit : range.1.toNat + range.2.toNat < 2 ^ 64)
    (hdis : ∀ a ∈ A, ¬(memorySeg tag range).Overlaps (memorySeg tag a)) :
    ∃ ret lmb', lmbAdd lmb range.1 range.2 tag = some (ret, lmb') ∧ 0 ≤ ret ∧
      Registered lmb'.memory tag (range :: A) := by
  let p : LmbProperty := ⟨range.1, range.2, tag, .free⟩
  have hn : p.seg.lo < p.seg.hi := Nat.lt_add_of_pos_right hpos
  have hadd : ∀ {ret rgn'}, lmbAddRegion lmb.memory p.base p.size p.type p.tag = some (ret, rgn') →
      lmbAdd lmb range.1 range.2 tag = some (ret, { lmb with memory := rgn' }) := by
    intro ret rgn' hr
    simp only [lmbAdd, p] at hr ⊢
    rw [hr]
    rfl
  have hden : ∀ {rgn' : LmbRegion}, den rgn'.table = den lmb.memory.table ∪ den [p.seg] →
      den rgn'.table = den ((range :: A).map (memorySeg tag)) := by
    intro rgn' hd
    rw [hd, h.points, List.map_cons, den_cons (memorySeg tag range), Set.union_comm]
    rfl
  rcases h.ok with ⟨rfl, hinit⟩ | ⟨hne, hwf, hcan⟩
  · obtain ⟨rgn', hr, hcnt, ht, hwf'⟩ := lmbAddRegion_initial hinit hn hfit
    refine ⟨0, _, hadd hr, le_rfl, .inr ⟨by simp, hwf', ?_⟩, fun _ => ?_, hden ?_, ?_, ?_⟩
    · rw [ht]
      exact List.pairwise_singleton ..
    · rw [ht]
      simp [p]
    · rw [ht, hinit.den_table, Set.empty_union]
    · rw [hcnt]
      exact h.pos
    · rw [hcnt, hinit.1]
      simp
  · have hroom : lmb.memory.cnt.toNat < maxLmbRegions := h.cnt_le.trans_lt (max_lt (by decide) hlen)
    -- an entry that the range overlaps would share a point with a range that was added
    have hdis' : ∀ e ∈ lmb.memory.table, ¬p.seg.Overlaps e := by
      intro e he hov
      obtain ⟨x, hx, hxe⟩ := hov.exists_mem hn (hwf.wf.proper e he)
      have hmem : (x, e.label) ∈ den lmb.memory.table := ⟨e, he, hxe, rfl⟩
      rw [h.points] at hmem
      obtain ⟨s, hs, hxs, -⟩ := hmem
      obtain ⟨a, ha, rfl⟩ := List.mem_map.1 hs
      exact hdis a ha (.of_mem hx hxs)
    obtain ⟨M, rgn', hr, hwf', hM, hmerged, hstep⟩ :=
      lmbAddRegion_merged hwf hcan h.pos hroom hn hfit hdis'
    have hcnt := hmerged.length
    rw [LmbRegion.length_table, LmbRegion.length_table] at hcnt
    have hlab := h.label hne
    refine ⟨_, _, hadd hr, by omega, .inr ⟨by simp, hwf', ?_⟩, fun _ => ?_, hden hmerged.den_eq,
      ?_, ?_⟩
    · refine hstep.canonical hwf.wf hcan hn hdis' fun hw => ?_
      obtain ⟨e, he, -, -, -, hne, -⟩ := hw
      exact hne (hlab e he)
    · exact hstep.forall_mem (P := fun s => s.label = (.free, tag)) (fun ha _ => ha) hlab rfl
    · have hpos := hstep.ne_nil (List.ne_nil_of_length_pos (by rw [LmbRegion.length_table]; exact h.pos))
      rw [← LmbRegion.length_table]
      exact List.length_pos_of_ne_nil hpos
    · have hle := h.cnt_le
      have hA := List.length_pos_of_ne_nil hne
      simp only [List.length_cons]
      omega

/-- **All ranges are taken**, when there are no more than slots and they do not overlap. -/
theorem lmbRegister_registered {tag : UInt32} (ranges : List (UInt64 × UInt64))
    (hpos : ∀ a ∈ ranges, 0 < a.2.toNat) (hfit : ∀ a ∈ ranges, a.1.toNat + a.2.toNat < 2 ^ 64)
    (hdis : ranges.Pairwise fun a b => ¬(memorySeg tag a).Overlaps (memorySeg tag b)) {lmb : Lmb}
    {A : List (UInt64 × UInt64)} (h : Registered lmb.memory tag A)
    (hA : ∀ a ∈ ranges, ∀ b ∈ A, ¬(memorySeg tag a).Overlaps (memorySeg tag b))
    (hlen : ranges.length + A.length ≤ maxLmbRegions) :
    ∃ lmb', lmbRegister lmb tag ranges = some lmb' ∧
      Registered lmb'.memory tag (ranges.reverse ++ A) := by
  induction ranges generalizing lmb A with
  | nil => exact ⟨lmb, rfl, h⟩
  | cons range ranges ih =>
    simp only [List.forall_mem_cons] at hpos hfit hA
    rw [List.pairwise_cons] at hdis
    rw [List.length_cons] at hlen
    obtain ⟨ret, lmb₁, hr, hret, h₁⟩ := h.add (by omega) hpos.1 hfit.1 hA.1
    have hA₁ : ∀ a ∈ ranges, ∀ b ∈ range :: A, ¬(memorySeg tag a).Overlaps (memorySeg tag b) := by
      intro a ha b hb
      rcases List.mem_cons.1 hb with rfl | hb
      · exact fun hov => hdis.1 a ha hov.symm
      · exact hA.2 a ha b hb
    obtain ⟨lmb', hrun, h'⟩ := ih hpos.2 hfit.2 hdis.2 h₁ hA₁ (by rw [List.length_cons]; omega)
    refine ⟨lmb', ?_, ?_⟩
    · simp only [lmbRegister, hr, Option.bind_eq_bind, Option.bind_some, if_neg (not_lt.2 hret), hrun]
    · rwa [List.reverse_cons, List.append_assoc]

/-- The runs of the memory in `S`, in increasing order, or the dummy when `S` is empty. -/
def IsRunTable (S : Finset (UInt64 × UInt64)) (tag : UInt32) (T : List LmbSegment) : Prop :=
  if S = ∅ then T = [lmbDummy.seg]
  else T.Pairwise (fun a b => a.lo < b.lo) ∧
    ∀ s, s ∈ T ↔ s.label = (.free, tag) ∧
      IsRun {x | ∃ a ∈ S, a.1.toNat ≤ x ∧ x < a.1.toNat + a.2.toNat} s.lo s.hi

theorem Registered.isRunTable {rgn : LmbRegion} {tag : UInt32} {A : List (UInt64 × UInt64)}
    {S : Finset (UInt64 × UInt64)} (h : Registered rgn tag A) (hA : ∀ a, a ∈ A ↔ a ∈ S) :
    IsRunTable S tag rgn.table := by
  have hcovers : {x | Covers rgn.table x} =
      {x | ∃ a ∈ S, a.1.toNat ≤ x ∧ x < a.1.toNat + a.2.toNat} := by
    ext x
    have hsame : Covers rgn.table x ↔ Covers (A.map (memorySeg tag)) x := by
      rw [covers_iff_den, covers_iff_den, h.points]
    rw [Set.mem_ofPred_eq, hsame]
    simp only [Set.mem_ofPred_eq, Covers, List.mem_map, exists_exists_and_eq_and, hA]
    rfl
  rw [IsRunTable]
  rcases h.ok with ⟨rfl, hinit⟩ | ⟨hne, hwf, hcan⟩
  · have hS : S = ∅ := Finset.eq_empty_of_forall_notMem fun a ha => by simpa using (hA a).2 ha
    rw [if_pos hS]
    exact hinit.table_eq
  · have hS : S ≠ ∅ := by
      obtain ⟨a, ha⟩ := List.exists_mem_of_ne_nil A hne
      exact Finset.ne_empty_of_mem ((hA a).1 ha)
    have hlab := h.label hne
    rw [if_neg hS, ← hcovers]
    refine ⟨hwf.wf.sorted.imp_of_mem fun ha _ hab => (hwf.wf.proper _ ha).trans_le hab, fun s => ?_⟩
    rw [isRun_covers_iff hwf.wf (hcan.gapped hwf.wf hlab)]
    constructor
    · intro hs
      exact ⟨hlab s hs, s, hs, rfl, rfl⟩
    · rintro ⟨hk, u, hu, hlo, hhi⟩
      have hku := (hlab u hu).trans hk.symm
      cases u
      cases s
      simp only at hlo hhi hku
      rwa [← hlo, ← hhi, ← hku]

/-- There is one table of runs. -/
theorem IsRunTable.unique {S : Finset (UInt64 × UInt64)} {tag : UInt32} {T T' : List LmbSegment}
    (h : IsRunTable S tag T) (h' : IsRunTable S tag T') : T = T' := by
  rw [IsRunTable] at h h'
  split at h
  · next hS => rw [h, (if_pos hS).mp h']
  · next hS =>
    rw [if_neg hS] at h'
    have : Std.Irrefl fun a b : LmbSegment => a.lo < b.lo := ⟨fun a => lt_irrefl a.lo⟩
    have : Std.Antisymm fun a b : LmbSegment => a.lo < b.lo :=
      ⟨fun a b hab hba => absurd hab hba.not_gt⟩
    exact h.1.eq_of_mem_iff h'.1 fun s => by rw [h.2, h'.2]

/-- **The order of registration does not matter.** At most `MAX_LMB_REGIONS` disjoint ranges of one
tag are all taken, in any order, and the table is then that of their runs. -/
theorem lmbRegister_confluent (S : Finset (UInt64 × UInt64)) (tag : UInt32)
    (hcard : S.card ≤ maxLmbRegions) (hpos : ∀ a ∈ S, 0 < a.2.toNat)
    (hfit : ∀ a ∈ S, a.1.toNat + a.2.toNat < 2 ^ 64)
    (hdis : ∀ a ∈ S, ∀ b ∈ S, a ≠ b → ¬(memorySeg tag a).Overlaps (memorySeg tag b)) :
    ∃ T, IsRunTable S tag T ∧ ∀ ranges, ranges.Perm S.toList → ∀ lmb₀,
      ∃ lmb, lmbRegister (lmbInit lmb₀) tag ranges = some lmb ∧ lmb.memory.table = T := by
  have hrun : ∀ ranges, ranges.Perm S.toList → ∀ lmb₀,
      ∃ lmb, lmbRegister (lmbInit lmb₀) tag ranges = some lmb ∧
        IsRunTable S tag lmb.memory.table := by
    intro ranges hperm lmb₀
    have hmem : ∀ a, a ∈ ranges ↔ a ∈ S := fun a => by rw [hperm.mem_iff, Finset.mem_toList]
    have hnodup : ranges.Nodup := hperm.nodup_iff.2 S.nodup_toList
    have hlen : ranges.length ≤ maxLmbRegions := by rwa [hperm.length_eq, Finset.length_toList]
    have hinit := (lmbInit_initial lmb₀).1
    have hstart : Registered (lmbInit lmb₀).memory tag [] := by
      refine ⟨.inl ⟨rfl, hinit⟩, fun h => absurd rfl h, ?_, ?_, ?_⟩
      · rw [hinit.den_table]
        simp
      · rw [hinit.1]
        decide
      · rw [hinit.1]
        decide
    obtain ⟨lmb, hr, hreg⟩ := lmbRegister_registered ranges (fun a ha => hpos a ((hmem a).1 ha))
      (fun a ha => hfit a ((hmem a).1 ha))
      (hnodup.imp_of_mem fun ha hb hne => hdis _ ((hmem _).1 ha) _ ((hmem _).1 hb) hne) hstart
      (by simp) (by simpa using hlen)
    exact ⟨lmb, hr, hreg.isRunTable fun a => by simp [hmem]⟩
  obtain ⟨lmb, -, hT⟩ := hrun S.toList (.refl _) lmbZero
  refine ⟨lmb.memory.table, hT, fun ranges hperm lmb₀ => ?_⟩
  obtain ⟨lmb', hr', hT'⟩ := hrun ranges hperm lmb₀
  exact ⟨lmb', hr', hT'.unique hT⟩

/-- The third range closes the gap between the first two. -/
theorem lmbRegister_confluent_gap :
    let ranges : List (UInt64 × UInt64) :=
      [(0x80000000, 0x1000), (0x80002000, 0x1000), (0x80001000, 0x1000)]
    ∃ T, IsRunTable ranges.toFinset lmbTagNone T ∧
      ∃ lmb, lmbRegister (lmbInit lmbZero) lmbTagNone ranges = some lmb ∧ lmb.memory.table = T := by
  intro ranges
  have hmem : ∀ a ∈ ranges, a = (0x80000000, 0x1000) ∨ a = (0x80002000, 0x1000) ∨
      a = (0x80001000, 0x1000) := fun a ha => by simpa [ranges] using ha
  have hpos : ∀ a ∈ ranges, 0 < a.2.toNat ∧ a.1.toNat + a.2.toNat < 2 ^ 64 := by
    intro a ha
    rcases hmem a ha with rfl | rfl | rfl <;> decide
  have hdis : ∀ a ∈ ranges, ∀ b ∈ ranges, a ≠ b →
      ¬(memorySeg lmbTagNone a).Overlaps (memorySeg lmbTagNone b) := by
    intro a ha b hb
    rcases hmem a ha with rfl | rfl | rfl <;> rcases hmem b hb with rfl | rfl | rfl <;> decide
  simp only [← List.mem_toFinset] at hpos hdis
  obtain ⟨T, hT, hrun⟩ := lmbRegister_confluent ranges.toFinset lmbTagNone
    ((List.toFinset_card_le ranges).trans (by decide)) (fun a ha => (hpos a ha).1)
    (fun a ha => (hpos a ha).2) hdis
  exact ⟨T, hT, hrun ranges (List.toFinset_toList (by decide)).symm lmbZero⟩

/-- Without a range the table holds the dummy, which is no run. -/
theorem lmbRegister_nil :
    ∃ lmb, lmbRegister (lmbInit lmbZero) lmbTagNone [] = some lmb ∧
      ¬∀ s, s ∈ lmb.memory.table ↔ s.label = (.free, lmbTagNone) ∧
        IsRun {x | ∃ a ∈ (∅ : Finset (UInt64 × UInt64)), a.1.toNat ≤ x ∧ x < a.1.toNat + a.2.toNat}
          s.lo s.hi := by
  refine ⟨_, rfl, fun h => ?_⟩
  have hmem : lmbDummy.seg ∈ (lmbInit lmbZero).memory.table := by
    rw [(lmbInit_initial lmbZero).1.table_eq]
    exact List.mem_singleton_self _
  have hrun := ((h _).1 hmem).2
  simp only [Finset.notMem_empty, false_and, exists_false, Set.ofPred_false] at hrun
  exact not_isRun_empty hrun

end ShieldLoader
