import ShieldLoader.Lmb.Free
import Mathlib.Logic.Relation

/-!
# The tables over runs of calls

A table that `lmb_free` has emptied is not the one of `lmb_init`: `cnt` is `0` and the freed entry is
still in the array, where the next `lmb_add_region` reads it. `LmbRegion.Sound` is the invariant that
covers this state too. It is kept by every call that is not one of two kinds: an addition of a range
that touches an entry from above and hides, from the loop that looks for overlaps, the entries that
it overlaps (`Hides`), and an addition to an emptied table whose first two stale entries look
mergeable (`StalePair`).
-/

namespace ShieldLoader

open Segment

/-! ### Emptied tables -/

namespace LmbRegion

/-- The first two entries of the array touch and have one label. -/
def StalePair (rgn : LmbRegion) : Prop :=
  lmbRegionsAdjacent rgn 0 1 ≠ 0 ∧ (rgn.region 0).tag = (rgn.region 1).tag ∧
    (rgn.region 0).type = (rgn.region 1).type

instance (rgn : LmbRegion) : Decidable rgn.StalePair := inferInstanceAs (Decidable (_ ∧ _))

/-- Well formed or initial, and when emptied, with a proper entry at the start of the array. -/
structure Sound (rgn : LmbRegion) : Prop where
  ok : rgn.Ok
  stale : rgn.cnt = 0 → 0 < (rgn.region 0).size.toNat ∧ (rgn.region 0).seg.hi < 2 ^ 64

/-- The entries are in strictly increasing order of their bases and disjoint, and at most
`MAX_LMB_REGIONS`. -/
def Ordered (rgn : LmbRegion) : Prop :=
  rgn.cnt.toNat ≤ maxLmbRegions ∧ rgn.table.Pairwise fun a b => a.lo < b.lo ∧ a.hi ≤ b.lo

instance (rgn : LmbRegion) : Decidable rgn.Ordered := inferInstanceAs (Decidable (_ ∧ _))

variable {rgn : LmbRegion}

theorem WF.ordered (h : rgn.WF) : rgn.Ordered := by
  refine ⟨h.cnt_le, h.wf.sorted.imp_of_mem fun ha _ hab => ⟨?_, hab⟩⟩
  exact (h.wf.proper _ ha).trans_le hab

theorem Ok.ordered (h : rgn.Ok) : rgn.Ordered := by
  rcases h with h | h
  · exact h.ordered
  · refine ⟨by rw [h.1]; decide, ?_⟩
    rw [h.table_eq]
    exact List.pairwise_singleton ..

theorem Initial.sound (h : rgn.Initial) : rgn.Sound :=
  ⟨.inr h, fun h0 => absurd (h.1.symm.trans h0) (by decide)⟩

theorem WF.sound (h : rgn.WF) (h0 : rgn.cnt ≠ 0) : rgn.Sound := ⟨.inl h, fun h => absurd h h0⟩

theorem table_eq_nil (h : rgn.cnt = 0) : rgn.table = [] := by
  rw [← List.length_eq_zero_iff, length_table, h]; rfl

theorem ok_of_empty (h : rgn.cnt = 0) : rgn.Ok := by
  refine .inl ⟨by rw [h]; decide, ?_, ?_⟩ <;> rw [table_eq_nil h]
  · exact .nil
  · simp

theorem toNat_cnt_pos : 0 < rgn.cnt.toNat ↔ rgn.cnt ≠ 0 := by
  rw [Nat.pos_iff_ne_zero, Ne, ← UInt64.toNat_zero, UInt64.toNat_inj]

/-- A table of one proper entry. -/
theorem sound_of_single {s : LmbSegment} (hc : rgn.cnt = 1) (ht : rgn.table = [s])
    (hs : s.lo < s.hi) (hfit : s.hi < 2 ^ 64) : rgn.Sound := by
  refine WF.sound ⟨by rw [hc]; decide, ?_, ?_⟩ (by rw [hc]; decide)
  · rw [ht]; exact .singleton hs
  · rw [ht]; simpa using hfit

end LmbRegion

/-- `lmb_add_region` on an emptied table leaves the array when the first two entries look mergeable.
Otherwise it makes the first entry of the array the only one of the table, after it has put the new
range there when its base is below that of the stale one. -/
theorem lmbAddRegion_empty_eq {rgn : LmbRegion} {p : LmbProperty} (h0 : rgn.cnt = 0) :
    (rgn.StalePair ∧ lmbAddRegion rgn p.base p.size p.type p.tag = none) ∨
    (¬rgn.StalePair ∧ lmbAddRegion rgn p.base p.size p.type p.tag =
      some (0, ⟨1, if p.base < (rgn.region 0).base then Function.update rgn.region 0 p
        else rgn.region⟩)) := by
  have hlt : 0 < ((0 : UInt64) - 1).toNat := by decide
  have hpair : (0 < (rgn.cnt - 1).toNat ∧ lmbRegionsAdjacent rgn 0 (0 + 1) ≠ 0 ∧
      (rgn.region 0).tag = (rgn.region (0 + 1)).tag ∧
      (rgn.region 0).type = (rgn.region (0 + 1)).type) ↔ rgn.StalePair := by
    rw [h0]; exact and_iff_right hlt
  have hnd : ¬(rgn.cnt = 1 ∧ (rgn.region 0).size = 0) := by
    rw [h0]; exact fun h => absurd h.1 (by decide)
  have hscan : lmbAddRegion.scan rgn p.base p.size 0 rgn.cnt.toNat = some (0, 0) := by
    rw [h0]; rfl
  rw [lmbAddRegion, if_neg hnd]
  simp only [hscan, lmbAddRegion.grow_zero, Function.update_eq_self, lmbAddRegion.merge]
  by_cases h : rgn.StalePair
  · refine .inl ⟨h, ?_⟩
    have hrem : ∀ region, lmbRemoveRegion ⟨rgn.cnt, region⟩ (0 + 1) = none := fun region => by
      rw [h0]; rfl
    rw [if_pos (hpair.2 h)]
    simp [lmbCoalesceRegions, hrem]
  · refine .inr ⟨h, ?_⟩
    have hroom : ¬maxLmbRegions ≤ rgn.cnt.toNat := by rw [h0]; decide
    rw [if_neg (mt hpair.1 h)]
    refine congrArg some ?_
    rw [lmbAddRegion.place, if_neg hroom, h0]
    rfl

/-- **`lmb_add_region` on an emptied table** reports success, and the table then holds the new range
only when its base is below that of the stale first entry; else it holds the stale entry. -/
theorem lmbAddRegion_empty {rgn : LmbRegion} {p : LmbProperty} (h0 : rgn.cnt = 0) :
    (rgn.StalePair ∧ lmbAddRegion rgn p.base p.size p.type p.tag = none) ∨
    (¬rgn.StalePair ∧ ∃ rgn', lmbAddRegion rgn p.base p.size p.type p.tag = some (0, rgn') ∧
      rgn'.cnt = 1 ∧
      rgn'.table = [if p.base < (rgn.region 0).base then p.seg else (rgn.region 0).seg]) := by
  refine (lmbAddRegion_empty_eq h0).imp_right fun ⟨hno, hr⟩ => ⟨hno, _, hr, rfl, ?_⟩
  by_cases hb : p.base < (rgn.region 0).base
  · simp [LmbRegion.table, hb]
  · simp [LmbRegion.table, hb]

/-! ### Ranges that hide their overlaps -/

/-- The ranges that overlap an entry and are not refused: `n` starts where the entry `e` ends, so the
search for overlaps stops at `e`, and the code then extends `e`, or merges `e` with its successor,
or has room for one more entry. -/
def Hides (t : List LmbSegment) (n : LmbSegment) : Prop :=
  ∃ L e R, t = L ++ e :: R ∧ e.hi = n.lo ∧ (∃ f ∈ R, n.Overlaps f) ∧
    (n.label = e.label ∨ (∃ f ∈ R.head?, e.Mergeable f) ∨ t.length < maxLmbRegions)

section
variable {t L R : List LmbSegment} {e e' n : LmbSegment}

/-- The entry that ends where `n` starts is the first one near `n`. -/
theorem eq_of_first (hwf : Segment.WF (L ++ e :: R)) (hn : n.lo < n.hi)
    (hL : ∀ l ∈ L, n.Clear l) (he : n.Overlaps e ∨ n.Touches e) (he' : e' ∈ L ++ e :: R)
    (hlo : e'.hi = n.lo) : e' = e := by
  rcases List.mem_append.1 he' with h | h
  · exact absurd (.inr hlo) (hL e' h).2
  · rcases List.mem_cons.1 h with rfl | h
    · rfl
    · have h1 := hwf.le_right e' h
      have h2 := hwf.proper e' (by simp [h])
      rcases he with he | he | he
      · exact absurd he.1 (by omega)
      · have := hwf.proper e (by simp)
        omega
      · omega

/-- The overlap that a hidden range hides lies behind the entry that it touches. -/
theorem overlap_behind (hL : ∀ l ∈ L, n.Clear l) (he : ¬n.Overlaps e)
    (h : ∃ f ∈ L ++ e :: R, n.Overlaps f) : ∃ f ∈ R, n.Overlaps f := by
  obtain ⟨f, hf, hov⟩ := h
  rcases List.mem_append.1 hf with hf | hf
  · exact absurd hov (hL f hf).1
  · rcases List.mem_cons.1 hf with rfl | hf
    · exact absurd hov he
    · exact ⟨f, hf, hov⟩

/-- A range that overlaps an entry is refused, unless it hides. -/
theorem AddStep.refused_iff {t' : List LmbSegment} {r : Int} (hwf : Segment.WF t) (hn : n.lo < n.hi)
    (hov : ∃ f ∈ t, n.Overlaps f) (h : AddStep t n r t') : r = -1 ↔ ¬Hides t n := by
  have hhid : ∀ {e}, e ∈ t → e.hi = n.lo → Hidden t n := fun he hlo => ⟨⟨_, he, hlo⟩, hov⟩
  -- without an entry below `n`, a touched entry would leave nothing to overlap
  have hbelow : ∀ {L e R}, t = L ++ e :: R → (∀ l ∈ L, n.Clear l) → ¬n.Overlaps e →
      n.Touches e → e.hi = n.lo ∧ ∃ f ∈ R, n.Overlaps f := by
    rintro L e R rfl hL he ht
    have hR := overlap_behind hL he hov
    refine ⟨ht.resolve_left fun hlo => ?_, hR⟩
    obtain ⟨f, hf, hov⟩ := hR
    have h1 := hwf.le_right f hf
    have h2 := hwf.proper e (by simp)
    exact absurd hov.2 (by omega)
  cases h with
  | overlap h hL hov' =>
    subst h
    refine iff_of_true rfl ?_
    rintro ⟨L', e', R', heq, hlo, -, -⟩
    have he' : e' ∈ _ := heq ▸ List.mem_append_right L' (List.mem_cons_self ..)
    obtain rfl := eq_of_first hwf hn hL (.inl hov') he' hlo
    exact absurd hov'.1 (by omega)
  | grow h hL he ht hl =>
    obtain ⟨hlo, hR⟩ := hbelow h hL he ht
    exact iff_of_false (by omega) (not_not.2 ⟨_, _, _, h, hlo, hR, .inl hl⟩)
  | growMerge h hL he ht hl =>
    obtain ⟨hlo, hR⟩ := hbelow h hL he ht
    exact iff_of_false (by omega) (not_not.2 ⟨_, _, _, h, hlo, hR, .inl hl⟩)
  | lost h hL he ht _ hm =>
    obtain ⟨hlo, hR⟩ := hbelow h hL he ht
    exact iff_of_false (by omega) (not_not.2 ⟨_, _, _, h, hlo, hR, .inr (.inl ⟨_, rfl, hm⟩)⟩)
  | full hf hlen =>
    refine iff_of_true rfl ?_
    rintro ⟨L', e', R', heq, hlo, -, hwhy⟩
    have he' : e' ∈ t := heq ▸ List.mem_append_right L' (List.mem_cons_self ..)
    rcases hf with hf | ⟨L, e, R, rfl, hL, he, ht, hl, hm⟩
    · exact (hf e' he').2 (.inr hlo)
    · obtain rfl := eq_of_first hwf hn hL (.inr ht) he' hlo
      obtain ⟨rfl, rfl⟩ := hwf.split_unique heq
      rcases hwhy with h | ⟨f, hf, hmf⟩ | h
      · exact hl h
      · exact hm f hf hmf
      · omega
  | insert h hf hroom =>
    refine iff_of_false (by omega) (not_not.2 ?_)
    rcases hf with hf | ⟨L, e, R, h, hL, he, ht, -, -⟩
    · obtain ⟨f, hf', hov⟩ := hov
      exact absurd hov (hf f hf').1
    · obtain ⟨hlo, hR⟩ := hbelow h hL he ht
      exact ⟨_, _, _, h, hlo, hR, .inr (.inr hroom)⟩

end

/-- `lmb_add_region` does what it should with the range `n`. -/
def LmbRegion.Admits (rgn : LmbRegion) (n : LmbSegment) : Prop :=
  (rgn.cnt = 0 → ¬rgn.StalePair) ∧ ¬Hides rgn.table n

section
variable {rgn : LmbRegion} {p : LmbProperty} (hs : rgn.Sound) (hn : p.seg.lo < p.seg.hi)
  (hp : p.seg.hi < 2 ^ 64)
include hs hn hp

/-- A range that a table admits keeps it sound, and is refused when it overlaps an entry. -/
theorem lmbAddRegion_sound (h : rgn.Admits p.seg) :
    ∃ r rgn', lmbAddRegion rgn p.base p.size p.type p.tag = some (r, rgn') ∧ rgn'.Sound ∧
      ((∃ f ∈ rgn.table, p.seg.Overlaps f) → r = -1 ∧ rgn' = rgn) ∧
      (rgn.cnt ≠ 0 → rgn'.cnt ≠ 0) := by
  by_cases h0 : rgn.cnt = 0
  · rcases lmbAddRegion_empty (p := p) h0 with ⟨hpair, _⟩ | ⟨_, rgn', hr, hc, ht⟩
    · exact absurd hpair (h.1 h0)
    refine ⟨0, rgn', hr, ?_, ?_, fun h => absurd h0 h⟩
    · have hst := hs.stale h0
      refine LmbRegion.sound_of_single hc ht ?_ ?_ <;> split_ifs
      · exact hn
      · exact Nat.lt_add_of_pos_right hst.1
      · exact hp
      · exact hst.2
    · rw [LmbRegion.table_eq_nil h0]
      simp
  have hpos := LmbRegion.toNat_cnt_pos.2 h0
  by_cases hov : ∃ f ∈ rgn.table, p.seg.Overlaps f
  · have hwf : rgn.WF := hs.ok.resolve_right fun hi => by
      obtain ⟨f, hf, hov⟩ := hov
      exact hi.not_overlaps f hf hov
    obtain ⟨r, rgn', hr, hstep, hsame⟩ :=
      lmbAddRegion_step hpos hwf.cnt_le hwf.not_dummy hwf.fits hp hwf.pairwise_lo
    have hr1 : r = -1 := (hstep.refused_iff hwf.wf hn hov).2 h.2
    obtain rfl := hsame (by omega)
    exact ⟨r, rgn', hr, hs, fun _ => ⟨hr1, rfl⟩, id⟩
  · have hdis : ¬Hidden rgn.table p.seg := fun h => hov h.2
    obtain ⟨r, rgn', hr, hcase⟩ := lmbAddRegion_ok hs.ok hpos hn hp hdis
    refine ⟨r, rgn', hr, ?_⟩
    rcases hcase with ⟨-, rfl, -⟩ | ⟨-, -, hwf, hne, -⟩
    · exact ⟨hs, fun h => absurd h hov, id⟩
    · have hne : rgn'.cnt ≠ 0 := mt LmbRegion.table_eq_nil hne
      exact ⟨hwf.sound hne, fun h => absurd h hov, fun _ => hne⟩

/-- **A table admits exactly the ranges that `lmb_add_region` treats as it should.** -/
theorem lmbAddRegion_admits_iff : rgn.Admits p.seg ↔
    ∃ r rgn', lmbAddRegion rgn p.base p.size p.type p.tag = some (r, rgn') ∧ rgn'.Ordered ∧
      ((∃ f ∈ rgn.table, p.seg.Overlaps f) → r = -1 ∧ rgn' = rgn) := by
  constructor
  · intro h
    obtain ⟨r, rgn', hr, hs', hov, _⟩ := lmbAddRegion_sound hs hn hp h
    exact ⟨r, rgn', hr, hs'.ok.ordered, hov⟩
  · rintro ⟨r, rgn', hr, -, hov⟩
    refine ⟨fun h0 hpair => ?_, fun hhid => ?_⟩
    · rcases lmbAddRegion_empty (p := p) h0 with ⟨-, hnone⟩ | ⟨hno, -⟩
      · exact absurd (hnone.symm.trans hr) (by simp)
      · exact hno hpair
    · have hmeet : ∃ f ∈ rgn.table, p.seg.Overlaps f := by
        obtain ⟨L, e, R, heq, -, ⟨f, hf, hov'⟩, -⟩ := hhid
        exact ⟨f, by simp [heq, hf], hov'⟩
      have hwf : rgn.WF := hs.ok.resolve_right fun hi => by
        obtain ⟨f, hf, hov'⟩ := hmeet
        exact hi.not_overlaps f hf hov'
      have hpos : 0 < rgn.cnt.toNat := by
        obtain ⟨f, hf, -⟩ := hmeet
        rw [← LmbRegion.length_table]
        exact List.length_pos_of_mem hf
      obtain ⟨r', rgn'', hr', hstep, -⟩ :=
        lmbAddRegion_step hpos hwf.cnt_le hwf.not_dummy hwf.fits hp hwf.pairwise_lo
      obtain ⟨rfl, -⟩ := Prod.mk.inj (Option.some.inj (hr.symm.trans hr'))
      exact (hstep.refused_iff hwf.wf hn hmeet).1 (hov hmeet).1 hhid

end

/-- `lmb_free` keeps the reserved table sound: what is left in an emptied array is the entry that
was freed. -/
theorem lmbFree_sound {lmb lmb' : Lmb} {base size align : UInt64} {r : Int}
    (hs : lmb.reserved.Sound) (hpos : 0 < (lmbAlignUp size align).toNat)
    (hfit : base.toNat + (lmbAlignUp size align).toNat < 2 ^ 64)
    (h : lmbFree lmb base size align = some (r, lmb')) : lmb'.reserved.Sound := by
  obtain ⟨r', lmb'', h', -, -, hreg, hsame⟩ := lmbFree_step hs.ok hpos hfit
  obtain ⟨rfl, rfl⟩ := Prod.mk.inj (Option.some.inj (h.symm.trans h'))
  refine ⟨lmbFree_ok hs.ok hpos hfit h, fun h0 => ?_⟩
  rcases hsame with rfl | hwf
  · exact hs.stale h0
  · rw [hreg h0]
    by_cases hc : lmb.reserved.cnt = 0
    · exact hs.stale hc
    · have hmem0 := LmbRegion.seg_mem_table (LmbRegion.toNat_cnt_pos.2 hc)
      have hlt := hwf.wf.proper _ hmem0
      exact ⟨by simpa using hlt, hwf.fits _ hmem0⟩

/-! ### Calls -/

/-- A call of one of the four entry points. -/
inductive LmbCall where
  | add (base size : UInt64) (tag : UInt32)
  | reserve (base size : UInt64) (type : LmbType) (tag : UInt32)
  | alloc (size align maxAddr : UInt64) (type : LmbType) (tag : UInt32)
  | free (base size align : UInt64)

namespace LmbCall

/-- The return value and the state after the call; `none` when it does not return. -/
def exec (lmb : Lmb) : LmbCall → Option (Int × Lmb)
  | add base size tag => lmbAdd lmb base size tag
  | reserve base size type tag => lmbReserve lmb base size type tag
  | alloc size align maxAddr type tag =>
    (lmbAllocBase lmb size align maxAddr type tag).map fun r => ((r.1.toNat : Int), r.2)
  | free base size align => lmbFree lmb base size align

/-- The ranges of the call are not empty, and end below `2 ^ 64` also when rounded. -/
def Valid : LmbCall → Prop
  | add base size _ | reserve base size _ _ => 0 < size.toNat ∧ base.toNat + size.toNat < 2 ^ 64
  | alloc size align _ _ _ => 0 < size.toNat ∧ PowTwo align ∧ size.toNat + align.toNat - 1 < 2 ^ 64
  | free base size align => 0 < size.toNat ∧ PowTwo align ∧ size.toNat + align.toNat - 1 < 2 ^ 64 ∧
      base.toNat + (lmbAlignUp size align).toNat < 2 ^ 64

/-- The range of the call overlaps an entry of its table. -/
def Meets (lmb : Lmb) : LmbCall → Prop
  | add base size tag =>
    ∃ f ∈ lmb.memory.table, (LmbProperty.mk base size tag .free).seg.Overlaps f
  | reserve base size type tag =>
    ∃ f ∈ lmb.reserved.table, (LmbProperty.mk base size tag type).seg.Overlaps f
  | alloc .. | free .. => False

instance (lmb : Lmb) : (c : LmbCall) → Decidable (c.Meets lmb)
  | add .. | reserve .. => inferInstanceAs (Decidable (∃ f ∈ _, _))
  | alloc .. | free .. => inferInstanceAs (Decidable False)

/-- The call returns, both tables are in order after it, and if its range overlaps an entry of its
table, it is rejected with `-1` and changes nothing. -/
def Kept (lmb : Lmb) (c : LmbCall) : Prop :=
  ∃ r lmb', c.exec lmb = some (r, lmb') ∧ lmb'.memory.Ordered ∧ lmb'.reserved.Ordered ∧
    (c.Meets lmb → r = -1 ∧ lmb' = lmb)

/-- The limit of a request leaves room for its size. -/
def Limited (lmb : Lmb) : LmbCall → Prop
  | alloc size align maxAddr _ _ => Limit lmb (lmbAlignUp size align).toNat maxAddr.toNat
  | _ => True

/-- The table of the call admits its range. -/
def Good (lmb : Lmb) : LmbCall → Prop
  | add base size tag => ¬Hides lmb.memory.table (LmbProperty.mk base size tag .free).seg
  | reserve base size type tag => (type = .boot ∨ type = .runtime) → lmbIsKnown lmb base size →
      lmb.reserved.Admits (LmbProperty.mk base size tag type).seg
  | alloc size align maxAddr type _ => type ≠ .mmio →
      (∃ b, BlockFit lmb (lmbAlignUp size align).toNat align.toNat maxAddr.toNat b) →
      lmb.reserved.cnt = 0 → ¬lmb.reserved.StalePair
  | free .. => True

end LmbCall

/-- The invariant of the two tables. -/
structure Lmb.Sound (lmb : Lmb) : Prop where
  memory : lmb.memory.Sound
  memory_ne : lmb.memory.cnt ≠ 0
  reserved : lmb.reserved.Sound

theorem Lmb.Sound.ordered {lmb : Lmb} (h : lmb.Sound) :
    lmb.memory.Ordered ∧ lmb.reserved.Ordered :=
  ⟨h.memory.ok.ordered, h.reserved.ok.ordered⟩

theorem lmbInit_initial (lmb : Lmb) :
    (lmbInit lmb).memory.Initial ∧ (lmbInit lmb).reserved.Initial :=
  ⟨⟨rfl, rfl⟩, rfl, rfl⟩

theorem lmbInit_sound (lmb : Lmb) : (lmbInit lmb).Sound :=
  ⟨(lmbInit_initial lmb).1.sound, by rw [(lmbInit_initial lmb).1.1]; decide,
    (lmbInit_initial lmb).2.sound⟩

namespace LmbCall

variable {lmb : Lmb}

section
variable {base size : UInt64} {type : LmbType} {tag : UInt32}

theorem add_kept (h : lmb.Sound) (hv : (add base size tag).Valid)
    (hg : (add base size tag).Good lmb) :
    ∃ r lmb', (add base size tag).exec lmb = some (r, lmb') ∧ lmb'.Sound ∧
      ((add base size tag).Meets lmb → r = -1 ∧ lmb' = lmb) := by
  obtain ⟨r, memory, hr, hs, hov, hne⟩ :=
    lmbAddRegion_sound (p := ⟨base, size, tag, .free⟩) h.memory (Nat.lt_add_of_pos_right hv.1) hv.2
      ⟨fun h0 => absurd h0 h.memory_ne, hg⟩
  refine ⟨r, { lmb with memory }, ?_, ⟨hs, hne h.memory_ne, h.reserved⟩, fun hm => ?_⟩
  · simp only [exec, lmbAdd, hr]; rfl
  · obtain ⟨hr1, hmem⟩ := hov hm
    exact ⟨hr1, by rw [hmem]⟩

theorem reserve_kept (h : lmb.Sound) (hv : (reserve base size type tag).Valid)
    (hg : (reserve base size type tag).Good lmb) :
    ∃ r lmb', (reserve base size type tag).exec lmb = some (r, lmb') ∧ lmb'.Sound ∧
      ((reserve base size type tag).Meets lmb → r = -1 ∧ lmb' = lmb) := by
  by_cases hacc : (type = .boot ∨ type = .runtime) ∧ lmbIsKnown lmb base size = true
  · obtain ⟨htype, hknown⟩ := hacc
    obtain ⟨r, reserved, hr, hs, hov, -⟩ :=
      lmbAddRegion_sound (p := ⟨base, size, tag, type⟩) h.reserved (Nat.lt_add_of_pos_right hv.1)
        hv.2 (hg htype hknown)
    refine ⟨r, { lmb with reserved }, ?_, ⟨h.memory, h.memory_ne, hs⟩, fun hm => ?_⟩
    · rw [exec, lmbReserve_accepted htype hknown, hr]; rfl
    · obtain ⟨hr1, hres⟩ := hov hm
      exact ⟨hr1, by rw [hres]⟩
  · exact ⟨-1, lmb, lmbReserve_refused hacc, h, fun _ => ⟨rfl, rfl⟩⟩

end

theorem alloc_kept {size align maxAddr : UInt64} {type : LmbType} {tag : UInt32} (h : lmb.Sound)
    (hv : (alloc size align maxAddr type tag).Valid)
    (hl : (alloc size align maxAddr type tag).Limited lmb)
    (hg : (alloc size align maxAddr type tag).Good lmb) :
    ∃ r lmb', (alloc size align maxAddr type tag).exec lmb = some (r, lmb') ∧ lmb'.Sound := by
  have hreq : Request lmb size align maxAddr := ⟨hv.1, hv.2.1, hv.2.2, hl⟩
  simp only [exec]
  by_cases htype : type = .mmio
  · exact ⟨0, lmb, by rw [lmbAllocBase_none (.inl htype)]; rfl, h⟩
  rcases lmbAllocBase_cases tag h.memory.ok h.reserved.ok hreq htype with
    ⟨-, heq⟩ | ⟨p, hps, -, -, hb, hfit, hdis, heq⟩
  · exact ⟨0, lmb, by rw [heq]; rfl, h⟩
  · have hpos : p.seg.lo < p.seg.hi := by
      have := hreq.rounded_pos
      simp only [LmbProperty.seg_lo, LmbProperty.seg_hi, hps]
      omega
    have hadm : lmb.reserved.Admits p.seg := by
      refine ⟨hg htype ⟨_, hb.1⟩, ?_⟩
      rintro ⟨L, e, R, ht, -, ⟨f, hf, hov⟩, -⟩
      exact hdis f (by simp [ht, hf]) hov
    obtain ⟨r, reserved, hr, hs, -, -⟩ := lmbAddRegion_sound h.reserved hpos hfit hadm
    refine ⟨_, { lmb with reserved }, by rw [heq, hr]; rfl, h.memory, h.memory_ne, hs⟩

theorem free_kept {base size align : UInt64} (h : lmb.Sound) (hv : (free base size align).Valid) :
    ∃ r lmb', (free base size align).exec lmb = some (r, lmb') ∧ lmb'.Sound := by
  obtain ⟨hs, ha, hround, hfit⟩ := hv
  have hpos := hs.trans_le (le_lmbAlignUp ha hround)
  obtain ⟨r, lmb', hr, hmem, -⟩ := lmbFree_step h.reserved.ok hpos hfit
  exact ⟨r, lmb', hr, hmem ▸ h.memory, hmem ▸ h.memory_ne,
    lmbFree_sound h.reserved hpos hfit hr⟩

/-- A good call returns, keeps the tables sound, and rejects a range that overlaps an entry. -/
theorem exec_sound (c : LmbCall) (h : lmb.Sound) (hv : c.Valid) (hl : c.Limited lmb)
    (hg : c.Good lmb) : ∃ r lmb', c.exec lmb = some (r, lmb') ∧ lmb'.Sound ∧
      (c.Meets lmb → r = -1 ∧ lmb' = lmb) := by
  cases c with
  | add => exact add_kept h hv hg
  | reserve => exact reserve_kept h hv hg
  | alloc =>
    obtain ⟨r, lmb', hr, hs⟩ := alloc_kept h hv hl hg
    exact ⟨r, lmb', hr, hs, False.elim⟩
  | free =>
    obtain ⟨r, lmb', hr, hs⟩ := free_kept h hv
    exact ⟨r, lmb', hr, hs, False.elim⟩

/-- A call that keeps the tables in order is good. -/
theorem good_of_kept (c : LmbCall) (h : lmb.Sound) (hv : c.Valid) (hl : c.Limited lmb)
    (hk : c.Kept lmb) : c.Good lmb := by
  obtain ⟨r, lmb', hr, hm, hres, hov⟩ := hk
  cases c with
  | add base size tag =>
    simp only [exec, lmbAdd, Option.bind_eq_bind, Option.bind_eq_some_iff] at hr
    obtain ⟨⟨r', memory⟩, hr, heq⟩ := hr
    simp only [Option.pure_def, Option.some.injEq, Prod.mk.injEq] at heq
    obtain ⟨rfl, rfl⟩ := heq
    refine ((lmbAddRegion_admits_iff (p := ⟨base, size, tag, .free⟩) h.memory
      (Nat.lt_add_of_pos_right hv.1) hv.2).2 ⟨r', memory, hr, hm, fun hf => ?_⟩).2
    obtain ⟨hr1, heq⟩ := hov hf
    exact ⟨hr1, congrArg Lmb.memory heq⟩
  | reserve base size type tag =>
    intro htype hknown
    rw [exec, lmbReserve_accepted htype hknown] at hr
    obtain ⟨⟨r', reserved⟩, hadd, heq⟩ := Option.map_eq_some_iff.1 hr
    obtain ⟨rfl, rfl⟩ := Prod.mk.inj heq
    refine (lmbAddRegion_admits_iff (p := ⟨base, size, tag, type⟩) h.reserved
      (Nat.lt_add_of_pos_right hv.1) hv.2).2 ⟨r', reserved, hadd, hres, fun hf => ?_⟩
    obtain ⟨hr1, heq⟩ := hov hf
    exact ⟨hr1, congrArg Lmb.reserved heq⟩
  | alloc size align maxAddr type tag =>
    rintro htype ⟨b, hb⟩ h0 hpair
    have hreq : Request lmb size align maxAddr := ⟨hv.1, hv.2.1, hv.2.2, hl⟩
    rcases lmbAllocBase_cases tag h.memory.ok h.reserved.ok hreq htype with
      ⟨hno, -⟩ | ⟨p, -, -, -, -, -, -, heq⟩
    · exact hno b hb
    · rcases lmbAddRegion_empty (p := p) h0 with ⟨-, hnone⟩ | ⟨hno, -⟩
      · simp [exec, heq, hnone] at hr
      · exact hno hpair
  | free => trivial

end LmbCall

/-- `lmb` of `main.c` before `lmb_init`. -/
def lmbZero : Lmb :=
  let rgn : LmbRegion := ⟨0, fun _ => ⟨0, 0, 0, .invalid⟩⟩
  ⟨rgn, rgn⟩

/-- A good call, as a step. -/
def LmbStep (lmb lmb' : Lmb) : Prop :=
  ∃ c r, LmbCall.Valid c ∧ c.Limited lmb ∧ c.Good lmb ∧ c.exec lmb = some (r, lmb')

/-- The invariant holds after every run of good calls. -/
theorem LmbStep.sound {lmb lmb' : Lmb} (h : Relation.ReflTransGen LmbStep lmb lmb')
    (hs : lmb.Sound) : lmb'.Sound := by
  induction h with
  | refl => exact hs
  | tail _ hstep ih =>
    obtain ⟨c, r, hv, hl, hg, hr⟩ := hstep
    obtain ⟨r', lmb'', hr', hs', -⟩ := c.exec_sound ih hv hl hg
    obtain ⟨-, rfl⟩ := Prod.mk.inj (Option.some.inj (hr.symm.trans hr'))
    exact hs'

/-- **Runs of good calls keep both tables in order**, and in every state that such a run reaches,
the good calls are the ones that do what they should. -/
theorem lmb_ordered_of_run {lmb₀ lmb : Lmb}
    (h : Relation.ReflTransGen LmbStep (lmbInit lmb₀) lmb) :
    lmb.memory.Ordered ∧ lmb.reserved.Ordered ∧
      ∀ c : LmbCall, c.Valid → c.Limited lmb → (c.Kept lmb ↔ c.Good lmb) := by
  have hs := LmbStep.sound h (lmbInit_sound lmb₀)
  refine ⟨hs.ordered.1, hs.ordered.2, fun c hv hl => ⟨c.good_of_kept hs hv hl, fun hg => ?_⟩⟩
  obtain ⟨r, lmb', hr, hs', hov⟩ := c.exec_sound hs hv hl hg
  exact ⟨r, lmb', hr, hs'.ordered.1, hs'.ordered.2, hov⟩

theorem lmb_ordered_of_run_add :
    let c : LmbCall := .add 0x80000000 0x1000 lmbTagNone
    ∃ r ∈ c.exec (lmbInit lmbZero), r.2.memory.Ordered ∧ r.2.reserved.Ordered := by
  intro c
  have hv : c.Valid := ⟨by decide, by decide⟩
  have hg : c.Good (lmbInit lmbZero) := by
    rintro ⟨L, e, R, heq, -, ⟨f, hf, hov⟩, -⟩
    exact (lmbInit_initial lmbZero).1.not_overlaps f (by simp [heq, hf]) hov
  obtain ⟨r, lmb, hr, -, -⟩ := c.exec_sound (lmbInit_sound lmbZero) hv trivial hg
  obtain ⟨h1, h2, -⟩ := lmb_ordered_of_run (.single ⟨c, r, hv, trivial, hg, hr⟩)
  exact ⟨(r, lmb), hr, h1, h2⟩

/-- A sequence of calls; their results are dropped. -/
def LmbCall.execs (lmb : Lmb) : List LmbCall → Option Lmb
  | [] => some lmb
  | c :: cs => (c.exec lmb).bind fun r => execs r.2 cs

/-- A range that touches the first of two memory entries and overlaps the second is accepted, and
the entries then overlap. -/
theorem lmb_hidden_overlap :
    let ram := lmbTag 'R' 'A' 'M' 'R'
    let c : LmbCall := .add 0x80001000 0x1800 ram
    c.Valid ∧ ∃ lmb ∈ LmbCall.execs (lmbInit lmbZero)
        [.add 0x80000000 0x1000 ram, .add 0x80002000 0x1000 ram],
      c.Meets lmb ∧ ∃ r ∈ c.exec lmb, r.1 = 1 ∧ ¬r.2.memory.Ordered :=
  ⟨⟨by decide, by decide⟩, by decide⟩

end ShieldLoader
