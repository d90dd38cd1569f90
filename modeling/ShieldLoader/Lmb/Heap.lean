import ShieldLoader.Lmb.Calls

/-!
# The allocator as a heap

A heap is the state of the allocator with the blocks that were returned and not yet freed. `Good`
says, of the state before a call, when the call keeps the live blocks disjoint and recorded. It
leaves out three situations: an allocation whose block is lost because `lmb_add_region` merges two
entries above it instead (`Lost`), a free in the middle of an entry when the rest behind it finds no
slot or is lost, and an allocation from an emptied table that records the stale entry instead of the
block.
-/

namespace ShieldLoader

open Segment

/-! ### Which outcome it is -/

/-- The first element of a list without a property is at one place. -/
theorem first_unique {α : Type*} {P : α → Prop} {L R L' R' : List α} {e e' : α}
    (h : L ++ e :: R = L' ++ e' :: R') (hL : ∀ l ∈ L, P l) (he : ¬P e) (hL' : ∀ l ∈ L', P l)
    (he' : ¬P e') : L = L' ∧ e = e' ∧ R = R' := by
  induction L generalizing L' with
  | nil =>
    cases L' with
    | nil => exact ⟨rfl, List.cons.inj h⟩
    | cons l L' => exact absurd (hL' e (by simp [(List.cons.inj h).1])) he
  | cons l L ih =>
    cases L' with
    | nil => exact absurd (hL e' (by simp [(List.cons.inj h).1])) he'
    | cons l' L' =>
      rw [List.cons_append, List.cons_append, List.cons.injEq] at h
      obtain ⟨h1, h2⟩ := ih h.2 (fun l hl => hL l (by simp [hl])) fun l hl => hL' l (by simp [hl])
      exact ⟨by rw [h.1, h1], h2⟩

namespace AddStep

variable {t t' : List LmbSegment} {n : LmbSegment} {r : Int}

/-- A range that nothing can be merged with is refused when the table is full. -/
theorem eq_of_full (h : AddStep t n r t') (hf : Fresh t n) (hdis : ∀ f ∈ t, ¬n.Overlaps f)
    (hlen : maxLmbRegions ≤ t.length) : r = -1 := by
  have hfirst : ∀ {L e R}, t = L ++ e :: R → (∀ l ∈ L, n.Clear l) → n.Touches e →
      n.label ≠ e.label ∧ ∀ f ∈ R.head?, ¬e.Mergeable f := by
    rintro L e R heq hL ht
    have hnc : ¬n.Clear e := fun h => h.2 ht
    rcases hf with hf | ⟨L', e', R', heq', hL', -, ht', hl, hm⟩
    · exact absurd (hf e (by simp [heq])) hnc
    · obtain ⟨rfl, rfl, rfl⟩ :=
        first_unique (heq.symm.trans heq') hL hnc hL' fun h => h.2 ht'
      exact ⟨hl, hm⟩
  cases h with
  | overlap h _ hov => exact absurd hov (hdis _ (by simp [h]))
  | full => rfl
  | grow h hL _ ht hl => exact absurd hl (hfirst h hL ht).1
  | growMerge h hL _ ht hl => exact absurd hl (hfirst h hL ht).1
  | lost h hL _ ht _ hm => exact absurd hm ((hfirst h hL ht).2 _ rfl)
  | insert _ _ hroom => omega

/-- A range that is lost is reported as merged, and no point is added. -/
theorem eq_of_lost (h : AddStep t n r t') (hwf : Segment.WF t) (hl : Lost t n)
    (hdis : ∀ f ∈ t, ¬n.Overlaps f) : r = 1 ∧ den t' = den t := by
  obtain ⟨L, e, f, R, heq, hL, htouch, hlab, hef, heflab⟩ := hl
  have hne : ¬n.Clear e := fun h => h.2 (.inl htouch)
  have hclear : ∀ l ∈ L, n.Clear l := by
    intro l hl
    refine ⟨hdis l (by simp [heq, hl]), ?_⟩
    rintro (h | h)
    · have h1 := (heq ▸ hwf).left_le l hl
      have h2 := hwf.proper l (by simp [heq, hl])
      omega
    · exact hL l hl h
  have hfirst : ∀ {L' e' R'}, t = L' ++ e' :: R' → (∀ l ∈ L', n.Clear l) → n.Touches e' →
      e = e' ∧ f :: R = R' := by
    intro L' e' R' h hL' ht
    obtain ⟨-, h1, h2⟩ := first_unique (heq.symm.trans h) hclear hne hL' fun h => h.2 ht
    exact ⟨h1, h2⟩
  cases h with
  | overlap h _ hov => exact absurd hov (hdis _ (by simp [h]))
  | full hf | insert _ hf =>
    rcases hf with hf | ⟨L', e', R', h, hL', -, ht, -, hm⟩
    · exact absurd (hf e (by simp [heq])) hne
    · obtain ⟨rfl, rfl⟩ := hfirst h hL' ht
      exact absurd ⟨.inl hef, heflab⟩ (hm f rfl)
  | grow h hL' _ ht hl =>
    obtain ⟨rfl, -⟩ := hfirst h hL' ht
    exact absurd hl hlab
  | growMerge h hL' _ ht hl =>
    obtain ⟨rfl, -⟩ := hfirst h hL' ht
    exact absurd hl hlab
  | lost h _ _ _ _ hm => exact ⟨rfl, h ▸ (merge_wf (h ▸ hwf) hm).2.2⟩

end AddStep

/-! ### The rest behind a freed range -/

/-- A property of the table that `lmb_free` leaves behind, when `[lo, hi)` lies strictly inside an
entry, and of the rest of the entry, which it adds again. -/
def Tail (t : List LmbSegment) (lo hi : Nat) (P : List LmbSegment → LmbSegment → Prop) : Prop :=
  ∀ L e R, t = L ++ e :: R → e.lo < lo → hi < e.hi →
    P (L ++ ⟨e.lo, lo, e.label⟩ :: R) ⟨hi, e.hi, e.label⟩

namespace FreeStep

variable {t t' : List LmbSegment} {lo hi : Nat} {r : Int}

/-- A free of a range inside an entry succeeds, unless the rest behind it finds no slot. -/
theorem nonneg (h : FreeStep t lo hi r t') (hwf : Segment.WF t) (hlt : lo < hi)
    (hin : ∃ e ∈ t, e.lo ≤ lo ∧ hi ≤ e.hi ∧ e.label.1 ≠ .mmio)
    (hg : Tail t lo hi fun t n => ¬(Fresh t n ∧ maxLmbRegions ≤ t.length)) : 0 ≤ r := by
  cases h with
  | refused hno =>
    obtain ⟨e, he, h1, h2, h3⟩ := hin
    exact absurd (hno e he h1 h2) h3
  | whole | front | back => exact le_rfl
  | split h _ hlo hhi hadd =>
    have hroom := hg _ _ _ h hlo hhi
    obtain ⟨hwf1, hdis⟩ := split_wf (h ▸ hwf) hlo hlt.le hhi
    cases hadd with
    | overlap h _ hov => exact absurd hov (hdis _ (by simp [h]))
    | full hf hlen => exact absurd ⟨hf, hlen⟩ hroom
    | insert => exact le_rfl
    | grow | growMerge | lost => decide

/-- A range of an entry beside the freed one is still inside an entry, unless it is lost with the
rest behind. -/
theorem inside (h : FreeStep t lo hi r t') (hwf : Segment.WF t) (hlt : lo < hi)
    {b : LmbSegment} (hb : b.lo < b.hi) (hbe : b.hi ≤ lo ∨ hi ≤ b.lo) (hin : ∃ e ∈ t, b.Inside e)
    (hg : Tail t lo hi fun t n => ¬(Fresh t n ∧ maxLmbRegions ≤ t.length) ∧
      (Lost t n → ¬b.Overlaps n)) : ∃ e ∈ t', b.Inside e := by
  obtain ⟨f, hf, hbf⟩ := hin
  have hother : ∀ {L e R}, t = L ++ e :: R → f ∈ L ∨ f ∈ R ∨ f = e := by
    rintro L e R rfl
    rcases List.mem_append.1 hf with h | h
    · exact .inl h
    · rcases List.mem_cons.1 h with h | h
      · exact .inr (.inr h)
      · exact .inr (.inl h)
  cases h with
  | refused => exact ⟨f, hf, hbf⟩
  | whole h _ hlo hhi =>
    rcases hother h with h | h | rfl
    · exact ⟨f, by simp [h], hbf⟩
    · exact ⟨f, by simp [h], hbf⟩
    · obtain ⟨h1, h2⟩ := hbf
      omega
  | @front L e R h _ hlo hhi =>
    rcases hother h with h | h | rfl
    · exact ⟨f, by simp [h], hbf⟩
    · exact ⟨f, by simp [h], hbf⟩
    · obtain ⟨h1, h2⟩ := hbf
      exact ⟨⟨hi, f.hi, f.label⟩, by simp, by simp only; omega, h2⟩
  | @back L e R h _ hlo hhi =>
    rcases hother h with h | h | rfl
    · exact ⟨f, by simp [h], hbf⟩
    · exact ⟨f, by simp [h], hbf⟩
    · obtain ⟨h1, h2⟩ := hbf
      exact ⟨⟨f.lo, lo, f.label⟩, by simp, h1, by simp only; omega⟩
  | @split L e R _ _ h _ hlo hhi hadd =>
    obtain ⟨hroom, hlost⟩ := hg _ _ _ h hlo hhi
    obtain ⟨hwf1, hdis⟩ := split_wf (h ▸ hwf) hlo hlt.le hhi
    have hkeep : ∀ s ∈ L ++ ⟨e.lo, lo, e.label⟩ :: R, b.Inside s → ∃ e ∈ t', b.Inside e := by
      intro s hs hbs
      obtain ⟨s', hs', hss⟩ := hadd.inside s hs
      exact ⟨s', hs', hbs.trans hss⟩
    rcases hother h with h | h | rfl
    · exact hkeep f (by simp [h]) hbf
    · exact hkeep f (by simp [h]) hbf
    · obtain ⟨h1, h2⟩ := hbf
      rcases hbe with hbe | hbe
      · exact hkeep ⟨f.lo, lo, f.label⟩ (by simp) ⟨h1, hbe⟩
      · have hbn : b.Inside ⟨hi, f.hi, f.label⟩ := ⟨hbe, h2⟩
        rcases hadd.cases_wf hwf1 hhi (not_hidden_of_disjoint hdis) with
          ⟨hr1, -, -⟩ | ⟨-, -, -, ⟨-, e', he', hin⟩ | ⟨hl, -⟩⟩
        · cases hadd with
          | overlap h _ hov => exact absurd hov (hdis _ (by simp [h]))
          | full hf hlen => exact absurd ⟨hf, hlen⟩ hroom
          | _ => omega
        · exact ⟨e', he', hbn.trans hin⟩
        · have hov : b.Overlaps ⟨hi, f.hi, f.label⟩ := ⟨hb.trans_le h2, hbe.trans_lt hb⟩
          exact absurd hov (hlost hl)

/-- A free strictly inside an entry adds the rest behind again. -/
theorem addStep {L R : List LmbSegment} {e : LmbSegment} (h : FreeStep (L ++ e :: R) lo hi r t')
    (hwf : Segment.WF (L ++ e :: R)) (hlt : lo < hi) (hmmio : e.label.1 ≠ .mmio) (hlo : e.lo < lo)
    (hhi : hi < e.hi) :
    AddStep (L ++ ⟨e.lo, lo, e.label⟩ :: R) ⟨hi, e.hi, e.label⟩ r t' := by
  have hsame : ∀ {L' e' R'}, L ++ e :: R = L' ++ e' :: R' → e'.lo ≤ lo → hi ≤ e'.hi → e' = e :=
    fun heq h1 h2 => hwf.eq_of_mem (x := lo) (by simp [heq]) (by simp) ⟨h1, hlt.trans_le h2⟩
      ⟨hlo.le, hlt.trans hhi⟩
  cases h with
  | refused hno => exact absurd (hno e (by simp) hlo.le hhi.le) hmmio
  | whole heq _ h1 h2 =>
    obtain rfl := hsame heq h1.le h2.ge
    omega
  | front heq _ h1 h2 =>
    obtain rfl := hsame heq h1.le h2.le
    omega
  | back heq _ h1 h2 =>
    obtain rfl := hsame heq h1.le h2.ge
    omega
  | split heq _ h1 h2 hadd =>
    obtain rfl := hsame heq h1.le h2.le
    obtain ⟨rfl, rfl⟩ := hwf.split_unique heq
    exact hadd

/-- The labels of a table after a free are those of before. -/
theorem forall_label (h : FreeStep t lo hi r t') {Q : LmbLabel → Prop} (hQ : ∀ s ∈ t, Q s.label) :
    ∀ s ∈ t', Q s.label := by
  cases h with
  | refused => exact hQ
  | whole h =>
    subst h
    simp only [List.forall_mem_append, List.forall_mem_cons] at hQ ⊢
    exact ⟨hQ.1, hQ.2.2⟩
  | front h | back h =>
    subst h
    simp only [List.forall_mem_append, List.forall_mem_cons] at hQ ⊢
    exact hQ
  | @split L e R _ _ h _ _ _ hadd =>
    subst h
    have he := hQ e (by simp)
    refine hadd.forall_mem (P := fun s => Q s.label) (fun ha _ => ha) ?_ he
    simp only [List.forall_mem_append, List.forall_mem_cons] at hQ ⊢
    exact hQ

end FreeStep

/-! ### Heaps -/

/-- A block that `lmb_alloc_base` returned, with the arguments it was asked for. -/
structure LmbBlock where
  base : UInt64
  size : UInt64
  align : UInt64
  type : LmbType
  tag : UInt32
  deriving DecidableEq

/-- The range of the block, of the rounded size. -/
def LmbBlock.seg (a : LmbBlock) : LmbSegment :=
  ⟨a.base.toNat, a.base.toNat + (lmbAlignUp a.size a.align).toNat, a.type, a.tag⟩

/-- The size of the block is not zero and can be rounded. -/
structure LmbBlock.Proper (a : LmbBlock) : Prop where
  pos : 0 < a.size.toNat
  powTwo : PowTwo a.align
  fits : a.size.toNat + a.align.toNat - 1 < 2 ^ 64

theorem LmbBlock.Proper.rounded_pos {a : LmbBlock} (h : a.Proper) :
    0 < (lmbAlignUp a.size a.align).toNat :=
  h.pos.trans_le (le_lmbAlignUp h.powTwo h.fits)

theorem LmbBlock.Proper.lt {a : LmbBlock} (h : a.Proper) : a.seg.lo < a.seg.hi :=
  Nat.lt_add_of_pos_right h.rounded_pos

/-- The allocator and the live blocks. -/
structure Heap where
  lmb : Lmb
  live : List LmbBlock

/-- `lmb_alloc_base`, or `lmb_free` of a live block with the arguments it was allocated with. -/
inductive HeapCall where
  | alloc (size align maxAddr : UInt64) (type : LmbType) (tag : UInt32)
  | free (a : LmbBlock)

namespace HeapCall

/-- The call; `lmb_alloc_base` returns `0` for a request that it refuses. The first component is the
return value of `lmb_free`. -/
def exec (h : Heap) : HeapCall → Option (Int × Heap)
  | alloc size align maxAddr type tag =>
    (lmbAllocBase h.lmb size align maxAddr type tag).map fun r =>
      (0, ⟨r.2, if r.1 = 0 then h.live else ⟨r.1, size, align, type, tag⟩ :: h.live⟩)
  | free a =>
    (lmbFree h.lmb a.base a.size a.align).map fun r => (r.1, ⟨r.2, h.live.erase a⟩)

/-- The request does not wrap, and the block to be freed is live. -/
def Valid (h : Heap) : HeapCall → Prop
  | alloc size align maxAddr type _ =>
    (type = .boot ∨ type = .runtime) ∧ Request h.lmb size align maxAddr
  | free a => a ∈ h.live

end HeapCall

/-- The live blocks are disjoint and every byte of them is recorded as reserved. -/
def Heap.Safe (h : Heap) : Prop :=
  h.live.Pairwise (fun a b => ¬a.seg.Overlaps b.seg) ∧
    ∀ a ∈ h.live, ∀ x ∈ a.seg.ico, Covers h.lmb.reserved.table x

namespace HeapCall

/-- The call returns, a free succeeds, and the heap is safe afterwards. -/
def Kept (h : Heap) (c : HeapCall) : Prop := ∃ r h', c.exec h = some (r, h') ∧ 0 ≤ r ∧ h'.Safe

/-- The highest block that fits is recorded by `lmb_add_region`: on an emptied table it has to lie
below the stale first entry or inside it, and on any other it must not be lost. -/
def Records (rgn : LmbRegion) (n : LmbSegment) : Prop :=
  if rgn.cnt = 0 then ¬rgn.StalePair ∧ (n.lo < (rgn.region 0).seg.lo ∨ n.Inside (rgn.region 0).seg)
  else ¬Lost rgn.table n

/-- An allocation records its block, and a free inside an entry finds a slot for what lies behind
it, which must not be lost as long as it holds a live block. -/
def Good (h : Heap) : HeapCall → Prop
  | alloc size align maxAddr type tag =>
    let s := (lmbAlignUp size align).toNat
    ∀ b, IsGreatest {b | BlockFit h.lmb s align.toNat maxAddr.toNat b} b →
      Records h.lmb.reserved ⟨b, b + s, type, tag⟩
  | free a =>
    Tail h.lmb.reserved.table a.seg.lo a.seg.hi fun t n =>
      ¬(Fresh t n ∧ maxLmbRegions ≤ t.length) ∧ (Lost t n → ∀ b ∈ h.live, ¬b.seg.Overlaps n)

end HeapCall

/-- The invariant of a heap: each live block lies inside one entry. -/
structure Heap.Inv (h : Heap) : Prop where
  memory : h.lmb.memory.Ok
  reserved : h.lmb.reserved.Sound
  normal : ∀ e ∈ h.lmb.reserved.table, e.label.1 ≠ .mmio
  stale : h.lmb.reserved.cnt = 0 → (h.lmb.reserved.region 0).type ≠ .mmio
  proper : ∀ a ∈ h.live, a.Proper
  inside : ∀ a ∈ h.live, ∃ e ∈ h.lmb.reserved.table, a.seg.Inside e
  disjoint : h.live.Pairwise fun a b => ¬a.seg.Overlaps b.seg

namespace Heap.Inv

variable {h : Heap}

theorem safe (hi : h.Inv) : h.Safe := by
  refine ⟨hi.disjoint, fun a ha x hx => ?_⟩
  obtain ⟨e, he, hin⟩ := hi.inside a ha
  exact ⟨e, he, hin.mem hx⟩

end Heap.Inv

namespace HeapCall

variable {h : Heap}

/-- What `lmb_add_region` does with a block that overlaps nothing and is recorded. -/
theorem Records.step {rgn : LmbRegion} {p : LmbProperty} (hrec : Records rgn p.seg)
    (hs : rgn.Sound) (hn : p.seg.lo < p.seg.hi) (hp : p.seg.hi < 2 ^ 64)
    (hdis : ∀ f ∈ rgn.table, ¬p.seg.Overlaps f) :
    ∃ r rgn', lmbAddRegion rgn p.base p.size p.type p.tag = some (r, rgn') ∧
      (r = -1 ∧ rgn' = rgn ∨ 0 ≤ r ∧ rgn'.Sound ∧ rgn'.cnt ≠ 0 ∧
        (∃ e ∈ rgn'.table, p.seg.Inside e) ∧
        (∀ e ∈ rgn.table, e.lo < e.hi → ∃ e' ∈ rgn'.table, e.Inside e') ∧
        ∀ Q : LmbLabel → Prop, (∀ s ∈ rgn.table, Q s.label) →
          (rgn.cnt = 0 → Q (rgn.region 0).seg.label) → Q p.seg.label →
          ∀ s ∈ rgn'.table, Q s.label) := by
  by_cases h0 : rgn.cnt = 0
  · rw [Records, if_pos h0] at hrec
    rcases lmbAddRegion_empty (p := p) h0 with ⟨hpair, -⟩ | ⟨-, rgn', hr, hc, ht⟩
    · exact absurd hpair hrec.1
    have hst := hs.stale h0
    have hne : rgn'.cnt ≠ 0 := by rw [hc]; decide
    refine ⟨0, rgn', hr, .inr ⟨le_rfl, ?_, hne, ?_, ?_, fun Q _ hst hQ => ?_⟩⟩
    · refine LmbRegion.sound_of_single hc ht ?_ ?_ <;> split_ifs
      · exact hn
      · exact Nat.lt_add_of_pos_right hst.1
      · exact hp
      · exact hst.2
    · rw [ht]
      refine ⟨_, List.mem_singleton.2 rfl, ?_⟩
      split_ifs with hb
      · exact .refl _
      · exact hrec.2.resolve_left fun h => hb (UInt64.lt_iff_toNat_lt.2 h)
    · rw [LmbRegion.table_eq_nil h0]
      simp
    · rw [ht]
      simp only [List.mem_singleton, forall_eq]
      split_ifs
      · exact hQ
      · exact hst h0
  · rw [Records, if_neg h0] at hrec
    obtain ⟨r, rgn', hr, hcase⟩ := lmbAddRegion_ok hs.ok (LmbRegion.toNat_cnt_pos.2 h0) hn hp
      (not_hidden_of_disjoint hdis)
    refine ⟨r, rgn', hr, ?_⟩
    rcases hcase with ⟨hr1, hsame, -⟩ | ⟨-, hr0, hwf, hne, hden, hin, hlab⟩
    · exact .inl ⟨hr1, hsame⟩
    · have hne' : rgn'.cnt ≠ 0 := mt LmbRegion.table_eq_nil hne
      exact .inr ⟨hr0, hwf.sound hne', hne', (hden.resolve_right fun h => hrec h.1).2, hin,
        fun Q hQ _ => hlab Q fun s hs _ => hQ s hs⟩

/-- An allocation that records its block keeps the invariant. -/
theorem alloc_inv (hi : h.Inv) {size align maxAddr : UInt64} {type : LmbType} {tag : UInt32}
    (hv : (alloc size align maxAddr type tag).Valid h)
    (hg : (alloc size align maxAddr type tag).Good h) :
    ∃ h', (alloc size align maxAddr type tag).exec h = some (0, h') ∧ h'.Inv := by
  obtain ⟨htype, hreq⟩ := hv
  have hmmio : type ≠ .mmio := by rcases htype with rfl | rfl <;> decide
  rcases lmbAllocBase_cases tag hi.memory hi.reserved.ok hreq hmmio with
    ⟨-, heq⟩ | ⟨p, hps, hpt, hpg, hb, hfit, hdis, heq⟩
  · exact ⟨h, by simp only [exec, heq]; rfl, hi⟩
  have hne : p.base ≠ 0 := fun h0 => hb.1.ne_zero (by rw [h0]; rfl)
  let a : LmbBlock := ⟨p.base, size, align, type, tag⟩
  have hseg : a.seg = p.seg := by simp [a, LmbBlock.seg, LmbProperty.seg, hps, hpt, hpg]
  have hproper : a.Proper := ⟨hreq.pos, hreq.powTwo, hreq.fits⟩
  have hrec : Records h.lmb.reserved p.seg := hseg ▸ hg _ hb
  obtain ⟨r, rgn', hr, hcase⟩ :=
    hrec.step hi.reserved (hseg ▸ hproper.lt) hfit hdis
  simp only [exec, heq, hr, Option.map_some]
  rcases hcase with ⟨rfl, rfl⟩ | ⟨hr0, hs, hc, hin, hkeep, hlab⟩
  · exact ⟨h, rfl, hi⟩
  · refine ⟨⟨{ h.lmb with reserved := rgn' }, a :: h.live⟩, ?_, hi.memory, hs, ?_,
      fun h => absurd h hc, ?_, ?_, ?_⟩
    · simp [not_lt.2 hr0, hne, a]
    · exact hlab (fun l => l.1 ≠ .mmio) hi.normal hi.stale (by simpa [hpt] using hmmio)
    · exact List.forall_mem_cons.2 ⟨hproper, hi.proper⟩
    · refine List.forall_mem_cons.2 ⟨hseg ▸ hin, fun b hb => ?_⟩
      obtain ⟨e, he, hbe⟩ := hi.inside b hb
      have hlt := (hi.proper b hb).lt
      obtain ⟨e', he', hee⟩ := hkeep e he (by have := hbe.1; have := hbe.2; omega)
      exact ⟨e', he', hbe.trans hee⟩
    · refine List.pairwise_cons.2 ⟨fun b hb => ?_, hi.disjoint⟩
      obtain ⟨e, he, hin⟩ := hi.inside b hb
      exact hseg ▸ hin.not_overlaps (hdis e he)

/-- What is known of a live block. -/
theorem live_fits (hi : h.Inv) {a : LmbBlock} (ha : a ∈ h.live) :
    a.base.toNat + (lmbAlignUp a.size a.align).toNat < 2 ^ 64 := by
  obtain ⟨e, he, hin⟩ := hi.inside a ha
  exact hin.2.trans_lt (hi.reserved.ok.fits e he)

theorem reserved_wf (hi : h.Inv) {a : LmbBlock} (ha : a ∈ h.live) : h.lmb.reserved.WF := by
  refine hi.reserved.ok.resolve_right fun hinit => ?_
  obtain ⟨e, he, hin⟩ := hi.inside a ha
  have hlt := (hi.proper a ha).lt
  rw [hinit.table_eq, List.mem_singleton] at he
  rw [he] at hin
  exact absurd (hlt.trans_le hin.2) (Nat.not_lt_zero _)

theorem nodup (hi : h.Inv) : h.live.Nodup :=
  hi.disjoint.imp_of_mem fun {x _} hx _ hxy heq =>
    hxy ⟨heq ▸ (hi.proper x hx).lt, heq ▸ (hi.proper x hx).lt⟩

/-- The other live blocks lie beside the one to be freed. -/
theorem beside (hi : h.Inv) {a b : LmbBlock} (ha : a ∈ h.live) (hb : b ∈ h.live.erase a) :
    b ∈ h.live ∧ (b.seg.hi ≤ a.seg.lo ∨ a.seg.hi ≤ b.seg.lo) := by
  obtain ⟨hne, hb⟩ := (nodup hi).mem_erase_iff.1 hb
  have : Std.Symm fun a b : LmbBlock => ¬a.seg.Overlaps b.seg := ⟨fun _ _ h ho => h ho.symm⟩
  exact ⟨hb, (not_overlaps_iff.1 (hi.disjoint.forall ha hb hne.symm))⟩

/-- A free that finds a slot for the rest behind the block, and loses no live block with it, keeps
the invariant. -/
theorem free_inv (hi : h.Inv) {a : LmbBlock} (ha : (free a).Valid h) (hg : (free a).Good h) :
    ∃ r h', (free a).exec h = some (r, h') ∧ 0 ≤ r ∧ h'.Inv := by
  have hp := hi.proper a ha
  have hwf := reserved_wf hi ha
  obtain ⟨r, lmb', hr, hmem, hstep, hreg, -⟩ :=
    lmbFree_step hi.reserved.ok hp.rounded_pos (live_fits hi ha)
  have hs := lmbFree_sound hi.reserved hp.rounded_pos (live_fits hi ha) hr
  refine ⟨r, ⟨lmb', h.live.erase a⟩, by simp only [exec, hr]; rfl, ?_, ?_, hs, ?_, ?_, ?_, ?_, ?_⟩
  · obtain ⟨e, he, hin⟩ := hi.inside a ha
    exact hstep.nonneg hwf.wf hp.lt ⟨e, he, hin.1, hin.2, hi.normal e he⟩
      fun L e R heq h1 h2 => (hg L e R heq h1 h2).1
  · rw [hmem]; exact hi.memory
  · exact hstep.forall_label (Q := fun l => l.1 ≠ .mmio) hi.normal
  · intro h0
    rw [hreg h0]
    by_cases hc : h.lmb.reserved.cnt = 0
    · exact hi.stale hc
    · exact hi.normal _ (LmbRegion.seg_mem_table (LmbRegion.toNat_cnt_pos.2 hc))
  · exact fun b hb => hi.proper b (beside hi ha hb).1
  · intro b hb
    obtain ⟨hb, hbe⟩ := beside hi ha hb
    refine hstep.inside hwf.wf hp.lt (hi.proper b hb).lt hbe (hi.inside b hb) ?_
    exact fun L e R heq h1 h2 =>
      ⟨(hg L e R heq h1 h2).1, fun hl => (hg L e R heq h1 h2).2 hl b hb⟩
  · exact hi.disjoint.sublist List.erase_sublist

/-- A good call returns, a free succeeds, and the invariant is kept. -/
theorem exec_inv (c : HeapCall) (hi : h.Inv) (hv : c.Valid h) (hg : c.Good h) :
    ∃ r h', c.exec h = some (r, h') ∧ 0 ≤ r ∧ h'.Inv := by
  cases c with
  | alloc =>
    obtain ⟨h', hr, hi'⟩ := alloc_inv hi hv hg
    exact ⟨0, h', hr, le_rfl, hi'⟩
  | free a => exact free_inv hi hv hg

/-- An allocation that is not good leaves a live block that is not recorded. -/
theorem alloc_good_of_kept (hi : h.Inv) {size align maxAddr : UInt64} {type : LmbType}
    {tag : UInt32} (hv : (alloc size align maxAddr type tag).Valid h)
    (hk : (alloc size align maxAddr type tag).Kept h) :
    (alloc size align maxAddr type tag).Good h := by
  obtain ⟨htype, hreq⟩ := hv
  have hmmio : type ≠ .mmio := by rcases htype with rfl | rfl <;> decide
  intro b hb
  rcases lmbAllocBase_cases tag hi.memory hi.reserved.ok hreq hmmio with
    ⟨hno, -⟩ | ⟨p, hps, hpt, hpg, hb', hfit, hdis, heq⟩
  · exact absurd hb.1 (hno b)
  obtain rfl := hb.unique hb'
  have hne : p.base ≠ 0 := fun h0 => hb'.1.ne_zero (by rw [h0]; rfl)
  let a : LmbBlock := ⟨p.base, size, align, type, tag⟩
  have hseg : a.seg = p.seg := by simp [a, LmbBlock.seg, LmbProperty.seg, hps, hpt, hpg]
  have hlt : p.seg.lo < p.seg.hi := hseg ▸ LmbBlock.Proper.lt ⟨hreq.pos, hreq.powTwo, hreq.fits⟩
  change Records h.lmb.reserved a.seg
  rw [hseg]
  obtain ⟨r, h', hr, -, -, hcov⟩ := hk
  -- every byte of the block is in the table after `lmb_add_region`
  have hafter : ∃ r rgn', lmbAddRegion h.lmb.reserved p.base p.size p.type p.tag = some (r, rgn') ∧
      (0 ≤ r → ∀ x ∈ p.seg.ico, Covers rgn'.table x) := by
    rcases hadd : lmbAddRegion h.lmb.reserved p.base p.size p.type p.tag with _ | ⟨r', rgn'⟩
    · simp [exec, heq, hadd] at hr
    · refine ⟨r', rgn', rfl, fun hr0 => ?_⟩
      simp only [exec, heq, hadd, Option.map_some, not_lt.2 hr0, if_false, hne, Option.some.injEq,
        Prod.mk.injEq] at hr
      obtain ⟨-, rfl⟩ := hr
      exact hseg ▸ hcov a (by simp [a])
  obtain ⟨r', rgn', hadd, hcov⟩ := hafter
  by_cases h0 : h.lmb.reserved.cnt = 0
  · rw [Records, if_pos h0]
    rcases lmbAddRegion_empty (p := p) h0 with ⟨-, hnone⟩ | ⟨hno, rgn'', hadd', -, ht⟩
    · exact absurd (hadd.symm.trans hnone) (by simp)
    obtain ⟨rfl, rfl⟩ := Prod.mk.inj (Option.some.inj (hadd.symm.trans hadd'))
    refine ⟨hno, or_iff_not_imp_left.2 fun hb => ?_⟩
    rw [ht, if_neg fun h => hb (UInt64.lt_iff_toNat_lt.1 h)] at hcov
    have h1 := hcov le_rfl p.seg.lo ⟨le_rfl, hlt⟩
    have h2 := hcov le_rfl (p.seg.hi - 1) ⟨by omega, by omega⟩
    simp only [covers_cons, covers_nil, or_false, mem_ico] at h1 h2
    exact ⟨h1.1, by omega⟩
  · rw [Records, if_neg h0]
    intro hlost
    have hwf : h.lmb.reserved.WF := hi.reserved.ok.resolve_right fun hinit => by
      obtain ⟨L, e, f, R, heq, -⟩ := hlost
      have := congrArg List.length heq
      rw [hinit.table_eq] at this
      simp at this
      omega
    obtain ⟨r'', rgn'', hadd', hstep, -⟩ := lmbAddRegion_step (LmbRegion.toNat_cnt_pos.2 h0)
      hwf.cnt_le hwf.not_dummy hwf.fits hfit hwf.pairwise_lo
    obtain ⟨rfl, rfl⟩ := Prod.mk.inj (Option.some.inj (hadd.symm.trans hadd'))
    obtain ⟨rfl, hden⟩ := hstep.eq_of_lost hwf.wf hlost hdis
    have hlo : p.seg.lo ∈ p.seg.ico := ⟨le_rfl, hlt⟩
    have hc := hcov (by decide) _ hlo
    rw [covers_iff_den, hden, ← covers_iff_den] at hc
    obtain ⟨f, hf, hx⟩ := hc
    exact hdis f hf (.of_mem hlo hx)

/-- A free that is not good fails, or leaves a live block that is not recorded. -/
theorem free_good_of_kept (hi : h.Inv) {a : LmbBlock} (ha : (free a).Valid h)
    (hk : (free a).Kept h) : (free a).Good h := by
  have hp := hi.proper a ha
  have hwf := (reserved_wf hi ha).wf
  obtain ⟨r, lmb', hr, -, hstep, -, -⟩ :=
    lmbFree_step hi.reserved.ok hp.rounded_pos (live_fits hi ha)
  obtain ⟨r', h', hr', hr0, -, hcov⟩ := hk
  simp only [exec, hr, Option.map_some, Option.some.injEq, Prod.mk.injEq] at hr'
  obtain ⟨rfl, rfl⟩ := hr'
  intro L e R heq hlo hhi
  have he : e ∈ h.lmb.reserved.table := by simp [heq]
  obtain ⟨hwf1, hdis⟩ := split_wf (heq ▸ hwf) hlo hp.lt.le hhi
  -- the free took the branch that splits this entry
  have hadd : AddStep (L ++ ⟨e.lo, a.seg.lo, e.label⟩ :: R) ⟨a.seg.hi, e.hi, e.label⟩ r
      lmb'.reserved.table :=
    (heq ▸ hstep).addStep (heq ▸ hwf) hp.lt (hi.normal e he) hlo hhi
  refine ⟨fun hfull => ?_, fun hlost b hb hov => ?_⟩
  · have := hadd.eq_of_full hfull.1 hdis hfull.2
    omega
  · obtain ⟨-, hden⟩ := hadd.eq_of_lost hwf1 hlost hdis
    obtain ⟨x, hxb, hxn⟩ := hov.exists_mem (hi.proper b hb).lt hhi
    have hne : b ≠ a := by
      rintro rfl
      exact absurd hxb.2 (not_lt.2 hxn.1)
    have hc := hcov b ((nodup hi).mem_erase_iff.2 ⟨hne, hb⟩) x hxb
    rw [covers_iff_den, hden, ← covers_iff_den] at hc
    obtain ⟨f, hf, hx⟩ := hc
    exact hdis f hf (.of_mem hxn hx)

end HeapCall

/-- A good call, as a step. -/
def HeapStep (h h' : Heap) : Prop := ∃ c r, HeapCall.Valid h c ∧ c.Good h ∧ c.exec h = some (r, h')

/-- The invariant holds after every run of good calls. -/
theorem HeapStep.inv {h h' : Heap} (hrun : Relation.ReflTransGen HeapStep h h') (hi : h.Inv) :
    h'.Inv := by
  induction hrun with
  | refl => exact hi
  | tail _ hstep ih =>
    obtain ⟨c, r, hv, hg, hr⟩ := hstep
    obtain ⟨r', h'', hr', -, hi'⟩ := c.exec_inv ih hv hg
    obtain ⟨-, rfl⟩ := Prod.mk.inj (Option.some.inj (hr.symm.trans hr'))
    exact hi'

/-! ### The memory table at the start -/

/-- `lmb_add` of one range after the other; the results are dropped. -/
def lmbAddAll (lmb : Lmb) : List LmbProperty → Option Lmb
  | [] => some lmb
  | p :: ps => (lmbAdd lmb p.base p.size p.tag).bind fun r => lmbAddAll r.2 ps

/-- Disjoint ranges that are neither empty nor wrap give a well-formed memory table. -/
theorem lmbAddAll_ok {lmb : Lmb} {ps : List LmbProperty} (hmem : lmb.memory.Ok)
    (h0 : lmb.memory.cnt ≠ 0) (hp : ∀ p ∈ ps, p.seg.lo < p.seg.hi ∧ p.seg.hi < 2 ^ 64)
    (hdis : ps.Pairwise fun p q => ¬p.seg.Overlaps q.seg)
    (hnew : ∀ p ∈ ps, ∀ x ∈ p.seg.ico, ¬Covers lmb.memory.table x) :
    ∃ lmb', lmbAddAll lmb ps = some lmb' ∧ lmb'.memory.Ok ∧ lmb'.memory.cnt ≠ 0 ∧
      lmb'.reserved = lmb.reserved := by
  induction ps generalizing lmb with
  | nil => exact ⟨lmb, rfl, hmem, h0, rfl⟩
  | cons p ps ih =>
    rw [List.pairwise_cons] at hdis
    obtain ⟨hlt, hfit⟩ := hp p (by simp)
    have hnov : ∀ f ∈ lmb.memory.table, ¬p.seg.Overlaps f := by
      rcases hmem with hwf | hinit
      · intro f hf hov
        obtain ⟨x, hx, hxf⟩ := hov.exists_mem hlt (hwf.wf.proper f hf)
        exact hnew p (by simp) x hx ⟨f, hf, hxf⟩
      · exact hinit.not_overlaps
    obtain ⟨r, memory, hr, hcase⟩ :=
      lmbAddRegion_ok (p := { p with type := .free }) hmem (LmbRegion.toNat_cnt_pos.2 h0) hlt hfit
        (not_hidden_of_disjoint hnov)
    have hadd : lmbAdd lmb p.base p.size p.tag = some (r, { lmb with memory }) := by
      simp only [lmbAdd, hr]; rfl
    have hps : ∀ q ∈ ps, q.seg.lo < q.seg.hi ∧ q.seg.hi < 2 ^ 64 := fun q hq => hp q (by simp [hq])
    rw [lmbAddAll, hadd, Option.bind_some]
    rcases hcase with ⟨-, rfl, -⟩ | ⟨-, -, hwf, hne, hden, -⟩
    · exact ih hmem h0 hps hdis.2 fun q hq => hnew q (by simp [hq])
    · refine ih (.inl hwf) (mt LmbRegion.table_eq_nil hne) hps hdis.2 fun q hq x hx hc => ?_
      have hold := hnew q (by simp [hq]) x hx
      rcases hden with ⟨hden, -⟩ | ⟨-, hden⟩
      · rw [covers_iff_den, hden] at hc
        obtain ⟨k, hk | hk⟩ := hc
        · exact hold (covers_iff_den.2 ⟨k, hk⟩)
        · obtain ⟨s, hs, hxs, -⟩ := hk
          obtain rfl := List.mem_singleton.1 hs
          exact hdis.1 q hq (.of_mem (x := x) hxs hx)
      · rw [covers_iff_den, hden, ← covers_iff_den] at hc
        exact hold hc

/-- The heap before the first allocation. -/
theorem Heap.inv_of_addAll {lmb₀ lmb : Lmb} {ps : List LmbProperty}
    (hp : ∀ p ∈ ps, p.seg.lo < p.seg.hi ∧ p.seg.hi < 2 ^ 64)
    (hdis : ps.Pairwise fun p q => ¬p.seg.Overlaps q.seg)
    (hadd : lmbAddAll (lmbInit lmb₀) ps = some lmb) : (⟨lmb, []⟩ : Heap).Inv := by
  obtain ⟨hm, hr⟩ := lmbInit_initial lmb₀
  obtain ⟨lmb', hadd', hmem, -, hres⟩ := lmbAddAll_ok (.inr hm) (by rw [hm.1]; decide) hp hdis
    fun p _ x _ hc => by simp [covers_iff_den, hm.den_table] at hc
  obtain rfl := Option.some.inj (hadd.symm.trans hadd')
  have hinit : lmb.reserved.Initial := hres ▸ hr
  refine ⟨hmem, hinit.sound, ?_, fun h0 => ?_, by simp, by simp, .nil⟩
  · rw [hinit.table_eq]
    simp [lmbDummy]
  · exact absurd (hinit.1.symm.trans h0) (by decide)

/-- **Runs of good calls keep the heap safe**: live blocks are disjoint and recorded. In every state
that such a run reaches, the good calls are the ones that keep it so. -/
theorem heap_safe_of_run {lmb₀ lmb : Lmb} {ps : List LmbProperty}
    (hp : ∀ p ∈ ps, p.seg.lo < p.seg.hi ∧ p.seg.hi < 2 ^ 64)
    (hdis : ps.Pairwise fun p q => ¬p.seg.Overlaps q.seg)
    (hadd : lmbAddAll (lmbInit lmb₀) ps = some lmb) {h : Heap}
    (hrun : Relation.ReflTransGen HeapStep ⟨lmb, []⟩ h) :
    h.Safe ∧ ∀ c : HeapCall, c.Valid h → (c.Kept h ↔ c.Good h) := by
  have hi := HeapStep.inv hrun (Heap.inv_of_addAll hp hdis hadd)
  refine ⟨hi.safe, fun c hv => ⟨fun hk => ?_, fun hg => ?_⟩⟩
  · cases c with
    | alloc => exact HeapCall.alloc_good_of_kept hi hv hk
    | free a => exact HeapCall.free_good_of_kept hi hv hk
  · obtain ⟨r, h', hr, hr0, hi'⟩ := c.exec_inv hi hv hg
    exact ⟨r, h', hr, hr0, hi'.safe⟩

theorem heap_safe_of_run_alloc :
    let ram : LmbProperty := ⟨0x80000000, 0x1000000, lmbTag 'R' 'A' 'M' 'R', .free⟩
    ∃ lmb ∈ lmbAddAll (lmbInit lmbZero) [ram],
      ∃ r ∈ (HeapCall.alloc 0x1000 0x1000 lmbAllocAnywhere .boot lmbTagNone).exec ⟨lmb, []⟩,
        r.2.Safe := by
  intro ram
  let c : HeapCall := .alloc 0x1000 0x1000 lmbAllocAnywhere .boot lmbTagNone
  obtain ⟨hm, hr⟩ := lmbInit_initial lmbZero
  have hp : ∀ p ∈ [ram], p.seg.lo < p.seg.hi ∧ p.seg.hi < 2 ^ 64 := by decide
  have hdis : [ram].Pairwise fun p q => ¬p.seg.Overlaps q.seg := List.pairwise_singleton ..
  obtain ⟨lmb, hadd, -, -, hres⟩ := lmbAddAll_ok (.inr hm) (by rw [hm.1]; decide) hp hdis
    fun p _ x _ hc => by simp [covers_iff_den, hm.den_table] at hc
  have hinit : lmb.reserved.Initial := hres ▸ hr
  have hv : c.Valid ⟨lmb, []⟩ :=
    ⟨.inl rfl, by decide, ⟨12, by decide⟩, by decide, .inl (by decide)⟩
  have hg : c.Good ⟨lmb, []⟩ := by
    intro b _
    rw [HeapCall.Records, if_neg (by rw [hinit.1]; decide)]
    rintro ⟨L, e, f, R, heq, -⟩
    have := congrArg List.length heq
    rw [hinit.table_eq] at this
    simp at this
    omega
  obtain ⟨r, h', hr, -, -⟩ := c.exec_inv (Heap.inv_of_addAll hp hdis hadd) hv hg
  exact ⟨lmb, hadd, (r, h'), hr,
    (heap_safe_of_run hp hdis hadd (.single ⟨c, r, hv, hg, hr⟩)).1⟩

/-- The block of an allocation, freed, makes the table empty; the next allocation records the stale
entry in its place, and the one after it returns the same block again. -/
theorem heap_double_alloc :
    let ram : LmbProperty := ⟨0x80000000, 0x1000000, lmbTag 'R' 'A' 'M' 'R', .free⟩
    let high : LmbBlock := ⟨0x80fff000, 0x1000, 0x1000, .boot, lmbTagNone⟩
    ∃ lmb ∈ lmbAddAll (lmbInit lmbZero) [ram], ∃ h,
      Relation.ReflTransGen (fun h h' => ∃ c r, HeapCall.Valid h c ∧ c.exec h = some (r, h'))
        ⟨lmb, []⟩ h ∧ h.live = [high, high] ∧ ¬h.Safe := by
  intro ram high
  let low : LmbBlock := ⟨0x80000000, 0x1000, 0x1000, .boot, lmbTagNone⟩
  let below : HeapCall := .alloc 0x1000 0x1000 0x80001000 .boot lmbTagNone
  let anywhere : HeapCall := .alloc 0x1000 0x1000 lmbAllocAnywhere .boot lmbTagNone
  have hrun : ∃ lmb ∈ lmbAddAll (lmbInit lmbZero) [ram], ∃ r₁ ∈ below.exec ⟨lmb, []⟩,
      low ∈ r₁.2.live ∧ ∃ r₂ ∈ (HeapCall.free low).exec r₁.2, ∃ r₃ ∈ anywhere.exec r₂.2,
        ∃ r₄ ∈ anywhere.exec r₃.2, r₄.2.live = [high, high] := by
    decide
  obtain ⟨lmb, hlmb, ⟨_, h₁⟩, e₁, hlow, ⟨_, h₂⟩, e₂, ⟨_, h₃⟩, e₃, ⟨_, h₄⟩, e₄, hlive⟩ := hrun
  have hpow : PowTwo 0x1000 := ⟨12, by decide⟩
  have hbelow : below.Valid ⟨lmb, []⟩ :=
    ⟨.inl rfl, by decide, hpow, by decide, .inr (.inl (by decide))⟩
  have hany : ∀ h, anywhere.Valid h := fun h =>
    ⟨.inl rfl, by decide, hpow, by decide, .inl (by decide)⟩
  refine ⟨lmb, hlmb, h₄, ?_, hlive, fun hsafe => ?_⟩
  · exact .tail (.tail (.tail (.single ⟨below, _, hbelow, e₁⟩) ⟨.free low, _, hlow, e₂⟩)
      ⟨anywhere, _, hany h₂, e₃⟩) ⟨anywhere, _, hany h₃, e₄⟩
  · have := hsafe.1
    rw [hlive] at this
    exact absurd this (by decide)

end ShieldLoader
