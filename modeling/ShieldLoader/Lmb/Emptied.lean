import ShieldLoader.Lmb.Request

/-!
# A reserved table that was emptied

When every reserved range has been freed, `cnt` is `0` and the array still holds the last entry. The
calls are compared, over all continuations, with the same calls on the table of `lmb_init`: they
answer alike until the first range is added, and from then on only when that range lies below the
stale entry or is that entry.
-/

namespace ShieldLoader

open Segment

/-- A call that reads or changes the reserved table. -/
inductive ReservedCall where
  | reserve (base size : UInt64) (type : LmbType) (tag : UInt32)
  | alloc (size align maxAddr : UInt64) (type : LmbType) (tag : UInt32)
  | free (base size align : UInt64)
  | overlaps (base size : UInt64)
  | known (addr size : UInt64)

namespace ReservedCall

/-- The return value and the state after the call; `none` when it does not return. -/
def exec (lmb : Lmb) : ReservedCall → Option (Int × Lmb)
  | reserve base size type tag => lmbReserve lmb base size type tag
  | alloc size align maxAddr type tag =>
    (lmbAllocBase lmb size align maxAddr type tag).map fun r => ((r.1.toNat : Int), r.2)
  | free base size align => lmbFree lmb base size align
  | overlaps base size =>
    some ((lmbOverlapsRegion lmb.reserved base size).elim (-1) fun i => (i : Int), lmb)
  | known addr size => some (if lmbIsKnown lmb addr size then 1 else 0, lmb)

/-- The alignment of an allocation is a power of two. -/
def Aligned : ReservedCall → Prop
  | alloc _ align .. => PowTwo align
  | _ => True

end ReservedCall

/-- The calls return the same values from both states, and leave the same reserved points after each
of them. -/
def SameRuns : List ReservedCall → Lmb → Lmb → Prop
  | [], _, _ => True
  | c :: cs, lmb₁, lmb₂ =>
    match c.exec lmb₁, c.exec lmb₂ with
    | some (r₁, lmb₁'), some (r₂, lmb₂') =>
      r₁ = r₂ ∧ den lmb₁'.reserved.table = den lmb₂'.reserved.table ∧ SameRuns cs lmb₁' lmb₂'
    | none, none => True
    | _, _ => False

/-- The state with the reserved table that `lmb_init` creates. -/
def Lmb.fresh (lmb : Lmb) : Lmb := { lmb with reserved := (lmbInit lmb).reserved }

/-- The emptied table comes to hold the range `p` when it is added, and nothing else. -/
def LmbRegion.Restarts (rgn : LmbRegion) (p : LmbProperty) : Prop :=
  ¬rgn.StalePair ∧ (p.base < (rgn.region 0).base ∨ p = rgn.region 0)

/-- The condition on the calls from an emptied table: the first range that is added lies below the
stale entry or is that entry, and no free before it names a range that ends at `0`. -/
def LikeFresh (lmb : Lmb) : List ReservedCall → Prop
  | [] => True
  | .reserve base size type tag :: cs =>
    if (type = .boot ∨ type = .runtime) ∧ lmbIsKnown lmb base size then
      lmb.reserved.Restarts ⟨base, size, tag, type⟩
    else LikeFresh lmb cs
  | .alloc size align maxAddr type tag :: cs =>
    let s := lmbAlignUp size align
    (type ≠ .mmio → ∀ b : UInt64, Chosen lmb s.toNat align.toNat maxAddr.toNat b.toNat →
      lmb.reserved.Restarts ⟨b, s, tag, type⟩) ∧
    ((type = .mmio ∨ ∀ b : UInt64, ¬Chosen lmb s.toNat align.toNat maxAddr.toNat b.toNat) →
      LikeFresh lmb cs)
  | .free base size align :: cs => base + lmbAlignUp size align ≠ 0 ∧ LikeFresh lmb cs
  | .overlaps .. :: cs | .known .. :: cs => LikeFresh lmb cs

theorem SameRuns.refl (cs : List ReservedCall) (lmb : Lmb) : SameRuns cs lmb lmb := by
  induction cs generalizing lmb with
  | nil => trivial
  | cons c cs ih =>
    rw [SameRuns]
    rcases c.exec lmb with _ | ⟨r, lmb'⟩
    · trivial
    · exact ⟨rfl, rfl, ih lmb'⟩

@[simp] theorem Lmb.fresh_memory (lmb : Lmb) : lmb.fresh.memory = lmb.memory := rfl

theorem Lmb.fresh_initial (lmb : Lmb) : lmb.fresh.reserved.Initial := (lmbInit_initial lmb).2

section
variable {lmb : Lmb} {c : ReservedCall} {cs : List ReservedCall} {p : LmbProperty}

theorem LmbRegion.Initial.fresh_eq (h : lmb.reserved.Initial) : lmb.fresh = lmb := by
  have hreg : Function.update lmb.reserved.region 0 lmbDummy = lmb.reserved.region := by
    rw [← h.2, Function.update_eq_self]
  simp only [Lmb.fresh, lmbInit, hreg, ← h.1]

/-- `LikeFresh` is the condition under which the calls are answered alike. -/
def Decides (lmb : Lmb) (cs : List ReservedCall) : Prop :=
  (LikeFresh lmb cs → SameRuns cs lmb lmb.fresh) ∧
    (0 < (lmb.reserved.region 0).size.toNat → SameRuns cs lmb lmb.fresh → LikeFresh lmb cs)

/-- A call that adds nothing leaves both states as they are, and hands the comparison on to the
rest. -/
theorem Decides.skip (h : Decides lmb cs) (h0 : lmb.reserved.cnt = 0) {r : Int}
    (hA : c.exec lmb = some (r, lmb)) (hB : c.exec lmb.fresh = some (r, lmb.fresh))
    (hlike : LikeFresh lmb (c :: cs) ↔ LikeFresh lmb cs) : Decides lmb (c :: cs) := by
  have hsame : SameRuns (c :: cs) lmb lmb.fresh ↔ SameRuns cs lmb lmb.fresh := by
    rw [SameRuns, hA, hB]
    refine (and_iff_right rfl).trans (and_iff_right ?_)
    rw [LmbRegion.table_eq_nil h0, den_nil, lmb.fresh_initial.den_table]
  rw [Decides, hlike, hsame]
  exact h

/-- The first range that is added. -/
theorem Decides.add (h0 : lmb.reserved.cnt = 0) {v : Int → Int}
    (hA : c.exec lmb = (lmbAddRegion lmb.reserved p.base p.size p.type p.tag).map fun r =>
      (v r.1, { lmb with reserved := r.2 }))
    (hB : c.exec lmb.fresh =
      (lmbAddRegion lmb.fresh.reserved p.base p.size p.type p.tag).map fun r =>
        (v r.1, { lmb with reserved := r.2 }))
    (hlike : LikeFresh lmb (c :: cs) ↔ lmb.reserved.Restarts p) : Decides lmb (c :: cs) := by
  have hfresh : lmbAddRegion lmb.fresh.reserved p.base p.size p.type p.tag =
      some (0, ⟨1, Function.update lmb.reserved.region 0 p⟩) := by
    rw [lmbAddRegion, if_pos ⟨rfl, rfl⟩]
    simp only [Lmb.fresh, lmbInit, Function.update_idem]
  rw [Decides, hlike, SameRuns, hA, hB, hfresh]
  rcases lmbAddRegion_empty_eq (p := p) h0 with ⟨hpair, hnone⟩ | ⟨hno, hr⟩
  · rw [hnone]
    exact ⟨fun h => absurd hpair h.1, fun _ h => h.elim⟩
  rw [hr]
  simp only [Option.map_some, true_and]
  constructor
  · rintro ⟨-, hb⟩
    have hsame : (if p.base < (lmb.reserved.region 0).base then
        Function.update lmb.reserved.region 0 p else lmb.reserved.region) =
          Function.update lmb.reserved.region 0 p := by
      rcases hb with hb | rfl
      · rw [if_pos hb]
      · simp
    rw [hsame]
    exact ⟨rfl, .refl _ _⟩
  · rintro hsize ⟨hden, -⟩
    refine ⟨hno, or_iff_not_imp_left.2 fun hb => ?_⟩
    -- the stale entry is recorded in place of the range
    rw [if_neg hb] at hden
    have hone : ∀ region, LmbRegion.table ⟨1, region⟩ = [(region 0).seg] := fun _ => rfl
    rw [hone, hone, Function.update_self] at hden
    exact (LmbProperty.seg_inj.1 (den_singleton_inj (Nat.lt_add_of_pos_right hsize) hden)).symm

/-- The search of `__lmb_alloc_base` reads the reserved table only through
`lmb_overlaps_region`. -/
theorem lmbAllocBase.search_congr {lmb lmb' : Lmb} {size align maxAddr : UInt64}
    (hm : lmb'.memory = lmb.memory)
    (h : ∀ base, lmbOverlapsRegion lmb.reserved base size = none)
    (h' : ∀ base, lmbOverlapsRegion lmb'.reserved base size = none) (n : Nat) :
    search lmb' size align maxAddr n = search lmb size align maxAddr n := by
  induction n with
  | zero => rfl
  | succ n ih =>
    rw [search, search, hm, ih]
    simp only [scan, h, h']

theorem lmbOverlapsRegion_fresh (base size : UInt64) :
    lmbOverlapsRegion lmb.fresh.reserved base size = none := by
  refine List.find?_eq_none.2 fun i hi => ?_
  obtain rfl : i = 0 := Nat.lt_one_iff.1 (List.mem_range.1 hi)
  have hzero : ¬base < (lmb.fresh.reserved.region 0).base + (lmb.fresh.reserved.region 0).size :=
    fun h => absurd (UInt64.lt_iff_toNat_lt.1 h) (Nat.not_lt_zero _)
  simp [lmbAddrsOverlap, hzero]

theorem lmbOverlapsRegion_empty {rgn : LmbRegion} (h0 : rgn.cnt = 0) (base size : UInt64) :
    lmbOverlapsRegion rgn base size = none := by
  rw [lmbOverlapsRegion, h0]
  rfl

/-- `lmb_free` on the table of `lmb_init` finds the dummy for a range that ends at `0`. -/
theorem lmbFree_fresh (base size align : UInt64) :
    (base + lmbAlignUp size align ≠ 0 → lmbFree lmb.fresh base size align = some (-1, lmb.fresh)) ∧
    (base + lmbAlignUp size align = 0 →
      ∃ lmb', lmbFree lmb.fresh base size align = some (0, lmb')) := by
  have hreg : lmb.fresh.reserved.region 0 = lmbDummy := lmb.fresh_initial.2
  have hbase : lmbDummy.base ≤ base := UInt64.le_iff_toNat_le.2 (Nat.zero_le _)
  have hzero : lmbDummy.base + lmbDummy.size = 0 := rfl
  have hfind : lmbFree.find lmb.fresh.reserved base (base + lmbAlignUp size align) 0
      lmb.fresh.reserved.cnt.toNat = if base + lmbAlignUp size align = 0 then some 0 else none := by
    rw [lmb.fresh_initial.1, UInt64.toNat_one, lmbFree.find, lmbFree.find, hreg, hzero]
    refine if_congr ?_ rfl rfl
    rw [and_iff_right hbase, UInt64.le_iff_toNat_le, UInt64.toNat_zero, Nat.le_zero,
      ← UInt64.toNat_zero, UInt64.toNat_inj]
  rw [lmbFree]
  constructor
  · intro h
    simp only [hfind, if_neg h]
  · intro h
    have hnm : ¬lmbDummy.type = .mmio := by decide
    rw [if_pos h, h] at hfind
    simp only [h, hfind, hreg, if_neg hnm, hzero, and_true, if_true]
    split_ifs with h1
    · obtain ⟨rgn', hr, -⟩ := lmb.fresh_initial.remove
      exact ⟨{ lmb.fresh with reserved := rgn' }, by rw [hr]; rfl⟩
    · exact ⟨_, rfl⟩

theorem Decides.overlaps {base size : UInt64} (h : Decides lmb cs) (h0 : lmb.reserved.cnt = 0) :
    Decides lmb (.overlaps base size :: cs) := by
  refine h.skip h0 (r := -1) ?_ ?_ (by rw [LikeFresh])
  · rw [ReservedCall.exec, lmbOverlapsRegion_empty h0]
    rfl
  · rw [ReservedCall.exec, lmbOverlapsRegion_fresh]
    rfl

theorem Decides.free {base size align : UInt64} (h : Decides lmb cs) (h0 : lmb.reserved.cnt = 0) :
    Decides lmb (.free base size align :: cs) := by
  obtain ⟨h1, h2⟩ := @lmbFree_fresh lmb base size align
  have hA : lmbFree lmb base size align = some (-1, lmb) := by
    rw [lmbFree, h0]
    rfl
  by_cases hend : base + lmbAlignUp size align = 0
  · obtain ⟨lmb', hB⟩ := h2 hend
    rw [Decides, LikeFresh]
    refine ⟨fun h => absurd hend h.1, fun _ h => ?_⟩
    rw [SameRuns, ReservedCall.exec, ReservedCall.exec, hA, hB] at h
    exact absurd h.1 (by decide)
  · exact h.skip h0 hA (h1 hend) (by rw [LikeFresh, and_iff_right hend])

theorem Decides.reserve {base size : UInt64} {type : LmbType} {tag : UInt32} (h : Decides lmb cs)
    (h0 : lmb.reserved.cnt = 0) : Decides lmb (.reserve base size type tag :: cs) := by
  by_cases hacc : (type = .boot ∨ type = .runtime) ∧ lmbIsKnown lmb base size = true
  · exact .add (p := ⟨base, size, tag, type⟩) (v := id) h0 (lmbReserve_accepted hacc.1 hacc.2)
      (@lmbReserve_accepted lmb.fresh _ _ _ _ hacc.1 hacc.2) (by rw [LikeFresh, if_pos hacc])
  · exact h.skip h0 (lmbReserve_refused hacc) (@lmbReserve_refused lmb.fresh _ _ _ _ hacc)
      (by rw [LikeFresh, if_neg hacc])

theorem Decides.alloc {size align maxAddr : UInt64} {type : LmbType} {tag : UInt32}
    (h : Decides lmb cs) (h0 : lmb.reserved.cnt = 0) (hmem : lmb.memory.Ok) (ha : PowTwo align) :
    Decides lmb (.alloc size align maxAddr type tag :: cs) := by
  have hnone : ∀ l : Lmb, (type = .mmio ∨ lmbAllocBase.search l (lmbAlignUp size align) align maxAddr
      l.memory.cnt.toNat = none) → (ReservedCall.alloc size align maxAddr type tag).exec l =
        some (0, l) := fun l h => by
    rw [ReservedCall.exec, lmbAllocBase_none h]
    rfl
  by_cases htype : type = .mmio
  · exact h.skip h0 (hnone lmb (.inl htype)) (hnone _ (.inl htype)) (by rw [LikeFresh]; tauto)
  have hchosen := fun b => @lmbAllocBase.search_eq_some_iff lmb (lmbAlignUp size align) align
    maxAddr hmem (LmbRegion.ok_of_empty h0) ha (dvd_lmbAlignUp ha) b
  have hsame := @lmbAllocBase.search_congr lmb lmb.fresh (lmbAlignUp size align) align maxAddr
    rfl (fun base => lmbOverlapsRegion_empty h0 base _)
    (fun base => lmbOverlapsRegion_fresh base _) lmb.memory.cnt.toNat
  cases hs : lmbAllocBase.search lmb (lmbAlignUp size align) align maxAddr
    lmb.memory.cnt.toNat with
  | none =>
    have hno : ∀ b : UInt64, ¬Chosen lmb (lmbAlignUp size align).toNat align.toNat
        maxAddr.toNat b.toNat := fun b hb => absurd (hs.symm.trans ((hchosen b).2 hb)) (by simp)
    refine h.skip h0 (hnone lmb (.inr hs)) (hnone _ (.inr (hsame.trans hs))) ?_
    rw [LikeFresh]
    exact ⟨fun h => h.2 (.inr hno), fun h => ⟨fun _ b hb => absurd hb (hno b), fun _ => h⟩⟩
  | some b =>
    have hb := (hchosen b).1 hs
    have huniq : ∀ b' : UInt64, Chosen lmb (lmbAlignUp size align).toNat align.toNat
        maxAddr.toNat b'.toNat → b' = b := fun b' hb' =>
      Option.some.inj (((hchosen b').2 hb').symm.trans hs)
    have hexec : ∀ l : Lmb, lmbAllocBase.search l (lmbAlignUp size align) align maxAddr
        l.memory.cnt.toNat = some b → (ReservedCall.alloc size align maxAddr type tag).exec l =
          (lmbAddRegion l.reserved b (lmbAlignUp size align) type tag).map fun r =>
            (((if r.1 < 0 then 0 else b : UInt64).toNat : Int), { l with reserved := r.2 }) :=
      fun l hl => by
        rw [ReservedCall.exec, lmbAllocBase_found htype hl, Option.map_map]
        rfl
    refine .add (p := ⟨b, lmbAlignUp size align, tag, type⟩)
      (v := fun r => ((if r < 0 then 0 else b : UInt64).toNat : Int)) h0 (hexec lmb hs)
      (hexec lmb.fresh (hsame.trans hs)) ?_
    rw [LikeFresh]
    constructor
    · exact fun h => h.1 htype b hb
    · refine fun h => ⟨fun _ b' hb' => huniq b' hb' ▸ h, fun hno => ?_⟩
      exact absurd hb (hno.resolve_left htype b)

/-- **An emptied table against a fresh one**, for any content of the array. -/
theorem decides_of_empty (hmem : lmb.memory.Ok) (h0 : lmb.reserved.cnt = 0)
    (cs : List ReservedCall) (ha : ∀ c ∈ cs, c.Aligned) : Decides lmb cs := by
  induction cs with
  | nil => exact ⟨fun _ => trivial, fun _ _ => trivial⟩
  | cons c cs ih =>
    have ih := ih fun c hc => ha c (List.mem_cons_of_mem _ hc)
    cases c with
    | overlaps => exact ih.overlaps h0
    | known => exact ih.skip h0 rfl rfl (by rw [LikeFresh])
    | free => exact ih.free h0
    | reserve => exact ih.reserve h0
    | alloc => exact ih.alloc h0 hmem (ha _ (List.mem_cons_self ..))

/-- **A reserved table from which everything was freed behaves like a fresh one**, over any sequence
of calls and for any content of the array, if the first range that the calls add restarts it. When
the stale entry is not empty, this is exactly the condition. -/
theorem sameRuns_of_freed (hmem : lmb.memory.Ok)
    (hfreed : lmb.reserved.cnt = 0 ∨ lmb.reserved.Initial) (cs : List ReservedCall)
    (ha : ∀ c ∈ cs, c.Aligned) :
    ((lmb.reserved.cnt = 0 → LikeFresh lmb cs) → SameRuns cs lmb lmb.fresh) ∧
      (0 < (lmb.reserved.region 0).size.toNat → SameRuns cs lmb lmb.fresh →
        lmb.reserved.cnt = 0 → LikeFresh lmb cs) := by
  rcases hfreed with h0 | hinit
  · obtain ⟨h1, h2⟩ := decides_of_empty hmem h0 cs ha
    exact ⟨fun h => h1 (h h0), fun hsize h _ => h2 hsize h⟩
  · refine ⟨fun _ => ?_, fun _ _ h0 => absurd (hinit.1.symm.trans h0) (by decide)⟩
    rw [hinit.fresh_eq]
    exact .refl cs lmb

end

theorem sameRuns_of_freed_below :
    let upper : ReservedCall := .reserve 0x80001000 0x1000 .boot lmbTagNone
    let lower : ReservedCall := .reserve 0x80000000 0x1000 .runtime lmbTagNone
    ∃ r₁ ∈ upper.exec lmbRam, ∃ r₂ ∈ (ReservedCall.free 0x80001000 0x1000 0x1000).exec r₁.2,
      r₂.2.reserved.cnt = 0 ∧ SameRuns [lower, upper] r₂.2 r₂.2.fresh := by
  intro upper lower
  have hrun : ∃ r₁ ∈ upper.exec lmbRam,
      ∃ r₂ ∈ (ReservedCall.free 0x80001000 0x1000 0x1000).exec r₁.2, r₂.2.reserved.cnt = 0 ∧
        r₂.2.memory.cnt = 1 ∧
        r₂.2.memory.table = [⟨0x80000000, 0xc0000000, .free, lmbTag 'R' 'A' 'M' 'R'⟩] ∧
        ¬r₂.2.reserved.StalePair ∧ 0x80000000 < (r₂.2.reserved.region 0).base ∧
        lmbIsKnown r₂.2 0x80000000 0x1000 := by decide
  obtain ⟨r₁, e₁, r₂, e₂, hcnt, hmcnt, hmem, hpair, hlow, hknown⟩ := hrun
  have hmem := (LmbRegion.sound_of_single hmcnt hmem (by decide) (by decide)).ok
  refine ⟨r₁, e₁, r₂, e₂, hcnt, (sameRuns_of_freed hmem (.inl hcnt) [lower, upper] ?_).1 fun _ => ?_⟩
  · intro c hc
    rcases List.mem_pair.1 hc with rfl | rfl <;> trivial
  · rw [LikeFresh, if_pos ⟨.inr rfl, hknown⟩]
    exact ⟨hpair, .inl hlow⟩

set_option synthInstance.maxSize 512 in
/-- After a range was reserved and freed, reserving a higher one brings back the first. -/
theorem freed_range_returns :
    let lower : ReservedCall := .reserve 0x80000000 0x1000 .boot lmbTagNone
    let upper : ReservedCall := .reserve 0x80001000 0x1000 .boot lmbTagNone
    lmbRam.memory.Ok ∧ ∃ r₁ ∈ lower.exec lmbRam,
      ∃ r₂ ∈ (ReservedCall.free 0x80000000 0x1000 0x1000).exec r₁.2,
        r₂.2.reserved.cnt = 0 ∧ ¬SameRuns [upper] r₂.2 r₂.2.fresh := by
  intro lower upper
  have hrun : ∃ r₁ ∈ lower.exec lmbRam,
      ∃ r₂ ∈ (ReservedCall.free 0x80000000 0x1000 0x1000).exec r₁.2, r₂.2.reserved.cnt = 0 ∧
        (upper.exec r₂.2).map (fun r => r.2.reserved.table) =
          some [⟨0x80000000, 0x80001000, .boot, lmbTagNone⟩] ∧
        (upper.exec r₂.2.fresh).map (fun r => r.2.reserved.table) =
          some [⟨0x80001000, 0x80002000, .boot, lmbTagNone⟩] := by decide
  obtain ⟨r₁, e₁, r₂, e₂, hcnt, h₃, h₄⟩ := hrun
  obtain ⟨r₃, e₃, h₃⟩ := Option.map_eq_some_iff.1 h₃
  obtain ⟨r₄, e₄, h₄⟩ := Option.map_eq_some_iff.1 h₄
  refine ⟨lmbRam_sound.memory.ok, r₁, e₁, r₂, e₂, hcnt, fun hsame => ?_⟩
  rw [SameRuns, e₃, e₄] at hsame
  have hden := hsame.2.1
  rw [h₃, h₄] at hden
  exact absurd (den_singleton_inj (by decide) hden) (by decide)

end ShieldLoader
