import ShieldLoader.Boot.Loose

/-!
# The reservations of `main`

`main` adds the memory ranges of the device tree and then asks for one reservation after the other,
without looking at the results. A request is refused as a whole when it is not inside one memory
entry, overlaps an entry of the reserved table, or finds the table full. Any other request is
covered by the table when the fastboot loop starts, and no allocation touches it.
-/

namespace ShieldLoader

open Segment

/-- What `main` reads from the device tree and the command line: the `reg` ranges of the memory
nodes, the ranges that `parse_range` finds, the places of the device tree and of the loader, and the
memory reservation map. A range is a base and a size. -/
structure BootInfo where
  memory : List (UInt64 × UInt64)
  fbmem : Option (UInt64 × UInt64)
  tsec : Option (UInt64 × UInt64)
  vpr : Option (UInt64 × UInt64)
  lp0Vec : Option (UInt64 × UInt64)
  nvdumper : Option (UInt64 × UInt64)
  fdt : UInt64
  totalsize : UInt32
  imageStart : UInt64
  imageEnd : UInt64
  memRsv : List (UInt64 × UInt64)

/-- The label of the entries of the memory reservation map. -/
def resvLabel : LmbLabel := (.boot, lmbTag 'R' 'E' 'S' 'V')

namespace BootInfo

variable (b : BootInfo)

/-- `fb_base` and `fb_size`, with the default of the 1.3 firmware. -/
def fb : UInt64 × UInt64 := b.fbmem.getD (0x92ca6000, 1920 * 1080 * 4)

/-- The memory ranges, as `main` adds them. -/
def memoryRanges : List LmbProperty :=
  b.memory.map fun r => ⟨r.1, r.2, lmbTag 'R' 'A' 'M' 'R', .free⟩

/-- The reservations, in the order in which `main` asks for them. -/
def reservations : List LmbProperty :=
  (b.tsec.toList.map fun r => ⟨r.1, r.2, lmbTag 'T' 'S' 'E' 'C', .runtime⟩) ++
  (b.vpr.toList.map fun r => ⟨r.1, r.2, lmbTag 'V' 'P' 'R' 'R', .runtime⟩) ++
  (b.lp0Vec.toList.map fun r => ⟨r.1, r.2, lmbTag 'L' 'P' '0' 'V', .runtime⟩) ++
  (b.nvdumper.toList.map fun r => ⟨r.1, r.2, lmbTag 'N' 'V' 'D' 'R', .runtime⟩) ++
  [⟨b.fb.1, b.fb.2, lmbTag 'F' 'B' 'M' 'M', .runtime⟩,
   ⟨b.fdt, b.totalsize.toUInt64, lmbTag 'F' 'D' 'T' 'B', .boot⟩,
   ⟨b.imageStart, b.imageEnd - b.imageStart, lmbTag 'L' 'D' 'R' 'S', .boot⟩] ++
  b.memRsv.map fun r => ⟨r.1, r.2, resvLabel.2, resvLabel.1⟩

end BootInfo

/-- `lmb_reserve` of one range after the other; the results are dropped. -/
def lmbReserveAll (lmb : Lmb) : List LmbProperty → Option Lmb
  | [] => some lmb
  | p :: ps => (lmbReserve lmb p.base p.size p.type p.tag).bind fun r => lmbReserveAll r.2 ps

/-- The allocator when `main` has made the reservations `ps`. -/
def mainUpTo (lmb : Lmb) (b : BootInfo) (ps : List LmbProperty) : Option Lmb := do
  let lmb ← lmbAddAll (lmbInit lmb) b.memoryRanges
  lmbReserveAll lmb ps

/-- The allocator when `main` calls `fb_launch`. -/
def main (lmb : Lmb) (b : BootInfo) : Option Lmb := mainUpTo lmb b b.reservations

/-! ### The labels of the reservations -/

/-- The labels of the requests before those of the reservation map. -/
def bootLabels : List LmbLabel :=
  [(.runtime, lmbTag 'T' 'S' 'E' 'C'), (.runtime, lmbTag 'V' 'P' 'R' 'R'),
   (.runtime, lmbTag 'L' 'P' '0' 'V'), (.runtime, lmbTag 'N' 'V' 'D' 'R'),
   (.runtime, lmbTag 'F' 'B' 'M' 'M'), (.boot, lmbTag 'F' 'D' 'T' 'B'),
   (.boot, lmbTag 'L' 'D' 'R' 'S')]

theorem sublist_of_toList {α β : Type*} (o : Option α) (k : β) :
    (o.toList.map fun _ => k).Sublist [k] := by
  cases o <;> simp

theorem BootInfo.labels_eq (b : BootInfo) : ∃ A : List LmbLabel, A.Sublist bootLabels ∧
    (b.reservations.map fun p => p.seg.label) = A ++ b.memRsv.map fun _ => resvLabel := by
  refine ⟨_, ?_, by
    simp only [reservations, List.map_append, List.map_map, Function.comp_def,
      LmbProperty.seg_label]; rfl⟩
  have h := fun (o : Option (UInt64 × UInt64)) (k : LmbLabel) => sublist_of_toList o k
  exact ((((h b.tsec _).append (h b.vpr _)).append (h b.lp0Vec _)).append (h b.nvdumper _)).append
    (.refl _)

/-- Only the label of the reservation map is used more than once, and its requests come last. -/
theorem BootInfo.labels_pairwise (b : BootInfo) :
    b.reservations.Pairwise fun p q => (p.seg.label = q.seg.label → p.seg.label = resvLabel) ∧
      (p.seg.label = resvLabel → q.seg.label = resvLabel) := by
  obtain ⟨A, hA, heq⟩ := b.labels_eq
  have hdistinct : A.Pairwise (· ≠ ·) := List.Pairwise.sublist hA (by decide)
  have hother : ∀ k ∈ A, k ≠ resvLabel := fun k hk =>
    (show ∀ k ∈ bootLabels, k ≠ resvLabel by decide) k (hA.mem hk)
  have hall : (b.reservations.map fun p => p.seg.label).Pairwise fun k l =>
      (k = l → k = resvLabel) ∧ (k = resvLabel → l = resvLabel) := by
    rw [heq, List.pairwise_append]
    refine ⟨hdistinct.imp_of_mem fun hk _ hne => ⟨fun h => absurd h hne, fun h =>
      absurd h (hother _ hk)⟩, List.pairwise_of_forall_mem_list (by simp), fun k hk l _ => ?_⟩
    exact ⟨fun h => by simp_all, fun h => absurd h (hother k hk)⟩
  exact List.pairwise_map.1 hall

theorem BootInfo.reservations_type {b : BootInfo} :
    ∀ p ∈ b.reservations, p.type = .boot ∨ p.type = .runtime := by
  intro p hp
  obtain ⟨A, hA, heq⟩ := b.labels_eq
  have hmem : p.seg.label ∈ A ++ b.memRsv.map fun _ => resvLabel := heq ▸ List.mem_map_of_mem hp
  rcases List.mem_append.1 hmem with h | h
  · exact (show ∀ k ∈ bootLabels, k.1 = .boot ∨ k.1 = .runtime by decide) _ (hA.mem h)
  · obtain ⟨_, -, h⟩ := List.mem_map.1 h
    exact .inl (congrArg Prod.fst h).symm

/-! ### The calls -/

/-- The tables while `main` runs and afterwards. -/
structure Lmb.Loose (lmb : Lmb) : Prop where
  memory : lmb.memory.Loose
  reserved : lmb.reserved.Loose

/-- A range is known when one memory entry holds it. -/
theorem lmbIsKnown_iff {lmb : Lmb} {p : LmbProperty} (h : lmb.memory.Loose)
    (hlt : p.seg.lo < p.seg.hi) (hp : p.seg.hi < 2 ^ 64) :
    lmbIsKnown lmb p.base p.size = true ↔ ∃ m ∈ lmb.memory.table, p.seg.Inside m := by
  have hone : (1 : UInt64).toNat = 1 := rfl
  have hend := LmbProperty.toNat_end hp
  have key : ∀ i < lmb.memory.cnt.toNat,
      ((lmb.memory.region i).base ≤ p.base ∧
        p.base ≤ (lmb.memory.region i).base + (lmb.memory.region i).size - 1 ∧
        (lmb.memory.region i).base ≤ p.base + p.size ∧
        p.base + p.size ≤ (lmb.memory.region i).base + (lmb.memory.region i).size) ↔
        p.seg.Inside (lmb.memory.region i).seg := by
    intro i hi
    have hfit := h.fits _ (LmbRegion.seg_mem_table hi)
    have hupper := LmbProperty.toNat_end hfit
    simp only [UInt64.le_iff_toNat_le, hend, hupper, UInt64.toNat_sub, hone]
    simp only [LmbProperty.seg_lo, LmbProperty.seg_hi, Inside] at *
    omega
  simp only [lmbIsKnown, List.any_eq_true, List.mem_range, Bool.and_eq_true, decide_eq_true_iff]
  constructor
  · rintro ⟨i, hi, ⟨⟨h1, h2⟩, h3⟩, h4⟩
    exact ⟨_, LmbRegion.seg_mem_table hi, (key i hi).1 ⟨h1, h2, h3, h4⟩⟩
  · rintro ⟨m, hm, hin⟩
    obtain ⟨i, hi, rfl⟩ := LmbRegion.mem_table.1 hm
    obtain ⟨h1, h2, h3, h4⟩ := (key i hi).2 hin
    exact ⟨i, hi, ⟨⟨h1, h2⟩, h3⟩, h4⟩

/-- A request is refused as a whole, and why. -/
def Refused (lmb : Lmb) (p : LmbProperty) : Prop :=
  lmbReserve lmb p.base p.size p.type p.tag = some (-1, lmb) ∧
    ((¬∃ m ∈ lmb.memory.table, p.seg.Inside m) ∨ (∃ e ∈ lmb.reserved.table, p.seg.Overlaps e) ∨
      maxLmbRegions ≤ lmb.reserved.cnt.toNat)

/-- `lmb_reserve` keeps the tables loose and takes no point away. A request is refused, or it is
covered when no other label occurs twice. -/
theorem lmbReserve_loose {lmb : Lmb} {p : LmbProperty} (h : lmb.Loose) (hp : p.seg.hi < 2 ^ 64)
    (htype : p.type = .boot ∨ p.type = .runtime) :
    ∃ r lmb', lmbReserve lmb p.base p.size p.type p.tag = some (r, lmb') ∧ lmb'.Loose ∧
      lmb'.memory = lmb.memory ∧
      (∀ x, Covers lmb.reserved.table x → Covers lmb'.reserved.table x) ∧
      (Distinct lmb.reserved.table p.seg.label →
        p.seg.lo < p.seg.hi → Refused lmb p ∨ ∀ x ∈ p.seg.ico, Covers lmb'.reserved.table x) ∧
      (∀ k, Distinct lmb.reserved.table k →
        (∀ e ∈ lmb.reserved.table, e.label = p.seg.label → e.label = k) →
        Distinct lmb'.reserved.table k) ∧
      ∀ s ∈ lmb'.reserved.table, s.label = p.seg.label ∨
        ∃ e ∈ lmb.reserved.table, s.label = e.label := by
  by_cases hknown : lmbIsKnown lmb p.base p.size = true
  · obtain ⟨r, reserved, hr, hl, hcov, hneg, hrec, hdis, hlab⟩ := lmbAddRegion_loose h.reserved hp
    have hcall : lmbReserve lmb p.base p.size p.type p.tag = some (r, { lmb with reserved }) := by
      rw [lmbReserve_accepted htype hknown, hr]; rfl
    refine ⟨r, { lmb with reserved }, hcall, ⟨h.memory, hl⟩, rfl, hcov, fun hd _ => ?_, hdis, hlab⟩
    rcases lt_or_ge r 0 with hr0 | hr0
    · obtain ⟨rfl, hsame, hwhy⟩ := hneg hr0
      exact .inl ⟨by rw [hcall, hsame], .inr hwhy⟩
    · exact .inr (hrec hr0 hd)
  · have hcall : lmbReserve lmb p.base p.size p.type p.tag = some (-1, lmb) :=
      lmbReserve_refused fun h => hknown h.2
    refine ⟨-1, lmb, hcall, h, rfl, fun _ => id, fun _ hlt => .inl ⟨hcall, .inl ?_⟩, fun _ hd _ => hd,
      fun s hs => .inr ⟨s, hs, rfl⟩⟩
    exact mt (lmbIsKnown_iff h.memory hlt hp).2 hknown

/-- A sequence of requests keeps the tables loose and takes no point away. -/
theorem lmbReserveAll_loose {lmb : Lmb} {ps : List LmbProperty} (h : lmb.Loose)
    (hp : ∀ p ∈ ps, p.seg.hi < 2 ^ 64 ∧ (p.type = .boot ∨ p.type = .runtime)) :
    ∃ lmb', lmbReserveAll lmb ps = some lmb' ∧ lmb'.Loose ∧
      (∀ x, Covers lmb.reserved.table x → Covers lmb'.reserved.table x) ∧
      ∀ k, Distinct lmb.reserved.table k →
        (∀ e ∈ lmb.reserved.table, ∀ p ∈ ps, e.label = p.seg.label → e.label = k) →
        (ps.Pairwise fun p q => p.seg.label = q.seg.label → p.seg.label = k) →
        Distinct lmb'.reserved.table k := by
  induction ps generalizing lmb with
  | nil => exact ⟨lmb, rfl, h, fun _ => id, fun _ hd _ _ => hd⟩
  | cons p ps ih =>
    obtain ⟨hfit, htype⟩ := hp p (by simp)
    obtain ⟨r, lmb₁, hr, hl, -, hcov, -, hdis, hlab⟩ := lmbReserve_loose h hfit htype
    obtain ⟨lmb', hr', hl', hcov', hdis'⟩ := ih hl fun q hq => hp q (by simp [hq])
    refine ⟨lmb', by rw [lmbReserveAll, hr]; exact hr', hl', fun x hx => hcov' x (hcov x hx),
      fun k hd hk hpair => ?_⟩
    rw [List.pairwise_cons] at hpair
    refine hdis' k (hdis k hd fun e he => hk e he p (by simp)) (fun e he q hq heq => ?_) hpair.2
    rcases hlab e he with h | ⟨e', he', h⟩
    · rw [h] at heq ⊢
      exact hpair.1 q hq heq
    · rw [h] at heq ⊢
      exact hk e' he' q (by simp [hq]) heq

theorem lmbReserveAll_append (lmb : Lmb) (ps qs : List LmbProperty) :
    lmbReserveAll lmb (ps ++ qs) = (lmbReserveAll lmb ps).bind fun lmb => lmbReserveAll lmb qs := by
  induction ps generalizing lmb with
  | nil => rfl
  | cons p ps ih => simp [lmbReserveAll, ih, Option.bind_assoc]

/-- The memory table of `main`. -/
theorem lmbAddAll_loose {lmb : Lmb} {ps : List LmbProperty} (h : lmb.Loose)
    (hp : ∀ p ∈ ps, p.seg.hi < 2 ^ 64) :
    ∃ lmb', lmbAddAll lmb ps = some lmb' ∧ lmb'.Loose ∧ lmb'.reserved = lmb.reserved := by
  induction ps generalizing lmb with
  | nil => exact ⟨lmb, rfl, h, rfl⟩
  | cons p ps ih =>
    obtain ⟨r, memory, hr, hl, -⟩ :=
      lmbAddRegion_loose (p := { p with type := .free }) h.memory (hp p (by simp))
    obtain ⟨lmb', hr', hl', hres⟩ := @ih { lmb with memory } ⟨hl, h.reserved⟩
      fun q hq => hp q (by simp [hq])
    refine ⟨lmb', ?_, hl', hres⟩
    simp only [lmbAddAll, lmbAdd, hr]
    exact hr'

/-- `lmb_alloc_base` keeps the tables loose, takes no point away, and returns no block that meets a
point of the reserved table. -/
theorem lmbAllocBase_loose {lmb : Lmb} {size align maxAddr : UInt64} (type : LmbType)
    (tag : UInt32) (h : lmb.Loose) (hreq : Request lmb size align maxAddr) :
    ∃ b lmb', lmbAllocBase lmb size align maxAddr type tag = some (b, lmb') ∧ lmb'.Loose ∧
      (∀ x, Covers lmb.reserved.table x → Covers lmb'.reserved.table x) ∧
      (b ≠ 0 → ∀ x, Covers lmb.reserved.table x →
        ¬(b.toNat ≤ x ∧ x < b.toNat + (lmbAlignUp size align).toNat)) := by
  by_cases hmmio : type = .mmio
  · exact ⟨0, lmb, lmbAllocBase_none (.inl hmmio), h, fun _ => id, fun h => absurd rfl h⟩
  set s := lmbAlignUp size align with hsdef
  rcases hsearch : lmbAllocBase.search lmb s align maxAddr lmb.memory.cnt.toNat with _ | b
  · exact ⟨0, lmb, lmbAllocBase_none (.inr hsearch), h, fun _ => id, fun h => absurd rfl h⟩
  -- the search found a block, so the limit was absent or large enough
  have hwide : maxAddr = 0 ∨ s.toNat ≤ maxAddr.toNat := by
    by_contra hno
    rw [not_or] at hno
    have h0 : maxAddr.toNat ≠ 0 := fun h => hno.1 (UInt64.toNat_inj.1 h)
    have hnone := (hreq.limit.resolve_left h0).resolve_left hno.2
    rw [lmbAllocBase.search_eq_none hno.1 hnone _ le_rfl] at hsearch
    exact absurd hsearch (by simp)
  obtain ⟨hne, -, hfree, i, hi, hw⟩ := lmbAllocBase.search_sound h.memory.fits h.reserved.fits
    hreq.powTwo hwide _ le_rfl hsearch
  have hfit : b.toNat + s.toNat < 2 ^ 64 :=
    hw.2.1.trans_lt (h.memory.fits _ (LmbRegion.seg_mem_table hi))
  obtain ⟨r, reserved, hr, hl, hcov, -⟩ :=
    lmbAddRegion_loose (p := ⟨b, s, tag, type⟩) h.reserved hfit
  refine ⟨if r < 0 then 0 else b, { lmb with reserved }, ?_, ⟨h.memory, hl⟩, hcov,
    fun hb x hc hxb => ?_⟩
  · rw [lmbAllocBase_found hmmio hsearch, hr]
    rfl
  · obtain ⟨e, he, hx⟩ := hc
    rw [if_neg fun hr => hb (if_pos hr)] at hxb
    rcases hfree e he with h | h
    · exact absurd (hx.2.trans_le h) (not_lt.2 hxb.1)
    · exact absurd (hx.1.trans_lt hxb.2) (not_lt.2 h)

/-- An allocation, as a step. -/
def AllocStep (lmb lmb' : Lmb) : Prop :=
  ∃ size align maxAddr type tag b, Request lmb size align maxAddr ∧
    lmbAllocBase lmb size align maxAddr type tag = some (b, lmb')

/-- Runs of allocations keep what is reserved. -/
theorem AllocStep.loose {lmb lmb' : Lmb} (hrun : Relation.ReflTransGen AllocStep lmb lmb')
    (h : lmb.Loose) :
    lmb'.Loose ∧ ∀ x, Covers lmb.reserved.table x → Covers lmb'.reserved.table x := by
  induction hrun with
  | refl => exact ⟨h, fun _ => id⟩
  | tail _ hstep ih =>
    obtain ⟨size, align, maxAddr, type, tag, b, hreq, hr⟩ := hstep
    obtain ⟨b', lmb'', hr', hl, hcov, -⟩ := lmbAllocBase_loose type tag ih.1 hreq
    obtain ⟨-, rfl⟩ := Prod.mk.inj (Option.some.inj (hr.symm.trans hr'))
    exact ⟨hl, fun x hx => hcov x (ih.2 x hx)⟩

/-- The address `x` is never in a block that an allocation returns, however many are made. -/
def NeverAllocated (lmb : Lmb) (x : Nat) : Prop :=
  ∀ lmb', Relation.ReflTransGen AllocStep lmb lmb' → ∀ size align maxAddr type tag b lmb'',
    Request lmb' size align maxAddr →
    lmbAllocBase lmb' size align maxAddr type tag = some (b, lmb'') → b ≠ 0 →
    ¬(b.toNat ≤ x ∧ x < b.toNat + (lmbAlignUp size align).toNat)

theorem neverAllocated_of_covers {lmb : Lmb} (h : lmb.Loose) {x : Nat}
    (hx : Covers lmb.reserved.table x) : NeverAllocated lmb x := by
  intro lmb' hrun size align maxAddr type tag b lmb'' hreq hr hb
  obtain ⟨hl, hcov⟩ := AllocStep.loose hrun h
  obtain ⟨b', lmb₁, hr', -, -, hout⟩ := lmbAllocBase_loose type tag hl hreq
  obtain ⟨rfl, -⟩ := Prod.mk.inj (Option.some.inj (hr.symm.trans hr'))
  exact hout hb x (hcov x hx)

/-- **The reservations of `main`.** With ranges that do not wrap, each request is either refused as
a whole at its turn, because it is not inside one memory entry, overlaps an entry of the reserved
table or finds the table full, or it is covered by the reserved table when `main` calls `fb_launch`,
and then no allocation returns a block with one of its addresses. -/
theorem main_reserves (lmb₀ : Lmb) {b : BootInfo}
    (hm : ∀ p ∈ b.memoryRanges, p.seg.hi < 2 ^ 64) (hr : ∀ p ∈ b.reservations, p.seg.hi < 2 ^ 64) :
    ∃ lmb, main lmb₀ b = some lmb ∧
      ∀ ps p qs, b.reservations = ps ++ p :: qs → p.seg.lo < p.seg.hi →
        ∃ lmb₁, mainUpTo lmb₀ b ps = some lmb₁ ∧
          (Refused lmb₁ p ∨
            ∀ x ∈ p.seg.ico, Covers lmb.reserved.table x ∧ NeverAllocated lmb x) := by
  have hinit := lmbInit_initial lmb₀
  obtain ⟨lmbM, hadd, hl, hres⟩ :=
    lmbAddAll_loose ⟨hinit.1.loose, hinit.2.loose⟩ hm
  have htype := @BootInfo.reservations_type b
  have hdummy : lmbM.reserved.table = [lmbDummy.seg] := by rw [hres, hinit.2.table_eq]
  have hall : ∀ {ps : List LmbProperty}, (∀ p ∈ ps, p ∈ b.reservations) →
      ∀ p ∈ ps, p.seg.hi < 2 ^ 64 ∧ (p.type = .boot ∨ p.type = .runtime) :=
    fun hps p hp => ⟨hr p (hps p hp), htype p (hps p hp)⟩
  obtain ⟨lmb, hrun, hloose, -⟩ := lmbReserveAll_loose hl (hall fun _ => id)
  refine ⟨lmb, by simp only [main, mainUpTo, hadd]; exact hrun, fun ps p qs heq hlt => ?_⟩
  have hps : ∀ q ∈ ps, q ∈ b.reservations := fun q hq => by simp [heq, hq]
  have hqs : ∀ q ∈ qs, q ∈ b.reservations := fun q hq => by simp [heq, hq]
  have hp := hall (fun _ => id) p (by simp [heq] : p ∈ b.reservations)
  obtain ⟨lmb₁, hrun₁, hloose₁, -, hdis₁⟩ := lmbReserveAll_loose hl (hall hps)
  refine ⟨lmb₁, by simp only [mainUpTo, hadd]; exact hrun₁, ?_⟩
  -- labels before `p` that occur twice are that of the reservation map, and so is the one of `p`
  have hdis : Distinct lmb₁.reserved.table p.seg.label := by
    have hpair := b.labels_pairwise
    rw [heq, List.pairwise_append] at hpair
    refine hdis₁ _ ?_ (fun e he q hq hlab => ?_) (hpair.1.imp_of_mem fun ha _ hab hl => ?_)
    · rw [hdummy]
      exact List.pairwise_singleton ..
    · rw [hdummy, List.mem_singleton] at he
      have hq := htype q (hps q hq)
      have : q.type = .invalid := by simpa [he, lmbDummy] using (congrArg Prod.fst hlab).symm
      simp [this] at hq
    · have hresv := hab.1 hl
      rw [hresv, (hpair.2.2 _ ha p (by simp)).2 hresv]
  obtain ⟨r, lmb₂, hr₂, hloose₂, -, -, hcase, -⟩ := lmbReserve_loose hloose₁ hp.1 hp.2
  obtain ⟨lmb', hrun', -, hcov', -⟩ := lmbReserveAll_loose hloose₂ (hall hqs)
  have hsame : lmb' = lmb := by
    rw [heq, lmbReserveAll_append, hrun₁, Option.bind_some, lmbReserveAll, hr₂,
      Option.bind_some] at hrun
    exact Option.some.inj (hrun'.symm.trans hrun)
  rcases hcase hdis hlt with href | hcov
  · exact .inl href
  · refine .inr fun x hx => ?_
    have hx' : Covers lmb.reserved.table x := hsame ▸ hcov' x (hcov x hx)
    exact ⟨hx', neverAllocated_of_covers hloose hx'⟩

/-- One memory range, `vpr=` that overlaps `tsec=`, `lp0_vec=` that extends past the memory, and
more entries in the reservation map than the table has room for. -/
def crowdedBoot : BootInfo where
  memory := [(0x80000000, 0x40000000)]
  fbmem := none
  tsec := some (0x90000000, 0x2000)
  vpr := some (0x90001000, 0x3000)
  lp0Vec := some (0xbffff000, 0x2000)
  nvdumper := none
  fdt := 0x83000000
  totalsize := 0x10000
  imageStart := 0x80080000
  imageEnd := 0x800a0000
  memRsv := (List.range 40).map fun i => (0xa0000000 + UInt64.ofNat i * 0x2000, 0x1000)

/-- Addresses of ranges that are refused stay unreserved, and a range that wraps is recorded but
allocated from. -/
theorem main_misses :
    (∃ lmb ∈ main lmbZero crowdedBoot,
      (∀ x ∈ [0x90003000, 0xbffff800, 0xa004e000], Covers lmb.memory.table x ∧
        ∃ p ∈ crowdedBoot.reservations, x ∈ p.seg.ico) ∧
      ∀ x ∈ [0x90003000, 0xbffff800, 0xa004e000], ¬Covers lmb.reserved.table x) ∧
    let wrapping :=
      { crowdedBoot with nvdumper := some (0x80010000, 0xffffffffffff0000), memRsv := [] }
    ∃ lmb ∈ main lmbZero wrapping,
      ∃ r ∈ lmbAllocBase lmb 0x1000 0x1000 lmbAllocAnywhere .boot lmbTagNone, r.1 = 0xbffff000 ∧
        ∃ p ∈ wrapping.reservations, r.1.toNat ∈ p.seg.ico := by
  decide

theorem main_reserves_crowded :
    ∃ lmb, main lmbZero crowdedBoot = some lmb ∧
      ∀ ps p qs, crowdedBoot.reservations = ps ++ p :: qs → p.seg.lo < p.seg.hi →
        ∃ lmb₁, mainUpTo lmbZero crowdedBoot ps = some lmb₁ ∧
          (Refused lmb₁ p ∨
            ∀ x ∈ p.seg.ico, Covers lmb.reserved.table x ∧ NeverAllocated lmb x) :=
  main_reserves lmbZero (by decide) (by decide)

end ShieldLoader
