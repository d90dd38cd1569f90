import ShieldLoader.Lmb.Own
import ShieldLoader.Fb.Image

/-!
# Downloads and the reserved table

`download:` frees the block of the last download before it allocates one. Over every run in which
no other command calls the allocator, the reserved table is the one the loader has started with, or
that one and the block of the last download, as long as each block is freed from its own entry.
-/

namespace ShieldLoader

open Segment EStateM Usbd PollInput

/-- A reserved table that the loader can start with. -/
structure StartTable (R : List LmbSegment) : Prop where
  ne_nil : R ≠ []
  length_le : R.length ≤ maxLmbRegions
  wf : Segment.WF R
  fits : ∀ e ∈ R, e.hi < 2 ^ 64
  canonical : Canonical R
  untagged : ∀ e ∈ R, e.label.2 ≠ tagDlod

/-- The block of the last download. -/
def FbMem.block (fb : FbMem) : LmbProperty :=
  ⟨fb.lastLoaded, lmbAlignUp fb.loadSize fb.loadAlign, tagDlod, .boot⟩

/-- The block meets no entry of `R`, as `lmb_addrs_overlap` sees it. -/
def Apart (R : List LmbSegment) (p : LmbProperty) : Prop :=
  ∀ e ∈ R, ¬(p.base.toNat < e.hi ∧ e.lo < (p.base + p.size).toNat)

/-- The reserved table is `R`, or `R` and the block of the last download. -/
def Reserves (R : List LmbSegment) (fb : FbMem) : Prop :=
  fb.lastLoaded = 0 ∧ fb.lmb.reserved.table = R ∨
  fb.lastLoaded ≠ 0 ∧ Apart R fb.block ∧
    ∃ L R', R = L ++ R' ∧ fb.lmb.reserved.table = L ++ fb.block.seg :: R'

/-- When there is a block to free, no entry but its own holds its range, with the end of the range
computed as `lmb_free` does. -/
def Releasable (fb : FbMem) : Prop :=
  fb.lastLoaded ≠ 0 → ∀ e ∈ fb.lmb.reserved.table, e.lo ≤ fb.block.base.toNat →
    (fb.block.base + fb.block.size).toNat ≤ e.hi → e.label = fb.block.seg.label

instance (fb : FbMem) : Decidable (Releasable fb) := inferInstanceAs (Decidable (_ → _))

section
variable {R : List LmbSegment} {fb fb' : FbMem}

theorem Reserves.of_image (h : fb'.image = fb.image) (hr : Reserves R fb) : Reserves R fb' := by
  simp only [FbMem.image, Prod.mk.injEq] at h
  obtain ⟨h1, h2, h3, h4⟩ := h
  rwa [Reserves, FbMem.block, h1, h2, h3, h4]

theorem Releasable.of_image (h : fb'.image = fb.image) (hr : Releasable fb) : Releasable fb' := by
  simp only [FbMem.image, Prod.mk.injEq] at h
  obtain ⟨h1, h2, h3, h4⟩ := h
  rwa [Releasable, FbMem.block, h1, h2, h3, h4]

theorem Reserves.length_le (hr : Reserves R fb) :
    fb.lmb.reserved.table.length ≤ R.length + 1 := by
  rcases hr with ⟨-, h⟩ | ⟨-, -, L, R', rfl, h⟩
  · simp [h]
  · simp [h]; omega

theorem StartTable.region_wf (h : StartTable R) {rgn : LmbRegion} (ht : rgn.table = R) : rgn.WF :=
  ⟨by rw [← LmbRegion.length_table, ht]; exact h.length_le, ht ▸ h.wf, ht ▸ h.fits⟩

/-- The entry of the block is found and taken away. -/
theorem Reserves.lmbFree (hR : StartTable R) (hr : Reserves R fb) (hf : Releasable fb)
    (h0 : fb.lastLoaded ≠ 0) : ∃ lmb, lmbFree fb.lmb fb.lastLoaded fb.loadSize fb.loadAlign =
      some (0, lmb) ∧ lmb.reserved.table = R := by
  obtain ⟨-, -, L, R', rfl, ht⟩ := hr.resolve_left fun h => h0 h.1
  have hmem : ∀ l ∈ L, l ∈ L ++ R' := fun l hl => by simp [hl]
  have hcnt : fb.lmb.reserved.cnt.toNat ≤ maxLmbRegions + 1 := by
    have hlen := hR.length_le
    rw [← LmbRegion.length_table, ht]
    simp only [List.length_append, List.length_cons] at hlen ⊢
    omega
  have hfirst : ∀ l ∈ L, ¬(l.lo ≤ fb.block.base.toNat ∧
      (fb.block.base + fb.block.size).toNat ≤ l.hi) := by
    rintro l hl ⟨h1, h2⟩
    have hlabel := hf h0 l (by simp [ht, hl]) h1 h2
    exact hR.untagged l (hmem l hl) (congrArg Prod.snd hlabel)
  obtain ⟨lmb, hfree, -, ht'⟩ :=
    lmbFree_own hcnt ht (by decide) (fun l hl => hR.fits l (hmem l hl)) hfirst
  exact ⟨lmb, hfree, ht'⟩

/-- A block of `download:` gets an entry of its own. -/
theorem StartTable.lmbAllocBase (hR : StartTable R) {lmb lmb' : Lmb} {size addr : UInt64}
    (ht : lmb.reserved.table = R)
    (h : lmbAllocBase lmb size downloadAlignment lmbAlloc32Bit .boot tagDlod = some (addr, lmb')) :
    addr = 0 ∧ lmb'.reserved.table = R ∨
    addr ≠ 0 ∧ Apart R ⟨addr, lmbAlignUp size downloadAlignment, tagDlod, .boot⟩ ∧
      ∃ L R', R = L ++ R' ∧ lmb'.reserved.table =
        L ++ (LmbProperty.mk addr (lmbAlignUp size downloadAlignment) tagDlod .boot).seg :: R' := by
  rcases lmbAllocBase_inv h with ⟨h0, rfl⟩ | ⟨-, base, r, reserved, hsr, hr, haddr, rfl⟩
  · exact .inl ⟨h0, ht⟩
  obtain ⟨hne, hov⟩ := lmbAllocBase.search_overlaps _ hsr
  have hlabel : ∀ e ∈ lmb.reserved.table, e.label ≠
      (LmbProperty.mk base (lmbAlignUp size downloadAlignment) tagDlod .boot).seg.label := by
    intro e he heq
    exact hR.untagged e (ht ▸ he) (congrArg Prod.snd heq)
  rcases lmbAddRegion_own (p := ⟨base, lmbAlignUp size downloadAlignment, tagDlod, .boot⟩)
    (hR.region_wf ht) (ht ▸ hR.canonical) (ht ▸ hR.ne_nil) hlabel hov with
    hadd | ⟨-, rgn', L, R', hadd, hL, hL', -⟩
  · obtain ⟨rfl, rfl⟩ := Prod.mk.inj (Option.some.inj (hr.symm.trans hadd))
    exact .inl ⟨haddr, ht⟩
  · obtain ⟨rfl, rfl⟩ := Prod.mk.inj (Option.some.inj (hr.symm.trans hadd))
    obtain rfl : addr = base := haddr
    refine .inr ⟨hne, fun e he => ?_, L, R', ht ▸ hL, hL'⟩
    obtain ⟨i, hi, rfl⟩ := LmbRegion.mem_table.1 (ht ▸ he)
    have hno := lmbOverlapsRegion_eq_none.1 hov i hi
    rw [lmbAddrsOverlap, Bool.and_eq_false_iff, decide_eq_false_iff_not, decide_eq_false_iff_not,
      UInt64.lt_iff_toNat_lt, UInt64.lt_iff_toNat_lt, LmbProperty.toNat_end (hR.fits _ he)] at hno
    rwa [not_and_or]

end

/-! ### The command -/

section
variable {R : List LmbSegment} {s : Fb}

/-- The block of the last download is freed, and the table is the one at the start. -/
theorem fbCmdDownload_discard_reserves (hR : StartTable R) (hr : Reserves R s.ctx)
    (hf : Releasable s.ctx) : Post fbCmdDownload.discard
      (fun _ s' => s'.ctx.lastLoaded = 0 ∧ s'.ctx.lmb.reserved.table = R)
      (fun _ _ => True) s := by
  simp only [fbCmdDownload.discard, post_bind, post_get, post_ite, post_pure]
  refine ⟨fun h0 => ?_, fun h0 => ?_⟩
  · obtain ⟨lmb, hfree, ht⟩ := hr.lmbFree hR hf h0
    refine post_lmbCall.2 ⟨fun _ => trivial, fun r lmb' h => post_modify.2 ⟨rfl, ?_⟩⟩
    obtain ⟨-, rfl⟩ := Prod.mk.inj (Option.some.inj (h.symm.trans hfree))
    exact ht
  · exact (hr.resolve_right fun h => h0 h.1).imp_left fun h => h

/-- `download:` leaves the table with its own block at most. -/
theorem fbCmdDownload_reserves (hR : StartTable R) (hr : Reserves R s.ctx)
    (hf : Releasable s.ctx) (n : Nat) (cmd : List UInt8) :
    Post (fbCmdDownload (usbdCall (fbComplete n)) cmd) (fun _ s' => Reserves R s'.ctx)
      (fun _ _ => True) s := by
  rw [fbCmdDownload, post_bind]
  refine (fbCmdDownload_discard_reserves hR hr hf).imp ?_
  rintro - s₁ ⟨h0, ht⟩
  rcases simpleStrtoull cmd 16 with ⟨size, cmd⟩
  simp only [post_ite, post_pure]
  refine ⟨fun _ => .inl ⟨h0, ht⟩, fun _ => ?_⟩
  rw [post_bind, post_lmbCall]
  refine ⟨fun _ => trivial, fun addr lmb h => ?_⟩
  simp only [post_bind, post_modify, post_ite, post_pure]
  rcases hR.lmbAllocBase ht h with ⟨rfl, ht'⟩ | ⟨haddr, hapart, L, R', hL, ht'⟩
  · exact ⟨fun _ => .inl ⟨rfl, ht'⟩, fun h => absurd rfl h⟩
  refine ⟨fun h => absurd h haddr, fun _ => ?_⟩
  refine (fbCancel_frames n ep1OutReq _).mono (fun _ s₂ h₂ => ?_) fun _ _ _ => trivial
  refine (fbRequestData_frames.post h₂).mono (fun _ s₃ h₃ => ?_) fun _ _ _ => trivial
  refine (fbRxData_frames.post h₃).mono (fun _ s₄ h₄ => ?_) fun _ _ _ => trivial
  exact .of_image (congrArg Prod.fst h₄) (.inr ⟨haddr, hapart, L, R', hL, ht'⟩)

end

/-! ### Runs -/

instance : DecidablePred FbSelected.TakesLmb
  | .oem cmd => inferInstanceAs (Decidable (∃ name ∈ [_, _, _], memcmp cmd name))
  | .download _ => isTrue trivial
  | .reboot _ | .flash _ | .unknown => isFalse id

/-- The command of the step, if it calls the allocator, is `download:`. -/
def OnlyDownloads (st : UsbdStep) (s : Fb) : Prop :=
  ∀ sel ∈ st.selected s, sel.TakesLmb → sel.IsDownload

/-- A `download:` of the step finds a block that is freed from its own entry, or none. -/
def Releases (st : UsbdStep) (s : Fb) : Prop :=
  ∀ sel ∈ st.selected s, sel.IsDownload → Releasable s.ctx

section
variable {R : List LmbSegment} {s : Fb}

/-- A step keeps the reserved table, up to the block of the last download. -/
theorem step_reserves {st : UsbdStep} (hR : StartTable R) (hs : FbOk s) (hr : Reserves R s.ctx)
    (honly : OnlyDownloads st s) (hrel : Releases st s) :
    Post (st.run fbClient) (fun _ s' => FbOk s' ∧ Reserves R s'.ctx) (fun _ _ => True) s := by
  have hstep : Post (st.run fbClient) (fun _ s' => Reserves R s'.ctx) (fun _ _ => True) s := by
    cases hsel : st.selected s with
    | none => exact (step_image hs hsel).mono (fun _ _ h => hr.of_image h) fun _ _ _ => trivial
    | some sel =>
      refine step_command hsel Reserves.of_image fun s₁ h₁ => ?_
      by_cases htakes : sel.TakesLmb
      · have hdown := honly sel hsel htakes
        have hf := (hrel sel hsel hdown).of_image h₁
        cases sel with
        | download cmd => exact fbCmdDownload_reserves hR (hr.of_image h₁) hf 1 cmd
        | _ => exact absurd hdown (by simp [FbSelected.IsDownload])
      · refine ((fbDispatch_frames _ htakes).comp Prod.fst s₁).mono ?_ fun _ _ _ => trivial
        exact fun _ _ h => hr.of_image (h.trans h₁)
  exact ((step_post hs st).and hstep).mono (fun _ _ h => ⟨h.1.1, h.2⟩) fun _ _ _ => trivial

/-- A block that is not empty and does not wrap is freed from its own entry. -/
theorem releasable_of_proper (hr : Reserves R s.ctx) (hs : s.ctx.block.size ≠ 0)
    (hfit : s.ctx.block.base.toNat + s.ctx.block.size.toNat < 2 ^ 64) : Releasable s.ctx := by
  intro h0 e he hlo hhi
  obtain ⟨-, hapart, L, R', rfl, ht⟩ := hr.resolve_left fun h => h0 h.1
  have hend : (s.ctx.block.base + s.ctx.block.size).toNat =
      s.ctx.block.base.toNat + s.ctx.block.size.toNat := by
    rw [UInt64.toNat_add, Nat.mod_eq_of_lt hfit]
  have hpos : s.ctx.block.size.toNat ≠ 0 := fun h => hs (UInt64.toNat_inj.1 h)
  by_cases hmem : e ∈ L ++ R'
  · exact absurd ⟨by omega, by omega⟩ (hapart e hmem)
  · have hown : e = s.ctx.block.seg := by
      rw [ht] at he
      simp only [List.mem_append, List.mem_cons] at he hmem
      tauto
    rw [hown]

/-- **Downloads never leak reservations**, in a run in which no other command calls the allocator
and each block is freed from its own entry. -/
theorem downloads_reserve {inps : List PollInput} (hs : FbOk s) (h0 : s.ctx.lastLoaded = 0)
    (hR : StartTable s.ctx.lmb.reserved.table)
    (honly : Along (UsbdStep.run fbClient) OnlyDownloads (inps.flatMap PollInput.steps) s)
    (hrel : Along (UsbdStep.run fbClient) Releases (inps.flatMap PollInput.steps) s) :
    Post (usbdLoop fbClient inps)
      (fun _ s' => Reserves s.ctx.lmb.reserved.table s'.ctx ∧
        s'.ctx.lmb.reserved.table.length ≤ s.ctx.lmb.reserved.table.length + 1)
      (fun _ _ => True) s := by
  rw [usbdLoop_steps]
  refine ((honly.and hrel).forM (I := fun s' => FbOk s' ∧ Reserves _ s'.ctx)
    (fun st s₁ h₁ hg => step_reserves hR h₁.1 h₁.2 hg.1 hg.2) ⟨hs, .inl ⟨h0, rfl⟩⟩).imp ?_
  exact fun _ s' h => ⟨h.2, h.2.length_le⟩

end

instance (R : List LmbSegment) : Decidable (StartTable R) :=
  decidable_of_iff (R ≠ [] ∧ R.length ≤ maxLmbRegions ∧ Segment.WF R ∧ (∀ e ∈ R, e.hi < 2 ^ 64) ∧
      Canonical R ∧ ∀ e ∈ R, e.label.2 ≠ tagDlod)
    ⟨fun ⟨h1, h2, h3, h4, h5, h6⟩ => ⟨h1, h2, h3, h4, h5, h6⟩,
      fun ⟨h1, h2, h3, h4, h5, h6⟩ => ⟨h1, h2, h3, h4, h5, h6⟩⟩

instance (st : UsbdStep) (s : Fb) : Decidable (OnlyDownloads st s) :=
  match hsel : st.selected s with
  | none => isTrue (by simp [OnlyDownloads, hsel])
  | some sel => decidable_of_iff (sel.TakesLmb → sel.IsDownload) (by simp [OnlyDownloads, hsel])

instance (st : UsbdStep) (s : Fb) : Decidable (Releases st s) :=
  match hsel : st.selected s with
  | none => isTrue (by simp [Releases, hsel])
  | some sel => decidable_of_iff (sel.IsDownload → Releasable s.ctx) (by simp [Releases, hsel])

/-- The machine after the buffers of the device have been allocated at the end of its memory. -/
def launched : Fb :=
  { machine with ctx := { machine.ctx with lmb :=
    { machine.ctx.lmb with reserved := ⟨1, fun _ => ⟨0xbfffe000, 0x2000, tagUdma, .boot⟩⟩ } } }

theorem fbOk_launched : FbOk launched := fbOk_of_noReqs rfl (fun _ => ⟨rfl, rfl⟩) rfl rfl

/-- A second download takes the place of the first one. -/
theorem downloads_reserve_twice :
    Post (usbdLoop fbClient [setConfig 1, command "download:8", sent,
        received (bytes "12345678"), sent, sent, command "download:100000", sent])
      (fun _ s' => Reserves launched.ctx.lmb.reserved.table s'.ctx ∧
        s'.ctx.lmb.reserved.table.length ≤ launched.ctx.lmb.reserved.table.length + 1)
      (fun _ _ => True) launched := by
  refine downloads_reserve fbOk_launched rfl (by decide) ?_ ?_
  · decide +kernel
  · decide +kernel

/-- An empty download gets an empty block at the end of the memory, where the entry before it ends,
and that entry is found when the block is freed. -/
theorem downloads_leak :
    let inps := [setConfig 1, command "download:0", sent, received [], sent, sent,
      command "download:x", sent]
    FbOk launched ∧ launched.ctx.lastLoaded = 0 ∧ StartTable launched.ctx.lmb.reserved.table ∧
    Along (UsbdStep.run fbClient) (fun st s => OnlyDownloads st s ∧ Reported st s)
      (inps.flatMap PollInput.steps) launched ∧
    Post (usbdLoop fbClient inps)
      (fun _ s' => s'.ctx.lastLoaded = 0 ∧
        s'.ctx.lmb.reserved.table ≠ launched.ctx.lmb.reserved.table)
      (fun _ _ => False) launched := by
  refine ⟨fbOk_launched, rfl, by decide, ?_, ?_⟩
  · decide +kernel
  · decide +kernel

end ShieldLoader
