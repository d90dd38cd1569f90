import ShieldLoader.Lmb.Named
import ShieldLoader.Fb.Downloads
import ShieldLoader.Fb.Receive

/-!
# Where the data of a download is written

The size of a download is any number of 64 bits. It is rounded up to 1 MiB, which wraps for the
largest ones, and subtracted from the limit of 32 bits, which wraps for those above it; of what is
left of it, only the low 32 bits are asked for. A block that does not wrap can still be lost on its
way into the reserved table.
-/

namespace ShieldLoader

open Segment EStateM Usbd PollInput

/-! ### The block -/

/-- The block of a download of `size` bytes that is put at `b`. -/
def downloadBlock (size b : UInt64) : LmbProperty :=
  ⟨b, lmbAlignUp size downloadAlignment, tagDlod, .boot⟩

/-- The bytes that are asked for in a download of `size` bytes lie in the block that is marked as
reserved for it, and in known memory: nothing is asked for, or the size rounded up to 1 MiB is below
4 GiB and the reserved table lists the highest block that fits. -/
def DownloadFits (lmb : Lmb) (size : UInt64) : Prop :=
  size.toNat % 2 ^ 32 = 0 ∨ size.toNat ≤ 0xfff00000 ∧ ∀ b : UInt64,
    IsGreatest {c | BlockFit lmb (lmbAlignUp size downloadAlignment).toNat 0x100000 0xffffffff c}
      b.toNat → lmb.reserved.Lists (downloadBlock size b).seg

section
variable {lmb lmb' : Lmb} {size addr : UInt64}

theorem powTwo_downloadAlignment : PowTwo downloadAlignment := ⟨20, rfl⟩

theorem downloadAlignment_toNat : downloadAlignment.toNat = 0x100000 := rfl

theorem lmbAlignUp_download (h : size.toNat ≤ 2 ^ 64 - 0x100000) :
    (lmbAlignUp size downloadAlignment).toNat = (size.toNat + 0xfffff) / 0x100000 * 0x100000 := by
  rw [lmbAlignUp_toNat powTwo_downloadAlignment (by rw [downloadAlignment_toNat]; omega),
    downloadAlignment_toNat, Nat.add_sub_assoc (by decide)]

/-- The largest sizes are rounded up to nothing. -/
theorem lmbAlignUp_download_wrap (h : 2 ^ 64 - 0x100000 < size.toNat) :
    (lmbAlignUp size downloadAlignment).toNat = 0 := by
  have hone : (1 : UInt64).toNat = 1 := rfl
  have hlt := size.toNat_lt
  rw [lmbAlignUp, UInt64.toNat_and_not_sub_one (show downloadAlignment.toNat = 2 ^ 20 from rfl),
    UInt64.toNat_sub, UInt64.toNat_add, downloadAlignment_toNat, hone]
  omega

/-- For a size that does not wrap, the block that a download is given is the highest that fits. -/
theorem greatest_of_download (hmem : lmb.memory.Ok) (hres : lmb.reserved.Ok) (h0 : 0 < size.toNat)
    (hsize : size.toNat ≤ 0xfff00000)
    (hs : lmbAllocBase.search lmb (lmbAlignUp size downloadAlignment) downloadAlignment lmbAlloc32Bit
      lmb.memory.cnt.toNat = some addr) :
    IsGreatest {c | BlockFit lmb (lmbAlignUp size downloadAlignment).toNat 0x100000 0xffffffff c}
      addr.toNat := by
  have hup := @lmbAlignUp_download size (by omega)
  have hchosen := (@lmbAllocBase.search_eq_some_iff lmb (lmbAlignUp size downloadAlignment)
    downloadAlignment lmbAlloc32Bit hmem hres powTwo_downloadAlignment
    (dvd_lmbAlignUp powTwo_downloadAlignment)).1 hs
  have hmax : lmbAlloc32Bit.toNat = 0xffffffff := rfl
  rw [hmax, downloadAlignment_toNat] at hchosen
  cases hchosen with
  | fit _ hb =>
    have hset : ∀ c, BlockFit lmb (lmbAlignUp size downloadAlignment).toNat 0x100000 0xffffffff c ↔
        Reached lmb (lmbAlignUp size downloadAlignment).toNat 0x100000 0xffffffff
          lmb.memory.cnt.toNat c :=
      fun c => blockFit_iff.trans (reached_iff (by omega)).symm
    simpa only [hset] using hb
  | wrap _ hlt => omega

/-- The bytes that are asked for are in the block, which is marked as reserved, and in known memory
exactly if the download fits. -/
theorem downloadFits_iff (hmem : lmb.memory.Ok) (hres : lmb.reserved.Ok)
    (h : lmbAllocBase lmb size downloadAlignment lmbAlloc32Bit .boot tagDlod = some (addr, lmb'))
    (h0 : addr ≠ 0) : lmb'.memory = lmb.memory ∧
    ((∀ i < size.toNat % 2 ^ 32, i < (lmbAlignUp size downloadAlignment).toNat ∧
        ((downloadBlock size addr).seg.hi < 2 ^ 64 ∧
          ∀ x ∈ (downloadBlock size addr).seg.ico, Covers lmb'.reserved.table x) ∧
        Covers lmb.memory.table (addr.toNat + i)) ↔ DownloadFits lmb size) := by
  rcases lmbAllocBase_inv h with ⟨h, -⟩ | ⟨-, b, r, rgn', hsearch, hadd, haddr, rfl⟩
  · exact absurd h h0
  have hr : ¬r < 0 := fun hr => h0 (by rw [haddr, if_pos hr])
  rw [if_neg hr] at haddr
  subst haddr
  refine ⟨rfl, ?_⟩
  rcases Nat.eq_zero_or_pos (size.toNat % 2 ^ 32) with hnone | hsome
  · exact iff_of_true (fun i hi => by omega) (.inl hnone)
  rw [DownloadFits, or_iff_right hsome.ne']
  have hlt := size.toNat_lt
  rcases Nat.lt_or_ge (2 ^ 64 - 0x100000) size.toNat with hround | hround
  · -- the block is empty
    have hzero := lmbAlignUp_download_wrap hround
    refine iff_of_false (fun hall => ?_) fun hfits => by omega
    have hfirst := (hall 0 hsome).1
    omega
  have hup := lmbAlignUp_download hround
  by_cases hsize : size.toNat ≤ 0xfff00000
  · have hb := greatest_of_download hmem hres (by omega) hsize hsearch
    obtain ⟨m, hm, hlo, hhi⟩ := hb.1.known
    have hfit := hmem.fits m hm
    have hend : (downloadBlock size addr).seg.hi < 2 ^ 64 := hhi.trans_lt hfit
    have hlists := covers_iff_lists (p := downloadBlock size addr) hres
      (by simp only [LmbProperty.seg_lo, LmbProperty.seg_hi, downloadBlock]; omega) hend
      (fun f hf hov => ?_) hadd (not_lt.1 hr)
    · have hone : ∀ c : UInt64, IsGreatest {c | BlockFit lmb
          (lmbAlignUp size downloadAlignment).toNat 0x100000 0xffffffff c} c.toNat ↔ c = addr :=
        fun c => ⟨fun hc => UInt64.toNat_inj.1 (hc.unique hb), fun hc => hc ▸ hb⟩
      simp only [hone, forall_eq, and_iff_right hsize, ← hlists]
      constructor
      · exact fun hall => (hall 0 hsome).2.1.2
      · exact fun hall i hi => ⟨by omega, ⟨hend, hall⟩, m, hm, by omega, by omega⟩
    · have hdis := hb.1.free f hf
      obtain ⟨h1, h2⟩ := hov
      simp only [LmbProperty.seg_lo, LmbProperty.seg_hi, downloadBlock] at h1 h2
      omega
  · -- the end of the block wraps
    refine iff_of_false (fun hall => ?_) fun hfits => hsize hfits.1
    have hend := (hall 0 hsome).2.1.1
    have hchosen := (@lmbAllocBase.search_eq_some_iff lmb (lmbAlignUp size downloadAlignment)
      downloadAlignment lmbAlloc32Bit hmem hres powTwo_downloadAlignment
      (dvd_lmbAlignUp powTwo_downloadAlignment)).1 hsearch
    have hmax : lmbAlloc32Bit.toNat = 0xffffffff := rfl
    rw [hmax, downloadAlignment_toNat] at hchosen
    simp only [LmbProperty.seg_hi, downloadBlock] at hend
    cases hchosen with
    | fit hwide => omega
    | wrap _ _ _ _ _ hsum => omega

end

/-! ### The requests -/

theorem waiting_ok : waiting.ctx.lmb.memory.Ok ∧ waiting.ctx.lmb.reserved.Ok :=
  ⟨.inl ⟨by decide, by decide, by decide⟩, .inr ⟨rfl, rfl⟩⟩

/-- The block of the last download is marked as reserved: it does not wrap, and the reserved table
has each of its bytes. -/
def FbMem.Reserved (fb : FbMem) : Prop :=
  fb.block.seg.hi < 2 ^ 64 ∧ ∀ x ∈ fb.block.seg.ico, Covers fb.lmb.reserved.table x

/-- What the request for data asks for is in the block that is marked as reserved for the download
and in known memory. -/
def RequestInside (s : Fb) : Prop :=
  ∀ i < (s.req ep1OutReq).bufferLength.toNat,
    (s.bufferAddr ep1OutReq (s.req ep1OutReq).buffer).toNat + i ∈ s.ctx.block.seg.ico ∧
      s.ctx.Reserved ∧ Covers s.ctx.lmb.memory.table
        ((s.bufferAddr ep1OutReq (s.req ep1OutReq).buffer).toNat + i)

/-- The byte `i` of a download comes into its block, which is marked as reserved, and into known
memory. -/
def FbMem.Inside (fb : FbMem) (i : Nat) : Prop :=
  i < fb.block.size.toNat ∧ fb.Reserved ∧ Covers fb.lmb.memory.table (fb.lastLoaded.toNat + i)

theorem FbMem.inside_iff_of_image {fb fb' : FbMem} {i : Nat} (h : fb'.image = fb.image) :
    fb'.Inside i ↔ fb.Inside i := by
  simp only [FbMem.image, Prod.mk.injEq] at h
  obtain ⟨h1, h2, h3, h4⟩ := h
  rw [Inside, Inside, Reserved, Reserved, block, block, h1, h2, h3, h4]

/-- A poll of a download: data has come, or the response that asked for it has gone. -/
inductive DownloadPoll : PollInput → Fb → Prop
  | data {f : Finish} {s : Fb} (hf : DataCompletion f s) :
    DownloadPoll (.transfer ep1OutReq.ix f) s
  | sent {f : Finish} {s : Fb} (hr : Receiving s) (hin : Busy none s) :
    DownloadPoll (.transfer ep1InReq.ix f) s

/-- The longest transfer, without an error. -/
def fullChunk : Finish := ⟨0, List.replicate 0x5000 0⟩

theorem fullChunk_length : fullChunk.data.length = 0x5000 := List.length_replicate

/-- The `n` first bytes of a download with the tables and the block `image` have come. -/
structure Writing (image : Lmb × UInt64 × UInt64 × UInt64) (n : Nat) (s : Fb) : Prop where
  ok : FbOk s
  image : s.ctx.image = image
  receiving : Receiving s
  le : n ≤ s.ctx.loadSize.toNat % 2 ^ 32
  rem : s.ctx.loadRem.toNat = s.ctx.loadSize.toNat - n

section
variable {image : Lmb × UInt64 × UInt64 × UInt64} {n : Nat} {s : Fb}

/-- The request is for what is left of the low 32 bits of the size, or for the longest transfer. -/
theorem Writing.bufferLength (h : Writing image n s) : (s.req ep1OutReq).bufferLength.toNat =
    min (s.ctx.loadSize.toNat % 2 ^ 32 - n) 0x5000 := by
  have hle := h.le
  have hmax : maxTransfer.toNat = 0x5000 := rfl
  rw [h.receiving.bufferLength, UInt32.toNat_min, UInt64.toNat_toUInt32, h.rem, hmax]
  congr 1
  omega

theorem Writing.bufferAddr (h : Writing image n s) :
    s.bufferAddr ep1OutReq (s.req ep1OutReq).buffer = s.ctx.lastLoaded + UInt64.ofNat n := by
  have hle := h.le
  have hlt := s.ctx.loadSize.toNat_lt
  have hoff : s.ctx.loadSize - s.ctx.loadRem = UInt64.ofNat n := by
    rw [← UInt64.toNat_inj, UInt64.toNat_sub_of_le _ _ (UInt64.le_iff_toNat_le.2 (by
      rw [h.rem]; omega)), h.rem, UInt64.toNat_ofNat', Nat.mod_eq_of_lt (by omega)]
    omega
  rw [h.receiving.buffer, Usbd.bufferAddr, hoff]

/-- A round does not stop while something is left. -/
theorem data_round_more (hr : Receiving s) (hrem : remDone s ≠ 0) :
    Post (usbdCompletions.round fbClient.call ep1OutReq.ix) (fun _ _ => True) (fun _ _ => False)
      s := by
  refine post_usbdCompletions_round.2 ⟨fun h => by simp [hr.slot] at h, fun r hr' => ?_⟩
  obtain rfl := Option.some.inj (hr'.symm.trans hr.slot)
  set s₁ := completed ep1OutReq (s.setSlot ep1OutReq.ix none) with hs₁
  have hcomplete : (s₁.req ep1OutReq).complete = some (.client .rxDataComplete) := by
    rw [hs₁, completed_req, Function.update_self]
    exact hr.complete
  have hcancel : (s₁.req ep1OutReq).cancel = false := by
    rw [hs₁, completed_req, Function.update_self]
    exact hr.cancel
  have hslot : s₁.reqs ep1OutReq.ix = none := by
    rw [hs₁, completed_reqs, setSlot_reqs, Function.update_self]
  refine post_usbdReqComplete.2 ⟨fun hn => absurd hn (by simp [hr.complete]), fun _ => ?_⟩
  refine post_usbdNotify.2 ⟨fun hn => absurd (hn.symm.trans hcomplete) (by simp), fun c hc => ?_⟩
  obtain rfl := Option.some.inj (hc.symm.trans hcomplete)
  exact (fbRxDataComplete_post hslot hcancel).mono (fun _ _ _ => trivial) fun _ _ h =>
    hrem h.1

/-- A completion for data: the request goes on behind what has come, or the download ends. -/
theorem Writing.data (h : Writing image n s) {f : Finish} (hf : DataCompletion f s) :
    Post (fbPoll (.transfer ep1OutReq.ix f))
      (fun _ s' => Receiving s' → Writing image (n + f.data.length) s') (fun _ _ => True) s ∧
    (n + f.data.length < s.ctx.loadSize.toNat →
      Post (fbPoll (.transfer ep1OutReq.ix f)) (fun _ s' => Receiving s') (fun _ _ => False) s) := by
  have hu := (finish_untouched ep1OutReq.ix f s).1
  obtain ⟨hle, hrem⟩ := hf.toNat_remDone
  have hlen : f.data.length ≤ (s.req ep1OutReq).bufferLength.toNat := by
    by_cases he : f.sizeIocSts &&& usbdTdErrorMask = 0
    · have := hf.done he
      omega
    · rw [hf.failed he]
      exact Nat.zero_le _
  rw [h.bufferLength] at hlen
  have hn := h.le
  have hrecv := hu.receiving h.receiving
  set s₀ := finish ep1OutReq.ix f s with hs₀
  have hround := round_ep1Out_post (h.ok.of_untouched hu) hrecv.slot
  have hselected : UsbdStep.selected (.complete ep1OutReq.ix) s₀ = none :=
    if_neg fun hl => hl.2.1.not_receiving hrecv
  have himage := step_image (h.ok.of_untouched hu) hselected
  rw [fbPoll, post_usbdPoll_transfer _ (by decide), ← hs₀,
    post_usbdPoll_transfer _ (by decide), ← hs₀]
  rw [h.rem] at hrem
  constructor
  · refine (hround.and himage).mono (fun _ s' hs' hrecv' => ?_) fun _ _ _ => trivial
    obtain ⟨⟨hok, hdone⟩, himage'⟩ := hs'
    obtain ⟨-, hload, -, -⟩ := hdone.out.data hrecv
    simp only [FbMem.load, Prod.mk.injEq, hu.ctx] at hload
    obtain ⟨-, hsize, hrem', -⟩ := hload
    refine ⟨hok, ?_, hrecv', ?_, ?_⟩
    · rw [himage', hu.ctx]
      exact h.image
    · rw [hsize]
      omega
    · rw [hrem', hsize, hrem]
      omega
  · intro hmore
    have hne : remDone s₀ ≠ 0 := by
      rw [Ne, ← UInt64.toNat_inj, hrem, UInt64.toNat_zero]
      omega
    refine (hround.and (data_round_more hrecv hne)).mono (fun _ s' hs' => ?_) fun _ _ he => he.2
    exact ((hs'.1.2.out.data hrecv).2.2.2 hne).1

theorem writing_poll {inp : PollInput} (h : Receiving s → ∃ n, Writing image n s)
    (hp : DownloadPoll inp s) : Post (fbPoll inp)
      (fun _ s' => Receiving s' → ∃ n, Writing image n s') (fun _ _ => True) s := by
  cases hp with
  | data hf =>
    obtain ⟨n, hn⟩ := h hf.receiving
    exact (hn.data hf).1.imp fun _ s' hs' hr => ⟨_, hs' hr⟩
  | sent hr hin =>
    obtain ⟨n, hok, himage, -, hle, hrem⟩ := h hr
    refine (dataResponse_post hok hr hin _ fun _ _ => True).imp ?_
    intro _ s' hs' _
    obtain ⟨hok', hr', -, hctx⟩ := hs'
    exact ⟨n, hok', hctx ▸ himage, hr', hctx ▸ hle, hctx ▸ hrem⟩

/-- While the low 32 bits of the size have room for it, the longest transfer can come next. -/
theorem Writing.next_fullChunk (h : Writing image n s) (hn : n + 0x5000 < image.2.2.1.toNat % 2 ^ 32) :
    DataCompletion fullChunk s ∧
      Post (fbPoll (.transfer ep1OutReq.ix fullChunk)) (fun _ s' => Writing image (n + 0x5000) s')
        (fun _ _ => False) s := by
  have hsize : image.2.2.1 = s.ctx.loadSize := by rw [← h.image, FbMem.image]
  rw [hsize] at hn
  have hdata : DataCompletion fullChunk s := by
    refine ⟨h.receiving, fun hne => absurd rfl hne, fun _ => ?_⟩
    rw [fullChunk_length, h.bufferLength, Nat.min_eq_right (by omega)]
    rfl
  obtain ⟨hkeep, hreach⟩ := h.data hdata
  rw [fullChunk_length] at hkeep hreach
  have hmod := Nat.mod_le s.ctx.loadSize.toNat (2 ^ 32)
  refine ⟨hdata, (hkeep.and (hreach (by omega))).mono ?_ fun _ _ he => he.2⟩
  exact fun _ s' hs' => hs'.1 hs'.2

/-- Every multiple of the longest transfer below the low 32 bits of the size is reached. -/
theorem Writing.reach {j : Nat} (h : Writing image n s)
    (hj : n + 0x5000 * j < image.2.2.1.toNat % 2 ^ 32) :
    Along fbPoll DownloadPoll (List.replicate j (.transfer ep1OutReq.ix fullChunk)) s ∧
      Post ((List.replicate j (.transfer ep1OutReq.ix fullChunk)).forM fbPoll)
        (fun _ s' => Writing image (n + 0x5000 * j) s') (fun _ _ => False) s := by
  induction j generalizing n s with
  | zero => exact ⟨trivial, post_pure.2 h⟩
  | succ j ih =>
    rw [Nat.mul_succ, Nat.add_comm _ 0x5000, ← Nat.add_assoc] at hj ⊢
    have hnext : n + 0x5000 < image.2.2.1.toNat % 2 ^ 32 :=
      Nat.lt_of_le_of_lt (Nat.le_add_right _ _) hj
    obtain ⟨hdata, hround⟩ := h.next_fullChunk hnext
    have hrest := hround.imp fun _ s' hs' => ih hs' hj
    rw [List.replicate_succ]
    refine ⟨⟨.data hdata, hrest.mono (fun _ _ hs' => hs'.1) fun _ _ _ => trivial⟩, ?_⟩
    exact post_forM_cons.2 (hrest.imp fun _ _ hs' => hs'.2)

/-- The bytes that the request asks for. -/
theorem Writing.requestInside_iff (h : Writing image n s)
    (hlt : s.ctx.lastLoaded.toNat + n < 2 ^ 64) :
    RequestInside s ↔
      ∀ i < min (s.ctx.loadSize.toNat % 2 ^ 32 - n) 0x5000, s.ctx.Inside (n + i) := by
  have hn : (UInt64.ofNat n).toNat = n := by
    rw [UInt64.toNat_ofNat', Nat.mod_eq_of_lt (by omega)]
  have haddr : (s.bufferAddr ep1OutReq (s.req ep1OutReq).buffer).toNat =
      s.ctx.lastLoaded.toNat + n := by
    rw [h.bufferAddr, UInt64.toNat_add, hn, Nat.mod_eq_of_lt hlt]
  rw [RequestInside, h.bufferLength, haddr]
  refine forall₂_congr fun i _ => ?_
  rw [FbMem.Inside, Nat.add_assoc, mem_ico]
  refine and_congr_left fun _ => ?_
  change s.ctx.lastLoaded.toNat ≤ _ ∧ _ < s.ctx.lastLoaded.toNat + _ ↔ _
  omega

/-! ### Every request of a download -/

/-- All requests of a download are inside exactly if all bytes that are asked for are: what is
outside is reached, or an earlier byte at the end of the address space. -/
theorem Writing.requests_inside_iff (h : Writing image 0 s) (hmem : s.ctx.lmb.memory.Ok) :
    (∀ inps, Along fbPoll DownloadPoll inps s → Post (inps.forM fbPoll)
      (fun _ s' => Receiving s' → RequestInside s') (fun _ _ => True) s) ↔
    ∀ i < s.ctx.loadSize.toNat % 2 ^ 32, s.ctx.Inside i := by
  have hcover : ∀ x, Covers s.ctx.lmb.memory.table x → x + 1 < 2 ^ 64 := by
    intro x ⟨e, he, hx⟩
    have hfit := hmem.fits e he
    have hhi := hx.2
    omega
  have hsize : image.2.2.1 = s.ctx.loadSize := by rw [← h.image, FbMem.image]
  have hsame : ∀ n s', Writing image n s' → s'.ctx.image = s.ctx.image ∧
      s'.ctx.loadSize = s.ctx.loadSize ∧ s'.ctx.lastLoaded = s.ctx.lastLoaded := by
    intro n s' hw
    have himage := hw.image.trans h.image.symm
    have hparts := himage
    simp only [FbMem.image, Prod.mk.injEq] at hparts
    exact ⟨himage, hparts.2.2.1, hparts.2.1⟩
  constructor
  · intro hall i hi
    by_contra hout
    -- the first byte outside that has an address
    obtain ⟨k, hk, hkout, hklt⟩ : ∃ k ≤ i, ¬s.ctx.Inside k ∧ s.ctx.lastLoaded.toNat + k < 2 ^ 64 := by
      have hlt := s.ctx.lastLoaded.toNat_lt
      rcases Nat.lt_or_ge (s.ctx.lastLoaded.toNat + i) (2 ^ 64) with hilt | hilt
      · exact ⟨i, le_rfl, hout, hilt⟩
      · refine ⟨2 ^ 64 - 1 - s.ctx.lastLoaded.toNat, by omega, fun hin => ?_, by omega⟩
        have hlast := hcover _ hin.2.2
        omega
    have hdiv := Nat.div_add_mod k 0x5000
    have hmod := Nat.mod_lt k (show 0x5000 > 0 by decide)
    have hpos : 0 + 0x5000 * (k / 0x5000) < image.2.2.1.toNat % 2 ^ 32 := by
      rw [hsize]
      omega
    obtain ⟨hpolls, hrun⟩ := h.reach hpos
    refine Post.const (p := False) (((hall _ hpolls).and hrun).mono ?_ fun _ _ he => he.2)
    intro _ s' hs'
    obtain ⟨hinside, hw⟩ := hs'
    obtain ⟨himage, hload, hlast⟩ := hsame _ _ hw
    have hpart := (hw.requestInside_iff (by rw [hlast]; omega)).1 (hinside hw.receiving)
      (k % 0x5000) (by rw [hload]; omega)
    rw [Nat.zero_add, hdiv, FbMem.inside_iff_of_image himage] at hpart
    exact hkout hpart
  · intro hall inps hpolls
    refine (hpolls.forM (fun _ _ hI hp => writing_poll hI hp) fun _ => ⟨0, h⟩).imp ?_
    intro _ s' hw hr
    obtain ⟨n, hn⟩ := hw hr
    obtain ⟨himage, hload, hlast⟩ := hsame n s' hn
    rcases Nat.eq_or_lt_of_le hn.le with hfull | hmore
    · -- nothing is left to ask for
      intro i hi
      rw [hn.bufferLength] at hi
      omega
    · have hlow := hcover _ (hall n (hload ▸ hmore)).2.2
      refine (hn.requestInside_iff (by rw [hlast]; omega)).2 fun i hi => ?_
      rw [FbMem.inside_iff_of_image himage]
      exact hall (n + i) (by rw [hload] at hi; omega)

theorem FbMem.Accepted.inside_iff {fb fb' : FbMem} {size : UInt64} {lmb : Lmb}
    (h : fb.Accepted size fb') (hdisc : fb.discarded = some lmb) (hmem : lmb.memory.Ok)
    (hres : lmb.reserved.Ok) (h0 : fb'.lastLoaded ≠ 0) : fb'.lmb.memory = lmb.memory ∧
      ((∀ i < fb'.loadSize.toNat % 2 ^ 32, fb'.Inside i) ↔ DownloadFits lmb size) := by
  obtain ⟨hsize, halign, lmb₁, hdisc₁, halloc⟩ := h
  obtain rfl := Option.some.inj (hdisc₁.symm.trans hdisc)
  obtain ⟨hmemory, hfits⟩ := downloadFits_iff hmem hres halloc h0
  refine ⟨hmemory, ?_⟩
  rw [← hfits]
  simp only [FbMem.Inside, FbMem.Reserved, FbMem.block, downloadBlock, hsize, halign, hmemory]

/-- **Download writes stay in the buffer exactly if the size fits**: after a `download:` that is
accepted, every request for data is for bytes of the block of the download and of known memory, in
any run of the download, if and only if `DownloadFits`. -/
theorem download_inside_iff {cmd : List UInt8} {fc : Finish} {lmb : Lmb} (hs : FbOk s)
    (hsel : UsbdStep.selected (.complete ep1OutReq.ix) (finish ep1OutReq.ix fc s) =
      some (.download cmd))
    (hdisc : s.ctx.discarded = some lmb) (hmem : lmb.memory.Ok) (hres : lmb.reserved.Ok)
    (haccepted : Post (fbPoll (.transfer ep1OutReq.ix fc)) (fun _ => Receiving)
      (fun _ _ => False) s) :
    (∀ inps, Post (fbPoll (.transfer ep1OutReq.ix fc))
      (fun _ s₁ => Along fbPoll DownloadPoll inps s₁ → Post (inps.forM fbPoll)
        (fun _ s' => Receiving s' → RequestInside s') (fun _ _ => True) s₁)
      (fun _ _ => True) s) ↔
    DownloadFits lmb (simpleStrtoull cmd 16).1 := by
  have hstart : Post (fbPoll (.transfer ep1OutReq.ix fc))
      (fun _ s₁ => (∀ inps, Along fbPoll DownloadPoll inps s₁ → Post (inps.forM fbPoll)
        (fun _ s' => Receiving s' → RequestInside s') (fun _ _ => True) s₁) ↔
          DownloadFits lmb (simpleStrtoull cmd 16).1) (fun _ _ => False) s := by
    refine ((download_post hs hsel).and haccepted).mono ?_ fun _ _ he => he.2
    intro _ s₁ h₁
    obtain ⟨⟨hok, hdown⟩, hrecv⟩ := h₁
    obtain ⟨hacc, h0, hrem, -⟩ := hdown hrecv
    obtain ⟨hmemory, hfits⟩ := hacc.inside_iff hdisc hmem hres h0
    have hw : Writing s₁.ctx.image 0 s₁ :=
      ⟨hok, rfl, hrecv, Nat.zero_le _, by rw [hrem, Nat.sub_zero]⟩
    rw [← hfits]
    exact hw.requests_inside_iff (hmemory ▸ hmem)
  rw [← post_forall]
  constructor
  · exact fun h => ((h.and hstart).mono (fun _ _ h => h.2.1 h.1) fun _ _ h => h.2.elim).const
  · exact fun h => hstart.mono (fun _ _ h₁ => h₁.2 h) fun _ _ _ => trivial

end

/-- A size that the memory has room for. -/
theorem download_inside_ten :
    (∀ inps, Post (fbPoll (.transfer ep1OutReq.ix ⟨0x360000, bytes "download:a"⟩))
      (fun _ s₁ => Along fbPoll DownloadPoll inps s₁ → Post (inps.forM fbPoll)
        (fun _ s' => Receiving s' → RequestInside s') (fun _ _ => True) s₁)
      (fun _ _ => True) waiting) ∧
    DownloadFits waiting.ctx.lmb
      (simpleStrtoull (bytes "a" ++ List.replicate 54 0) 16).1 := by
  have hcmd : UsbdStep.selected (.complete ep1OutReq.ix)
      (finish ep1OutReq.ix ⟨0x360000, bytes "download:a"⟩ waiting) =
        some (.download (bytes "a" ++ List.replicate 54 0)) := by
    decide +kernel
  have hfits : DownloadFits waiting.ctx.lmb
      (simpleStrtoull (bytes "a" ++ List.replicate 54 0) 16).1 := by
    refine .inr ⟨by decide +kernel, fun b _ => ?_⟩
    rw [LmbRegion.Lists, if_neg (by decide)]
    exact fun hlost => (hlost.wf waiting_ok.2).not_dummy ⟨rfl, rfl⟩
  refine ⟨(download_inside_iff fbOk_waiting hcmd rfl waiting_ok.1 waiting_ok.2 ?_).2 hfits, hfits⟩
  decide +kernel

/-- The largest size is rounded up to an empty block, which is accepted, and the first request is
for the longest transfer. -/
theorem download_outside :
    FbOk waiting ∧ UsbdStep.selected (.complete ep1OutReq.ix)
        (finish ep1OutReq.ix ⟨0x270000, bytes "download:ffffffffffffffff"⟩ waiting) =
      some (.download (bytes "ffffffffffffffff" ++ List.replicate 39 0)) ∧
    waiting.ctx.discarded = some waiting.ctx.lmb ∧ waiting.ctx.lmb.memory.Ok ∧
    waiting.ctx.lmb.reserved.Ok ∧
    Post (fbPoll (.transfer ep1OutReq.ix ⟨0x270000, bytes "download:ffffffffffffffff"⟩))
      (fun _ s₁ => Receiving s₁ ∧ ¬RequestInside s₁) (fun _ _ => False) waiting := by
  refine ⟨fbOk_waiting, by decide +kernel, rfl, waiting_ok.1, waiting_ok.2, ?_⟩
  have hfirst : Post (fbPoll (.transfer ep1OutReq.ix ⟨0x270000, bytes "download:ffffffffffffffff"⟩))
      (fun _ s₁ => Receiving s₁ ∧ 0 < (s₁.req ep1OutReq).bufferLength.toNat ∧
        s₁.ctx.block.size = 0) (fun _ _ => False) waiting := by
    decide +kernel
  refine hfirst.imp fun _ s₁ h₁ => ⟨h₁.1, fun hinside => ?_⟩
  obtain ⟨⟨hlo, hhi⟩, -⟩ := hinside 0 h₁.2.1
  change _ < s₁.ctx.block.base.toNat + s₁.ctx.block.size.toNat at hhi
  change s₁.ctx.block.base.toNat ≤ _ at hlo
  rw [h₁.2.2, UInt64.toNat_zero] at hhi
  omega

end ShieldLoader
