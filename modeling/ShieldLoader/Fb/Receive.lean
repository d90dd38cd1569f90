import ShieldLoader.Fb.Image
import ShieldLoader.Fb.Packets

/-!
# The data of a download

The chunks in which a download comes: each receive asks for no more than what is left, is stored
behind the one before it, and the last one is answered.
-/

namespace ShieldLoader

open EStateM Usbd PollInput

/-- A poll of the device. -/
def fbPoll (inp : PollInput) : FbM Unit := discard (usbdPoll fbClient inp)

/-- The transfer that asks for data ends in this way: the residual count of a successful one says
how many bytes it has received, and one with an error has received none. -/
structure DataCompletion (f : Finish) (s : Fb) : Prop where
  receiving : Receiving s
  failed : f.sizeIocSts &&& usbdTdErrorMask ≠ 0 → f.data = []
  done : f.sizeIocSts &&& usbdTdErrorMask = 0 →
    ((f.sizeIocSts &&& usbdTdPacketSize) >>> 16).toNat + f.data.length =
      (s.req ep1OutReq).bufferLength.toNat

/-- The bytes `d` of a download of `n` bytes have come. -/
structure Reassembled (n : Nat) (d : List UInt8) (s : Fb) : Prop where
  size : s.ctx.loadSize.toNat = n
  le : d.length ≤ n
  rem : s.ctx.loadRem.toNat = n - d.length
  stored : s.load s.ctx.lastLoaded d.length = d
  more : d.length < n → Receiving s ∧
    (s.req ep1OutReq).bufferLength.toNat ≤ n - d.length ∧ s.reqs ep1InReq.ix = none
  last : d.length = n → Listening s ∧ Busy (some (.client .endCommandWithInfoComplete)) s ∧
    s.inPacket = bytes "INFO" ++ scnprintf 60 (fbLoadedText s.ctx)

/-! ### The controller -/

section
variable {s : Fb} (f : Finish)

theorem Usbd.finish_sizeIocSts (ix : Nat) :
    ((finish ix f s).td ix).sizeIocSts = f.sizeIocSts := by
  have hstore : ∀ (r : Req) (b : Buffer) (s' : Fb), (s'.storeBuffer r b 0 f.data).td = s'.td := by
    intro r b s'
    cases b <;> rfl
  rw [finish]
  dsimp only
  split
  · simp only [Function.update_self]
  · split
    · simp only [Function.update_self]
    · simp only [hstore, Function.update_self]

/-- The data of a transfer of the OUT request is stored where its buffer is. -/
theorem Usbd.finish_out {a : UInt64} (hs : s.reqs ep1OutReq.ix = some ep1OutReq)
    (hb : (s.req ep1OutReq).buffer = .addr a) :
    (finish ep1OutReq.ix f s).mem = (s.store a f.data).mem ∧
      (finish ep1OutReq.ix f s).small = s.small := by
  have hsend : ep1OutReq.ep.send = false := rfl
  have h0 : a + UInt64.ofNat 0 = a := UInt64.add_zero a
  simp only [finish, hs, hsend, Bool.false_eq_true, if_false, hb, storeBuffer, h0]
  exact ⟨rfl, rfl⟩

/-- A transfer of an IN request leaves the memory alone. -/
theorem Usbd.finish_in {r : Req} (hs : s.reqs r.ix = some r) (hr : r.ep.send = true) :
    (finish r.ix f s).mem = s.mem ∧ (finish r.ix f s).small = s.small := by
  simp only [finish, hs, hr, if_true, and_self]

theorem Untouched.receiving {s s' : Fb} (h : Untouched s s') (hr : Receiving s) : Receiving s' :=
  h.sameEp1.receiving hr

end

/-! ### One chunk -/

section
variable {s : Fb}

/-- `fb_rx_data_complete` keeps the memory, and sends where the image is after the last chunk. -/
theorem fbRxDataComplete_sends (hs : s.reqs ep1OutReq.ix = none)
    (hc : (s.req ep1OutReq).cancel = false) :
    Post (fbRxDataComplete ep1OutReq)
      (fun _ s' => s'.mem = s.mem ∧ (remAfter s = 0 → s'.inPacket =
        bytes "INFO" ++ scnprintf 60 (fbLoadedText s.ctx) ∧ (s'.req ep1InReq).buffer = .small))
      (fun e _ => Blocked s e) s := by
  have hnext : ∀ rem : UInt64, remAfter s = rem → Post fbRxDataComplete.next
      (fun _ s' => s'.mem = s.mem ∧ (remAfter s = 0 → s'.inPacket =
        bytes "INFO" ++ scnprintf 60 (fbLoadedText s.ctx) ∧ (s'.req ep1InReq).buffer = .small))
      (fun e _ => Blocked s e) (s.setCtx fun fb => { fb with loadRem := rem }) := by
    intro rem hrem
    rw [fbRxDataComplete.next, post_bind, post_get, post_ite]
    refine ⟨fun _ => post_bind.2 ?_, fun hz => ?_⟩
    · refine (fbRxCmd_post (s := setCtx _ s) hs hc _).imp ?_
      intro _ s₁ h
      obtain ⟨h₁, -, -⟩ := h
      rw [post_bind, post_get]
      refine (fbEndCommandWithInfo_sends s₁ _).mono ?_ fun e _ he => ?_
      · intro _ s₂ h
        obtain ⟨h₂, -⟩ := h
        refine ⟨h₂.mem.trans h₁.mem, fun _ => ⟨?_, h₂.buffer⟩⟩
        rw [h₂.packet, h₁.ctx]
        rfl
      · rwa [Blocked, h₁.in_reqs] at he
    · refine (fbRxData_post (s := setCtx _ s) hs hc _).imp fun _ s₁ h₁ => ⟨h₁.1.mem, fun h => ?_⟩
      exact absurd (hrem.symm.trans h) hz
  rw [fbRxDataComplete, post_bind, post_get, post_ite]
  refine ⟨fun h => absurd h.2 (by simp [hc]), fun _ => ?_⟩
  simp only [post_bind, post_ite, post_modify, Bool.not_eq_true', Bool.not_eq_false]
  refine ⟨fun he => hnext _ (by rw [remAfter, he]; rfl), fun he => ?_⟩
  exact hnext s.ctx.loadRem (by rw [remAfter, he]; rfl)

/-- The round that completes a chunk, for the memory and the packet. -/
theorem data_round_sends (hr : Receiving s) (hin : s.reqs ep1InReq.ix = none) :
    Post (usbdCompletions.round fbClient.call ep1OutReq.ix)
      (fun _ s' => s'.mem = s.mem ∧ (remDone s = 0 → s'.inPacket =
        bytes "INFO" ++ scnprintf 60 (fbLoadedText s.ctx) ∧ (s'.req ep1InReq).buffer = .small))
      (fun _ _ => False) s := by
  refine post_usbdCompletions_round.2 ⟨fun h => by simp [hr.slot] at h, fun r hr' => ?_⟩
  obtain rfl := Option.some.inj (hr'.symm.trans hr.slot)
  set s₁ := completed ep1OutReq (s.setSlot ep1OutReq.ix none) with hs₁
  have hcomplete : (s₁.req ep1OutReq).complete = some (.client .rxDataComplete) := by
    rw [hs₁, completed_req, Function.update_self]
    exact hr.complete
  have hcancel : (s₁.req ep1OutReq).cancel = false := by
    rw [hs₁, completed_req, Function.update_self]
    exact hr.cancel
  have hslot : s₁.reqs ep1OutReq.ix = none := by
    rw [hs₁, completed_reqs, setSlot_reqs, Function.update_self]
  have hslot' : s₁.reqs ep1InReq.ix = none := by
    rw [hs₁, completed_reqs, setSlot_reqs, Function.update_of_ne (by decide)]
    exact hin
  refine post_usbdReqComplete.2 ⟨fun hn => absurd hn (by simp [hr.complete]), fun _ => ?_⟩
  refine post_usbdNotify.2 ⟨fun hn => absurd (hn.symm.trans hcomplete) (by simp), fun c hc => ?_⟩
  obtain rfl := Option.some.inj (hc.symm.trans hcomplete)
  exact (fbRxDataComplete_sends hslot hcancel).mono (fun _ _ h' => h') fun _ _ he => he.2 hslot'

/-- What is left after a chunk. -/
theorem DataCompletion.toNat_remDone {f : Finish} (h : DataCompletion f s) :
    f.data.length ≤ s.ctx.loadRem.toNat ∧
      (remDone (finish ep1OutReq.ix f s)).toNat = s.ctx.loadRem.toNat - f.data.length := by
  set s₀ := finish ep1OutReq.ix f s with hs₀
  have hsts : (s₀.td ep1OutReq.ix).sizeIocSts = f.sizeIocSts := finish_sizeIocSts f _
  have hu := (finish_untouched ep1OutReq.ix f s).1
  rw [← hs₀] at hu
  have herr : ((s₀.completed ep1OutReq).req ep1OutReq).error =
      decide (f.sizeIocSts &&& usbdTdErrorMask ≠ 0) := by
    rw [completed_req, Function.update_self, ← hsts]
  have hio : ((s₀.completed ep1OutReq).req ep1OutReq).ioDone =
      (s.req ep1OutReq).bufferLength - (f.sizeIocSts &&& usbdTdPacketSize) >>> 16 := by
    rw [completed_req, Function.update_self, ← hsts, hu.req]
  have hrem : (s₀.completed ep1OutReq).ctx.loadRem = s.ctx.loadRem := by
    rw [completed_ctx, hu.ctx]
  rw [remDone, remAfter, herr, hrem, hio]
  by_cases he : f.sizeIocSts &&& usbdTdErrorMask = 0
  · have hlen := h.done he
    have hle : (s.req ep1OutReq).bufferLength.toNat ≤ s.ctx.loadRem.toNat := by
      rw [h.receiving.bufferLength, UInt32.toNat_min, UInt64.toNat_toUInt32]
      exact (Nat.min_le_left _ _).trans (Nat.mod_le _ _)
    have hdone : ((s.req ep1OutReq).bufferLength -
        (f.sizeIocSts &&& usbdTdPacketSize) >>> 16).toUInt64.toNat = f.data.length := by
      rw [UInt32.toNat_toUInt64, UInt32.toNat_sub_of_le _ _ (UInt32.le_iff_toNat_le.2 (by omega))]
      omega
    refine ⟨by omega, ?_⟩
    rw [if_neg (by simp [he]), UInt64.toNat_sub_of_le _ _ (UInt64.le_iff_toNat_le.2 (by omega)), hdone]
  · rw [h.failed he, if_pos (by simpa using he)]
    exact ⟨Nat.zero_le _, by simp⟩

/-- **A chunk goes behind the bytes that have come**, and the next one is asked for, or the download
is answered. -/
theorem data_post {n : Nat} {d : List UInt8} {f : Finish} (h : FbOk s) (hn : n < 2 ^ 32)
    (hd : Reassembled n d s) (hf : DataCompletion f s) :
    Post (fbPoll (.transfer ep1OutReq.ix f))
      (fun _ s' => FbOk s' ∧ Reassembled n (d ++ f.data) s' ∧
        ((d ++ f.data).length = n → (s'.req ep1InReq).buffer = .small)) (fun _ _ => False) s := by
  have hrecv := hf.receiving
  have hlt : d.length < n := by
    refine lt_of_le_of_ne hd.le fun heq => ?_
    exact (hd.last heq).1.not_receiving hrecv
  obtain ⟨-, -, hin⟩ := hd.more hlt
  obtain ⟨hle, hrem⟩ := hf.toNat_remDone
  obtain ⟨hmem, -⟩ := finish_out f hrecv.slot hrecv.buffer
  have hu := (finish_untouched ep1OutReq.ix f s).1
  set s₀ := finish ep1OutReq.ix f s with hs₀
  have hrecv₀ := hu.receiving hrecv
  have hin₀ : s₀.reqs ep1InReq.ix = none := by rw [hu.reqs]; exact hin
  rw [fbPoll, post_usbdPoll_transfer _ (by decide), ← hs₀]
  refine ((round_ep1Out_post (h.of_untouched hu) hrecv₀.slot).and
    (data_round_sends hrecv₀ hin₀)).mono ?_ fun _ _ he => he.2
  rintro - s' ⟨⟨hok, hdone⟩, hmem', hinfo⟩
  refine ⟨hok, ?_⟩
  obtain ⟨-, hload, hlast, hmore⟩ := hdone.out.data hrecv₀
  simp only [FbMem.load, Prod.mk.injEq, hu.ctx] at hload
  obtain ⟨hl, hs, hr, -⟩ := hload
  have hrem' : s'.ctx.loadRem.toNat = n - (d ++ f.data).length := by
    rw [hr, hrem, hd.rem, List.length_append]
    omega
  have hle' : (d ++ f.data).length ≤ n := by
    rw [List.length_append]
    have := hd.rem
    omega
  have hzero : remDone s₀ = 0 ↔ (d ++ f.data).length = n := by
    rw [← UInt64.toNat_inj, ← hr, hrem']
    simp only [UInt64.toNat_zero]
    omega
  refine ⟨⟨by rw [hs, hd.size], hle', hrem', ?_, fun hlt' => ?_, fun heq => ?_⟩,
    fun heq => (hinfo (hzero.2 heq)).2⟩
  · -- the buffer is where the bytes end
    have hoff : s.ctx.loadSize - s.ctx.loadRem = UInt64.ofNat d.length := by
      rw [← UInt64.toNat_inj, UInt64.toNat_sub_of_le _ _ (UInt64.le_iff_toNat_le.2 (by
        rw [hd.size, hd.rem]; omega)), hd.size, hd.rem,
        UInt64.toNat_ofNat_of_lt' (show _ < 2 ^ 64 by omega)]
      omega
    have hload : s'.load s'.ctx.lastLoaded (d ++ f.data).length =
        (s.store (s.ctx.lastLoaded + UInt64.ofNat d.length) f.data).load s.ctx.lastLoaded
          (d ++ f.data).length := by
      simp only [load, hl, hmem', hmem, hoff]
    rw [hload]
    refine load_store_append hd.stored ?_
    rw [List.length_append] at hle'
    omega
  · obtain ⟨hrecv', hslot, -⟩ := hmore fun h => absurd (hzero.1 h) (by omega)
    refine ⟨hrecv', ?_, by rw [hslot, hu.reqs]; exact hin⟩
    rw [hrecv'.bufferLength, UInt32.toNat_min, UInt64.toNat_toUInt32, hrem']
    exact (Nat.min_le_left _ _).trans (Nat.mod_le _ _)
  · have hz := hzero.2 heq
    refine ⟨(hlast hz).1, (hlast hz).2, ?_⟩
    rw [(hinfo hz).1]
    simp only [fbLoadedText, hu.ctx, hl, hs]

/-- The tables that `lmb_alloc_base` is called with in a `download:`. -/
def FbMem.discarded (fb : FbMem) : Option Lmb :=
  if fb.lastLoaded ≠ 0 then
    (lmbFree fb.lmb fb.lastLoaded fb.loadSize fb.loadAlign).map Prod.snd
  else some fb.lmb

/-- A `download:` of `size` bytes has got a block. -/
structure FbMem.Accepted (size : UInt64) (fb fb' : FbMem) : Prop where
  loadSize : fb'.loadSize = size
  loadAlign : fb'.loadAlign = downloadAlignment
  alloc : ∃ lmb, fb.discarded = some lmb ∧
    lmbAllocBase lmb size downloadAlignment lmbAlloc32Bit .boot tagDlod =
      some (fb'.lastLoaded, fb'.lmb)

theorem FbMem.Accepted.of_image {size : UInt64} {fb fb' fb₁ fb₁' : FbMem}
    (h : fb.Accepted size fb') (hfb : fb₁.image = fb.image) (hfb' : fb₁'.image = fb'.image) :
    fb₁.Accepted size fb₁' := by
  simp only [FbMem.image, Prod.mk.injEq] at hfb hfb'
  obtain ⟨h1, h2, h3, h4⟩ := hfb
  obtain ⟨h1', h2', h3', h4'⟩ := hfb'
  obtain ⟨hsize, halign, lmb, hdisc, halloc⟩ := h
  refine ⟨h3'.trans hsize, h4'.trans halign, lmb, ?_, by rw [h1', h2']; exact halloc⟩
  rwa [discarded, h1, h2, h3, h4]

theorem fbCmdDownload_discard_discarded (s : Fb) : Post fbCmdDownload.discard
    (fun _ s' => s.ctx.discarded = some s'.ctx.lmb ∧ s'.ctx.lastLoaded = 0) (fun _ _ => True) s := by
  simp only [fbCmdDownload.discard, FbMem.discarded, post_bind, post_get, post_ite, post_pure]
  refine ⟨fun h0 => post_lmbCall.2 ⟨fun _ => trivial, fun r lmb hfree => post_modify.2 ⟨?_, rfl⟩⟩,
    fun h0 => ⟨if_neg h0, not_not.1 h0⟩⟩
  rw [if_pos h0, hfree]
  rfl

/-- `download:` keeps the size that it has read, with the block that it gets. -/
theorem fbCmdDownload_accepted (n : Nat) (cmd : List UInt8) :
    Post (fbCmdDownload (usbdCall (fbComplete n)) cmd)
      (fun _ s' => s'.ctx.lastLoaded ≠ 0 → s.ctx.Accepted (simpleStrtoull cmd 16).1 s'.ctx)
      (fun _ _ => True) s := by
  rw [fbCmdDownload, post_bind]
  refine (fbCmdDownload_discard_discarded s).imp ?_
  rintro - s₁ ⟨hdisc, h0⟩
  rcases simpleStrtoull cmd 16 with ⟨size, cmd⟩
  simp only [post_ite, post_pure]
  refine ⟨fun _ h => absurd h0 h, fun _ => ?_⟩
  rw [post_bind, post_lmbCall]
  refine ⟨fun _ => trivial, fun addr lmb halloc => ?_⟩
  simp only [post_bind, post_modify, post_ite, post_pure]
  refine ⟨fun ha h => absurd ha h, fun _ => ?_⟩
  refine (fbCancel_frames n ep1OutReq _).mono (fun _ s₂ h₂ => ?_) fun _ _ _ => trivial
  refine (fbRequestData_frames.post h₂).mono (fun _ s₃ h₃ => ?_) fun _ _ _ => trivial
  refine (fbRxData_frames.post h₃).mono (fun _ s₄ h₄ _ => ?_) fun _ _ _ => trivial
  have himage := congrArg Prod.fst h₄
  simp only [view, FbMem.image, setCtx_ctx, Prod.mk.injEq] at himage
  obtain ⟨h1, h2, h3, h4⟩ := himage
  exact ⟨h3, h4, s₁.ctx.lmb, hdisc, by rw [h1, h2]; exact halloc⟩

/-- A command that starts a download. -/
theorem download_post {f : Finish} {cmd : List UInt8} (h : FbOk s)
    (hsel : UsbdStep.selected (.complete ep1OutReq.ix) (finish ep1OutReq.ix f s) =
      some (.download cmd)) :
    Post (fbPoll (.transfer ep1OutReq.ix f))
      (fun _ s' => FbOk s' ∧ (Receiving s' → s.ctx.Accepted (simpleStrtoull cmd 16).1 s'.ctx ∧
        s'.ctx.lastLoaded ≠ 0 ∧ s'.ctx.loadRem = s'.ctx.loadSize ∧ Busy none s'))
      (fun _ _ => True) s := by
  have hu := (finish_untouched ep1OutReq.ix f s).1
  have h₀ := h.of_untouched hu
  obtain ⟨-, hlisten, hok, hcmd⟩ := UsbdStep.selected_eq_some hsel
  rw [fbPoll, post_usbdPoll_transfer _ (by decide)]
  have haccepted := step_command hsel (P := fun fb => fb.lastLoaded ≠ 0 →
    s.ctx.Accepted (simpleStrtoull cmd 16).1 fb) (fun {fb fb'} himage hP hne => ?_)
    fun s₁ h₁ => (fbCmdDownload_accepted 1 cmd).imp fun _ s' hs' hne =>
      (hs' hne).of_image (by rw [h₁, hu.ctx]) rfl
  swap
  · have hsame := himage
    simp only [FbMem.image, Prod.mk.injEq] at hsame
    rw [hsame.2.1] at hne
    exact (hP hne).of_image rfl himage
  refine ((step_post h₀ (.complete ep1OutReq.ix)).and haccepted).mono ?_ fun _ _ _ => trivial
  rintro - s' ⟨⟨hok', hdone⟩, haccepted'⟩
  refine ⟨hok', fun hrecv => ?_⟩
  cases hdone with
  | complete hdone =>
    obtain ⟨-, hans⟩ := hdone.out.command hlisten hok
    cases hans with
    | responds _ hout => exact absurd hrecv hout.not_receiving
    | flash _ _ _ _ hout => exact absurd hrecv hout.not_receiving
    | download _ hloaded hrem hin => exact ⟨haccepted' hloaded, hloaded, hrem, hin⟩

/-- The completion of the response to `download:`. -/
theorem dataResponse_post (h : FbOk s) (hr : Receiving s) (hin : Busy none s) (f : Finish)
    (E : Halt → Fb → Prop) :
    Post (fbPoll (.transfer ep1InReq.ix f))
      (fun _ s' => FbOk s' ∧ Receiving s' ∧ s'.reqs ep1InReq.ix = none ∧ s'.ctx = s.ctx) E s := by
  have hu := (finish_untouched ep1InReq.ix f s).1
  rw [fbPoll, post_usbdPoll_transfer _ (by decide)]
  set s₀ := finish ep1InReq.ix f s with hs₀
  have hslot : s₀.reqs ep1InReq.ix = some ep1InReq := by rw [hu.reqs]; exact hin.1
  have hnone : (s₀.req ep1InReq).complete = none := by rw [hu.req]; exact hin.2
  refine post_usbdCompletions_round.2 ⟨fun hn => by simp [hslot] at hn, fun r hr' => ?_⟩
  obtain rfl := Option.some.inj (hr'.symm.trans hslot)
  have htaken : InTaken s₀ (s₀.setSlot ep1InReq.ix none) := by
    refine ⟨.setSlot rfl rfl, rfl, rfl, ?_, rfl⟩
    rw [setSlot_reqs, Function.update_self]
  have hrecv := (hu.receiving hr).of_keeps htaken.keeps rfl
  refine post_usbdReqComplete.2 ⟨fun _ => ⟨?_, hrecv, htaken.slot, hu.ctx⟩, fun hne =>
    absurd hnone hne⟩
  have h₀ := h.of_untouched hu
  have hcfg : Configured s₀ := h₀.ep1.resolve_left fun hu' =>
    absurd ((hu.receiving hr).slot.symm.trans hu'.out) (by simp)
  exact ⟨h₀.ep0.of_keeps htaken.keeps.ep1_in,
    ⟨.inl htaken.slot, fun c hc => h₀.inOk.kind c hc⟩, .inr ⟨hcfg.config, .inr hrecv⟩⟩

end

instance (f : Finish) (s : Fb) : Decidable (DataCompletion f s) :=
  decidable_of_iff (Receiving s ∧ (f.sizeIocSts &&& usbdTdErrorMask ≠ 0 → f.data = []) ∧
      (f.sizeIocSts &&& usbdTdErrorMask = 0 →
        ((f.sizeIocSts &&& usbdTdPacketSize) >>> 16).toNat + f.data.length =
          (s.req ep1OutReq).bufferLength.toNat))
    ⟨fun ⟨h1, h2, h3⟩ => ⟨h1, h2, h3⟩, fun ⟨h1, h2, h3⟩ => ⟨h1, h2, h3⟩⟩

end ShieldLoader
