import ShieldLoader.Fb.Packets
import ShieldLoader.Fb.Rounds

/-!
# Replies

What the IN request holds after a command and between the packets of its reply. A command that
returns `FB_OK` has submitted its first packet, and one that returns anything else has submitted
nothing.
-/

namespace ShieldLoader

open EStateM Usbd

/-- A packet with more to come. -/
def IsInfo (p : List UInt8) : Prop := bytes "INFO" <+: p

/-- The packet that ends a reply. -/
def IsFinal (p : List UInt8) : Prop := bytes "OKAY" <+: p ∨ bytes "FAIL" <+: p

/-- The callbacks of the last packet of a reply. -/
def FbComplete.IsLast (k : FbComplete) : Prop :=
  k ∈ [.endCommandComplete, .cmdRebootComplete, .cmdFlashComplete]

instance : DecidablePred FbComplete.IsLast := fun k => inferInstanceAs (Decidable (k ∈ _))

/-- A packet of a reply is in the IN request, and at most `n` come after it. -/
inductive Replying (s : Fb) : Nat → Prop
  | last {k : FbComplete} (hk : k.IsLast) (hb : Busy (some (.client k)) s)
      (hp : IsFinal s.inPacket) : Replying s 0
  | info (hb : Busy (some (.client .endCommandWithInfoComplete)) s) (hp : IsInfo s.inPacket) :
      Replying s 1
  | peek (hb : Busy (some (.client .oemCmdPeekExe)) s) (hp : IsInfo s.inPacket)
      (ha : isAccess s.ctx.peek.access = true) : Replying s (s.ctx.peek.items.toNat + 1)

/-- The response to a `download:` of `n` bytes. -/
def dataPacket (n : UInt64) : List UInt8 := bytes "DATA" ++ fmtHexPad 8 n.toUInt32.toUInt64

/-- The IN request uses its small buffer. -/
def InSmall (s : Fb) : Prop := (s.req ep1InReq).buffer = .small

/-- The first packet of a reply has been submitted; `down` says whether the command is
`download:`. -/
inductive Replied (down : Bool) (s : Fb) : Prop
  | reply {n : Nat} (h : Replying s n)
  | data (hdown : down = true) (hb : Busy none s) (hp : s.inPacket = dataPacket s.ctx.loadSize)

/-- A command has returned the status `st`: it has sent a packet or failed, and not both. -/
structure Returned (down : Bool) (st : FbStatus) (s : Fb) : Prop where
  small : InSmall s
  result : st ∈ fbFailures ∧ s.reqs ep1InReq.ix = none ∨ st = fbOk ∧ Replied down s

theorem Replying.busy {s : Fb} {n : Nat} (h : Replying s n) :
    s.reqs ep1InReq.ix = some ep1InReq := by
  cases h with
  | last _ hb => exact hb.1
  | info hb => exact hb.1
  | peek hb => exact hb.1

theorem Replying.not_busy {s : Fb} {n : Nat} (h : Replying s n) : ¬Busy none s := by
  intro hn
  cases h with
  | last _ hb => exact absurd (hb.2.symm.trans hn.2) (by simp)
  | info hb => exact absurd (hb.2.symm.trans hn.2) (by simp)
  | peek hb => exact absurd (hb.2.symm.trans hn.2) (by simp)

theorem Replied.busy {down : Bool} {s : Fb} (h : Replied down s) :
    s.reqs ep1InReq.ix = some ep1InReq := by
  cases h with
  | reply h => exact h.busy
  | data _ hb => exact hb.1

theorem Sends.busy {p : List UInt8} {c : Option (Complete FbComplete)} {s s' : Fb}
    (h : Sends p c s s') : Busy c s' := h.responds.busy

theorem Sends.inSmall {p : List UInt8} {c : Option (Complete FbComplete)} {s s' : Fb}
    (h : Sends p c s s') : InSmall s' := h.buffer

theorem Sends.last {p : List UInt8} {k : FbComplete} {s s' : Fb}
    (h : Sends p (some (.client k)) s s') (hk : k.IsLast) (hp : IsFinal p) : Replying s' 0 :=
  .last hk h.busy (h.packet ▸ hp)

theorem Sends.info {t : List UInt8} {s s' : Fb}
    (h : Sends (bytes "INFO" ++ t) (some (.client .endCommandWithInfoComplete)) s s') :
    Replying s' 1 :=
  .info h.busy (by rw [IsInfo, h.packet]; exact List.prefix_append _ _)

/-- The status of a failure is a packet that ends a reply. -/
theorem isFinal_of_mem {st : FbStatus} (h : st ∈ fbOk :: fbFailures) :
    IsFinal (st.getD (bytes "OKAY") ++ [0]) ∧ (st.getD (bytes "OKAY")).length < 64 := by
  have hall : ∀ st ∈ fbOk :: fbFailures, (bytes "OKAY" <+: st.getD (bytes "OKAY") ++ [0] ∨
      bytes "FAIL" <+: st.getD (bytes "OKAY") ++ [0]) ∧ (st.getD (bytes "OKAY")).length < 64 := by
    decide
  exact hall st h

/-! ### Handlers -/

section
variable {s : Fb} {down : Bool}

/-- Code that sends one packet sends it when the slot is empty. -/
theorem sends_returned {r : FbM Unit} {p : List UInt8} {c : Option (Complete FbComplete)}
    (hr : Post r (fun _ s' => Sends p c s s' ∧ s'.ctx = s.ctx) (fun e _ => Blocked s e) s)
    (hs : s.reqs ep1InReq.ix = none) (hreply : ∀ s', Sends p c s s' → Replied down s') :
    Post (r >>= fun _ => pure fbOk) (Returned down) (fun e _ => e = .lmbOverrun) s := by
  refine post_bind.2 (hr.mono (fun _ s' h => ?_) fun _ _ he => absurd hs he.2)
  exact post_pure.2 ⟨h.1.inSmall, .inr ⟨rfl, hreply s' h.1⟩⟩

theorem Returned.of_fail {st : FbStatus} (h : st ∈ fbFailures) (hs : s.reqs ep1InReq.ix = none)
    (hb : InSmall s) : Returned down st s := ⟨hb, .inl ⟨h, hs⟩⟩

/-- A handler sends one packet or fails. -/
theorem Handler.returned {W : FbEffect → Prop} {x : FbM FbStatus} (h : Handler W x)
    (hs : s.reqs ep1InReq.ix = none) (hb : InSmall s) :
    Post x (Returned down) (fun e _ => e = .lmbOverrun) s := by
  induction h generalizing s with
  | fail h => exact post_pure.2 (.of_fail h hs hb)
  | endCommand =>
    obtain ⟨hfinal, hlen⟩ := @isFinal_of_mem fbOk (by simp)
    exact sends_returned (fbEndCommand_sends s hlen) hs fun _ h => .reply (h.last (by decide) hfinal)
  | endCommandWithInfo info =>
    exact sends_returned (fbEndCommandWithInfo_sends s info) hs fun _ h => .reply h.info
  | reboot =>
    obtain ⟨hfinal, hlen⟩ := @isFinal_of_mem fbOk (by simp)
    exact sends_returned (fbEndCommandWithCustomComplete_sends s .cmdRebootComplete hlen) hs fun _ h =>
      .reply (h.last (by decide) hfinal)
  | @peek f h =>
    rw [post_bind, post_modify, post_bind]
    obtain ⟨hfinal, -⟩ := @isFinal_of_mem fbOk (by simp)
    refine (@fbOemCmdPeekExe_sends none (s.setCtx fun fb => { fb with peek := f fb }) hb (h _)
      rfl).mono ?_ fun _ _ he => absurd hs he.2
    rintro - s' (⟨hp, -⟩ | ⟨⟨t, hp⟩, -, ha, -⟩)
    · exact post_pure.2 ⟨hp.inSmall, .inr ⟨rfl, .reply (hp.last (by decide) hfinal)⟩⟩
    · refine post_pure.2 ⟨hp.inSmall, .inr ⟨rfl, .reply (.peek hp.busy ?_ (ha ▸ h _))⟩⟩
      rw [IsInfo, hp.packet]
      exact List.prefix_append _ _
  | setCtx hcmd hload hlmb hx ih => exact post_bind.2 (post_modify.2 (ih hs hb))
  | store h a data hx ih => exact post_bind.2 (post_modify.2 (ih hs hb))
  | get hf ih => exact post_bind.2 (post_get.2 (ih s hs hb))
  | lmbCall h hf ih =>
    exact post_bind.2 (post_lmbCall.2 ⟨fun _ => rfl, fun a lmb _ => ih a hs hb⟩)

theorem fbCmdFlash_returned (cmd : List UInt8) (hs : s.reqs ep1InReq.ix = none) (hb : InSmall s) :
    Post (fbCmdFlash cmd) (Returned down) (fun e _ => e = .lmbOverrun) s := by
  rw [fbCmdFlash, post_ite]
  refine ⟨fun _ => post_pure.2 (.of_fail (by simp [fbFailures]) hs hb), fun _ => ?_⟩
  rw [post_bind, post_get, post_ite]
  refine ⟨fun _ => post_pure.2 (.of_fail (by simp [fbFailures]) hs hb), fun _ => ?_⟩
  obtain ⟨hfinal, hlen⟩ := @isFinal_of_mem fbOk (by simp)
  exact sends_returned (fbEndCommandWithCustomComplete_sends s .cmdFlashComplete hlen) hs fun _ h =>
    .reply (h.last (by decide) hfinal)

/-- `download:` asks for data or fails. -/
theorem fbCmdDownload_returned {n : Nat} (cmd : List UInt8) (hout : Listening s)
    (hs : s.reqs ep1InReq.ix = none) (hb : InSmall s) :
    Post (fbCmdDownload (usbdCall (fbComplete (n + 1))) cmd) (Returned true)
      (fun e _ => e = .lmbOverrun) s := by
  rw [fbCmdDownload, post_bind]
  refine (fbCmdDownload_discard_post s).imp ?_
  rintro - s₁ ⟨h₁, -⟩
  rw [h₁]
  generalize s₁.ctx = fb
  rcases simpleStrtoull cmd 16 with ⟨size, cmd⟩
  simp only [post_ite, post_pure]
  refine ⟨fun _ => .of_fail (by simp [fbFailures]) hs hb, fun _ => ?_⟩
  rw [post_bind, post_lmbCall]
  refine ⟨fun _ => rfl, fun addr lmb _ => ?_⟩
  simp only [post_bind, post_modify, post_ite, post_pure]
  refine ⟨fun _ => .of_fail (by simp [fbFailures]) hs hb, fun _ => ?_⟩
  refine (fbCancelOut_post ?_ _).imp ?_
  · exact .inr (.inl { hout with })
  rintro - s₂ ⟨h₂, hslot, hcancel⟩
  have hs₂ : s₂.reqs ep1InReq.ix = none := h₂.in_reqs.trans hs
  refine (fbRequestData_sends s₂).mono ?_ fun _ _ he => absurd hs₂ he.2
  rintro - s₃ ⟨h₃, hctx⟩
  have hslot₃ := h₃.responds.1.keeps.out_reqs.trans hslot
  have hcancel₃ : (s₃.req ep1OutReq).cancel = false := by
    rw [h₃.responds.1.keeps.out_req]
    exact hcancel
  refine (fbRxData_post hslot₃ hcancel₃ _).imp ?_
  rintro - s₄ ⟨h₄, -⟩
  refine ⟨by rw [InSmall, h₄.in_req]; exact h₃.buffer, .inr ⟨rfl, .data rfl (h₃.busy.of_outOnly h₄) ?_⟩⟩
  rw [inPacket_congr h₄.in_req (by rw [h₄.small]) h₃.buffer, h₃.packet, h₄.ctx, hctx]
  rfl

/-- **Every command sends its first packet and returns `FB_OK`, or returns a failure and sends
nothing.** -/
theorem fbDispatch_returned {n : Nat} (sel : FbSelected) (hout : Listening s)
    (hs : s.reqs ep1InReq.ix = none) (hb : InSmall s) :
    Post (fbDispatch (usbdCall (fbComplete (n + 1))) sel) (Returned sel.IsDownload)
      (fun e _ => e = .lmbOverrun) s := by
  cases sel with
  | oem cmd =>
    exact (fbCmdOem_handler (W := fun _ => True) cmd (fun _ => trivial) fun _ =>
      trivial).returned hs hb
  | reboot type => exact (fbCmdReboot_handler (W := fun _ => True) type).returned hs hb
  | download cmd => exact fbCmdDownload_returned cmd hout hs hb
  | flash cmd => exact fbCmdFlash_returned cmd hs hb
  | unknown => exact post_pure.2 (.of_fail (by simp [fbFailures]) hs hb)

/-! ### The callback of commands -/

/-- The device is about to carry out a command that has come in `s`. -/
structure CommandReady (s s' : Fb) : Prop where
  listening : Listening s'
  slot : s'.reqs ep1InReq.ix = none
  small : InSmall s'
  mem : s'.mem = s.mem

/-- How `fb_rx_cmd_complete` ends: a failure is sent. -/
def fbRxCmdComplete.result (call : Complete FbComplete → Req → FbM Unit) (sel : FbSelected) :
    FbM Unit := do
  let status ← fbDispatch call sel
  if status = fbOk then pure () else fbEndCommand status

/-- A command that finds the IN slot empty is carried out. -/
theorem fbRxCmdComplete_dispatches {call : Complete FbComplete → Req → FbM Unit}
    {Q : Unit → Fb → Prop} {E : Halt → Fb → Prop} (hs : s.reqs ep1OutReq.ix = none)
    (hc : (s.req ep1OutReq).cancel = false) (hb : (s.req ep1OutReq).buffer = .small)
    (he : (s.req ep1OutReq).error = false) (hin : s.reqs ep1InReq.ix = none) (hsmall : InSmall s)
    (h : ∀ s', CommandReady s s' →
      Post (fbRxCmdComplete.result call (fbSelect s.commandText)) Q E s') :
    Post (fbRxCmdComplete call ep1OutReq) Q E s := by
  simp only [fbRxCmdComplete, post_bind, post_get, hc, hb, Bool.not_false, if_true]
  refine (fbRxCmd_post hs hc _).imp ?_
  intro _ s₁ h₁'
  obtain ⟨h₁, hout₁, herr⟩ := h₁'
  -- from here on the state is `s₁` with other values of `in_command`
  have hcommand : ∀ f : FbMem → FbMem,
      Post (fbRxCmdComplete.command call ep1OutReq .small) Q E (s₁.setCtx f) := by
    intro f
    simp only [fbRxCmdComplete.command, post_bind, post_modify, post_get]
    set s₂ := storeBuffer ep1OutReq .small 63 [0]
      (setCtx (fun fb => { fb with inCommand := true }) (s₁.setCtx f)) with hs₂
    have hreqs : s₂.reqs = s₁.reqs := by rw [hs₂, storeBuffer_reqs, setCtx_reqs, setCtx_reqs]
    have hreq : s₂.req = s₁.req := by rw [hs₂, storeBuffer_req, setCtx_req, setCtx_req]
    have htext : s₂.loadBuffer ep1OutReq .small 64 = s.commandText :=
      commandText_of_small (congrFun h₁.small ep1OutReq)
    have hout₂ : Listening s₂ := ⟨hreqs ▸ hout₁.slot, hreq ▸ hout₁.complete, hreq ▸ hout₁.buffer,
      hreq ▸ hout₁.bufferLength, hreq ▸ hout₁.cancel⟩
    have hpost := h s₂ ⟨hout₂, ?_, ?_, h₁.mem⟩
    · rw [fbRxCmdComplete.result, post_bind] at hpost
      rw [htext]
      exact hpost
    · rw [hreqs, h₁.in_reqs]
      exact hin
    · rw [InSmall, hreq, h₁.in_req]
      exact hsmall
  simp only [post_ite, post_bind, post_modify, post_pure, post_get]
  refine ⟨fun h => absurd (herr.symm.trans h) (by simp [he]), fun _ => ⟨fun _ => ?_, fun _ => ?_⟩⟩
  · -- nothing is there to cancel
    refine post_usbdReqCancel.2 ⟨fun _ => hcommand _, fun hslot => ?_⟩
    rw [setCtx_reqs, h₁.in_reqs, hin] at hslot
    exact absurd hslot (by simp)
  · exact hcommand id

/-- A command that finds the IN slot empty is answered. -/
theorem fbRxCmdComplete_replied {n : Nat} (hs : s.reqs ep1OutReq.ix = none)
    (hc : (s.req ep1OutReq).cancel = false) (hb : (s.req ep1OutReq).buffer = .small)
    (he : (s.req ep1OutReq).error = false) (hin : s.reqs ep1InReq.ix = none) (hsmall : InSmall s) :
    Post (fbRxCmdComplete (usbdCall (fbComplete (n + 1))) ep1OutReq)
      (fun _ s' => InSmall s' ∧ Replied (fbSelect s.commandText).IsDownload s')
      (fun e _ => e = .lmbOverrun) s := by
  refine fbRxCmdComplete_dispatches hs hc hb he hin hsmall fun s₂ h₂ => ?_
  rw [fbRxCmdComplete.result, post_bind]
  refine (fbDispatch_returned _ h₂.listening h₂.slot h₂.small).imp fun st s₃ h₃ => ?_
  rw [post_ite, post_pure]
  refine ⟨fun hst => ?_, fun hst => ?_⟩
  · exact ⟨h₃.small, (h₃.result.resolve_left fun h => ne_fbOk_of_mem h.1 hst).2⟩
  · obtain ⟨hmem, hslot⟩ := h₃.result.resolve_right fun h => hst h.1
    obtain ⟨hfinal, hlen⟩ := isFinal_of_mem (List.mem_cons_of_mem _ hmem)
    refine (fbEndCommand_sends s₃ hlen).mono ?_ fun _ _ h => absurd hslot h.2
    exact fun _ s₄ h => ⟨h.1.inSmall, .reply (h.1.last (by decide) hfinal)⟩

/-- The round that completes a command calls `fb_rx_cmd_complete`. -/
theorem command_round_post {Q : Unit → Fb → Prop} {E : Halt → Fb → Prop} (hl : Listening s)
    (hf : s.failed ep1OutReq.ix = false) (hin : s.reqs ep1InReq.ix = none) (hsmall : InSmall s)
    (h : ∀ s', s'.commandText = s.commandText → s'.mem = s.mem → s'.reqs ep1OutReq.ix = none →
      (s'.req ep1OutReq).cancel = false → (s'.req ep1OutReq).buffer = .small →
      (s'.req ep1OutReq).error = false → s'.reqs ep1InReq.ix = none → InSmall s' →
      Post (fbRxCmdComplete (usbdCall (fbComplete 1)) ep1OutReq) Q E s') :
    Post (usbdCompletions.round fbClient.call ep1OutReq.ix) Q E s := by
  refine post_usbdCompletions_round.2 ⟨fun hn => by simp [hl.slot] at hn, fun r hr => ?_⟩
  obtain rfl := Option.some.inj (hr.symm.trans hl.slot)
  refine post_usbdReqComplete.2 ⟨fun hn => absurd hn (by simp [hl.complete]), fun _ => ?_⟩
  set s₁ := completed ep1OutReq (s.setSlot ep1OutReq.ix none) with hs₁
  have hreq : (s₁.req ep1OutReq).complete = some (.client .rxCmdComplete) ∧
      (s₁.req ep1OutReq).cancel = false ∧ (s₁.req ep1OutReq).buffer = .small ∧
      (s₁.req ep1OutReq).error = false := by
    rw [hs₁, completed_req, Function.update_self]
    exact ⟨hl.complete, hl.cancel, hl.buffer, hf⟩
  have hslot : s₁.reqs ep1OutReq.ix = none := by
    rw [hs₁, completed_reqs, setSlot_reqs, Function.update_self]
  have hin₁ : s₁.reqs ep1InReq.ix = none := by
    rw [hs₁, completed_reqs, setSlot_reqs, Function.update_of_ne (by decide)]
    exact hin
  have hsmall₁ : InSmall s₁ := by
    rw [InSmall, hs₁, completed_req, Function.update_of_ne (by decide)]
    exact hsmall
  refine post_usbdNotify.2 ⟨fun hn => absurd (hn.symm.trans hreq.1) (by simp), fun c hc => ?_⟩
  obtain rfl := Option.some.inj (hc.symm.trans hreq.1)
  exact h s₁ (commandText_of_small rfl) rfl hslot hreq.2.1 hreq.2.2.1 hreq.2.2.2 hin₁ hsmall₁

/-- The round that completes a command. -/
theorem command_round_replied (hl : Listening s) (hf : s.failed ep1OutReq.ix = false)
    (hin : s.reqs ep1InReq.ix = none) (hsmall : InSmall s) :
    Post (usbdCompletions.round fbClient.call ep1OutReq.ix)
      (fun _ s' => InSmall s' ∧ Replied (fbSelect s.commandText).IsDownload s')
      (fun e _ => e = .lmbOverrun) s := by
  refine command_round_post hl hf hin hsmall fun s₁ htext _ hs hc hb he hin hsmall => ?_
  rw [← htext]
  exact fbRxCmdComplete_replied hs hc hb he hin hsmall

end

end ShieldLoader
