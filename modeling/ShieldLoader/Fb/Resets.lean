import ShieldLoader.Fb.Packets
import ShieldLoader.Fb.Rounds

/-!
# Resets and configurations

Each part of `usbd_poll` keeps the invariant of the device: the completions, the SETUP packets of
endpoint 0, a reset of the bus and a new `usbd_init`.
-/

namespace ShieldLoader

open EStateM Usbd

/-! ### Requests that have failed -/

/-- The program has handed over to another one. -/
def Halt.Restarts : Halt → Prop
  | .jump .. | .reboot _ => True
  | _ => False

/-- The response after which the program hands over is still in its slot. -/
def Leaving (s : Fb) : Prop := s.reqs ep1InReq.ix ≠ none ∧ Ends s

section
variable {s : Fb}

/-- A response that has failed is not followed by one that can be in the way. -/
theorem fbNotifyIn_failed {n : Nat} (hin : InOk s) (hs : s.reqs ep1InReq.ix = none)
    (he : (s.req ep1InReq).error = true) :
    Post (usbdNotify (usbdCall (fbComplete (n + 1))) ep1InReq) (fun _ _ => True)
      (fun e _ => e.Restarts ∧ Ends s) s := by
  refine post_usbdNotify.2 ⟨fun _ => trivial, fun c hc => ?_⟩
  obtain ⟨k, hk, rfl⟩ := hin.kind c hc
  cases k with
  | endCommandComplete => exact post_modify.2 trivial
  | endCommandWithInfoComplete =>
    exact (@fbEndCommand_sends s fbOk (by decide)).mono (fun _ _ _ => trivial) fun _ _ h =>
      absurd hs h.2
  | oemCmdPeekExe =>
    simp only [usbdCall, fbComplete, fbOemCmdPeekExe, post_bind, post_get, Option.any_some, he,
      if_true, post_pure]
  | cmdRebootComplete =>
    simp only [usbdCall, fbComplete, fbCmdRebootComplete, usbdFini, post_bind, post_usbdHwReset,
      post_get, post_throw]
    exact ⟨trivial, .inl hc⟩
  | cmdFlashComplete =>
    simp only [usbdCall, fbComplete, fbCmdFlashComplete, usbdFini, post_bind, post_usbdHwReset,
      post_get, post_throw]
    exact ⟨trivial, .inr hc⟩
  | rxCmdComplete => exact absurd hk (by simp [FbComplete.IsIn, FbComplete.IsOem])
  | rxDataComplete => exact absurd hk (by simp [FbComplete.IsIn, FbComplete.IsOem])

theorem fbCancelIn_failed {n : Nat} (hin : InOk s) :
    Post (usbdReqCancel (usbdCall (fbComplete (n + 1))) ep1InReq) (fun _ _ => True)
      (fun e _ => e.Restarts ∧ Leaving s) s := by
  refine post_usbdReqCancel.2 ⟨fun _ => trivial, fun h => ?_⟩
  have hcomplete : ((s.cancelled ep1InReq).req ep1InReq).complete = (s.req ep1InReq).complete := by
    rw [cancelled_req, Function.update_self]
  have hempty : (s.cancelled ep1InReq).reqs ep1InReq.ix = none := by
    rw [cancelled_reqs, Function.update_self]
  refine (fbNotifyIn_failed ⟨.inl hempty, by rw [hcomplete]; exact hin.kind⟩ hempty ?_).mono
    (fun _ _ _ => trivial) fun e _ ⟨he, hends⟩ => ⟨he, by simp [h], ?_⟩
  · rw [cancelled_req, Function.update_self]
  · rwa [Ends, FlashPending, hcomplete] at hends

/-- After a failed transfer of the OUT request only the acknowledgement of a download that is
complete finds the IN slot taken. -/
theorem fbNotifyOut_failed {s₁ : Fb} (hout : Listening s ∨ Receiving s) (h₁ : OutTaken s s₁)
    (he : (s₁.req ep1OutReq).error = true) :
    Post (usbdNotify fbCall ep1OutReq) (fun _ _ => ¬OutBlame true s.ctx.loadRem s)
      (fun e _ => e = .inFlight ep1InReq.ix ∧ OutBlame true s.ctx.loadRem s) s₁ := by
  have hnever : ¬Receiving s → ¬OutBlame true s.ctx.loadRem s := by
    rintro hno (h | h)
    · exact absurd h.2.1 (by decide)
    · exact hno h.1
  rcases hout with hout | hout
  · have hcall := h₁.complete.trans hout.complete
    have hcancel := h₁.cancel.trans hout.cancel
    refine post_usbdNotify.2 ⟨fun h => by simp [h] at hcall, fun c hc => ?_⟩
    obtain rfl := Option.some.inj (hc.symm.trans hcall)
    simp only [fbCall, usbdCall, fbDepth, fbComplete, fbRxCmdComplete, post_bind, post_get, hcancel,
      Bool.not_false, if_true]
    refine (fbRxCmd_post h₁.slot hcancel _).imp ?_
    rintro - s₂ ⟨-, -, herr⟩
    rw [if_pos (herr.trans he), post_pure]
    exact hnever hout.not_receiving
  · have hcall := h₁.complete.trans hout.complete
    have hcancel := h₁.cancel.trans hout.cancel
    have hctx : s₁.ctx.loadRem = s.ctx.loadRem := by rw [h₁.only.ctx]
    refine post_usbdNotify.2 ⟨fun h => by simp [h] at hcall, fun c hc => ?_⟩
    obtain rfl := Option.some.inj (hc.symm.trans hcall)
    simp only [fbCall, usbdCall, fbDepth, fbComplete, fbRxDataComplete, fbRxDataComplete.next,
      post_bind, post_get, hcancel, he, Bool.false_eq_true, and_false, Bool.not_true, post_pure,
      post_ite, hctx, false_imp_iff, not_false_iff, true_imp_iff, true_and]
    refine ⟨fun hz => ?_, fun hz => ?_⟩
    · refine (fbRxCmd_post h₁.slot hcancel _).imp ?_
      rintro - s₂ ⟨h₂, -⟩
      have hslot : s₂.reqs ep1InReq.ix = s.reqs ep1InReq.ix := h₂.in_reqs.trans h₁.only.in_reqs
      by_cases hin : s.reqs ep1InReq.ix = none
      · refine (fbEndCommandWithInfo_sends s₂ _).mono (fun _ _ _ => ?_) fun _ _ h =>
          absurd (hslot.trans hin) h.2
        rintro (h | h)
        · exact absurd h.2.1 (by decide)
        · exact h.2.2 hin
      · refine (fbEndCommandWithInfo_busy (by rwa [hslot])).mono (fun _ _ h => h.elim) ?_
        exact fun _ _ h => ⟨h, .inr ⟨hout, hz, hin⟩⟩
    · refine (fbRxData_post h₁.slot hcancel _).imp fun _ _ _ => ?_
      rintro (h | h)
      · exact absurd h.2.1 (by decide)
      · exact hz h.2.1

end

/-! ### Resets of the bus -/

/-- At most an `OKAY` is on its way. -/
def Calm (s : Fb) : Prop :=
  s.reqs ep1InReq.ix = none ∨ Busy (some (.client .endCommandComplete)) s

/-- A request is out of its slot for a reset of the bus. -/
def Usbd.swept (r : Req) (s : Fb) : Fb :=
  (s.setSlot r.ix none).setReq r fun q => { q with error := true }

/-- Why a round of the sweep stops. -/
inductive SweepStops (ix : Nat) (s : Fb) : Halt → Fb → Prop
  | out {s' : Fb} (hix : ix = ep1OutReq.ix) (h : OutBlame true s.ctx.loadRem s) :
      SweepStops ix s (.inFlight ep1InReq.ix) s'
  | in_ {e : Halt} {s' : Fb} (hix : ix = ep1InReq.ix) (h : CallStops s False e s')
      (he : e.Restarts) (hs : Leaving s) : SweepStops ix s e s'

/-- What a round of the sweep has done. -/
inductive SweepDone (s s' : Fb) : Nat → Prop
  | empty {ix : Nat} (hs : s.reqs ix = none) (h : s' = s) : SweepDone s s' ix
  | ep0 {r : Req} (hr : Ep0 r) (hk : Keeps Ep0 s s') (hctx : s'.ctx = s.ctx) : SweepDone s s' r.ix
  | ep1Out (hout : Listening s ∨ Receiving s) (h : OutDone true s.ctx.loadRem s s')
      (hfree : ¬OutBlame true s.ctx.loadRem s) : SweepDone s s' ep1OutReq.ix
  | ep1In {s₁ : Fb} (hs : s.reqs ep1InReq.ix = some ep1InReq) (h₁ : InTaken s s₁)
      (herr : (s₁.req ep1InReq).error = true) (h : InDone s₁ s') : SweepDone s s' ep1InReq.ix

section
variable {s : Fb} (h : FbOk s)
include h

theorem sweep_ep0_post {r : Req} (hr : Ep0 r) (hs : s.reqs r.ix = some r) :
    Post (usbdPortReset.sweep fbClient.call r.ix) (fun _ s' => FbOk s' ∧ SweepDone s s' r.ix)
      (SweepStops r.ix s) s := by
  have hk : Keeps Ep0 s (s.swept r) := (Keeps.setSlot hr rfl).trans (.setReq hr _)
  have h0 : Ep0Ok (s.swept r) := by
    have hclear := h.ep0.clear r.ix
    have hcomplete : ∀ q, ((s.swept r).req q).complete = (s.req q).complete := by
      intro q
      rw [swept, setReq_req, Function.update_apply]
      split
      · next hq => rw [hq]; rfl
      · rfl
    exact ⟨hclear.outSlot, hclear.inSlot, hclear.others, by rw [hcomplete]; exact h.ep0.outComplete,
      by rw [hcomplete]; exact h.ep0.inComplete⟩
  have hdone : FbOk (s.swept r) ∧ SweepDone s (s.swept r) r.ix :=
    ⟨h.of_same h0 (.of_keeps hk rfl), .ep0 hr hk rfl⟩
  refine post_usbdPortReset_sweep.2 ⟨fun hn => by simp [hs] at hn, fun r' hr' => ?_⟩
  obtain rfl := Option.some.inj (hr'.symm.trans hs)
  refine post_usbdNotify.2 ⟨fun _ => hdone, fun c hc => ?_⟩
  -- only the callback of the IN request is there, and it looks at `error`
  obtain ⟨rfl, rfl⟩ : ep0InReq = r' ∧ c = .ep0InReqComplete := by
    rcases hr with rfl | rfl
    · rw [setReq_req, Function.update_self, setSlot_req] at hc
      exact absurd hc (by simp [h.ep0.outComplete])
    · rw [setReq_req, Function.update_self, setSlot_req] at hc
      replace hc : (s.req ep0InReq).complete = some c := hc
      exact ⟨rfl, by simpa [hc] using h.ep0.inComplete⟩
  simp only [Client.call, usbdCall, usbdEp0InReqComplete, post_bind, post_get, post_ite, post_pure]
  refine ⟨fun _ => hdone, fun he => absurd ?_ he⟩
  rw [setReq_req, Function.update_self]

theorem sweep_ep1Out_post (hs : s.reqs ep1OutReq.ix = some ep1OutReq) :
    Post (usbdPortReset.sweep fbClient.call ep1OutReq.ix)
      (fun _ s' => FbOk s' ∧ SweepDone s s' ep1OutReq.ix)
      (SweepStops ep1OutReq.ix s) s := by
  have hcfg : Configured s := h.ep1.resolve_left fun hu => by simp [hu.out] at hs
  refine post_usbdPortReset_sweep.2 ⟨fun hn => by simp [hs] at hn, fun r hr => ?_⟩
  obtain rfl := Option.some.inj (hr.symm.trans hs)
  have h₁ : OutTaken s (s.swept ep1OutReq) := by
    refine ⟨⟨(Keeps.setSlot rfl rfl).trans (.setReq rfl _), rfl, rfl, rfl⟩, ?_, ?_, ?_, ?_⟩
    · rw [swept, setReq_reqs, setSlot_reqs, Function.update_self]
    all_goals rw [swept, setReq_req, Function.update_self]; rfl
  have herr : ((s.swept ep1OutReq).req ep1OutReq).error = true := by
    rw [swept, setReq_req, Function.update_self]
  have hrem : remAfter (s.swept ep1OutReq) = s.ctx.loadRem := by
    rw [remAfter, herr]; rfl
  refine ((fbNotifyOut_post h.inOk hcfg.out h₁).and (fbNotifyOut_failed hcfg.out h₁ herr)).mono
    (fun _ s' hd => ?_) ?_
  · obtain ⟨hd, hfree⟩ := hd
    refine ⟨⟨h.ep0.of_keeps hd.keeps, hd.inOk,
      .inr ⟨hd.keeps.currentConfig.trans hcfg.config, hd.out⟩⟩, .ep1Out hcfg.out ?_ hfree⟩
    rwa [herr, hrem] at hd
  · rintro _ s' ⟨-, rfl, hblame⟩
    exact .out rfl hblame

theorem sweep_ep1In_post (hs : s.reqs ep1InReq.ix = some ep1InReq) :
    Post (usbdPortReset.sweep fbClient.call ep1InReq.ix)
      (fun _ s' => FbOk s' ∧ SweepDone s s' ep1InReq.ix)
      (SweepStops ep1InReq.ix s) s := by
  refine post_usbdPortReset_sweep.2 ⟨fun hn => by simp [hs] at hn, fun r hr => ?_⟩
  obtain rfl := Option.some.inj (hr.symm.trans hs)
  have h₁ : InTaken s (s.swept ep1InReq) := by
    refine ⟨(Keeps.setSlot rfl rfl).trans (.setReq rfl _), rfl, rfl, ?_, ?_⟩
    · rw [swept, setReq_reqs, setSlot_reqs, Function.update_self]
    · rw [swept, setReq_req, Function.update_self]; rfl
  have herr : ((s.swept ep1InReq).req ep1InReq).error = true := by
    rw [swept, setReq_req, Function.update_self]
  have hin₁ : InOk (s.swept ep1InReq) := ⟨.inl h₁.slot, by rw [h₁.complete]; exact h.inOk.kind⟩
  refine ((h₁.notify h.inOk).and (fbNotifyIn_failed hin₁ h₁.slot herr)).mono
    (fun _ s' ⟨hd, _⟩ => ?_) fun _ _ ⟨he, hrestarts, hends⟩ => .in_ rfl he hrestarts ⟨?_, ?_⟩
  · have hk : Keeps Ep1 s s' := h₁.keeps.ep1_in.trans hd.keeps.ep1_in
    exact ⟨⟨h.ep0.of_keeps hk, hd.inOk, h₁.ep1 h.ep1 hs hd⟩, .ep1In hs h₁ herr hd⟩
  · simp [hs]
  · rwa [Ends, FlashPending, h₁.complete] at hends

/-- A round of the sweep keeps the invariant. -/
theorem sweep_post (ix : Nat) : Post (usbdPortReset.sweep fbClient.call ix)
    (fun _ s' => FbOk s' ∧ SweepDone s s' ix) (SweepStops ix s) s := by
  rcases hr : s.reqs ix with _ | r
  · refine post_usbdPortReset_sweep.2 ⟨fun _ => ?_, fun r h => by simp [hr] at h⟩
    exact ⟨h, .empty hr rfl⟩
  · rcases h.slot hr with ⟨rfl, rfl⟩ | ⟨rfl, rfl⟩ | ⟨rfl, rfl⟩ | ⟨rfl, rfl⟩
    · exact sweep_ep0_post h (.inl rfl) hr
    · exact sweep_ep1Out_post h hr
    · exact sweep_ep0_post h (.inr rfl) hr
    · exact sweep_ep1In_post h hr

end

/-! ### Configurations -/

/-- `usbd_hw_ep_init` writes to EP_CTRL. -/
def Usbd.setEpCtrl (ep : Nat) (bits : UInt32) (s : Fb) : Fb :=
  { s with epCtrl := Function.update s.epCtrl ep bits }

/-- EP_CTRL of an endpoint that is enabled for bulk transfers in both directions. -/
def epCtrlBulk : UInt32 := 0xc800c8

/-- Configuration 0 has been set. -/
structure Deconfigured (s s' : Fb) : Prop where
  keeps : Keeps Ep1 (s.setEpCtrl 1 0) s'
  load : s'.ctx.load = s.ctx.load
  inOk : InOk s'
  out : s'.reqs ep1OutReq.ix = none
  cancel : (s'.req ep1OutReq).cancel = false
  inCommand : s'.ctx.inCommand = false
  slot : s'.reqs ep1InReq.ix = none ∨
    Busy (some (.client .endCommandWithInfoComplete)) s ∧
      Busy (some (.client .endCommandComplete)) s'
  flash : FlashPending s' → FlashPending s
  goes : s.reqs ep1InReq.ix ≠ none → ¬Ends s

/-- Configuration 1 has been set. -/
structure Enabled (s s' : Fb) : Prop where
  slot : s.reqs ep1OutReq.ix = none
  only : OutOnly (s.setEpCtrl 1 epCtrlBulk) s'
  out : Listening s'

theorem OutOk.of_keeps {s s' : Fb} (h : OutOk s) (hk : Keeps (Eq ep1InReq) s s')
    (hl : s'.ctx.load = s.ctx.load) : OutOk s' :=
  h.imp (fun h => ⟨hk.out_reqs.trans h.1, by rw [hk.out_req]; exact h.2⟩)
    (Or.imp (·.of_keeps hk) (·.of_keeps hk hl))

section
variable {s : Fb}

theorem fbSetConfig_zero_post (hin : InOk s) (hout : OutOk s) :
    Post (fbSetConfig 0) (fun st s' => st = .success ∧ Deconfigured s s')
      (fun e s' => CallStops s False e s' ∧ e.Restarts ∧ Leaving s) s := by
  have hdisable : ∀ E, Post (usbdEpDisable fbEp1Out fbEp1In)
      (fun _ s' => s' = s.setEpCtrl 1 0) E s := by
    intro E
    have hep : fbEp1Out.num = 1 ∧ fbEp1In.num = 1 := ⟨rfl, rfl⟩
    simp only [usbdEpDisable, usbdHwEpInit, hep, post_bind, post_ite, post_throw, post_modify]
    exact ⟨fun h => absurd rfl h, fun _ => ⟨fun _ => rfl, fun h => absurd Nat.one_ne_zero h⟩⟩
  rw [fbSetConfig, post_ite]
  refine ⟨fun h => absurd h (by decide), fun _ => post_ite.2 ⟨fun h => absurd h (by decide),
    fun _ => post_bind.2 ((hdisable _).imp ?_)⟩⟩
  rintro - _ rfl
  rw [post_bind, post_modify, post_bind]
  have hin₁ : InOk (setCtx (fun fb => { fb with inCommand := false }) (s.setEpCtrl 1 0)) :=
    hin.of_still rfl rfl
  have hout₁ : OutOk (setCtx (fun fb => { fb with inCommand := false }) (s.setEpCtrl 1 0)) :=
    hout.imp id (Or.imp (fun h => ⟨h.1, h.2, h.3, h.4, h.5⟩)
      fun h => ⟨h.1, h.2, h.3, h.4, h.5⟩)
  refine ((@fbCancelIn_post 1 _ hin₁).and (@fbCancelIn_failed _ 1 hin₁)).mono ?_ fun _ _ h =>
    ⟨h.1.mono id rfl rfl rfl, h.2⟩
  rintro - s₂ ⟨⟨hk₂, hl₂, hin₂, hcmd₂, hslot₂, hflash₂, hgoes₂⟩, -⟩
  rw [post_bind]
  refine (@fbCancelOut_post 1 _ (hout₁.of_keeps hk₂ hl₂) _).imp ?_
  rintro - s₃ ⟨ho₃, hs₃, hc₃⟩
  refine post_pure.2 ⟨rfl, ?_, ?_, hin₂.of_outOnly ho₃, hs₃, hc₃, ?_, ?_,
    fun hf => hflash₂ ?_, hgoes₂⟩
  · exact ((Keeps.setCtx _).trans hk₂.ep1_in).trans ho₃.ep1
  · rw [ho₃.ctx, hl₂]; rfl
  · rw [ho₃.ctx]
    exact hcmd₂.elim (fun h => h.trans rfl) id
  · exact hslot₂.imp (fun h => ho₃.in_reqs.trans h) fun h => ⟨h.1, h.2.of_outOnly ho₃⟩
  · rwa [FlashPending, ho₃.in_req] at hf

theorem fbSetConfig_one_post (hout : OutOk s) :
    Post (fbSetConfig 1) (fun st s' => st = .success ∧ Enabled s s')
      (fun e _ => e = .inFlight ep1OutReq.ix ∧ s.reqs ep1OutReq.ix ≠ none) s := by
  have henable : ∀ E, Post (usbdEpEnable fbEp1Out fbEp1In)
      (fun _ s' => s' = s.setEpCtrl 1 epCtrlBulk) E s := by
    intro E
    have hep : fbEp1Out.num = 1 := rfl
    simp only [usbdEpEnable, usbdHwEpInit, hep, post_ite, post_modify]
    exact ⟨fun _ => rfl, fun h => absurd Nat.one_ne_zero h⟩
  rw [fbSetConfig, post_ite]
  refine ⟨fun h => absurd h (by decide), fun _ => post_ite.2 ⟨fun _ => ?_, fun h =>
    absurd rfl h⟩⟩
  refine post_bind.2 ((henable _).imp ?_)
  rintro - _ rfl
  rw [post_bind]
  rcases hs : s.reqs ep1OutReq.ix with _ | r
  · refine (@fbRxCmd_post (s.setEpCtrl 1 epCtrlBulk) hs hout.cancel _).imp ?_
    exact fun _ _ h => post_pure.2 ⟨rfl, hs, h.1, h.2.1⟩
  · rw [fbRxCmd, post_bind, post_modify, post_usbdReqSubmit]
    have hne : (s.setEpCtrl 1 epCtrlBulk).reqs ep1OutReq.ix ≠ none := by simp [setEpCtrl, hs]
    exact ⟨fun _ => ⟨rfl, by simp⟩, fun h => absurd h hne⟩

theorem fbSetConfig_unsupported_post {config : UInt8} (h : 1 < config) (E : Halt → Fb → Prop) :
    Post (fbSetConfig config) (fun st s' => st = .configUnsupported ∧ s' = s) E s := by
  rw [fbSetConfig, if_pos h]
  exact post_pure.2 ⟨rfl, rfl⟩

end

end ShieldLoader
