import ShieldLoader.Fb.Resets
import ShieldLoader.Usbd.Steps

/-!
# The steps of the device

Each step of a poll keeps the invariant of the device: `StepDone` says what it has done, and
`StepStops` why it can stop.
-/

namespace ShieldLoader

open EStateM Usbd

/-- No slot, request or variable has changed. -/
structure Untouched (s s' : Fb) : Prop where
  reqs : s'.reqs = s.reqs
  req : s'.req = s.req
  ctx : s'.ctx = s.ctx
  currentConfig : s'.currentConfig = s.currentConfig

section
variable {s s' s'' : Fb}

theorem Untouched.refl (s : Fb) : Untouched s s := ⟨rfl, rfl, rfl, rfl⟩

theorem Untouched.trans (h : Untouched s s') (h' : Untouched s' s'') : Untouched s s'' :=
  ⟨h'.reqs.trans h.reqs, h'.req.trans h.req, h'.ctx.trans h.ctx,
    h'.currentConfig.trans h.currentConfig⟩

theorem Untouched.sameEp1 (h : Untouched s s') : SameEp1 s s' :=
  ⟨by rw [h.reqs], by rw [h.reqs], by rw [h.req], by rw [h.req], h.currentConfig, h.ctx⟩

theorem Ep0Ok.of_same (h : Ep0Ok s) (hreqs : s'.reqs = s.reqs) (hreq : s'.req = s.req) :
    Ep0Ok s' :=
  ⟨by rw [hreqs]; exact h.outSlot, by rw [hreqs]; exact h.inSlot, by rw [hreqs]; exact h.others,
    by rw [hreq]; exact h.outComplete, by rw [hreq]; exact h.inComplete⟩

theorem FbOk.of_untouched (h : FbOk s) (h' : Untouched s s') : FbOk s' :=
  h.of_same (h.ep0.of_same h'.reqs h'.req) h'.sameEp1

end

/-! ### The controller between polls -/

theorem Usbd.finish_untouched (ix : Nat) (f : Finish) (s : Fb) :
    Untouched s (finish ix f s) ∧ (finish ix f s).epCtrl = s.epCtrl := by
  rw [finish]
  dsimp only
  split
  · exact ⟨⟨rfl, rfl, rfl, rfl⟩, rfl⟩
  · split
    · exact ⟨⟨rfl, rfl, rfl, rfl⟩, rfl⟩
    · exact ⟨⟨storeBuffer_reqs .., storeBuffer_req .., storeBuffer_ctx ..,
        storeBuffer_currentConfig ..⟩, storeBuffer_epCtrl ..⟩

theorem Usbd.finishAll_untouched (finished : Nat → Option Finish) (s : Fb) :
    Untouched s (finishAll finished s) ∧ (finishAll finished s).epCtrl = s.epCtrl := by
  rw [finishAll]
  generalize List.range maxReqs = l
  induction l generalizing s with
  | nil => exact ⟨.refl s, rfl⟩
  | cons ix l ih =>
    rw [List.foldl_cons]
    cases hf : finished ix with
    | none => exact ih s
    | some f =>
      obtain ⟨h, hctrl⟩ := finish_untouched ix f s
      obtain ⟨h', hctrl'⟩ := ih (finish ix f s)
      exact ⟨h.trans h', hctrl'.trans hctrl⟩

/-! ### SETUP packets -/

/-- The request sets configuration `c`, which is not the current one. -/
def Usbd.Configures (s : Fb) (rq : UsbCtrlrequest) (c : UInt8) : Prop :=
  rq.St usbReqDevW usbReqSetConfiguration ∧ rq.wValue ≠ s.currentConfig.toUInt16 ∧
    rq.wValue.toUInt8 = c

/-- `usbd_ep0_setup` goes on to answer the request. -/
def Usbd.Answers (s : Fb) (rq : UsbCtrlrequest) : Prop :=
  rq.St usbReqDevW usbReqSetAddress ∨
    rq.St usbReqDevR usbReqGetDescriptor ∧ s.findDesc rq.wValue ≠ none ∨
    rq.St usbReqDevW usbReqSetConfiguration ∧
      (rq.wValue = s.currentConfig.toUInt16 ∨ rq.wValue.toUInt8 ≤ 1) ∨
    rq.St usbReqDevR usbReqGetConfiguration

/-- What a SETUP packet of endpoint 0 has done. -/
inductive SetupDone (rq : UsbCtrlrequest) (s s' : Fb) : Prop
  | stalled (hno : ¬s.Answers rq) (h : Untouched s s') (hctrl : s'.epCtrl 1 = s.epCtrl 1)
  | answered (hyes : s.Answers rq) (hno : ∀ c, ¬s.Configures rq c) (h : SameEp1 s s')
      (hctrl : s'.epCtrl = s.epCtrl) (hfree : s.reqs ep0InReq.ix = none)
  | deconfigured (hrq : s.Configures rq 0) {s₁ : Fb} (h : Deconfigured s s₁)
      (h' : SameEp1 { s₁ with currentConfig := 0 } s') (hctrl : s'.epCtrl = s₁.epCtrl)
      (hfree : s.reqs ep0InReq.ix = none)
  | enabled (hrq : s.Configures rq 1) {s₁ : Fb} (h : Enabled s s₁)
      (h' : SameEp1 { s₁ with currentConfig := 1 } s') (hctrl : s'.epCtrl = s₁.epCtrl)
      (hfree : s.reqs ep0InReq.ix = none)

/-- `set_config` returns, if the request calls it. -/
def Usbd.SetsConfig (s : Fb) (rq : UsbCtrlrequest) : Prop :=
  (s.Configures rq 0 → s.reqs ep1InReq.ix ≠ none → ¬Ends s) ∧
    (s.Configures rq 1 → s.reqs ep1OutReq.ix = none)

/-- Why a SETUP packet of endpoint 0 stops the program. -/
inductive SetupStops (rq : UsbCtrlrequest) (s : Fb) : Halt → Fb → Prop
  | ep0 {s' : Fb} (hyes : s.Answers rq) (hset : s.SetsConfig rq) (h : s.reqs ep0InReq.ix ≠ none) :
      SetupStops rq s (.inFlight ep0InReq.ix) s'
  | enabled {s' : Fb} (hrq : s.Configures rq 1) (h : s.reqs ep1OutReq.ix ≠ none) :
      SetupStops rq s (.inFlight ep1OutReq.ix) s'
  | deconfigured {e : Halt} {s' : Fb} (hrq : s.Configures rq 0) (h : CallStops s False e s')
      (he : e.Restarts) (hs : Leaving s) : SetupStops rq s e s'

section
variable {s : Fb}

/-- The IN request of endpoint 0 is submitted in a state that differs from `s` only in it. -/
theorem Ep0Ok.submit {s₁ : Fb} (h : Ep0Ok s) (hk : Keeps (Eq ep0InReq) s s₁)
    (hslot : s₁.reqs = s.reqs) (hctx : s₁.ctx = s.ctx)
    (hc : (s₁.req ep0InReq).complete = none ∨
      (s₁.req ep0InReq).complete = some .ep0InReqComplete) :
    Post (usbdReqSubmit ep0InReq)
      (fun _ s' => Ep0Ok s' ∧ Keeps Ep0 s s' ∧ s'.ctx = s.ctx ∧ s.reqs ep0InReq.ix = none)
      (fun e _ => e = .inFlight ep0InReq.ix ∧ s.reqs ep0InReq.ix ≠ none) s₁ := by
  refine post_usbdReqSubmit.2 ⟨fun hne => ⟨rfl, hslot ▸ hne⟩, fun hn => ⟨⟨?_, .inr ?_, ?_, ?_, ?_⟩,
    (hk.trans (.submitted rfl)).mono fun _ => .inr, hctx, hslot ▸ hn⟩⟩
  · rw [submitted_reqs, Function.update_of_ne (by decide), hslot]
    exact h.outSlot
  · rw [submitted_reqs, Function.update_self]
  · intro ix hix
    have hne : ix ≠ ep0InReq.ix := fun h => hix (h ▸ by decide)
    rw [submitted_reqs, Function.update_of_ne hne, hslot]
    exact h.others ix hix
  · rw [submitted_req, Function.update_of_ne (by decide), hk.req _ (by decide)]
    exact h.outComplete
  · rwa [submitted_req, Function.update_self]

theorem usbdEp0SetupAck_post (h : Ep0Ok s) :
    Post usbdEp0SetupAck
      (fun _ s' => Ep0Ok s' ∧ Keeps Ep0 s s' ∧ s'.ctx = s.ctx ∧ s.reqs ep0InReq.ix = none)
      (fun e _ => e = .inFlight ep0InReq.ix ∧ s.reqs ep0InReq.ix ≠ none) s := by
  rw [usbdEp0SetupAck, post_bind, post_modify]
  refine h.submit (.setReq rfl _) rfl rfl (.inl ?_)
  rw [setReq_req, Function.update_self]

theorem usbdEp0SetupTx_post (h : Ep0Ok s) (buf : List UInt8) (bufferLength : UInt32) :
    Post (usbdEp0SetupTx buf bufferLength)
      (fun _ s' => Ep0Ok s' ∧ Keeps Ep0 s s' ∧ s'.ctx = s.ctx ∧ s.reqs ep0InReq.ix = none)
      (fun e _ => e = .inFlight ep0InReq.ix ∧ s.reqs ep0InReq.ix ≠ none) s := by
  simp only [usbdEp0SetupTx, post_bind, post_modify]
  refine h.submit ?_ ?_ ?_ (.inr ?_)
  · exact ((Keeps.setReq rfl _).trans (.storeBuffer rfl ..)).trans (.setReq rfl _)
  · rw [setReq_reqs, storeBuffer_reqs, setReq_reqs]
  · rw [setReq_ctx, storeBuffer_ctx, setReq_ctx]
  · rw [setReq_req, Function.update_self]

theorem Deconfigured.unconfigured {s₁ s' : Fb} (h : Deconfigured s s₁)
    (h' : SameEp1 { s₁ with currentConfig := 0 } s') : Unconfigured s' := by
  refine ⟨h'.config, h'.out.trans h.out, by rw [h'.outReq]; exact h.cancel,
    by rw [h'.ctx]; exact h.inCommand, h.slot.imp h'.in_.trans fun hb => ?_⟩
  exact h'.busy ⟨hb.2.1, hb.2.2⟩

theorem Enabled.configured {s₁ s' : Fb} (h : Enabled s s₁)
    (h' : SameEp1 { s₁ with currentConfig := 1 } s') : Configured s' := by
  obtain ⟨h1, h2, h3, h4, h5⟩ := h.out
  exact ⟨h'.config, .inl (h'.listening ⟨h1, h2, h3, h4, h5⟩)⟩

theorem Ep0Ok.setEpCtrl (h : Ep0Ok s) (ep : Nat) (bits : UInt32) : Ep0Ok (s.setEpCtrl ep bits) :=
  h.of_same rfl rfl

/-- SET_CONFIGURATION with a configuration of the device that is not the current one. -/
theorem setConfig_post (h : FbOk s) {rq : UsbCtrlrequest} (hrq : rq.St usbReqDevW usbReqSetConfiguration)
    (hne : rq.wValue ≠ s.currentConfig.toUInt16) (hle : rq.wValue.toUInt8 ≤ 1) :
    Post (do
        let status ← fbSetConfig rq.wValue.toUInt8
        if status ≠ .success then return status
        else
          modify fun s => { s with currentConfig := rq.wValue.toUInt8 }
          usbdEp0SetupAck
          return .success)
      (fun st s' => st = .success ∧ FbOk s' ∧ SetupDone rq s s') (SetupStops rq s) s := by
  have hyes : s.Answers rq := .inr (.inr (.inl ⟨hrq, .inr hle⟩))
  have hc : rq.wValue.toUInt8 = 0 ∨ rq.wValue.toUInt8 = 1 := by
    rw [UInt8.le_iff_toNat_le] at hle
    simp only [← UInt8.toNat_inj]
    exact Nat.le_one_iff_eq_zero_or_eq_one.1 hle
  rw [post_bind]
  rcases hc with hc | hc
  · rw [hc]
    refine (fbSetConfig_zero_post h.inOk h.outOk).mono ?_ fun _ _ ⟨he, hr, hl⟩ =>
      .deconfigured ⟨hrq, hne, hc⟩ he hr hl
    rintro _ s₁ ⟨rfl, hd⟩
    rw [post_ite]
    refine ⟨fun h => absurd rfl h, fun _ => ?_⟩
    simp only [post_bind, post_modify, post_pure]
    have h0 : Ep0Ok s₁ := (h.ep0.setEpCtrl 1 0).of_keeps hd.keeps
    have hslot : s₁.reqs ep0InReq.ix = s.reqs ep0InReq.ix :=
      hd.keeps.reqs _ (by rintro _ (rfl | rfl) <;> decide)
    refine (usbdEp0SetupAck_post (s := { s₁ with currentConfig := 0 }) (h0.of_same rfl rfl)).mono ?_ ?_
    · rintro - s' ⟨h0', hk', hctx', hn⟩
      have hs' := SameEp1.of_keeps hk' hctx'
      exact ⟨trivial, ⟨h0', hs'.inOk (hd.inOk.of_still rfl rfl), .inl (hd.unconfigured hs')⟩,
        .deconfigured ⟨hrq, hne, hc⟩ hd hs' hk'.epCtrl (hslot.symm.trans hn)⟩
    · rintro _ s' ⟨rfl, hs'⟩
      exact .ep0 hyes ⟨fun _ => hd.goes, fun h => absurd (hc.symm.trans h.2.2) (by decide)⟩
        fun hn => hs' (hslot.trans hn)
  · rw [hc]
    refine (fbSetConfig_one_post h.outOk).mono ?_ ?_
    · rintro _ s₁ ⟨rfl, hd⟩
      rw [post_ite]
      refine ⟨fun h => absurd rfl h, fun _ => ?_⟩
      simp only [post_bind, post_modify, post_pure]
      have h0 : Ep0Ok s₁ := (h.ep0.setEpCtrl 1 epCtrlBulk).of_keeps hd.only.ep1
      have hslot : s₁.reqs ep0InReq.ix = s.reqs ep0InReq.ix :=
        hd.only.keeps.reqs _ (by rintro _ rfl; decide)
      refine (usbdEp0SetupAck_post (s := { s₁ with currentConfig := 1 }) (h0.of_same rfl rfl)).mono ?_ ?_
      · rintro - s' ⟨h0', hk', hctx', hn⟩
        have hs' := SameEp1.of_keeps hk' hctx'
        have hin : InOk (s.setEpCtrl 1 epCtrlBulk) := h.inOk.of_still rfl rfl
        exact ⟨trivial, ⟨h0', hs'.inOk ((hin.of_outOnly hd.only).of_still rfl rfl),
          .inr (hd.configured hs')⟩,
          .enabled ⟨hrq, hne, hc⟩ hd hs' hk'.epCtrl (hslot.symm.trans hn)⟩
      · rintro _ s' ⟨rfl, hs'⟩
        exact .ep0 hyes ⟨fun h => absurd (hc.symm.trans h.2.2) (by decide), fun _ => hd.slot⟩
          fun hn => hs' (hslot.trans hn)
    · rintro _ s' ⟨rfl, hs'⟩
      exact .enabled ⟨hrq, hne, hc⟩ hs'

theorem UsbCtrlrequest.St.inj {rq : UsbCtrlrequest} {t t' r r' : UInt8} (h : rq.St t r)
    (h' : rq.St t' r') : t = t' ∧ r = r' :=
  ⟨h.1.symm.trans h'.1, h.2.symm.trans h'.2⟩

theorem Configures.ne {rq : UsbCtrlrequest} {t r : UInt8} (h : rq.St t r)
    (hne : (t, r) ≠ (usbReqDevW, usbReqSetConfiguration)) (c : UInt8) : ¬s.Configures rq c := by
  rintro ⟨h', -⟩
  obtain ⟨rfl, rfl⟩ := h.inj h'
  exact hne rfl

/-- `usbd_ep0_setup` answers a request, or does nothing. -/
theorem usbdEp0Setup_post (h : FbOk s) (rq : UsbCtrlrequest) :
    Post (usbdEp0Setup fbClient rq)
      (fun st s' => st = .success ∧ FbOk s' ∧ SetupDone rq s s' ∨
        st ≠ .success ∧ ¬s.Answers rq ∧ s' = s) (SetupStops rq s) s := by
  have hstops : s.Answers rq → (∀ c, ¬s.Configures rq c) → ∀ e s',
      e = .inFlight ep0InReq.ix ∧ s.reqs ep0InReq.ix ≠ none → SetupStops rq s e s' := by
    rintro hyes hno _ s' ⟨rfl, hs'⟩
    exact .ep0 hyes ⟨fun h => absurd h (hno 0), fun h => absurd h (hno 1)⟩ hs'
  have hdone : s.Answers rq → (∀ c, ¬s.Configures rq c) → ∀ s', Ep0Ok s' → Keeps Ep0 s s' →
      s'.ctx = s.ctx ∧ s.reqs ep0InReq.ix = none → FbOk s' ∧ SetupDone rq s s' :=
    fun hyes hno s' h0 hk ⟨hctx, hn⟩ =>
      ⟨h.of_same h0 (.of_keeps hk hctx), .answered hyes hno (.of_keeps hk hctx) hk.epCtrl hn⟩
  rw [usbdEp0Setup, post_ite]
  refine ⟨fun ha => ?_, fun ha => ?_⟩
  · have hno := @Configures.ne s _ _ _ ha (by decide)
    simp only [post_bind, post_modify, post_pure]
    generalize rq.wValue.toUInt32 <<< 25 ||| 0x1000000 = devAddr
    have hs₁ : SameEp1 s { s with devAddr } := ⟨rfl, rfl, rfl, rfl, rfl, rfl⟩
    have h0₁ : Ep0Ok { s with devAddr } := h.ep0.of_same rfl rfl
    refine (usbdEp0SetupAck_post h0₁).mono ?_ (hstops (.inl ha) hno)
    rintro - s' ⟨h0, hk, hctx, hn⟩
    have hs' := hs₁.trans (.of_keeps hk hctx)
    exact .inl ⟨trivial, h.of_same h0 hs', .answered (.inl ha) hno hs' hk.epCtrl hn⟩
  rw [post_ite]
  refine ⟨fun hd => ?_, fun hd => ?_⟩
  · rw [post_bind, post_get]
    rcases hfind : s.findDesc rq.wValue with _ | d
    · refine post_pure.2 (.inr ⟨by decide, ?_, rfl⟩)
      rintro (h' | h' | h' | h')
      · exact ha h'
      · exact h'.2 hfind
      · exact absurd (hd.inj h'.1) (by decide)
      · exact absurd (hd.inj h') (by decide)
    · have hyes : s.Answers rq := .inr (.inl ⟨hd, by simp [hfind]⟩)
      have hno := @Configures.ne s _ _ _ hd (by decide)
      refine post_bind.2 ((usbdEp0SetupTx_post h.ep0 _ _).mono ?_ (hstops hyes hno))
      rintro - s' ⟨h0, hk, hctx⟩
      exact post_pure.2 (.inl ⟨rfl, hdone hyes hno s' h0 hk hctx⟩)
  rw [post_ite]
  refine ⟨fun hc => ?_, fun hc => ?_⟩
  · rw [post_bind, post_get]
    by_cases hne : rq.wValue ≠ s.currentConfig.toUInt16
    · rw [if_pos hne]
      rcases Nat.lt_or_ge 1 rq.wValue.toUInt8.toNat with hlt | hle
      · refine post_bind.2 ((fbSetConfig_unsupported_post (UInt8.lt_iff_toNat_lt.2 hlt) _).imp ?_)
        rintro _ _ ⟨rfl, rfl⟩
        refine post_ite.2 ⟨fun _ => post_pure.2 (.inr ⟨by decide, ?_, rfl⟩), fun h => absurd ?_ h⟩
        swap
        · decide
        rintro (h' | h' | h' | h')
        · exact ha h'
        · exact hd h'.1
        · rcases h'.2 with h' | h'
          · exact hne h'
          · exact absurd (UInt8.le_iff_toNat_le.1 h') (Nat.not_le.2 hlt)
        · exact absurd (hc.inj h') (by decide)
      · exact (setConfig_post h hc hne (UInt8.le_iff_toNat_le.2 hle)).imp fun _ _ => .inl
    · rw [if_neg hne]
      rw [not_not] at hne
      have hyes : s.Answers rq := .inr (.inr (.inl ⟨hc, .inl hne⟩))
      have hcfg : rq.wValue.toUInt8 = s.currentConfig := by rw [hne]; simp
      simp only [post_bind, post_pure, post_ite, post_modify, hcfg]
      refine ⟨fun h => absurd rfl h, fun _ => ?_⟩
      have hno : ∀ c, ¬s.Configures rq c := fun c h' => h'.2.1 hne
      refine (usbdEp0SetupAck_post h.ep0).mono ?_ (hstops hyes hno)
      rintro - s' ⟨h0, hk, hctx⟩
      exact .inl ⟨trivial, hdone hyes hno s' h0 hk hctx⟩
  rw [post_ite]
  refine ⟨fun hg => ?_, fun hg => post_pure.2 (.inr ⟨by decide, ?_, rfl⟩)⟩
  · have hyes : s.Answers rq := .inr (.inr (.inr hg))
    rw [post_bind, post_get]
    have hno := @Configures.ne s _ _ _ hg (by decide)
    refine post_bind.2 ((usbdEp0SetupTx_post h.ep0 _ _).mono ?_ (hstops hyes hno))
    rintro - s' ⟨h0, hk, hctx⟩
    exact post_pure.2 (.inl ⟨rfl, hdone hyes hno s' h0 hk hctx⟩)
  · rintro (h' | h' | h' | h')
    · exact ha h'
    · exact hd h'.1
    · exact hc h'.1
    · exact hg h'

end

/-! ### All steps -/

/-- `usbd_init` has been called on a suspend. -/
structure InitDone (s s' : Fb) : Prop where
  unconfigured : Unconfigured s'
  load : s'.ctx.load = s.ctx.load
  slot : s'.reqs ep1InReq.ix = none ∨ Busy (some (.client .endCommandWithInfoComplete)) s
  flash : FlashPending s' → FlashPending s

/-- What a step has done. -/
inductive StepDone (s s' : Fb) : UsbdStep → Prop
  | init (h : InitDone s s') : StepDone s s' .init
  | flush (h : Untouched s s') (hctrl : s'.epCtrl = s.epCtrl) : StepDone s s' .flush
  | sweep {ix : Nat} (h : SweepDone s s' ix) : StepDone s s' (.sweep ix)
  | disable (h : Untouched s s') (hctrl : s'.epCtrl 1 = 0) : StepDone s s' .disable
  | change {usbdevlc : UInt32} (h : Untouched s s') (hctrl : s'.epCtrl = s.epCtrl) :
      StepDone s s' (.change usbdevlc)
  | finish {finished : Nat → Option Finish} (h : s' = finishAll finished s) :
      StepDone s s' (.finish finished)
  | complete {ix : Nat} (h : RoundDone s s' ix) : StepDone s s' (.complete ix)
  | setup {rq : UsbCtrlrequest} (h : SetupDone rq s s') : StepDone s s' (.setup 0 rq)
  | stall {ix : Nat} {rq : UsbCtrlrequest} (hix : ix ≠ 0) (h : Untouched s s') :
      StepDone s s' (.setup ix rq)

/-- Why a step stops. -/
inductive StepStops (s : Fb) : UsbdStep → Halt → Fb → Prop
  | init {e : Halt} {s' : Fb} (h : CallStops s False e s') : StepStops s .init e s'
  | sweep {ix : Nat} {e : Halt} {s' : Fb} (h : SweepStops ix s e s') : StepStops s (.sweep ix) e s'
  | complete {ix : Nat} {e : Halt} {s' : Fb} (h : RoundStops ix s e s') :
      StepStops s (.complete ix) e s'
  | setup {rq : UsbCtrlrequest} {e : Halt} {s' : Fb} (h : SetupStops rq s e s') :
      StepStops s (.setup 0 rq) e s'

section
variable {s : Fb}

/-- The state after `usbd_req_init`. -/
def Usbd.initReq (r : Req) (s : Fb) : Fb :=
  { s with
    req := Function.update s.req r ⟨false, false, .small, 0, 0, none⟩
    small := Function.update s.small r (List.replicate 64 0) }

theorem usbdReqInit_post {r : Req} {Q : Unit → Fb → Prop} {E : Halt → Fb → Prop}
    (hE : ∀ s', E .bug s') (hQ : Q () (s.initReq r)) : Post (usbdReqInit r) Q E s := by
  simp only [usbdReqInit, post_bind, post_modify, post_get, post_ite, post_throw, post_pure]
  exact ⟨fun _ => hE _, fun _ => hQ⟩

/-- The state in which `usbd_init` calls `set_config`. -/
def Usbd.initial (s : Fb) : Fb :=
  { (s.initReq ep0OutReq).initReq ep0InReq with hs := false, descs := none, currentConfig := 0 }

theorem Usbd.initial_req : s.initial.req ep1OutReq = s.req ep1OutReq ∧
    s.initial.req ep1InReq = s.req ep1InReq := by
  simp only [initial, initReq]
  constructor
  · rw [Function.update_of_ne (by decide), Function.update_of_ne (by decide)]
  · rw [Function.update_of_ne (by decide), Function.update_of_ne (by decide)]

theorem OutOk.initial (h : OutOk s) : OutOk s.initial := by
  obtain ⟨hout, -⟩ := @initial_req s
  rcases h with h | ⟨h1, h2, h3, h4, h5⟩ | ⟨h1, h2, h3, h4, h5⟩
  · exact .inl ⟨h.1, by rw [hout]; exact h.2⟩
  · exact .inr (.inl ⟨h1, by rwa [hout], by rwa [hout], by rwa [hout], by rwa [hout]⟩)
  · exact .inr (.inr ⟨h1, by rwa [hout], by rwa [hout], by rwa [hout], by rwa [hout]⟩)

theorem Ep0Ok.initial (h : Ep0Ok s) : Ep0Ok s.initial := by
  refine ⟨h.outSlot, h.inSlot, h.others, ?_, .inl ?_⟩
  · simp only [Usbd.initial, initReq]
    rw [Function.update_of_ne (by decide), Function.update_self]
  · simp only [Usbd.initial, initReq, Function.update_self]

theorem usbdInit_post (h : FbOk s) : Post (usbdInit fbClient)
    (fun st s' => st = .success ∧ FbOk s' ∧ InitDone s s') (CallStops s False) s := by
  obtain ⟨-, hin⟩ := @initial_req s
  have hin₁ : InOk s.initial := h.inOk.of_still rfl (by rw [hin])
  rw [usbdInit, post_bind]
  refine usbdReqInit_post (fun _ => .bug) ?_
  rw [post_bind]
  refine usbdReqInit_post (fun _ => .bug) ?_
  rw [post_bind, post_modify]
  refine post_bind.2 (post_get.2 (post_bind.2 (post_discard.2 ?_)))
  refine (fbSetConfig_zero_post hin₁ h.outOk.initial).mono ?_ fun _ _ ⟨he, _⟩ =>
    he.mono id (by rw [hin]) rfl rfl
  rintro - s₁ ⟨-, hd⟩
  have h0 : Ep0Ok s₁ := (h.ep0.initial.setEpCtrl 1 0).of_keeps hd.keeps
  have hcfg : s₁.currentConfig = 0 := hd.keeps.currentConfig
  simp only [post_bind, post_usbdHwReset, post_usbdHwEpFlush, post_pure]
  have hsame : ∀ primed : Nat → Bool, SameEp1 { s₁ with currentConfig := 0 } { s₁ with primed } :=
    fun primed => ⟨rfl, rfl, rfl, rfl, hcfg, rfl⟩
  have hu := hd.unconfigured (hsame fun ix => false && !flushBits none false ix)
  refine ⟨trivial, ⟨h0.of_same rfl rfl, hd.inOk.of_still rfl rfl, .inl hu⟩, hu, hd.load, ?_,
    fun hf => ?_⟩
  · refine hd.slot.imp_right fun hb => ⟨hb.1.1, ?_⟩
    rw [← hin]; exact hb.1.2
  · rw [FlashPending, ← hin]; exact hd.flash hf

/-- The second loop of `usbd_port_reset`. -/
theorem usbdPortReset_disable_post (s : Fb) (E : Halt → Fb → Prop) :
    Post ((List.range maxEps).forM fun i => usbdHwEpInit i .none .none)
      (fun _ s' => Untouched s s' ∧ s'.epCtrl 1 = 0) E s := by
  have hstep : ∀ i s₁, Untouched s s₁ → Post (usbdHwEpInit i .none .none)
      (fun _ s' => Untouched s s' ∧ (i = 1 ∨ s₁.epCtrl 1 = 0 → s'.epCtrl 1 = 0)) E s₁ := by
    intro i s₁ h
    rw [usbdHwEpInit, post_ite]
    refine ⟨fun hi => post_modify.2 ⟨h.trans ⟨rfl, rfl, rfl, rfl⟩, fun h1 => ?_⟩,
      fun hi => post_pure.2 ⟨h, fun h1 => ?_⟩⟩
    · show Function.update s₁.epCtrl i 0 1 = 0
      rw [Function.update_apply]
      split
      · rfl
      · next hne => exact h1.resolve_left fun h => hne h.symm
    · exact h1.resolve_left fun h => hi (by simp [h])
  have hrange : List.range maxEps = 0 :: 1 :: (List.range 14).map (· + 2) := by decide
  rw [hrange, post_forM_cons]
  refine (hstep 0 s (.refl s)).imp fun _ s₀ h₀ => ?_
  rw [post_forM_cons]
  refine (hstep 1 s₀ h₀.1).imp fun _ s₁ h₁ => ?_
  refine Post.forM (fun i _ s₂ h₂ => (hstep i s₂ h₂.1).imp fun _ s₃ h₃ => ?_) ⟨h₁.1, h₁.2 (.inl rfl)⟩
  exact ⟨h₃.1, h₃.2 (.inr h₂.2)⟩

theorem usbdPortSetup_round_post (h : FbOk s) (ix : Nat) (rq : UsbCtrlrequest) :
    Post (usbdPortSetup.round fbClient ix rq)
      (fun _ s' => FbOk s' ∧ StepDone s s' (.setup ix rq)) (StepStops s (.setup ix rq)) s := by
  have hstall : Untouched s (s.setEpCtrl ix (epCtrlRxs ||| epCtrlTxs)) := ⟨rfl, rfl, rfl, rfl⟩
  rw [usbdPortSetup.round]
  refine post_ite.2 ⟨?_, fun hix => ?_⟩
  · rintro rfl
    refine post_bind.2 ((usbdEp0Setup_post h rq).mono ?_ fun _ _ => .setup)
    rintro st s' (⟨rfl, hok, hd⟩ | ⟨hst, hno, rfl⟩)
    · exact post_ite.2 ⟨fun h => absurd rfl h, fun _ => post_pure.2 ⟨hok, .setup hd⟩⟩
    · refine post_ite.2 ⟨fun _ => post_modify.2 ?_, fun h => absurd hst h⟩
      refine ⟨h.of_untouched hstall, .setup (.stalled hno hstall ?_)⟩
      show Function.update s'.epCtrl 0 (epCtrlRxs ||| epCtrlTxs) 1 = s'.epCtrl 1
      exact Function.update_of_ne (by decide) ..
  · refine post_bind.2 (post_pure.2 (post_ite.2 ⟨fun _ => post_modify.2 ?_, fun h => absurd ?_ h⟩))
    · exact ⟨h.of_untouched hstall, .stall hix hstall⟩
    · decide

/-- **Every step keeps the invariant** of the device, or stops for a reason of `StepStops`. -/
theorem step_post (h : FbOk s) (st : UsbdStep) :
    Post (st.run fbClient) (fun _ s' => FbOk s' ∧ StepDone s s' st) (StepStops s st) s := by
  cases st with
  | init =>
    refine post_discard.2 ((usbdInit_post h).mono ?_ fun _ _ => .init)
    rintro - s' ⟨-, hok, hd⟩
    exact ⟨hok, .init hd⟩
  | flush =>
    have hs' : ∀ primed : Nat → Bool, Untouched s { s with primed } := fun _ => ⟨rfl, rfl, rfl, rfl⟩
    exact post_usbdHwEpFlush.2 ⟨h.of_untouched (hs' _), .flush (hs' _) rfl⟩
  | sweep ix => exact (sweep_post h ix).mono (fun _ _ hd => ⟨hd.1, .sweep hd.2⟩) fun _ _ => .sweep
  | disable =>
    refine post_bind.2 ((usbdPortReset_disable_post s _).imp fun _ s' hs' => ?_)
    exact post_pure.2 ⟨h.of_untouched hs'.1, .disable hs'.1 hs'.2⟩
  | change usbdevlc =>
    refine post_discard.2 ?_
    simp only [usbdPortChange, post_ite, post_bind, post_modify, post_pure]
    refine ⟨fun _ => ?_, fun _ => ⟨fun _ => ?_, fun _ => ?_⟩⟩
    · exact ⟨h.of_untouched ⟨rfl, rfl, rfl, rfl⟩, .change ⟨rfl, rfl, rfl, rfl⟩ rfl⟩
    · exact ⟨h.of_untouched ⟨rfl, rfl, rfl, rfl⟩, .change ⟨rfl, rfl, rfl, rfl⟩ rfl⟩
    · exact ⟨h, .change (.refl s) rfl⟩
  | finish finished =>
    exact post_modify.2 ⟨h.of_untouched (finishAll_untouched finished s).1, .finish rfl⟩
  | complete ix =>
    exact (round_post h ix).mono (fun _ _ hd => ⟨hd.1, .complete hd.2⟩) fun _ _ => .complete
  | setup ix rq => exact usbdPortSetup_round_post h ix rq

end

end ShieldLoader
