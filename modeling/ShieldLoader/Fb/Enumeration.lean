import ShieldLoader.Fb.InFlight

/-!
# Enumeration after a reset of the bus

A reset of the bus leaves the device without a configuration, or with a configuration whose
endpoints it has disabled: `current_config` is not reset, so SET_CONFIGURATION with the old value
does not enable them again.
-/

namespace ShieldLoader

open EStateM Usbd PollInput

/-- The device waits for a command, as after the first configuration. -/
structure Ready (s : Fb) : Prop where
  enabled : s.epCtrl 1 = epCtrlBulk
  out : Listening s
  in_ : s.reqs ep1InReq.ix = none
  inCommand : s.ctx.inCommand = false

instance (s : Fb) : Decidable (Ready s) :=
  decidable_of_iff (s.epCtrl 1 = epCtrlBulk ∧ Listening s ∧ s.reqs ep1InReq.ix = none ∧
    s.ctx.inCommand = false) ⟨fun ⟨h1, h2, h3, h4⟩ => ⟨h1, h2, h3, h4⟩, fun ⟨h1, h2, h3, h4⟩ =>
      ⟨h1, h2, h3, h4⟩⟩

/-! ### Steps that come back -/

/-- A step of a reset of the bus, or of a poll without a suspend that completes no request but those
of endpoint 0. -/
def UsbdStep.Restores : UsbdStep → Prop
  | .flush | .sweep _ | .disable | .change _ | .finish _ => True
  | .complete ix => ix = ep0OutReq.ix ∨ ix = ep0InReq.ix
  | .setup ix _ => ix = 0
  | .init => False

/-- The controller completes only requests that are in their slots. -/
def Filled (st : UsbdStep) (s : Fb) : Prop :=
  match st with
  | .complete ix => s.reqs ix ≠ none
  | _ => True

instance (st : UsbdStep) (s : Fb) : Decidable (Filled st s) :=
  match st with
  | .complete ix => inferInstanceAs (Decidable (s.reqs ix ≠ none))
  | .init | .flush | .sweep _ | .disable | .change _ | .finish _ | .setup .. => isTrue trivial

/-- No request is in its slot where the step submits it. -/
def epGood (st : UsbdStep) (s : Fb) : Prop := ep1Good st s ∧ ep0Good st s

instance (st : UsbdStep) (s : Fb) : Decidable (epGood st s) :=
  inferInstanceAs (Decidable (ep1Good st s ∧ ep0Good st s))

section
variable {s s' : Fb}

theorem not_outBlame_of_none {error : Bool} {rem : UInt64} (h : s.reqs ep1OutReq.ix = none) :
    ¬OutBlame error rem s := by
  rintro (hb | hb)
  · exact absurd (hb.1.slot.symm.trans h) (by simp)
  · exact absurd (hb.1.slot.symm.trans h) (by simp)

theorem SweepDone.good {ix : Nat} (h : SweepDone s s' ix) (hix : ix = ep1OutReq.ix) :
    ¬OutBlame true s.ctx.loadRem s := by
  cases h with
  | empty hs => exact not_outBlame_of_none (hix ▸ hs)
  | ep0 hr => rcases hr with rfl | rfl <;> exact absurd hix (by decide)
  | ep1Out _ _ hfree => exact hfree
  | ep1In => exact absurd hix (by decide)

theorem not_configures {rq : UsbCtrlrequest} (h : s.Configures rq 0) : ¬s.Configures rq 1 :=
  fun h' => absurd (h.2.2.symm.trans h'.2.2) (by decide)

theorem SetupDone.good {rq : UsbCtrlrequest} (h : SetupDone rq s s') :
    (s.Configures rq 1 → s.reqs ep1OutReq.ix = none) ∧ (s.Answers rq → s.reqs ep0InReq.ix = none) := by
  cases h with
  | stalled hno =>
    refine ⟨fun hc => absurd (.inr (.inr (.inl ⟨hc.1, .inr ?_⟩))) hno, fun h => absurd h hno⟩
    rw [hc.2.2]
    decide
  | answered _ hno _ _ hfree => exact ⟨fun hc => absurd hc (hno 1), fun _ => hfree⟩
  | deconfigured hrq _ _ _ hfree => exact ⟨fun hc => absurd hc (not_configures hrq), fun _ => hfree⟩
  | enabled _ hd _ _ hfree => exact ⟨fun _ => hd.slot, fun _ => hfree⟩

/-- A step that has come back has found every slot empty that it submits to. -/
theorem StepDone.good {st : UsbdStep} (h : StepDone s s' st) (hst : st.Restores) : epGood st s := by
  cases h with
  | init => exact hst.elim
  | flush => exact ⟨trivial, trivial⟩
  | sweep hd => exact ⟨hd.good, trivial⟩
  | disable => exact ⟨trivial, trivial⟩
  | change => exact ⟨trivial, trivial⟩
  | finish => exact ⟨trivial, trivial⟩
  | complete hd =>
    refine ⟨fun hix => ?_, fun hix => ?_⟩
    · exact absurd (hix ▸ hst) (by unfold UsbdStep.Restores; decide)
    · cases hd with
      | ep0In _ _ _ hfree => exact hfree
      | _ => exact absurd hix (by decide)
  | setup hd => exact ⟨fun _ => hd.good.1, fun _ hyes _ => hd.good.2 hyes⟩
  | stall hix => exact absurd hst hix

/-- Such a step stops where a slot is taken that it submits to, or for a response after which the
program hands over. -/
theorem StepStops.good {st : UsbdStep} {e : Halt} (h : StepStops s st e s') (hst : st.Restores)
    (hf : Filled st s) : e.Restarts ∧ Leaving s ∧ epGood st s ∨ ¬e.Restarts ∧ ¬epGood st s := by
  cases h with
  | init => exact hst.elim
  | sweep hd =>
    cases hd with
    | out hix hb => exact .inr ⟨id, fun hg => hg.1 hix hb⟩
    | in_ hix _ he hs =>
      exact .inl ⟨he, hs, fun hix' => absurd (hix.symm.trans hix') (by decide), trivial⟩
  | complete hd =>
    cases hd with
    | empty hn => exact absurd hn hf
    | ep0 hix hs hstage => exact .inr ⟨id, fun hg => hs (hg.2 hix hstage)⟩
    | out hix => exact absurd (hix ▸ hst) (by unfold UsbdStep.Restores; decide)
    | in_ hix => exact absurd (hix ▸ hst) (by unfold UsbdStep.Restores; decide)
  | setup hd =>
    cases hd with
    | ep0 hyes hset hs => exact .inr ⟨id, fun hg => hs (hg.2 rfl hyes hset)⟩
    | enabled hrq hs => exact .inr ⟨id, fun hg => hs (hg.1 rfl hrq)⟩
    | deconfigured hrq _ he hs =>
      exact .inl ⟨he, hs, fun _ hrq' => absurd hrq' (not_configures hrq),
        fun _ _ hset => absurd hs.2 (hset.1 hrq hs.1)⟩

theorem not_leaving_of_busy {k : FbComplete} (h : Busy (some (.client k)) s)
    (hk : k ∉ [.cmdRebootComplete, .cmdFlashComplete]) : ¬Leaving s :=
  fun hl => not_ends h.2 hk hl.2

theorem leaving_congr (hs : s'.reqs ep1InReq.ix = s.reqs ep1InReq.ix)
    (hr : s'.req ep1InReq = s.req ep1InReq) : Leaving s' ↔ Leaving s := by
  rw [Leaving, Leaving, Ends, Ends, FlashPending, FlashPending, hs, hr]

theorem SameEp1.leaving (h : SameEp1 s s') : Leaving s' ↔ Leaving s := leaving_congr h.in_ h.inReq

/-- Unless it is of the IN request, a round of the sweep leaves such a response alone. -/
theorem SweepDone.leaving {ix : Nat} (h : SweepDone s s' ix) (hix : ix ≠ ep1InReq.ix) :
    Leaving s' ↔ Leaving s := by
  cases h with
  | empty _ h => rw [h]
  | ep0 _ hk hctx => exact (SameEp1.of_keeps hk hctx).leaving
  | ep1Out hout h hfree =>
    rcases hout with hout | hout
    · obtain ⟨-, -, hslot, hreq⟩ := h.failed hout rfl
      exact leaving_congr hslot hreq
    · obtain ⟨-, -, hlast, hmore⟩ := h.data hout
      by_cases hz : s.ctx.loadRem = 0
      · refine iff_of_false (not_leaving_of_busy (hlast hz).2 (by decide)) fun hl => hfree ?_
        exact .inr ⟨hout, hz, hl.1⟩
      · exact leaving_congr (hmore hz).2.1 (hmore hz).2.2
  | ep1In => exact absurd rfl hix

theorem SweepDone.left (h : SweepDone s s' ep1InReq.ix) : ¬Leaving s ∧ ¬Leaving s' := by
  generalize hix : ep1InReq.ix = ix at h
  cases h with
  | empty hs h => exact ⟨fun hl => hl.1 (hix ▸ hs), fun hl => hl.1 (by rw [h, hix, hs])⟩
  | ep0 hr => rcases hr with rfl | rfl <;> exact absurd hix (by decide)
  | ep1Out => exact absurd hix (by decide)
  | ep1In hs h₁ herr h =>
    refine ⟨fun hl => h.goes ?_, fun hl => ?_⟩
    · rw [Ends, FlashPending, h₁.complete]
      exact hl.2
    · rcases h.failed herr with hn | ⟨-, hb⟩
      · exact hl.1 hn
      · exact not_leaving_of_busy hb (by decide) hl

theorem StepDone.not_leaving {st : UsbdStep} (h : StepDone s s' st) (hst : st.Restores)
    (hs : ¬Leaving s) : ¬Leaving s' := by
  cases h with
  | init => exact hst.elim
  | flush h => rwa [h.sameEp1.leaving]
  | @sweep ix hd =>
    by_cases hix : ix = ep1InReq.ix
    · exact (hix ▸ hd).left.2
    · rwa [hd.leaving hix]
  | disable h => rwa [h.sameEp1.leaving]
  | change h => rwa [h.sameEp1.leaving]
  | finish h => rwa [h, (finishAll_untouched _ s).1.sameEp1.leaving]
  | complete hd =>
    cases hd with
    | ep0Out hk hctx => rwa [(SameEp1.of_keeps hk hctx).leaving]
    | ep0In hk hctx => rwa [(SameEp1.of_keeps hk hctx).leaving]
    | ep1Out => exact absurd hst (by unfold UsbdStep.Restores; decide)
    | ep1In => exact absurd hst (by unfold UsbdStep.Restores; decide)
  | setup hd =>
    cases hd with
    | stalled _ h => rwa [h.sameEp1.leaving]
    | answered _ _ h => rwa [h.leaving]
    | deconfigured _ hd h =>
      rw [h.leaving]
      intro hl
      rcases hd.slot with hn | ⟨-, hb⟩
      · exact hl.1 hn
      · exact not_leaving_of_busy hb (by decide) hl
    | enabled _ hd h =>
      rw [h.leaving]
      exact fun hl => hs ((leaving_congr (s := s) hd.only.in_reqs hd.only.in_req).1 hl)
  | stall _ h => rwa [h.sameEp1.leaving]

/-- A step comes back just when it finds every slot empty that it submits to, unless the program
hands over. -/
theorem FbOk.comes_back {st : UsbdStep} (h : FbOk s) (hst : st.Restores) (hf : Filled st s) :
    Post (st.run fbClient) (fun _ s' => epGood st s ∧ FbOk s' ∧ (Leaving s' → Leaving s))
      (fun e _ => e.Restarts ∧ Leaving s ∧ epGood st s ∨ ¬e.Restarts ∧ ¬epGood st s) s := by
  refine (step_post h st).mono (fun _ s' ⟨hok, hd⟩ => ⟨hd.good hst, hok, ?_⟩) fun _ _ hs =>
    hs.good hst hf
  exact fun hl => not_not.1 fun hs => hd.not_leaving hst hs hl

/-- A run that is halted by nothing else has good steps. -/
theorem FbOk.good_of_run {l : List UsbdStep} (h : FbOk s) (hl : ∀ st ∈ l, st.Restores)
    (hf : Along (UsbdStep.run fbClient) Filled l s)
    (hrun : Post (l.forM (·.run fbClient)) (fun _ _ => True) (fun e _ => e.Restarts) s) :
    Along (UsbdStep.run fbClient) epGood l s := by
  refine Along.of_forM (fun st s h hst => ?_) ((Along.of_forall hl s).and hf) h hrun
  refine (h.comes_back hst.1 hst.2).mono (fun _ _ hd => ⟨hd.1, hd.2.1⟩) fun _ _ hs he => ?_
  exact hs.elim (·.2.2) fun hs => absurd he hs.1

/-- A run with good steps is halted by nothing else. -/
theorem FbOk.run_of_good {l : List UsbdStep} (h : FbOk s) (hl : ∀ st ∈ l, st.Restores)
    (hf : Along (UsbdStep.run fbClient) Filled l s)
    (hg : Along (UsbdStep.run fbClient) epGood l s) :
    Post (l.forM (·.run fbClient)) (fun _ s' => Leaving s' → Leaving s)
      (fun e _ => e.Restarts ∧ Leaving s) s := by
  have hall := ((Along.of_forall hl s).and hf).and hg
  refine (hall.forM (I := fun s₁ => FbOk s₁ ∧ (Leaving s₁ → Leaving s)) ?_ ⟨h, id⟩).imp
    fun _ _ => And.right
  rintro st s₁ ⟨h₁, hl₁⟩ ⟨⟨hst, hf₁⟩, hg₁⟩
  refine (h₁.comes_back hst hf₁).mono (fun _ _ hd => ⟨hd.2.1, fun hl => hl₁ (hd.2.2 hl)⟩) ?_
  exact fun _ _ hs => hs.elim (fun hs => ⟨hs.1, hl₁ hs.2.1⟩) fun hs => absurd hg₁ hs.2

end

/-! ### The reset -/

section
variable {s s' : Fb}

theorem FbOk.unconfigured (h : FbOk s) (hc : s.currentConfig = 0) : Unconfigured s :=
  h.ep1.resolve_right fun h' => absurd (hc.symm.trans h'.config) (by decide)

theorem FbOk.configured (h : FbOk s) (hc : s.currentConfig ≠ 0) : Configured s :=
  h.ep1.resolve_left fun h' => hc h'.config

theorem SweepDone.currentConfig {ix : Nat} (h : SweepDone s s' ix) :
    s'.currentConfig = s.currentConfig := by
  cases h with
  | empty hs h => rw [h]
  | ep0 hr hk hctx => exact hk.currentConfig
  | ep1Out _ h => exact h.keeps.currentConfig
  | ep1In hs h₁ herr h => exact h.keeps.currentConfig.trans h₁.keeps.currentConfig

/-- The IN request has been swept out of its slot. -/
structure SweptIn (c : UInt8) (s : Fb) : Prop where
  ok : FbOk s
  config : s.currentConfig = c
  calm : Calm s
  empty : c = 0 → s.reqs ep1InReq.ix = none

theorem SweepDone.sweptIn {ix : Nat} (h : SweepDone s s' ix) (hix : ix = ep1InReq.ix)
    (hok : FbOk s) (hok' : FbOk s') : SweptIn s.currentConfig s' := by
  refine ⟨hok', h.currentConfig, ?_, fun hc => ?_⟩
  · cases h with
    | empty hs h => exact .inl (by rw [h, ← hix]; exact hs)
    | ep0 hr => rcases hr with rfl | rfl <;> exact absurd hix (by decide)
    | ep1Out => exact absurd hix (by decide)
    | ep1In hs h₁ herr h => exact (h.failed herr).imp_right And.right
  · have hu := hok.unconfigured hc
    cases h with
    | empty hs h => rw [h, ← hix]; exact hs
    | ep0 hr => rcases hr with rfl | rfl <;> exact absurd hix (by decide)
    | ep1Out => exact absurd hix (by decide)
    | ep1In hs h₁ herr h =>
      obtain ⟨-, hend⟩ := hu.slot.resolve_left (by simp [hs])
      exact (h.ended (h₁.complete.trans hend)).1

/-- The slots behind the one of the IN request are empty. -/
theorem SweptIn.sweep {c : UInt8} (h : SweptIn c s) {ix : Nat} (hix : ep1InReq.ix < ix) :
    Post (usbdPortReset.sweep fbClient.call ix) (fun _ => SweptIn c) (fun _ _ => True) s := by
  have hnone : s.reqs ix = none := by
    refine h.ok.ep0.others ix fun hmem => ?_
    simp only [List.map_cons, List.map_nil, List.mem_cons, List.not_mem_nil, or_false] at hmem
    rcases hmem with rfl | rfl | rfl | rfl <;> exact absurd hix (by decide)
  exact post_usbdPortReset_sweep.2 ⟨fun _ => h, fun r hr => by simp [hnone] at hr⟩

/-- The device after a reset of the bus. -/
structure WasReset (c : UInt8) (s : Fb) : Prop extends SweptIn c s where
  disabled : s.epCtrl 1 = 0

/-- The steps of a reset of the bus. -/
def resetSteps : List UsbdStep := .flush :: ((List.range maxReqs).map .sweep ++ [.disable])

theorem resetSteps_post (h : FbOk s) :
    Post (resetSteps.forM (·.run fbClient))
      (fun _ s' => WasReset s.currentConfig s' ∧ ¬Leaving s) (fun _ _ => True) s := by
  have hrange : List.range maxReqs = List.range 17 ++ 17 :: (List.range 14).map (· + 18) := by
    decide
  have hsweep : ∀ ix s₁, FbOk s₁ → s₁.currentConfig = s.currentConfig →
      Post (usbdPortReset.sweep fbClient.call ix) (fun _ s₂ => FbOk s₂ ∧
        s₂.currentConfig = s.currentConfig ∧ SweepDone s₁ s₂ ix) (fun _ _ => True) s₁ := by
    intro ix s₁ hok hc
    refine (sweep_post hok ix).mono (fun _ s₂ ⟨hok₂, hd⟩ => ?_) fun _ _ _ => trivial
    exact ⟨hok₂, hd.currentConfig.trans hc, hd⟩
  rw [resetSteps, post_forM_cons]
  refine (step_post h .flush).mono (fun _ s₀ ⟨h₀, hd₀⟩ => ?_) fun _ _ _ => trivial
  have hu₀ : Untouched s s₀ := by cases hd₀ with | flush hu => exact hu
  rw [post_forM_append, post_forM_map, hrange, post_forM_append]
  refine (Post.forM (I := fun s₁ => FbOk s₁ ∧ s₁.currentConfig = s.currentConfig ∧
    (Leaving s → Leaving s₁)) (fun ix hix s₁ ⟨h₁, hc₁, hl₁⟩ => ?_)
    ⟨h₀, hu₀.currentConfig, hu₀.sameEp1.leaving.2⟩).imp fun _ s₁ ⟨h₁, hc₁, hl₁⟩ => ?_
  · have hne : ix ≠ ep1InReq.ix := (List.mem_range.1 hix).ne
    exact (hsweep ix s₁ h₁ hc₁).imp fun _ _ ⟨h₂, hc₂, hd⟩ =>
      ⟨h₂, hc₂, fun hl => (hd.leaving hne).2 (hl₁ hl)⟩
  rw [post_forM_cons]
  refine (hsweep 17 s₁ h₁ hc₁).imp fun _ s₂ ⟨h₂, _, hd⟩ => ?_
  have hin : SweptIn s.currentConfig s₂ := hc₁ ▸ hd.sweptIn rfl h₁ h₂
  have hnot : ¬Leaving s := fun hl => hd.left.1 (hl₁ hl)
  rw [post_forM_map]
  have hlt : ∀ ix, ep1InReq.ix < ix + 18 := fun ix => Nat.lt_add_left ix (by decide)
  refine (Post.forM (fun ix _ s₃ h₃ => h₃.sweep (hlt ix)) hin).imp fun _ s₃ h₃ => ?_
  rw [post_forM_singleton]
  refine (step_post h₃.ok .disable).mono (fun _ s₄ ⟨h₄, hd₄⟩ => ?_) fun _ _ _ => trivial
  cases hd₄ with
  | disable hu hctrl =>
    have hsame := hu.sameEp1
    exact ⟨⟨⟨h₄, hu.currentConfig.trans h₃.config, h₃.calm.imp hsame.in_.trans hsame.busy,
      fun hc => hsame.in_.trans (h₃.empty hc)⟩, hctrl⟩, hnot⟩

end

/-! ### The enumeration -/

/-- Steps of polls without a reset or suspend that complete no request but those of endpoint 0. -/
def UsbdStep.Enumerates : UsbdStep → Prop
  | .change _ | .finish _ => True
  | .complete ix => ix = ep0OutReq.ix ∨ ix = ep0InReq.ix
  | .setup ix _ => ix = 0
  | _ => False

instance : DecidablePred UsbdStep.Enumerates
  | .change _ | .finish _ => isTrue trivial
  | .complete ix => inferInstanceAs (Decidable (ix = ep0OutReq.ix ∨ ix = ep0InReq.ix))
  | .setup ix _ => inferInstanceAs (Decidable (ix = 0))
  | .init | .flush | .sweep _ | .disable => isFalse id

/-- SET_CONFIGURATION with a value whose low byte is `c`. -/
def UsbdStep.Sets (c : UInt8) (st : UsbdStep) : Prop :=
  ∃ rq, st = .setup 0 rq ∧ rq.St usbReqDevW usbReqSetConfiguration ∧ rq.wValue.toUInt8 = c

/-- Configuration 0 has been current since the reset. -/
structure Renewed (s : Fb) : Prop where
  ok : FbOk s
  ep1 : Unconfigured s ∧ s.reqs ep1InReq.ix = none ∨ s.currentConfig = 1 ∧ Ready s

/-- Configuration 1 is left from before the reset. -/
structure Stale (s : Fb) : Prop where
  ok : FbOk s
  config : s.currentConfig = 1
  calm : Calm s
  disabled : s.epCtrl 1 = 0

section
variable {s s' : Fb}

theorem SameEp1.renewed (h : SameEp1 s s') (hctrl : s'.epCtrl 1 = s.epCtrl 1) (hok : FbOk s')
    (hs : Renewed s) : Renewed s' := by
  refine ⟨hok, hs.ep1.imp (fun ⟨hu, hn⟩ => ⟨?_, h.in_.trans hn⟩) fun ⟨hc, hr⟩ => ?_⟩
  · exact hok.unconfigured (h.config.trans hu.config)
  · exact ⟨h.config.trans hc, hctrl.trans hr.enabled, h.listening hr.out, h.in_.trans hr.in_,
      by rw [h.ctx]; exact hr.inCommand⟩

theorem SameEp1.stale (h : SameEp1 s s') (hctrl : s'.epCtrl 1 = s.epCtrl 1) (hok : FbOk s')
    (hs : Stale s) : Stale s' :=
  ⟨hok, h.config.trans hs.config, hs.calm.imp h.in_.trans h.busy, hctrl.trans hs.disabled⟩

theorem Renewed.calm (h : Renewed s) : Calm s :=
  .inl (h.ep1.elim And.right fun h => h.2.in_)

theorem Deconfigured.empty {s₁ : Fb} (h : Deconfigured s s₁) (hs : Calm s) :
    s₁.reqs ep1InReq.ix = none := by
  refine h.slot.resolve_right fun ⟨hb, _⟩ => ?_
  rcases hs with hs | hs
  · exact absurd (hs.symm.trans hb.1) (by simp)
  · exact absurd (hb.2.symm.trans hs.2) (by decide)

theorem Usbd.Configures.answers {rq : UsbCtrlrequest} {c : UInt8} (h : s.Configures rq c)
    (hc : c ≤ 1) : s.Answers rq :=
  .inr (.inr (.inl ⟨h.1, .inr (h.2.2 ▸ hc)⟩))

/-- A step of an enumeration leaves endpoint 1 as it is, or sets a configuration. -/
inductive EnumDone (s s' : Fb) (st : UsbdStep) : Prop
  | same (h : SameEp1 s s') (hctrl : s'.epCtrl 1 = s.epCtrl 1)
      (hno : ∀ rq, st = .setup 0 rq → ∀ c ≤ 1, ¬s.Configures rq c)
  | deconfigured {rq : UsbCtrlrequest} (hst : st = .setup 0 rq) (hrq : s.Configures rq 0)
      (hempty : Calm s → s'.reqs ep1InReq.ix = none) (h : Unconfigured s')
  | enabled {rq : UsbCtrlrequest} (hst : st = .setup 0 rq) (hrq : s.Configures rq 1)
      (hslot : s.reqs ep1OutReq.ix = none) (hctrl : s'.epCtrl 1 = epCtrlBulk)
      (hin : s'.reqs ep1InReq.ix = s.reqs ep1InReq.ix) (hctx : s'.ctx = s.ctx)
      (hout : Listening s') (hconfig : s'.currentConfig = 1)

theorem StepDone.enum {st : UsbdStep} (h : StepDone s s' st) (he : st.Enumerates) :
    EnumDone s s' st := by
  cases h with
  | init => exact he.elim
  | flush => exact he.elim
  | sweep => exact he.elim
  | disable => exact he.elim
  | change hu hctrl => exact .same hu.sameEp1 (by rw [hctrl]) nofun
  | finish hs' =>
    obtain ⟨hu, hctrl⟩ := finishAll_untouched _ s
    rw [hs']
    exact .same hu.sameEp1 (by rw [hctrl]) nofun
  | complete hd =>
    cases hd with
    | ep0Out hk hctx => exact .same (.of_keeps hk hctx) (by rw [hk.epCtrl]) nofun
    | ep0In hk hctx => exact .same (.of_keeps hk hctx) (by rw [hk.epCtrl]) nofun
    | ep1Out => exact absurd he (by unfold UsbdStep.Enumerates; decide)
    | ep1In => exact absurd he (by unfold UsbdStep.Enumerates; decide)
  | stall hix => exact absurd he hix
  | @setup rq hd =>
    cases hd with
    | stalled hno hu hctrl =>
      refine .same hu.sameEp1 hctrl fun rq' hrq c hc hcfg => hno ?_
      obtain rfl : rq = rq' := by simpa using hrq
      exact hcfg.answers hc
    | answered hyes hno hsame hctrl =>
      refine .same hsame (by rw [hctrl]) fun rq' hrq c _ => ?_
      obtain rfl : rq = rq' := by simpa using hrq
      exact hno c
    | deconfigured hrq hd hsame hctrl =>
      exact .deconfigured rfl hrq (fun hcalm => hsame.in_.trans (hd.empty hcalm))
        (hd.unconfigured hsame)
    | enabled hrq hd hsame hctrl =>
      refine .enabled rfl hrq hd.slot ?_ (hsame.in_.trans hd.only.in_reqs)
        (hsame.ctx.trans hd.only.ctx) ?_ hsame.config
      · rw [hctrl, hd.only.keeps.epCtrl]
        show Function.update s.epCtrl 1 epCtrlBulk 1 = epCtrlBulk
        rw [Function.update_self]
      · obtain ⟨h1, h2, h3, h4, h5⟩ := hd.out
        exact hsame.listening ⟨h1, h2, h3, h4, h5⟩

theorem EnumDone.renewed {st : UsbdStep} (h : EnumDone s s' st) (hs : Renewed s) (hok : FbOk s') :
    Renewed s' := by
  cases h with
  | same h hctrl hno => exact h.renewed hctrl hok hs
  | deconfigured hst hrq hempty h => exact ⟨hok, .inl ⟨h, hempty hs.calm⟩⟩
  | enabled hst hrq hslot hctrl hin hctx hout hconfig =>
    rcases hs.ep1 with ⟨hu, hn⟩ | ⟨hc, hr⟩
    · exact ⟨hok, .inr ⟨hconfig, hctrl, hout, hin.trans hn, by rw [hctx]; exact hu.inCommand⟩⟩
    · exact absurd hr.out.slot (by simp [hslot])

theorem Stale.slot (h : Stale s) : s.reqs ep1OutReq.ix ≠ none := by
  have hc := h.ok.configured (by rw [h.config]; decide)
  rcases hc.out with ho | ho <;> simp [ho.slot]

theorem EnumDone.stale {st : UsbdStep} (h : EnumDone s s' st) (hs : Stale s) (hok : FbOk s') :
    st.Sets 0 ∧ Renewed s' ∨ ¬st.Sets 0 ∧ Stale s' := by
  cases h with
  | same h hctrl hno =>
    refine .inr ⟨?_, h.stale hctrl hok hs⟩
    rintro ⟨rq, rfl, hrq, hc⟩
    refine hno rq rfl 0 (by decide) ⟨hrq, fun h => ?_, hc⟩
    rw [h, hs.config] at hc
    exact absurd hc (by decide)
  | deconfigured hst hrq hempty h =>
    exact .inl ⟨⟨_, hst, hrq.1, hrq.2.2⟩, hok, .inl ⟨h, hempty hs.calm⟩⟩
  | enabled hst hrq hslot => exact absurd hslot hs.slot

theorem Renewed.step {st : UsbdStep} (h : Renewed s) (he : st.Enumerates) :
    Post (st.run fbClient) (fun _ => Renewed) (fun _ _ => True) s :=
  (step_post h.ok st).mono (fun _ _ hd => (hd.2.enum he).renewed h hd.1) fun _ _ _ => trivial

theorem Renewed.steps {l : List UsbdStep} (h : Renewed s) (he : ∀ st ∈ l, st.Enumerates) :
    Post (l.forM (·.run fbClient)) (fun _ => Renewed) (fun _ _ => True) s :=
  .forM (fun st hst _ hs => hs.step (he st hst)) h

/-- The old configuration is left until configuration 0 is set. -/
theorem Stale.steps {l : List UsbdStep} (h : Stale s) (he : ∀ st ∈ l, st.Enumerates) :
    Post (l.forM (·.run fbClient))
      (fun _ s' => (∃ st ∈ l, st.Sets 0) ∧ Renewed s' ∨ (¬∃ st ∈ l, st.Sets 0) ∧ Stale s')
      (fun _ _ => True) s := by
  induction l generalizing s with
  | nil => exact post_forM_nil.2 (.inr ⟨by simp, h⟩)
  | cons st l ih =>
    have he' : ∀ st ∈ l, st.Enumerates := fun st hst => he st (by simp [hst])
    rw [post_forM_cons]
    refine (step_post h.ok st).mono (fun _ s₁ ⟨hok, hd⟩ => ?_) fun _ _ _ => trivial
    rcases (hd.enum (he st (by simp))).stale h hok with ⟨hset, hr⟩ | ⟨hset, hs₁⟩
    · exact (hr.steps he').imp fun _ _ hr => .inl ⟨⟨st, by simp, hset⟩, hr⟩
    · refine (ih hs₁ he').imp fun _ _ => Or.imp (fun ⟨⟨st', hm, h'⟩, hr⟩ => ?_) fun ⟨hno, hs'⟩ => ?_
      · exact ⟨⟨st', by simp [hm], h'⟩, hr⟩
      · refine ⟨?_, hs'⟩
        rintro ⟨st', hm, h'⟩
        rcases List.mem_cons.1 hm with rfl | hm
        · exact hset h'
        · exact hno ⟨st', hm, h'⟩

end

/-! ### A reset and an enumeration -/

/-- The poll is a reset of the bus. -/
def PollInput.IsReset (inp : PollInput) : Prop :=
  inp.usbsts &&& usbstsSli = 0 ∧ inp.usbsts &&& usbstsReset ≠ 0

theorem PollInput.IsReset.steps {inp : PollInput} (h : inp.IsReset) : inp.steps = resetSteps := by
  have hsts : inp.usbsts ≠ 0 := fun h0 => h.2 (by simp [h0])
  rw [PollInput.steps, if_pos hsts, if_neg (not_not.2 h.1), if_pos h.2, resetSteps]

/-- The poll belongs to an enumeration. -/
def PollInput.Enumerates (inp : PollInput) : Prop := ∀ st ∈ inp.steps, st.Enumerates

instance : DecidablePred PollInput.Enumerates := fun inp =>
  inferInstanceAs (Decidable (∀ st ∈ inp.steps, st.Enumerates))

/-- The last SETUP packet of the poll is SET_CONFIGURATION with the value 1. -/
def PollInput.Configures (inp : PollInput) : Prop :=
  ∃ l rq, inp.steps = l ++ [.setup 0 rq] ∧ rq.St usbReqDevW usbReqSetConfiguration ∧ rq.wValue = 1

section
variable {s s' : Fb} {rq : UsbCtrlrequest}

/-- SET_CONFIGURATION with the value 1, in a configuration that is new. -/
theorem Renewed.ready (h : Renewed s) (hrq : rq.St usbReqDevW usbReqSetConfiguration)
    (hv : rq.wValue = 1) (hd : EnumDone s s' (.setup 0 rq)) (hok : FbOk s') : Ready s' := by
  have hs' := hd.renewed h hok
  refine hs'.ep1.elim (fun ⟨hu, _⟩ => ?_) And.right
  have hval : rq.wValue.toUInt8 = 1 := by rw [hv]; rfl
  cases hd with
  | same hsame hctrl hno =>
    refine absurd ⟨hrq, ?_, hval⟩ (hno rq rfl 1 (by decide))
    rw [hv, ← hsame.config, hu.config]
    decide
  | deconfigured hst hrq' =>
    obtain rfl : rq = _ := by simpa using hst
    exact absurd (hval.symm.trans hrq'.2.2) (by decide)
  | enabled hst hrq' hslot hctrl hin hctx hout hconfig =>
    exact absurd (hconfig.symm.trans hu.config) (by decide)

theorem Stale.not_ready (h : Stale s) : ¬Ready s := fun hr =>
  absurd (h.disabled.symm.trans hr.enabled) (by decide)

theorem WasReset.renewed (h : WasReset 0 s) : Renewed s :=
  ⟨h.ok, .inl ⟨h.ok.unconfigured h.config, h.empty rfl⟩⟩

theorem WasReset.stale (h : WasReset 1 s) : Stale s := ⟨h.ok, h.config, h.calm, h.disabled⟩

theorem FbOk.config_cases (h : FbOk s) : s.currentConfig = 0 ∨ s.currentConfig = 1 :=
  h.ep1.imp Unconfigured.config Configured.config

end

theorem UsbdStep.Enumerates.restores : ∀ {st : UsbdStep}, st.Enumerates → st.Restores
  | .change _, _ | .finish _, _ => trivial
  | .complete _, h | .setup .., h => h

theorem resetSteps_restores : ∀ st ∈ resetSteps, st.Restores := by
  simp only [resetSteps, List.mem_cons, List.mem_append, List.mem_map, List.not_mem_nil, or_false]
  rintro _ (rfl | ⟨ix, -, rfl⟩ | rfl) <;> trivial

section
variable {s : Fb} {reset last : PollInput} {polls : List PollInput}

/-- After a reset and an enumeration that ends with SET_CONFIGURATION(1), the device is ready just
when no configuration was current at the reset or the enumeration has set configuration 0. -/
theorem FbOk.ready_iff (hok : FbOk s) (hreset : reset.IsReset) (henum : ∀ inp ∈ polls, inp.Enumerates)
    (hlast : last.Enumerates) (hconfig : last.Configures) :
    Post (usbdLoop fbClient (reset :: polls ++ [last]))
      (fun _ s' => ¬Leaving s ∧ (Ready s' ↔
        s.currentConfig = 0 ∨ ∃ st ∈ polls.flatMap steps ++ last.steps, st.Sets 0))
      (fun _ _ => True) s := by
  obtain ⟨l, rq, hl, hrq, hv⟩ := hconfig
  have hfinal : ¬(UsbdStep.setup 0 rq).Sets 0 := by
    rintro ⟨rq', h, -, hc⟩
    obtain rfl : rq = rq' := by simpa using h
    rw [hv] at hc
    exact absurd hc (by decide)
  have hsets : (∃ st ∈ polls.flatMap steps ++ last.steps, st.Sets 0) ↔
      ∃ st ∈ polls.flatMap steps ++ l, st.Sets 0 := by
    simp only [hl, List.mem_append, List.mem_singleton, or_and_right, exists_or, exists_eq_left,
      hfinal, or_false]
  have hstep : ∀ s₁, FbOk s₁ → Post ((UsbdStep.setup 0 rq).run fbClient)
      (fun _ s₂ => FbOk s₂ ∧ EnumDone s₁ s₂ (.setup 0 rq)) (fun _ _ => True) s₁ := fun s₁ h₁ =>
    (step_post h₁ _).mono (fun _ _ hd => ⟨hd.1, hd.2.enum rfl⟩) fun _ _ _ => trivial
  have hinit : ∀ st ∈ polls.flatMap steps ++ l, st.Enumerates := by
    intro st hst
    rcases List.mem_append.1 hst with hst | hst
    · obtain ⟨inp, hinp, hst⟩ := List.mem_flatMap.1 hst
      exact henum inp hinp st hst
    · exact hlast st (by simp [hl, hst])
  have hsteps : (reset :: polls ++ [last]).flatMap steps =
      resetSteps ++ ((polls.flatMap steps ++ l) ++ [.setup 0 rq]) := by
    simp [hreset.steps, hl]
  rw [usbdLoop_steps, hsteps, hsets, post_forM_append]
  refine (resetSteps_post hok).imp fun _ s₁ ⟨h₁, hnot⟩ => ?_
  rw [post_forM_append]
  rcases hok.config_cases with hc | hc
  · rw [hc] at h₁
    refine (h₁.renewed.steps hinit).imp fun _ s₂ h₂ => post_forM_singleton.2 ?_
    exact (hstep s₂ h₂.ok).imp fun _ s₃ h₃ =>
      ⟨hnot, iff_of_true (h₂.ready hrq hv h₃.2 h₃.1) (.inl hc)⟩
  · rw [hc] at h₁
    have hne : s.currentConfig ≠ 0 := by rw [hc]; decide
    refine (h₁.stale.steps hinit).imp fun _ s₂ h₂ => post_forM_singleton.2 ?_
    rcases h₂ with ⟨hset, h₂⟩ | ⟨hset, h₂⟩
    · exact (hstep s₂ h₂.ok).imp fun _ s₃ h₃ =>
        ⟨hnot, iff_of_true (h₂.ready hrq hv h₃.2 h₃.1) (.inr hset)⟩
    · refine (hstep s₂ h₂.ok).imp fun _ s₃ h₃ => ⟨hnot, iff_of_false ?_ (not_or.2 ⟨hne, hset⟩)⟩
      exact ((h₃.2.stale h₂ h₃.1).resolve_left fun h => hfinal h.1).2.not_ready

theorem restores_of_enumerates (hreset : reset.IsReset) (henum : ∀ inp ∈ polls, inp.Enumerates)
    (hlast : last.Enumerates) : ∀ st ∈ (reset :: polls ++ [last]).flatMap steps, st.Restores := by
  simp only [List.cons_append, List.flatMap_cons, List.flatMap_append, List.mem_append,
    List.mem_flatMap, List.flatMap_nil, List.append_nil, hreset.steps]
  rintro st (h | ⟨inp, hinp, h⟩ | h)
  · exact resetSteps_restores st h
  · exact (henum inp hinp st h).restores
  · exact (hlast st h).restores

end

/-- **A reset of the bus restores the device**, once an enumeration has set configuration 1: the run
comes to its end with the device waiting for a command, just when every slot is empty that a request
is submitted to, and no configuration was current at the reset or the enumeration has set
configuration 0. The reset itself ends a program whose last response hands over. -/
theorem ready_iff_of_reset {m : Fb} (hm : NoReqs m) (size fdt : UInt64) (inps : List PollInput)
    {reset : PollInput} (hreset : reset.IsReset) {polls : List PollInput}
    (henum : ∀ inp ∈ polls, inp.Enumerates) {last : PollInput} (hlast : last.Enumerates)
    (hconfig : last.Configures) :
    Post (fbRun size fdt inps)
      (fun _ s =>
        Along (UsbdStep.run fbClient) Filled ((reset :: polls ++ [last]).flatMap steps) s →
          (Post (usbdLoop fbClient (reset :: polls ++ [last])) (fun _ => Ready)
              (fun e _ => e.Restarts) s ↔
            Along (UsbdStep.run fbClient) epGood ((reset :: polls ++ [last]).flatMap steps) s ∧
              (Leaving s ∨ s.currentConfig = 0 ∨
                ∃ st ∈ polls.flatMap steps ++ last.steps, st.Sets 0)))
      (fun e _ => e ≠ .depth) m := by
  refine (fbRun_ne_depth hm size fdt inps).imp fun _ s hok hf => ?_
  have hl := restores_of_enumerates hreset henum hlast
  have hready := hok.ready_iff hreset henum hlast hconfig
  constructor
  · intro h
    have hg := hok.good_of_run hl hf (usbdLoop_steps fbClient _ ▸ h.imp fun _ _ _ => trivial)
    refine ⟨hg, or_iff_not_imp_left.2 fun hnot => ?_⟩
    have hrun := hok.run_of_good hl hf hg
    rw [← usbdLoop_steps] at hrun
    exact ((hrun.and (h.and hready)).mono (fun _ _ hd => hd.2.2.2.1 hd.2.1) fun _ _ he =>
      absurd he.1.2 hnot).const
  · rintro ⟨hg, hcond⟩
    have hrun := hok.run_of_good hl hf hg
    rw [← usbdLoop_steps] at hrun
    exact (hready.and hrun).mono (fun _ _ hd => hd.1.2.2 (hcond.resolve_left hd.1.1))
      fun _ _ he => he.2.1

/-- The configuration is current at the reset and is set again: the endpoints stay disabled. And
where a download of no bytes waits for its first packet with `DATA` still in its slot, the reset
acknowledges the download and finds the slot taken. -/
theorem not_ready_of_reset :
    FbAlong Reported 0x2000 0 [setConfig 1, busReset, setConfig 1] machine ∧
    Post (fbRun 0x2000 0 [setConfig 1])
      (fun _ s => Post (usbdLoop fbClient [busReset, setConfig 1]) (fun _ s' => ¬Ready s')
        (fun _ _ => False) s)
      (fun _ _ => False) machine ∧
    Post (fbRun 0x2000 0 [setConfig 1, command "download:0"])
      (fun _ s => Post (usbdLoop fbClient [busReset, setConfig 0, setConfig 1]) (fun _ _ => False)
        (fun e _ => e = .inFlight ep1InReq.ix) s)
      (fun _ _ => False) machine :=
  ⟨by decide +kernel, by decide +kernel, by decide +kernel⟩

theorem ready_iff_of_reset_download :
    Post (fbRun 0x2000 0 [setConfig 1, command "download:8"])
      (fun _ s => Post (usbdLoop fbClient
          (busReset :: [setConfig 0, done ep0InReq.ix 0 []] ++ [setConfig 1])) (fun _ => Ready)
        (fun e _ => e.Restarts) s)
      (fun e _ => e ≠ .depth) machine := by
  have hall := @ready_iff_of_reset machine rfl 0x2000 0 [setConfig 1, command "download:8"]
    busReset ⟨by decide, by decide⟩ [setConfig 0, done ep0InReq.ix 0 []] (by decide) (setConfig 1)
    (by decide) ⟨[.finish _], _, rfl, ⟨rfl, rfl⟩, rfl⟩
  have hset : (UsbdStep.setup 0 ⟨usbReqDevW, usbReqSetConfiguration, 0, 0, 0⟩).Sets 0 :=
    ⟨_, rfl, ⟨rfl, rfl⟩, rfl⟩
  have hgood : Post (fbRun 0x2000 0 [setConfig 1, command "download:8"])
      (fun _ s => Along (UsbdStep.run fbClient) Filled
          ((busReset :: [setConfig 0, done ep0InReq.ix 0 []] ++ [setConfig 1]).flatMap steps) s ∧
        Along (UsbdStep.run fbClient) epGood
          ((busReset :: [setConfig 0, done ep0InReq.ix 0 []] ++ [setConfig 1]).flatMap steps) s)
      (fun _ _ => True) machine := by
    decide +kernel
  refine (hall.and hgood).mono (fun _ s h => (h.1 h.2.1).2 ⟨h.2.2, ?_⟩) fun _ _ h => h.1
  exact .inr (.inr ⟨_, List.mem_append_left _ (List.mem_cons_of_mem _ List.mem_cons_self), hset⟩)

end ShieldLoader
