import ShieldLoader.Fb.Steps

/-!
# Runs of the loader

Runs from `fb_launch` on: the invariant of the device holds along them, and they stop only for the
reasons of `StepStops`.
-/

namespace ShieldLoader

open EStateM Usbd

/-- `fb_launch` with the polls of its loop. -/
def fbRun (size fdt : UInt64) (inps : List PollInput) : FbM Unit := do
  fbLaunch size fdt
  usbdLoop fbClient inps

/-- Every step of the run starts in a state with `G`. -/
def FbAlong (G : UsbdStep → Fb → Prop) (size fdt : UInt64) (inps : List PollInput) (m : Fb) :
    Prop :=
  Post (fbLaunch size fdt)
    (fun _ => Along (UsbdStep.run fbClient) G (inps.flatMap PollInput.steps)) (fun _ _ => True) m

/-- No request has been submitted since the machine was started. -/
def NoReqs (m : Fb) : Prop := m.reqs = fun _ => none

section
variable {m : Fb} {size fdt : UInt64} {inps : List PollInput}

/-- The state in which `fb_launch` calls `usbd_init`. -/
theorem fbOk_of_noReqs {s : Fb} (hreqs : s.reqs = fun _ => none)
    (hreq : ∀ r, (s.req r).complete = none ∧ (s.req r).cancel = false)
    (hcfg : s.currentConfig = 0) (hcmd : s.ctx.inCommand = false) : FbOk s where
  ep0 := ⟨.inl (by rw [hreqs]), .inl (by rw [hreqs]), fun _ _ => by rw [hreqs], (hreq _).1,
    .inl (hreq _).1⟩
  inOk := ⟨.inl (by rw [hreqs]), fun c hc => by simp [(hreq _).1] at hc⟩
  ep1 := .inl ⟨hcfg, by rw [hreqs], (hreq _).2, hcmd, .inl (by rw [hreqs])⟩

/-- The device after `fb_launch`. -/
structure Launched (s : Fb) : Prop where
  ok : FbOk s
  unconfigured : Unconfigured s
  lastLoaded : s.ctx.lastLoaded = 0
  idle : ¬FlashPending s

theorem fbLaunch_post (hm : NoReqs m) : Post (fbLaunch size fdt) (fun _ => Launched)
    (fun e _ => e = .bug ∨ e = .lmbOverrun ∨ ∃ type, e = .reboot type) m := by
  rw [fbLaunch, post_bind, post_lmbCall]
  refine ⟨fun _ => .inr (.inl rfl), fun a lmb _ => ?_⟩
  rw [post_bind, post_modify, post_bind]
  refine usbdReqInit_post (fun _ => .inl rfl) ?_
  rw [post_bind]
  refine usbdReqInit_post (fun _ => .inl rfl) ?_
  set s₁ : Fb := initReq ep1InReq (initReq ep1OutReq _) with hs₁
  have hreq : ∀ r, (s₁.req r).complete = none ∧ (s₁.req r).cancel = false := by
    intro r
    rw [hs₁]
    simp only [initReq, Function.update_apply]
    split_ifs <;> exact ⟨rfl, rfl⟩
  have hok : FbOk s₁ := fbOk_of_noReqs hm hreq rfl rfl
  have hidle : ¬FlashPending s₁ := by simp [FlashPending, hreq]
  rw [post_bind]
  refine (usbdInit_post hok).mono ?_ fun e s' he => ?_
  · rintro - s' ⟨rfl, hok', hd⟩
    refine post_ite.2 ⟨fun h => absurd rfl h, fun _ => post_pure.2 ?_⟩
    refine ⟨hok', hd.unconfigured, ?_, fun h => hidle (hd.flash h)⟩
    have hload := hd.load
    simp only [FbMem.load, Prod.mk.injEq] at hload
    exact hload.1
  · cases he with
    | bug => exact .inl rfl
    | lmbOverrun => exact .inr (.inl rfl)
    | inFlight h => exact h.elim
    | reboot type => exact .inr (.inr ⟨type, rfl⟩)
    | jump fdt hc => exact absurd hc hidle

/-- A run keeps the invariant of the device, and stops in a step for a reason of `StepStops`. -/
theorem fbRun_post {G : UsbdStep → Fb → Prop} (hm : NoReqs m) (hgood : FbAlong G size fdt inps m)
    {E : Halt → Fb → Prop} (hlaunch : ∀ e s', e = .bug ∨ e = .lmbOverrun ∨
      (∃ type, e = .reboot type) → E e s')
    (hstops : ∀ st s e s', FbOk s → G st s → StepStops s st e s' → E e s') :
    Post (fbRun size fdt inps) (fun _ => FbOk) E m := by
  refine post_bind.2 (((fbLaunch_post hm).and hgood).mono ?_ fun e s' h => hlaunch e s' h.1)
  rintro - s ⟨hs, hl⟩
  rw [usbdLoop_steps]
  refine hl.forM (fun st s hs hg => ?_) hs.ok
  exact (step_post hs st).mono (fun _ _ hd => hd.1) fun e s' he => hstops st s e s' hs hg he

end

theorem StepStops.ne_depth {s s' : Fb} {st : UsbdStep} {e : Halt} (h : StepStops s st e s') :
    e ≠ .depth := by
  have hcall : ∀ {blame : Prop} {s' : Fb}, ¬CallStops s blame .depth s' := fun h => nomatch h
  rintro rfl
  cases h with
  | init h => exact hcall h
  | sweep h => cases h with | in_ _ h => exact hcall h
  | complete h => cases h with | out _ h => exact hcall h | in_ _ h => exact hcall h
  | setup h => cases h with | deconfigured _ h => exact hcall h

/-- Callbacks are never nested deeper than `fbDepth`. -/
theorem fbRun_ne_depth {m : Fb} (hm : NoReqs m) (size fdt : UInt64) (inps : List PollInput) :
    Post (fbRun size fdt inps) (fun _ => FbOk) (fun e _ => e ≠ .depth) m := by
  have hall : ∀ l s, Along (UsbdStep.run fbClient) (fun _ _ => True) l s := by
    intro l
    induction l with
    | nil => exact fun _ => trivial
    | cons st l ih =>
      refine fun s => ⟨trivial, post_iff.2 ⟨fun _ s' _ => ih s', fun _ _ _ => trivial⟩⟩
  refine fbRun_post hm (G := fun _ _ => True) (post_iff.2 ⟨fun _ s _ => hall _ s, fun _ _ _ =>
    trivial⟩) ?_ fun st s e s' _ _ h => h.ne_depth
  rintro _ - (rfl | rfl | ⟨type, rfl⟩) <;> simp

/-- The bits of EPTCOMPLETE that a poll reads are of requests that the controller works on. -/
def Reported (st : UsbdStep) (s : Fb) : Prop :=
  match st with
  | .finish finished => ∀ ix < maxReqs, (finished ix).isSome → s.primed ix
  | _ => True

/-! ### A machine -/

section
variable (s : Fb)

instance (c : Option (Complete FbComplete)) : Decidable (Busy c s) :=
  inferInstanceAs (Decidable (_ ∧ _))

instance : Decidable (Listening s) :=
  decidable_of_iff
    (s.reqs ep1OutReq.ix = some ep1OutReq ∧
      (s.req ep1OutReq).complete = some (.client .rxCmdComplete) ∧
      (s.req ep1OutReq).buffer = .small ∧ (s.req ep1OutReq).bufferLength = 64 ∧
      (s.req ep1OutReq).cancel = false)
    ⟨fun ⟨h1, h2, h3, h4, h5⟩ => ⟨h1, h2, h3, h4, h5⟩, fun ⟨h1, h2, h3, h4, h5⟩ =>
      ⟨h1, h2, h3, h4, h5⟩⟩

instance : Decidable (Receiving s) :=
  decidable_of_iff
    (s.reqs ep1OutReq.ix = some ep1OutReq ∧
      (s.req ep1OutReq).complete = some (.client .rxDataComplete) ∧
      (s.req ep1OutReq).buffer = .addr (s.ctx.lastLoaded + (s.ctx.loadSize - s.ctx.loadRem)) ∧
      (s.req ep1OutReq).bufferLength = min s.ctx.loadRem.toUInt32 maxTransfer ∧
      (s.req ep1OutReq).cancel = false)
    ⟨fun ⟨h1, h2, h3, h4, h5⟩ => ⟨h1, h2, h3, h4, h5⟩, fun ⟨h1, h2, h3, h4, h5⟩ =>
      ⟨h1, h2, h3, h4, h5⟩⟩

instance : Decidable (Free s) := inferInstanceAs (Decidable (_ ∨ _ ∧ ¬_))

instance (error : Bool) (rem : UInt64) : Decidable (OutBlame error rem s) :=
  inferInstanceAs (Decidable (_ ∧ _ ∧ ¬_ ∨ _ ∧ _ ∧ _))

instance : Decidable (StatusStage s) := inferInstanceAs (Decidable (_ ∧ _))

instance : Decidable (Ends s) := inferInstanceAs (Decidable (_ = _ ∨ _ = _))

instance (rq : UsbCtrlrequest) (c : UInt8) : Decidable (s.Configures rq c) :=
  inferInstanceAs (Decidable (_ ∧ _ ∧ _))

instance (rq : UsbCtrlrequest) : Decidable (s.Answers rq) :=
  inferInstanceAs (Decidable (_ ∨ _ ∧ _ ∨ _ ∧ _ ∨ _))

instance (rq : UsbCtrlrequest) : Decidable (s.SetsConfig rq) :=
  inferInstanceAs (Decidable ((_ → _ → ¬_) ∧ (_ → _)))

instance (st : UsbdStep) : Decidable (Reported st s) :=
  match st with
  | .finish finished =>
    inferInstanceAs (Decidable (∀ ix < maxReqs, (finished ix).isSome → s.primed ix))
  | .init | .flush | .sweep _ | .disable | .change _ | .complete _ | .setup .. => isTrue trivial

instance (G : UsbdStep → Fb → Prop) [∀ st s, Decidable (G st s)] (size fdt : UInt64)
    (inps : List PollInput) (m : Fb) : Decidable (FbAlong G size fdt inps m) :=
  inferInstanceAs (Decidable (Post ..))

end

/-- A machine with 1 GiB of memory and nothing reserved. -/
def machine : Fb where
  ctx :=
    { inCommand := false
      lastLoaded := 0
      loadSize := 0
      loadRem := 0
      loadAlign := 0
      peek := ⟨0, 0, 0, false⟩
      reboot := 0
      fdt := 0
      lmb :=
        { memory := ⟨1, fun _ => ⟨0x80000000, 0x40000000, 0, .boot⟩⟩
          reserved := ⟨1, fun _ => lmbDummy⟩ }
      console := []
      smcCalls := []
      smc := fun _ => (0, 0, 0, 0) }
  reqs := fun _ => none
  req := fun _ => ⟨false, false, .small, 0, 0, none⟩
  small := fun _ => []
  smallAddr := fun _ => 0x8ffff000
  hs := false
  descs := none
  currentConfig := 0
  mem := fun _ => 0
  td := fun _ => ⟨0, 0, 0, 0, 0, 0, 0⟩
  primed := fun _ => false
  epCtrl := fun _ => 0
  devAddr := 0
  submits := fun _ => 0
  cancels := fun _ => 0

/-- The machine waits for a command. -/
def waiting : Fb :=
  { machine with
    currentConfig := 1
    reqs := fun ix => if ix = ep1OutReq.ix then some ep1OutReq else none
    req := fun r =>
      if r = ep1OutReq then ⟨false, false, .small, 0, 64, some (.client .rxCmdComplete)⟩
      else ⟨false, false, .small, 0, 0, none⟩
    small := fun _ => List.replicate 64 0 }

theorem fbOk_waiting : FbOk waiting where
  ep0 := by
    refine ⟨.inl rfl, .inl rfl, fun ix hix => if_neg ?_, rfl, .inl rfl⟩
    rintro rfl
    exact hix (by decide)
  inOk := ⟨.inl rfl, fun c hc => by simp [waiting, ep1InReq, ep1OutReq, fbEp1In, fbEp1Out] at hc⟩
  ep1 := .inr ⟨rfl, .inl (by decide)⟩

namespace PollInput

/-- A SETUP packet has come. -/
def packet (rq : UsbCtrlrequest) : PollInput := ⟨0, 0, fun _ => none, [(0, rq)]⟩

/-- SET_CONFIGURATION. -/
def setConfig (config : UInt16) : PollInput :=
  .packet ⟨usbReqDevW, usbReqSetConfiguration, config, 0, 0⟩

/-- GET_CONFIGURATION. -/
def getConfig : PollInput := .packet ⟨usbReqDevR, usbReqGetConfiguration, 0, 0, 1⟩

/-- A reset of the bus. -/
def busReset : PollInput := ⟨usbstsReset, 0, fun _ => none, []⟩

/-- The transfer of this endpoint has ended with `rest` bytes left and `data` received. -/
def done (ix : Nat) (rest : UInt32) (data : List UInt8) : PollInput :=
  ⟨0, 0, fun i => if i = ix then some ⟨rest <<< 16, data⟩ else none, []⟩

/-- The IN transfer of endpoint 1 has ended. -/
def sent : PollInput := .done ep1InReq.ix 0 []

/-- A command has come. -/
def command (s : String) : PollInput :=
  .done ep1OutReq.ix (64 - UInt32.ofNat (bytes s).length) (bytes s)

/-- The last bytes of a download have come. -/
def received (data : List UInt8) : PollInput := .done ep1OutReq.ix 0 data

end PollInput

end ShieldLoader
