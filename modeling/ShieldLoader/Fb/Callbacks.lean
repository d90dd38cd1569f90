import ShieldLoader.Fb.Responses

/-!
# The callbacks of `fb.c`

What each callback does to the two requests of endpoint 1, and why it can stop. A callback of the IN
request runs when its slot is empty, and so does one of the OUT request.
-/

namespace ShieldLoader

open EStateM Usbd

/-- The requests of endpoint 1. -/
def Ep1 (r : Req) : Prop := ep1OutReq = r ∨ ep1InReq = r

/-- The callbacks of the IN request. -/
def FbComplete.IsIn (k : FbComplete) : Prop := k.IsOem ∨ k = .cmdFlashComplete

/-- The slot of the IN request holds it or nothing, and its callback is one of a response. -/
structure InOk (s : Fb) : Prop where
  slot : s.reqs ep1InReq.ix = none ∨ s.reqs ep1InReq.ix = some ep1InReq
  kind : ∀ c ∈ (s.req ep1InReq).complete, ∃ k : FbComplete, k.IsIn ∧ c = .client k

/-- The IN request is in its slot, with this callback. -/
def Busy (c : Option (Complete FbComplete)) (s : Fb) : Prop :=
  s.reqs ep1InReq.ix = some ep1InReq ∧ (s.req ep1InReq).complete = c

/-- The OUT request waits for a command. -/
structure Listening (s : Fb) : Prop where
  slot : s.reqs ep1OutReq.ix = some ep1OutReq
  complete : (s.req ep1OutReq).complete = some (.client .rxCmdComplete)
  buffer : (s.req ep1OutReq).buffer = .small
  bufferLength : (s.req ep1OutReq).bufferLength = 64
  cancel : (s.req ep1OutReq).cancel = false

/-- The OUT request waits for the next bytes of a download. -/
structure Receiving (s : Fb) : Prop where
  slot : s.reqs ep1OutReq.ix = some ep1OutReq
  complete : (s.req ep1OutReq).complete = some (.client .rxDataComplete)
  buffer : (s.req ep1OutReq).buffer =
    .addr (s.ctx.lastLoaded + (s.ctx.loadSize - s.ctx.loadRem))
  bufferLength : (s.req ep1OutReq).bufferLength = min s.ctx.loadRem.toUInt32 maxTransfer
  cancel : (s.req ep1OutReq).cancel = false

/-- Why a callback stops that was called in the state `s`, and where: the IN slot is taken only if
`blame` holds, and an image is started only by its callback. -/
inductive CallStops (s : Fb) (blame : Prop) : Halt → Fb → Prop
  | bug {s' : Fb} : CallStops s blame .bug s'
  | lmbOverrun {s' : Fb} : CallStops s blame .lmbOverrun s'
  | inFlight {s' : Fb} (h : blame) : CallStops s blame (.inFlight ep1InReq.ix) s'
  | reboot {s' : Fb} (type : UInt32) : CallStops s blame (.reboot type) s'
  | jump {s' : Fb} (fdt : UInt64)
      (hc : (s.req ep1InReq).complete = some (.client .cmdFlashComplete))
      (hload : s'.ctx.load = s.ctx.load) (hmem : s'.mem = s.mem) :
      CallStops s blame (.jump s'.flashEntry fdt) s'

theorem Stops.call {s s' : Fb} {e : Halt} (h : Stops s e) {t : Fb} {blame : Prop}
    (hb : s.reqs ep1InReq.ix ≠ none → blame) : CallStops t blame e s' := by
  rcases h with rfl | rfl | ⟨rfl, h⟩
  · exact .bug
  · exact .lmbOverrun
  · exact .inFlight (hb h)

theorem CallStops.mono {s t s' : Fb} {e : Halt} {blame blame' : Prop} (h : CallStops s blame e s')
    (hb : blame → blame') (hc : (t.req ep1InReq).complete = (s.req ep1InReq).complete)
    (hl : t.ctx.load = s.ctx.load) (hm : t.mem = s.mem) : CallStops t blame' e s' := by
  cases h with
  | bug => exact .bug
  | lmbOverrun => exact .lmbOverrun
  | inFlight h => exact .inFlight (hb h)
  | reboot type => exact .reboot type
  | jump fdt hk hload hmem =>
    exact .jump fdt (hc.trans hk) (hload.trans hl.symm) (hmem.trans hm.symm)

theorem Responds.busy {s s' : Fb} {c : Option (Complete FbComplete)} (h : Responds c s s') :
    Busy c s' := h.2

theorem Busy.inOk {s : Fb} {k : FbComplete} (h : Busy (some (.client k)) s) (hk : k.IsIn) :
    InOk s :=
  ⟨.inr h.1, fun c hc => ⟨k, hk, by rw [h.2] at hc; exact (Option.some.inj hc).symm⟩⟩

/-! ### Callbacks of the IN request -/

/-- The callback of the IN request starts the image. -/
def FlashPending (s : Fb) : Prop :=
  (s.req ep1InReq).complete = some (.client .cmdFlashComplete)

/-- The callback of the IN request does not return. -/
def Ends (s : Fb) : Prop :=
  (s.req ep1InReq).complete = some (.client .cmdRebootComplete) ∨ FlashPending s

/-- The callback of the IN request has been called. -/
structure InDone (s s' : Fb) : Prop where
  keeps : Keeps (Eq ep1InReq) s s'
  load : s'.ctx.load = s.ctx.load
  inOk : InOk s'
  inCommand : s'.ctx.inCommand = s.ctx.inCommand ∨ s'.ctx.inCommand = false
  ended : (s.req ep1InReq).complete = some (.client .endCommandComplete) →
    s'.reqs ep1InReq.ix = none ∧ s'.ctx.inCommand = false
  failed : (s.req ep1InReq).error = true → s'.reqs ep1InReq.ix = none ∨
    (s.req ep1InReq).complete = some (.client .endCommandWithInfoComplete) ∧
      Busy (some (.client .endCommandComplete)) s'
  flash : FlashPending s' → FlashPending s
  goes : ¬Ends s

theorem not_ends {s : Fb} {k : FbComplete} (h : (s.req ep1InReq).complete = some (.client k))
    (hk : k ∉ [.cmdRebootComplete, .cmdFlashComplete]) : ¬Ends s := by
  have hne : ∀ k', (s.req ep1InReq).complete = some (.client k') → k = k' := by
    intro k' h'
    simpa [h] using h'
  rintro (h' | h')
  · exact hk (by simp [hne _ h'])
  · exact hk (by simp [hne _ h'])

theorem InDone.of_responds {s s' : Fb} {k k' : FbComplete} (hk : k.IsOem)
    (h : Responds (some (.client k)) s s') (hc : (s.req ep1InReq).complete = some (.client k'))
    (hne : k' ≠ .endCommandComplete) (hg : k' ∉ [.cmdRebootComplete, .cmdFlashComplete])
    (hf : (s.req ep1InReq).error = true →
      k' = .endCommandWithInfoComplete ∧ k = .endCommandComplete) : InDone s s' where
  keeps := h.1.keeps
  load := h.1.load
  inOk := h.busy.inOk (.inl hk)
  inCommand := .inl h.1.inCommand
  ended h' := absurd (by simpa [hc] using h') hne
  failed he := by obtain ⟨rfl, rfl⟩ := hf he; exact .inr ⟨hc, h.busy⟩
  flash hf := by
    obtain rfl : k = .cmdFlashComplete := by simpa [FlashPending, h.2.2] using hf
    exact absurd hk (by decide)
  goes := not_ends hc hg

/-- Each callback of the IN request, called with its slot empty, is done or starts something
else. -/
theorem fbNotifyIn_post {n : Nat} {s : Fb} (hin : InOk s) (hs : s.reqs ep1InReq.ix = none) :
    Post (usbdNotify (usbdCall (fbComplete (n + 1))) ep1InReq) (fun _ => InDone s)
      (CallStops s False) s := by
  refine post_usbdNotify.2 ⟨fun hc => ?_, fun c hc => ?_⟩
  · exact ⟨.refl s, rfl, hin, .inl rfl, fun h => by simp [hc] at h, fun _ => .inl hs, id,
      by simp [Ends, FlashPending, hc]⟩
  obtain ⟨k, hk, rfl⟩ := hin.kind c hc
  have hstops : ∀ {e : Halt} {s' : Fb}, Stops s e → CallStops s False e s' :=
    fun he => he.call (absurd hs)
  cases k with
  | endCommandComplete =>
    refine post_modify.2 ⟨.setCtx _, rfl, ⟨.inl hs, hin.kind⟩, .inr rfl, fun _ => ⟨hs, rfl⟩,
      fun _ => .inl hs, id, not_ends hc (by decide)⟩
  | endCommandWithInfoComplete =>
    refine (fbEndCommand_post s fbOk).mono (fun _ s' h => ?_) fun _ _ => hstops
    exact .of_responds (by decide) h hc (by decide) (by decide) fun _ => ⟨rfl, rfl⟩
  | oemCmdPeekExe =>
    refine (fbOemCmdPeekExe_post s (some ep1InReq)).mono ?_ fun _ _ he => hstops he.2
    rintro _ s' (⟨-, rfl⟩ | ⟨he, h⟩)
    · exact ⟨.refl s', rfl, hin, .inl rfl, fun h => by simp [hc] at h, fun _ => .inl hs, id,
        not_ends hc (by decide)⟩
    · have hne : (s.req ep1InReq).error = true → ¬(s.req ep1InReq).error = false := by simp
      rcases h with h | h
      · exact .of_responds (by decide) h hc (by decide) (by decide) fun h' => absurd he (hne h')
      · exact .of_responds (by decide) h hc (by decide) (by decide) fun h' => absurd he (hne h')
  | cmdRebootComplete =>
    simp only [usbdCall, fbComplete, fbCmdRebootComplete, usbdFini, post_bind, post_usbdHwReset,
      post_get, post_throw]
    exact .reboot _
  | cmdFlashComplete =>
    simp only [usbdCall, fbComplete, fbCmdFlashComplete, usbdFini, post_bind, post_usbdHwReset,
      post_get, post_throw]
    exact @CallStops.jump s False { s with primed := fun _ => false } _ hc rfl rfl
  | rxCmdComplete => exact absurd hk (by simp [FbComplete.IsIn, FbComplete.IsOem])
  | rxDataComplete => exact absurd hk (by simp [FbComplete.IsIn, FbComplete.IsOem])

/-- The IN request has been cancelled: its slot is empty, or `OKAY` has taken the place of a text
that came before it. -/
structure InCancelled (s s' : Fb) : Prop where
  keeps : Keeps (Eq ep1InReq) s s'
  load : s'.ctx.load = s.ctx.load
  inOk : InOk s'
  inCommand : s'.ctx.inCommand = s.ctx.inCommand ∨ s'.ctx.inCommand = false
  slot : s'.reqs ep1InReq.ix = none ∨
    Busy (some (.client .endCommandWithInfoComplete)) s ∧
      Busy (some (.client .endCommandComplete)) s'
  flash : FlashPending s' → FlashPending s
  goes : s.reqs ep1InReq.ix ≠ none → ¬Ends s

theorem InOk.setReq {s : Fb} (h : InOk s) {f : UsbdReq FbComplete → UsbdReq FbComplete}
    (hf : (f (s.req ep1InReq)).complete = (s.req ep1InReq).complete) :
    InOk (s.setReq ep1InReq f) :=
  ⟨h.slot, by rw [setReq_req, Function.update_self, hf]; exact h.kind⟩

theorem fbCancelIn_post {n : Nat} {s : Fb} (hin : InOk s) :
    Post (usbdReqCancel (usbdCall (fbComplete (n + 1))) ep1InReq) (fun _ => InCancelled s)
      (CallStops s False) s := by
  refine post_usbdReqCancel.2 ⟨fun h => ?_, fun h => ?_⟩
  · exact ⟨.refl s, rfl, hin, .inl rfl, .inl (hin.slot.resolve_right h), id,
      fun hne => absurd (hin.slot.resolve_right h) hne⟩
  have hcomplete : ((s.cancelled ep1InReq).req ep1InReq).complete = (s.req ep1InReq).complete := by
    rw [cancelled_req, Function.update_self]
  have hempty : (s.cancelled ep1InReq).reqs ep1InReq.ix = none := by
    rw [cancelled_reqs, Function.update_self]
  have hin' : InOk (s.cancelled ep1InReq) := ⟨.inl hempty, by rw [hcomplete]; exact hin.kind⟩
  refine (fbNotifyIn_post hin' hempty).mono (fun _ s' hd => ?_) fun e s' he =>
    he.mono id hcomplete.symm rfl rfl
  have hcomplete' : ((s'.setReq ep1InReq fun q => { q with cancel := false }).req
      ep1InReq).complete = (s'.req ep1InReq).complete := by
    rw [setReq_req, Function.update_self]
  refine ⟨((Keeps.cancelled rfl).trans hd.keeps).trans (.setReq rfl _), hd.load,
    hd.inOk.setReq rfl, hd.inCommand, ?_,
    fun hf => hcomplete.symm.trans (hd.flash (hcomplete'.symm.trans hf)),
    fun _ => by rw [Ends, FlashPending, ← hcomplete]; exact hd.goes⟩
  refine (hd.failed ?_).imp_right fun ⟨hc, hb⟩ => ?_
  · rw [cancelled_req, Function.update_self]
  · exact ⟨⟨h, hcomplete ▸ hc⟩, hb.1, hcomplete'.trans hb.2⟩

/-! ### Callbacks of the OUT request -/

/-- Nothing but the OUT request has changed. -/
structure OutOnly (s s' : Fb) : Prop where
  keeps : Keeps (Eq ep1OutReq) s s'
  ctx : s'.ctx = s.ctx
  small : s'.small = s.small
  mem : s'.mem = s.mem

theorem OutOnly.refl (s : Fb) : OutOnly s s := ⟨.refl s, rfl, rfl, rfl⟩

section
variable {s : Fb} (hs : s.reqs ep1OutReq.ix = none) (hc : (s.req ep1OutReq).cancel = false)
  (E : Halt → Fb → Prop)
include hs hc

theorem fbRxCmd_post : Post fbRxCmd (fun _ s' => OutOnly s s' ∧ Listening s' ∧
    (s'.req ep1OutReq).error = (s.req ep1OutReq).error) E s := by
  rw [fbRxCmd, post_bind, post_modify, post_usbdReqSubmit]
  refine ⟨fun h => absurd hs h, fun _ => ⟨⟨(Keeps.setReq rfl _).trans (.submitted rfl), rfl, rfl, rfl⟩,
    ?_, ?_⟩⟩
  · constructor <;> simp only [submitted_reqs, submitted_req, setReq_req, Function.update_self]
    · decide
    · exact hc
  · simp only [submitted_req, setReq_req, Function.update_self]

theorem fbRxData_post : Post fbRxData (fun _ s' => OutOnly s s' ∧ Receiving s') E s := by
  rw [fbRxData, post_bind, post_get, post_bind, post_modify, post_usbdReqSubmit]
  refine ⟨fun h => absurd hs h, fun _ => ⟨⟨(Keeps.setReq rfl _).trans (.submitted rfl), rfl, rfl, rfl⟩,
    ?_⟩⟩
  constructor <;>
    simp only [submitted_reqs, submitted_req, submitted_ctx, setReq_req, setReq_ctx,
      Function.update_self]
  exact hc

end

/-- The OUT request is not in its slot, or waits for a command or for data. -/
def OutOk (s : Fb) : Prop :=
  s.reqs ep1OutReq.ix = none ∧ (s.req ep1OutReq).cancel = false ∨ Listening s ∨ Receiving s

theorem OutOk.slot {s : Fb} (h : OutOk s) :
    s.reqs ep1OutReq.ix = none ∨ s.reqs ep1OutReq.ix = some ep1OutReq :=
  h.imp And.left fun h => h.elim Listening.slot Receiving.slot

theorem OutOk.cancel {s : Fb} (h : OutOk s) : (s.req ep1OutReq).cancel = false := by
  rcases h with h | h | h
  · exact h.2
  · exact h.cancel
  · exact h.cancel

/-- The callbacks of the OUT request do nothing when it is cancelled. -/
theorem fbNotifyOut_cancelled {n : Nat} {s : Fb} {Q : Unit → Fb → Prop} {E : Halt → Fb → Prop}
    (hk : (s.req ep1OutReq).complete = some (.client .rxCmdComplete) ∨
      (s.req ep1OutReq).complete = some (.client .rxDataComplete))
    (hc : (s.req ep1OutReq).cancel = true) (he : (s.req ep1OutReq).error = true) (hq : Q () s) :
    Post (usbdNotify (usbdCall (fbComplete (n + 1))) ep1OutReq) Q E s := by
  refine post_usbdNotify.2 ⟨fun h => by simp [h] at hk, fun c hc' => ?_⟩
  rcases hk with hk | hk
  · obtain rfl := Option.some.inj (hc'.symm.trans hk)
    simpa [usbdCall, fbComplete, fbRxCmdComplete, hc, he] using hq
  · obtain rfl := Option.some.inj (hc'.symm.trans hk)
    simpa [usbdCall, fbComplete, fbRxDataComplete, hc, he] using hq

theorem fbCancelOut_post {n : Nat} {s : Fb} (h : OutOk s) (E : Halt → Fb → Prop) :
    Post (usbdReqCancel (usbdCall (fbComplete (n + 1))) ep1OutReq)
      (fun _ s' => OutOnly s s' ∧ s'.reqs ep1OutReq.ix = none ∧
        (s'.req ep1OutReq).cancel = false) E s := by
  refine post_usbdReqCancel.2 ⟨fun hne => ?_, fun hs => ?_⟩
  · exact ⟨.refl s, h.slot.resolve_right hne, h.cancel⟩
  have hk : (s.req ep1OutReq).complete = some (.client .rxCmdComplete) ∨
      (s.req ep1OutReq).complete = some (.client .rxDataComplete) := by
    rcases h with h | h | h
    · exact absurd hs (by simp [h.1])
    · exact .inl h.complete
    · exact .inr h.complete
  refine fbNotifyOut_cancelled ?_ ?_ ?_
    ⟨⟨(Keeps.cancelled rfl).trans (.setReq rfl _), rfl, rfl, rfl⟩, ?_, ?_⟩
  all_goals simp only [cancelled_req, cancelled_reqs, setReq_reqs, setReq_req, Function.update_self]
  exact hk

/-! ### Commands -/

section
variable {s s' : Fb}

theorem Usbd.Keeps.out_reqs (h : Keeps (Eq ep1InReq) s s') :
    s'.reqs ep1OutReq.ix = s.reqs ep1OutReq.ix := h.reqs _ (by rintro _ rfl; decide)

theorem Usbd.Keeps.out_req (h : Keeps (Eq ep1InReq) s s') :
    s'.req ep1OutReq = s.req ep1OutReq := h.req _ (by decide)

theorem OutOnly.in_reqs (h : OutOnly s s') : s'.reqs ep1InReq.ix = s.reqs ep1InReq.ix :=
  h.keeps.reqs _ (by rintro _ rfl; decide)

theorem OutOnly.in_req (h : OutOnly s s') : s'.req ep1InReq = s.req ep1InReq :=
  h.keeps.req _ (by decide)

theorem Listening.of_keeps (h : Listening s) (hk : Keeps (Eq ep1InReq) s s') : Listening s' := by
  obtain ⟨h1, h2, h3, h4, h5⟩ := h
  rw [← hk.out_req] at h2 h3 h4 h5
  exact ⟨hk.out_reqs.trans h1, h2, h3, h4, h5⟩

theorem Receiving.of_keeps (h : Receiving s) (hk : Keeps (Eq ep1InReq) s s')
    (hl : s'.ctx.load = s.ctx.load) : Receiving s' := by
  obtain ⟨h1, h2, h3, h4, h5⟩ := h
  simp only [FbMem.load, Prod.mk.injEq] at hl
  obtain ⟨l1, l2, l3, -⟩ := hl
  rw [← hk.out_req] at h2 h3 h4 h5
  rw [← l1, ← l2, ← l3] at h3
  rw [← l3] at h4
  exact ⟨hk.out_reqs.trans h1, h2, h3, h4, h5⟩

theorem InOk.of_outOnly (h : InOk s) (ho : OutOnly s s') : InOk s' :=
  ⟨by rw [ho.in_reqs]; exact h.slot, by rw [ho.in_req]; exact h.kind⟩

theorem Busy.of_outOnly {c : Option (Complete FbComplete)} (h : Busy c s) (ho : OutOnly s s') :
    Busy c s' :=
  ⟨ho.in_reqs.trans h.1, by rw [ho.in_req]; exact h.2⟩

theorem InOk.of_still (h : InOk s) (hs : s'.reqs ep1InReq.ix = s.reqs ep1InReq.ix)
    (hr : (s'.req ep1InReq).complete = (s.req ep1InReq).complete) : InOk s' :=
  ⟨by rw [hs]; exact h.slot, by rw [hr]; exact h.kind⟩

theorem Usbd.Keeps.ep1_in (h : Keeps (Eq ep1InReq) s s') : Keeps Ep1 s s' := h.mono fun _ => .inr

theorem OutOnly.ep1 (h : OutOnly s s') : Keeps Ep1 s s' := h.keeps.mono fun _ => .inl

end

/-- The command is `download:`. -/
def FbSelected.IsDownload : FbSelected → Bool
  | .download _ => true
  | .oem _ | .reboot _ | .flash _ | .unknown => false

/-- A command that responds has gone through. -/
inductive Answered (sel : FbSelected) (s s' : Fb) : Prop
  | responds (hload : s'.ctx.load = s.ctx.load ∨ s'.ctx.lastLoaded = 0) (hout : Listening s')
      {k : FbComplete} (hk : k.IsOem) (hin : Busy (some (.client k)) s')
  | flash {cmd : List UInt8} (hsel : sel = .flash cmd) (hrun : strcmp cmd (bytes "run") = true)
      (hload : s'.ctx.load = s.ctx.load) (hloaded : s.ctx.lastLoaded ≠ 0) (hout : Listening s')
      (hin : Busy (some (.client .cmdFlashComplete)) s')
  | download (hout : Receiving s') (hloaded : s'.ctx.lastLoaded ≠ 0)
      (hrem : s'.ctx.loadRem = s'.ctx.loadSize) (hin : Busy none s')

/-- A command has returned a status that is still to be sent. -/
structure Unanswered (s s' : Fb) : Prop where
  load : s'.ctx.load = s.ctx.load ∨ s'.ctx.lastLoaded = 0
  out : Listening s'
  slot : s'.reqs ep1InReq.ix = s.reqs ep1InReq.ix

/-- A command has been carried out. -/
structure Dispatched (sel : FbSelected) (s : Fb) (st : FbStatus) (s' : Fb) : Prop where
  keeps : Keeps Ep1 s s'
  inCommand : s'.ctx.inCommand = s.ctx.inCommand
  result : st ≠ fbOk ∧ Unanswered s s' ∨ st = fbOk ∧ Answered sel s s'

theorem fbCmdDownload_discard_post (s : Fb) :
    Post fbCmdDownload.discard (fun _ s' => s' = { s with ctx := s'.ctx } ∧
      s'.ctx.inCommand = s.ctx.inCommand ∧ s'.ctx.lastLoaded = 0)
      (fun e _ => e = .lmbOverrun) s := by
  simp only [fbCmdDownload.discard, post_bind, post_get, post_ite, post_pure]
  refine ⟨fun _ => ?_, fun h => ⟨trivial, trivial, not_not.1 h⟩⟩
  rw [post_lmbCall]
  exact ⟨fun _ => rfl, fun _ _ _ => post_modify.2 ⟨rfl, rfl, rfl⟩⟩

/-- `download:` frees the last image, and waits for data when it gets a block. -/
theorem fbCmdDownload_post {n : Nat} {s : Fb} (hout : Listening s) (sel : FbSelected)
    (cmd : List UInt8) : Post (fbCmdDownload (usbdCall (fbComplete (n + 1))) cmd) (Dispatched sel s)
      (fun e _ => Stops s e) s := by
  rw [fbCmdDownload, post_bind]
  refine (fbCmdDownload_discard_post s).mono ?_ fun _ _ he => .inr (.inl he)
  rintro - s₁ ⟨h₁, hcmd, hzero⟩
  rw [h₁]
  generalize s₁.ctx = fb at hcmd hzero
  -- only `fb_mem` differs from `s` until the request is cancelled
  have hrefused : ∀ {fb' : FbMem} {st : FbStatus}, fb'.inCommand = s.ctx.inCommand →
      fb'.lastLoaded = 0 → st ≠ fbOk → Dispatched sel s st { s with ctx := fb' } :=
    fun hc hz hst => ⟨{ Keeps.refl s with }, hc, .inl ⟨hst, .inr hz, { hout with }, rfl⟩⟩
  rcases simpleStrtoull cmd 16 with ⟨size, cmd⟩
  simp only [post_ite, post_pure]
  refine ⟨fun _ => hrefused hcmd hzero (by decide), fun _ => ?_⟩
  rw [post_bind, post_lmbCall]
  refine ⟨fun _ => .inr (.inl rfl), fun addr lmb _ => ?_⟩
  simp only [post_bind, post_modify, post_pure, post_ite]
  refine ⟨fun h => hrefused hcmd h (by decide), fun haddr => ?_⟩
  refine (fbCancelOut_post ?_ _).imp ?_
  · exact .inr (.inl { hout with })
  rintro - s₂ ⟨h₂, hslot, hcancel⟩
  refine (fbRequestData_post s₂).mono ?_ fun e _ he => ?_
  · rintro - s₃ ⟨h₃, hbusy⟩
    refine (fbRxData_post (h₃.keeps.out_reqs.trans hslot) ?_ _).imp ?_
    · rw [h₃.keeps.out_req]; exact hcancel
    rintro - s₄ ⟨h₄, hrecv⟩
    have hk : Keeps Ep1 s s₂ := by
      refine Keeps.trans ?_ h₂.ep1
      exact { Keeps.refl s with }
    have hload := h₃.load
    rw [h₂.ctx] at hload
    simp only [FbMem.load, setCtx_ctx, Prod.mk.injEq] at hload
    refine ⟨(hk.trans h₃.keeps.ep1_in).trans h₄.ep1, ?_, .inr ⟨rfl, ?_⟩⟩
    · rw [h₄.ctx, h₃.inCommand, h₂.ctx]; exact hcmd
    · refine .download hrecv ?_ ?_ (Busy.of_outOnly hbusy h₄)
      · rw [h₄.ctx, hload.1]; exact haddr
      · rw [h₄.ctx, hload.2.1, hload.2.2.1]
  · rwa [Stops, h₂.in_reqs] at he

theorem Command.dispatched {x : FbM FbStatus} (h : Command FbComplete.IsOem x) {s : Fb}
    (hout : Listening s) (sel : FbSelected) :
    Post x (Dispatched sel s) (fun e _ => Stops s e) s := by
  refine (h s).imp ?_
  rintro st s' (⟨hst, hq, hslot⟩ | ⟨hst, k, hk, hq, hb⟩)
  · exact ⟨hq.keeps.ep1_in, hq.inCommand,
      .inl ⟨hst, .inl hq.load, hout.of_keeps hq.keeps, hslot⟩⟩
  · exact ⟨hq.keeps.ep1_in, hq.inCommand,
      .inr ⟨hst, .responds (.inl hq.load) (hout.of_keeps hq.keeps) hk hb⟩⟩

theorem fbDispatch_post {n : Nat} {s : Fb} (hout : Listening s) (sel : FbSelected) :
    Post (fbDispatch (usbdCall (fbComplete (n + 1))) sel) (Dispatched sel s)
      (fun e _ => Stops s e) s := by
  cases sel with
  | oem cmd => exact (fbCmdOem_handler (W := fun _ => True) cmd (fun _ => trivial) fun _ =>
      trivial).command.dispatched hout _
  | reboot type => exact (fbCmdReboot_handler (W := fun _ => True) type).command.dispatched hout _
  | download cmd => exact fbCmdDownload_post hout _ cmd
  | flash cmd =>
    refine (fbCmdFlash_post cmd s).imp ?_
    rintro st s' (⟨hst, hq, hslot⟩ | ⟨hst, hrun, hloaded, hq, hb⟩)
    · exact ⟨hq.keeps.ep1_in, hq.inCommand,
        .inl ⟨hst, .inl hq.load, hout.of_keeps hq.keeps, hslot⟩⟩
    · exact ⟨hq.keeps.ep1_in, hq.inCommand,
        .inr ⟨hst, .flash rfl hrun hq.load hloaded (hout.of_keeps hq.keeps) hb⟩⟩
  | unknown => exact post_pure.2 ⟨.refl s, rfl, .inl ⟨by decide, .inl rfl, hout, rfl⟩⟩

/-- The IN slot is empty when a command that arrives now is answered. -/
def Free (s : Fb) : Prop :=
  s.reqs ep1InReq.ix = none ∨
    s.ctx.inCommand = true ∧ ¬Busy (some (.client .endCommandWithInfoComplete)) s

/-- The command that `fb_rx_cmd_complete` reads, from a buffer whose last byte it has set to NUL. -/
def Usbd.commandText (s : Fb) : List UInt8 :=
  (s.storeBuffer ep1OutReq .small 63 [0]).loadBuffer ep1OutReq .small 64

/-- `fb_rx_cmd_complete` has been called with its slot empty. -/
structure CmdDone (s s' : Fb) : Prop where
  keeps : Keeps Ep1 s s'
  failed : (s.req ep1OutReq).error = true → OutOnly s s' ∧ Listening s'
  done : (s.req ep1OutReq).error = false →
    s'.ctx.inCommand = true ∧ Answered (fbSelect s.commandText) s s'

theorem Usbd.commandText_of_small {s s' : Fb} (h : s'.small ep1OutReq = s.small ep1OutReq) :
    s'.commandText = s.commandText := by
  simp only [commandText, storeBuffer, loadBuffer, Function.update_self, h]

theorem Answered.of_load {sel : FbSelected} {s t s' : Fb} (h : Answered sel s s')
    (hl : s.ctx.load = t.ctx.load) : Answered sel t s' := by
  cases h with
  | responds hload hout hk hin => exact .responds (hload.imp_left hl.subst) hout hk hin
  | flash hsel hrun hload hloaded hout hin =>
    refine .flash hsel hrun (hload.trans hl) ?_ hout hin
    simp only [FbMem.load, Prod.mk.injEq] at hl
    exact hl.1 ▸ hloaded
  | download hout hloaded hrem hin => exact .download hout hloaded hrem hin

/-- The command of a state with the OUT request resubmitted is carried out. -/
theorem fbRxCmdComplete_command_post {n : Nat} {s : Fb} (hout : Listening s) :
    Post (fbRxCmdComplete.command (usbdCall (fbComplete (n + 1))) ep1OutReq .small)
      (fun _ s' => Keeps Ep1 s s' ∧ s'.ctx.inCommand = true ∧
        Answered (fbSelect s.commandText) s s') (fun e _ => Stops s e) s := by
  simp only [fbRxCmdComplete.command, post_bind, post_modify, post_get, post_ite, post_pure]
  set s₁ := storeBuffer ep1OutReq .small 63 [0]
    (setCtx (fun fb => { fb with inCommand := true }) s) with hs₁
  have htext : s₁.loadBuffer ep1OutReq .small 64 = s.commandText := rfl
  rw [htext]
  have hk₁ : Keeps Ep1 s s₁ := (Keeps.setCtx _).trans (.storeBuffer (.inl rfl) ..)
  have hreqs : s₁.reqs = s.reqs := by rw [hs₁, storeBuffer_reqs, setCtx_reqs]
  have hreq : s₁.req = s.req := by rw [hs₁, storeBuffer_req, setCtx_req]
  have hctx : s₁.ctx = { s.ctx with inCommand := true } := by rw [hs₁, storeBuffer_ctx]; rfl
  have hload : s₁.ctx.load = s.ctx.load := by rw [hctx]; rfl
  have hout₁ : Listening s₁ := by
    obtain ⟨g1, g2, g3, g4, g5⟩ := hout
    exact ⟨by rwa [hreqs], by rwa [hreq], by rwa [hreq], by rwa [hreq], by rwa [hreq]⟩
  have hstops : ∀ {s' : Fb} {e : Halt}, s'.reqs ep1InReq.ix = s₁.reqs ep1InReq.ix →
      Stops s' e → Stops s e := by
    intro s' e h' h
    rwa [Stops, h', hreqs] at h
  refine (fbDispatch_post hout₁ _).mono ?_ fun _ _ h => hstops rfl h
  rintro st s₂ ⟨hk₂, hcmd₂, hres⟩
  have hcmd : s₂.ctx.inCommand = true := by rw [hcmd₂, hctx]
  refine ⟨fun hst => ?_, fun hst => ?_⟩
  · obtain ⟨-, hans⟩ := hres.resolve_left fun h => h.1 hst
    exact ⟨hk₁.trans hk₂, hcmd, hans.of_load hload⟩
  · obtain ⟨-, href⟩ := hres.resolve_right fun h => hst h.1
    refine (fbEndCommand_post s₂ st).mono ?_ fun _ _ h => hstops href.slot h
    rintro - s₃ ⟨hq, hb⟩
    refine ⟨(hk₁.trans hk₂).trans hq.keeps.ep1_in, hq.inCommand.trans hcmd, ?_⟩
    refine .responds ?_ (href.out.of_keeps hq.keeps) (by decide) hb
    refine href.load.imp (fun h => (hq.load.trans h).trans hload) fun h => ?_
    have hq := hq.load
    simp only [FbMem.load, Prod.mk.injEq] at hq
    rw [hq.1, h]

theorem fbRxCmdComplete_post {n : Nat} {s : Fb} (hs : s.reqs ep1OutReq.ix = none)
    (hc : (s.req ep1OutReq).cancel = false) (hb : (s.req ep1OutReq).buffer = .small)
    (hin : InOk s) :
    Post (fbRxCmdComplete (usbdCall (fbComplete (n + 1))) ep1OutReq) (fun _ => CmdDone s)
      (CallStops s ((s.req ep1OutReq).error = false ∧ ¬Free s)) s := by
  simp only [fbRxCmdComplete, post_bind, post_get, hc, hb, Bool.not_false, if_true]
  refine (fbRxCmd_post hs hc _).imp ?_
  rintro - s₁ ⟨h₁, hout₁, herr⟩
  simp only [post_ite, post_bind, post_modify, post_pure, post_get]
  rw [herr, Bool.not_eq_true]
  refine ⟨fun he => ⟨h₁.ep1, fun _ => ⟨h₁, hout₁⟩, fun h => by simp [he] at h⟩, fun he => ?_⟩
  have hload : s₁.ctx.load = s.ctx.load := by rw [h₁.ctx]
  have hin₁ : InOk s₁ := hin.of_outOnly h₁
  -- the response before the command has been cancelled where there was one
  have hrest : ∀ s₂ : Fb, Keeps (Eq ep1InReq) s₁ s₂ → s₂.ctx.load = s₁.ctx.load →
      (s₂.reqs ep1InReq.ix = none ∨ ¬Free s) →
      Post (fbRxCmdComplete.command (usbdCall (fbComplete (n + 1))) ep1OutReq .small)
        (fun _ => CmdDone s)
        (CallStops s ((s.req ep1OutReq).error = false ∧ ¬Free s)) s₂ := by
    intro s₂ hk hl hfree
    have htext : s₂.commandText = s.commandText :=
      commandText_of_small ((hk.small _ (by decide)).trans (by rw [h₁.small]))
    refine (fbRxCmdComplete_command_post (hout₁.of_keeps hk)).mono ?_ ?_
    · rintro - s₃ ⟨hk₃, hcmd, hans⟩
      rw [htext] at hans
      exact ⟨(h₁.ep1.trans hk.ep1_in).trans hk₃, fun h => by simp [he] at h,
        fun _ => ⟨hcmd, hans.of_load (hl.trans hload)⟩⟩
    · exact fun e s' h => h.call fun hne => ⟨he, hfree.resolve_left hne⟩
  refine ⟨fun hcmd => ?_, fun hcmd => ?_⟩
  · refine (@fbCancelIn_post n (setCtx _ s₁) (.of_still hin₁ rfl rfl)).mono ?_ ?_
    · rintro - s₂ ⟨hk, hl, -, -, hslot, -, -⟩
      refine hrest s₂ ((Keeps.setCtx _).trans hk) hl (hslot.imp_right ?_)
      rintro ⟨hb, -⟩ (hf | hf)
      · have := hb.1
        rw [setCtx_reqs, h₁.in_reqs, hf] at this
        exact absurd this (by simp)
      · refine hf.2 ⟨?_, ?_⟩
        · rw [← h₁.in_reqs]; exact hb.1
        · rw [← h₁.in_req]; exact hb.2
    · exact fun e s' h => h.mono False.elim (by rw [← h₁.in_req]; rfl) hload.symm
        h₁.mem.symm
  · refine hrest s₁ (.refl s₁) rfl ?_
    by_cases hf : Free s
    · rcases hf with hf | hf
      · exact .inl (h₁.in_reqs.trans hf)
      · rw [h₁.ctx] at hcmd
        exact absurd hf.1 hcmd
    · exact .inr hf

theorem fbRxDataComplete_next_post {s : Fb} (hs : s.reqs ep1OutReq.ix = none)
    (hc : (s.req ep1OutReq).cancel = false) :
    Post fbRxDataComplete.next
      (fun _ s' => Keeps Ep1 s s' ∧ s'.ctx.inCommand = s.ctx.inCommand ∧
        s'.ctx.load = s.ctx.load ∧
        (s.ctx.loadRem = 0 →
          Listening s' ∧ Busy (some (.client .endCommandWithInfoComplete)) s') ∧
        (s.ctx.loadRem ≠ 0 → Receiving s' ∧ s'.reqs ep1InReq.ix = s.reqs ep1InReq.ix ∧
          s'.req ep1InReq = s.req ep1InReq))
      (fun e _ => s.ctx.loadRem = 0 ∧ Stops s e) s := by
  simp only [fbRxDataComplete.next, post_bind, post_get, post_ite]
  refine ⟨fun hz => ?_, fun hz => ?_⟩
  · refine (fbRxCmd_post hs hc _).imp ?_
    rintro - s₁ ⟨h₁, hout, -⟩
    refine (fbEndCommandWithInfo_post s₁ _).mono ?_ fun e _ he => ⟨hz, ?_⟩
    · rintro - s₂ ⟨hq, hb⟩
      exact ⟨h₁.ep1.trans hq.keeps.ep1_in, by rw [hq.inCommand, h₁.ctx],
        by rw [hq.load, h₁.ctx], fun _ => ⟨hout.of_keeps hq.keeps, hb⟩, fun h => absurd hz h⟩
    · rwa [Stops, h₁.in_reqs] at he
  · refine (fbRxData_post hs hc _).imp ?_
    rintro - s₁ ⟨h₁, hout⟩
    exact ⟨h₁.ep1, by rw [h₁.ctx], by rw [h₁.ctx], fun h => absurd h hz,
      fun _ => ⟨hout, h₁.in_reqs, h₁.in_req⟩⟩

/-- What is left of the download after a completion of the OUT request. -/
def remAfter (s : Fb) : UInt64 :=
  if (s.req ep1OutReq).error then s.ctx.loadRem
  else s.ctx.loadRem - (s.req ep1OutReq).ioDone.toUInt64

/-- `fb_rx_data_complete` has been called with its slot empty. -/
structure DataDone (s s' : Fb) : Prop where
  keeps : Keeps Ep1 s s'
  inCommand : s'.ctx.inCommand = s.ctx.inCommand
  load : s'.ctx.load = (s.ctx.lastLoaded, s.ctx.loadSize, remAfter s, s.ctx.loadAlign)
  last : remAfter s = 0 →
    Listening s' ∧ Busy (some (.client .endCommandWithInfoComplete)) s'
  more : remAfter s ≠ 0 → Receiving s' ∧ s'.reqs ep1InReq.ix = s.reqs ep1InReq.ix ∧
    s'.req ep1InReq = s.req ep1InReq

theorem fbRxDataComplete_post {s : Fb} (hs : s.reqs ep1OutReq.ix = none)
    (hc : (s.req ep1OutReq).cancel = false) :
    Post (fbRxDataComplete ep1OutReq) (fun _ => DataDone s)
      (fun e _ => remAfter s = 0 ∧ Stops s e) s := by
  rw [fbRxDataComplete, post_bind, post_get, post_ite]
  refine ⟨fun h => absurd h.2 (by simp [hc]), fun _ => ?_⟩
  simp only [post_bind, post_ite, post_modify, Bool.not_eq_true', Bool.not_eq_false]
  refine ⟨fun he => ?_, fun he => ?_⟩
  · have hr : remAfter s = s.ctx.loadRem - (s.req ep1OutReq).ioDone.toUInt64 := by
      rw [remAfter, he]; rfl
    refine (@fbRxDataComplete_next_post (setCtx _ s) hs hc).mono ?_
      fun e _ h => ⟨hr.trans h.1, h.2⟩
    rintro - s' ⟨h1, h2, h3, h4, h5⟩
    exact ⟨(Keeps.setCtx _).trans h1, h2, by rw [hr]; exact h3,
      fun hz => h4 (hr.symm.trans hz), fun hz => h5 fun h => hz (hr.trans h)⟩
  · have hr : remAfter s = s.ctx.loadRem := by rw [remAfter, he]; rfl
    refine (fbRxDataComplete_next_post hs hc).mono ?_ fun e _ h => ⟨hr.trans h.1, h.2⟩
    rintro - s' ⟨h1, h2, h3, h4, h5⟩
    exact ⟨h1, h2, by rw [hr]; exact h3, fun hz => h4 (hr.symm.trans hz),
      fun hz => h5 fun h => hz (hr.trans h)⟩

end ShieldLoader
