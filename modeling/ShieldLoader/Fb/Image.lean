import ShieldLoader.Fb.Runs

/-!
# What a step leaves alone

The tables of the allocator and the block of the last download, the image, are changed by
`download:`, by `oem alloc`, `oem alloc32` and `oem free`, and by nothing else: every other step of
a poll frames them.
-/

namespace ShieldLoader

open EStateM Usbd

/-- The tables of the allocator and the block of the last download. -/
def FbMem.image (fb : FbMem) : Lmb × UInt64 × UInt64 × UInt64 :=
  (fb.lmb, fb.lastLoaded, fb.loadSize, fb.loadAlign)

/-- The image, and the buffer that commands come in. -/
def Usbd.view (s : Fb) : (Lmb × UInt64 × UInt64 × UInt64) × List UInt8 :=
  (s.ctx.image, s.small ep1OutReq)

theorem Usbd.commandText_of_view {s s' : Fb} (h : s'.view = s.view) :
    s'.commandText = s.commandText :=
  commandText_of_small (congrArg Prod.snd h)

theorem Usbd.storeBuffer_view {r : Req} (hr : r ≠ ep1OutReq) (b : Buffer) (off : Nat)
    (data : List UInt8) (s : Fb) : (s.storeBuffer r b off data).view = s.view := by
  cases b with
  | small =>
    refine Prod.ext rfl ?_
    exact Function.update_of_ne hr.symm ..
  | addr a => rfl

/-! ### The driver -/

theorem usbdHwEpInit_frames (ep : Nat) (rxType txType : UsbdEpType) :
    Frames view (usbdHwEpInit ep rxType txType) :=
  .ite (.of_modify fun _ => rfl) (.of_pure _)

theorem usbdEpDisable_frames (epOut epIn : UsbdEp) : Frames view (usbdEpDisable epOut epIn) :=
  .guard (usbdHwEpInit_frames _ _ _)

theorem usbdReqInit_frames {r : Req} (hr : r ≠ ep1OutReq) : Frames view (usbdReqInit r) := by
  refine .modify_bind (fun s => Prod.ext rfl ?_) (.get_bind fun _ => .ite (.of_throw _) (.of_pure _))
  exact Function.update_of_ne hr.symm ..

theorem usbdReqSubmit_frames (r : Req) : Frames view (usbdReqSubmit r) :=
  fun _ => post_usbdReqSubmit.2 ⟨fun _ => rfl, fun _ => rfl⟩

theorem usbdEp0InReqComplete_frames (r : Req) : Frames view (usbdEp0InReqComplete r) :=
  .get_bind fun _ => .ite (.of_pure _) (.modify_bind (fun _ => rfl) (usbdReqSubmit_frames _))

theorem usbdEp0SetupAck_frames : Frames view usbdEp0SetupAck :=
  .modify_bind (fun _ => rfl) (usbdReqSubmit_frames _)

theorem usbdEp0SetupTx_frames (buf : List UInt8) (bufferLength : UInt32) :
    Frames view (usbdEp0SetupTx buf bufferLength) :=
  .modify_bind (fun _ => rfl) (.modify_bind (fun _ => storeBuffer_view (by decide) ..)
    (.modify_bind (fun _ => rfl) (usbdReqSubmit_frames _)))

/-! ### Callbacks -/

theorem fbEndCommandWithCustomComplete_frames (status : FbStatus) (complete : FbComplete) :
    Frames view (fbEndCommandWithCustomComplete status complete) := by
  refine .modify_bind (fun _ => rfl) (.get_bind fun _ => ?_)
  refine .guard (.modify_bind (fun _ => storeBuffer_view (by decide) ..) ?_)
  exact .modify_bind (fun _ => rfl) (usbdReqSubmit_frames _)

theorem fbEndCommand_frames (status : FbStatus) : Frames view (fbEndCommand status) :=
  fbEndCommandWithCustomComplete_frames _ _

theorem fbEndCommandWithInfo_frames (info : List UInt8) : Frames view (fbEndCommandWithInfo info) :=
  .modify_bind (fun _ => rfl) (.modify_bind (fun _ => storeBuffer_view (by decide) ..)
    (.modify_bind (fun _ => rfl) (usbdReqSubmit_frames _)))

theorem fbRequestData_frames : Frames view fbRequestData :=
  .modify_bind (fun _ => rfl) (.get_bind fun _ =>
    .modify_bind (fun _ => storeBuffer_view (by decide) ..)
      (.modify_bind (fun _ => rfl) (usbdReqSubmit_frames _)))

theorem fbRxCmd_frames : Frames view fbRxCmd :=
  .modify_bind (fun _ => rfl) (usbdReqSubmit_frames _)

theorem fbRxData_frames : Frames view fbRxData :=
  .get_bind fun _ => .modify_bind (fun _ => rfl) (usbdReqSubmit_frames _)

theorem fbOemCmdPeekExe_frames (req : Option Req) : Frames view (fbOemCmdPeekExe req) := by
  refine .get_bind fun s => .ite (.of_pure _) (.ite (fbEndCommand_frames _) ?_)
  refine .modify_bind (fun _ => rfl) ?_
  refine .modify_bind (fun _ => storeBuffer_view (by decide) ..) ?_
  exact .guard (.modify_bind (fun _ => rfl) (usbdReqSubmit_frames _))

theorem fbRxDataComplete_frames (r : Req) : Frames view (fbRxDataComplete r) := by
  have hnext : Frames view fbRxDataComplete.next :=
    .get_bind fun _ => .ite (fbRxCmd_frames.bind fun _ => .get_bind fun _ =>
      fbEndCommandWithInfo_frames _) fbRxData_frames
  exact .get_bind fun s => .ite (.of_pure _) (.ite (.modify_bind (fun _ => rfl) hnext) hnext)

theorem usbdFini_frames : Frames view (usbdFini : FbM Unit) := .of_modify fun _ => rfl

/-- A callback other than that of commands. -/
theorem fbComplete_frames {k : FbComplete} (hk : k ≠ .rxCmdComplete) (n : Nat) (r : Req) :
    Frames view (fbComplete n k r) := by
  cases n with
  | zero => exact .of_throw _
  | succ n =>
    cases k with
    | endCommandComplete => exact .of_modify fun _ => rfl
    | endCommandWithInfoComplete => exact fbEndCommand_frames _
    | oemCmdPeekExe => exact fbOemCmdPeekExe_frames _
    | cmdRebootComplete => exact usbdFini_frames.bind fun _ => .get_bind fun _ => .of_throw _
    | cmdFlashComplete =>
      exact .get_bind fun _ => usbdFini_frames.bind fun _ => .get_bind fun _ => .of_throw _
    | rxCmdComplete => exact absurd rfl hk
    | rxDataComplete => exact fbRxDataComplete_frames r

theorem fbRxCmd_error (r : Req) : Frames (fun s : Fb => (s.req r).error) fbRxCmd := by
  refine .modify_bind (fun s => ?_) fun s => post_usbdReqSubmit.2 ⟨fun _ => ?_, fun _ => ?_⟩
  all_goals
    simp only [submitted_req, setReq_req, Function.update_apply]
    split
    · next h => rw [h]
    · rfl

/-- The callback of commands does nothing to the image after an error. -/
theorem fbRxCmdComplete_error (call : Complete FbComplete → Req → FbM Unit) {r : Req} {s : Fb}
    (he : (s.req r).error = true) : Post (fbRxCmdComplete call r)
      (fun _ s' => s'.view = s.view) (fun _ s' => s'.view = s.view) s := by
  simp only [fbRxCmdComplete, post_bind, post_get, post_ite, post_pure]
  refine ⟨fun _ => ?_, fun _ => ⟨fun _ => trivial, fun h => absurd he h⟩⟩
  refine ((fbRxCmd_frames s).and (fbRxCmd_error r s)).mono (fun _ s' h => ?_) fun _ _ h => h.1
  exact ⟨fun _ => h.1, fun h' => absurd (h.2.trans he) h'⟩

/-- A request is called back after an error, or has another callback than that of commands. -/
theorem fbNotify_frames {n : Nat} {r : Req} {s : Fb}
    (h : (s.req r).complete = some (.client .rxCmdComplete) → (s.req r).error = true) :
    Post (usbdNotify (usbdCall (fbComplete n)) r) (fun _ s' => s'.view = s.view)
      (fun _ s' => s'.view = s.view) s := by
  refine post_usbdNotify.2 ⟨fun _ => rfl, fun c hc => ?_⟩
  cases c with
  | ep0InReqComplete => exact usbdEp0InReqComplete_frames r s
  | client k =>
    by_cases hk : k = .rxCmdComplete
    · subst hk
      cases n with
      | zero => exact post_throw.2 rfl
      | succ n => exact fbRxCmdComplete_error _ (h hc)
    · exact fbComplete_frames hk n r s

theorem fbCancel_frames (n : Nat) (r : Req) :
    Frames view (usbdReqCancel (usbdCall (fbComplete n)) r) := by
  intro s
  refine post_usbdReqCancel.2 ⟨fun _ => rfl, fun _ => ?_⟩
  refine (@fbNotify_frames n r (s.cancelled r) fun _ => ?_).mono (fun _ _ h => h) fun _ _ h => h
  rw [cancelled_req, Function.update_self]

/-! ### Steps -/

theorem fbSetConfig_frames (config : UInt8) : Frames view (fbSetConfig config) := by
  refine .ite (.of_pure _) (.ite ?_ ?_)
  · exact (usbdHwEpInit_frames _ _ _).bind fun _ => fbRxCmd_frames.bind fun _ => .of_pure _
  · refine (usbdEpDisable_frames _ _).bind fun _ => .modify_bind (fun _ => rfl) ?_
    exact (fbCancel_frames _ _).bind fun _ => (fbCancel_frames _ _).bind fun _ => .of_pure _

theorem usbdInit_frames : Frames view (usbdInit fbClient) := by
  refine (usbdReqInit_frames (by decide)).bind fun _ => ?_
  refine (usbdReqInit_frames (by decide)).bind fun _ => .modify_bind (fun _ => rfl) ?_
  refine .get_bind fun _ => (fbSetConfig_frames _).of_discard.bind fun _ => ?_
  exact .modify_bind (fun _ => rfl) (.modify_bind (fun _ => rfl) (.of_pure _))

theorem usbdEp0Setup_frames (rq : UsbCtrlrequest) : Frames view (usbdEp0Setup fbClient rq) := by
  have hack : ∀ st : UsbdStatus, Frames view (usbdEp0SetupAck >>= fun _ => (pure st : FbM _)) :=
    fun st => usbdEp0SetupAck_frames.bind fun _ => .of_pure _
  have hset : ∀ st : UsbdStatus, Frames view (if st ≠ .success then pure st else
      (modify (fun s : Fb => { s with currentConfig := rq.wValue.toUInt8 }) : FbM _) >>= fun _ =>
        usbdEp0SetupAck >>= fun _ => pure .success) :=
    fun st => .ite (.of_pure _) (.modify_bind (fun _ => rfl) (hack _))
  refine .ite (.modify_bind (fun _ => rfl) (hack _)) (.ite (.get_bind fun s => ?_) (.ite ?_ ?_))
  · split
    · exact .of_pure _
    · exact (usbdEp0SetupTx_frames _ _).bind fun _ => .of_pure _
  · refine .get_bind fun s => .ite ((fbSetConfig_frames _).bind hset) ((Frames.of_pure _).bind hset)
  · refine .ite (.get_bind fun _ => ?_) (.of_pure _)
    exact (usbdEp0SetupTx_frames _ _).bind fun _ => .of_pure _

theorem usbdPortSetup_round_frames (ix : Nat) (rq : UsbCtrlrequest) :
    Frames view (usbdPortSetup.round fbClient ix rq) := by
  have hstall : ∀ st : UsbdStatus,
      Frames view (if st ≠ .success then usbdHwEpStall ix else pure () : FbM Unit) :=
    fun st => .ite (.of_modify fun _ => rfl) (.of_pure _)
  exact .ite ((usbdEp0Setup_frames rq).bind hstall) ((Frames.of_pure _).bind hstall)

theorem usbdPortReset_sweep_frames (ix : Nat) :
    Frames view (usbdPortReset.sweep fbClient.call ix) := by
  intro s
  refine post_usbdPortReset_sweep.2 ⟨fun _ => rfl, fun r _ => ?_⟩
  refine (fbNotify_frames fun _ => ?_).mono (fun _ _ h => h) fun _ _ h => h
  rw [setReq_req, Function.update_self]

/-- A completed request that is not a command that has come. -/
theorem usbdCompletions_round_frames {ix : Nat} {s : Fb}
    (h : ∀ r, s.reqs ix = some r → (s.req r).complete = some (.client .rxCmdComplete) →
      s.failed r.ix = true) :
    Post (usbdCompletions.round fbClient.call ix) (fun _ s' => s'.view = s.view)
      (fun _ s' => s'.view = s.view) s := by
  refine post_usbdCompletions_round.2 ⟨fun _ => rfl, fun r hr => ?_⟩
  refine post_usbdReqComplete.2 ⟨fun _ => rfl, fun _ => ?_⟩
  refine (fbNotify_frames fun hc => ?_).mono (fun _ _ h => h) fun _ _ h => h
  rw [completed_req, Function.update_self] at hc ⊢
  exact h r hr hc

/-- The command that a step carries out. -/
def UsbdStep.selected (st : UsbdStep) (s : Fb) : Option FbSelected :=
  match st with
  | .complete ix =>
    if ix = ep1OutReq.ix ∧ Listening s ∧ s.failed ix = false then some (fbSelect s.commandText)
    else none
  | _ => none

theorem UsbdStep.selected_eq_some {st : UsbdStep} {s : Fb} {sel : FbSelected}
    (h : st.selected s = some sel) : st = .complete ep1OutReq.ix ∧ Listening s ∧
      s.failed ep1OutReq.ix = false ∧ fbSelect s.commandText = sel := by
  cases st with
  | complete ix =>
    simp only [selected, Option.ite_none_right_eq_some, Option.some.injEq] at h
    obtain ⟨⟨rfl, hl, hf⟩, hsel⟩ := h
    exact ⟨rfl, hl, hf, hsel⟩
  | _ => simp [selected] at h

/-- **The image is changed by commands only.** -/
theorem step_image {st : UsbdStep} {s : Fb} (h : FbOk s) (hst : st.selected s = none) :
    Post (st.run fbClient) (fun _ s' => s'.ctx.image = s.ctx.image)
      (fun _ s' => s'.ctx.image = s.ctx.image) s := by
  have hview : ∀ {α : Type} {x : FbM α}, Frames view x → Frames (fun s : Fb => s.ctx.image) x :=
    fun h => h.comp Prod.fst
  cases st with
  | init => exact hview usbdInit_frames.of_discard s
  | flush => exact post_usbdHwEpFlush.2 rfl
  | sweep ix => exact hview (usbdPortReset_sweep_frames ix) s
  | disable =>
    refine hview (Frames.bind (.forM fun i _ => usbdHwEpInit_frames _ _ _) fun _ => ?_) s
    exact .of_pure _
  | change usbdevlc =>
    refine hview (Frames.of_discard ?_) s
    exact .ite (.modify_bind (fun _ => rfl) (.of_pure _))
      (.ite (.modify_bind (fun _ => rfl) (.of_pure _)) (.of_pure _))
  | finish finished =>
    refine post_modify.2 ?_
    rw [(finishAll_untouched finished s).1.ctx]
  | complete ix =>
    refine (usbdCompletions_round_frames fun r hr hc => ?_).mono
      (fun _ _ h => congrArg Prod.fst h) fun _ _ h => congrArg Prod.fst h
    -- only the OUT request of endpoint 1 has the callback of commands
    rcases h.slot hr with ⟨rfl, rfl⟩ | ⟨rfl, rfl⟩ | ⟨rfl, rfl⟩ | ⟨rfl, rfl⟩
    · exact absurd hc (by simp [h.ep0.outComplete])
    · have hout : Listening s := by
        rcases h.outOk with ho | ho | ho
        · simp [ho.1] at hr
        · exact ho
        · exact absurd hc (by simp [ho.complete])
      by_contra hf
      rw [Bool.not_eq_true] at hf
      exact absurd hst (by simp [UsbdStep.selected, hout, hf])
    · exact absurd hc (by rcases h.ep0.inComplete with h | h <;> simp [h])
    · obtain ⟨k, hk, hk'⟩ := h.inOk.kind _ hc
      obtain rfl : FbComplete.rxCmdComplete = k := by simpa using hk'
      exact absurd hk (by simp [FbComplete.IsIn, FbComplete.IsOem])
  | setup ix rq => exact hview (usbdPortSetup_round_frames ix rq) s

/-- A command carries out what is selected, with the image as it was. -/
theorem step_command {st : UsbdStep} {s : Fb} {sel : FbSelected} (hsel : st.selected s = some sel)
    {P : FbMem → Prop} (hP : ∀ {fb fb' : FbMem}, fb'.image = fb.image → P fb → P fb')
    (h : ∀ s₁ : Fb, s₁.ctx.image = s.ctx.image →
      Post (fbDispatch (usbdCall (fbComplete 1)) sel) (fun _ s' => P s'.ctx) (fun _ _ => True) s₁) :
    Post (st.run fbClient) (fun _ s' => P s'.ctx) (fun _ _ => True) s := by
  obtain ⟨rfl, hout, hf, rfl⟩ := UsbdStep.selected_eq_some hsel
  have hcmd : ∀ s₁ : Fb, s₁.view = s.view → Post
      (fbRxCmdComplete.command (usbdCall (fbComplete 1)) ep1OutReq .small)
      (fun _ s' => P s'.ctx) (fun _ _ => True) s₁ := by
    intro s₁ h₁
    simp only [fbRxCmdComplete.command, post_bind, post_modify, post_get, post_ite, post_pure]
    have htext : (storeBuffer ep1OutReq .small 63 [0] (setCtx (fun fb => { fb with inCommand := true })
        s₁)).loadBuffer ep1OutReq .small 64 = s.commandText := commandText_of_view h₁
    rw [htext]
    refine (h _ ?_).imp fun st s' hs' => ⟨fun _ => hs', fun _ => ?_⟩
    · exact congrArg Prod.fst h₁
    refine (fbEndCommand_frames st s').mono (fun _ s'' h'' => ?_) fun _ _ _ => trivial
    exact hP (congrArg Prod.fst h'') hs'
  refine post_usbdCompletions_round.2 ⟨fun _ => trivial, fun r hr => ?_⟩
  obtain rfl := Option.some.inj (hr.symm.trans hout.slot)
  set s₁ := completed ep1OutReq (s.setSlot ep1OutReq.ix none) with hs₁
  have hcomplete : (s₁.req ep1OutReq).complete = some (.client .rxCmdComplete) := by
    rw [hs₁, completed_req, Function.update_self]; exact hout.complete
  have hcancel : (s₁.req ep1OutReq).cancel = false := by
    rw [hs₁, completed_req, Function.update_self]; exact hout.cancel
  have hbuffer : (s₁.req ep1OutReq).buffer = .small := by
    rw [hs₁, completed_req, Function.update_self]; exact hout.buffer
  have herror : (s₁.req ep1OutReq).error = false := by
    rw [hs₁, completed_req, Function.update_self]; exact hf
  refine post_usbdReqComplete.2 ⟨fun hn => absurd hn (by simp [hout.complete]), fun _ => ?_⟩
  refine post_usbdNotify.2 ⟨fun hn => absurd (hn.symm.trans hcomplete) (by simp), fun c hc => ?_⟩
  obtain rfl := Option.some.inj (hc.symm.trans hcomplete)
  show Post (fbRxCmdComplete (usbdCall (fbComplete 1)) ep1OutReq) _ _ s₁
  simp only [fbRxCmdComplete, post_bind, post_get, hcancel, hbuffer, Bool.not_false, post_ite,
    post_pure]
  refine ⟨fun _ => ?_, fun h => absurd trivial h⟩
  refine ((fbRxCmd_frames s₁).and (fbRxCmd_error ep1OutReq s₁)).mono (fun _ s₂ h₂ => ?_)
    fun _ _ _ => trivial
  refine ⟨fun h' => absurd (h₂.2.symm.trans h') (by simp [herror]), fun _ => ⟨fun _ => ?_, fun _ => ?_⟩⟩
  · refine post_modify.2 ((fbCancel_frames 1 ep1InReq _).mono (fun _ s₃ h₃ => ?_) fun _ _ _ => trivial)
    exact hcmd s₃ (h₃.trans h₂.1)
  · exact hcmd s₂ h₂.1

/-! ### Commands -/

/-- The command calls the allocator. -/
def FbSelected.TakesLmb : FbSelected → Prop
  | .oem cmd => ∃ name ∈ [bytes "alloc ", bytes "alloc32 ", bytes "free "], memcmp cmd name
  | .download _ => True
  | .reboot _ | .flash _ | .unknown => False

/-- A handler that does not call the allocator leaves the image alone. -/
theorem Handler.frames {W : FbEffect → Prop} {x : FbM FbStatus} (h : Handler W x) (hW : ¬W .lmb) :
    Frames view x := by
  have hok : ∀ {r : FbM Unit}, Frames view r → Frames view (r >>= fun _ => pure fbOk) :=
    fun hr => hr.bind fun _ => .of_pure _
  induction h with
  | fail h => exact .of_pure _
  | endCommand => exact hok (fbEndCommand_frames _)
  | endCommandWithInfo info => exact hok (fbEndCommandWithInfo_frames _)
  | reboot => exact hok (fbEndCommandWithCustomComplete_frames _ _)
  | peek h => exact .modify_bind (fun _ => rfl) (hok (fbOemCmdPeekExe_frames none))
  | setCtx hcmd hload hlmb hx ih =>
    refine .modify_bind (fun s => Prod.ext ?_ rfl) ih
    have hl := hload s.ctx
    simp only [FbMem.load, Prod.mk.injEq] at hl
    simp only [view, FbMem.image, setCtx_ctx, hlmb, hl]
  | store h a data hx ih => exact .modify_bind (fun _ => rfl) ih
  | get hf ih => exact .get_bind ih
  | lmbCall h hf ih => exact absurd h hW

/-- A command that does not call the allocator leaves the image alone. -/
theorem fbDispatch_frames (call : Complete FbComplete → Req → FbM Unit) {sel : FbSelected}
    (h : ¬sel.TakesLmb) : Frames view (fbDispatch call sel) := by
  cases sel with
  | oem cmd =>
    exact (fbCmdOem_handler (W := (· = .mem)) cmd (fun ht => absurd ht h) fun _ => rfl).frames
      (by simp)
  | reboot type => exact (fbCmdReboot_handler (W := (· = .mem)) type).frames (by simp)
  | download cmd => exact absurd trivial h
  | flash cmd =>
    refine .ite (.of_pure _) (.get_bind fun s => .ite (.of_pure _) ?_)
    exact (fbEndCommandWithCustomComplete_frames _ _).bind fun _ => .of_pure _
  | unknown => exact .of_pure _

end ShieldLoader
