import ShieldLoader.Fb.Image
import ShieldLoader.Fb.Replies

/-!
# What callbacks keep

The callbacks of `fb.c` set requests, variables and buffers, and submit and cancel requests. What
each of these keeps is kept by all callbacks.
-/

namespace ShieldLoader

open EStateM Usbd

/-- The parts of callbacks keep `I`. No part points the IN request to another buffer than its small
one. -/
structure Kept (I : Fb → Prop) : Prop where
  setReq : ∀ {s : Fb} (r : Req) (f : UsbdReq FbComplete → UsbdReq FbComplete),
    (r = ep1InReq → (s.req r).buffer = .small → (f (s.req r)).buffer = .small) →
      I s → I (s.setReq r f)
  setCtx : ∀ {s : Fb} (f : FbMem → FbMem), I s → I (s.setCtx f)
  store : ∀ {s : Fb} (a : UInt64) (data : List UInt8), I s → I (s.store a data)
  storeBuffer : ∀ {s : Fb} (r : Req) (b : Buffer) (off : Nat) (data : List UInt8),
    I s → I (s.storeBuffer r b off data)
  submitted : ∀ {s : Fb} {r : Req}, s.reqs r.ix = none → I s → I (s.submitted r)
  cancelled : ∀ {s : Fb} {r : Req}, s.reqs r.ix = some r → I s → I (s.cancelled r)
  reset : ∀ {s : Fb}, I s → I { s with primed := fun _ => false }

section
variable {I : Fb → Prop} (hI : Kept I)
include hI

namespace Kept

theorem modify_setReq {r : Req} {f : UsbdReq FbComplete → UsbdReq FbComplete} {α : Type}
    {x : FbM α} (hf : r = ep1InReq → ∀ q, q.buffer = .small → (f q).buffer = .small)
    (hx : Preserves I x) : Preserves I (modify (Usbd.setReq r f) >>= fun _ => x) :=
  .modify_bind (fun _ => hI.setReq r f fun hr => hf hr _) hx

theorem modify_setCtx {f : FbMem → FbMem} {α : Type} {x : FbM α} (hx : Preserves I x) :
    Preserves I (modify (Usbd.setCtx f) >>= fun _ => x) := .modify_bind (fun _ => hI.setCtx f) hx

end Kept

/-! ### The driver -/

theorem usbdReqSubmit_kept (r : Req) : Preserves I (usbdReqSubmit r) := by
  intro s h
  refine post_usbdReqSubmit.2 ⟨fun _ => hI.setReq r _ (fun _ hb => hb) h, fun hslot => ?_⟩
  exact hI.submitted hslot h

theorem usbdEp0InReqComplete_kept (r : Req) : Preserves I (usbdEp0InReqComplete r) :=
  .get_bind fun _ => .ite (.of_pure _)
    (hI.modify_setReq (fun hr => absurd hr (by decide)) (usbdReqSubmit_kept hI _))

theorem usbdEp0SetupAck_kept : Preserves I usbdEp0SetupAck :=
  hI.modify_setReq (fun hr => absurd hr (by decide)) (usbdReqSubmit_kept hI _)

theorem usbdEp0SetupTx_kept (buf : List UInt8) (bufferLength : UInt32) :
    Preserves I (usbdEp0SetupTx buf bufferLength) :=
  hI.modify_setReq (fun hr => absurd hr (by decide))
    (.modify_bind (fun _ => hI.storeBuffer _ _ _ _)
      (hI.modify_setReq (fun hr => absurd hr (by decide)) (usbdReqSubmit_kept hI _)))

/-! ### Responses -/

theorem fbEndCommandWithCustomComplete_kept (status : FbStatus) (complete : FbComplete) :
    Preserves I (fbEndCommandWithCustomComplete status complete) := by
  refine hI.modify_setReq (fun _ _ _ => rfl) (.get_bind fun _ => ?_)
  refine .guard (.modify_bind (fun _ => hI.storeBuffer _ _ _ _) ?_)
  exact hI.modify_setReq (fun _ _ hb => hb) (usbdReqSubmit_kept hI _)

theorem fbEndCommand_kept (status : FbStatus) : Preserves I (fbEndCommand status) :=
  fbEndCommandWithCustomComplete_kept hI _ _

theorem fbEndCommandWithInfo_kept (info : List UInt8) : Preserves I (fbEndCommandWithInfo info) :=
  hI.modify_setReq (fun _ _ _ => rfl) (.modify_bind (fun _ => hI.storeBuffer _ _ _ _)
    (hI.modify_setReq (fun _ _ hb => hb) (usbdReqSubmit_kept hI _)))

theorem fbRequestData_kept : Preserves I fbRequestData :=
  hI.modify_setReq (fun _ _ _ => rfl) (.get_bind fun _ =>
    .modify_bind (fun _ => hI.storeBuffer _ _ _ _)
      (hI.modify_setReq (fun _ _ hb => hb) (usbdReqSubmit_kept hI _)))

theorem fbRxCmd_kept : Preserves I fbRxCmd :=
  hI.modify_setReq (fun hr => absurd hr (by decide)) (usbdReqSubmit_kept hI _)

theorem fbRxData_kept : Preserves I fbRxData :=
  .get_bind fun _ =>
    hI.modify_setReq (fun hr => absurd hr (by decide)) (usbdReqSubmit_kept hI _)

theorem fbOemCmdPeekExe_kept (req : Option Req) : Preserves I (fbOemCmdPeekExe req) := by
  refine .get_bind fun s => .ite (.of_pure _) (.ite (fbEndCommand_kept hI _) ?_)
  refine hI.modify_setCtx (.modify_bind (fun _ => hI.storeBuffer _ _ _ _) ?_)
  exact .guard (hI.modify_setReq (fun _ _ hb => hb) (usbdReqSubmit_kept hI _))

theorem fbRxDataComplete_kept (r : Req) : Preserves I (fbRxDataComplete r) := by
  have hnext : Preserves I fbRxDataComplete.next :=
    .get_bind fun _ => .ite ((fbRxCmd_kept hI).bind fun _ => .get_bind fun _ =>
      fbEndCommandWithInfo_kept hI _) (fbRxData_kept hI)
  exact .get_bind fun s => .ite (.of_pure _) (.ite (hI.modify_setCtx hnext) hnext)

/-! ### Commands -/

theorem lmbCall_kept {α : Type} (g : Lmb → Option (α × Lmb)) : Preserves I (lmbCall g) := by
  intro s h
  exact post_lmbCall.2 ⟨fun _ => h, fun _ _ _ => hI.setCtx _ h⟩

theorem Handler.kept {W : FbEffect → Prop} {x : FbM FbStatus} (h : Handler W x) :
    Preserves I x := by
  have hok : ∀ {r : FbM Unit}, Preserves I r → Preserves I (r >>= fun _ => pure fbOk) :=
    fun hr => hr.bind fun _ => .of_pure _
  induction h with
  | fail h => exact .of_pure _
  | endCommand => exact hok (fbEndCommand_kept hI _)
  | endCommandWithInfo info => exact hok (fbEndCommandWithInfo_kept hI _)
  | reboot => exact hok (fbEndCommandWithCustomComplete_kept hI _ _)
  | peek h => exact hI.modify_setCtx (hok (fbOemCmdPeekExe_kept hI none))
  | setCtx hcmd hload hlmb hx ih => exact hI.modify_setCtx ih
  | store h a data hx ih => exact .modify_bind (fun _ => hI.store a data) ih
  | get hf ih => exact .get_bind ih
  | lmbCall h hf ih => exact (lmbCall_kept hI _).bind ih

theorem fbCmdFlash_kept (cmd : List UInt8) : Preserves I (fbCmdFlash cmd) :=
  .ite (.of_pure _) (.get_bind fun _ => .ite (.of_pure _)
    ((fbEndCommandWithCustomComplete_kept hI _ _).bind fun _ => .of_pure _))

theorem fbCmdDownload_discard_kept : Preserves I fbCmdDownload.discard :=
  .get_bind fun _ => .ite ((lmbCall_kept hI _).bind fun _ => .of_modify fun _ => hI.setCtx _)
    (.of_pure _)

section
variable {call : Complete FbComplete → Req → FbM Unit}
    (hcancel : ∀ r, Preserves I (usbdReqCancel call r))
include hcancel

theorem fbCmdDownload_kept (cmd : List UInt8) : Preserves I (fbCmdDownload call cmd) := by
  refine (fbCmdDownload_discard_kept hI).bind fun _ => ?_
  rcases simpleStrtoull cmd 16 with ⟨size, cmd⟩
  refine .ite (.of_pure _) ((lmbCall_kept hI _).bind fun addr => ?_)
  refine hI.modify_setCtx (.ite (.of_pure _) (hI.modify_setCtx ?_))
  refine (hcancel _).bind fun _ => (fbRequestData_kept hI).bind fun _ => ?_
  exact (fbRxData_kept hI).bind fun _ => .of_pure _

theorem fbDispatch_kept (sel : FbSelected) : Preserves I (fbDispatch call sel) := by
  cases sel with
  | oem cmd =>
    exact (fbCmdOem_handler (W := fun _ => True) cmd (fun _ => trivial) fun _ => trivial).kept hI
  | reboot type => exact (fbCmdReboot_handler (W := fun _ => True) type).kept hI
  | download cmd => exact fbCmdDownload_kept hI hcancel cmd
  | flash cmd => exact fbCmdFlash_kept hI cmd
  | unknown => exact .of_pure _

theorem fbRxCmdComplete_kept (r : Req) : Preserves I (fbRxCmdComplete call r) := by
  have hcommand : ∀ b, Preserves I (fbRxCmdComplete.command call r b) := by
    intro b
    refine hI.modify_setCtx (.modify_bind (fun _ => hI.storeBuffer _ _ _ _) ?_)
    refine .get_bind fun s => (fbDispatch_kept hI hcancel _).bind fun st => ?_
    exact .ite (.of_pure _) (fbEndCommand_kept hI _)
  have hrest : ∀ b : Buffer, Preserves I (do
      if ((← get).req r).error then pure ()
      else
        if (← get).ctx.inCommand then
          modify (Usbd.setCtx fun fb => { fb with inCommand := false })
          usbdReqCancel call ep1InReq
        fbRxCmdComplete.command call r b) := by
    intro b
    refine .get_bind fun s => .ite (.of_pure _) (.get_bind fun s' => .ite ?_ (hcommand b))
    exact hI.modify_setCtx ((hcancel _).bind fun _ => hcommand b)
  exact .get_bind fun s => .ite ((fbRxCmd_kept hI).bind fun _ => hrest _) (hrest _)

end

/-! ### Callbacks -/

theorem usbdFini_kept : Preserves I usbdFini := .of_modify fun _ => hI.reset

section
variable {call : Complete FbComplete → Req → FbM Unit} (hcall : ∀ c r, Preserves I (call c r))
include hcall

omit hI in
theorem usbdNotify_kept (r : Req) : Preserves I (usbdNotify call r) :=
  fun s h => post_usbdNotify.2 ⟨fun _ => h, fun c _ => hcall c r s h⟩

theorem usbdReqCancel_kept (r : Req) : Preserves I (usbdReqCancel call r) := by
  intro s h
  refine post_usbdReqCancel.2 ⟨fun _ => h, fun hslot => ?_⟩
  refine (usbdNotify_kept hcall r _ (hI.cancelled hslot h)).imp fun _ s' h' => ?_
  exact hI.setReq r _ (fun _ hb => hb) h'

end

theorem usbdCall_kept {client : FbComplete → Req → FbM Unit}
    (h : ∀ k r, Preserves I (client k r)) (c : Complete FbComplete) (r : Req) :
    Preserves I (usbdCall client c r) := by
  cases c with
  | ep0InReqComplete => exact usbdEp0InReqComplete_kept hI r
  | client k => exact h k r

/-- Callbacks keep it, however deep they are nested. -/
theorem fbComplete_kept (n : Nat) (k : FbComplete) (r : Req) : Preserves I (fbComplete n k r) := by
  induction n generalizing k r with
  | zero => exact .of_throw _
  | succ n ih =>
    cases k with
    | endCommandComplete => exact .of_modify fun _ => hI.setCtx _
    | endCommandWithInfoComplete => exact fbEndCommand_kept hI _
    | oemCmdPeekExe => exact fbOemCmdPeekExe_kept hI _
    | cmdRebootComplete => exact (usbdFini_kept hI).bind fun _ => .get_bind fun _ => .of_throw _
    | cmdFlashComplete =>
      exact .get_bind fun _ => (usbdFini_kept hI).bind fun _ => .get_bind fun _ => .of_throw _
    | rxCmdComplete =>
      exact fbRxCmdComplete_kept hI (usbdReqCancel_kept hI (usbdCall_kept hI ih)) r
    | rxDataComplete => exact fbRxDataComplete_kept hI r

theorem fbCall_kept (c : Complete FbComplete) (r : Req) : Preserves I (fbCall c r) :=
  usbdCall_kept hI (fbComplete_kept hI fbDepth) c r

end

end ShieldLoader
