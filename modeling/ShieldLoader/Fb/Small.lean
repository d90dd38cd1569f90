import ShieldLoader.Fb.Kept

/-!
# The buffer of the IN request

`usbd_req_init` lets a request use its small buffer. The IN request of endpoint 1 never uses another
one, so that what a handler writes is what the controller sends.
-/

namespace ShieldLoader

open EStateM Usbd

theorem InSmall.of_req {s s' : Fb} (h : InSmall s) (hreq : s'.req = s.req) : InSmall s' := by
  rwa [InSmall, hreq]

/-- A request is set that keeps its buffer. -/
theorem InSmall.update {s s' : Fb} {r : Req} {q : UsbdReq FbComplete} (h : InSmall s)
    (hreq : s'.req = Function.update s.req r q) (hq : q.buffer = (s.req r).buffer) :
    InSmall s' := by
  rw [InSmall, hreq, Function.update_apply]
  split
  · next hr =>
    rw [hq, ← hr]
    exact h
  · exact h

/-- The IN request gets its small buffer. -/
theorem InSmall.of_update {s s' : Fb} {q : UsbdReq FbComplete}
    (hreq : s'.req = Function.update s.req ep1InReq q) (hq : q.buffer = .small) : InSmall s' := by
  rw [InSmall, hreq, Function.update_self]
  exact hq

/-- Another request is set. -/
theorem InSmall.update_ne {s s' : Fb} {r : Req} {q : UsbdReq FbComplete} (h : InSmall s)
    (hreq : s'.req = Function.update s.req r q) (hr : ep1InReq ≠ r) : InSmall s' := by
  rw [InSmall, hreq, Function.update_of_ne hr]
  exact h

/-- The parts of callbacks keep the buffer of the IN request. -/
theorem inSmall_kept : Kept InSmall where
  setReq {s} r f hf h := by
    rw [InSmall, setReq_req, Function.update_apply]
    split
    · next hr => exact hf hr.symm (by rw [← hr]; exact h)
    · exact h
  setCtx _ h := h
  store _ _ h := h
  storeBuffer _ _ _ _ h := h.of_req (storeBuffer_req ..)
  submitted _ h := h.update (submitted_req ..) rfl
  cancelled _ h := h.update (cancelled_req ..) rfl
  reset h := h

theorem usbdHwEpInit_small (ep : Nat) (rxType txType : UsbdEpType) :
    Preserves InSmall (usbdHwEpInit ep rxType txType : FbM Unit) :=
  .ite (.of_modify fun _ h => h) (.of_pure _)

theorem usbdEpDisable_small (epOut epIn : UsbdEp) :
    Preserves InSmall (usbdEpDisable epOut epIn : FbM Unit) :=
  .guard (usbdHwEpInit_small _ _ _)

theorem usbdReqInit_small {r : Req} (hr : ep1InReq ≠ r) :
    Preserves InSmall (usbdReqInit r : FbM Unit) :=
  .modify_bind (fun _ h => h.update_ne rfl hr) (.get_bind fun _ => .ite (.of_throw _) (.of_pure _))

theorem usbdCompletions_round_small (ix : Nat) :
    Preserves InSmall (usbdCompletions.round fbCall ix) := by
  intro s h
  refine post_usbdCompletions_round.2 ⟨fun _ => h, fun r _ => ?_⟩
  refine post_usbdReqComplete.2 ⟨fun _ => h, fun _ => ?_⟩
  exact usbdNotify_kept (fbCall_kept inSmall_kept) r _ (h.update (completed_req ..) rfl)

theorem usbdPortReset_sweep_small (ix : Nat) :
    Preserves InSmall (usbdPortReset.sweep fbCall ix) := by
  intro s h
  refine post_usbdPortReset_sweep.2 ⟨fun _ => h, fun r _ => ?_⟩
  exact usbdNotify_kept (fbCall_kept inSmall_kept) r _ (h.update (setReq_req ..) rfl)

/-! ### Runs -/

theorem fbSetConfig_small (config : UInt8) : Preserves InSmall (fbSetConfig config) := by
  have hcancel := usbdReqCancel_kept inSmall_kept (fbCall_kept inSmall_kept)
  refine .ite (.of_pure _) (.ite ?_ ?_)
  · exact (usbdHwEpInit_small _ _ _).bind fun _ => (fbRxCmd_kept inSmall_kept).bind fun _ => .of_pure _
  · refine (usbdEpDisable_small _ _).bind fun _ => .modify_bind (fun _ h => h) ?_
    exact (hcancel _).bind fun _ => (hcancel _).bind fun _ => .of_pure _

theorem usbdInit_small : Preserves InSmall (usbdInit fbClient) := by
  refine (usbdReqInit_small (by decide)).bind fun _ => ?_
  refine (usbdReqInit_small (by decide)).bind fun _ => .modify_bind (fun _ h => h) ?_
  refine .get_bind fun _ => (fbSetConfig_small _).of_discard.bind fun _ => ?_
  exact .modify_bind (fun _ h => h) (.modify_bind (fun _ h => h) (.of_pure _))

theorem usbdEp0Setup_small (rq : UsbCtrlrequest) : Preserves InSmall (usbdEp0Setup fbClient rq) := by
  have hack : ∀ st : UsbdStatus, Preserves InSmall (usbdEp0SetupAck >>= fun _ => (pure st : FbM _)) :=
    fun st => (usbdEp0SetupAck_kept inSmall_kept).bind fun _ => .of_pure _
  have hset : ∀ st : UsbdStatus, Preserves InSmall (if st ≠ .success then pure st else
      (modify (fun s : Fb => { s with currentConfig := rq.wValue.toUInt8 }) : FbM _) >>= fun _ =>
        usbdEp0SetupAck >>= fun _ => pure .success) :=
    fun st => .ite (.of_pure _) (.modify_bind (fun _ h => h) (hack _))
  refine .ite (.modify_bind (fun _ h => h) (hack _)) (.ite (.get_bind fun s => ?_) (.ite ?_ ?_))
  · split
    · exact .of_pure _
    · exact (usbdEp0SetupTx_kept inSmall_kept _ _).bind fun _ => .of_pure _
  · exact .get_bind fun s => .ite ((fbSetConfig_small _).bind hset)
      ((Preserves.of_pure _).bind hset)
  · refine .ite (.get_bind fun _ => ?_) (.of_pure _)
    exact (usbdEp0SetupTx_kept inSmall_kept _ _).bind fun _ => .of_pure _

/-- Every step keeps the buffer of the IN request. -/
theorem step_small (st : UsbdStep) : Preserves InSmall (st.run fbClient) := by
  have hstall : ∀ ix (st : UsbdStatus), Preserves InSmall
      (if st ≠ .success then usbdHwEpStall ix else pure () : FbM Unit) :=
    fun _ st => .ite (.of_modify fun _ h => h) (.of_pure _)
  cases st with
  | init => exact usbdInit_small.of_discard
  | flush => exact fun _ h => post_usbdHwEpFlush.2 h
  | sweep ix => exact usbdPortReset_sweep_small ix
  | disable => exact .bind (.forM fun _ => usbdHwEpInit_small _ _ _) fun _ => .of_pure _
  | change usbdevlc =>
    refine .of_discard ?_
    exact .ite (.modify_bind (fun _ h => h) (.of_pure _))
      (.ite (.modify_bind (fun _ h => h) (.of_pure _)) (.of_pure _))
  | finish finished =>
    exact .of_modify fun s h => h.of_req (finishAll_untouched finished s).1.req
  | complete ix => exact usbdCompletions_round_small ix
  | setup ix rq =>
    exact .ite ((usbdEp0Setup_small rq).bind (hstall ix)) ((Preserves.of_pure _).bind (hstall ix))

/-- `usbd_req_init` gives the IN request its small buffer. -/
theorem fbLaunch_small (size fdt : UInt64) (m : Fb) :
    Post (fbLaunch size fdt) (fun _ => InSmall) (fun _ _ => True) m := by
  rw [fbLaunch, post_bind, post_lmbCall]
  refine ⟨fun _ => trivial, fun a lmb _ => ?_⟩
  rw [post_bind, post_modify, post_bind]
  refine usbdReqInit_post (fun _ => trivial) ?_
  rw [post_bind]
  refine usbdReqInit_post (fun _ => trivial) ?_
  rw [post_bind]
  refine (usbdInit_small _ (.of_update rfl rfl)).mono (fun st s' h => ?_) fun _ _ _ => trivial
  exact post_ite.2 ⟨fun _ => post_throw.2 trivial, fun _ => post_pure.2 h⟩

/-- **The device always sends from the small buffer of the IN request.** -/
theorem fbRun_small (size fdt : UInt64) (inps : List PollInput) (m : Fb) :
    Post (fbRun size fdt inps) (fun _ => InSmall) (fun _ _ => True) m := by
  rw [fbRun, post_bind]
  refine (fbLaunch_small size fdt m).imp fun _ s h => ?_
  rw [usbdLoop_steps]
  exact (Preserves.forM (fun st => step_small st) s h).mono (fun _ _ h' => h') fun _ _ _ => trivial

end ShieldLoader
