import ShieldLoader.Data.Exec
import Mathlib.Logic.Function.Basic

/-!
# The USB device controller driver

The driver of `usbd.c` over the registers and descriptors that it reads. Its client, `fb.c`, is a
parameter: a completion callback is a value of `κ` and the memory of the client one of `τ`. The
memory that buffers are in is apart from the variables of the program. Queue heads are written for
the controller only and are left out.

What the controller does between two polls comes with the second one: `PollInput` is what a poll
reads from the status registers, and the transfers that EPTCOMPLETE reports have then taken place.
-/

namespace ShieldLoader

/-- `usbd_ep_type`. -/
inductive UsbdEpType where
  | none | ctlr | iso | bulk | intr
  deriving DecidableEq, Repr

/-- `usbd_ep`. -/
structure UsbdEp where
  num : Nat
  send : Bool
  type : UsbdEpType
  deriving DecidableEq, Repr

/-- `MAX_EPS`. -/
def maxEps : Nat := 16

/-- `MAX_REQS`. -/
def maxReqs : Nat := maxEps * 2

/-- The index of an endpoint in `usbd_reqs`, and of its bit in the endpoint registers. -/
def UsbdEp.ix (ep : UsbdEp) : Nat := ep.num + if ep.send then maxEps else 0

/-- A `usbd_req` object, by its endpoint and a number among the requests of that endpoint. -/
structure Req where
  ep : UsbdEp
  id : Nat
  deriving DecidableEq, Repr

/-- The index of the slot of a request. -/
def Req.ix (r : Req) : Nat := r.ep.ix

/-- `ep0_out_req`. -/
def ep0OutReq : Req := ⟨⟨0, false, .ctlr⟩, 0⟩

/-- `ep0_in_req`. -/
def ep0InReq : Req := ⟨⟨0, true, .ctlr⟩, 0⟩

/-- Where `buffer` points: to the `small_buffer` of its request or to an address. -/
inductive Buffer where
  | small
  | addr (a : UInt64)
  deriving DecidableEq, Repr

/-- A completion callback. -/
inductive Complete (κ : Type) where
  | ep0InReqComplete
  | client (c : κ)
  deriving DecidableEq

/-- `usbd_req`. -/
structure UsbdReq (κ : Type) where
  error : Bool
  cancel : Bool
  buffer : Buffer
  ioDone : UInt32
  bufferLength : UInt32
  complete : Option (Complete κ)
  deriving DecidableEq

/-- `usbd_td`. -/
structure UsbdTd where
  nextTdPtr : UInt32
  sizeIocSts : UInt32
  buffPtr0 : UInt32
  buffPtr1 : UInt32
  buffPtr2 : UInt32
  buffPtr3 : UInt32
  buffPtr4 : UInt32
  deriving DecidableEq, Repr

/-- `usbd_desc_table`, an entry with data. -/
structure UsbdDesc where
  data : List UInt8
  length : UInt16
  id : UInt16
  deriving DecidableEq, Repr

/-- `usb_ctrlrequest`. -/
structure UsbCtrlrequest where
  bRequestType : UInt8
  bRequest : UInt8
  wValue : UInt16
  wIndex : UInt16
  wLength : UInt16
  deriving DecidableEq, Repr

/-- `usbd_status`. -/
inductive UsbdStatus where
  | success | portChangeError | usbstsError | setupPacketUnsupported | configUnsupported
  deriving DecidableEq, Repr

/-- The driver, its client and the controller. -/
structure Usbd (κ τ : Type) where
  /-- The memory of the client. -/
  ctx : τ
  /-- `usbd_reqs`. -/
  reqs : Nat → Option Req
  req : Req → UsbdReq κ
  /-- `small_buffer`. -/
  small : Req → List UInt8
  /-- The address of `small_buffer`. -/
  smallAddr : Req → UInt64
  hs : Bool
  descs : Option (List UsbdDesc)
  currentConfig : UInt8
  /-- What loads show. The small buffers are apart: what is in them is in `small`, and what loads show
  at their addresses is left open. -/
  mem : UInt64 → UInt8
  /-- The transfer descriptor of the endpoint with this index. -/
  td : Nat → UsbdTd
  /-- The controller works on the transfer of this endpoint. -/
  primed : Nat → Bool
  /-- EP_CTRL. -/
  epCtrl : Nat → UInt32
  /-- USBDEVADDR. -/
  devAddr : UInt32
  /-- How often a request was submitted in this slot. The program does not count. -/
  submits : Nat → Nat
  /-- How often a request was cancelled in this slot. The program does not count. -/
  cancels : Nat → Nat

/-- Why the program does not go on. -/
inductive Halt where
  /-- `already in flight`. -/
  | inFlight (ix : Nat)
  /-- An empty slot is processed. -/
  | nullReq (ix : Nat)
  /-- Another `BUG_ON`. -/
  | bug
  /-- A call of the allocator leaves its table. -/
  | lmbOverrun
  /-- Callbacks are nested deeper than the model follows them. -/
  | depth
  /-- The program has started another one. -/
  | jump (entry fdt : UInt64)
  /-- The machine reboots. -/
  | reboot (type : UInt32)
  deriving DecidableEq, Repr

/-- Code of the driver and its client. -/
abbrev UsbdM (κ τ : Type) := EStateM Halt (Usbd κ τ)

variable {κ τ : Type}

/-- The calls that a `usbd` object makes to its client, and the tables it points to. -/
structure Client (κ τ : Type) where
  complete : κ → Req → UsbdM κ τ Unit
  fsDescs : List UsbdDesc
  hsDescs : List UsbdDesc
  portReset : Option (UsbdM κ τ UsbdStatus)
  portSetup : Option (Nat → UsbCtrlrequest → UsbdM κ τ UsbdStatus)
  setConfig : Option (UInt8 → UsbdM κ τ UsbdStatus)

namespace Usbd

/-- Assignments to fields of a request. -/
def setReq (r : Req) (f : UsbdReq κ → UsbdReq κ) (s : Usbd κ τ) : Usbd κ τ :=
  { s with req := Function.update s.req r (f (s.req r)) }

/-- Assignments to the memory of the client. -/
def setCtx (f : τ → τ) (s : Usbd κ τ) : Usbd κ τ := { s with ctx := f s.ctx }

/-- `usbd_reqs[ix] = r`. -/
def setSlot (ix : Nat) (r : Option Req) (s : Usbd κ τ) : Usbd κ τ :=
  { s with reqs := Function.update s.reqs ix r }

/-- The bytes `data` are stored at `a`. -/
def store (a : UInt64) (data : List UInt8) (s : Usbd κ τ) : Usbd κ τ :=
  { s with mem := fun x =>
      if (x - a).toNat < data.length then data.getD (x - a).toNat 0 else s.mem x }

/-- The `n` bytes at `a`. -/
def load (s : Usbd κ τ) (a : UInt64) (n : Nat) : List UInt8 :=
  (List.range n).map fun i => s.mem (a + UInt64.ofNat i)

/-- The bytes `data` are stored at `b + off`, for a buffer `b` of the request. -/
def storeBuffer (r : Req) (b : Buffer) (off : Nat) (data : List UInt8) (s : Usbd κ τ) :
    Usbd κ τ :=
  match b with
  | .small =>
    let new := (s.small r).take off ++ data ++ (s.small r).drop (off + data.length)
    { s with small := Function.update s.small r new }
  | .addr a => s.store (a + UInt64.ofNat off) data

/-- The `n` bytes at `b`, for a buffer `b` of the request. -/
def loadBuffer (s : Usbd κ τ) (r : Req) (b : Buffer) (n : Nat) : List UInt8 :=
  match b with
  | .small => (s.small r).take n
  | .addr a => s.load a n

/-- The address that a buffer of the request points to. -/
def bufferAddr (s : Usbd κ τ) (r : Req) : Buffer → UInt64
  | .small => s.smallAddr r
  | .addr a => a

end Usbd

/-- `MAX_DMA_ADDR`. -/
def maxDmaAddr : UInt64 := 0xffffffff

/-- `EP_CTRL_RXS`. -/
def epCtrlRxs : UInt32 := 0x1

/-- `EP_CTRL_RXR`. -/
def epCtrlRxr : UInt32 := 0x40

/-- `EP_CTRL_RXE`. -/
def epCtrlRxe : UInt32 := 0x80

/-- `EP_CTRL_TXS`. -/
def epCtrlTxs : UInt32 := 0x10000

/-- `EP_CTRL_TXR`. -/
def epCtrlTxr : UInt32 := 0x400000

/-- `EP_CTRL_TXE`. -/
def epCtrlTxe : UInt32 := 0x800000

/-- The bits that `usbd_hw_ep_flush` writes to EPTFLUSH; no endpoint stands for `-1`. -/
def flushBits (ep : Option Nat) (send : Bool) (ix : Nat) : Bool :=
  match ep with
  | none => true
  | some 0 => ix = maxEps ∨ ix = 0
  | some n => ix = if send then maxEps + n else n

/-- `usbd_hw_ep_flush`. -/
def usbdHwEpFlush (ep : Option Nat) (send : Bool) : UsbdM κ τ Unit :=
  modify fun s => { s with primed := fun ix => s.primed ix && !flushBits ep send ix }

/-- `usbd_req_init`. -/
def usbdReqInit (r : Req) : UsbdM κ τ Unit := do
  modify fun s =>
    { s with
      req := Function.update s.req r ⟨false, false, .small, 0, 0, none⟩
      small := Function.update s.small r (List.replicate 64 0) }
  if maxDmaAddr < (← get).smallAddr r then throw .bug

/-- `usbd_hw_ep_init`. -/
def usbdHwEpInit (ep : Nat) (rxType txType : UsbdEpType) : UsbdM κ τ Unit := do
  if ep ≠ 0 then
    let field : UsbdEpType → UInt32
      | .none | .ctlr => 0
      | .iso => 1
      | .bulk => 2
      | .intr => 3
    let rx := if rxType ≠ .none then field rxType <<< 2 ||| epCtrlRxe ||| epCtrlRxr else 0
    let tx := if txType ≠ .none then field txType <<< 18 ||| epCtrlTxe ||| epCtrlTxr else 0
    modify fun s => { s with epCtrl := Function.update s.epCtrl ep (rx ||| tx) }

/-- `usbd_ep_enable`. -/
def usbdEpEnable (epOut epIn : UsbdEp) : UsbdM κ τ Unit :=
  usbdHwEpInit epOut.num epOut.type epIn.type

/-- `usbd_ep_disable`. -/
def usbdEpDisable (epOut epIn : UsbdEp) : UsbdM κ τ Unit := do
  if epOut.num ≠ epIn.num then throw .bug
  usbdHwEpInit epOut.num .none .none

/-- `usbd_hw_ep_stall`. -/
def usbdHwEpStall (ep : Nat) : UsbdM κ τ Unit :=
  modify fun s => { s with epCtrl := Function.update s.epCtrl ep (epCtrlRxs ||| epCtrlTxs) }

/-- The reset of the controller in `usbd_init` and `usbd_fini`. -/
def usbdHwReset : UsbdM κ τ Unit := modify fun s => { s with primed := fun _ => false }

/-- `usbd_fini`. -/
def usbdFini : UsbdM κ τ Unit := usbdHwReset

/-- `USBD_TD_ADDR_MASK | USBD_TD_NEXT_TERMINATE`. -/
def usbdTdTerminate : UInt32 := 0xffffffe0 ||| 1

/-- `USBD_TD_STATUS_ACTIVE`. -/
def usbdTdStatusActive : UInt32 := 0x80

/-- `USBD_TD_PACKET_SIZE`. -/
def usbdTdPacketSize : UInt32 := 0x7fff0000

/-- `USBD_TD_ERROR_MASK`. -/
def usbdTdErrorMask : UInt32 := 0x40 ||| 0x20 ||| 0x8

/-- `usbd_td_init`. -/
def usbdTdInit (size : UInt32) (buf : UInt64) : UsbdTd :=
  let td : UsbdTd := ⟨usbdTdTerminate, size <<< 16 ||| usbdTdStatusActive, buf.toUInt32, 0, 0, 0, 0⟩
  if size ≤ 0x1000 then td
  else
    let td := { td with buffPtr1 := (td.buffPtr0 &&& 0xfffff000) + 0x1000 }
    if size ≤ 0x2000 then td
    else
      let td := { td with buffPtr2 := td.buffPtr1 + 0x1000 }
      if size ≤ 0x3000 then td
      else
        let td := { td with buffPtr3 := td.buffPtr2 + 0x1000 }
        if size ≤ 0x4000 then td
        else { td with buffPtr4 := td.buffPtr3 + 0x1000 }

/-- `usbd_ep_prime`. -/
def usbdEpPrime (ep : UsbdEp) : UsbdM κ τ Unit :=
  modify fun s => { s with primed := Function.update s.primed ep.ix true }

/-- The longest transfer that `usbd_req_submit` asks for. -/
def maxTransfer : UInt32 := 0x5000

/-- `usbd_req_submit`. -/
def usbdReqSubmit (r : Req) : UsbdM κ τ Unit := do
  modify (Usbd.setReq r fun q => { q with bufferLength := min q.bufferLength maxTransfer })
  if ((← get).reqs r.ix).isSome then throw (.inFlight r.ix)
  usbdHwEpFlush (some r.ep.num) r.ep.send
  modify fun s =>
    let td := usbdTdInit (s.req r).bufferLength (s.bufferAddr r (s.req r).buffer)
    { s with td := Function.update s.td r.ix td }
  usbdEpPrime r.ep
  modify fun s => { s with submits := Function.update s.submits r.ix (s.submits r.ix + 1) }
  modify (Usbd.setSlot r.ix (some r))

/-- `usbd_ep0_in_req_complete`. -/
def usbdEp0InReqComplete (r : Req) : UsbdM κ τ Unit := do
  if ((← get).req r).error then pure ()
  else
    modify (Usbd.setReq ep0OutReq fun q => { q with bufferLength := 0, complete := none })
    usbdReqSubmit ep0OutReq

/-- A call through `complete`. -/
def usbdCall (client : κ → Req → UsbdM κ τ Unit) : Complete κ → Req → UsbdM κ τ Unit
  | .ep0InReqComplete, r => usbdEp0InReqComplete r
  | .client c, r => client c r

section
variable (call : Complete κ → Req → UsbdM κ τ Unit)

/-- `req->complete (context, req)`, unless it is `NULL`. -/
def usbdNotify (r : Req) : UsbdM κ τ Unit := do
  match ((← get).req r).complete with
  | none => pure ()
  | some c => call c r

/-- `usbd_req_complete`. -/
def usbdReqComplete (r : Req) : UsbdM κ τ Unit := do
  let s ← get
  if (s.req r).complete.isNone then pure ()
  else
    let sts := (s.td r.ix).sizeIocSts
    modify (Usbd.setReq r fun q =>
      { q with
        ioDone := q.bufferLength - (sts &&& usbdTdPacketSize) >>> 16
        error := sts &&& usbdTdErrorMask ≠ 0 })
    usbdNotify call r

/-- `usbd_req_cancel`. -/
def usbdReqCancel (r : Req) : UsbdM κ τ Unit := do
  if (← get).reqs r.ix ≠ some r then pure ()
  else
    usbdHwEpFlush (some r.ep.num) r.ep.send
    modify (Usbd.setSlot r.ix none)
    modify fun s => { s with cancels := Function.update s.cancels r.ix (s.cancels r.ix + 1) }
    modify (Usbd.setReq r fun q => { q with error := true, cancel := true })
    usbdNotify call r
    modify (Usbd.setReq r fun q => { q with cancel := false })

/-- A round of `usbd_completions`. -/
def usbdCompletions.round (ix : Nat) : UsbdM κ τ Unit := do
  let ep := (← get).reqs ix
  modify (Usbd.setSlot ix none)
  match ep with
  | none => throw (.nullReq ix)
  | some r => usbdReqComplete call r

/-- `usbd_completions`, for the indices of the bits that are set. -/
def usbdCompletions (complete : List Nat) : UsbdM κ τ Unit :=
  complete.forM (usbdCompletions.round call)

/-- A round of the first loop of `usbd_port_reset`. -/
def usbdPortReset.sweep (ix : Nat) : UsbdM κ τ Unit := do
  match (← get).reqs ix with
  | none => pure ()
  | some r =>
    modify (Usbd.setSlot ix none)
    modify (Usbd.setReq r fun q => { q with error := true })
    usbdNotify call r

end

section
variable (cl : Client κ τ)

/-- A call through `complete` of a request of the driver or the client. -/
def Client.call : Complete κ → Req → UsbdM κ τ Unit := usbdCall cl.complete

/-- `usbd_init`. The transfer descriptors that it deals out are those of `Usbd.td`. -/
def usbdInit : UsbdM κ τ UsbdStatus := do
  usbdReqInit ep0OutReq
  usbdReqInit ep0InReq
  modify fun s => { s with hs := false, descs := none, currentConfig := 0 }
  match cl.setConfig with
  | none => pure ()
  | some setConfig => discard (setConfig (← get).currentConfig)
  usbdHwReset
  usbdHwEpFlush none false
  return .success

/-- `usbd_port_reset`. -/
def usbdPortReset : UsbdM κ τ UsbdStatus := do
  usbdHwEpFlush none false
  (List.range maxReqs).forM (usbdPortReset.sweep cl.call)
  (List.range maxEps).forM fun i => usbdHwEpInit i .none .none
  match cl.portReset with
  | none => return .success
  | some portReset => portReset

/-- `usbd_port_change`, with the value of USBDEVLC. -/
def usbdPortChange (usbdevlc : UInt32) : UsbdM κ τ UsbdStatus := do
  let mode := usbdevlc >>> 25 &&& 3
  if mode = 0 then
    modify fun s => { s with hs := false, descs := some cl.fsDescs }
    return .success
  else if mode = 2 then
    modify fun s => { s with hs := true, descs := some cl.hsDescs }
    return .success
  else return .portChangeError

/-- `usbd_ep0_setup_ack`. -/
def usbdEp0SetupAck : UsbdM κ τ Unit := do
  modify (Usbd.setReq ep0InReq fun q => { q with bufferLength := 0, complete := none })
  usbdReqSubmit ep0InReq

/-- `usbd_ep0_setup_tx`. -/
def usbdEp0SetupTx (buf : List UInt8) (bufferLength : UInt32) : UsbdM κ τ Unit := do
  modify (Usbd.setReq ep0InReq fun q => { q with bufferLength })
  modify fun s =>
    s.storeBuffer ep0InReq (s.req ep0InReq).buffer 0 (buf.take bufferLength.toNat)
  modify (Usbd.setReq ep0InReq fun q => { q with complete := some .ep0InReqComplete })
  usbdReqSubmit ep0InReq

/-- The request has this `bRequestType` and `bRequest`. -/
def UsbCtrlrequest.St (rq : UsbCtrlrequest) (bRT bR : UInt8) : Prop :=
  rq.bRequestType = bRT ∧ rq.bRequest = bR

instance (rq : UsbCtrlrequest) (bRT bR : UInt8) : Decidable (rq.St bRT bR) :=
  inferInstanceAs (Decidable (_ ∧ _))

/-- `USB_REQ_DEV_R`. -/
def usbReqDevR : UInt8 := 0x80

/-- `USB_REQ_DEV_W`. -/
def usbReqDevW : UInt8 := 0x00

/-- `USB_REQ_SET_ADDRESS`. -/
def usbReqSetAddress : UInt8 := 0x5

/-- `USB_REQ_GET_DESCRIPTOR`. -/
def usbReqGetDescriptor : UInt8 := 0x6

/-- `USB_REQ_GET_CONFIGURATION`. -/
def usbReqGetConfiguration : UInt8 := 0x8

/-- `USB_REQ_SET_CONFIGURATION`. -/
def usbReqSetConfiguration : UInt8 := 0x9

/-- The loop of `usbd_ep0_setup` over the descriptors. -/
def Usbd.findDesc (s : Usbd κ τ) (wValue : UInt16) : Option UsbdDesc :=
  s.descs.bind fun descs => descs.find? fun d => wValue = d.id

/-- `usbd_ep0_setup`. -/
def usbdEp0Setup (rq : UsbCtrlrequest) : UsbdM κ τ UsbdStatus := do
  if rq.St usbReqDevW usbReqSetAddress then
    modify fun s => { s with devAddr := rq.wValue.toUInt32 <<< 25 ||| 0x1000000 }
    usbdEp0SetupAck
    return .success
  else if rq.St usbReqDevR usbReqGetDescriptor then
    match (← get).findDesc rq.wValue with
    | none => return .setupPacketUnsupported
    | some d =>
      usbdEp0SetupTx d.data (min d.length rq.wLength).toUInt32
      return .success
  else if rq.St usbReqDevW usbReqSetConfiguration then
    let status ←
      if rq.wValue ≠ (← get).currentConfig.toUInt16 then
        match cl.setConfig with
        | none => pure .success
        | some setConfig => setConfig rq.wValue.toUInt8
      else pure .success
    if status ≠ .success then return status
    else
      modify fun s => { s with currentConfig := rq.wValue.toUInt8 }
      usbdEp0SetupAck
      return .success
  else if rq.St usbReqDevR usbReqGetConfiguration then
    usbdEp0SetupTx [(← get).currentConfig] 1
    return .success
  else return .setupPacketUnsupported

/-- A round of `usbd_port_setup`. -/
def usbdPortSetup.round (ix : Nat) (rq : UsbCtrlrequest) : UsbdM κ τ Unit := do
  let status ←
    if ix = 0 then usbdEp0Setup cl rq
    else match cl.portSetup with
      | none => pure .setupPacketUnsupported
      | some portSetup => portSetup ix rq
  if status ≠ .success then usbdHwEpStall ix

/-- `usbd_port_setup`, for the endpoints whose bit in EPTSETUPST is set, with the packets in the
setup buffers of their queue heads. -/
def usbdPortSetup (setups : List (Nat × UsbCtrlrequest)) : UsbdM κ τ UsbdStatus := do
  setups.forM fun p => usbdPortSetup.round cl p.1 p.2
  return .success

end

/-! ### Polls -/

/-- How the controller leaves a transfer that it has finished: the status word of its descriptor,
and the bytes it has received. -/
structure Finish where
  sizeIocSts : UInt32
  data : List UInt8

/-- What a poll finds in the registers, and the packets of EPTSETUPST. -/
structure PollInput where
  usbsts : UInt32
  usbdevlc : UInt32
  finished : Nat → Option Finish
  setups : List (Nat × UsbCtrlrequest)

namespace Usbd

/-- The finished transfer of the endpoint with index `ix`, as the controller leaves it. -/
def finish (ix : Nat) (f : Finish) (s : Usbd κ τ) : Usbd κ τ :=
  let s := { s with
    td := Function.update s.td ix { s.td ix with sizeIocSts := f.sizeIocSts }
    primed := Function.update s.primed ix false }
  match s.reqs ix with
  | none => s
  | some r => if r.ep.send then s else s.storeBuffer r (s.req r).buffer 0 f.data

/-- All transfers that the controller has finished. -/
def finishAll (finished : Nat → Option Finish) (s : Usbd κ τ) : Usbd κ τ :=
  (List.range maxReqs).foldl (fun s ix => ((finished ix).map (finish ix · s)).getD s) s

end Usbd

/-- The bits of EPTCOMPLETE that are set, from the lowest up. -/
def PollInput.complete (inp : PollInput) : List Nat :=
  (List.range maxReqs).filter fun ix => (inp.finished ix).isSome

/-- `USBSTS_SLI`. -/
def usbstsSli : UInt32 := 0x100

/-- `USBSTS_RESET`. -/
def usbstsReset : UInt32 := 0x40

/-- `USBSTS_PORT_CHANGE`. -/
def usbstsPortChange : UInt32 := 0x4

/-- `usbd_poll`. The test for a port change has `&&`, so that it holds for every status. -/
def usbdPoll (cl : Client κ τ) (inp : PollInput) : UsbdM κ τ UsbdStatus := do
  if inp.usbsts ≠ 0 then
    if inp.usbsts &&& usbstsSli ≠ 0 then usbdInit cl
    else if inp.usbsts &&& usbstsReset ≠ 0 then usbdPortReset cl
    else if inp.usbsts ≠ 0 ∧ usbstsPortChange ≠ 0 then usbdPortChange cl inp.usbdevlc
    else return .usbstsError
  else
    modify (Usbd.finishAll inp.finished)
    usbdCompletions cl.call inp.complete
    usbdPortSetup cl inp.setups

end ShieldLoader
