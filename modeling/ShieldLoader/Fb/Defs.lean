import ShieldLoader.Usbd.Defs
import ShieldLoader.Lmb.Defs
import ShieldLoader.Fb.Strings

/-!
# Fastboot

The commands and callbacks of `fb.c`. A status is `none` for `FB_OK`. The `peek` and `reboot`
states share their storage in `fb_mem` but are never alive together, and are kept apart here.
-/

namespace ShieldLoader

/-- `fb_peek_state`; its buffer is the small buffer of `ep1_in_req`. -/
structure FbPeekState where
  addr : UInt64
  access : UInt64
  items : UInt64
  ascii : Bool
  deriving DecidableEq, Repr

/-- `fb_mem` apart from its requests, and the globals that the commands use. -/
structure FbMem where
  inCommand : Bool
  lastLoaded : UInt64
  loadSize : UInt64
  loadRem : UInt64
  loadAlign : UInt64
  peek : FbPeekState
  /-- `reboot.type`. -/
  reboot : UInt32
  fdt : UInt64
  lmb : Lmb
  /-- What `printk` has written. -/
  console : List UInt8
  /-- The calls of `smc_call`, the last one first. -/
  smcCalls : List (List UInt64)
  /-- What the secure monitor answers to the last call. -/
  smc : List (List UInt64) → UInt64 × UInt64 × UInt64 × UInt64

/-- The callbacks of `fb.c`. -/
inductive FbComplete where
  | endCommandComplete
  | endCommandWithInfoComplete
  | oemCmdPeekExe
  | cmdRebootComplete
  | cmdFlashComplete
  | rxCmdComplete
  | rxDataComplete
  deriving DecidableEq, Repr

/-- The state of the fastboot device. -/
abbrev Fb := Usbd FbComplete FbMem

/-- Code of `fb.c`. -/
abbrev FbM := UsbdM FbComplete FbMem

/-- `fb_status`. -/
abbrev FbStatus := Option (List UInt8)

/-- `fb_ep1_out`. -/
def fbEp1Out : UsbdEp := ⟨1, false, .bulk⟩

/-- `fb_ep1_in`. -/
def fbEp1In : UsbdEp := ⟨1, true, .bulk⟩

/-- `ep1_out_req`. -/
def ep1OutReq : Req := ⟨fbEp1Out, 0⟩

/-- `ep1_in_req`. -/
def ep1InReq : Req := ⟨fbEp1In, 0⟩

/-- `DOWNLOAD_ALIGNMENT`. -/
def downloadAlignment : UInt64 := 0x100000

/-- `BOOT_MAGIC`. -/
def bootMagic : List UInt8 := bytes "ANDROID!"

/-- The offset of `page_size` in `boot_img`. -/
def bootImgPageSize : UInt64 := 36

/-- `FB_BAD_COMMAND`. -/
def fbBadCommand : FbStatus := some (bytes "FAILBad command")

/-- `FB_UNKNOWN_COMMAND`. -/
def fbUnknownCommand : FbStatus := some (bytes "FAILUnknown command")

/-- `FB_OOM`. -/
def fbOom : FbStatus := some (bytes "FAILOut of memory")

/-- `FB_NOT_DOWNLOADED`. -/
def fbNotDownloaded : FbStatus := some (bytes "FAILNothing downloaded")

/-- `FB_OK`. -/
def fbOk : FbStatus := none

/-- `REBOOT_NORMAL`. -/
def rebootNormal : UInt32 := 0

/-- `REBOOT_RCM`. -/
def rebootRcm : UInt32 := 0x2

/-- `REBOOT_BOOTLOADER`. -/
def rebootBootloader : UInt32 := 0x40000000

/-- `REBOOT_RECOVERY`. -/
def rebootRecovery : UInt32 := 0x80000000

/-- A number of `n` bytes in memory, its lowest byte first. -/
def Usbd.loadWord (s : Fb) (a : UInt64) (n : Nat) : UInt64 :=
  (s.load a n).foldr (fun b w => w <<< 8 ||| b.toUInt64) 0

/-- The `n` low bytes of a number, the lowest first. -/
def wordBytes (w : UInt64) (n : Nat) : List UInt8 :=
  (List.range n).map fun i => (w >>> (8 * i).toUInt64).toUInt8

/-- A call of the allocator. -/
def lmbCall {α : Type} (f : Lmb → Option (α × Lmb)) : FbM α := do
  match f (← get).ctx.lmb with
  | none => throw .lmbOverrun
  | some (a, lmb) =>
    modify (Usbd.setCtx fun fb => { fb with lmb })
    return a

/-! ### Responses -/

/-- `fb_end_command_complete`. -/
def fbEndCommandComplete : FbM Unit :=
  modify (Usbd.setCtx fun fb => { fb with inCommand := false })

/-- `fb_end_command_with_custom_complete`. -/
def fbEndCommandWithCustomComplete (status : FbStatus) (complete : FbComplete) : FbM Unit := do
  let status := status.getD (bytes "OKAY")
  modify (Usbd.setReq ep1InReq fun q =>
    { q with buffer := .small, bufferLength := UInt32.ofNat (status.length + 1) })
  if 64 < ((← get).req ep1InReq).bufferLength then throw .bug
  modify fun s => s.storeBuffer ep1InReq (s.req ep1InReq).buffer 0 (status ++ [0])
  modify (Usbd.setReq ep1InReq fun q => { q with complete := some (.client complete) })
  usbdReqSubmit ep1InReq

/-- `fb_end_command`. -/
def fbEndCommand (status : FbStatus) : FbM Unit :=
  fbEndCommandWithCustomComplete status .endCommandComplete

/-- `fb_end_command_with_info_complete`. -/
def fbEndCommandWithInfoComplete : FbM Unit := fbEndCommand fbOk

/-- `fb_end_command_with_info`, with the text that its format makes. -/
def fbEndCommandWithInfo (info : List UInt8) : FbM Unit := do
  let info := scnprintf (64 - 4) info
  modify (Usbd.setReq ep1InReq fun q => { q with buffer := .small })
  modify fun s => s.storeBuffer ep1InReq (s.req ep1InReq).buffer 0 (bytes "INFO" ++ info ++ [0])
  modify (Usbd.setReq ep1InReq fun q =>
    { q with
      bufferLength := UInt32.ofNat info.length + 4
      complete := some (.client .endCommandWithInfoComplete) })
  usbdReqSubmit ep1InReq

/-- `fb_request_data`; `%08x` reads an `unsigned`. -/
def fbRequestData : FbM Unit := do
  modify (Usbd.setReq ep1InReq fun q => { q with buffer := .small })
  let loadSize := (← get).ctx.loadSize.toUInt32.toUInt64
  let data := scnprintf 64 (bytes "DATA" ++ fmtHexPad 8 loadSize)
  modify fun s => s.storeBuffer ep1InReq (s.req ep1InReq).buffer 0 (data ++ [0])
  modify (Usbd.setReq ep1InReq fun q =>
    { q with bufferLength := UInt32.ofNat data.length, complete := none })
  usbdReqSubmit ep1InReq

/-! ### Receives -/

/-- `fb_rx_cmd`. -/
def fbRxCmd : FbM Unit := do
  modify (Usbd.setReq ep1OutReq fun q =>
    { q with buffer := .small, bufferLength := 64, complete := some (.client .rxCmdComplete) })
  usbdReqSubmit ep1OutReq

/-- `fb_rx_data`. -/
def fbRxData : FbM Unit := do
  let fb := (← get).ctx
  modify (Usbd.setReq ep1OutReq fun q =>
    { q with
      buffer := .addr (fb.lastLoaded + (fb.loadSize - fb.loadRem))
      bufferLength := fb.loadRem.toUInt32
      complete := some (.client .rxDataComplete) })
  usbdReqSubmit ep1OutReq

/-! ### The commands after `oem` -/

/-- The width of an access by `peek` and `poke`. -/
def isAccess (access : UInt64) : Bool := access = 1 || access = 2 || access = 4 || access = 8

/-- The text of one item of `fb_oem_cmd_peek_exe`. -/
def fbOemCmdPeekExe.item (peek : FbPeekState) (value : UInt64) : List UInt8 :=
  if peek.ascii ∧ isgraph value.toUInt8 then bytes " " ++ [value.toUInt8] ++ bytes " "
  else fmtHexPad (2 * peek.access.toNat) value ++ bytes " "

/-- The loop of `fb_oem_cmd_peek_exe`, `n` rounds: the text, and the address after it. -/
def fbOemCmdPeekExe.loop (s : Fb) (peek : FbPeekState) (lenToFill : Nat) :
    Nat → List UInt8 × UInt64
  | 0 => ([], peek.addr)
  | n + 1 =>
    let value := s.loadWord peek.addr peek.access.toNat
    let item := scnprintf lenToFill (fbOemCmdPeekExe.item peek value)
    let (rest, addr) := loop s { peek with addr := peek.addr + peek.access }
      (lenToFill - (2 * peek.access.toNat + 1)) n
    (item ++ rest, addr)

/-- `fb_oem_cmd_peek_exe`; `req` is `NULL` for the first packet. -/
def fbOemCmdPeekExe (req : Option Req) : FbM Unit := do
  let s ← get
  if req.any fun r => (s.req r).error then pure ()
  else
    let peek := s.ctx.peek
    let lenToFill := 64 - 4 - 1
    let items := min (lenToFill / (2 * peek.access.toNat + 1)) peek.items.toNat
    if items = 0 then fbEndCommand fbOk
    else
      let (text, addr) := fbOemCmdPeekExe.loop s peek lenToFill items
      let packet := bytes "INFO" ++ text ++ [0]
      modify (Usbd.setCtx fun fb =>
        { fb with peek := { peek with addr, items := peek.items - UInt64.ofNat items } })
      modify (Usbd.storeBuffer ep1InReq .small 0 packet)
      if 64 < packet.length then throw .bug
      modify (Usbd.setReq ep1InReq fun q =>
        { q with
          bufferLength := UInt32.ofNat packet.length
          complete := some (.client .oemCmdPeekExe) })
      usbdReqSubmit ep1InReq

/-- How `fb_oem_cmd_peek` and `fb_oem_cmd_poke` read `ascii` and `access`. -/
def fbOemCmdPeek.access (cmd : List UInt8) : Bool × UInt64 × List UInt8 :=
  if deref cmd = 'c'.toNat.toUInt8 then (true, 1, cmd.drop 1) else (false, simpleStrtoull cmd 0)

/-- How `fb_oem_cmd_peek` reads `items`. -/
def fbOemCmdPeek.items (cmd : List UInt8) : UInt64 × List UInt8 :=
  if deref cmd = ' '.toNat.toUInt8 then simpleStrtoull (cmd.drop 1) 0 else (1, cmd)

/-- `fb_oem_cmd_peek`. -/
def fbOemCmdPeek (cmd : List UInt8) : FbM FbStatus := do
  let (addr, cmd) := simpleStrtoull cmd 0
  modify (Usbd.setCtx fun fb => { fb with peek := { fb.peek with addr } })
  if deref cmd ≠ ' '.toNat.toUInt8 then return fbBadCommand
  else
    let (ascii, access, cmd) := fbOemCmdPeek.access (cmd.drop 1)
    modify (Usbd.setCtx fun fb => { fb with peek := { fb.peek with access, ascii } })
    if !isAccess access then return fbBadCommand
    else
      let (items, cmd) := fbOemCmdPeek.items cmd
      modify (Usbd.setCtx fun fb => { fb with peek := { fb.peek with items } })
      if deref cmd ≠ 0 then return fbBadCommand
      else
        fbOemCmdPeekExe none
        return fbOk

/-- The loop of `fb_oem_cmd_poke`. -/
def fbOemCmdPoke.loop (access : UInt64) (ascii : Bool) (addr : UInt64) (cmd : List UInt8) :
    FbM FbStatus := do
  if _h : deref cmd = 0 then
    fbEndCommand fbOk
    return fbOk
  else if ascii then
    modify (Usbd.store addr [deref cmd])
    loop access ascii (addr + access) (cmd.drop 1)
  else
    let value := (simpleStrtoull cmd 0).1
    let rest := (simpleStrtoull cmd 0).2
    if _h' : deref rest = ' '.toNat.toUInt8 then
      modify (Usbd.store addr (wordBytes value access.toNat))
      loop access ascii (addr + access) (rest.drop 1)
    else if _h' : deref rest = 0 then
      modify (Usbd.store addr (wordBytes value access.toNat))
      loop access ascii (addr + access) rest
    else return fbBadCommand
termination_by cmd.length
decreasing_by
  · exact length_drop_one_lt _h
  · exact (length_drop_one_lt (by rw [_h']; decide)).trans_le
      (simpleStrtoull_suffix cmd 0).length_le
  · exact simpleStrtoull_length_lt _h _h'

/-- `fb_oem_cmd_poke`. -/
def fbOemCmdPoke (cmd : List UInt8) : FbM FbStatus := do
  let (addr, cmd) := simpleStrtoull cmd 0
  if deref cmd ≠ ' '.toNat.toUInt8 then return fbBadCommand
  else
    let (ascii, access, cmd) := fbOemCmdPeek.access (cmd.drop 1)
    if !isAccess access then return fbBadCommand
    else if deref cmd ≠ ' '.toNat.toUInt8 then return fbBadCommand
    else fbOemCmdPoke.loop access ascii addr (cmd.drop 1)

/-- `fb_oem_cmd_echo`. -/
def fbOemCmdEcho (cmd : List UInt8) : FbM FbStatus := do
  modify (Usbd.setCtx fun fb => { fb with console := fb.console ++ text cmd ++ bytes "\n" })
  fbEndCommand fbOk
  return fbOk

/-- The type that `fb_oem_cmd_alloc_ex` reads after the alignment. -/
def fbOemCmdAllocEx.type (cmd : List UInt8) : Option LmbType :=
  if deref cmd = ' '.toNat.toUInt8 then
    let cmd := cmd.drop 1
    if memcmp cmd (bytes "boot" ++ [0]) then some .boot
    else if memcmp cmd (bytes "runtime" ++ [0]) then some .runtime
    else none
  else some .boot

/-- `LMB_TAG("FBRQ")`. -/
def tagFbrq : UInt32 := lmbTag 'F' 'B' 'R' 'Q'

/-- `fb_oem_cmd_alloc_ex`. -/
def fbOemCmdAllocEx (cmd : List UInt8) (maxAddr : UInt64) : FbM FbStatus := do
  let (size, cmd) := simpleStrtoull cmd 0
  if deref cmd ≠ ' '.toNat.toUInt8 then return fbBadCommand
  else
    let (align, cmd) := simpleStrtoull (cmd.drop 1) 0
    match fbOemCmdAllocEx.type cmd with
    | none => return fbBadCommand
    | some type =>
      let addr ← lmbCall fun lmb => lmbAllocBase lmb size align maxAddr type tagFbrq
      if addr = 0 then return fbOom
      else
        fbEndCommandWithInfo (bytes "0x" ++ fmtHex addr)
        return fbOk

/-- `fb_oem_cmd_alloc`. -/
def fbOemCmdAlloc (cmd : List UInt8) : FbM FbStatus := fbOemCmdAllocEx cmd lmbAllocAnywhere

/-- `fb_oem_cmd_alloc32`. -/
def fbOemCmdAlloc32 (cmd : List UInt8) : FbM FbStatus := fbOemCmdAllocEx cmd lmbAlloc32Bit

/-- `fb_oem_cmd_free`. -/
def fbOemCmdFree (cmd : List UInt8) : FbM FbStatus := do
  let (addr, cmd) := simpleStrtoull cmd 0
  if deref cmd ≠ ' '.toNat.toUInt8 then return fbBadCommand
  else
    let (size, cmd) := simpleStrtoull (cmd.drop 1) 0
    if deref cmd ≠ ' '.toNat.toUInt8 then return fbBadCommand
    else
      let (align, cmd) := simpleStrtoull (cmd.drop 1) 0
      if deref cmd ≠ 0 then return fbBadCommand
      else
        let _ ← lmbCall fun lmb => lmbFree lmb addr size align
        fbEndCommand fbOk
        return fbOk

/-- The loop of `fb_oem_cmd_smccc` and the test after it, `n` rounds: the numbers read, or `none`
for a bad command. -/
def fbOemCmdSmccc.args : Nat → List UInt8 → Option (List UInt64)
  | 0, cmd => if deref cmd ≠ 0 then none else some []
  | n + 1, cmd =>
    let (value, cmd) := simpleStrtoull cmd 0
    if deref cmd = 0 then some [value]
    else if deref cmd ≠ ' '.toNat.toUInt8 then none
    else (args n (cmd.drop 1)).map (value :: ·)

/-- `fb_oem_cmd_smccc`. -/
def fbOemCmdSmccc (cmd : List UInt8) : FbM FbStatus := do
  match fbOemCmdSmccc.args 8 cmd with
  | none => return fbBadCommand
  | some args =>
    modify (Usbd.setCtx fun fb =>
      { fb with smcCalls := (args ++ List.replicate (8 - args.length) 0) :: fb.smcCalls })
    let fb := (← get).ctx
    let (r0, r1, r2, r3) := fb.smc fb.smcCalls
    fbEndCommandWithInfo (bytes "0x" ++ fmtHex r0 ++ bytes " 0x" ++ fmtHex r1 ++
      bytes " 0x" ++ fmtHex r2 ++ bytes " 0x" ++ fmtHex r3)
    return fbOk

/-- `fb_cmd_reboot_complete`. -/
def fbCmdRebootComplete : FbM Unit := do
  usbdFini
  throw (.reboot (← get).ctx.reboot)

/-- `fb_cmd_reboot`. -/
def fbCmdReboot (type : UInt32) : FbM FbStatus := do
  modify (Usbd.setCtx fun fb => { fb with reboot := type })
  fbEndCommandWithCustomComplete fbOk .cmdRebootComplete
  return fbOk

/-- `fb_oem_cmd_reboot`. -/
def fbOemCmdReboot (cmd : List UInt8) : FbM FbStatus := do
  if strcmp cmd (bytes "normal") then fbCmdReboot rebootNormal
  else if strcmp cmd (bytes "bootloader") then fbCmdReboot rebootBootloader
  else if strcmp cmd (bytes "rcm") then fbCmdReboot rebootRcm
  else if strcmp cmd (bytes "recovery") then fbCmdReboot rebootRecovery
  else
    let (s, cmd) := simpleStrtoull cmd 0
    if deref cmd ≠ 0 then return fbBadCommand
    else fbCmdReboot s.toUInt32

/-- `CMD_LIST` of `fb_cmd_oem`. -/
def fbOemCmds : List (List UInt8 × (List UInt8 → FbM FbStatus)) :=
  [(bytes "peek ", fbOemCmdPeek), (bytes "poke ", fbOemCmdPoke), (bytes "echo ", fbOemCmdEcho),
    (bytes "alloc ", fbOemCmdAlloc), (bytes "alloc32 ", fbOemCmdAlloc32),
    (bytes "free ", fbOemCmdFree), (bytes "smccc ", fbOemCmdSmccc),
    (bytes "reboot ", fbOemCmdReboot)]

/-- `fb_cmd_oem`. -/
def fbCmdOem (cmd : List UInt8) : FbM FbStatus :=
  match fbOemCmds.find? fun c => memcmp cmd c.1 with
  | none => return fbUnknownCommand
  | some c => c.2 (cmd.drop c.1.length)

/-! ### Images -/

/-- Where `fb_cmd_flash_complete` jumps to. -/
def Usbd.flashEntry (s : Fb) : UInt64 :=
  if memcmp (s.load s.ctx.lastLoaded bootMagic.length) bootMagic then
    s.loadWord (s.ctx.lastLoaded + bootImgPageSize) 4 + s.ctx.lastLoaded
  else s.ctx.lastLoaded

/-- `fb_cmd_flash_complete`. -/
def fbCmdFlashComplete : FbM Unit := do
  let binary := (← get).flashEntry
  usbdFini
  throw (.jump binary (← get).ctx.fdt)

/-- `fb_cmd_flash`. -/
def fbCmdFlash (cmd : List UInt8) : FbM FbStatus := do
  if !strcmp cmd (bytes "run") then return fbBadCommand
  else if (← get).ctx.lastLoaded = 0 then return fbNotDownloaded
  else
    fbEndCommandWithCustomComplete fbOk .cmdFlashComplete
    return fbOk

/-- `LMB_TAG("DLOD")`. -/
def tagDlod : UInt32 := lmbTag 'D' 'L' 'O' 'D'

/-- The block of the last download is freed at the start of `fb_cmd_download`. -/
def fbCmdDownload.discard : FbM Unit := do
  let fb := (← get).ctx
  if fb.lastLoaded ≠ 0 then
    let _ ← lmbCall fun lmb => lmbFree lmb fb.lastLoaded fb.loadSize fb.loadAlign
    modify (Usbd.setCtx fun fb => { fb with lastLoaded := 0, loadSize := 0, loadAlign := 0 })

section
variable (call : Complete FbComplete → Req → FbM Unit)

/-- `fb_cmd_download`. -/
def fbCmdDownload (cmd : List UInt8) : FbM FbStatus := do
  fbCmdDownload.discard
  let (size, cmd) := simpleStrtoull cmd 16
  if deref cmd ≠ 0 then return fbBadCommand
  else
    let addr ← lmbCall fun lmb =>
      lmbAllocBase lmb size downloadAlignment lmbAlloc32Bit .boot tagDlod
    modify (Usbd.setCtx fun fb => { fb with lastLoaded := addr })
    if addr = 0 then return fbOom
    else
      modify (Usbd.setCtx fun fb =>
        { fb with loadSize := size, loadRem := size, loadAlign := downloadAlignment })
      usbdReqCancel call ep1OutReq
      fbRequestData
      fbRxData
      return fbOk

/-! ### Callbacks -/

/-- What `fb_rx_cmd_complete` makes of a command. -/
inductive FbSelected where
  | oem (cmd : List UInt8)
  | reboot (type : UInt32)
  | download (cmd : List UInt8)
  | flash (cmd : List UInt8)
  | unknown
  deriving DecidableEq, Repr

/-- The tests of `fb_rx_cmd_complete` on the command buffer. -/
def fbSelect (cbuf : List UInt8) : FbSelected :=
  if memcmp cbuf (bytes "oem ") then .oem (cbuf.drop 4)
  else if strcmp cbuf (bytes "reboot") then .reboot rebootNormal
  else if strcmp cbuf (bytes "reboot-bootloader") then .reboot rebootBootloader
  else if memcmp cbuf (bytes "download:") then .download (cbuf.drop 9)
  else if memcmp cbuf (bytes "flash:") then .flash (cbuf.drop 6)
  else .unknown

/-- The call that `fb_rx_cmd_complete` makes for a command. -/
def fbDispatch : FbSelected → FbM FbStatus
  | .oem cmd => fbCmdOem cmd
  | .reboot type => fbCmdReboot type
  | .download cmd => fbCmdDownload call cmd
  | .flash cmd => fbCmdFlash cmd
  | .unknown => return fbUnknownCommand

/-- The end of `fb_rx_cmd_complete`: the command in the buffer `b` is carried out. -/
def fbRxCmdComplete.command (r : Req) (b : Buffer) : FbM Unit := do
  modify (Usbd.setCtx fun fb => { fb with inCommand := true })
  modify (Usbd.storeBuffer r b 63 [0])
  let cbuf := (← get).loadBuffer r b 64
  let status ← fbDispatch call (fbSelect cbuf)
  if status = fbOk then pure () else fbEndCommand status

/-- `fb_rx_cmd_complete`. -/
def fbRxCmdComplete (r : Req) : FbM Unit := do
  let req := (← get).req r
  if !req.cancel then fbRxCmd
  if ((← get).req r).error then pure ()
  else
    if (← get).ctx.inCommand then
      modify (Usbd.setCtx fun fb => { fb with inCommand := false })
      usbdReqCancel call ep1InReq
    fbRxCmdComplete.command call r req.buffer

end

/-- The text of the response to a download. -/
def fbLoadedText (fb : FbMem) : List UInt8 :=
  bytes "Loaded at " ++ fmtPointer fb.lastLoaded ++ bytes "-" ++
    fmtPointer (fb.lastLoaded + fb.loadSize - 1)

/-- The end of `fb_rx_data_complete`: the download goes on, or is acknowledged. -/
def fbRxDataComplete.next : FbM Unit := do
  if (← get).ctx.loadRem = 0 then
    fbRxCmd
    fbEndCommandWithInfo (fbLoadedText (← get).ctx)
  else fbRxData

/-- `fb_rx_data_complete`. -/
def fbRxDataComplete (r : Req) : FbM Unit := do
  let req := (← get).req r
  if req.error ∧ req.cancel then pure ()
  else
    if !req.error then
      modify (Usbd.setCtx fun fb => { fb with loadRem := fb.loadRem - req.ioDone.toUInt64 })
    fbRxDataComplete.next

/-- The callbacks, with calls nested at most `n` deep. -/
def fbComplete : Nat → FbComplete → Req → FbM Unit
  | 0, _, _ => throw .depth
  | _ + 1, .endCommandComplete, _ => fbEndCommandComplete
  | _ + 1, .endCommandWithInfoComplete, _ => fbEndCommandWithInfoComplete
  | _ + 1, .oemCmdPeekExe, r => fbOemCmdPeekExe (some r)
  | _ + 1, .cmdRebootComplete, _ => fbCmdRebootComplete
  | _ + 1, .cmdFlashComplete, _ => fbCmdFlashComplete
  | n + 1, .rxCmdComplete, r => fbRxCmdComplete (usbdCall (fbComplete n)) r
  | _ + 1, .rxDataComplete, r => fbRxDataComplete r

/-! ### The device -/

/-- How deep callbacks are nested: one that is called in `usbd_req_cancel` cancels nothing. -/
def fbDepth : Nat := 2

/-- A call through `complete`. -/
def fbCall : Complete FbComplete → Req → FbM Unit := usbdCall (fbComplete fbDepth)

/-- `fb_set_config`. -/
def fbSetConfig (config : UInt8) : FbM UsbdStatus := do
  if 1 < config then return .configUnsupported
  else if config = 1 then
    usbdEpEnable fbEp1Out fbEp1In
    fbRxCmd
    return .success
  else
    usbdEpDisable fbEp1Out fbEp1In
    modify (Usbd.setCtx fun fb => { fb with inCommand := false })
    usbdReqCancel fbCall ep1InReq
    usbdReqCancel fbCall ep1OutReq
    return .success

/-- The bytes of a table of 16-bit words. -/
def wordsBytes (ws : List UInt16) : List UInt8 :=
  ws.flatMap fun (w : UInt16) => [w.toUInt8, (w >>> 8).toUInt8]

/-- A string descriptor of `usb_descriptors.h`, with the number of words it states. -/
def stringDesc (words : Nat) (s : String) : List UInt8 :=
  wordsBytes (UInt16.ofNat (0x300 ||| words * 2) :: s.toList.map fun c => UInt16.ofNat c.toNat)

/-- `device_desc`. -/
def deviceDesc : List UInt8 :=
  [18, 1, 0x10, 0x02, 0, 0, 0, 0x40, 0xd1, 0x18, 0x0d, 0xd0, 0x00, 0x01, 1, 2, 0, 1]

/-- `config_desc` and `config_desc_fs`, with the largest packet of the bulk endpoints and the
interval of the second one. -/
def configDescriptor (maxPacket : List UInt8) (interval : UInt8) : List UInt8 :=
  [9, 2, 0x20, 0, 1, 1, 0, 0x80, 0x80] ++ [9, 4, 0, 0, 2, 0xff, 0x42, 0x03, 0] ++
    ([7, 5, 0x81, 2] ++ maxPacket ++ [0]) ++ ([7, 5, 0x01, 2] ++ maxPacket ++ [interval])

/-- `config_desc`. -/
def configDesc : List UInt8 := configDescriptor [0x00, 0x02] 1

/-- `config_desc_fs`. -/
def configDescFs : List UInt8 := configDescriptor [0x40, 0x00] 0

/-- `descr_hs` and `descr_fs`, with the configuration descriptor. -/
def descrTable (config : List UInt8) : List UsbdDesc :=
  [(deviceDesc, 0x100), (config, 0x200), (stringDesc 9 "shieldTV", 0x301),
    (stringDesc 20 "shieldTV loader 1.0", 0x302), (stringDesc 8 "default", 0x304),
    (wordsBytes [0x304, 0x409], 0x300)].map
    fun d => ⟨d.1, UInt16.ofNat d.1.length, d.2⟩

/-- `descr_hs`. -/
def descrHs : List UsbdDesc := descrTable configDesc

/-- `descr_fs`. -/
def descrFs : List UsbdDesc := descrTable configDescFs

/-- The calls of the driver to `fb.c`. -/
def fbClient : Client FbComplete FbMem where
  complete := fbComplete fbDepth
  fsDescs := descrFs
  hsDescs := descrHs
  portReset := none
  portSetup := none
  setConfig := some fbSetConfig

/-- `USBD_TD_ALIGNMENT`. -/
def usbdTdAlignment : UInt64 := 0x20

/-- `LMB_TAG("UDMA")`. -/
def tagUdma : UInt32 := lmbTag 'U' 'D' 'M' 'A'

/-- `fb_launch` up to its loop, with the size of `fb_mem`. The endpoints and the block of `fb_mem`
are not looked at again. -/
def fbLaunch (size fdt : UInt64) : FbM Unit := do
  let _ ← lmbCall fun lmb => lmbAllocBase lmb size usbdTdAlignment lmbAlloc32Bit .boot tagUdma
  modify fun s =>
    { s with
      ctx := { s.ctx with
        inCommand := false
        lastLoaded := 0
        loadSize := 0
        loadRem := 0
        loadAlign := 0
        peek := ⟨0, 0, 0, false⟩
        reboot := 0
        fdt }
      req := fun _ => ⟨false, false, .addr 0, 0, 0, none⟩
      small := fun _ => List.replicate 64 0
      hs := false
      descs := none
      currentConfig := 0 }
  usbdReqInit ep1OutReq
  usbdReqInit ep1InReq
  let status ← usbdInit fbClient
  if status ≠ .success then throw .bug

end ShieldLoader
