import ShieldLoader.Fb.Peek
import ShieldLoader.Fb.Texts

/-!
# What earlier commands leave in the buffer

A command is read from a buffer that still has the end of earlier ones. Apart from the command, the
code looks at this buffer only where `oem peek` is told to, or where an image begins.
-/

namespace ShieldLoader

open EStateM Usbd PollInput

/-- The state but for the buffer that commands come in: the bytes that are in it, and what is loaded
from the 64 addresses from `A` on, where it is. -/
def Usbd.hide (A : UInt64) (s : Fb) : Fb :=
  { s with
    small := Function.update s.small ep1OutReq []
    mem := fun x => if (x - A).toNat < 64 then 0 else s.mem x }

/-- None of the `n` bytes at `a` is one of the 64 at `A`. -/
def Avoids (A a : UInt64) (n : Nat) : Prop := ∀ j < n, 64 ≤ (a + UInt64.ofNat j - A).toNat

/-- The buffer that commands come in makes no difference to the code. -/
abbrev Blind {α : Type} (A : UInt64) (x : FbM α) : Prop := Alike (Usbd.hide A) x

section
variable {A : UInt64}

theorem Usbd.load_hide {a : UInt64} {n : Nat} (h : Avoids A a n) (s : Fb) :
    (s.hide A).load a n = s.load a n := by
  refine List.map_congr_left fun j hj => if_neg ?_
  exact Nat.not_lt.2 (h j (List.mem_range.1 hj))

theorem Usbd.loadWord_hide {a : UInt64} {n : Nat} (h : Avoids A a n) (s : Fb) :
    (s.hide A).loadWord a n = s.loadWord a n := by
  rw [loadWord, loadWord, load_hide h]

theorem Usbd.store_hide (a : UInt64) (data : List UInt8) (s : Fb) :
    ((s.hide A).store a data).hide A = (s.store a data).hide A := by
  simp only [hide, store, Function.update_idem]
  congr 1
  funext x
  split_ifs <;> rfl

theorem Usbd.setCtx_hide (f : FbMem → FbMem) (s : Fb) :
    (s.hide A).setCtx f = (s.setCtx f).hide A := rfl

theorem Usbd.storeBuffer_hide {r : Req} (hr : r ≠ ep1OutReq) (b : Buffer) (off : Nat)
    (data : List UInt8) (s : Fb) :
    ((s.hide A).storeBuffer r b off data).hide A = (s.storeBuffer r b off data).hide A := by
  cases b with
  | small =>
    simp only [storeBuffer, hide, Function.update_of_ne hr]
    rw [Function.update_comm hr.symm, Function.update_idem]
    congr 1
    funext x
    split_ifs <;> rfl
  | addr a => exact store_hide _ _ s

end

/-! ### The driver -/

section
variable {A : UInt64}

theorem usbdReqSubmit_blind (r : Req) : Blind A (usbdReqSubmit r) := by
  refine .modify_bind (fun _ => rfl) (.get_bind (fun _ => rfl) fun s => .guard ?_)
  refine .modify_bind (fun _ => rfl) (.modify_bind (fun _ => rfl) ?_)
  exact .modify_bind (fun _ => rfl) (.modify_bind (fun _ => rfl) (.of_modify fun _ => rfl))

theorem usbdEp0InReqComplete_blind (r : Req) : Blind A (usbdEp0InReqComplete r) :=
  .get_bind (fun _ => rfl) fun _ => .ite (.of_pure _)
    (.modify_bind (fun _ => rfl) (usbdReqSubmit_blind _))

theorem usbdFini_blind : Blind A usbdFini := .of_modify fun _ => rfl

theorem lmbCall_blind {α : Type} (g : Lmb → Option (α × Lmb)) : Blind A (lmbCall g) := by
  refine .get_bind (fun _ => rfl) fun s => ?_
  split
  · exact .of_throw _
  · exact .modify_bind (fun _ => rfl) (.of_pure _)

/-! ### Responses -/

theorem fbEndCommandComplete_blind : Blind A fbEndCommandComplete := .of_modify fun _ => rfl

theorem fbEndCommandWithCustomComplete_blind (status : FbStatus) (complete : FbComplete) :
    Blind A (fbEndCommandWithCustomComplete status complete) := by
  refine .modify_bind (fun _ => rfl) (.get_bind (fun _ => rfl) fun _ => .guard ?_)
  refine .store_bind (fun s => storeBuffer_hide (by decide) _ _ _ s) ?_
  exact .modify_bind (fun _ => rfl) (usbdReqSubmit_blind _)

theorem fbEndCommand_blind (status : FbStatus) : Blind A (fbEndCommand status) :=
  fbEndCommandWithCustomComplete_blind _ _

theorem fbEndCommandWithInfo_blind (info : List UInt8) : Blind A (fbEndCommandWithInfo info) := by
  refine .modify_bind (fun _ => rfl) ?_
  refine .store_bind (fun s => storeBuffer_hide (by decide) _ _ _ s) ?_
  exact .modify_bind (fun _ => rfl) (usbdReqSubmit_blind _)

theorem fbRequestData_blind : Blind A fbRequestData := by
  refine .modify_bind (fun _ => rfl) (.get_bind (fun _ => rfl) fun _ => ?_)
  refine .store_bind (fun s => storeBuffer_hide (by decide) _ _ _ s) ?_
  exact .modify_bind (fun _ => rfl) (usbdReqSubmit_blind _)

theorem fbRxCmd_blind : Blind A fbRxCmd := .modify_bind (fun _ => rfl) (usbdReqSubmit_blind _)

theorem fbRxData_blind : Blind A fbRxData :=
  .get_bind (fun _ => rfl) fun _ => .modify_bind (fun _ => rfl) (usbdReqSubmit_blind _)

end

/-! ### Loads -/

section
variable {A : UInt64} {s s' : Fb}

/-- The items of a `peek` are not in the buffer. -/
def FbPeekState.Avoids (A : UInt64) (peek : FbPeekState) : Prop :=
  ∀ i < peek.items.toNat,
    ShieldLoader.Avoids A (peek.addr + UInt64.ofNat i * peek.access) peek.access.toNat

/-- The header of the last image, as far as `fb_cmd_flash_complete` reads it, is not in the
buffer. -/
def FbMem.ImageAvoids (A : UInt64) (fb : FbMem) : Prop :=
  ShieldLoader.Avoids A fb.lastLoaded bootMagic.length ∧
    ShieldLoader.Avoids A (fb.lastLoaded + bootImgPageSize) 4

theorem Usbd.flashEntry_hide (h : s.ctx.ImageAvoids A) : (s.hide A).flashEntry = s.flashEntry := by
  have hmagic := load_hide h.1 s
  have hword := loadWord_hide h.2 s
  simp only [flashEntry]
  rw [show (s.hide A).ctx = s.ctx from rfl, hmagic, hword]

theorem fbOemCmdPeekExe.loop_hide {peek : FbPeekState} {n : Nat}
    (h : ∀ i < n, Avoids A (peek.addr + UInt64.ofNat i * peek.access) peek.access.toNat)
    (lenToFill : Nat) : loop (s.hide A) peek lenToFill n = loop s peek lenToFill n := by
  induction n generalizing peek lenToFill with
  | zero => rfl
  | succ n ih =>
    have hfirst : Avoids A peek.addr peek.access.toNat := by
      have h0 := h 0 (Nat.succ_pos n)
      rwa [show UInt64.ofNat 0 = 0 from rfl, UInt64.zero_mul, UInt64.add_zero] at h0
    have hrest : ∀ i < n, Avoids A (peek.addr + peek.access + UInt64.ofNat i * peek.access)
        peek.access.toNat := by
      intro i hi
      have hnext := h (1 + i) (by omega)
      rwa [UInt64.ofNat_add, UInt64.add_mul, show UInt64.ofNat 1 = 1 from rfl, UInt64.one_mul,
        ← UInt64.add_assoc] at hnext
    rw [loop, loop, loadWord_hide hfirst, @ih { peek with addr := peek.addr + peek.access } hrest]

/-- A page of `peek` that is not in the buffer. -/
theorem fbOemCmdPeekExe_alike {req : Option Req} (h : s.hide A = s'.hide A)
    (hpeek : s.ctx.peek.Avoids A) : AlikeAt (Usbd.hide A) (fbOemCmdPeekExe req) s s' := by
  have hreq : s'.req = s.req := (congrArg Usbd.req h).symm
  have hctx : s'.ctx = s.ctx := (congrArg Usbd.ctx h).symm
  have hloop : fbOemCmdPeekExe.loop s' s.ctx.peek (64 - 4 - 1)
      (min ((64 - 4 - 1) / (2 * s.ctx.peek.access.toNat + 1)) s.ctx.peek.items.toNat) =
      fbOemCmdPeekExe.loop s s.ctx.peek (64 - 4 - 1)
        (min ((64 - 4 - 1) / (2 * s.ctx.peek.access.toNat + 1)) s.ctx.peek.items.toNat) := by
    have hitems : ∀ i < min ((64 - 4 - 1) / (2 * s.ctx.peek.access.toNat + 1))
        s.ctx.peek.items.toNat, Avoids A (s.ctx.peek.addr + UInt64.ofNat i * s.ctx.peek.access)
          s.ctx.peek.access.toNat := fun i hi => hpeek i (hi.trans_le (Nat.min_le_right _ _))
    rw [← fbOemCmdPeekExe.loop_hide hitems, ← h, fbOemCmdPeekExe.loop_hide hitems]
  refine AlikeAt.get_bind ?_ (Alike.ite (.of_pure _) (.ite (fbEndCommand_blind _) ?_) s s' h)
  · simp only [hreq, hctx, hloop]
  · refine .modify_bind (fun _ => rfl) ?_
    refine .store_bind (fun s => storeBuffer_hide (by decide) _ _ _ s) (.guard ?_)
    exact .modify_bind (fun _ => rfl) (usbdReqSubmit_blind _)

end

/-! ### Commands -/

section
variable {A : UInt64} {s s' : Fb} (cmd : List UInt8)

theorem fbOemCmdPeek_blind (hargs : fbOemCmdPeek.args cmd = none) : Blind A (fbOemCmdPeek cmd) := by
  rw [fbOemCmdPeek.args] at hargs
  rw [fbOemCmdPeek]
  obtain ⟨addr, cmd₁, hnum⟩ : ∃ addr cmd₁, simpleStrtoull cmd 0 = (addr, cmd₁) := ⟨_, _, rfl⟩
  rw [hnum] at hargs ⊢
  refine .modify_bind (fun _ => rfl) ?_
  dsimp only at hargs ⊢
  split at hargs
  · next hblank => exact (if_pos hblank).symm ▸ .of_pure _
  next hblank =>
  obtain ⟨ascii, access, cmd₂, hacc⟩ : ∃ ascii access cmd₂,
      fbOemCmdPeek.access (cmd₁.drop 1) = (ascii, access, cmd₂) := ⟨_, _, _, rfl⟩
  rw [if_neg hblank, hacc]
  rw [hacc] at hargs
  refine .modify_bind (fun _ => rfl) ?_
  dsimp only at hargs ⊢
  split at hargs
  · next haccess => exact (if_pos haccess).symm ▸ .of_pure _
  next haccess =>
  obtain ⟨items, cmd₃, hitems⟩ : ∃ items cmd₃, fbOemCmdPeek.items cmd₂ = (items, cmd₃) :=
    ⟨_, _, rfl⟩
  rw [if_neg haccess, hitems]
  rw [hitems] at hargs
  refine .modify_bind (fun _ => rfl) ?_
  dsimp only at hargs ⊢
  split at hargs
  · next hend => exact (if_pos hend).symm ▸ .of_pure _
  · exact absurd hargs (by simp)

/-- A `peek` outside the buffer. -/
theorem fbOemCmdPeek_alike (h : s.hide A = s'.hide A)
    (hpeek : ∀ peek, fbOemCmdPeek.args cmd = some peek → peek.Avoids A) :
    AlikeAt (Usbd.hide A) (fbOemCmdPeek cmd) s s' := by
  cases hargs : fbOemCmdPeek.args cmd with
  | none => exact fbOemCmdPeek_blind cmd hargs s s' h
  | some peek =>
    rw [(fbOemCmdPeek_of_args hargs).2]
    have hset : (s.setCtx fun fb => { fb with peek }).hide A =
        (s'.setCtx fun fb => { fb with peek }).hide A := by
      rw [← setCtx_hide, ← setCtx_hide, h]
    refine .modify_bind (.bind (fbOemCmdPeekExe_alike hset (hpeek peek hargs)) ?_)
    exact fun _ t t' _ _ ht => Alike.of_pure _ t t' ht

theorem fbOemCmdPoke_loop_blind (access : UInt64) (ascii : Bool) (addr : UInt64) :
    Blind A (fbOemCmdPoke.loop access ascii addr cmd) := by
  induction addr, cmd using fbOemCmdPoke.loop.induct access ascii with
  | case1 addr cmd h0 =>
    rw [fbOemCmdPoke.loop, dif_pos h0]
    exact (fbEndCommand_blind _).bind fun _ => .of_pure _
  | case2 addr cmd h0 ha ih =>
    rw [fbOemCmdPoke.loop, dif_neg h0, if_pos ha]
    exact .store_bind (store_hide _ _) ih
  | case3 addr cmd h0 ha rest hr ih =>
    rw [fbOemCmdPoke.loop, dif_neg h0, if_neg ha, dif_pos hr]
    exact .store_bind (store_hide _ _) ih
  | case4 addr cmd h0 ha rest hr h1 ih =>
    rw [fbOemCmdPoke.loop, dif_neg h0, if_neg ha, dif_neg hr, dif_pos h1]
    exact .store_bind (store_hide _ _) ih
  | case5 addr cmd h0 ha rest hr h1 =>
    rw [fbOemCmdPoke.loop, dif_neg h0, if_neg ha, dif_neg hr, dif_neg h1]
    exact .of_pure _

theorem fbOemCmdPoke_blind : Blind A (fbOemCmdPoke cmd) := by
  rw [fbOemCmdPoke]
  rcases simpleStrtoull cmd 0 with ⟨addr, cmd⟩
  refine .ite (.of_pure _) ?_
  rcases fbOemCmdPeek.access (cmd.drop 1) with ⟨ascii, access, cmd⟩
  exact .ite (.of_pure _) (.ite (.of_pure _) (fbOemCmdPoke_loop_blind _ _ _ _))

theorem fbOemCmdEcho_blind : Blind A (fbOemCmdEcho cmd) :=
  .modify_bind (fun _ => rfl) ((fbEndCommand_blind _).bind fun _ => .of_pure _)

theorem fbOemCmdAllocEx_blind (maxAddr : UInt64) : Blind A (fbOemCmdAllocEx cmd maxAddr) := by
  rw [fbOemCmdAllocEx]
  rcases simpleStrtoull cmd 0 with ⟨size, cmd⟩
  refine .ite (.of_pure _) ?_
  rcases simpleStrtoull (cmd.drop 1) 0 with ⟨align, cmd⟩
  dsimp only
  split
  · exact .of_pure _
  · exact (lmbCall_blind _).bind fun addr => .ite (.of_pure _)
      ((fbEndCommandWithInfo_blind _).bind fun _ => .of_pure _)

theorem fbOemCmdAlloc_blind : Blind A (fbOemCmdAlloc cmd) := fbOemCmdAllocEx_blind cmd _

theorem fbOemCmdAlloc32_blind : Blind A (fbOemCmdAlloc32 cmd) := fbOemCmdAllocEx_blind cmd _

theorem fbOemCmdFree_blind : Blind A (fbOemCmdFree cmd) := by
  rw [fbOemCmdFree]
  rcases simpleStrtoull cmd 0 with ⟨addr, cmd⟩
  refine .ite (.of_pure _) ?_
  rcases simpleStrtoull (cmd.drop 1) 0 with ⟨size, cmd⟩
  refine .ite (.of_pure _) ?_
  rcases simpleStrtoull (cmd.drop 1) 0 with ⟨align, cmd⟩
  exact .ite (.of_pure _) ((lmbCall_blind _).bind fun _ =>
    (fbEndCommand_blind _).bind fun _ => .of_pure _)

theorem fbOemCmdSmccc_blind : Blind A (fbOemCmdSmccc cmd) := by
  rw [fbOemCmdSmccc]
  split
  · exact .of_pure _
  · exact .modify_bind (fun _ => rfl) (.get_bind (fun _ => rfl) fun s =>
      (fbEndCommandWithInfo_blind _).bind fun _ => .of_pure _)

theorem fbCmdReboot_blind (type : UInt32) : Blind A (fbCmdReboot type) :=
  .modify_bind (fun _ => rfl)
    ((fbEndCommandWithCustomComplete_blind _ _).bind fun _ => .of_pure _)

theorem fbOemCmdReboot_blind : Blind A (fbOemCmdReboot cmd) := by
  rw [fbOemCmdReboot]
  refine .ite (fbCmdReboot_blind _) (.ite (fbCmdReboot_blind _) ?_)
  refine .ite (fbCmdReboot_blind _) (.ite (fbCmdReboot_blind _) ?_)
  rcases simpleStrtoull cmd 0 with ⟨s, cmd⟩
  exact .ite (.of_pure _) (fbCmdReboot_blind _)

theorem fbCmdOem_alike (h : s.hide A = s'.hide A)
    (hpeek : ∀ arg peek, cmd = bytes "peek " ++ arg → fbOemCmdPeek.args arg = some peek →
      peek.Avoids A) : AlikeAt (Usbd.hide A) (fbCmdOem cmd) s s' := by
  rw [fbCmdOem]
  split
  · exact Alike.of_pure _ s s' h
  · next c hc =>
    have hname := List.find?_some hc
    have hmem := List.mem_of_find?_eq_some hc
    simp only [fbOemCmds, List.mem_cons, List.not_mem_nil, or_false] at hmem
    rcases hmem with rfl | rfl | rfl | rfl | rfl | rfl | rfl | rfl
    all_goals dsimp only at hname ⊢
    · obtain ⟨arg, rfl⟩ := memcmp_iff.1 hname
      rw [List.drop_left]
      exact fbOemCmdPeek_alike arg h fun peek => hpeek arg peek rfl
    · exact fbOemCmdPoke_blind _ s s' h
    · exact fbOemCmdEcho_blind _ s s' h
    · exact fbOemCmdAlloc_blind _ s s' h
    · exact fbOemCmdAlloc32_blind _ s s' h
    · exact fbOemCmdFree_blind _ s s' h
    · exact fbOemCmdSmccc_blind _ s s' h
    · exact fbOemCmdReboot_blind _ s s' h

theorem fbCmdFlash_blind : Blind A (fbCmdFlash cmd) :=
  .ite (.of_pure _) (.get_bind (fun _ => rfl) fun _ => .ite (.of_pure _)
    ((fbEndCommandWithCustomComplete_blind _ _).bind fun _ => .of_pure _))

theorem fbCmdDownload_discard_blind : Blind A fbCmdDownload.discard :=
  .get_bind (fun _ => rfl) fun _ => .ite ((lmbCall_blind _).bind fun _ =>
    .of_modify fun _ => rfl) (.of_pure _)

end

/-! ### Cancels -/

section
variable {A : UInt64} {s s' : Fb} {n : Nat}

/-- The callback of a request that is cancelled. One that waits for a command does not look at it. -/
theorem fbComplete_cancelled_alike {r : Req} (h : s.hide A = s'.hide A)
    (herror : (s.req r).error = true) (hcancel : (s.req r).cancel = true) {k : FbComplete}
    (hflash : k = .cmdFlashComplete → s.ctx.ImageAvoids A) :
    AlikeAt (Usbd.hide A) (fbComplete n k r) s s' := by
  have hreq : s'.req = s.req := (congrArg Usbd.req h).symm
  cases n with
  | zero => exact Alike.of_throw _ s s' h
  | succ n =>
    cases k with
    | endCommandComplete => exact fbEndCommandComplete_blind s s' h
    | endCommandWithInfoComplete => exact fbEndCommand_blind _ s s' h
    | oemCmdPeekExe =>
      refine .get_bind (by simp only [hreq, Option.any_some, herror, if_true]) ?_
      simp only [Option.any_some, herror, if_true]
      exact Alike.of_pure _ s s' h
    | cmdRebootComplete =>
      exact (usbdFini_blind.bind fun _ => .get_bind (fun _ => rfl) fun _ => .of_throw _) s s' h
    | cmdFlashComplete =>
      have hctx : s'.ctx = s.ctx := (congrArg Usbd.ctx h).symm
      have himage := hflash rfl
      have hentry : s'.flashEntry = s.flashEntry := by
        rw [← flashEntry_hide (hctx.symm ▸ himage), ← h, flashEntry_hide himage]
      refine .get_bind (by simp only [hentry]) ?_
      exact (usbdFini_blind.bind fun _ => .get_bind (fun _ => rfl) fun _ => .of_throw _) s s' h
    | rxCmdComplete =>
      refine .get_bind (by rw [hreq]) ?_
      rw [if_neg (by simp [hcancel])]
      refine .get_bind (by rw [hreq]) ?_
      rw [if_pos herror]
      exact Alike.of_pure _ s s' h
    | rxDataComplete =>
      refine .get_bind (by rw [hreq]) ?_
      rw [if_pos ⟨herror, hcancel⟩]
      exact Alike.of_pure _ s s' h

theorem setReq_blind (r : Req) (f : UsbdReq FbComplete → UsbdReq FbComplete) :
    Blind A (modify (Usbd.setReq r f)) := .of_modify fun _ => rfl

theorem Usbd.cancelled_hide (r : Req) (s : Fb) : (s.hide A).cancelled r = (s.cancelled r).hide A :=
  rfl

/-- A request is cancelled. -/
theorem usbdReqCancel_alike {r : Req} (h : s.hide A = s'.hide A)
    (hflash : (s.req r).complete = some (.client .cmdFlashComplete) → s.ctx.ImageAvoids A) :
    AlikeAt (Usbd.hide A) (usbdReqCancel (usbdCall (fbComplete n)) r) s s' := by
  have hreqs : s'.reqs = s.reqs := (congrArg Usbd.reqs h).symm
  refine .get_bind (by rw [hreqs]) (.ite (fun _ => Alike.of_pure _ s s' h) fun _ => ?_)
  refine .modify_bind (.modify_bind (.modify_bind (.modify_bind ?_)))
  change AlikeAt _ (usbdNotify (usbdCall (fbComplete n)) r >>= fun _ => _) (s.cancelled r)
    (s'.cancelled r)
  refine .bind ?_ fun _ t t' _ _ ht => setReq_blind _ _ t t' ht
  have hc : (s.cancelled r).hide A = (s'.cancelled r).hide A := by
    rw [← cancelled_hide, ← cancelled_hide, h]
  have hreq : (s'.cancelled r).req = (s.cancelled r).req := (congrArg Usbd.req hc).symm
  have hself : (s.cancelled r).req r = { s.req r with error := true, cancel := true } := by
    rw [cancelled_req, Function.update_self]
  refine .get_bind (by rw [hreq]) ?_
  rw [hself]
  dsimp only
  split
  · exact Alike.of_pure _ _ _ hc
  · next c hcomplete =>
    cases c with
    | ep0InReqComplete => exact usbdEp0InReqComplete_blind r _ _ hc
    | client k =>
      refine fbComplete_cancelled_alike hc ?_ ?_ fun hk => hflash (hk ▸ hcomplete)
      · rw [hself]
      · rw [hself]

/-! ### The command in the buffer -/

theorem lmbCall_req {α : Type} (g : Lmb → Option (α × Lmb)) :
    Frames (Usbd.req : Fb → Req → UsbdReq FbComplete) (lmbCall g) :=
  fun _ => post_lmbCall.2 ⟨fun _ => rfl, fun _ _ _ => rfl⟩

/-- `download:` cancels the receive that waits for a command. -/
theorem fbCmdDownload_alike (hout : Listening s) (h : s.hide A = s'.hide A) (cmd : List UInt8) :
    AlikeAt (Usbd.hide A) (fbCmdDownload (usbdCall (fbComplete n)) cmd) s s' := by
  refine (fbCmdDownload_discard_blind s s' h).bind fun _ s₁ s₁' h₁ _ hs₁ => ?_
  have hreq₁ : s₁.req = s.req := by
    have hkeep := (fbCmdDownload_discard_post s).of_ok h₁
    rw [hkeep.1]
  rcases simpleStrtoull cmd 16 with ⟨size, cmd⟩
  refine .ite (fun _ => Alike.of_pure _ _ _ hs₁) fun _ => ?_
  refine (lmbCall_blind _ s₁ s₁' hs₁).bind fun addr s₂ s₂' h₂ _ hs₂ => ?_
  have hreq₂ : s₂.req = s.req := ((lmbCall_req _ s₁).of_ok h₂).trans hreq₁
  have hset : ∀ {t t' : Fb} (f : FbMem → FbMem), t.hide A = t'.hide A →
      (t.setCtx f).hide A = (t'.setCtx f).hide A := by
    intro t t' f ht
    rw [← setCtx_hide, ← setCtx_hide, ht]
  have hs₃ := hset (fun fb => { fb with lastLoaded := addr }) hs₂
  refine .modify_bind (.ite (fun _ => Alike.of_pure _ _ _ hs₃) fun _ => .modify_bind ?_)
  refine (usbdReqCancel_alike (hset _ hs₃) fun hflash => ?_).bind fun _ s₄ s₄' _ _ hs₄ => ?_
  · have hcomplete : (s.req ep1OutReq).complete = some (.client .cmdFlashComplete) := by
      rw [← hreq₂]
      exact hflash
    rw [hout.complete] at hcomplete
    exact absurd hcomplete (by simp)
  · exact fbRequestData_blind.bind (fun _ => fbRxData_blind.bind fun _ => .of_pure _) s₄ s₄' hs₄

/-- What the code reads for a command is not in the buffer: the items of a `peek`, and the header of
the image when the response of `flash:run` is cancelled, which starts it. -/
structure Overlooks (A : UInt64) (sel : FbSelected) (s : Fb) : Prop where
  peek {cmd : List UInt8} {peek : FbPeekState} : sel = .oem (bytes "peek " ++ cmd) →
    fbOemCmdPeek.args (cmd ++ [0]) = some peek → peek.Avoids A
  image : FlashPending s → s.ctx.ImageAvoids A

theorem fbDispatch_alike {sel : FbSelected} (hout : Listening s) (h : s.hide A = s'.hide A)
    (hpeek : ∀ arg peek, sel = .oem (bytes "peek " ++ arg) → fbOemCmdPeek.args arg = some peek →
      peek.Avoids A) :
    AlikeAt (Usbd.hide A) (fbDispatch (usbdCall (fbComplete n)) sel) s s' := by
  cases sel with
  | oem cmd => exact fbCmdOem_alike cmd h fun arg peek hcmd => hpeek arg peek (congrArg _ hcmd)
  | reboot type => exact fbCmdReboot_blind type s s' h
  | download cmd => exact fbCmdDownload_alike hout h cmd
  | flash cmd => exact fbCmdFlash_blind cmd s s' h
  | unknown => exact Alike.of_pure _ s s' h

end

/-- The command in a buffer whose last byte is set to NUL. -/
def commandOf (M : List UInt8) : List UInt8 := (M.take 63 ++ [0] ++ M.drop 64).take 64

theorem Usbd.commandText_eq (s : Fb) : s.commandText = commandOf (s.small ep1OutReq) := by
  simp only [commandText, storeBuffer, loadBuffer, Function.update_self]
  rfl

section
variable {A : UInt64} {s s' : Fb} {n : Nat} {sel : FbSelected}
    (hpeek : ∀ arg peek, sel = .oem (bytes "peek " ++ arg) → fbOemCmdPeek.args arg = some peek →
      peek.Avoids A)
include hpeek

theorem fbRxCmdComplete_command_alike (hout : Listening s) (h : s.hide A = s'.hide A)
    (hsel : fbDispatch (usbdCall (fbComplete n)) (fbSelect (commandOf (s.small ep1OutReq))) =
      fbDispatch (usbdCall (fbComplete n)) sel)
    (hsel' : fbDispatch (usbdCall (fbComplete n)) (fbSelect (commandOf (s'.small ep1OutReq))) =
      fbDispatch (usbdCall (fbComplete n)) sel) :
    AlikeAt (Usbd.hide A) (fbRxCmdComplete.command (usbdCall (fbComplete n)) ep1OutReq .small)
      s s' := by
  set t := (s.setCtx fun fb => { fb with inCommand := true }).storeBuffer ep1OutReq .small 63 [0]
    with ht
  set t' := (s'.setCtx fun fb => { fb with inCommand := true }).storeBuffer ep1OutReq .small 63 [0]
    with ht'
  have hout' : Listening t := { hout with }
  have hhide : t.hide A = t'.hide A := by
    have hset : ∀ u : Fb, ((u.setCtx fun fb => { fb with inCommand := true }).storeBuffer ep1OutReq
        .small 63 [0]).hide A = (u.hide A).setCtx fun fb => { fb with inCommand := true } := by
      intro u
      simp only [hide, storeBuffer, Function.update_idem]
      rfl
    rw [ht, ht', hset, hset, h]
  have htext : t.loadBuffer ep1OutReq .small 64 = commandOf (s.small ep1OutReq) :=
    Usbd.commandText_eq _
  have htext' : t'.loadBuffer ep1OutReq .small 64 = commandOf (s'.small ep1OutReq) :=
    Usbd.commandText_eq _
  refine .modify_bind (.modify_bind (.get_bind ?_ ?_))
  · simp only [← ht, ← ht', htext, htext', hsel, hsel']
  · simp only [← ht, htext, hsel]
    refine (fbDispatch_alike hout' hhide hpeek).bind fun status u u' _ _ hu => ?_
    exact Alike.ite (.of_pure _) (fbEndCommand_blind _) u u' hu

theorem fbRxCmdComplete_alike (h : s.hide A = s'.hide A) (hs : s.reqs ep1OutReq.ix = none)
    (hb : (s.req ep1OutReq).buffer = .small) (hc : (s.req ep1OutReq).cancel = false)
    (hin : InOk s) (himage : FlashPending s → s.ctx.ImageAvoids A)
    (hsel : fbDispatch (usbdCall (fbComplete (n + 1)))
      (fbSelect (commandOf (s.small ep1OutReq))) = fbDispatch (usbdCall (fbComplete (n + 1))) sel)
    (hsel' : fbDispatch (usbdCall (fbComplete (n + 1)))
      (fbSelect (commandOf (s'.small ep1OutReq))) = fbDispatch (usbdCall (fbComplete (n + 1))) sel) :
    AlikeAt (Usbd.hide A) (fbRxCmdComplete (usbdCall (fbComplete (n + 1))) ep1OutReq) s s' := by
  have hreq : ∀ {t t' : Fb}, t.hide A = t'.hide A → t'.req = t.req :=
    fun h => (congrArg Usbd.req h).symm
  have hs' : s'.reqs ep1OutReq.ix = none := (congrFun (congrArg Usbd.reqs h) _).symm.trans hs
  have hc' : (s'.req ep1OutReq).cancel = false := by rw [hreq h]; exact hc
  refine .get_bind (by rw [hreq h]) ?_
  dsimp only
  rw [hb, hc]
  refine (fbRxCmd_blind s s' h).bind fun _ s₁ s₁' h₁ h₁' hs₁ => ?_
  obtain ⟨ho, hl, -⟩ := (fbRxCmd_post hs hc fun _ _ => True).of_ok h₁
  obtain ⟨ho', -, -⟩ := (fbRxCmd_post hs' hc' fun _ _ => True).of_ok h₁'
  refine .get_bind (by rw [hreq hs₁]) (.ite (fun _ => Alike.of_pure _ _ _ hs₁) fun _ => ?_)
  have hctx : s₁'.ctx = s₁.ctx := (congrArg Usbd.ctx hs₁).symm
  refine .get_bind (by rw [hctx]) (.ite (fun _ => .modify_bind ?_) fun _ => ?_)
  · have hset : (s₁.setCtx fun fb => { fb with inCommand := false }).hide A =
        (s₁'.setCtx fun fb => { fb with inCommand := false }).hide A := by
      rw [← setCtx_hide, ← setCtx_hide, hs₁]
    have hin₁ : InOk (s₁.setCtx fun fb => { fb with inCommand := false }) :=
      .of_still (hin.of_outOnly ho) rfl rfl
    have hin₁' : InOk (s₁'.setCtx fun fb => { fb with inCommand := false }) := by
      refine hin₁.of_still ?_ ?_
      · exact congrFun (congrArg Usbd.reqs hset).symm _
      · rw [hreq hset]
    refine (usbdReqCancel_alike hset fun hflash => ?_).bind fun _ s₂ s₂' h₂ h₂' hs₂ => ?_
    · have hload : s₁.ctx = s.ctx := ho.ctx
      have hpending : FlashPending s := by
        rw [FlashPending, ← ho.in_req]
        exact hflash
      have havoids := himage hpending
      rwa [FbMem.ImageAvoids, ← hload] at havoids
    · have hk := ((fbCancelIn_post hin₁).of_ok h₂).keeps
      have hk' := ((fbCancelIn_post hin₁').of_ok h₂').keeps
      have hsmall : s₂.small ep1OutReq = s.small ep1OutReq :=
        (hk.small _ (by decide)).trans (congrFun ho.small _)
      have hsmall' : s₂'.small ep1OutReq = s'.small ep1OutReq :=
        (hk'.small _ (by decide)).trans (congrFun ho'.small _)
      refine fbRxCmdComplete_command_alike hpeek ?_ hs₂ ?_ ?_
      · exact Listening.of_keeps (s := s₁.setCtx _) { hl with } hk
      · rw [hsmall]; exact hsel
      · rw [hsmall']; exact hsel'
  · refine fbRxCmdComplete_command_alike hpeek hl hs₁ ?_ ?_
    · rw [ho.small]; exact hsel
    · rw [ho'.small]; exact hsel'

end

section
variable {A : UInt64} {s s' : Fb} {f : Finish}

/-- A poll that finds one transfer finished runs a round. -/
theorem fbPoll_transfer {ix : Nat} (hix : ix < maxReqs) (f : Finish) (s : Fb) :
    fbPoll (.transfer ix f) s = usbdCompletions.round fbCall ix (finish ix f s) := by
  have hround : Post (usbdCompletions.round fbCall ix)
      (fun a s' => .ok a s' = usbdCompletions.round fbCall ix (finish ix f s))
      (fun e s' => .error e s' = usbdCompletions.round fbCall ix (finish ix f s))
      (finish ix f s) := post_iff.2 ⟨fun _ _ h => h.symm, fun _ _ h => h.symm⟩
  have hpoll := (post_usbdPoll_transfer fbClient hix f).2 hround
  cases h : fbPoll (.transfer ix f) s with
  | ok a s' => exact hpoll.of_ok h
  | error e s' => exact hpoll.of_error h

/-- A packet comes into the buffer. -/
theorem finish_listening (hl : Listening s) (f : Finish) :
    (finish ep1OutReq.ix f s).small ep1OutReq =
      f.data ++ (s.small ep1OutReq).drop f.data.length ∧
    (finish ep1OutReq.ix f (s.hide A)).hide A = (finish ep1OutReq.ix f s).hide A := by
  have hslot : (s.hide A).reqs ep1OutReq.ix = some ep1OutReq := hl.slot
  have hsend : ep1OutReq.ep.send = false := rfl
  have hbuffer : ((s.hide A).req ep1OutReq).buffer = .small := hl.buffer
  simp only [finish, hslot, hl.slot, hsend, Bool.false_eq_true, if_false, hbuffer, hl.buffer]
  simp only [storeBuffer, hide, Function.update_self, Function.update_idem, Nat.zero_add,
    List.take_zero, List.nil_append, true_and]
  congr 1
  funext x
  split_ifs <;> rfl

theorem fbPoll_alike {sel : FbSelected} (hok : FbOk s) (hl : Listening s)
    (hl' : Listening s') (h : s.hide A = s'.hide A)
    (himage : FlashPending s → s.ctx.ImageAvoids A)
    (hpeek : ∀ arg peek, sel = .oem (bytes "peek " ++ arg) → fbOemCmdPeek.args arg = some peek →
      peek.Avoids A)
    (hsel : fbDispatch (usbdCall (fbComplete 1))
        (fbSelect (commandOf (f.data ++ (s.small ep1OutReq).drop f.data.length))) =
      fbDispatch (usbdCall (fbComplete 1)) sel)
    (hsel' : fbDispatch (usbdCall (fbComplete 1))
        (fbSelect (commandOf (f.data ++ (s'.small ep1OutReq).drop f.data.length))) =
      fbDispatch (usbdCall (fbComplete 1)) sel) :
    AlikeAt (Usbd.hide A) (fbPoll (.transfer ep1OutReq.ix f)) s s' := by
  have hu := (finish_untouched ep1OutReq.ix f s).1
  obtain ⟨hsmall, hhide⟩ := finish_listening (A := A) hl f
  obtain ⟨hsmall', hhide'⟩ := finish_listening (A := A) hl' f
  rw [AlikeAt, fbPoll_transfer (by decide), fbPoll_transfer (by decide)]
  set s₀ := finish ep1OutReq.ix f s with hs₀
  set s₀' := finish ep1OutReq.ix f s' with hs₀'
  have hl₀ : Listening s₀ := hu.sameEp1.listening hl
  have hsame : s₀.hide A = s₀'.hide A := by rw [← hhide, ← hhide', h]
  have hin : InOk s₀ := (hok.of_untouched hu).inOk
  suffices hround : AlikeAt (Usbd.hide A) (usbdCompletions.round fbCall ep1OutReq.ix) s₀ s₀' from
    hround
  have hreqs : s₀'.reqs = s₀.reqs := (congrArg Usbd.reqs hsame).symm
  refine .get_bind (by rw [hreqs]) (.modify_bind ?_)
  rw [hl₀.slot]
  dsimp only
  have htd : (s₀'.setSlot ep1OutReq.ix none).td = (s₀.setSlot ep1OutReq.ix none).td :=
    (congrArg Usbd.td hsame).symm
  have hreq : s₀'.req = s₀.req := (congrArg Usbd.req hsame).symm
  have hcomplete : (s₀.req ep1OutReq).complete = some (.client .rxCmdComplete) := hl₀.complete
  refine .get_bind (by rw [setSlot_req, setSlot_req, hreq, htd]) ?_
  simp only [setSlot_req, hcomplete]
  refine .modify_bind ?_
  -- the callback, with the result of the transfer in its request
  have hnotify : ∀ g : UsbdReq FbComplete → UsbdReq FbComplete,
      (g (s₀.req ep1OutReq)).complete = (s₀.req ep1OutReq).complete →
      (g (s₀.req ep1OutReq)).buffer = (s₀.req ep1OutReq).buffer →
      (g (s₀.req ep1OutReq)).cancel = (s₀.req ep1OutReq).cancel →
      AlikeAt (Usbd.hide A) (usbdNotify fbCall ep1OutReq)
        ((s₀.setSlot ep1OutReq.ix none).setReq ep1OutReq g)
        ((s₀'.setSlot ep1OutReq.ix none).setReq ep1OutReq g) := by
    intro g hg hbuffer hcancel
    have hset : ∀ t : Fb, ((t.hide A).setSlot ep1OutReq.ix none).setReq ep1OutReq g =
      ((t.setSlot ep1OutReq.ix none).setReq ep1OutReq g).hide A := fun _ => rfl
    have hself : ∀ t : Fb, ((t.setSlot ep1OutReq.ix none).setReq ep1OutReq g).req ep1OutReq =
        g (t.req ep1OutReq) := by
      intro t
      rw [setReq_req, Function.update_self, setSlot_req]
    refine .get_bind (by rw [hself, hself, hreq]) ?_
    rw [hself, hg, hcomplete]
    refine fbRxCmdComplete_alike hpeek ?_ ?_ ?_ ?_ ?_ ?_ ?_ ?_
    · rw [← hset, ← hset, hsame]
    · rw [setReq_reqs, setSlot_reqs, Function.update_self]
    · rw [hself, hbuffer]; exact hl₀.buffer
    · rw [hself, hcancel]; exact hl₀.cancel
    · refine hin.of_still ?_ ?_
      · rw [setReq_reqs, setSlot_reqs, Function.update_of_ne (by decide)]
      · rw [setReq_req, Function.update_of_ne (by decide), setSlot_req]
    · intro hpending
      have hsame : s₀.ctx = s.ctx := hu.ctx
      have havoids := himage (by
        rw [FlashPending, ← hu.req]
        simpa only [FlashPending, setReq_req, setSlot_req,
          Function.update_of_ne (show ep1InReq ≠ ep1OutReq by decide)] using hpending)
      rwa [← hsame] at havoids
    · rw [← hsmall] at hsel
      exact hsel
    · rw [← hsmall'] at hsel'
      exact hsel'
  exact hnotify _ rfl rfl rfl

end

/-! ### Packets -/

/-- What is left behind a packet of the command before, up to the last byte of the buffer. -/
def leftover (packet M : List UInt8) : List UInt8 := text ((M.take 63).drop packet.length)

/-- A packet that is put into the buffer `M` is read as what it says: it has a NUL, or nothing is
left behind it, or it is no command with and without what is left. -/
def EndsIn (packet M : List UInt8) : Prop :=
  0 ∈ packet ∨ leftover packet M = [] ∨
    fbSelect packet = .unknown ∧ fbSelect (packet ++ leftover packet M) = .unknown

/-- The command that the poll carries out, with the text of its argument. -/
def Usbd.Selects (f : Finish) (sel : FbSelected) (s : Fb) : Prop :=
  (UsbdStep.selected (.complete ep1OutReq.ix) (finish ep1OutReq.ix f s)).map FbSelected.text =
    some sel

section
variable {packet M : List UInt8}

theorem commandOf_received (hn : packet.length ≤ 63) (hM : M.length = 64) :
    commandOf (packet ++ M.drop packet.length) =
      packet ++ (M.take 63).drop packet.length ++ [0] := by
  have htake : (packet ++ M.drop packet.length).take 63 =
      packet ++ (M.take 63).drop packet.length := by
    rw [List.take_append, List.take_of_length_le hn, List.drop_take]
  have hdrop : (packet ++ M.drop packet.length).drop 64 = [] :=
    List.drop_eq_nil_of_le (by rw [List.length_append, List.length_drop]; omega)
  rw [commandOf, htake, hdrop, List.append_nil, List.take_of_length_le]
  simp only [List.length_append, List.length_drop, List.length_take, List.length_singleton]
  omega

/-- The text of the command. -/
theorem text_received : text (packet ++ (M.take 63).drop packet.length ++ [0]) =
    if 0 ∈ packet then text packet else packet ++ leftover packet M := by
  rw [text_append_end]
  split
  · next h => exact text_append_of_mem h _
  · next h => exact text_append_of_notMem h

/-- A text is selected as a longer one only if neither is a command. -/
theorem fbSelect_append_eq_iff {p r : List UInt8} (hp : 0 ∉ p) (hr : 0 ∉ r) (hne : r ≠ []) :
    fbSelect (p ++ r) = fbSelect p ↔ fbSelect p = .unknown ∧ fbSelect (p ++ r) = .unknown := by
  constructor
  · intro h
    by_cases hunknown : fbSelect p = .unknown
    · exact ⟨hunknown, h.trans hunknown⟩
    · have happend : 0 ∉ p ++ r := by simp [hp, hr]
      have hlong := fbSelect_spelling happend (h ▸ hunknown)
      rw [h, fbSelect_spelling hp hunknown] at hlong
      exact absurd (List.self_eq_append_right.1 hlong) hne
  · exact fun h => h.2.trans h.1.symm

/-- What is selected from the buffer is what the packet says exactly if it ends in the buffer. -/
theorem fbSelect_received_iff (hn : packet.length ≤ 63) (hM : M.length = 64) :
    (fbSelect (commandOf (packet ++ M.drop packet.length))).text = fbSelect (text packet) ↔
      EndsIn packet M := by
  rw [commandOf_received hn hM]
  obtain ⟨t, ht⟩ := eq_text_append
    (show 0 ∈ packet ++ (M.take 63).drop packet.length ++ [0] by simp)
  have hend := zero_notMem_text (packet ++ (M.take 63).drop packet.length ++ [0])
  rw [ht, fbSelect_append_zero hend, FbSelected.append_text (fbSelect_noNul hend), text_received,
    EndsIn]
  split
  · next h => exact iff_of_true rfl (.inl h)
  · next h =>
    rw [text_of_notMem h, or_iff_right h]
    by_cases hnil : leftover packet M = []
    · rw [hnil, List.append_nil]
      exact iff_of_true rfl (.inl rfl)
    · rw [or_iff_right hnil]
      exact fbSelect_append_eq_iff h (zero_notMem_text _) hnil

/-- What is read from the buffer is carried out as the text that it says. -/
theorem fbDispatch_received {sel : FbSelected} {n : Nat} (hn : packet.length ≤ 63)
    (hM : M.length = 64)
    (h : (fbSelect (commandOf (packet ++ M.drop packet.length))).text = sel) :
    fbDispatch (usbdCall (fbComplete n)) (fbSelect (commandOf (packet ++ M.drop packet.length))) =
      fbDispatch (usbdCall (fbComplete n)) (sel.append [0]) := by
  obtain ⟨t, ht⟩ := eq_text_append
    (show 0 ∈ packet ++ (M.take 63).drop packet.length ++ [0] by simp)
  have hend := zero_notMem_text (packet ++ (M.take 63).drop packet.length ++ [0])
  rw [commandOf_received hn hM, ht, fbSelect_append_zero hend] at h ⊢
  rw [FbSelected.append_text (fbSelect_noNul hend)] at h
  rw [h]
  exact fbDispatch_append _ (h ▸ fbSelect_noNul hend) t []

end

section
variable {s s' : Fb} {f : Finish}

theorem selects_iff {sel : FbSelected} (hl : Listening s)
    (hf : f.sizeIocSts &&& usbdTdErrorMask = 0) :
    s.Selects f sel ↔
      (fbSelect (commandOf (f.data ++ (s.small ep1OutReq).drop f.data.length))).text = sel := by
  have hu := (finish_untouched ep1OutReq.ix f s).1
  have hl₀ : Listening (finish ep1OutReq.ix f s) := hu.sameEp1.listening hl
  have hsts := @finish_sizeIocSts s f ep1OutReq.ix
  have hfail : (finish ep1OutReq.ix f s).failed ep1OutReq.ix = false := by simp [failed, hsts, hf]
  rw [Selects, UsbdStep.selected, if_pos ⟨rfl, hl₀, hfail⟩, Option.map_some, Option.some.injEq,
    commandText_eq, (finish_listening (A := 0) hl f).1]

/-- The arguments of a `peek`, in a text that ends with its NUL. -/
theorem Overlooks.append {A : UInt64} {sel : FbSelected} (h : Overlooks A sel s)
    {arg : List UInt8} {peek : FbPeekState}
    (harg : sel.append [0] = .oem (bytes "peek " ++ arg)) (hargs : fbOemCmdPeek.args arg = some peek) :
    peek.Avoids A := by
  cases sel with
  | oem cmd =>
    have hcmd : cmd ++ [0] = bytes "peek " ++ arg := FbSelected.oem.inj harg
    rcases List.append_eq_append_iff.1 hcmd with ⟨t, hname, ht⟩ | ⟨t, rfl, rfl⟩
    · rcases t with _ | ⟨c, t⟩
      · rw [List.append_nil] at hname
        rw [List.nil_append] at ht
        have hcmd : FbSelected.oem cmd = .oem (bytes "peek " ++ []) := by rw [List.append_nil, hname]
        exact h.peek hcmd (ht ▸ hargs)
      · obtain ⟨rfl, -⟩ := List.cons.inj ht
        have hzero : (0 : UInt8) ∈ bytes "peek " := by simp [hname]
        exact absurd hzero (by decide)
    · exact h.peek rfl hargs
  | reboot | download | flash | unknown => exact absurd harg (by simp [FbSelected.append])

/-- **A command means what its own packet says exactly if it ends in the buffer**: for two states
that differ only in what is left in the buffer that commands come in, and in what is loaded from
there, a packet is taken for the command that it spells, with the same result, if and only if it ends
in both buffers. -/
theorem command_own_iff (hok : FbOk s) (hl : Listening s)
    (hsame : s'.hide (s.smallAddr ep1OutReq) = s.hide (s.smallAddr ep1OutReq))
    (hread : Overlooks (s.smallAddr ep1OutReq) (fbSelect (text f.data)) s)
    (hM : (s.small ep1OutReq).length = 64) (hM' : (s'.small ep1OutReq).length = 64)
    (hf : f.sizeIocSts &&& usbdTdErrorMask = 0) (hn : f.data.length ≤ 63) :
    (s.Selects f (fbSelect (text f.data)) ∧ s'.Selects f (fbSelect (text f.data)) ∧
      (fbPoll (.transfer ep1OutReq.ix f) s).mapState (Usbd.hide (s.smallAddr ep1OutReq)) =
        (fbPoll (.transfer ep1OutReq.ix f) s').mapState (Usbd.hide (s.smallAddr ep1OutReq))) ↔
    EndsIn f.data (s.small ep1OutReq) ∧ EndsIn f.data (s'.small ep1OutReq) := by
  have hreqs : s'.reqs = s.reqs := (congrArg Usbd.reqs hsame.symm).symm
  have hreq : s'.req = s.req := (congrArg Usbd.req hsame.symm).symm
  have hl' : Listening s' := by
    refine ⟨?_, ?_, ?_, ?_, ?_⟩
    · rw [hreqs]; exact hl.slot
    · rw [hreq]; exact hl.complete
    · rw [hreq]; exact hl.buffer
    · rw [hreq]; exact hl.bufferLength
    · rw [hreq]; exact hl.cancel
  rw [selects_iff hl hf, selects_iff hl' hf, fbSelect_received_iff hn hM,
    fbSelect_received_iff hn hM', ← and_assoc, and_iff_left_iff_imp]
  intro hends
  have hown := (fbSelect_received_iff hn hM).2 hends.1
  have hown' := (fbSelect_received_iff hn hM').2 hends.2
  exact fbPoll_alike hok hl hl' hsame.symm hread.image (fun _ _ => hread.append)
    (fbDispatch_received hn hM hown) (fbDispatch_received hn hM' hown')

end

/-- The state with `M` in the buffer that commands come in. -/
def Usbd.leave (M : List UInt8) (s : Fb) : Fb :=
  { s with small := Function.update s.small ep1OutReq M }

/-- `flash:run` with its NUL, where a longer command was before, of which a load shows a byte. -/
theorem command_own_flash :
    let s : Fb := { waiting.leave (bytes "oem echo abc" ++ List.replicate 52 0) with
      mem := Function.update waiting.mem 0x8ffff00b 'c'.toNat.toUInt8 }
    let f : Finish := ⟨0x360000, bytes "flash:run" ++ [0]⟩
    waiting.Selects f (fbSelect (text f.data)) ∧ s.Selects f (fbSelect (text f.data)) ∧
      (fbPoll (.transfer ep1OutReq.ix f) waiting).mapState (Usbd.hide 0x8ffff000) =
        (fbPoll (.transfer ep1OutReq.ix f) s).mapState (Usbd.hide 0x8ffff000) := by
  intro s f
  have hsame : s.hide 0x8ffff000 = waiting.hide 0x8ffff000 := by
    simp only [s, Usbd.hide, Usbd.leave, Function.update_idem]
    congr 1
    funext x
    by_cases hx : x = 0x8ffff00b
    · subst hx
      rfl
    · rw [Function.update_of_ne hx]
  have hread : Overlooks 0x8ffff000 (fbSelect (text f.data)) waiting := by
    have hsel : fbSelect (text f.data) = .flash (bytes "run") := by decide
    have hnone : (waiting.req ep1InReq).complete = none := rfl
    exact ⟨fun h => absurd (hsel.symm.trans h) (by simp), fun h => absurd (hnone.symm.trans h) (by simp)⟩
  refine (command_own_iff fbOk_waiting (by decide) hsame hread ?_ ?_ (by decide) (by decide)).2
    ⟨.inl (by decide), .inl (by decide)⟩
  · decide
  · decide

instance (f : Finish) (sel : FbSelected) (s : Fb) : Decidable (s.Selects f sel) :=
  inferInstanceAs (Decidable (_ = _))

/-- `flash:run` without a NUL is read as `flash:run8`, where an unknown command was before that has
left its last character, and gets another response. -/
theorem command_not_own :
    let s := waiting.leave (bytes "unknown  8" ++ List.replicate 54 0)
    let f : Finish := ⟨0x370000, bytes "flash:run"⟩
    Post (usbdLoop fbClient [command "unknown  8", sent])
      (fun _ s₁ => s₁.small ep1OutReq = s.small ep1OutReq ∧ Listening s₁ ∧
        ¬s₁.Selects f (fbSelect (text f.data))) (fun _ _ => False) waiting ∧
    Listening waiting ∧ (waiting.small ep1OutReq).length = 64 ∧ (s.small ep1OutReq).length = 64 ∧
    waiting.Selects f (fbSelect (text f.data)) ∧ ¬s.Selects f (fbSelect (text f.data)) ∧
    Post (fbPoll (.transfer ep1OutReq.ix f))
      (fun _ s₁ => text (s₁.small ep1InReq) = bytes "FAILNothing downloaded") (fun _ _ => False)
      waiting ∧
    Post (fbPoll (.transfer ep1OutReq.ix f))
      (fun _ s₁ => text (s₁.small ep1InReq) = bytes "FAILBad command") (fun _ _ => False) s := by
  decide +kernel

end ShieldLoader
