import ShieldLoader.Usbd.Rules
import ShieldLoader.Fb.Defs

/-!
# Commands and their responses

A command that takes no data either returns a status and has left the endpoints alone, or has
submitted one response on the IN request. `Command` says so of a program, and is shown of each
command along its text.
-/

namespace ShieldLoader

open EStateM Usbd

/-- What `fb_mem` says of the last download. -/
def FbMem.load (fb : FbMem) : UInt64 × UInt64 × UInt64 × UInt64 :=
  (fb.lastLoaded, fb.loadSize, fb.loadRem, fb.loadAlign)

/-- Nothing but the IN request has changed of what callbacks look at. -/
structure Quiet (s s' : Fb) : Prop where
  keeps : Keeps (Eq ep1InReq) s s'
  inCommand : s'.ctx.inCommand = s.ctx.inCommand
  load : s'.ctx.load = s.ctx.load

/-- Also its slot has not changed. -/
def Still (s s' : Fb) : Prop := Quiet s s' ∧ s'.reqs ep1InReq.ix = s.reqs ep1InReq.ix

/-- The IN request is submitted with this callback. -/
def Responds (c : Option (Complete FbComplete)) (s s' : Fb) : Prop :=
  Quiet s s' ∧ s'.reqs ep1InReq.ix = some ep1InReq ∧ (s'.req ep1InReq).complete = c

/-- Why code stops that only responds. -/
def Stops (s : Fb) (e : Halt) : Prop :=
  e = .bug ∨ e = .lmbOverrun ∨ e = .inFlight ep1InReq.ix ∧ s.reqs ep1InReq.ix ≠ none

theorem Quiet.refl (s : Fb) : Quiet s s := ⟨.refl s, rfl, rfl⟩

theorem Quiet.trans {s s' s'' : Fb} (h : Quiet s s') (h' : Quiet s' s'') : Quiet s s'' :=
  ⟨h.keeps.trans h'.keeps, h'.inCommand.trans h.inCommand, h'.load.trans h.load⟩

theorem Still.refl (s : Fb) : Still s s := ⟨.refl s, rfl⟩

theorem Still.trans {s s' s'' : Fb} (h : Still s s') (h' : Still s' s'') : Still s s'' :=
  ⟨h.1.trans h'.1, h'.2.trans h.2⟩

theorem Still.responds {s s' s'' : Fb} {c : Option (Complete FbComplete)} (h : Still s s')
    (h' : Responds c s' s'') : Responds c s s'' :=
  ⟨h.1.trans h'.1, h'.2⟩

theorem Still.stops {s s' : Fb} {e : Halt} (h : Still s s') (h' : Stops s' e) : Stops s e := by
  rwa [Stops, ← h.2]

theorem Still.setReq (s : Fb) (f : UsbdReq FbComplete → UsbdReq FbComplete) :
    Still s (s.setReq ep1InReq f) :=
  ⟨⟨.setReq rfl f, rfl, rfl⟩, rfl⟩

theorem Still.setCtx (s : Fb) {f : FbMem → FbMem} (h : (f s.ctx).inCommand = s.ctx.inCommand)
    (h' : (f s.ctx).load = s.ctx.load) : Still s (s.setCtx f) :=
  ⟨⟨.setCtx f, h, h'⟩, rfl⟩

theorem Still.storeBuffer (s : Fb) (b : Buffer) (off : Nat) (data : List UInt8) :
    Still s (s.storeBuffer ep1InReq b off data) := by
  cases b <;> exact ⟨⟨.storeBuffer rfl _ off data, rfl, rfl⟩, rfl⟩

theorem Still.store (s : Fb) (a : UInt64) (data : List UInt8) : Still s (s.store a data) :=
  ⟨⟨.store a data, rfl, rfl⟩, rfl⟩

/-- The IN request is submitted in a state that differs from `s` only in it. -/
theorem Still.submit {s s' : Fb} (h : Still s s') {c : Option (Complete FbComplete)}
    (hc : (s'.req ep1InReq).complete = c) :
    Post (usbdReqSubmit ep1InReq) (fun _ => Responds c s) (fun e _ => Stops s e) s' := by
  refine post_usbdReqSubmit.2 ⟨fun hne => .inr (.inr ⟨rfl, h.2 ▸ hne⟩), fun _ => ?_⟩
  refine h.responds ⟨⟨.submitted rfl, rfl, rfl⟩, ?_, ?_⟩
  · rw [submitted_reqs, Function.update_self]
  · rwa [submitted_req, Function.update_self]

theorem post_lmbCall {α : Type} {g : Lmb → Option (α × Lmb)} {s : Fb} {Q : α → Fb → Prop}
    {E : Halt → Fb → Prop} : Post (lmbCall g) Q E s ↔
      (g s.ctx.lmb = none → E .lmbOverrun s) ∧
      ∀ a lmb, g s.ctx.lmb = some (a, lmb) → Q a (s.setCtx fun fb => { fb with lmb }) := by
  rcases h : g s.ctx.lmb with _ | ⟨a, lmb⟩
  · simp [lmbCall, h]
  · simp [lmbCall, h]

/-! ### Responses -/

section
variable (s : Fb)

theorem fbEndCommandWithCustomComplete_post (status : FbStatus) (complete : FbComplete) :
    Post (fbEndCommandWithCustomComplete status complete)
      (fun _ => Responds (some (.client complete)) s) (fun e _ => Stops s e) s := by
  simp only [fbEndCommandWithCustomComplete, post_bind, post_modify, post_get, post_ite,
    post_throw]
  refine ⟨fun _ => .inl rfl, fun _ => Still.submit ?_ ?_⟩
  · exact ((Still.setReq ..).trans (Still.storeBuffer ..)).trans (Still.setReq ..)
  · rw [setReq_req, Function.update_self]

theorem fbEndCommand_post (status : FbStatus) :
    Post (fbEndCommand status) (fun _ => Responds (some (.client .endCommandComplete)) s)
      (fun e _ => Stops s e) s :=
  fbEndCommandWithCustomComplete_post s status .endCommandComplete

theorem fbEndCommandWithInfo_post (info : List UInt8) :
    Post (fbEndCommandWithInfo info)
      (fun _ => Responds (some (.client .endCommandWithInfoComplete)) s)
      (fun e _ => Stops s e) s := by
  simp only [fbEndCommandWithInfo, post_bind, post_modify]
  refine Still.submit ?_ ?_
  · exact ((Still.setReq ..).trans (Still.storeBuffer ..)).trans (Still.setReq ..)
  · rw [setReq_req, Function.update_self]

theorem fbRequestData_post :
    Post fbRequestData (fun _ => Responds none s) (fun e _ => Stops s e) s := by
  simp only [fbRequestData, post_bind, post_modify, post_get]
  refine Still.submit ?_ ?_
  · exact ((Still.setReq ..).trans (Still.storeBuffer ..)).trans (Still.setReq ..)
  · rw [setReq_req, Function.update_self]

/-- The response of `peek` is its last one or has more to come. -/
theorem fbOemCmdPeekExe_post (req : Option Req) :
    Post (fbOemCmdPeekExe req)
      (fun _ s' => (req.any fun r => (s.req r).error) ∧ s' = s ∨
        (req.any fun r => (s.req r).error) = false ∧
        (Responds (some (.client .endCommandComplete)) s s' ∨
          Responds (some (.client .oemCmdPeekExe)) s s'))
      (fun e _ => (req.any fun r => (s.req r).error) = false ∧ Stops s e) s := by
  simp only [fbOemCmdPeekExe, post_bind, post_get, post_ite, post_pure, post_modify, post_throw]
  refine ⟨fun h => .inl ⟨h, trivial⟩, fun h => ?_⟩
  rw [Bool.not_eq_true] at h
  refine ⟨fun _ => (fbEndCommand_post s fbOk).mono (fun _ _ hr => .inr ⟨h, .inl hr⟩)
    fun _ _ he => ⟨h, he⟩, fun _ => ⟨fun _ => ⟨h, .inl rfl⟩, fun _ => ?_⟩⟩
  refine (Still.submit (s := s) ?_ ?_).mono (fun _ _ hr => .inr ⟨h, .inr hr⟩)
    fun _ _ he => ⟨h, he⟩
  · exact ((Still.setCtx _ rfl rfl).trans (Still.storeBuffer ..)).trans (Still.setReq ..)
  · rw [setReq_req, Function.update_self]

end

/-! ### Handlers -/

/-- What a command may change that others rely on. -/
inductive FbEffect where
  | lmb
  | mem

/-- The statuses of `fb.c` other than `FB_OK`. -/
def fbFailures : List FbStatus := [fbBadCommand, fbUnknownCommand, fbOom, fbNotDownloaded]

theorem ne_fbOk_of_mem {st : FbStatus} (h : st ∈ fbFailures) : st ≠ fbOk := by
  rintro rfl
  exact absurd h (by decide)

/-- How a command is put together that takes no data: it sets variables of its own, stores and calls
the allocator as far as `W` lets it, and ends with a failure or in one response. -/
inductive Handler (W : FbEffect → Prop) : FbM FbStatus → Prop
  | fail {st : FbStatus} (h : st ∈ fbFailures) : Handler W (pure st)
  | endCommand : Handler W (fbEndCommand fbOk >>= fun _ => pure fbOk)
  | endCommandWithInfo (info : List UInt8) :
      Handler W (fbEndCommandWithInfo info >>= fun _ => pure fbOk)
  | reboot : Handler W
      (fbEndCommandWithCustomComplete fbOk .cmdRebootComplete >>= fun _ => pure fbOk)
  | peek {f : FbMem → FbPeekState} (h : ∀ fb, isAccess (f fb).access = true) : Handler W
      (modify (Usbd.setCtx fun fb => { fb with peek := f fb }) >>= fun _ =>
        fbOemCmdPeekExe none >>= fun _ => pure fbOk)
  | setCtx {f : FbMem → FbMem} {x : FbM FbStatus} (hcmd : ∀ fb, (f fb).inCommand = fb.inCommand)
      (hload : ∀ fb, (f fb).load = fb.load) (hlmb : ∀ fb, (f fb).lmb = fb.lmb)
      (hx : Handler W x) : Handler W (modify (Usbd.setCtx f) >>= fun _ => x)
  | store (h : W .mem) (a : UInt64) (data : List UInt8) {x : FbM FbStatus} (hx : Handler W x) :
      Handler W (modify (Usbd.store a data) >>= fun _ => x)
  | get {f : Fb → FbM FbStatus} (hf : ∀ s, Handler W (f s)) : Handler W (get >>= f)
  | lmbCall (h : W .lmb) {α : Type} {g : Lmb → Option (α × Lmb)} {f : α → FbM FbStatus}
      (hf : ∀ a, Handler W (f a)) : Handler W (lmbCall g >>= f)

section
variable {W : FbEffect → Prop} (cmd : List UInt8)

theorem Handler.ite {c : Prop} [Decidable c] {x y : FbM FbStatus} (hx : Handler W x)
    (hy : Handler W y) : Handler W (if c then x else y) := by
  split
  · exact hx
  · exact hy

theorem Handler.badCommand : Handler W (pure fbBadCommand) := .fail (by simp [fbFailures])

theorem fbCmdReboot_handler (type : UInt32) : Handler W (fbCmdReboot type) :=
  .setCtx (fun _ => rfl) (fun _ => rfl) (fun _ => rfl) .reboot

/-- Characters are accessed one by one, and the text gets shorter. -/
theorem fbOemCmdPeek.access_spec {cmd cmd' : List UInt8} {ascii : Bool} {access : UInt64}
    (h : fbOemCmdPeek.access cmd = (ascii, access, cmd')) :
    (ascii = true → access = 1) ∧ cmd' <:+ cmd := by
  rw [fbOemCmdPeek.access] at h
  split_ifs at h
  · obtain ⟨rfl, rfl, rfl⟩ := by simpa only [Prod.mk.injEq] using h
    exact ⟨fun _ => rfl, List.drop_suffix 1 cmd⟩
  · obtain ⟨rfl, hnum⟩ := Prod.mk.inj h
    have hsuf := simpleStrtoull_suffix cmd 0
    rw [hnum] at hsuf
    exact ⟨fun h => absurd h (by decide), hsuf⟩

theorem fbOemCmdPeek_handler : Handler W (fbOemCmdPeek cmd) := by
  rw [fbOemCmdPeek]
  rcases simpleStrtoull cmd 0 with ⟨addr, cmd⟩
  dsimp only
  split
  · exact .setCtx (fun _ => rfl) (fun _ => rfl) (fun _ => rfl) .badCommand
  rcases fbOemCmdPeek.access (cmd.drop 1) with ⟨ascii, access, cmd⟩
  dsimp only
  split
  · exact .setCtx (fun _ => rfl) (fun _ => rfl) (fun _ => rfl)
      (.setCtx (fun _ => rfl) (fun _ => rfl) (fun _ => rfl) .badCommand)
  rename_i haccess
  rcases fbOemCmdPeek.items cmd with ⟨items, cmd⟩
  dsimp only
  split
  · exact .setCtx (fun _ => rfl) (fun _ => rfl) (fun _ => rfl)
      (.setCtx (fun _ => rfl) (fun _ => rfl) (fun _ => rfl)
        (.setCtx (fun _ => rfl) (fun _ => rfl) (fun _ => rfl) .badCommand))
  · refine .setCtx (fun _ => rfl) (fun _ => rfl) (fun _ => rfl) ?_
    -- the last two assignments are one, so that `access` is known where the first page is made
    rw [modify_bind_modify]
    exact .peek (f := fun fb => { fb.peek with access, ascii, items }) fun _ => by
      simpa using haccess

theorem fbOemCmdPoke_loop_handler (h : W .mem) (access : UInt64) (ascii : Bool) (addr : UInt64) :
    Handler W (fbOemCmdPoke.loop access ascii addr cmd) := by
  induction addr, cmd using fbOemCmdPoke.loop.induct access ascii with
  | case1 addr cmd h0 =>
    rw [fbOemCmdPoke.loop, dif_pos h0]
    exact .endCommand
  | case2 addr cmd h0 ha ih =>
    rw [fbOemCmdPoke.loop, dif_neg h0, if_pos ha]
    exact .store h _ _ ih
  | case3 addr cmd h0 ha rest hr ih =>
    rw [fbOemCmdPoke.loop, dif_neg h0, if_neg ha, dif_pos hr]
    exact .store h _ _ ih
  | case4 addr cmd h0 ha rest hr h1 ih =>
    rw [fbOemCmdPoke.loop, dif_neg h0, if_neg ha, dif_neg hr, dif_pos h1]
    exact .store h _ _ ih
  | case5 addr cmd h0 ha rest hr h1 =>
    rw [fbOemCmdPoke.loop, dif_neg h0, if_neg ha, dif_neg hr, dif_neg h1]
    exact .badCommand

theorem fbOemCmdPoke_handler (h : W .mem) : Handler W (fbOemCmdPoke cmd) := by
  rw [fbOemCmdPoke]
  rcases simpleStrtoull cmd 0 with ⟨addr, cmd⟩
  refine .ite .badCommand ?_
  rcases fbOemCmdPeek.access (cmd.drop 1) with ⟨ascii, access, cmd⟩
  exact .ite .badCommand (.ite .badCommand (fbOemCmdPoke_loop_handler _ h _ _ _))

theorem fbOemCmdEcho_handler : Handler W (fbOemCmdEcho cmd) :=
  .setCtx (fun _ => rfl) (fun _ => rfl) (fun _ => rfl) .endCommand

theorem fbOemCmdAllocEx_handler (h : W .lmb) (maxAddr : UInt64) :
    Handler W (fbOemCmdAllocEx cmd maxAddr) := by
  rw [fbOemCmdAllocEx]
  rcases simpleStrtoull cmd 0 with ⟨size, cmd⟩
  refine .ite .badCommand ?_
  rcases simpleStrtoull (cmd.drop 1) 0 with ⟨align, cmd⟩
  dsimp only
  split
  · exact .badCommand
  · exact .lmbCall h fun addr => .ite (.fail (by simp [fbFailures])) (.endCommandWithInfo _)

theorem fbOemCmdAlloc_handler (h : W .lmb) : Handler W (fbOemCmdAlloc cmd) :=
  fbOemCmdAllocEx_handler cmd h _

theorem fbOemCmdAlloc32_handler (h : W .lmb) : Handler W (fbOemCmdAlloc32 cmd) :=
  fbOemCmdAllocEx_handler cmd h _

theorem fbOemCmdFree_handler (h : W .lmb) : Handler W (fbOemCmdFree cmd) := by
  rw [fbOemCmdFree]
  rcases simpleStrtoull cmd 0 with ⟨addr, cmd⟩
  refine .ite .badCommand ?_
  rcases simpleStrtoull (cmd.drop 1) 0 with ⟨size, cmd⟩
  refine .ite .badCommand ?_
  rcases simpleStrtoull (cmd.drop 1) 0 with ⟨align, cmd⟩
  exact .ite .badCommand (.lmbCall h fun _ => .endCommand)

theorem fbOemCmdSmccc_handler : Handler W (fbOemCmdSmccc cmd) := by
  rw [fbOemCmdSmccc]
  split
  · exact .badCommand
  · exact .setCtx (fun _ => rfl) (fun _ => rfl) (fun _ => rfl)
      (.get fun s => .endCommandWithInfo _)

theorem fbOemCmdReboot_handler : Handler W (fbOemCmdReboot cmd) := by
  rw [fbOemCmdReboot]
  refine .ite (fbCmdReboot_handler _) (.ite (fbCmdReboot_handler _) ?_)
  refine .ite (fbCmdReboot_handler _) (.ite (fbCmdReboot_handler _) ?_)
  rcases simpleStrtoull cmd 0 with ⟨s, cmd⟩
  exact .ite .badCommand (fbCmdReboot_handler _)

/-- The commands after `oem` that call the allocator. -/
def TakesLmb : Prop :=
  ∃ name ∈ [bytes "alloc ", bytes "alloc32 ", bytes "free "], memcmp cmd name

/-- Every command after `oem`. -/
theorem fbCmdOem_handler (hlmb : TakesLmb cmd → W .lmb)
    (hmem : memcmp cmd (bytes "poke ") → W .mem) : Handler W (fbCmdOem cmd) := by
  rw [fbCmdOem]
  split
  · exact .fail (by simp [fbFailures])
  · next c hc =>
    have hmem' := List.mem_of_find?_eq_some hc
    have hcmp := List.find?_some hc
    simp only [fbOemCmds, List.mem_cons, List.not_mem_nil, or_false] at hmem'
    rcases hmem' with rfl | rfl | rfl | rfl | rfl | rfl | rfl | rfl
    all_goals dsimp only at hcmp ⊢
    · exact fbOemCmdPeek_handler _
    · exact fbOemCmdPoke_handler _ (hmem hcmp)
    · exact fbOemCmdEcho_handler _
    · exact fbOemCmdAlloc_handler _ (hlmb ⟨_, by simp, hcmp⟩)
    · exact fbOemCmdAlloc32_handler _ (hlmb ⟨_, by simp, hcmp⟩)
    · exact fbOemCmdFree_handler _ (hlmb ⟨_, by simp, hcmp⟩)
    · exact fbOemCmdSmccc_handler _
    · exact fbOemCmdReboot_handler _

end

/-! ### Commands -/

/-- The command returns a status with the endpoints left alone, or responds with a callback
in `K`. -/
def Command (K : FbComplete → Prop) (x : FbM FbStatus) : Prop :=
  ∀ s, Post x (fun st s' => st ≠ fbOk ∧ Still s s' ∨
    st = fbOk ∧ ∃ k, K k ∧ Responds (some (.client k)) s s') (fun e _ => Stops s e) s

namespace Command

variable {K : FbComplete → Prop} {x y : FbM FbStatus}

theorem fail {st : FbStatus} (h : st ≠ fbOk) : Command K (pure st) :=
  fun s => post_pure.2 (.inl ⟨h, .refl s⟩)

theorem respond {r : FbM Unit}
    (h : ∀ s, Post r (fun _ s' => ∃ k, K k ∧ Responds (some (.client k)) s s')
      (fun e _ => Stops s e) s) : Command K (r >>= fun _ => pure fbOk) :=
  fun s => post_bind.2 ((h s).imp fun _ _ hr => post_pure.2 (.inr ⟨rfl, hr⟩))

theorem respond_of {r : FbM Unit} {k : FbComplete} (hk : K k)
    (h : ∀ s, Post r (fun _ => Responds (some (.client k)) s) (fun e _ => Stops s e) s) :
    Command K (r >>= fun _ => pure fbOk) :=
  respond fun s => (h s).imp fun _ _ hr => ⟨k, hk, hr⟩

/-- Code before the command that leaves the endpoints alone. -/
theorem still {s s' : Fb} (h : Still s s') (hx : Command K x) :
    Post x (fun st s' => st ≠ fbOk ∧ Still s s' ∨
      st = fbOk ∧ ∃ k, K k ∧ Responds (some (.client k)) s s') (fun e _ => Stops s e) s' := by
  refine (hx s').mono ?_ fun _ _ he => h.stops he
  rintro st s'' (⟨hst, hs⟩ | ⟨hst, k, hk, hs⟩)
  · exact .inl ⟨hst, h.trans hs⟩
  · exact .inr ⟨hst, k, hk, h.responds hs⟩

theorem of_modify {f : Fb → Fb} (hf : ∀ s, Still s (f s)) (hx : Command K x) :
    Command K (modify f >>= fun _ => x) :=
  fun s => post_bind.2 (post_modify.2 (hx.still (hf s)))

theorem of_get {f : Fb → FbM FbStatus} (hf : ∀ s, Command K (f s)) : Command K (get >>= f) :=
  fun s => post_bind.2 (post_get.2 (hf s s))

theorem of_lmbCall {α : Type} {g : Lmb → Option (α × Lmb)} {f : α → FbM FbStatus}
    (hf : ∀ a, Command K (f a)) : Command K (lmbCall g >>= f) := by
  intro s
  rw [post_bind, post_lmbCall]
  exact ⟨fun _ => .inr (.inl rfl), fun a lmb _ => (hf a).still (.setCtx s rfl rfl)⟩

end Command

/-- The callbacks with which the commands after `oem` and `reboot` respond. -/
def FbComplete.IsOem (k : FbComplete) : Prop :=
  k ∈ [.endCommandComplete, .endCommandWithInfoComplete, .oemCmdPeekExe, .cmdRebootComplete]

instance : DecidablePred FbComplete.IsOem := fun k => inferInstanceAs (Decidable (k ∈ _))

/-- Every handler responds, or returns a failure and has left the endpoints alone. -/
theorem Handler.command {W : FbEffect → Prop} {x : FbM FbStatus} (h : Handler W x) :
    Command FbComplete.IsOem x := by
  induction h with
  | fail h => exact .fail (ne_fbOk_of_mem h)
  | endCommand => exact .respond_of (by decide) fun s => fbEndCommand_post s _
  | endCommandWithInfo info =>
    exact .respond_of (by decide) fun s => fbEndCommandWithInfo_post s info
  | reboot => exact .respond_of (by decide) fun s => fbEndCommandWithCustomComplete_post s _ _
  | peek h =>
    refine .of_modify (fun s => .setCtx s rfl rfl) (.respond fun s => ?_)
    refine (fbOemCmdPeekExe_post s none).mono ?_ fun _ _ he => he.2
    rintro _ s' (⟨h, -⟩ | ⟨-, h | h⟩)
    · exact absurd h (by simp)
    · exact ⟨_, by decide, h⟩
    · exact ⟨_, by decide, h⟩
  | setCtx hcmd hload hlmb hx ih => exact .of_modify (fun s => .setCtx s (hcmd _) (hload _)) ih
  | store h a data hx ih => exact .of_modify (fun s => .store s a data) ih
  | get hf ih => exact .of_get ih
  | lmbCall h hf ih => exact .of_lmbCall ih

section
variable (cmd : List UInt8)

/-- `flash:run` responds only after a download. -/
theorem fbCmdFlash_post (s : Fb) :
    Post (fbCmdFlash cmd) (fun st s' => st ≠ fbOk ∧ Still s s' ∨
      st = fbOk ∧ strcmp cmd (bytes "run") = true ∧ s.ctx.lastLoaded ≠ 0 ∧
        Responds (some (.client .cmdFlashComplete)) s s')
      (fun e _ => Stops s e) s := by
  simp only [fbCmdFlash, post_ite, post_bind, post_get, post_pure]
  refine ⟨fun _ => .inl ⟨by decide, .refl s⟩, fun hrun => ⟨fun _ => .inl ⟨by decide, .refl s⟩,
    fun h => ?_⟩⟩
  refine (fbEndCommandWithCustomComplete_post s _ _).imp fun _ _ hr => .inr ⟨trivial, ?_, h, hr⟩
  simpa using hrun

end

end ShieldLoader
