import ShieldLoader.Fb.Receive
import ShieldLoader.Fb.Small

/-!
# Exchanges

A command, its reply and the data between them, up to the state in which the device waits for the
next command. The host takes turns: no transfer to the OUT request ends while a packet of the device
is still in the IN request.
-/

namespace ShieldLoader

open EStateM Usbd PollInput

/-- The device waits for a command and has answered all others. -/
structure Idle (s : Fb) : Prop where
  listening : Listening s
  slot : s.reqs ep1InReq.ix = none
  inCommand : s.ctx.inCommand = false

instance (s : Fb) : Decidable (Idle s) :=
  decidable_of_iff (Listening s ∧ s.reqs ep1InReq.ix = none ∧ s.ctx.inCommand = false)
    ⟨fun ⟨h1, h2, h3⟩ => ⟨h1, h2, h3⟩, fun ⟨h1, h2, h3⟩ => ⟨h1, h2, h3⟩⟩

/-- A poll that finds nothing. -/
def PollInput.quiet : PollInput := ⟨0, 0, fun _ => none, []⟩

/-- What a poll may find when the host takes turns: at most one transfer of a request that is in its
slot, which has succeeded. One of the OUT request finds the IN slot empty, and one of endpoint 0
finds the slot for its status stage empty. -/
def Turn (inp : PollInput) (s : Fb) : Prop :=
  inp = .quiet ∨ ∃ ix f, inp = .transfer ix f ∧ f.sizeIocSts &&& usbdTdErrorMask = 0 ∧
    s.reqs ix ≠ none ∧
    (ix = ep1OutReq.ix → s.reqs ep1InReq.ix = none ∧ (Receiving s → DataCompletion f s)) ∧
    (ix = ep0InReq.ix → (s.req ep0InReq).complete = some .ep0InReqComplete →
      s.reqs ep0OutReq.ix = none)

/-- The loader leaves. -/
def Leaves (e : Halt) : Prop := (∃ type, e = .reboot type) ∨ ∃ entry fdt, e = .jump entry fdt

/-- Endpoint 1 is as before, with the packet in its IN request. -/
structure Beside (s s' : Fb) : Prop where
  same : SameEp1 s s'
  small : s'.small ep1InReq = s.small ep1InReq

/-! ### Polls beside endpoint 1 -/

section
variable {s s' : Fb}

theorem Beside.inPacket (h : Beside s s') (hb : InSmall s) : s'.inPacket = s.inPacket :=
  inPacket_congr h.same.inReq h.small hb

theorem Beside.inSmall (h : Beside s s') (hb : InSmall s) : InSmall s' := by
  rwa [InSmall, h.same.inReq]

theorem Beside.replying (h : Beside s s') (hb : InSmall s) {n : Nat} (hr : Replying s n) :
    Replying s' n := by
  cases hr with
  | last hk hb' hp => exact .last hk (h.same.busy hb') (by rwa [h.inPacket hb])
  | info hb' hp => exact .info (h.same.busy hb') (by rwa [h.inPacket hb])
  | peek hb' hp ha =>
    rw [← h.same.ctx] at ha ⊢
    exact .peek (h.same.busy hb') (by rwa [h.inPacket hb]) ha

theorem fbPoll_quiet_post {Q : PUnit → Fb → Prop} {E : Halt → Fb → Prop} (h : Q ⟨⟩ s) :
    Post (fbPoll .quiet) Q E s := by
  have hnone : ∀ l : List Nat, l.foldl (fun (s : Fb) i =>
      ((none : Option Finish).map (finish i · s)).getD s) s = s := by
    intro l
    induction l with
    | nil => rfl
    | cons i l ih => exact ih
  have hsteps : PollInput.quiet.steps = [.finish fun _ => none] := by
    have hcomplete : PollInput.quiet.complete = [] := by simp [PollInput.complete, quiet]
    rw [PollInput.steps, hcomplete]
    rfl
  have hfinish : finishAll (fun _ => none) s = s := hnone _
  rw [fbPoll, usbdPoll_steps, hsteps, post_forM_singleton, UsbdStep.run, post_modify, hfinish]
  exact h

/-- No transfer stores in the small buffer of the IN request. -/
theorem Usbd.finish_small_in (ix : Nat) (f : Finish) :
    (finish ix f s).small ep1InReq = s.small ep1InReq := by
  rw [finish]
  dsimp only
  split
  · rfl
  · next r _ =>
    split
    · rfl
    · next hsend =>
      have hne : ep1InReq ≠ r := by
        rintro rfl
        exact hsend rfl
      generalize (s.req r).buffer = b
      cases b with
      | small => exact Function.update_of_ne hne ..
      | addr a => rfl

theorem Usbd.finish_beside (ix : Nat) (f : Finish) : Beside s (finish ix f s) :=
  ⟨(finish_untouched ix f s).1.sameEp1, finish_small_in ix f⟩

/-- A transfer of endpoint 0 leaves endpoint 1 alone. -/
theorem ep0_poll_post (h : FbOk s) {r : Req} (hr : Ep0 r) {f : Finish} (hslot : s.reqs r.ix ≠ none)
    (hstatus : r.ix = ep0InReq.ix → (s.req ep0InReq).complete = some .ep0InReqComplete →
      s.reqs ep0OutReq.ix = none) :
    Post (fbPoll (.transfer r.ix f)) (fun _ s' => FbOk s' ∧ Beside s s') (fun _ _ => False) s := by
  have hix : r.ix < maxReqs ∧ r.ix ≠ ep1OutReq.ix ∧ r.ix ≠ ep1InReq.ix := by
    rcases hr with rfl | rfl <;> decide
  have hu := (finish_untouched r.ix f s).1
  have hb := @finish_beside s r.ix f
  rw [fbPoll, post_usbdPoll_transfer _ hix.1]
  refine (round_post (h.of_untouched hu) r.ix).mono ?_ ?_
  · rintro - s' ⟨hok, hdone⟩
    refine ⟨hok, ?_⟩
    have hkeep : ∀ {s' : Fb}, Keeps Ep0 (finish r.ix f s) s' → s'.ctx = (finish r.ix f s).ctx →
        Beside s s' := fun hk hctx =>
      ⟨hb.same.trans (.of_keeps hk hctx), (hk.small _ (by unfold Ep0; decide)).trans hb.small⟩
    generalize hr' : r.ix = ix at hdone
    cases hdone with
    | ep0Out hk hctx =>
      rw [← hr'] at hk hctx
      exact hkeep hk hctx
    | ep0In hk hctx =>
      rw [← hr'] at hk hctx
      exact hkeep hk hctx
    | ep1Out => exact absurd hr' hix.2.1
    | ep1In => exact absurd hr' hix.2.2
  · intro e s' he
    cases he with
    | empty h => exact hslot (by rwa [hu.reqs] at h)
    | ep0 hr' hne hst =>
      rw [hu.reqs] at hne
      exact hne (hstatus hr' (by rw [← hu.req]; exact hst.1))
    | out hr' => exact hix.2.1 hr'
    | in_ hr' => exact hix.2.2 hr'

/-! ### Packets that the host takes -/

/-- A reply is under way: its next packet is in the IN request, and at most `n` come after it. -/
structure Answering (n : Nat) (s : Fb) : Prop where
  ok : FbOk s
  listening : Listening s
  small : InSmall s
  replying : Replying s n

/-- The packet has been taken, and the IN request is about to be called back. -/
structure Taken (s s₁ : Fb) : Prop where
  taken : InTaken s s₁
  error : (s₁.req ep1InReq).error = false
  buffer : (s₁.req ep1InReq).buffer = (s.req ep1InReq).buffer

/-- The poll that finds the packet taken calls the IN request back. -/
theorem in_poll_post {f : Finish} (hs : s.reqs ep1InReq.ix = some ep1InReq)
    (hf : f.sizeIocSts &&& usbdTdErrorMask = 0) (hc : (s.req ep1InReq).complete ≠ none)
    {Q : PUnit → Fb → Prop} {E : Halt → Fb → Prop}
    (h : ∀ s₁, Taken s s₁ → Post (usbdNotify fbCall ep1InReq) Q E s₁) :
    Post (fbPoll (.transfer ep1InReq.ix f)) Q E s := by
  have hu := (finish_untouched ep1InReq.ix f s).1
  obtain ⟨hmem, hsmall⟩ := finish_in f hs rfl
  have hsts := @finish_sizeIocSts s f ep1InReq.ix
  rw [fbPoll, post_usbdPoll_transfer _ (by decide)]
  have hkeep : Keeps (Eq ep1InReq) s (finish ep1InReq.ix f s) := by
    simp only [finish, hs, show ep1InReq.ep.send = true from rfl, if_true]
    exact { Keeps.refl s with }
  set s₀ := finish ep1InReq.ix f s
  have hs₀ : s₀.reqs ep1InReq.ix = some ep1InReq := by rw [hu.reqs]; exact hs
  refine post_usbdCompletions_round.2 ⟨fun hn => by simp [hs₀] at hn, fun r hr => ?_⟩
  obtain rfl := Option.some.inj (hr.symm.trans hs₀)
  refine post_usbdReqComplete.2 ⟨fun hn => absurd hn (by rw [setSlot_req, hu.req]; exact hc),
    fun _ => h _ ⟨⟨?_, hu.ctx, hmem, ?_, ?_⟩, ?_, ?_⟩⟩
  · exact (hkeep.trans (.setSlot rfl rfl)).trans (.completed rfl)
  · rw [completed_reqs, setSlot_reqs, Function.update_self]
  · rw [completed_req, Function.update_self, setSlot_req, hu.req]
  · rw [completed_req, Function.update_self]
    show decide ((s₀.td ep1InReq.ix).sizeIocSts &&& usbdTdErrorMask ≠ 0) = false
    rw [hsts, hf]
    rfl
  · rw [completed_req, Function.update_self, setSlot_req, hu.req]

/-- After `INFO` comes `OKAY`. -/
theorem info_poll_post {f : Finish} (hb : Busy (some (.client .endCommandWithInfoComplete)) s)
    (hf : f.sizeIocSts &&& usbdTdErrorMask = 0) :
    Post (fbPoll (.transfer ep1InReq.ix f)) (fun _ s' => InSmall s' ∧
      Busy (some (.client .endCommandComplete)) s' ∧ s'.inPacket = bytes "OKAY" ++ [0])
      (fun _ _ => False) s := by
  refine in_poll_post hb.1 hf (by simp [hb.2]) fun s₁ h₁ => ?_
  have hc := h₁.taken.complete.trans hb.2
  refine post_usbdNotify.2 ⟨fun hn => absurd (hn.symm.trans hc) (by simp), fun c hc' => ?_⟩
  obtain rfl := Option.some.inj (hc'.symm.trans hc)
  refine (@fbEndCommand_sends s₁ fbOk (by decide)).mono ?_ fun _ _ he =>
    he.2 h₁.taken.slot
  exact fun _ s' h => ⟨h.1.inSmall, h.1.busy, h.1.packet⟩

/-- After the last packet the device is idle, or it leaves. -/
theorem last_poll_post {f : Finish} {k : FbComplete} (hk : k.IsLast)
    (hb : Busy (some (.client k)) s) (hsmall : InSmall s)
    (hf : f.sizeIocSts &&& usbdTdErrorMask = 0) :
    Post (fbPoll (.transfer ep1InReq.ix f)) (fun _ s' => k = .endCommandComplete ∧ InSmall s' ∧
      s'.reqs ep1InReq.ix = none ∧ s'.ctx.inCommand = false)
      (fun e _ => k ≠ .endCommandComplete ∧ Leaves e) s := by
  refine in_poll_post hb.1 hf (by simp [hb.2]) fun s₁ h₁ => ?_
  have hc := h₁.taken.complete.trans hb.2
  refine post_usbdNotify.2 ⟨fun hn => absurd (hn.symm.trans hc) (by simp), fun c hc' => ?_⟩
  obtain rfl := Option.some.inj (hc'.symm.trans hc)
  simp only [FbComplete.IsLast, List.mem_cons, List.not_mem_nil, or_false] at hk
  rcases hk with rfl | rfl | rfl
  · refine post_modify.2 ⟨rfl, ?_, h₁.taken.slot, rfl⟩
    rw [InSmall, setCtx_req, h₁.buffer]
    exact hsmall
  · show Post fbCmdRebootComplete _ _ s₁
    simp only [fbCmdRebootComplete, usbdFini, post_bind, post_usbdHwReset, post_get, post_throw]
    exact ⟨by simp, .inl ⟨_, rfl⟩⟩
  · show Post fbCmdFlashComplete _ _ s₁
    simp only [fbCmdFlashComplete, usbdFini, post_bind, post_usbdHwReset, post_get, post_throw]
    exact ⟨by simp, .inr ⟨_, _, rfl⟩⟩

/-- After a page of `peek` comes the next one, or `OKAY`. -/
theorem peek_poll_post {f : Finish} (hb : Busy (some (.client .oemCmdPeekExe)) s)
    (hsmall : InSmall s) (ha : isAccess s.ctx.peek.access = true)
    (hf : f.sizeIocSts &&& usbdTdErrorMask = 0) :
    Post (fbPoll (.transfer ep1InReq.ix f))
      (fun _ s' => InSmall s' ∧ ∃ m < s.ctx.peek.items.toNat + 1, Replying s' m)
      (fun _ _ => False) s := by
  refine in_poll_post hb.1 hf (by simp [hb.2]) fun s₁ h₁ => ?_
  have hc := h₁.taken.complete.trans hb.2
  refine post_usbdNotify.2 ⟨fun hn => absurd (hn.symm.trans hc) (by simp), fun c hc' => ?_⟩
  obtain rfl := Option.some.inj (hc'.symm.trans hc)
  have hctx := h₁.taken.ctx
  rw [← hctx] at ha ⊢
  refine (@fbOemCmdPeekExe_sends (some ep1InReq) s₁ (h₁.buffer.trans hsmall) ha
    (by simp [h₁.error])).mono ?_ fun _ _ he => he.2 h₁.taken.slot
  rintro - s' (⟨hp, -⟩ | ⟨⟨t, hp⟩, -, ha', hitems⟩)
  · refine ⟨hp.inSmall, 0, Nat.succ_pos _, hp.last (by decide) ?_⟩
    exact (@isFinal_of_mem fbOk (by simp)).1
  · refine ⟨hp.inSmall, s'.ctx.peek.items.toNat + 1, Nat.succ_lt_succ hitems, ?_⟩
    refine .peek hp.busy ?_ (by rw [ha']; exact ha)
    rw [IsInfo, hp.packet]
    exact List.prefix_append _ _

/-- **A packet that the host takes is followed by a later one of the reply**; after the last one
the device is idle, or it leaves. -/
theorem answering_poll_post {n : Nat} {f : Finish} (h : Answering n s)
    (hf : f.sizeIocSts &&& usbdTdErrorMask = 0) :
    Post (fbPoll (.transfer ep1InReq.ix f))
      (fun _ s' => n = 0 ∧ IsFinal s.inPacket ∧ Idle s' ∨
        IsInfo s.inPacket ∧ ∃ m < n, Answering m s')
      (fun e _ => n = 0 ∧ IsFinal s.inPacket ∧ Leaves e) s := by
  have hu := (finish_untouched ep1InReq.ix f s).1
  have hslot := h.replying.busy
  -- the invariant, and the OUT request as it was
  have hround : Post (fbPoll (.transfer ep1InReq.ix f)) (fun _ s' => FbOk s' ∧ Listening s')
      (fun _ _ => True) s := by
    rw [fbPoll, post_usbdPoll_transfer _ (by decide)]
    have hslot₀ : (finish ep1InReq.ix f s).reqs ep1InReq.ix = some ep1InReq := by
      rw [hu.reqs]
      exact hslot
    refine (round_ep1In_post (h.ok.of_untouched hu) hslot₀).mono ?_ fun _ _ _ => trivial
    rintro - s' ⟨hok, hdone⟩
    obtain ⟨s₁, h₁, hd⟩ := hdone.in_
    exact ⟨hok, (hu.sameEp1.listening h.listening).of_keeps (h₁.keeps.trans hd.keeps)⟩
  cases h.replying with
  | last hk hb hp =>
    refine ((last_poll_post hk hb h.small hf).and hround).mono ?_ fun e _ he => ⟨rfl, hp, he.1.2⟩
    exact fun _ s' h' => .inl ⟨rfl, hp, h'.2.2, h'.1.2.2.1, h'.1.2.2.2⟩
  | info hb hp =>
    refine ((info_poll_post hb hf).and hround).mono ?_ fun _ _ he => he.1.elim
    rintro - s' ⟨⟨hsmall, hb', hp'⟩, hok, hl⟩
    refine .inr ⟨hp, 0, Nat.one_pos, hok, hl, hsmall, .last (by decide) hb' ?_⟩
    rw [hp']
    exact (@isFinal_of_mem fbOk (by simp)).1
  | peek hb hp ha =>
    refine ((peek_poll_post hb h.small ha hf).and hround).mono ?_ fun _ _ he => he.1.elim
    rintro - s' ⟨⟨hsmall, m, hm, hr⟩, hok, hl⟩
    exact .inr ⟨hp, m, hm, hok, hl, hsmall, hr⟩

/-! ### Commands -/

/-- A download has been accepted, and its response is in the IN request. -/
structure Asked (n : UInt64) (s : Fb) : Prop where
  ok : FbOk s
  receiving : Receiving s
  small : InSmall s
  size : s.ctx.loadSize = n
  rem : s.ctx.loadRem = n
  busy : Busy none s
  packet : s.inPacket = dataPacket n

/-- A command that comes to an idle device is answered. -/
theorem command_poll_post {f : Finish} (h : FbOk s) (hi : Idle s) (hsmall : InSmall s)
    (hf : f.sizeIocSts &&& usbdTdErrorMask = 0) :
    Post (fbPoll (.transfer ep1OutReq.ix f))
      (fun _ s' => (∃ n, Answering n s') ∨ ∃ cmd,
        UsbdStep.selected (.complete ep1OutReq.ix) (finish ep1OutReq.ix f s) =
          some (.download cmd) ∧ Asked (simpleStrtoull cmd 16).1 s')
      (fun e _ => e = .lmbOverrun) s := by
  have hu := (finish_untouched ep1OutReq.ix f s).1
  have hsts := @finish_sizeIocSts s f ep1OutReq.ix
  set s₀ := finish ep1OutReq.ix f s with hs₀
  have hl₀ : Listening s₀ := hu.sameEp1.listening hi.listening
  have hfail : s₀.failed ep1OutReq.ix = false := by simp [failed, hsts, hf]
  have hin₀ : s₀.reqs ep1InReq.ix = none := by rw [hu.reqs]; exact hi.slot
  have hsmall₀ : InSmall s₀ := by rw [InSmall, hu.req]; exact hsmall
  have hcmd₀ : s₀.ctx.inCommand = false := by rw [hu.ctx]; exact hi.inCommand
  have hsel : UsbdStep.selected (.complete ep1OutReq.ix) s₀ = some (fbSelect s₀.commandText) :=
    if_pos ⟨rfl, hl₀, hfail⟩
  have hround : Post (fbPoll (.transfer ep1OutReq.ix f))
      (fun _ s' => (InSmall s' ∧ Replied (fbSelect s₀.commandText).IsDownload s') ∧ FbOk s' ∧
        Answered (fbSelect s₀.commandText) s₀ s') (fun e _ => e = .lmbOverrun) s := by
    rw [fbPoll, post_usbdPoll_transfer _ (by decide), ← hs₀]
    refine ((command_round_replied hl₀ hfail hin₀ hsmall₀).and
      (round_ep1Out_post (h.of_untouched hu) hl₀.slot)).mono ?_ fun _ _ he => he.1
    exact fun _ s' h' => ⟨h'.1, h'.2.1, (h'.2.2.out.command hl₀ hfail).2⟩
  have hlisten : ∀ {s' : Fb} {sel : FbSelected}, Answered sel s₀ s' → ¬Busy none s' →
      Listening s' := by
    intro s' sel hans hne
    cases hans with
    | responds _ hout => exact hout
    | flash _ _ _ _ hout => exact hout
    | download _ _ _ hin => exact absurd hin hne
  cases hcmd : fbSelect s₀.commandText with
  | download cmd =>
    rw [hcmd] at hsel hround
    refine (hround.and (download_post h hsel)).mono ?_ fun _ _ he => he.1
    rintro - s' ⟨⟨⟨hsmall', hrep⟩, hok, hans⟩, -, hsize⟩
    cases hrep with
    | reply hr => exact .inl ⟨_, hok, hlisten hans hr.not_busy, hsmall', hr⟩
    | data _ hb hp =>
      cases hans with
      | responds _ _ _ hin => exact absurd (hin.2.symm.trans hb.2) (by simp)
      | flash _ _ _ _ _ hin => exact absurd (hin.2.symm.trans hb.2) (by simp)
      | download hout =>
        obtain ⟨⟨hs, -, -⟩, -, hr, -⟩ := hsize hout
        exact .inr ⟨cmd, hsel, hok, hout, hsmall', hs, hr.trans hs, hb, by rw [hp, hs]⟩
  | _ =>
    rw [hcmd] at hround
    refine hround.imp ?_
    rintro - s' ⟨⟨hsmall', hrep⟩, hok, hans⟩
    cases hrep with
    | reply hr => exact .inl ⟨_, hok, hlisten hans hr.not_busy, hsmall', hr⟩
    | data hdown => exact absurd hdown (by simp [FbSelected.IsDownload])

end

/-! ### Exchanges -/

/-- What the host has received and sent, and where the device is. -/
structure Exchange where
  packets : List (List UInt8)
  data : List UInt8
  result : EStateM.Result Halt Fb PUnit

/-- The packet that the host takes before a poll. -/
def PollInput.taken (inp : PollInput) (s : Fb) : List (List UInt8) :=
  if (inp.finished ep1InReq.ix).isSome then [s.inPacket] else []

/-- The bytes that the host sends before a poll. -/
def PollInput.given (inp : PollInput) : List UInt8 :=
  ((inp.finished ep1OutReq.ix).map Finish.data).getD []

/-- The polls after a command, until the device is idle or the loader has left. -/
def exchange : List PollInput → Fb → Exchange
  | [], s => ⟨[], [], .ok ⟨⟩ s⟩
  | inp :: inps, s =>
    if Idle s then ⟨[], [], .ok ⟨⟩ s⟩
    else match fbPoll inp s with
      | .ok _ s' =>
        let x := exchange inps s'
        ⟨inp.taken s ++ x.packets, inp.given ++ x.data, x.result⟩
      | .error e s' => ⟨inp.taken s, inp.given, .error e s'⟩

/-- A reply of `n` packets at most: texts, and a last packet after which the device is idle or the
loader leaves. While it is not complete its next packet is in the IN request. -/
def Exchange.IsReply (x : Exchange) (n : Nat) : Prop :=
  x.packets.length ≤ n ∧ match x.result with
    | .ok _ s => (∃ infos last, x.packets = infos ++ [last] ∧ (∀ p ∈ infos, IsInfo p) ∧
        IsFinal last ∧ Idle s) ∨
      (∀ p ∈ x.packets, IsInfo p) ∧ s.reqs ep1InReq.ix = some ep1InReq ∧
        (IsInfo s.inPacket ∨ IsFinal s.inPacket)
    | .error e _ => Leaves e ∧ ∃ infos last, x.packets = infos ++ [last] ∧
        (∀ p ∈ infos, IsInfo p) ∧ IsFinal last

/-- A download of `n` bytes: the request for them, and a text and `OKAY` after the last one. -/
def Exchange.IsDownload (x : Exchange) (n : UInt64) : Prop :=
  match x.result with
  | .ok _ s =>
    x.packets = [] ∧ x.data = [] ∧ s.reqs ep1InReq.ix = some ep1InReq ∧
      s.inPacket = dataPacket n ∨
    x.packets = [dataPacket n] ∧ x.data.length < n.toNat ∧ Receiving s ∧
      s.reqs ep1InReq.ix = none ∨
    x.packets = [dataPacket n] ∧ x.data.length = n.toNat ∧
      s.reqs ep1InReq.ix = some ep1InReq ∧ IsInfo s.inPacket ∨
    ∃ text, IsInfo text ∧ x.data.length = n.toNat ∧
      (x.packets = [dataPacket n, text] ∧ s.reqs ep1InReq.ix = some ep1InReq ∧
          s.inPacket = bytes "OKAY" ++ [0] ∨
        x.packets = [dataPacket n, text, bytes "OKAY" ++ [0]] ∧ Idle s)
  | .error _ _ => False

section
variable {s : Fb}

theorem exchange_idle (h : Idle s) (inps : List PollInput) : exchange inps s = ⟨[], [], .ok ⟨⟩ s⟩ := by
  cases inps with
  | nil => rfl
  | cons inp inps => rw [exchange, if_pos h]

/-- The first poll of an exchange. -/
theorem exchange_cons {Q : PUnit → Fb → Prop} {E : Halt → Fb → Prop} {inp : PollInput}
    (h : ¬Idle s) (hpoll : Post (fbPoll inp) Q E s) (inps : List PollInput) :
    (∃ s', Q ⟨⟩ s' ∧ exchange (inp :: inps) s = ⟨inp.taken s ++ (exchange inps s').packets,
      inp.given ++ (exchange inps s').data, (exchange inps s').result⟩) ∨
      ∃ e s', E e s' ∧ exchange (inp :: inps) s = ⟨inp.taken s, inp.given, .error e s'⟩ := by
  rw [exchange, if_neg h]
  cases hr : fbPoll inp s with
  | ok a s' => exact .inl ⟨s', hpoll.of_ok hr, rfl⟩
  | error e s' => exact .inr ⟨e, s', hpoll.of_error hr, rfl⟩

theorem PollInput.transfer_taken (ix : Nat) (f : Finish) :
    (PollInput.transfer ix f).taken s = if ep1InReq.ix = ix then [s.inPacket] else [] := by
  by_cases h : ep1InReq.ix = ix <;> simp [taken, transfer, h]

theorem PollInput.transfer_given (ix : Nat) (f : Finish) :
    (PollInput.transfer ix f).given = if ep1OutReq.ix = ix then f.data else [] := by
  by_cases h : ep1OutReq.ix = ix <;> simp [given, transfer, h]

/-- A phase of an exchange: what other endpoints do does not end it, and what follows a packet that
the host takes or sends is an exchange with the property `C`, if the polls after it are one. -/
theorem exchange_phase {ι : Type} {P : ι → Fb → Prop} {C : ι → Exchange → Prop}
    (hok : ∀ i s, P i s → FbOk s) (hidle : ∀ i s, P i s → ¬Idle s)
    (hbeside : ∀ i s s', P i s → FbOk s' → Beside s s' → P i s')
    (hstop : ∀ i s, P i s → C i ⟨[], [], .ok ⟨⟩ s⟩)
    (hin : ∀ i s f inps, P i s → f.sizeIocSts &&& usbdTdErrorMask = 0 →
      s.reqs ep1InReq.ix ≠ none → Post (fbPoll (.transfer ep1InReq.ix f))
        (fun _ => Along fbPoll Turn inps) (fun _ _ => True) s →
      (∀ j s', P j s' → Along fbPoll Turn inps s' → C j (exchange inps s')) →
      C i (exchange (.transfer ep1InReq.ix f :: inps) s))
    (hout : ∀ i s f inps, P i s → f.sizeIocSts &&& usbdTdErrorMask = 0 →
      s.reqs ep1InReq.ix = none → (Receiving s → DataCompletion f s) →
      Post (fbPoll (.transfer ep1OutReq.ix f))
        (fun _ => Along fbPoll Turn inps) (fun _ _ => True) s →
      (∀ j s', P j s' → Along fbPoll Turn inps s' → C j (exchange inps s')) →
      C i (exchange (.transfer ep1OutReq.ix f :: inps) s))
    (inps : List PollInput) (i : ι) (s : Fb) (hs : P i s) (hturn : Along fbPoll Turn inps s) :
    C i (exchange inps s) := by
  induction inps generalizing i s with
  | nil => exact hstop i s hs
  | cons inp inps ih =>
    obtain ⟨hturn, hnext⟩ := hturn
    -- polls that do not concern endpoint 1
    have hskip : inp.taken s = [] → inp.given = [] →
        Post (fbPoll inp) (fun _ s' => FbOk s' ∧ Beside s s') (fun _ _ => False) s →
        C i (exchange (inp :: inps) s) := by
      intro htaken hgiven hpoll
      rcases exchange_cons (hidle i s hs) (hpoll.and hnext) inps with
        ⟨s', ⟨⟨hok', hb⟩, halong⟩, hx⟩ | ⟨e, s', ⟨he, -⟩, -⟩
      · rw [hx, htaken, hgiven]
        exact ih i s' (hbeside i s s' hs hok' hb) halong
      · exact he.elim
    rcases hturn with rfl | ⟨ix, f, rfl, hf, hslot, hout', hep0⟩
    · exact hskip rfl rfl (fbPoll_quiet_post ⟨hok i s hs, .refl s, rfl⟩)
    obtain ⟨r, hr⟩ := Option.ne_none_iff_exists'.1 hslot
    rcases (hok i s hs).slot hr with ⟨rfl, -⟩ | ⟨rfl, -⟩ | ⟨rfl, -⟩ | ⟨rfl, -⟩
    · exact hskip (by rw [transfer_taken]; rfl) (by rw [transfer_given]; rfl)
        (ep0_poll_post (hok i s hs) (.inl rfl) hslot hep0)
    · exact hout i s f inps hs hf (hout' rfl).1 (hout' rfl).2 hnext ih
    · exact hskip (by rw [transfer_taken]; rfl) (by rw [transfer_given]; rfl)
        (ep0_poll_post (hok i s hs) (.inr rfl) hslot hep0)
    · exact hin i s f inps hs hf hslot hnext ih

/-! ### Replies -/

theorem Answering.not_idle {n : Nat} (h : Answering n s) : ¬Idle s := by
  intro hi
  exact absurd (h.replying.busy.symm.trans hi.slot) (by simp)

theorem Answering.beside {n : Nat} {s' : Fb} (h : Answering n s) (hok : FbOk s')
    (hb : Beside s s') : Answering n s' :=
  ⟨hok, hb.same.listening h.listening, hb.inSmall h.small, hb.replying h.small h.replying⟩

theorem Replying.packet {n : Nat} (h : Replying s n) : IsInfo s.inPacket ∨ IsFinal s.inPacket := by
  cases h with
  | last _ _ hp => exact .inr hp
  | info _ hp => exact .inl hp
  | peek _ hp => exact .inl hp

/-- A text before a reply. -/
theorem Exchange.IsReply.cons {x : Exchange} {n : Nat} {p : List UInt8} (h : x.IsReply n)
    (hp : IsInfo p) : Exchange.IsReply ⟨p :: x.packets, x.data, x.result⟩ (n + 1) := by
  obtain ⟨hlen, hres⟩ := h
  refine ⟨Nat.succ_le_succ hlen, ?_⟩
  have hcons : ∀ {infos : List (List UInt8)}, (∀ p ∈ infos, IsInfo p) →
      ∀ q ∈ p :: infos, IsInfo q := by
    intro infos hall q hq
    rcases List.mem_cons.1 hq with rfl | hq
    · exact hp
    · exact hall q hq
  dsimp only
  cases hr : x.result with
  | ok a s' =>
    rw [hr] at hres
    rcases hres with ⟨infos, last, hx, hall, hlast, hi⟩ | ⟨hall, hslot⟩
    · exact .inl ⟨p :: infos, last, by rw [hx, List.cons_append], hcons hall, hlast, hi⟩
    · exact .inr ⟨hcons hall, hslot⟩
  | error e s' =>
    rw [hr] at hres
    obtain ⟨hl, infos, last, hx, hall, hlast⟩ := hres
    exact ⟨hl, p :: infos, last, by rw [hx, List.cons_append], hcons hall, hlast⟩

theorem Exchange.IsReply.mono {x : Exchange} {m n : Nat} (h : x.IsReply m) (hmn : m ≤ n) :
    x.IsReply n :=
  ⟨h.1.trans hmn, h.2⟩

/-- The packets that follow in a reply. -/
theorem Answering.isReply {n : Nat} (h : Answering n s) {inps : List PollInput}
    (hturn : Along fbPoll Turn inps s) : (exchange inps s).IsReply (n + 1) := by
  refine exchange_phase (P := Answering) (C := fun n x => x.IsReply (n + 1)) (fun _ _ h => h.ok)
    (fun _ _ h => h.not_idle) (fun _ _ _ h hok hb => h.beside hok hb) (fun n s h => ?_)
    (fun n s f inps h hf _ hnext ih => ?_)
    (fun n s f inps h _ hslot => absurd (h.replying.busy.symm.trans hslot) (by simp)) inps n s h hturn
  · exact ⟨Nat.zero_le _, .inr ⟨by simp, h.replying.busy, h.replying.packet⟩⟩
  · have htaken : (PollInput.transfer ep1InReq.ix f).taken s = [s.inPacket] := by
      rw [transfer_taken, if_pos rfl]
    have hgiven : (PollInput.transfer ep1InReq.ix f).given = [] := by
      rw [transfer_given]
      rfl
    rcases exchange_cons h.not_idle ((answering_poll_post h hf).and hnext) inps with
      ⟨s', ⟨hs', halong⟩, hx⟩ | ⟨e, s', ⟨⟨rfl, hp, hl⟩, -⟩, hx⟩
    · rw [hx, htaken, hgiven, List.nil_append, List.singleton_append]
      rcases hs' with ⟨rfl, hp, hi⟩ | ⟨hp, m, hm, ha⟩
      · rw [exchange_idle hi]
        exact ⟨le_rfl, .inl ⟨[], s.inPacket, rfl, by simp, hp, hi⟩⟩
      · exact ((ih m s' ha halong).cons hp).mono (by omega)
    · rw [hx, htaken, hgiven]
      exact ⟨le_rfl, hl, [], s.inPacket, rfl, by simp, hp⟩

/-! ### Downloads -/

/-- The `OKAY` after a download is in the IN request. -/
structure Confirming (s : Fb) : Prop where
  ok : FbOk s
  listening : Listening s
  small : InSmall s
  busy : Busy (some (.client .endCommandComplete)) s
  packet : s.inPacket = bytes "OKAY" ++ [0]

/-- The text before that `OKAY` is in the IN request. -/
structure Informing (s : Fb) : Prop where
  ok : FbOk s
  listening : Listening s
  small : InSmall s
  busy : Busy (some (.client .endCommandWithInfoComplete)) s
  packet : IsInfo s.inPacket

/-- A download of `n` bytes waits for more, after `k` of them. -/
structure Fetching (n k : Nat) (s : Fb) : Prop where
  ok : FbOk s
  receiving : Receiving s
  slot : s.reqs ep1InReq.ix = none
  size : s.ctx.loadSize.toNat = n
  rem : s.ctx.loadRem.toNat = n - k
  lt : k < n

theorem Confirming.answering (h : Confirming s) : Answering 0 s :=
  ⟨h.ok, h.listening, h.small, .last (by decide) h.busy (by
    rw [h.packet]
    exact (@isFinal_of_mem fbOk (by simp)).1)⟩

theorem Informing.answering (h : Informing s) : Answering 1 s :=
  ⟨h.ok, h.listening, h.small, .info h.busy h.packet⟩

theorem Fetching.reassembled {n k : Nat} (h : Fetching n k s) :
    Reassembled n (s.load s.ctx.lastLoaded k) s := by
  have hlen : (s.load s.ctx.lastLoaded k).length = k := length_load ..
  refine ⟨h.size, ?_, ?_, ?_, fun _ => ⟨h.receiving, ?_, h.slot⟩, fun heq => ?_⟩
  · rw [hlen]
    exact h.lt.le
  · rw [hlen]
    exact h.rem
  · rw [hlen]
  · rw [h.receiving.bufferLength, UInt32.toNat_min, UInt64.toNat_toUInt32, h.rem, hlen]
    exact (Nat.min_le_left _ _).trans (Nat.mod_le _ _)
  · exact absurd (hlen.symm.trans heq) h.lt.ne

theorem Fetching.not_idle {n k : Nat} (h : Fetching n k s) : ¬Idle s :=
  fun hi => hi.listening.not_receiving h.receiving

theorem Fetching.beside {n k : Nat} {s' : Fb} (h : Fetching n k s) (hok : FbOk s')
    (hb : Beside s s') : Fetching n k s' :=
  ⟨hok, hb.same.receiving h.receiving, hb.same.in_.trans h.slot, by rw [hb.same.ctx]; exact h.size,
    by rw [hb.same.ctx]; exact h.rem, h.lt⟩

/-- The end of a download, without the packets before it. -/
def Exchange.Confirms (x : Exchange) : Prop :=
  x.data = [] ∧ ∃ s, x.result = .ok ⟨⟩ s ∧
    (x.packets = [] ∧ s.reqs ep1InReq.ix = some ep1InReq ∧ s.inPacket = bytes "OKAY" ++ [0] ∨
      x.packets = [bytes "OKAY" ++ [0]] ∧ Idle s)

/-- A download after its last byte, without the packet before it. -/
def Exchange.Informs (x : Exchange) : Prop :=
  x.data = [] ∧ ∃ s, x.result = .ok ⟨⟩ s ∧
    (x.packets = [] ∧ s.reqs ep1InReq.ix = some ep1InReq ∧ IsInfo s.inPacket ∨
      ∃ text, IsInfo text ∧
        (x.packets = [text] ∧ s.reqs ep1InReq.ix = some ep1InReq ∧
            s.inPacket = bytes "OKAY" ++ [0] ∨
          x.packets = [text, bytes "OKAY" ++ [0]] ∧ Idle s))

/-- A download of `n` bytes after the response, when `k` of them have come before. -/
def Exchange.Fetches (x : Exchange) (n k : Nat) : Prop :=
  (∃ s, x.result = .ok ⟨⟩ s ∧ x.packets = [] ∧ k + x.data.length < n ∧ Receiving s ∧
      s.reqs ep1InReq.ix = none) ∨
    k + x.data.length = n ∧ Exchange.Informs ⟨x.packets, [], x.result⟩

theorem Confirming.confirms (h : Confirming s) {inps : List PollInput}
    (hturn : Along fbPoll Turn inps s) : (exchange inps s).Confirms := by
  refine exchange_phase (P := fun (_ : Unit) => Confirming) (C := fun _ => Exchange.Confirms)
    (fun _ _ h => h.ok) (fun _ _ h => h.answering.not_idle) (fun _ s s' h hok hb => ?_)
    (fun _ s h => ?_) (fun _ s f inps h hf _ hnext _ => ?_)
    (fun _ s f inps h _ hslot => absurd (h.busy.1.symm.trans hslot) (by simp)) inps () s h hturn
  · exact ⟨hok, hb.same.listening h.listening, hb.inSmall h.small, hb.same.busy h.busy,
      (hb.inPacket h.small).trans h.packet⟩
  · exact ⟨rfl, s, rfl, .inl ⟨rfl, h.busy.1, h.packet⟩⟩
  · have hlast := last_poll_post (k := .endCommandComplete) (by decide) h.busy h.small hf
    rcases exchange_cons h.answering.not_idle ((answering_poll_post h.answering hf).and
      (hlast.and hnext)) inps with ⟨s', ⟨hs', -, -⟩, hx⟩ | ⟨e, s', ⟨-, ⟨he, -⟩⟩, -⟩
    · rcases hs' with ⟨-, -, hi⟩ | ⟨-, m, hm, -⟩
      · rw [hx, exchange_idle hi, transfer_taken, if_pos rfl, transfer_given, h.packet]
        exact ⟨rfl, s', rfl, .inr ⟨rfl, hi⟩⟩
      · exact absurd hm (Nat.not_lt_zero m)
    · exact absurd rfl he.1

theorem Informing.informs (h : Informing s) {inps : List PollInput}
    (hturn : Along fbPoll Turn inps s) : (exchange inps s).Informs := by
  refine exchange_phase (P := fun (_ : Unit) => Informing) (C := fun _ => Exchange.Informs)
    (fun _ _ h => h.ok) (fun _ _ h => h.answering.not_idle) (fun _ s s' h hok hb => ?_)
    (fun _ s h => ?_) (fun _ s f inps h hf _ hnext _ => ?_)
    (fun _ s f inps h _ hslot => absurd (h.busy.1.symm.trans hslot) (by simp)) inps () s h hturn
  · exact ⟨hok, hb.same.listening h.listening, hb.inSmall h.small, hb.same.busy h.busy, by
      rw [hb.inPacket h.small]
      exact h.packet⟩
  · exact ⟨rfl, s, rfl, .inl ⟨rfl, h.busy.1, h.packet⟩⟩
  · rcases exchange_cons h.answering.not_idle ((answering_poll_post h.answering hf).and
      ((info_poll_post h.busy hf).and hnext)) inps with
      ⟨s', ⟨hs', ⟨hsmall, hb, hp⟩, halong⟩, hx⟩ | ⟨e, s', ⟨-, ⟨he, -⟩⟩, -⟩
    · rcases hs' with ⟨h0, -, -⟩ | ⟨-, m, -, ha⟩
      · exact absurd h0 Nat.one_ne_zero
      obtain ⟨hdata, s'', hres, hend⟩ :=
        (Confirming.mk ha.ok ha.listening hsmall hb hp).confirms halong
      rw [hx, transfer_taken, if_pos rfl, transfer_given]
      refine ⟨hdata, s'', hres, .inr ⟨s.inPacket, h.packet, ?_⟩⟩
      rcases hend with ⟨hp', hslot, hnext'⟩ | ⟨hp', hi⟩
      · exact .inl ⟨by rw [hp', List.append_nil], hslot, hnext'⟩
      · exact .inr ⟨by rw [hp']; rfl, hi⟩
    · exact he.elim

theorem Fetching.fetches {n k : Nat} (hn : n < 2 ^ 32) (h : Fetching n k s) {inps : List PollInput}
    (hturn : Along fbPoll Turn inps s) : (exchange inps s).Fetches n k := by
  refine exchange_phase (P := Fetching n) (C := fun k x => x.Fetches n k) (fun _ _ h => h.ok)
    (fun _ _ h => h.not_idle) (fun _ s s' h hok hb => h.beside hok hb) (fun k s h => ?_)
    (fun _ s f inps h _ hslot => absurd h.slot hslot)
    (fun k s f inps h hf hslot hdata hnext ih => ?_) inps k s h hturn
  · exact .inl ⟨s, rfl, rfl, h.lt, h.receiving, h.slot⟩
  · rcases exchange_cons h.not_idle ((data_post h.ok hn h.reassembled (hdata h.receiving)).and hnext)
      inps with ⟨s', ⟨⟨hok, hre, hsmall⟩, halong⟩, hx⟩ | ⟨e, s', ⟨he, -⟩, -⟩
    · have hlen : (s.load s.ctx.lastLoaded k ++ f.data).length = k + f.data.length := by
        rw [List.length_append, length_load]
      have hle := hre.le
      have hrem := hre.rem
      rw [hlen] at hle hrem hsmall
      rw [hx, transfer_taken, if_neg (by decide), transfer_given, if_pos rfl, List.nil_append,
        Exchange.Fetches, List.length_append, ← Nat.add_assoc]
      rcases Nat.lt_or_eq_of_le hle with hlt | heq
      · obtain ⟨hrecv, -, hslot'⟩ := hre.more (by rw [hlen]; exact hlt)
        exact ih (k + f.data.length) s' ⟨hok, hrecv, hslot', hre.size, hrem, hlt⟩ halong
      · obtain ⟨hl, hb, hp⟩ := hre.last (by rw [hlen]; exact heq)
        have hinfo : IsInfo s'.inPacket := by
          rw [hp]
          exact List.prefix_append _ _
        obtain ⟨hd, hend⟩ := (Informing.mk hok hl (hsmall heq) hb hinfo).informs halong
        exact .inr ⟨by rw [hd, List.length_nil, Nat.add_zero, heq], rfl, hend⟩
    · exact he.elim

theorem Asked.beside {n : UInt64} {s' : Fb} (h : Asked n s) (hok : FbOk s') (hb : Beside s s') :
    Asked n s' :=
  ⟨hok, hb.same.receiving h.receiving, hb.inSmall h.small, by rw [hb.same.ctx]; exact h.size,
    by rw [hb.same.ctx]; exact h.rem, hb.same.busy h.busy, (hb.inPacket h.small).trans h.packet⟩

theorem Asked.not_idle {n : UInt64} (h : Asked n s) : ¬Idle s :=
  fun hi => hi.listening.not_receiving h.receiving

/-- What a download is after its response. -/
theorem Exchange.Fetches.isDownload {n : UInt64} {x : Exchange} (h : x.Fetches n.toNat 0) :
    Exchange.IsDownload ⟨dataPacket n :: x.packets, x.data, x.result⟩ n := by
  rcases h with ⟨s, hres, hp, hlt, hrecv, hslot⟩ | ⟨hlen, -, s, hres, hend⟩
  · rw [Nat.zero_add] at hlt
    rw [Exchange.IsDownload, hres, hp]
    exact .inr (.inl ⟨rfl, hlt, hrecv, hslot⟩)
  · rw [Nat.zero_add] at hlen
    dsimp only at hres hend
    rw [Exchange.IsDownload, hres]
    dsimp only
    rcases hend with ⟨hp, hslot, hinfo⟩ | ⟨text, hinfo, ⟨hp, hslot, hnext⟩ | ⟨hp, hi⟩⟩
    · exact .inr (.inr (.inl ⟨by rw [hp], hlen, hslot, hinfo⟩))
    · exact .inr (.inr (.inr ⟨text, hinfo, hlen, .inl ⟨by rw [hp], hslot, hnext⟩⟩))
    · exact .inr (.inr (.inr ⟨text, hinfo, hlen, .inr ⟨by rw [hp], hi⟩⟩))

theorem Asked.isDownload {n : UInt64} (hpos : 0 < n) (hlt : n.toNat < 2 ^ 32) (h : Asked n s)
    {inps : List PollInput} (hturn : Along fbPoll Turn inps s) : (exchange inps s).IsDownload n := by
  refine exchange_phase (P := fun (_ : Unit) => Asked n) (C := fun _ x => x.IsDownload n)
    (fun _ _ h => h.ok) (fun _ _ h => h.not_idle) (fun _ _ _ h hok hb => h.beside hok hb)
    (fun _ s h => ?_) (fun _ s f inps h _ _ hnext _ => ?_)
    (fun _ s f inps h _ hslot => absurd (h.busy.1.symm.trans hslot) (by simp)) inps () s h hturn
  · exact .inl ⟨rfl, rfl, h.busy.1, h.packet⟩
  · rcases exchange_cons h.not_idle
      ((dataResponse_post h.ok h.receiving h.busy f fun _ _ => False).and hnext) inps with
      ⟨s', ⟨⟨hok, hrecv, hslot, hctx⟩, halong⟩, hx⟩ | ⟨e, s', ⟨he, -⟩, -⟩
    · have hfetch : Fetching n.toNat 0 s' :=
        ⟨hok, hrecv, hslot, by rw [hctx, h.size], by rw [hctx, h.rem]; rfl,
          UInt64.lt_iff_toNat_lt.1 hpos⟩
      rw [hx, transfer_taken, if_pos rfl, transfer_given, h.packet]
      exact (hfetch.fetches hlt halong).isDownload
    · exact he.elim

/-! ### Commands and their exchanges -/

/-- **Every command is answered in the grammar of responses.** A command that comes to an idle device
is followed by texts and one `OKAY` or `FAIL`; `download:` of some bytes, if it is accepted, by the
request for them, and after the last one by a text and `OKAY`. Its handler sends a response or
returns a failure. Every state that a run reaches has `FbOk`, by `fbRun_ne_depth`, and `InSmall`, by
`fbRun_small`. -/
theorem response_grammar {f : Finish} (h : FbOk s) (hi : Idle s) (hsmall : InSmall s)
    (hf : f.sizeIocSts &&& usbdTdErrorMask = 0) :
    (∀ n sel s₁, Listening s₁ → s₁.reqs ep1InReq.ix = none → InSmall s₁ →
      Post (fbDispatch (usbdCall (fbComplete (n + 1))) sel)
        (fun st s' => st = fbOk ∧ s'.reqs ep1InReq.ix = some ep1InReq ∨
          st ∈ fbFailures ∧ s'.reqs ep1InReq.ix = none)
        (fun e _ => e = .lmbOverrun) s₁) ∧
    Post (fbPoll (.transfer ep1OutReq.ix f))
      (fun _ s₁ =>
        (¬Receiving s₁ → ∃ n, ∀ inps, Along fbPoll Turn inps s₁ → (exchange inps s₁).IsReply n) ∧
        (Receiving s₁ → ∃ cmd,
          UsbdStep.selected (.complete ep1OutReq.ix) (finish ep1OutReq.ix f s) =
            some (.download cmd) ∧
          (0 < (simpleStrtoull cmd 16).1 → (simpleStrtoull cmd 16).1.toNat < 2 ^ 32 →
            ∀ inps, Along fbPoll Turn inps s₁ →
              (exchange inps s₁).IsDownload (simpleStrtoull cmd 16).1)))
      (fun e _ => e = .lmbOverrun) s := by
  refine ⟨fun n sel s₁ hout hs hb => (fbDispatch_returned sel hout hs hb).imp ?_,
    (command_poll_post h hi hsmall hf).imp ?_⟩
  · intro st s' hret
    rcases hret.result with hfail | ⟨hst, hrep⟩
    · exact .inr hfail
    · exact .inl ⟨hst, hrep.busy⟩
  · rintro - s₁ (⟨n, ha⟩ | ⟨cmd, hsel, hasked⟩)
    · exact ⟨fun _ => ⟨n + 1, fun inps hturn => ha.isReply hturn⟩,
        fun hrecv => absurd hrecv ha.listening.not_receiving⟩
    · exact ⟨fun hn => absurd hasked.receiving hn,
        fun _ => ⟨cmd, hsel, fun hpos hlt inps hturn => hasked.isDownload hpos hlt hturn⟩⟩

end

theorem inSmall_waiting : InSmall waiting := rfl

/-- `oem` with nothing that it knows. -/
theorem response_grammar_oem :
    (∀ n sel s₁, Listening s₁ → s₁.reqs ep1InReq.ix = none → InSmall s₁ →
      Post (fbDispatch (usbdCall (fbComplete (n + 1))) sel)
        (fun st s' => st = fbOk ∧ s'.reqs ep1InReq.ix = some ep1InReq ∨
          st ∈ fbFailures ∧ s'.reqs ep1InReq.ix = none)
        (fun e _ => e = .lmbOverrun) s₁) ∧
    Post (fbPoll (.transfer ep1OutReq.ix ⟨0x3a0000, bytes "oem ?"⟩))
      (fun _ s₁ =>
        (¬Receiving s₁ → ∃ n, ∀ inps, Along fbPoll Turn inps s₁ → (exchange inps s₁).IsReply n) ∧
        (Receiving s₁ → ∃ cmd,
          UsbdStep.selected (.complete ep1OutReq.ix)
            (finish ep1OutReq.ix ⟨0x3a0000, bytes "oem ?"⟩ waiting) = some (.download cmd) ∧
          (0 < (simpleStrtoull cmd 16).1 → (simpleStrtoull cmd 16).1.toNat < 2 ^ 32 →
            ∀ inps, Along fbPoll Turn inps s₁ →
              (exchange inps s₁).IsDownload (simpleStrtoull cmd 16).1)))
      (fun e _ => e = .lmbOverrun) waiting :=
  response_grammar fbOk_waiting (by decide) inSmall_waiting (by decide)

/-- A packet that belongs to no reply. -/
theorem Exchange.not_isReply {x : Exchange} {p : List UInt8} (hp : p ∈ x.packets)
    (hinfo : ¬IsInfo p) (hfinal : ¬IsFinal p) (n : Nat) : ¬x.IsReply n := by
  rintro ⟨-, hres⟩
  have hreply : ¬∃ infos last, x.packets = infos ++ [last] ∧ (∀ q ∈ infos, IsInfo q) ∧
      IsFinal last := by
    rintro ⟨infos, last, hx, hall, hlast⟩
    rw [hx, List.mem_append, List.mem_singleton] at hp
    rcases hp with hp | rfl
    · exact hinfo (hall p hp)
    · exact hfinal hlast
  cases hr : x.result with
  | ok a s =>
    rw [hr] at hres
    rcases hres with ⟨infos, last, hx, hall, hlast, -⟩ | ⟨hall, -⟩
    · exact hreply ⟨infos, last, hx, hall, hlast⟩
    · exact hinfo (hall p hp)
  | error e s =>
    rw [hr] at hres
    exact hreply hres.2

/-- A second command that comes before the host has taken the response to the first takes its place,
and `download:` is answered with a packet that is no response to the first. Data that comes before the
host has taken the response to `download:` stops the device. -/
theorem response_grammar_early_data : Idle waiting ∧ InSmall waiting ∧
    Post (fbPoll (.transfer ep1OutReq.ix ⟨0x360000, bytes "oem echo a"⟩))
      (fun _ s₁ => ¬Receiving s₁ ∧ ∀ n, ¬(exchange [.transfer ep1OutReq.ix ⟨0x360000,
        bytes "download:4"⟩, .transfer ep1InReq.ix ⟨0, []⟩] s₁).IsReply n)
      (fun _ _ => False) waiting ∧
    Post (fbPoll (.transfer ep1OutReq.ix ⟨0x360000, bytes "download:4"⟩))
      (fun _ s₁ => Receiving s₁ ∧ s₁.ctx.loadSize = 4 ∧ DataCompletion ⟨0, bytes "abcd"⟩ s₁ ∧
        Post (fbPoll (.transfer ep1OutReq.ix ⟨0, bytes "abcd"⟩)) (fun _ _ => False)
          (fun e _ => e = .inFlight ep1InReq.ix) s₁)
      (fun _ _ => False) waiting := by
  have hsecond : Post (fbPoll (.transfer ep1OutReq.ix ⟨0x360000, bytes "oem echo a"⟩))
      (fun _ s₁ => ¬Receiving s₁ ∧ (exchange [.transfer ep1OutReq.ix ⟨0x360000,
        bytes "download:4"⟩, .transfer ep1InReq.ix ⟨0, []⟩] s₁).packets = [dataPacket 4])
      (fun _ _ => False) waiting := by decide +kernel
  have hinfo : ¬IsInfo (dataPacket 4) := by unfold IsInfo; decide
  have hfinal : ¬IsFinal (dataPacket 4) := by unfold IsFinal; decide
  refine ⟨by decide, inSmall_waiting, hsecond.mono ?_ fun _ _ h => h, by decide +kernel⟩
  rintro - s₁ ⟨hrecv, hpackets⟩
  exact ⟨hrecv, Exchange.not_isReply (hpackets ▸ List.mem_singleton_self _) hinfo hfinal⟩

end ShieldLoader
