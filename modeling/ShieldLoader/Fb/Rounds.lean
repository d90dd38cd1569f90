import ShieldLoader.Fb.Callbacks

/-!
# Completions and resets

The invariant of the device, and what one round of `usbd_completions` and of `usbd_port_reset` does
to it for each of its four requests.
-/

namespace ShieldLoader

open EStateM Usbd

/-- The requests of endpoint 0. -/
def Ep0 (r : Req) : Prop := ep0OutReq = r ∨ ep0InReq = r

/-- The slots and callbacks of endpoint 0, and no request but the four of the device. -/
structure Ep0Ok (s : Fb) : Prop where
  outSlot : s.reqs ep0OutReq.ix = none ∨ s.reqs ep0OutReq.ix = some ep0OutReq
  inSlot : s.reqs ep0InReq.ix = none ∨ s.reqs ep0InReq.ix = some ep0InReq
  others : ∀ ix, ix ∉ [ep0OutReq, ep1OutReq, ep0InReq, ep1InReq].map Req.ix → s.reqs ix = none
  outComplete : (s.req ep0OutReq).complete = none
  inComplete : (s.req ep0InReq).complete = none ∨
    (s.req ep0InReq).complete = some .ep0InReqComplete

/-- Endpoint 1 without a configuration: at most an `OKAY` is left. -/
structure Unconfigured (s : Fb) : Prop where
  config : s.currentConfig = 0
  out : s.reqs ep1OutReq.ix = none
  cancel : (s.req ep1OutReq).cancel = false
  inCommand : s.ctx.inCommand = false
  slot : s.reqs ep1InReq.ix = none ∨ Busy (some (.client .endCommandComplete)) s

/-- Endpoint 1 with a configuration. -/
structure Configured (s : Fb) : Prop where
  config : s.currentConfig = 1
  out : Listening s ∨ Receiving s

/-- The invariant of the device between two calls of the driver. -/
structure FbOk (s : Fb) : Prop where
  ep0 : Ep0Ok s
  inOk : InOk s
  ep1 : Unconfigured s ∨ Configured s

section
variable {s s' : Fb}

theorem FbOk.outOk (h : FbOk s) : OutOk s :=
  h.ep1.imp (fun h => ⟨h.out, h.cancel⟩) Configured.out

theorem Ep0Ok.of_keeps (h : Ep0Ok s) (hk : Keeps Ep1 s s') : Ep0Ok s' := by
  have hne : ∀ ix, ix ≠ ep1OutReq.ix → ix ≠ ep1InReq.ix → s'.reqs ix = s.reqs ix := by
    rintro ix h1 h2
    refine hk.reqs ix ?_
    rintro _ (rfl | rfl)
    · exact h1.symm
    · exact h2.symm
  have hout := hk.req ep0OutReq (by unfold Ep1; decide)
  have hin := hk.req ep0InReq (by unfold Ep1; decide)
  refine ⟨?_, ?_, fun ix hix => ?_, by rw [hout]; exact h.outComplete,
    by rw [hin]; exact h.inComplete⟩
  · rw [hne _ (by decide) (by decide)]; exact h.outSlot
  · rw [hne _ (by decide) (by decide)]; exact h.inSlot
  · simp only [List.map_cons, List.map_nil, List.mem_cons, List.not_mem_nil, or_false, not_or]
      at hix
    rw [hne _ hix.2.1 hix.2.2.2]
    exact h.others ix (by simpa using hix)

theorem Usbd.Keeps.ep0_reqs (hk : Keeps Ep0 s s') :
    s'.reqs ep1OutReq.ix = s.reqs ep1OutReq.ix ∧ s'.reqs ep1InReq.ix = s.reqs ep1InReq.ix := by
  constructor
  · exact hk.reqs _ (by rintro _ (rfl | rfl) <;> decide)
  · exact hk.reqs _ (by rintro _ (rfl | rfl) <;> decide)

theorem Usbd.Keeps.ep0_req (hk : Keeps Ep0 s s') :
    s'.req ep1OutReq = s.req ep1OutReq ∧ s'.req ep1InReq = s.req ep1InReq :=
  ⟨hk.req _ (by unfold Ep0; decide), hk.req _ (by unfold Ep0; decide)⟩

/-- What endpoint 1 is like depends on its slots and requests, on the configuration and on
`fb_mem`. -/
structure SameEp1 (s s' : Fb) : Prop where
  out : s'.reqs ep1OutReq.ix = s.reqs ep1OutReq.ix
  in_ : s'.reqs ep1InReq.ix = s.reqs ep1InReq.ix
  outReq : s'.req ep1OutReq = s.req ep1OutReq
  inReq : s'.req ep1InReq = s.req ep1InReq
  config : s'.currentConfig = s.currentConfig
  ctx : s'.ctx = s.ctx

theorem SameEp1.of_keeps (hk : Keeps Ep0 s s') (hc : s'.ctx = s.ctx) : SameEp1 s s' :=
  ⟨hk.ep0_reqs.1, hk.ep0_reqs.2, hk.ep0_req.1, hk.ep0_req.2, hk.currentConfig, hc⟩

theorem SameEp1.refl (s : Fb) : SameEp1 s s := ⟨rfl, rfl, rfl, rfl, rfl, rfl⟩

theorem SameEp1.symm (h : SameEp1 s s') : SameEp1 s' s :=
  ⟨h.out.symm, h.in_.symm, h.outReq.symm, h.inReq.symm, h.config.symm, h.ctx.symm⟩

theorem SameEp1.trans {s'' : Fb} (h : SameEp1 s s') (h' : SameEp1 s' s'') : SameEp1 s s'' :=
  ⟨h'.out.trans h.out, h'.in_.trans h.in_, h'.outReq.trans h.outReq, h'.inReq.trans h.inReq,
    h'.config.trans h.config, h'.ctx.trans h.ctx⟩

theorem SameEp1.inOk (h : SameEp1 s s') (hs : InOk s) : InOk s' :=
  ⟨by rw [h.in_]; exact hs.slot, by rw [h.inReq]; exact hs.kind⟩

theorem SameEp1.busy {c : Option (Complete FbComplete)} (h : SameEp1 s s') (hs : Busy c s) :
    Busy c s' :=
  ⟨h.in_.trans hs.1, by rw [h.inReq]; exact hs.2⟩

theorem SameEp1.listening (h : SameEp1 s s') (hs : Listening s) : Listening s' := by
  obtain ⟨h1, h2, h3, h4, h5⟩ := hs
  exact ⟨h.out.trans h1, by rwa [h.outReq], by rwa [h.outReq], by rwa [h.outReq],
    by rwa [h.outReq]⟩

theorem SameEp1.receiving (h : SameEp1 s s') (hs : Receiving s) : Receiving s' := by
  obtain ⟨h1, h2, h3, h4, h5⟩ := hs
  exact ⟨h.out.trans h1, by rwa [h.outReq], by rwa [h.outReq, h.ctx], by rwa [h.outReq, h.ctx],
    by rwa [h.outReq]⟩

theorem SameEp1.ep1 (h : SameEp1 s s') (hs : Unconfigured s ∨ Configured s) :
    Unconfigured s' ∨ Configured s' := by
  refine hs.imp (fun hu => ?_) fun hc => ⟨h.config.trans hc.config, ?_⟩
  · exact ⟨h.config.trans hu.config, h.out.trans hu.out, by rw [h.outReq]; exact hu.cancel,
      by rw [h.ctx]; exact hu.inCommand, hu.slot.imp h.in_.trans h.busy⟩
  · exact hc.out.imp h.listening h.receiving

theorem FbOk.of_same (h : FbOk s) (h0 : Ep0Ok s') (h1 : SameEp1 s s') : FbOk s' :=
  ⟨h0, h1.inOk h.inOk, h1.ep1 h.ep1⟩

/-- A slot holds the request of the device with its index. -/
theorem FbOk.slot (h : FbOk s) {ix : Nat} {r : Req} (hr : s.reqs ix = some r) :
    (ix = ep0OutReq.ix ∧ r = ep0OutReq) ∨ (ix = ep1OutReq.ix ∧ r = ep1OutReq) ∨
      (ix = ep0InReq.ix ∧ r = ep0InReq) ∨ (ix = ep1InReq.ix ∧ r = ep1InReq) := by
  by_cases hix : ix ∈ [ep0OutReq, ep1OutReq, ep0InReq, ep1InReq].map Req.ix
  · have hsome : ∀ {q : Req}, (s.reqs q.ix = none ∨ s.reqs q.ix = some q) → ix = q.ix → r = q := by
      rintro q hq rfl
      rw [hr] at hq
      exact Option.some.inj (hq.resolve_left (by simp))
    simp only [List.map_cons, List.map_nil, List.mem_cons, List.not_mem_nil, or_false] at hix
    rcases hix with hx | hx | hx | hx
    · exact .inl ⟨hx, hsome h.ep0.outSlot hx⟩
    · exact .inr (.inl ⟨hx, hsome h.outOk.slot hx⟩)
    · exact .inr (.inr (.inl ⟨hx, hsome h.ep0.inSlot hx⟩))
    · exact .inr (.inr (.inr ⟨hx, hsome h.inOk.slot hx⟩))
  · rw [h.ep0.others ix hix] at hr
    exact absurd hr (by simp)

end

/-! ### The OUT request of endpoint 1 -/

/-- The OUT request is out of its slot and about to be called back; `error` and `io_done` may have
changed. -/
structure OutTaken (s s₁ : Fb) : Prop where
  only : OutOnly s s₁
  slot : s₁.reqs ep1OutReq.ix = none
  complete : (s₁.req ep1OutReq).complete = (s.req ep1OutReq).complete
  cancel : (s₁.req ep1OutReq).cancel = (s.req ep1OutReq).cancel
  buffer : (s₁.req ep1OutReq).buffer = (s.req ep1OutReq).buffer

/-- The OUT request has been called back, with this `error`, and with `rem` of the download left
then. -/
structure OutDone (error : Bool) (rem : UInt64) (s s' : Fb) : Prop where
  keeps : Keeps Ep1 s s'
  inOk : InOk s'
  out : Listening s' ∨ Receiving s'
  failed : Listening s → error = true → Listening s' ∧ s'.ctx = s.ctx ∧
    s'.reqs ep1InReq.ix = s.reqs ep1InReq.ix ∧ s'.req ep1InReq = s.req ep1InReq
  command : Listening s → error = false → s'.ctx.inCommand = true ∧
    Answered (fbSelect s.commandText) s s'
  data : Receiving s → s'.ctx.inCommand = s.ctx.inCommand ∧
    s'.ctx.load = (s.ctx.lastLoaded, s.ctx.loadSize, rem, s.ctx.loadAlign) ∧
    (rem = 0 → Listening s' ∧ Busy (some (.client .endCommandWithInfoComplete)) s') ∧
    (rem ≠ 0 → Receiving s' ∧ s'.reqs ep1InReq.ix = s.reqs ep1InReq.ix ∧
      s'.req ep1InReq = s.req ep1InReq)

/-- The callback of the OUT request finds the IN slot taken. -/
def OutBlame (error : Bool) (rem : UInt64) (s : Fb) : Prop :=
  Listening s ∧ error = false ∧ ¬Free s ∨ Receiving s ∧ rem = 0 ∧ s.reqs ep1InReq.ix ≠ none

theorem Answered.out {sel : FbSelected} {s s' : Fb} (h : Answered sel s s') :
    Listening s' ∨ Receiving s' := by
  cases h with
  | responds _ hout => exact .inl hout
  | flash _ _ _ _ hout => exact .inl hout
  | download hout => exact .inr hout

theorem Answered.inOk {sel : FbSelected} {s s' : Fb} (h : Answered sel s s') : InOk s' := by
  cases h with
  | responds _ _ hk hin => exact hin.inOk (.inl hk)
  | flash _ _ _ _ _ hin => exact hin.inOk (.inr rfl)
  | download _ _ _ hin => exact ⟨.inr hin.1, fun c hc => by simp [hin.2] at hc⟩

theorem Listening.not_receiving {s : Fb} (h : Listening s) : ¬Receiving s :=
  fun h' => by simpa using h.complete.symm.trans h'.complete

theorem fbNotifyOut_post {s s₁ : Fb} (hin : InOk s) (hout : Listening s ∨ Receiving s)
    (h₁ : OutTaken s s₁) :
    Post (usbdNotify fbCall ep1OutReq)
      (fun _ => OutDone (s₁.req ep1OutReq).error (remAfter s₁) s)
      (CallStops s (OutBlame (s₁.req ep1OutReq).error (remAfter s₁) s)) s₁ := by
  have hin₁ := hin.of_outOnly h₁.only
  have hload : s₁.ctx.load = s.ctx.load := by rw [h₁.only.ctx]
  have hk := h₁.only.ep1
  rcases hout with hout | hout
  · have hcall := h₁.complete.trans hout.complete
    refine post_usbdNotify.2 ⟨fun h => by simp [h] at hcall, fun c hc => ?_⟩
    obtain rfl := Option.some.inj (hc.symm.trans hcall)
    have htext : s₁.commandText = s.commandText :=
      commandText_of_small (by rw [h₁.only.small])
    refine (@fbRxCmdComplete_post 0 s₁ h₁.slot (h₁.cancel.trans hout.cancel)
      (h₁.buffer.trans hout.buffer) hin₁).mono ?_ ?_
    · rintro - s' ⟨hk', hfail, hdone⟩
      have hno : ¬Receiving s := hout.not_receiving
      cases he : (s₁.req ep1OutReq).error with
      | true =>
        obtain ⟨ho, hl⟩ := hfail he
        exact ⟨hk.trans hk', hin₁.of_outOnly ho, .inl hl,
          fun _ _ => ⟨hl, ho.ctx.trans h₁.only.ctx, ho.in_reqs.trans h₁.only.in_reqs,
            ho.in_req.trans h₁.only.in_req⟩, fun _ h => by simp at h, fun h => (hno h).elim⟩
      | false =>
        obtain ⟨hc, ha⟩ := hdone he
        rw [htext] at ha
        exact ⟨hk.trans hk', ha.inOk, ha.out, fun _ h => by simp at h,
          fun _ _ => ⟨hc, ha.of_load hload⟩, fun h => (hno h).elim⟩
    · refine fun e s' h => h.mono (fun hb => .inl ⟨hout, hb.1, fun hf => hb.2 ?_⟩)
        (by rw [h₁.only.in_req]) hload.symm h₁.only.mem.symm
      refine hf.imp h₁.only.in_reqs.trans fun ⟨hc, hb⟩ => ⟨?_, fun h => hb ⟨?_, ?_⟩⟩
      · rw [h₁.only.ctx]; exact hc
      · rw [← h₁.only.in_reqs]; exact h.1
      · rw [← h₁.only.in_req]; exact h.2
  · have hcall := h₁.complete.trans hout.complete
    refine post_usbdNotify.2 ⟨fun h => by simp [h] at hcall, fun c hc => ?_⟩
    obtain rfl := Option.some.inj (hc.symm.trans hcall)
    have hno : ¬Listening s := fun h => h.not_receiving hout
    refine (fbRxDataComplete_post h₁.slot (h₁.cancel.trans hout.cancel)).mono ?_ ?_
    · rintro - s' ⟨hk', hcmd, hl, hlast, hmore⟩
      rw [h₁.only.ctx] at hl hcmd
      have hmore' : remAfter s₁ ≠ 0 → Receiving s' ∧
          s'.reqs ep1InReq.ix = s.reqs ep1InReq.ix ∧ s'.req ep1InReq = s.req ep1InReq := by
        intro h
        obtain ⟨g1, g2, g3⟩ := hmore h
        exact ⟨g1, g2.trans h₁.only.in_reqs, g3.trans h₁.only.in_req⟩
      refine ⟨hk.trans hk', ?_, ?_, fun h => (hno h).elim, fun h => (hno h).elim,
        fun _ => ⟨hcmd, hl, hlast, hmore'⟩⟩
      · by_cases hr : remAfter s₁ = 0
        · exact (hlast hr).2.inOk (.inl (by decide))
        · obtain ⟨-, g2, g3⟩ := hmore hr
          exact hin₁.of_still g2 (by rw [g3])
      · by_cases hr : remAfter s₁ = 0
        · exact .inl (hlast hr).1
        · exact .inr (hmore hr).1
    · exact fun e s' h => h.2.call fun hne =>
        .inr ⟨hout, h.1, by rwa [h₁.only.in_reqs] at hne⟩

/-! ### The IN request of endpoint 1 -/

/-- The IN request is out of its slot and about to be called back. -/
structure InTaken (s s₁ : Fb) : Prop where
  keeps : Keeps (Eq ep1InReq) s s₁
  ctx : s₁.ctx = s.ctx
  mem : s₁.mem = s.mem
  slot : s₁.reqs ep1InReq.ix = none
  complete : (s₁.req ep1InReq).complete = (s.req ep1InReq).complete

theorem InTaken.notify {s s₁ : Fb} (hin : InOk s) (h₁ : InTaken s s₁) :
    Post (usbdNotify fbCall ep1InReq) (fun _ => InDone s₁) (CallStops s False) s₁ := by
  have hin₁ : InOk s₁ := ⟨.inl h₁.slot, by rw [h₁.complete]; exact hin.kind⟩
  exact (@fbNotifyIn_post 1 s₁ hin₁ h₁.slot).mono (fun _ _ => id) fun e s' h =>
    h.mono id h₁.complete.symm (by rw [h₁.ctx]) h₁.mem.symm

theorem InTaken.ep1 {s s₁ s' : Fb} (h : Unconfigured s ∨ Configured s) (h₁ : InTaken s s₁)
    (hs : s.reqs ep1InReq.ix = some ep1InReq) (hd : InDone s₁ s') :
    Unconfigured s' ∨ Configured s' := by
  have hk := h₁.keeps.trans hd.keeps
  have hl : s'.ctx.load = s.ctx.load := by rw [hd.load, h₁.ctx]
  refine h.imp (fun hu => ?_) fun hc => ⟨hk.currentConfig.trans hc.config,
    hc.out.imp (·.of_keeps hk) (·.of_keeps hk hl)⟩
  obtain ⟨-, hend⟩ := hu.slot.resolve_left (by simp [hs])
  obtain ⟨hslot, hcmd⟩ := hd.ended (h₁.complete.trans hend)
  exact ⟨hk.currentConfig.trans hu.config, hk.out_reqs.trans hu.out,
    by rw [hk.out_req]; exact hu.cancel, hcmd, .inl hslot⟩

/-! ### Rounds of `usbd_completions` -/

/-- The transfer of the slot has ended with an error. -/
def Usbd.failed (s : Fb) (ix : Nat) : Bool := (s.td ix).sizeIocSts &&& usbdTdErrorMask ≠ 0

/-- What is left of the download after the transfer of the OUT request. -/
def remDone (s : Fb) : UInt64 := remAfter (s.completed ep1OutReq)

/-- The callback of endpoint 0 goes on to the status stage. -/
def StatusStage (s : Fb) : Prop :=
  (s.req ep0InReq).complete = some .ep0InReqComplete ∧ s.failed ep0InReq.ix = false

/-- Why a round stops. -/
inductive RoundStops (ix : Nat) (s : Fb) : Halt → Fb → Prop
  | empty {s' : Fb} (h : s.reqs ix = none) : RoundStops ix s (.nullReq ix) s'
  | ep0 {s' : Fb} (hix : ix = ep0InReq.ix) (h : s.reqs ep0OutReq.ix ≠ none)
      (hst : StatusStage s) : RoundStops ix s (.inFlight ep0OutReq.ix) s'
  | out {e : Halt} {s' : Fb} (hix : ix = ep1OutReq.ix)
      (h : CallStops s (OutBlame (s.failed ix) (remDone s) s) e s') : RoundStops ix s e s'
  | in_ {e : Halt} {s' : Fb} (hix : ix = ep1InReq.ix) (h : CallStops s False e s') :
      RoundStops ix s e s'

/-- What a round has done. -/
inductive RoundDone (s s' : Fb) : Nat → Prop
  | ep0Out (hk : Keeps Ep0 s s') (hctx : s'.ctx = s.ctx)
      (hout : s'.reqs ep0OutReq.ix = none) (hin : s'.reqs ep0InReq.ix = s.reqs ep0InReq.ix) :
      RoundDone s s' ep0OutReq.ix
  | ep0In (hk : Keeps Ep0 s s') (hctx : s'.ctx = s.ctx) (hin : s'.reqs ep0InReq.ix = none)
      (hfree : StatusStage s → s.reqs ep0OutReq.ix = none) : RoundDone s s' ep0InReq.ix
  | ep1Out (h : OutDone (s.failed ep1OutReq.ix) (remDone s) s s') : RoundDone s s' ep1OutReq.ix
  | ep1In {s₁ : Fb} (h₁ : InTaken s s₁) (h : InDone s₁ s') : RoundDone s s' ep1InReq.ix

theorem RoundDone.out {s s' : Fb} (h : RoundDone s s' ep1OutReq.ix) :
    OutDone (s.failed ep1OutReq.ix) (remDone s) s s' := by
  generalize hix : ep1OutReq.ix = ix at h
  cases h with
  | ep1Out h => exact h
  | _ => exact absurd hix (by decide)

theorem RoundDone.in_ {s s' : Fb} (h : RoundDone s s' ep1InReq.ix) :
    ∃ s₁, InTaken s s₁ ∧ InDone s₁ s' := by
  generalize hix : ep1InReq.ix = ix at h
  cases h with
  | ep1In h₁ h => exact ⟨_, h₁, h⟩
  | _ => exact absurd hix (by decide)

theorem Ep0Ok.clear {s : Fb} (h : Ep0Ok s) (ix : Nat) : Ep0Ok (s.setSlot ix none) := by
  have hne : ∀ (i : Nat) (q : Option Req), s.reqs i = none ∨ s.reqs i = q →
      (s.setSlot ix none).reqs i = none ∨ (s.setSlot ix none).reqs i = q := by
    intro i q hi
    rw [setSlot_reqs, Function.update_apply]
    split
    · exact .inl rfl
    · exact hi
  refine ⟨hne _ _ h.outSlot, hne _ _ h.inSlot, fun i hi => ?_, h.outComplete, h.inComplete⟩
  simpa using hne i none (.inl (h.others i hi))

section
variable {s : Fb} (h : FbOk s)
include h

theorem round_ep0Out_post (hr : s.reqs ep0OutReq.ix = some ep0OutReq) :
    Post (usbdCompletions.round fbClient.call ep0OutReq.ix)
      (fun _ s' => FbOk s' ∧ RoundDone s s' ep0OutReq.ix) (RoundStops ep0OutReq.ix s) s := by
  refine post_usbdCompletions_round.2 ⟨fun hn => by simp [hr] at hn, fun r hr' => ?_⟩
  obtain rfl := Option.some.inj (hr'.symm.trans hr)
  refine post_usbdReqComplete.2 ⟨fun _ => ?_, fun hc => absurd h.ep0.outComplete hc⟩
  have hk : Keeps Ep0 s (s.setSlot ep0OutReq.ix none) := .setSlot (.inl rfl) rfl
  refine ⟨h.of_same (h.ep0.clear _) (.of_keeps hk rfl), .ep0Out hk rfl ?_ ?_⟩
  · rw [setSlot_reqs, Function.update_self]
  · rw [setSlot_reqs, Function.update_of_ne (by decide)]

theorem round_ep0In_post (hr : s.reqs ep0InReq.ix = some ep0InReq) :
    Post (usbdCompletions.round fbClient.call ep0InReq.ix)
      (fun _ s' => FbOk s' ∧ RoundDone s s' ep0InReq.ix) (RoundStops ep0InReq.ix s) s := by
  have hk : Keeps Ep0 s (s.setSlot ep0InReq.ix none) := .setSlot (.inr rfl) rfl
  have hslot : (s.setSlot ep0InReq.ix none).reqs ep0InReq.ix = none := by
    rw [setSlot_reqs, Function.update_self]
  have h0 := h.ep0.clear ep0InReq.ix
  refine post_usbdCompletions_round.2 ⟨fun hn => by simp [hr] at hn, fun r hr' => ?_⟩
  obtain rfl := Option.some.inj (hr'.symm.trans hr)
  refine post_usbdReqComplete.2 ⟨fun hn => ?_, fun hc => ?_⟩
  · exact ⟨h.of_same h0 (.of_keeps hk rfl), .ep0In hk rfl hslot fun hst =>
      absurd (hst.1.symm.trans hn) (by simp)⟩
  replace hc := h.ep0.inComplete.resolve_left hc
  set s₁ := completed ep0InReq (s.setSlot ep0InReq.ix none) with hs₁
  have hk₁ : Keeps Ep0 s s₁ := hk.trans (.completed (.inr rfl))
  have h0₁ : Ep0Ok s₁ := by
    refine ⟨h0.outSlot, h0.inSlot, h0.others, ?_, .inr ?_⟩
    · rw [hs₁, completed_req, Function.update_of_ne (by decide)]; exact h.ep0.outComplete
    · rw [hs₁, completed_req, Function.update_self]; exact hc
  have herr : (s₁.req ep0InReq).error = s.failed ep0InReq.ix := by
    rw [hs₁, completed_req, Function.update_self]; rfl
  have hcomplete : (s₁.req ep0InReq).complete = some .ep0InReqComplete := by
    rw [hs₁, completed_req, Function.update_self]; exact hc
  refine post_usbdNotify.2 ⟨fun hn => by simp [hcomplete] at hn, fun c hc' => ?_⟩
  obtain rfl := Option.some.inj (hc'.symm.trans hcomplete)
  simp only [Client.call, usbdCall, usbdEp0InReqComplete, post_bind, post_get, post_ite,
    post_pure, post_modify]
  refine ⟨fun he => ⟨h.of_same h0₁ (.of_keeps hk₁ rfl), .ep0In hk₁ rfl hslot fun hst =>
    absurd (he.symm.trans (herr.trans hst.2)) (by decide)⟩, fun he => ?_⟩
  have hout : s₁.reqs ep0OutReq.ix = s.reqs ep0OutReq.ix := by
    rw [hs₁, completed_reqs, setSlot_reqs, Function.update_of_ne (by decide)]
  refine post_usbdReqSubmit.2 ⟨fun hne => .ep0 rfl ?_ ⟨hc, ?_⟩, fun hn => ?_⟩
  · rwa [setReq_reqs, hout] at hne
  · rw [← herr]; simpa using he
  · have hk₂ : Keeps Ep0 s (submitted ep0OutReq (setReq ep0OutReq
        (fun q => { q with bufferLength := 0, complete := none }) s₁)) :=
      (hk₁.trans (.setReq (.inl rfl) _)).trans (.submitted (.inl rfl))
    refine ⟨h.of_same ⟨.inr ?_, ?_, fun ix hix => ?_, ?_, ?_⟩ (.of_keeps hk₂ rfl),
      .ep0In hk₂ rfl ?_ fun _ => hout.symm.trans hn⟩
    · rw [submitted_reqs, Function.update_self]
    · rw [submitted_reqs, Function.update_of_ne (by decide)]; exact h0₁.inSlot
    · have hne : ix ≠ ep0OutReq.ix := fun h => hix (h ▸ by decide)
      rw [submitted_reqs, Function.update_of_ne hne]
      exact h0₁.others ix hix
    · rw [submitted_req, Function.update_self, setReq_req, Function.update_self]
    · rw [submitted_req, Function.update_of_ne (by decide), setReq_req,
        Function.update_of_ne (by decide)]
      exact h0₁.inComplete
    · rw [submitted_reqs, Function.update_of_ne (by decide)]; exact hslot

theorem round_ep1Out_post (hr : s.reqs ep1OutReq.ix = some ep1OutReq) :
    Post (usbdCompletions.round fbClient.call ep1OutReq.ix)
      (fun _ s' => FbOk s' ∧ RoundDone s s' ep1OutReq.ix) (RoundStops ep1OutReq.ix s) s := by
  have hcfg : Configured s := h.ep1.resolve_left fun hu => by simp [hu.out] at hr
  refine post_usbdCompletions_round.2 ⟨fun hn => by simp [hr] at hn, fun r hr' => ?_⟩
  obtain rfl := Option.some.inj (hr'.symm.trans hr)
  set s₁ := completed ep1OutReq (s.setSlot ep1OutReq.ix none) with hs₁
  have h₁ : OutTaken s s₁ := by
    refine ⟨⟨(Keeps.setSlot rfl rfl).trans (.completed rfl), rfl, rfl, rfl⟩, ?_, ?_, ?_, ?_⟩
    · rw [hs₁, completed_reqs, setSlot_reqs, Function.update_self]
    all_goals rw [hs₁, completed_req, Function.update_self]; rfl
  have herr : (s₁.req ep1OutReq).error = s.failed ep1OutReq.ix := by
    rw [hs₁, completed_req, Function.update_self]; rfl
  have hpost := fbNotifyOut_post h.inOk hcfg.out h₁
  rw [herr] at hpost
  refine post_usbdReqComplete.2 ⟨fun hn => ?_, fun _ => hpost.mono (fun _ s' hd => ?_)
    fun _ _ h => .out rfl h⟩
  · rcases hcfg.out with ho | ho
    · simp [ho.complete] at hn
    · simp [ho.complete] at hn
  · exact ⟨⟨h.ep0.of_keeps hd.keeps, hd.inOk,
      .inr ⟨hd.keeps.currentConfig.trans hcfg.config, hd.out⟩⟩, .ep1Out hd⟩

theorem round_ep1In_post (hr : s.reqs ep1InReq.ix = some ep1InReq) :
    Post (usbdCompletions.round fbClient.call ep1InReq.ix)
      (fun _ s' => FbOk s' ∧ RoundDone s s' ep1InReq.ix) (RoundStops ep1InReq.ix s) s := by
  refine post_usbdCompletions_round.2 ⟨fun hn => by simp [hr] at hn, fun r hr' => ?_⟩
  obtain rfl := Option.some.inj (hr'.symm.trans hr)
  have h₀ : InTaken s (s.setSlot ep1InReq.ix none) := by
    refine ⟨.setSlot rfl rfl, rfl, rfl, ?_, rfl⟩
    rw [setSlot_reqs, Function.update_self]
  set s₁ := completed ep1InReq (s.setSlot ep1InReq.ix none) with hs₁
  have h₁ : InTaken s s₁ := by
    refine ⟨h₀.keeps.trans (.completed rfl), rfl, rfl, h₀.slot, ?_⟩
    rw [hs₁, completed_req, Function.update_self]; rfl
  have hdone : ∀ {s₂ s' : Fb}, InTaken s s₂ → InDone s₂ s' →
      FbOk s' ∧ RoundDone s s' ep1InReq.ix := fun h₂ hd =>
    ⟨⟨h.ep0.of_keeps (h₂.keeps.ep1_in.trans hd.keeps.ep1_in), hd.inOk, h₂.ep1 h.ep1 hr hd⟩,
      .ep1In h₂ hd⟩
  refine post_usbdReqComplete.2 ⟨fun hn => hdone h₀ ?_, fun _ =>
    (h₁.notify h.inOk).mono (fun _ _ hd => hdone h₁ hd) fun _ _ h => .in_ rfl h⟩
  refine ⟨.refl _, rfl, ⟨.inl h₀.slot, h.inOk.kind⟩, .inl rfl, fun h => ?_, fun _ => .inl h₀.slot,
    id, fun h => ?_⟩
  · exact absurd (h.symm.trans hn) (by simp)
  · rw [Ends, FlashPending, hn] at h
    simp at h

/-- A round keeps the invariant. -/
theorem round_post (ix : Nat) : Post (usbdCompletions.round fbClient.call ix)
    (fun _ s' => FbOk s' ∧ RoundDone s s' ix) (RoundStops ix s) s := by
  rcases hr : s.reqs ix with _ | r
  · exact post_usbdCompletions_round.2 ⟨fun _ => .empty hr, fun r h => by simp [hr] at h⟩
  · rcases h.slot hr with ⟨rfl, rfl⟩ | ⟨rfl, rfl⟩ | ⟨rfl, rfl⟩ | ⟨rfl, rfl⟩
    · exact round_ep0Out_post h hr
    · exact round_ep1Out_post h hr
    · exact round_ep0In_post h hr
    · exact round_ep1In_post h hr

end

end ShieldLoader
