import ShieldLoader.Usbd.Completions
import ShieldLoader.Fb.Kept
import ShieldLoader.Fb.Runs

/-!
# Which request a completion is taken for

`usbd_completions` takes a bit of EPTCOMPLETE for the request that is in the slot when it comes to
the bit.
-/

namespace ShieldLoader

open EStateM Usbd PollInput Relation

/-- The parts of the callbacks of `fb.c` change slots as submissions and cancels do. -/
theorem evolved_kept (σ : Nat → Slot) : Kept (Evolved σ) where
  setReq _ _ _ h := h.of_slot rfl
  setCtx _ h := h.of_slot rfl
  store _ _ h := h.of_slot rfl
  storeBuffer _ b _ _ h := by
    cases b with
    | small => exact h.of_slot rfl
    | addr a => exact h.of_slot rfl
  submitted hslot h := h.submitted hslot
  cancelled hslot h := h.cancelled hslot
  reset h := h.of_slot rfl

theorem fbCall_acts (c : Complete FbComplete) (r : Req) : Acts (fbClient.call c r) :=
  fun σ => fbCall_kept (evolved_kept σ) c r

/-- **Completions belong to their requests exactly as long as nothing is cancelled under them**: for
bits that were set for the submissions in the slots `σ`, each round of `usbd_completions` finds that
submission in its slot if and only if the slot has seen no cancel since. -/
theorem completions_hold_iff {κ τ : Type} {call : Complete κ → Req → UsbdM κ τ Unit}
    {bits : List Nat} {σ : Nat → Slot} {s : Usbd κ τ} (hcall : ∀ c r, Acts (call c r))
    (hbits : bits.Nodup) (hfull : ∀ ix ∈ bits, (σ ix).req.isSome)
    (hσ : ∀ ix ∈ bits, ReflTransGen SlotStep (σ ix) (s.slot ix)) :
    Along (usbdCompletions.round call) (fun ix s' => (σ ix).Holds (s'.slot ix)) bits s ↔
      Along (usbdCompletions.round call) (fun ix s' => s'.cancels ix = (σ ix).cancels) bits s := by
  induction bits generalizing s with
  | nil => exact Iff.rfl
  | cons ix bits ih =>
    rw [List.nodup_cons] at hbits
    obtain ⟨hix, hbits⟩ := hbits
    rw [List.forall_mem_cons] at hfull hσ
    have hhead := SlotStep.holds_iff hσ.1 hfull.1
    -- the slots of the bits that are left have changed as submissions and cancels change them
    have hround : Post (usbdCompletions.round call ix)
        (fun _ s' => ∀ i ∈ bits, ReflTransGen SlotStep (σ i) (s'.slot i)) (fun _ _ => True) s := by
      refine (usbdCompletions_round_slots hcall ix s).imp fun _ s' h i hi => ?_
      exact (hσ.2 i hi).trans (h i fun heq => hix (heq ▸ hi))
    constructor
    · intro h
      refine ⟨hhead.1 h.1, (h.2.and hround).mono (fun _ s' hs' => ?_) fun _ _ _ => trivial⟩
      exact (ih hbits hfull.2 hs'.2).1 hs'.1
    · intro h
      refine ⟨hhead.2 h.1, (h.2.and hround).mono (fun _ s' hs' => ?_) fun _ _ _ => trivial⟩
      exact (ih hbits hfull.2 hs'.2).2 hs'.1

/-- A command is received, and in the same poll the answer to GET_CONFIGURATION has been sent. -/
theorem completions_hold_command :
    let s := finish ep0InReq.ix ⟨0, []⟩ (finish ep1OutReq.ix ⟨0x350000, bytes "oem echo a"⟩
      { waiting with
        reqs := Function.update waiting.reqs ep0InReq.ix (some ep0InReq)
        req := Function.update waiting.req ep0InReq
          ⟨false, false, .small, 0, 1, some .ep0InReqComplete⟩ })
    Along (usbdCompletions.round fbClient.call) (fun ix s' => (s.slot ix).Holds (s'.slot ix))
      [ep1OutReq.ix, ep0InReq.ix] s :=
  (completions_hold_iff fbCall_acts (by decide) (by decide) fun _ _ => .refl).2 (by decide +kernel)

/-- A response has been sent and the next command has come when a poll reads EPTCOMPLETE. The command
comes first: it cancels the response, and its own response is then taken for the one that was
sent. -/
theorem completions_mistaken :
    Post (usbdLoop fbClient [command "oem echo a"])
      (fun _ s₁ =>
        let s := finish ep1InReq.ix ⟨0, []⟩ (finish ep1OutReq.ix ⟨0x350000, bytes "oem echo b"⟩ s₁)
        (∀ ix ∈ [ep1OutReq.ix, ep1InReq.ix], s₁.primed ix ∧ (s.slot ix).req.isSome) ∧
        ¬Along (usbdCompletions.round fbClient.call) (fun ix s' => (s.slot ix).Holds (s'.slot ix))
          [ep1OutReq.ix, ep1InReq.ix] s ∧
        Post (usbdCompletions fbClient.call [ep1OutReq.ix, ep1InReq.ix])
          (fun _ s' => s'.ctx.inCommand = false ∧ s'.primed ep1InReq.ix) (fun _ _ => False) s)
      (fun _ _ => False) waiting := by
  decide +kernel

end ShieldLoader
