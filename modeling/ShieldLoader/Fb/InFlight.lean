import ShieldLoader.Fb.Runs

/-!
# No request is submitted twice

A step of a run finds a slot taken that it submits to only in the situations that `ep1Good` and
`ep0Good` leave out.
-/

namespace ShieldLoader

open EStateM Usbd PollInput

/-! ### Endpoint 1 -/

/-- The slots of endpoint 1 are empty where the step submits a request. A command that arrives in
this step finds the IN slot empty or is going to cancel the response in it, and no text for which an
`OKAY` follows; the last chunk of a download, and a reset of the bus after it, find the IN slot
empty; and SET_CONFIGURATION sets configuration 1 anew only with the OUT slot empty. -/
def ep1Good (st : UsbdStep) (s : Fb) : Prop :=
  match st with
  | .complete ix => ix = ep1OutReq.ix → ¬OutBlame (s.failed ix) (remDone s) s
  | .sweep ix => ix = ep1OutReq.ix → ¬OutBlame true s.ctx.loadRem s
  | .setup ix rq => ix = 0 → s.Configures rq 1 → s.reqs ep1OutReq.ix = none
  | _ => True

instance (st : UsbdStep) (s : Fb) : Decidable (ep1Good st s) :=
  match st with
  | .complete ix => inferInstanceAs (Decidable (ix = _ → ¬OutBlame _ _ _))
  | .sweep ix => inferInstanceAs (Decidable (ix = _ → ¬OutBlame _ _ _))
  | .setup ix rq => inferInstanceAs (Decidable (ix = 0 → s.Configures rq 1 → _ = none))
  | .init | .flush | .disable | .change _ | .finish _ => isTrue trivial

theorem CallStops.ne_inFlight {s s' : Fb} {blame : Prop} {e : Halt} (h : CallStops s blame e s')
    (hb : ¬blame) (ix : Nat) : e ≠ .inFlight ix := by
  rintro rfl
  cases h with
  | inFlight h => exact hb h

theorem ep1Good.stops {s s' : Fb} {st : UsbdStep} {e : Halt} (hg : ep1Good st s)
    (h : StepStops s st e s') {r : Req} (hr : Ep1 r) : e ≠ .inFlight r.ix := by
  have hne : ∀ r', Ep0 r' → Halt.inFlight r'.ix ≠ .inFlight r.ix := by
    rintro _ (rfl | rfl) <;> rcases hr with rfl | rfl <;> decide
  cases h with
  | init h => exact h.ne_inFlight id _
  | sweep h =>
    cases h with
    | out hix h => exact absurd h (hg hix)
    | in_ hix h => exact h.ne_inFlight id _
  | complete h =>
    cases h with
    | empty h => simp
    | ep0 hix h hst => exact hne _ (.inl rfl)
    | out hix h => exact h.ne_inFlight (hg hix) _
    | in_ hix h => exact h.ne_inFlight id _
  | setup h =>
    cases h with
    | ep0 hyes hset h => exact hne _ (.inr rfl)
    | enabled hrq h => exact absurd (hg rfl hrq) h
    | deconfigured hrq h => exact h.ne_inFlight id _

/-- **No request of endpoint 1 is submitted while it is in flight**, in a run whose steps all find
the slots empty that they submit to. -/
theorem ep1_not_in_flight {m : Fb} (hm : NoReqs m) {size fdt : UInt64} {inps : List PollInput}
    (hgood : FbAlong ep1Good size fdt inps m) :
    Post (fbRun size fdt inps) (fun _ _ => True) (fun e _ => ∀ r, Ep1 r → e ≠ .inFlight r.ix) m := by
  refine (fbRun_post hm hgood ?_ fun st s e s' _ hg h r hr => hg.stops h hr).imp fun _ _ _ => trivial
  rintro _ - (rfl | rfl | ⟨type, rfl⟩) r - <;> simp

/-- A second command comes before the host has read the response to the first one, which sends an
`OKAY` after it. -/
theorem ep1_in_flight : NoReqs machine ∧
    FbAlong Reported 0x2000 0 [setConfig 1, command "oem smccc 0", command "oem echo a"] machine ∧
    Post (fbRun 0x2000 0 [setConfig 1, command "oem smccc 0", command "oem echo a"])
      (fun _ _ => False) (fun e _ => e = .inFlight ep1InReq.ix) machine :=
  ⟨rfl, by decide +kernel, by decide +kernel⟩

theorem ep1_not_in_flight_download :
    Post (fbRun 0x2000 0 [setConfig 1, command "oem echo a", sent, command "download:8", sent,
      received (bytes "12345678"), sent, sent, command "oem free 0 0 1"]) (fun _ _ => True)
      (fun e _ => ∀ r, Ep1 r → e ≠ .inFlight r.ix) machine := by
  refine @ep1_not_in_flight machine rfl 0x2000 0 _ ?_
  decide +kernel

/-! ### Endpoint 0 -/

/-- The slots of endpoint 0 are empty where the step submits a request: the data stage of a control
transfer ends with the OUT slot empty, and a SETUP packet that is answered finds the IN slot
empty. -/
def ep0Good (st : UsbdStep) (s : Fb) : Prop :=
  match st with
  | .complete ix => ix = ep0InReq.ix → StatusStage s → s.reqs ep0OutReq.ix = none
  | .setup ix rq => ix = 0 → s.Answers rq → s.SetsConfig rq → s.reqs ep0InReq.ix = none
  | _ => True

instance (st : UsbdStep) (s : Fb) : Decidable (ep0Good st s) :=
  match st with
  | .complete ix => inferInstanceAs (Decidable (ix = _ → StatusStage s → _ = none))
  | .setup ix rq => inferInstanceAs (Decidable (ix = 0 → s.Answers rq → s.SetsConfig rq → _ = none))
  | .init | .flush | .sweep _ | .disable | .change _ | .finish _ => isTrue trivial

theorem CallStops.ne_ep0 {s s' : Fb} {blame : Prop} {e : Halt} (h : CallStops s blame e s')
    {r : Req} (hr : Ep0 r) : e ≠ .inFlight r.ix := by
  rintro rfl
  rcases hr with rfl | rfl
  · cases h
  · cases h

theorem ep0Good.stops {s s' : Fb} {st : UsbdStep} {e : Halt} (hg : ep0Good st s)
    (h : StepStops s st e s') {r : Req} (hr : Ep0 r) : e ≠ .inFlight r.ix := by
  cases h with
  | init h => exact h.ne_ep0 hr
  | sweep h =>
    cases h with
    | out hix h => rcases hr with rfl | rfl <;> decide
    | in_ hix h => exact h.ne_ep0 hr
  | complete h =>
    cases h with
    | empty h => simp
    | ep0 hix h hst => exact absurd (hg hix hst) h
    | out hix h => exact h.ne_ep0 hr
    | in_ hix h => exact h.ne_ep0 hr
  | setup h =>
    cases h with
    | ep0 hyes hset h => exact absurd (hg rfl hyes hset) h
    | enabled hrq h =>
      intro h
      rcases hr with rfl | rfl
      · exact absurd h (by decide)
      · exact absurd h (by decide)
    | deconfigured hrq h => exact h.ne_ep0 hr

/-- **No request of endpoint 0 is submitted while it is in flight**, in a run whose control
transfers all end before the next one. -/
theorem ep0_not_in_flight {m : Fb} (hm : NoReqs m) {size fdt : UInt64} {inps : List PollInput}
    (hgood : FbAlong ep0Good size fdt inps m) :
    Post (fbRun size fdt inps) (fun _ _ => True) (fun e _ => ∀ r, Ep0 r → e ≠ .inFlight r.ix) m := by
  refine (fbRun_post hm hgood ?_ fun st s e s' _ hg h r hr => hg.stops h hr).imp fun _ _ _ => trivial
  rintro _ - (rfl | rfl | ⟨type, rfl⟩) r - <;> simp

/-- A second control transfer begins before the data stage of the first one has ended. -/
theorem ep0_in_flight : NoReqs machine ∧ FbAlong Reported 0x2000 0 [getConfig, getConfig] machine ∧
    Post (fbRun 0x2000 0 [getConfig, getConfig]) (fun _ _ => False)
      (fun e _ => e = .inFlight ep0InReq.ix) machine :=
  ⟨rfl, by decide +kernel, by decide +kernel⟩

theorem ep0_not_in_flight_getConfig :
    Post (fbRun 0x2000 0 [getConfig, done ep0InReq.ix 0 [], done ep0OutReq.ix 0 [], setConfig 1,
      done ep0InReq.ix 0 [], getConfig]) (fun _ _ => True)
      (fun e _ => ∀ r, Ep0 r → e ≠ .inFlight r.ix) machine := by
  refine @ep0_not_in_flight machine rfl 0x2000 0 _ ?_
  decide +kernel

end ShieldLoader
