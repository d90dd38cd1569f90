import ShieldLoader.Usbd.Rules

/-!
# The steps of a poll

`usbd_poll` is a sequence of small steps: a round of one of its loops, or a call between them. What
holds over a run of polls is proved for each kind of step.
-/

namespace ShieldLoader

open EStateM

/-- A step of a poll. -/
inductive UsbdStep where
  /-- `usbd_init`, for a suspend. -/
  | init
  /-- A reset of the bus starts. -/
  | flush
  /-- A round of the first loop of `usbd_port_reset`. -/
  | sweep (ix : Nat)
  /-- The second loop of `usbd_port_reset`, and `port_reset`. -/
  | disable
  /-- `usbd_port_change`. -/
  | change (usbdevlc : UInt32)
  /-- EPTCOMPLETE is read. -/
  | finish (finished : Nat → Option Finish)
  /-- A round of `usbd_completions`. -/
  | complete (ix : Nat)
  /-- A round of `usbd_port_setup`. -/
  | setup (ix : Nat) (rq : UsbCtrlrequest)

section
variable {κ τ : Type} (cl : Client κ τ)

/-- The code of a step. -/
def UsbdStep.run : UsbdStep → UsbdM κ τ Unit
  | .init => discard (usbdInit cl)
  | .flush => usbdHwEpFlush none false
  | .sweep ix => usbdPortReset.sweep cl.call ix
  | .disable => do
    (List.range maxEps).forM fun i => usbdHwEpInit i .none .none
    match cl.portReset with
    | none => pure ()
    | some portReset => discard portReset
  | .change usbdevlc => discard (usbdPortChange cl usbdevlc)
  | .finish finished => modify (Usbd.finishAll finished)
  | .complete ix => usbdCompletions.round cl.call ix
  | .setup ix rq => usbdPortSetup.round cl ix rq

/-- The steps of a poll. -/
def PollInput.steps (inp : PollInput) : List UsbdStep :=
  if inp.usbsts ≠ 0 then
    if inp.usbsts &&& usbstsSli ≠ 0 then [.init]
    else if inp.usbsts &&& usbstsReset ≠ 0 then
      .flush :: ((List.range maxReqs).map .sweep ++ [.disable])
    else [.change inp.usbdevlc]
  else
    .finish inp.finished :: (inp.complete.map .complete ++ inp.setups.map fun p => .setup p.1 p.2)

theorem discard_bind {m : Type → Type} [Monad m] [LawfulMonad m] {α β : Type} (x : m α)
    (f : α → m β) : discard (x >>= f) = x >>= fun a => discard (f a) := by
  simp only [Functor.discard, map_const, Function.comp, map_bind]

@[simp] theorem discard_const {m : Type → Type} [Monad m] [LawfulMonad m] {α : Type} (a : α)
    (x : m PUnit) : discard ((fun _ => a) <$> x) = x := by
  rw [Functor.discard, map_const, Function.comp, ← comp_map]
  exact id_map x

/-- A poll carries out its steps in their order. -/
theorem usbdPoll_steps (inp : PollInput) :
    discard (usbdPoll cl inp) = inp.steps.forM (·.run cl) := by
  rw [usbdPoll, PollInput.steps]
  by_cases hsts : inp.usbsts = 0
  · simp [hsts, discard_bind, UsbdStep.run, usbdPortSetup, usbdCompletions]
  by_cases hsli : inp.usbsts &&& usbstsSli = 0
  · by_cases hreset : inp.usbsts &&& usbstsReset = 0
    · have hchange : usbstsPortChange ≠ 0 := by decide
      simp [hsts, hsli, hreset, hchange, UsbdStep.run]
    · cases hp : cl.portReset with
      | none =>
        simp [hsts, hsli, hreset, hp, discard_bind, UsbdStep.run, usbdPortReset]
      | some portReset =>
        simp [hsts, hsli, hreset, hp, discard_bind, UsbdStep.run, usbdPortReset]
  · simp [hsts, hsli, UsbdStep.run]

/-- The loop at the end of `fb_launch`, for the polls of a run. -/
def usbdLoop (inps : List PollInput) : UsbdM κ τ Unit :=
  inps.forM fun inp => discard (usbdPoll cl inp)

theorem usbdLoop_steps (inps : List PollInput) :
    usbdLoop cl inps = (inps.flatMap PollInput.steps).forM (·.run cl) := by
  induction inps with
  | nil => rfl
  | cons inp inps ih =>
    rw [List.flatMap_cons]
    simp only [usbdLoop, List.forM_eq_forM, List.forM_cons, List.forM_append] at ih ⊢
    rw [ih, usbdPoll_steps, List.forM_eq_forM]

/-! ### Polls with one completion -/

/-- A poll that finds one transfer finished. -/
def PollInput.transfer (ix : Nat) (f : Finish) : PollInput :=
  ⟨0, 0, fun i => if i = ix then some f else none, []⟩

theorem PollInput.transfer_complete {ix : Nat} (h : ix < maxReqs) (f : Finish) :
    (PollInput.transfer ix f).complete = [ix] := by
  have hone : ∀ l : List Nat, l.Nodup → ix ∈ l →
      l.filter (fun i => ((PollInput.transfer ix f).finished i).isSome) = [ix] := by
    intro l hl hix
    have hfun : (fun i => ((PollInput.transfer ix f).finished i).isSome) = (· == ix) := by
      funext i
      by_cases hi : i = ix <;> simp [transfer, hi]
    rw [hfun, List.filter_beq, hl.count, if_pos hix]
    rfl
  exact hone _ List.nodup_range (List.mem_range.2 h)

theorem Usbd.finishAll_transfer {ix : Nat} (h : ix < maxReqs) (f : Finish) (s : Usbd κ τ) :
    finishAll (PollInput.transfer ix f).finished s = finish ix f s := by
  have hnone : ∀ l : List Nat, ix ∉ l → ∀ s : Usbd κ τ, l.foldl
      (fun s i => (((PollInput.transfer ix f).finished i).map (finish i · s)).getD s) s = s := by
    intro l
    induction l with
    | nil => exact fun _ _ => rfl
    | cons i l ih =>
      intro hix s
      rw [List.mem_cons, not_or] at hix
      rw [List.foldl_cons, PollInput.transfer]
      dsimp only
      rw [if_neg (Ne.symm hix.1)]
      exact ih hix.2 s
  obtain ⟨l₁, l₂, hl⟩ := List.append_of_mem (List.mem_range.2 h)
  have hnodup := List.nodup_range (n := maxReqs)
  rw [hl, List.nodup_append, List.nodup_cons] at hnodup
  have h₁ : ix ∉ l₁ := fun hi => hnodup.2.2 ix hi ix (by simp) rfl
  rw [finishAll, hl, List.foldl_append, hnone l₁ h₁, List.foldl_cons, hnone l₂ hnodup.2.1.1]
  simp [PollInput.transfer]

/-- A poll that finds one transfer finished completes it. -/
theorem post_usbdPoll_transfer {ix : Nat} (h : ix < maxReqs) (f : Finish) {s : Usbd κ τ}
    {Q : PUnit → Usbd κ τ → Prop} {E : Halt → Usbd κ τ → Prop} :
    Post (discard (usbdPoll cl (.transfer ix f))) Q E s ↔
      Post (usbdCompletions.round cl.call ix) Q E (Usbd.finish ix f s) := by
  have hsteps : (PollInput.transfer ix f).steps =
      [.finish (PollInput.transfer ix f).finished, .complete ix] := by
    rw [PollInput.steps, PollInput.transfer_complete h]
    rfl
  rw [usbdPoll_steps, hsteps, post_forM_cons, UsbdStep.run, post_modify, Usbd.finishAll_transfer h,
    post_forM_singleton, UsbdStep.run]

end

end ShieldLoader
