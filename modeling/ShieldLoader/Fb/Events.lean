import ShieldLoader.Fb.Transfers

/-!
# The events of a poll

A poll clears all bits of USBSTS that it has read, and one of the handlers runs for them: SLI goes
before a reset of the bus, and the port change has the rest, since the test for its bit has `&&`.
-/

namespace ShieldLoader

open EStateM Usbd

section
variable {κ τ : Type} {cl : Client κ τ} {inp : PollInput} {s : Usbd κ τ}

/-- The handler that runs for a status. -/
theorem usbdPoll_of_usbsts (h : inp.usbsts ≠ 0) : usbdPoll cl inp =
    if inp.usbsts &&& usbstsSli ≠ 0 then usbdInit cl
    else if inp.usbsts &&& usbstsReset ≠ 0 then usbdPortReset cl
    else usbdPortChange cl inp.usbdevlc := by
  have hpc : inp.usbsts ≠ 0 ∧ usbstsPortChange ≠ 0 := ⟨h, by decide⟩
  rw [usbdPoll, if_pos h, if_pos hpc]

/-- `hs` and `descs` are those of the speed in USBDEVLC, where `usbd_port_change` knows it. -/
def SpeedFrom (cl : Client κ τ) (usbdevlc : UInt32) (s : Usbd κ τ) : Prop :=
  (usbdevlc >>> 25 &&& 3 = 0 → s.hs = false ∧ s.descs = some cl.fsDescs) ∧
  (usbdevlc >>> 25 &&& 3 = 2 → s.hs = true ∧ s.descs = some cl.hsDescs)

theorem usbdPortChange_speed (usbdevlc : UInt32) :
    Post (usbdPortChange cl usbdevlc) (fun _ => SpeedFrom cl usbdevlc) (fun _ _ => False) s := by
  simp only [usbdPortChange, post_ite, post_bind, post_modify, post_pure]
  refine ⟨fun h0 => ?_, fun h0 => ⟨fun h2 => ?_, fun h2 => ?_⟩⟩
  · exact ⟨fun _ => ⟨rfl, rfl⟩, fun h2 => absurd (h0.symm.trans h2) (by decide)⟩
  · exact ⟨fun h0' => absurd h0' h0, fun _ => ⟨rfl, rfl⟩⟩
  · exact ⟨fun h0' => absurd h0' h0, fun h2' => absurd h2' h2⟩

end

/-- The events in the status `st`, and no others, are handled by each poll that clears it. -/
structure Handles (st : UInt32) : Prop where
  /-- A port change sets the speed. -/
  portChange : st &&& usbstsPortChange ≠ 0 →
    ∀ {κ τ : Type} (cl : Client κ τ) (inp : PollInput) (s : Usbd κ τ), inp.usbsts = st →
      Post (usbdPoll cl inp) (fun _ => SpeedFrom cl inp.usbdevlc) (fun _ _ => False) s
  /-- Without one nothing depends on the speed of the port. -/
  noPortChange : st &&& usbstsPortChange = 0 →
    ∀ {κ τ : Type} (cl : Client κ τ) (inp : PollInput) (s : Usbd κ τ), inp.usbsts = st →
      ∀ usbdevlc, usbdPoll cl { inp with usbdevlc } s = usbdPoll cl inp s
  /-- A reset is done by `usbd_port_reset` or as a part of `usbd_init`. -/
  reset : st &&& usbstsReset ≠ 0 →
    ∀ {κ τ : Type} (cl : Client κ τ) (inp : PollInput) (s : Usbd κ τ), inp.usbsts = st →
      usbdPoll cl inp s = if st &&& usbstsSli ≠ 0 then usbdInit cl s else usbdPortReset cl s
  /-- Another status is an error. -/
  error : st &&& usbstsSli = 0 → st &&& usbstsReset = 0 → st &&& usbstsPortChange = 0 →
    ∀ {κ τ : Type} (cl : Client κ τ) (inp : PollInput) (s : Usbd κ τ), inp.usbsts = st →
      Post (usbdPoll cl inp) (fun status _ => status = .usbstsError) (fun _ _ => False) s

section
variable {st : UInt32}

/-- A port change that comes with another event is lost. -/
theorem portChange_lost (h0 : st ≠ 0) (h : st &&& usbstsSli ≠ 0 ∨ st &&& usbstsReset ≠ 0) :
    Post (usbdPoll fbClient ⟨st, 0x4000000, fun _ => none, []⟩)
      (fun _ s' => s'.hs = false ∧ s'.descs = none) (fun _ _ => False) machine := by
  rw [usbdPoll_of_usbsts h0]
  dsimp only
  split
  · decide +kernel
  · next hsli =>
    rw [if_pos (h.resolve_left hsli)]
    decide +kernel

/-- A port change is handled without the bit for it. -/
theorem portChange_unreported (h0 : st ≠ 0) (hsli : st &&& usbstsSli = 0)
    (hreset : st &&& usbstsReset = 0) :
    Post (usbdPoll fbClient ⟨st, 0, fun _ => none, []⟩)
      (fun status s' => status = .success ∧ s'.descs = some fbClient.fsDescs)
      (fun _ _ => False) machine := by
  rw [usbdPoll_of_usbsts h0]
  dsimp only
  rw [if_neg (not_not.2 hsli), if_neg (not_not.2 hreset)]
  decide +kernel

theorem Handles.alone (h0 : st ≠ 0) (h : Handles st) (hpc : st &&& usbstsPortChange ≠ 0) :
    st &&& usbstsSli = 0 ∧ st &&& usbstsReset = 0 := by
  by_contra hne
  have hlost := portChange_lost h0 (by rwa [not_and_or] at hne)
  have hmode : (0x4000000 : UInt32) >>> 25 &&& 3 = 2 := by decide
  exact ((h.portChange hpc fbClient _ machine rfl).and hlost).mono
    (fun _ s' h' => absurd ((h'.1.2 hmode).1.symm.trans h'.2.1) (by decide))
    (fun _ _ h' => h'.1) |>.const

theorem Handles.reported (h0 : st ≠ 0) (h : Handles st) (hsli : st &&& usbstsSli = 0)
    (hreset : st &&& usbstsReset = 0) : st &&& usbstsPortChange ≠ 0 := by
  intro hpc
  have hrun := portChange_unreported h0 hsli hreset
  exact ((h.error hsli hreset hpc fbClient _ machine rfl).and hrun).mono
    (fun _ s' h' => absurd (h'.1.symm.trans h'.2.1) (by decide)) (fun _ _ h' => h'.1) |>.const

/-- **Events of a poll**: all events of a status are handled, and no others, exactly if the port has
changed or another event is there, but not both. -/
theorem usbdPoll_handles_iff (h0 : st ≠ 0) : Handles st ↔
    (st &&& usbstsPortChange ≠ 0 ↔ st &&& usbstsSli = 0 ∧ st &&& usbstsReset = 0) := by
  constructor
  · intro h
    exact ⟨h.alone h0, fun hne => h.reported h0 hne.1 hne.2⟩
  · intro h
    constructor
    · intro hpc κ τ cl inp s hst
      obtain ⟨hsli, hreset⟩ := h.1 hpc
      rw [usbdPoll_of_usbsts (hst ▸ h0), hst, if_neg (not_not.2 hsli), if_neg (not_not.2 hreset)]
      exact usbdPortChange_speed inp.usbdevlc
    · intro hpc κ τ cl inp s hst usbdevlc
      have hother : ¬(st &&& usbstsSli = 0 ∧ st &&& usbstsReset = 0) := fun hne => h.2 hne hpc
      rw [@usbdPoll_of_usbsts κ τ cl { inp with usbdevlc } (hst ▸ h0),
        usbdPoll_of_usbsts (hst ▸ h0), hst]
      by_cases hsli : st &&& usbstsSli = 0
      · have hreset : st &&& usbstsReset ≠ 0 := fun h' => hother ⟨hsli, h'⟩
        rw [if_neg (not_not.2 hsli), if_neg (not_not.2 hsli), if_pos hreset, if_pos hreset]
      · rw [if_pos hsli, if_pos hsli]
    · intro hreset κ τ cl inp s hst
      rw [usbdPoll_of_usbsts (hst ▸ h0), hst, if_pos hreset]
      split <;> rfl
    · intro hsli hreset hpc
      exact absurd hpc (h.2 ⟨hsli, hreset⟩)

end

/-- A port change alone. -/
theorem usbdPoll_handles_portChange : Handles 0x4 ↔
    (0x4 &&& usbstsPortChange ≠ 0 ↔ 0x4 &&& usbstsSli = 0 ∧ 0x4 &&& usbstsReset = 0) :=
  usbdPoll_handles_iff (by decide)

/-- The port changes its speed with a reset of the bus: the device has no descriptors then, and
stalls the request for one. An interrupt that is none of the events is taken for a port change. -/
theorem events_mishandled :
    ¬Handles 0x44 ∧ Post ([⟨0x44, 0x4000000, fun _ => none, []⟩,
        .packet ⟨usbReqDevR, usbReqGetDescriptor, 0x100, 0, 18⟩].forM fbPoll)
      (fun _ s' => s'.hs = false ∧ s'.descs = none ∧ s'.epCtrl 0 = epCtrlRxs ||| epCtrlTxs)
      (fun _ _ => False) machine ∧
    ¬Handles 0x1 ∧ Post (usbdPoll fbClient ⟨0x1, 0, fun _ => none, []⟩)
      (fun status s' => status = .success ∧ s'.descs = some fbClient.fsDescs)
      (fun _ _ => False) machine := by
  refine ⟨fun h => ?_, by decide +kernel, fun h => ?_, by decide +kernel⟩
  · exact absurd (h.alone (by decide) (by decide)) (by decide)
  · exact absurd (h.reported (by decide) (by decide) (by decide)) (by decide)

end ShieldLoader
