import ShieldLoader.Usbd.Steps
import Mathlib.Data.Vector.Basic
import Mathlib.Data.List.FinRange

/-!
# SETUP packets

The controller writes a SETUP packet into the setup buffer of the queue head of endpoint 0 and sets
the bit of EPTSETUPST, and may do so between any two accesses of the program. Here the accesses of
`usbd_poll` to that buffer and that bit are steps of their own. The rest of its code runs a step of
`UsbdStep` at a time: it looks at neither, so that a packet may as well come before or after it.
-/

namespace ShieldLoader

open EStateM

/-- The bytes of a SETUP packet. -/
abbrev SetupPacket := Vector UInt8 8

/-- The `usb_ctrlrequest` with the bytes of a packet. -/
def UsbCtrlrequest.ofPacket (p : SetupPacket) : UsbCtrlrequest :=
  let word (lo hi : UInt8) : UInt16 := hi.toUInt16 <<< 8 ||| lo.toUInt16
  ⟨p[0], p[1], word p[2] p[3], word p[4] p[5], word p[6] p[7]⟩

/-- The rounds of `usbd_port_setup`. -/
def setupSteps (setups : List (Nat × UsbCtrlrequest)) : List UsbdStep :=
  setups.map fun p => .setup p.1 p.2

/-- What comes after the code before EPTSETUPST. -/
inductive SetupNext where
  /-- `usbd_poll` returns. -/
  | done
  /-- USBCMD_RESET is written. -/
  | reset
  /-- EPTSETUPST is read. The bits of these other endpoints are set. -/
  | read (setups : List (Nat × UsbCtrlrequest))

/-- Where the program is. -/
inductive SetupPc where
  /-- Between two polls. -/
  | idle
  /-- `usbd_port_reset` is about to read EPTSETUPST. -/
  | discard (l : List UsbdStep)
  /-- `usbd_port_reset` is about to write back what it has read. -/
  | discarded (setupst : Bool) (l : List UsbdStep)
  /-- Code that leaves the setup buffer alone, but for submissions. -/
  | code (l : List UsbdStep) (next : SetupNext)
  /-- `usbd_qh_init` clears these bytes of the setup buffer. -/
  | clear (bytes : List (Fin 8)) (l : List UsbdStep) (next : SetupNext)
  /-- `usbd_port_setup` copies these bytes of the setup buffer. -/
  | copy (bytes : List (Fin 8)) (setups : List (Nat × UsbCtrlrequest))
  /-- The bit is about to be cleared. -/
  | acknowledge (setups : List (Nat × UsbCtrlrequest))
  /-- The loop that waits until it is clear. -/
  | confirm (setups : List (Nat × UsbCtrlrequest))

/-- The program and the controller. -/
structure SetupSys (κ τ : Type) where
  usbd : Usbd κ τ
  pc : SetupPc
  /-- `setup_buffer` of endpoint 0. -/
  buffer : SetupPacket
  /-- The bit of endpoint 0. -/
  eptsetupst : Bool
  /-- `request` of `usbd_port_setup`. -/
  request : SetupPacket
  /-- The packets that have come, but for those that another one has overwritten before the program
  had read a byte. -/
  due : List SetupPacket
  /-- No byte of the last packet has been read. -/
  unread : Bool
  /-- The packets that `usbd_ep0_setup` was called with. -/
  handed : List SetupPacket
  /-- How many packets were due when EPTSETUPST was last read. -/
  seen : Nat

section
variable {κ τ : Type}

namespace SetupSys

/-- A packet comes. -/
def arrive (p : SetupPacket) (s : SetupSys κ τ) : SetupSys κ τ :=
  { s with
    buffer := p
    eptsetupst := true
    due := (if s.unread then s.due.dropLast else s.due) ++ [p]
    unread := true }

/-- Code of the driver. -/
def run (x : UsbdM κ τ Unit) : EStateM Halt (SetupSys κ τ) Unit := fun s =>
  match x s.usbd with
  | .ok a usbd => .ok a { s with usbd }
  | .error e usbd => .error e { s with usbd }

/-- The bytes of the setup buffer that submissions clear, in their order. -/
def cleared (s s' : SetupSys κ τ) : List (Fin 8) :=
  (List.replicate (s'.usbd.submits ep0OutReq.ix - s.usbd.submits ep0OutReq.ix)
    (List.finRange 8)).flatten

/-- The next access of the program. -/
def access (cl : Client κ τ) : EStateM Halt (SetupSys κ τ) Unit := do
  let s ← get
  match s.pc with
  | .idle => pure ()
  | .discard l => set { s with pc := .discarded s.eptsetupst l }
  | .discarded setupst l =>
    set { s with eptsetupst := s.eptsetupst && !setupst, pc := .code l .done }
  | .code (st :: l) next =>
    run (st.run cl)
    modify fun s' => { s' with pc := .clear (cleared s s') l next }
  | .code [] .done => set { s with pc := .idle }
  | .code [] .reset => set { s with eptsetupst := false, pc := .idle }
  | .code [] (.read setups) =>
    set
      { s with
        seen := s.due.length
        pc :=
          if s.eptsetupst then .copy (List.finRange 8) setups
          else .code (setupSteps setups) .done }
  | .clear [] l next => set { s with pc := .code l next }
  | .clear (i :: is) l next => set { s with buffer := s.buffer.set i 0, pc := .clear is l next }
  | .copy [] setups => set { s with pc := .acknowledge setups }
  | .copy (i :: is) setups =>
    set { s with request := s.request.set i s.buffer[i], unread := false, pc := .copy is setups }
  | .acknowledge setups => set { s with eptsetupst := false, pc := .confirm setups }
  | .confirm setups =>
    if s.eptsetupst then pure ()
    else
      set
        { s with
          handed := s.handed ++ [s.request]
          pc := .code (setupSteps ((0, .ofPacket s.request) :: setups)) .done }

end SetupSys

/-- The start of a poll. The packets of endpoint 0 are not taken from its input. -/
def PollInput.pc (inp : PollInput) : SetupPc :=
  let l := PollInput.steps { inp with setups := [] }
  if inp.usbsts ≠ 0 then
    if inp.usbsts &&& usbstsSli ≠ 0 then .code l .reset
    else if inp.usbsts &&& usbstsReset ≠ 0 then .discard l
    else .code l .done
  else .code l (.read (inp.setups.filter fun p => p.1 ≠ 0))

/-- What happens next. -/
inductive SetupEvent where
  | arrive (p : SetupPacket)
  | poll (inp : PollInput)
  | access

/-- The program polls when its last poll is over. -/
def SetupEvent.run (cl : Client κ τ) : SetupEvent → EStateM Halt (SetupSys κ τ) Unit
  | .arrive p => modify (SetupSys.arrive p)
  | .poll inp => modify fun s =>
    match s.pc with
    | .idle => { s with pc := inp.pc }
    | _ => s
  | .access => SetupSys.access cl

/-! ### When packets are safe -/

/-- The program has read some of the packet and has not seen the bit clear. -/
def SetupPc.Copying : SetupPc → Prop
  | .copy is _ => is ≠ List.finRange 8
  | .acknowledge _ | .confirm _ => True
  | _ => False

/-- The program is between EPTSETUPST and the call of `usbd_ep0_setup`. -/
def SetupPc.Reads : SetupPc → Prop
  | .copy _ _ | .acknowledge _ | .confirm _ => True
  | _ => False

/-- A measure of what is left of the code after the steps. -/
def SetupNext.rank : SetupNext → Nat
  | .done | .reset => 0
  | .read setups => setups.length + 2

/-- A measure of what is left of a poll: the steps, and the accesses up to the next one. -/
def SetupPc.rank : SetupPc → Nat × Nat
  | .idle => (0, 0)
  | .discard l => (l.length, 3)
  | .discarded _ l => (l.length, 2)
  | .code l next => (l.length + next.rank, 1)
  | .clear is l next => (l.length + next.rank, is.length + 2)
  | .copy is setups => (setups.length + 1, is.length + 4)
  | .acknowledge setups => (setups.length + 1, 3)
  | .confirm setups => (setups.length + 1, 2)

/-- The next access clears a byte of the setup buffer, or the bit without a copy. -/
def SetupPc.Clearing : SetupPc → Prop
  | .clear (_ :: _) _ _ | .discarded true _ | .code [] .reset => True
  | _ => False

/-- No packet comes while one is copied and acknowledged, and when endpoint 0 is primed for an OUT
transfer, or the bus or the controller is reset, there is none in the buffer. -/
def SetupEvent.Safe (ev : SetupEvent) (s : SetupSys κ τ) : Prop :=
  match ev with
  | .arrive _ => ¬s.pc.Copying
  | .poll _ => True
  | .access => s.pc.Clearing → s.eptsetupst = false

/-- Every packet is handed over once, in the order in which they came: at most the last one has not
been handed over, and none that was there when a poll read EPTSETUPST once that poll is over. The
loop that waits for the bit ends. -/
structure SetupSys.Delivered (s : SetupSys κ τ) : Prop where
  handed : s.handed <+: s.due
  waiting : s.due.length ≤ s.handed.length + 1
  polled : s.pc = .idle → s.seen ≤ s.handed.length
  ends : ∀ setups, s.pc = .confirm setups → s.eptsetupst = false

/-! ### Steps -/

theorem PollInput.not_reads_pc (inp : PollInput) : ¬inp.pc.Reads := by
  rw [PollInput.pc]
  split_ifs <;> exact id

namespace SetupSys

variable {s : SetupSys κ τ}

theorem post_run {x : UsbdM κ τ Unit} {Q : PUnit → SetupSys κ τ → Prop}
    {E : Halt → SetupSys κ τ → Prop} : Post (run x) Q E s ↔
      Post x (fun a usbd => Q a { s with usbd }) (fun e usbd => E e { s with usbd }) s.usbd := by
  rw [post_iff, post_iff]
  simp only [run]
  cases x s.usbd with
  | ok a usbd => simp
  | error e usbd => simp

/-- Nothing is being copied: the last packet is in the buffer, or has been handed over. -/
structure Settled (s : SetupSys κ τ) : Prop where
  unread : s.unread = s.eptsetupst
  due : s.due = s.handed ++ if s.eptsetupst then [s.buffer] else []
  seen : s.seen ≤ s.handed.length

/-- The last packet has not been handed over, and is `p`. -/
structure Reading (p : SetupPacket) (s : SetupSys κ τ) : Prop where
  due : s.due = s.handed ++ [p]
  seen : s.seen ≤ s.handed.length + 1

/-- What holds between two accesses. -/
inductive Inv (s : SetupSys κ τ) : Prop
  | settled (hpc : ¬s.pc.Reads) (h : s.Settled)
  | copy {is : List (Fin 8)} {setups : List (Nat × UsbCtrlrequest)} (hpc : s.pc = .copy is setups)
      (h : s.Reading s.buffer) (hbit : s.eptsetupst = true) (hsuf : is <:+ List.finRange 8)
      (hunread : s.unread = true ↔ is = List.finRange 8)
      (hcopied : ∀ j ∉ is, s.request[j] = s.buffer[j])
  | acknowledge {setups : List (Nat × UsbCtrlrequest)} (hpc : s.pc = .acknowledge setups)
      (h : s.Reading s.request) (hunread : s.unread = false)
  | confirm {setups : List (Nat × UsbCtrlrequest)} (hpc : s.pc = .confirm setups)
      (h : s.Reading s.request) (hunread : s.unread = false) (hbit : s.eptsetupst = false)

theorem Settled.delivered (h : s.Settled) (hpc : ¬s.pc.Reads) : s.Delivered where
  handed := h.due ▸ List.prefix_append _ _
  waiting := by
    rw [h.due, List.length_append]
    split <;> simp
  polled _ := h.seen
  ends setups hc := absurd (by rw [hc]; trivial) hpc

theorem Reading.delivered {p : SetupPacket} (h : s.Reading p) (hpc : s.pc.Reads)
    (hends : ∀ setups, s.pc = .confirm setups → s.eptsetupst = false) : s.Delivered where
  handed := h.due ▸ List.prefix_append _ _
  waiting := by rw [h.due, List.length_append, List.length_singleton]
  polled hc := by
    rw [hc] at hpc
    exact hpc.elim
  ends := hends

theorem Inv.delivered (h : s.Inv) : s.Delivered := by
  cases h with
  | settled hpc h => exact h.delivered hpc
  | copy hpc h =>
    exact h.delivered (by rw [hpc]; trivial) fun _ hc => absurd (hpc.symm.trans hc) (by simp)
  | acknowledge hpc h =>
    exact h.delivered (by rw [hpc]; trivial) fun _ hc => absurd (hpc.symm.trans hc) (by simp)
  | confirm hpc h _ hbit => exact h.delivered (by rw [hpc]; trivial) fun _ _ => hbit

/-- A packet comes that does not meet a copy. -/
theorem Inv.arrive (h : s.Inv) (p : SetupPacket) (hpc : ¬s.pc.Copying) : (s.arrive p).Inv := by
  -- a packet of which no byte has been read is the last one that is due
  have hdue : ∀ {q : SetupPacket}, s.due = (s.handed ++ if s.unread then [q] else []) →
      (s.arrive p).due = s.handed ++ [p] := by
    intro q hq
    rw [SetupSys.arrive, hq]
    cases s.unread <;> simp
  cases h with
  | settled hreads h => exact .settled hreads ⟨rfl, hdue (h.unread ▸ h.due), h.seen⟩
  | @copy is setups hc h _ hsuf hunread =>
    have his : is = List.finRange 8 := by
      rw [hc] at hpc
      exact not_not.1 hpc
    have hun := hunread.2 his
    refine .copy hc ⟨hdue (q := s.buffer) ?_, h.seen⟩ rfl hsuf (iff_of_true rfl his) ?_
    · rw [hun]
      exact h.due
    · intro j hj
      exact absurd (List.mem_finRange j) (his ▸ hj)
  | acknowledge hc => exact absurd (by rw [hc]; trivial) hpc
  | confirm hc => exact absurd (by rw [hc]; trivial) hpc

theorem Settled.kept {s' : SetupSys κ τ} (h : s.Settled) (hun : s'.unread = s.unread)
    (hbit : s'.eptsetupst = s.eptsetupst) (hdue : s'.due = s.due) (hhanded : s'.handed = s.handed)
    (hbuffer : s.eptsetupst = true → s'.buffer = s.buffer) (hseen : s'.seen ≤ s.handed.length) :
    s'.Settled := by
  refine ⟨by rw [hun, hbit, h.unread], ?_, by rwa [hhanded]⟩
  rw [hdue, hhanded, hbit, h.due]
  split
  · next hb => rw [hbuffer hb]
  · rfl

/-- The next access outside a copy, when it clears nothing that has to be kept. -/
theorem Settled.access (cl : Client κ τ) (h : s.Settled) (hreads : ¬s.pc.Reads)
    (hsafe : s.pc.Clearing → s.eptsetupst = false) :
    Post (SetupSys.access cl) (fun _ => Inv) (fun _ _ => True) s := by
  rw [SetupSys.access, post_bind, post_get]
  cases hpc : s.pc with
  | idle =>
    rw [post_pure]
    exact .settled hreads h
  | discard l => exact post_set.2 (.settled id (h.kept rfl rfl rfl rfl (fun _ => rfl) h.seen))
  | discarded setupst l =>
    refine post_set.2 (.settled id (h.kept rfl ?_ rfl rfl (fun _ => rfl) h.seen))
    cases setupst with
    | false => exact Bool.and_true _
    | true => exact Bool.and_false _ |>.trans (hsafe (by rw [hpc]; trivial)).symm
  | code l next =>
    cases l with
    | cons st l =>
      rw [post_bind, post_run]
      refine (post_true _ s.usbd).imp fun _ usbd _ => post_modify.2 ?_
      exact .settled id (h.kept rfl rfl rfl rfl (fun _ => rfl) h.seen)
    | nil =>
      cases next with
      | done => exact post_set.2 (.settled id (h.kept rfl rfl rfl rfl (fun _ => rfl) h.seen))
      | reset =>
        refine post_set.2 (.settled id (h.kept rfl ?_ rfl rfl (fun _ => rfl) h.seen))
        exact (hsafe (by rw [hpc]; trivial)).symm
      | read setups =>
        refine post_set.2 ?_
        have hdue := h.due
        cases hbit : s.eptsetupst with
        | false =>
          rw [hbit] at hdue
          refine .settled id (h.kept rfl hbit.symm rfl rfl (fun _ => rfl) ?_)
          simp [hdue]
        | true =>
          rw [hbit] at hdue
          refine .copy rfl ⟨hdue, ?_⟩ rfl List.suffix_rfl ?_ ?_
          · simp [hdue]
          · exact iff_of_true (h.unread.trans hbit) rfl
          · exact fun j hj => absurd (List.mem_finRange j) hj
  | clear is l next =>
    cases is with
    | nil => exact post_set.2 (.settled id (h.kept rfl rfl rfl rfl (fun _ => rfl) h.seen))
    | cons i is =>
      refine post_set.2 (.settled id (h.kept rfl rfl rfl rfl (fun hb => ?_) h.seen))
      exact absurd (hsafe (by rw [hpc]; trivial)) (by simp [hb])
  | copy is setups => exact absurd (by rw [hpc]; trivial) hreads
  | acknowledge setups => exact absurd (by rw [hpc]; trivial) hreads
  | confirm setups => exact absurd (by rw [hpc]; trivial) hreads

/-- One more byte is copied. -/
theorem copied_set {p q : SetupPacket} {i : Fin 8} {is : List (Fin 8)}
    (h : ∀ j ∉ i :: is, p[j] = q[j]) : ∀ j ∉ is, (p.set i q[i])[j] = q[j] := by
  intro j hj
  by_cases hij : j = i
  · subst hij
    exact Vector.getElem_set_self ..
  · have hne : (i : Nat) ≠ j := fun hij' => hij (Fin.ext hij'.symm)
    have hset : (p.set i q[i])[(j : Nat)] = p[(j : Nat)] :=
      Vector.getElem_set_ne i.isLt j.isLt hne
    exact hset.trans (h j (by simp [hij, hj]))

/-- The next access, when it clears nothing that has to be kept. -/
theorem Inv.access (cl : Client κ τ) (h : s.Inv) (hsafe : s.pc.Clearing → s.eptsetupst = false) :
    Post (SetupSys.access cl) (fun _ => Inv) (fun _ _ => True) s := by
  cases h with
  | settled hreads h => exact h.access cl hreads hsafe
  | @copy is setups hpc h hbit hsuf hunread hcopied =>
    rw [SetupSys.access, post_bind, post_get]
    simp only [hpc]
    cases is with
    | nil =>
      refine post_set.2 (.acknowledge rfl ?_ ?_)
      · have hall : s.request = s.buffer := Vector.ext fun j hj => hcopied ⟨j, hj⟩ (by simp)
        exact ⟨by rw [hall]; exact h.due, h.seen⟩
      · exact Bool.eq_false_iff.2 fun h => absurd (hunread.1 h) (by simp)
    | cons i is =>
      refine post_set.2 (.copy rfl ⟨h.due, h.seen⟩ hbit ((List.suffix_cons i is).trans hsuf) ?_
        (copied_set hcopied))
      refine iff_of_false (by simp) fun his => ?_
      have hlen := hsuf.length_le
      rw [his, List.length_cons] at hlen
      omega
  | acknowledge hpc h hunread =>
    rw [SetupSys.access, post_bind, post_get]
    simp only [hpc]
    exact post_set.2 (.confirm rfl ⟨h.due, h.seen⟩ hunread rfl)
  | confirm hpc h hunread hbit =>
    rw [SetupSys.access, post_bind, post_get]
    simp only [hpc]
    rw [if_neg (by simp [hbit])]
    refine post_set.2 (.settled id ⟨hunread.trans hbit.symm, ?_, ?_⟩)
    · simp [h.due, hbit]
    · simpa using h.seen

/-- An access of a poll brings it nearer to its end, unless it waits for a bit that is not clear. -/
theorem access_rank (cl : Client κ τ) (hpc : s.pc ≠ .idle)
    (hends : ∀ setups, s.pc = .confirm setups → s.eptsetupst = false) :
    Post (access cl) (fun _ s' => Prod.Lex (· < ·) (· < ·) s'.pc.rank s.pc.rank)
      (fun _ _ => True) s := by
  rw [access, post_bind, post_get]
  cases h : s.pc with
  | idle => exact absurd h hpc
  | discard l => exact post_set.2 (.right _ (Nat.lt_succ_self 2))
  | discarded setupst l => exact post_set.2 (.right _ (Nat.lt_succ_self 1))
  | code l next =>
    cases l with
    | cons st l =>
      rw [post_bind, post_run]
      refine (post_true _ s.usbd).imp fun _ usbd _ => post_modify.2 (.left _ _ ?_)
      rw [List.length_cons]
      omega
    | nil =>
      cases next with
      | done => exact post_set.2 (.right _ Nat.one_pos)
      | reset => exact post_set.2 (.right _ Nat.one_pos)
      | read setups =>
        have hlt : setups.length + 1 < ([] : List UsbdStep).length + (SetupNext.read setups).rank := by
          rw [SetupNext.rank]
          simp
        rw [post_set]
        cases s.eptsetupst with
        | true => exact .left _ _ hlt
        | false =>
          refine .left _ _ (Nat.lt_of_le_of_lt ?_ hlt)
          simp [setupSteps, SetupNext.rank]
  | clear is l next =>
    cases is with
    | nil => exact post_set.2 (.right _ (Nat.lt_succ_self 1))
    | cons i is => exact post_set.2 (.right _ (by simp))
  | copy is setups =>
    cases is with
    | nil => exact post_set.2 (.right _ (Nat.lt_succ_self 3))
    | cons i is => exact post_set.2 (.right _ (by simp))
  | acknowledge setups => exact post_set.2 (.right _ (Nat.lt_succ_self 2))
  | confirm setups =>
    have hlen : (setupSteps ((0, .ofPacket s.request) :: setups)).length = setups.length + 1 := by
      simp [setupSteps]
    dsimp only
    rw [if_neg (by simp [hends setups h]), post_set, SetupPc.rank, hlen]
    exact .right _ (Nat.lt_succ_self 1)

/-- A step keeps the invariant. -/
theorem Inv.step (cl : Client κ τ) {ev : SetupEvent} (h : s.Inv) (hsafe : ev.Safe s) :
    Post (ev.run cl) (fun _ => Inv) (fun _ _ => True) s := by
  cases ev with
  | arrive p => exact post_modify.2 (h.arrive p hsafe)
  | poll inp =>
    refine post_modify.2 ?_
    cases hpc : s.pc with
    | idle =>
      cases h with
      | settled _ h => exact .settled inp.not_reads_pc ⟨h.unread, h.due, h.seen⟩
      | copy hc => exact absurd (hpc.symm.trans hc) (by simp)
      | acknowledge hc => exact absurd (hpc.symm.trans hc) (by simp)
      | confirm hc => exact absurd (hpc.symm.trans hc) (by simp)
    | _ => exact h
  | access => exact h.access cl hsafe

end SetupSys

/-- **SETUP packets are neither lost nor corrupted** in a run in which none comes during the copy of
another one, or is in the buffer when it is cleared; and a poll that does not stop comes to its end. -/
theorem setups_delivered (cl : Client κ τ) {evs : List SetupEvent} {s : SetupSys κ τ}
    (hidle : s.pc = .idle) (hs : s.Settled)
    (hsafe : Along (SetupEvent.run cl) SetupEvent.Safe evs s) :
    Post (evs.forM (SetupEvent.run cl))
      (fun _ s' => s'.Delivered ∧ (s'.pc ≠ .idle → Post (SetupSys.access cl)
        (fun _ s'' => Prod.Lex (· < ·) (· < ·) s''.pc.rank s'.pc.rank) (fun _ _ => True) s'))
      (fun _ _ => True) s := by
  have hinv : s.Inv := .settled (by rw [hidle]; exact id) hs
  refine (hsafe.forM (fun ev s' h hev => h.step cl hev) hinv).imp fun _ s' h => ?_
  exact ⟨h.delivered, fun hpc => SetupSys.access_rank cl hpc h.delivered.ends⟩

instance : DecidablePred SetupPc.Copying
  | .copy is _ => inferInstanceAs (Decidable (is ≠ _))
  | .acknowledge _ | .confirm _ => isTrue trivial
  | .idle | .discard _ | .discarded _ _ | .code _ _ | .clear _ _ _ => isFalse id

instance : DecidablePred SetupPc.Clearing
  | .clear (_ :: _) _ _ | .discarded true _ | .code [] .reset => isTrue trivial
  | .clear [] _ _ | .discarded false _ | .code (_ :: _) _ | .code [] .done | .code [] (.read _) =>
    isFalse id
  | .idle | .discard _ | .copy _ _ | .acknowledge _ | .confirm _ => isFalse id

instance (ev : SetupEvent) (s : SetupSys κ τ) : Decidable (ev.Safe s) :=
  match ev with
  | .arrive _ => inferInstanceAs (Decidable ¬_)
  | .poll _ => isTrue trivial
  | .access => inferInstanceAs (Decidable (s.pc.Clearing → s.eptsetupst = false))

/-- A client that does nothing. -/
def bareClient : Client Empty Unit where
  complete := fun k => k.elim
  fsDescs := []
  hsDescs := []
  portReset := none
  portSetup := none
  setConfig := none

/-- The driver after `usbd_init`. -/
def bareSys : SetupSys Empty Unit where
  usbd :=
    { ctx := ()
      reqs := fun _ => none
      req := fun _ => ⟨false, false, .small, 0, 0, none⟩
      small := fun _ => List.replicate 64 0
      smallAddr := fun _ => 0
      hs := false
      descs := none
      currentConfig := 0
      mem := fun _ => 0
      td := fun _ => ⟨0, 0, 0, 0, 0, 0, 0⟩
      primed := fun _ => false
      epCtrl := fun _ => 0
      devAddr := 0
      submits := fun _ => 0
      cancels := fun _ => 0 }
  pc := .idle
  buffer := Vector.replicate 8 0
  eptsetupst := false
  request := Vector.replicate 8 0
  due := []
  unread := false
  handed := []
  seen := 0

/-- The packet of GET_CONFIGURATION. -/
def getConfigPacket : SetupPacket := #v[0x80, 8, 0, 0, 0, 0, 1, 0]

/-- A poll of a driver whose controller has nothing to report, up to its access `n`. -/
def quietPoll (n : Nat) : List SetupEvent :=
  .poll ⟨0, 0, fun _ => none, []⟩ :: List.replicate n .access

/-- A packet and a poll that hands it over. -/
theorem setups_delivered_quiet :
    Post ((.arrive getConfigPacket :: quietPoll 17).forM (SetupEvent.run bareClient))
      (fun _ s' => s'.Delivered ∧ (s'.pc ≠ .idle → Post (SetupSys.access bareClient)
        (fun _ s'' => Prod.Lex (· < ·) (· < ·) s''.pc.rank s'.pc.rank) (fun _ _ => True) s'))
      (fun _ _ => True) bareSys :=
  setups_delivered bareClient rfl ⟨rfl, rfl, le_rfl⟩ (by decide +kernel)

/-- A packet comes before the status stage of another request is primed. -/
def clearedRun : List SetupEvent :=
  .arrive getConfigPacket :: quietPoll 17 ++ .poll (.transfer ep0InReq.ix ⟨0, []⟩) ::
    .access :: .access :: .arrive getConfigPacket :: List.replicate 40 .access

/-- A packet comes between the copy and the acknowledgement of another. -/
def lostRun : List SetupEvent :=
  .arrive getConfigPacket :: quietPoll 12 ++ .arrive getConfigPacket ::
    List.replicate 5 .access ++ quietPoll 4

/-- A packet comes between the acknowledgement of another and the test of the bit. -/
def hungRun : List SetupEvent :=
  .arrive getConfigPacket :: quietPoll 13 ++ [.arrive getConfigPacket]

/-- The second packet is cleared, or lost, or the program waits for its bit. -/
theorem setups_lost :
    Post (clearedRun.forM (SetupEvent.run bareClient)) (fun _ s' => ¬s'.Delivered)
      (fun _ _ => False) bareSys ∧
    Post (lostRun.forM (SetupEvent.run bareClient)) (fun _ s' => ¬s'.Delivered)
      (fun _ _ => False) bareSys ∧
    Post (hungRun.forM (SetupEvent.run bareClient)) (fun _ s' => ¬s'.Delivered)
      (fun _ _ => False) bareSys := by
  have hcleared : Post (clearedRun.forM (SetupEvent.run bareClient))
      (fun _ s' => ¬s'.handed <+: s'.due) (fun _ _ => False) bareSys := by
    decide +kernel
  have hlost : Post (lostRun.forM (SetupEvent.run bareClient))
      (fun _ s' => s'.pc matches .idle ∧ ¬s'.seen ≤ s'.handed.length) (fun _ _ => False)
      bareSys := by
    decide +kernel
  have hhung : Post (hungRun.forM (SetupEvent.run bareClient))
      (fun _ s' => s'.pc matches .confirm _ ∧ s'.eptsetupst = true) (fun _ _ => False)
      bareSys := by
    decide +kernel
  refine ⟨?_, ?_, ?_⟩
  · exact hcleared.imp fun _ s' h hd => h hd.handed
  · refine hlost.imp fun _ s' h hd => h.2 (hd.polled ?_)
    cases hpc : s'.pc with
    | idle => rfl
    | _ => simp [hpc] at h
  · refine hhung.imp fun _ s' h hd => ?_
    cases hpc : s'.pc with
    | confirm setups => exact absurd (hd.ends setups hpc) (by simp [h.2])
    | _ => simp [hpc] at h

/-! ### The driver between the packets -/

/-- The steps `l` of a poll are done. -/
def SetupPc.After (l : List UsbdStep) : SetupPc → Prop
  | .idle => l = []
  | .discard r | .discarded _ r => l = [] ∧ ∃ inp : PollInput, r = inp.steps
  | .code r (.read _) | .clear _ r (.read _) => ∃ inp : PollInput, inp.usbsts = 0 ∧
      l ++ r = .finish inp.finished :: inp.complete.map .complete
  | .code r _ | .clear _ r _ => ∃ inp : PollInput, l ++ r = inp.steps
  | .copy _ _ | .acknowledge _ | .confirm _ => ∃ inp : PollInput, inp.usbsts = 0 ∧
      l = .finish inp.finished :: inp.complete.map .complete

/-- The driver is where the polls `inps` and then the steps `l` have brought it. -/
structure SetupSys.Follows (cl : Client κ τ) (start : Usbd κ τ) (s : SetupSys κ τ) : Prop where
  follows : ∃ (inps : List PollInput) (l : List UsbdStep), s.pc.After l ∧
    (inps.flatMap PollInput.steps ++ l).forM (·.run cl) start = .ok ⟨⟩ s.usbd

theorem SetupPc.After.append {l r : List UsbdStep} {st : UsbdStep} {next : SetupNext}
    {is : List (Fin 8)} (h : (SetupPc.code (st :: r) next).After l) :
    (SetupPc.clear is r next).After (l ++ [st]) := by
  cases next with
  | read setups =>
    obtain ⟨inp, hsts, heq⟩ := h
    exact ⟨inp, hsts, by rw [List.append_assoc]; exact heq⟩
  | done | reset =>
    obtain ⟨inp, heq⟩ := h
    exact ⟨inp, by rw [List.append_assoc]; exact heq⟩

theorem PollInput.after_pc (inp : PollInput) : inp.pc.After [] := by
  rw [PollInput.pc]
  split
  · split
    · exact ⟨{ inp with setups := [] }, rfl⟩
    · split
      · exact ⟨rfl, { inp with setups := [] }, rfl⟩
      · exact ⟨{ inp with setups := [] }, rfl⟩
  · next h =>
    refine ⟨inp, not_not.1 h, ?_⟩
    rw [List.nil_append, PollInput.steps, if_neg h]
    exact congrArg (UsbdStep.finish inp.finished :: ·) (List.append_nil _)

/-- The steps of a poll that has found packets. -/
theorem PollInput.steps_setups {inp : PollInput} (h : inp.usbsts = 0)
    (setups : List (Nat × UsbCtrlrequest)) :
    .finish inp.finished :: inp.complete.map .complete ++ setupSteps setups =
      PollInput.steps { inp with setups } := by
  rw [PollInput.steps, if_neg (not_not.2 h)]
  rfl

namespace SetupSys

variable {cl : Client κ τ} {start : Usbd κ τ} {s : SetupSys κ τ}

/-- Nothing is done but that the program goes on. -/
theorem Follows.of_after {s' : SetupSys κ τ} (h : s.Follows cl start) (husbd : s'.usbd = s.usbd)
    (hpc : ∀ l, s.pc.After l → s'.pc.After l) : s'.Follows cl start := by
  obtain ⟨inps, l, hl, hrun⟩ := h
  exact ⟨inps, l, hpc l hl, by rw [husbd]; exact hrun⟩

/-- A poll is over. -/
theorem Follows.of_steps {s' : SetupSys κ τ} (h : s.Follows cl start) (husbd : s'.usbd = s.usbd)
    (hpc : ∀ l, s.pc.After l → ∃ inp : PollInput, l = inp.steps) (hidle : s'.pc = .idle) :
    s'.Follows cl start := by
  obtain ⟨inps, l, hl, hrun⟩ := h
  obtain ⟨inp, rfl⟩ := hpc l hl
  refine ⟨inps ++ [inp], [], by rw [hidle]; rfl, ?_⟩
  rw [husbd, List.append_nil, List.flatMap_append, List.flatMap_singleton]
  exact hrun

/-- One more step of the poll is done. -/
theorem Follows.of_step {s' : SetupSys κ τ} {st : UsbdStep} (h : s.Follows cl start)
    (hst : st.run cl s.usbd = .ok ⟨⟩ s'.usbd) (hpc : ∀ l, s.pc.After l → s'.pc.After (l ++ [st])) :
    s'.Follows cl start := by
  obtain ⟨inps, l, hl, hrun⟩ := h
  refine ⟨inps, l ++ [st], hpc l hl, ?_⟩
  rw [List.forM_eq_forM] at hrun
  rw [← List.append_assoc, List.forM_eq_forM, List.forM_append]
  simp only [bind, EStateM.bind, hrun, List.forM_cons, List.forM_nil, hst]
  rfl

theorem Follows.access (h : s.Follows cl start) :
    Post (access cl) (fun _ s' => s'.Follows cl start) (fun _ _ => True) s := by
  rw [SetupSys.access, post_bind, post_get]
  cases hpc : s.pc with
  | idle => exact post_pure.2 h
  | discard r => exact post_set.2 (h.of_after rfl fun l hl => by rwa [hpc] at hl)
  | discarded setupst r =>
    refine post_set.2 (h.of_after rfl fun l hl => ?_)
    rw [hpc] at hl
    obtain ⟨rfl, inp, rfl⟩ := hl
    exact ⟨inp, rfl⟩
  | code r next =>
    cases r with
    | cons st r =>
      rw [post_bind, post_run, post_iff]
      refine ⟨fun a usbd hst => post_modify.2 ?_, fun _ _ _ => trivial⟩
      exact h.of_step hst fun l hl => SetupPc.After.append (by rwa [hpc] at hl)
    | nil =>
      cases next with
      | done | reset =>
        refine post_set.2 (h.of_steps rfl (fun l hl => ?_) rfl)
        rw [hpc] at hl
        obtain ⟨inp, heq⟩ := hl
        exact ⟨inp, by rw [← heq, List.append_nil]⟩
      | read setups =>
        refine post_set.2 (h.of_after rfl fun l hl => ?_)
        rw [hpc] at hl
        obtain ⟨inp, hsts, heq⟩ := hl
        rw [List.append_nil] at heq
        dsimp only
        split
        · exact ⟨inp, hsts, heq⟩
        · exact ⟨{ inp with setups }, by rw [heq]; exact PollInput.steps_setups hsts setups⟩
  | clear is r next =>
    cases is with
    | nil => exact post_set.2 (h.of_after rfl fun l hl => by rw [hpc] at hl; cases next <;> exact hl)
    | cons i is =>
      exact post_set.2 (h.of_after rfl fun l hl => by rw [hpc] at hl; cases next <;> exact hl)
  | copy is setups =>
    cases is with
    | nil => exact post_set.2 (h.of_after rfl fun l hl => by rwa [hpc] at hl)
    | cons i is => exact post_set.2 (h.of_after rfl fun l hl => by rwa [hpc] at hl)
  | acknowledge setups => exact post_set.2 (h.of_after rfl fun l hl => by rwa [hpc] at hl)
  | confirm setups =>
    refine post_ite.2 ⟨fun _ => post_pure.2 h, fun _ => post_set.2 (h.of_after rfl fun l hl => ?_)⟩
    rw [hpc] at hl
    obtain ⟨inp, hsts, rfl⟩ := hl
    exact ⟨_, PollInput.steps_setups hsts _⟩

/-- The packets that the controller writes do not show in the driver: between two polls it is where
`usbdLoop` brings it. -/
theorem usbdLoop_of_run {evs : List SetupEvent} (hidle : s.pc = .idle) :
    Post (evs.forM (SetupEvent.run cl))
      (fun _ s' => s'.pc = .idle → ∃ inps, usbdLoop cl inps s.usbd = .ok ⟨⟩ s'.usbd)
      (fun _ _ => True) s := by
  have hstart : s.Follows cl s.usbd := ⟨[], [], by rw [hidle]; rfl, rfl⟩
  refine (Post.forM (I := fun s' => s'.Follows cl s.usbd) (fun ev _ s₁ h => ?_) hstart).imp ?_
  · cases ev with
    | arrive p => exact post_modify.2 (h.of_after rfl fun _ hl => hl)
    | poll inp =>
      refine post_modify.2 ?_
      cases hpc : s₁.pc with
      | idle =>
        refine h.of_after rfl fun l hl => ?_
        rw [hpc] at hl
        rw [show l = [] from hl]
        exact inp.after_pc
      | _ => exact h
    | access => exact h.access
  · intro _ s' h hidle'
    obtain ⟨inps, l, hl, hrun⟩ := h
    rw [hidle'] at hl
    rw [show l = [] from hl, List.append_nil] at hrun
    exact ⟨inps, by rw [usbdLoop_steps]; exact hrun⟩

end SetupSys

end

end ShieldLoader
