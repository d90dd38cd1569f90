import ShieldLoader.Usbd.Rules
import Mathlib.Logic.Relation

/-!
# Slots and completions

`usbd_completions` walks over bits that were read before it calls back, and a callback may cancel
and submit. Which submission is in a slot follows from the history of the slot: only a cancel makes
room for another one.
-/

namespace ShieldLoader

open EStateM Relation

/-- A slot of `usbd_reqs`, with how often a request was submitted and cancelled in it. -/
structure Slot where
  req : Option Req
  submits : Nat
  cancels : Nat
  deriving DecidableEq

/-- A request is submitted in an empty slot, or the request in the slot is cancelled. -/
inductive SlotStep : Slot → Slot → Prop
  | submit (r : Req) (n k : Nat) : SlotStep ⟨none, n, k⟩ ⟨some r, n + 1, k⟩
  | cancel (r : Req) (n k : Nat) : SlotStep ⟨some r, n, k⟩ ⟨none, n, k + 1⟩

/-- The slot `b` holds the submission that the slot `a` held. -/
def Slot.Holds (a b : Slot) : Prop := b.req = a.req ∧ b.submits = a.submits

instance (a b : Slot) : Decidable (a.Holds b) := inferInstanceAs (Decidable (_ ∧ _))

/-- A slot that held a request holds it still, or the request has been cancelled, and then the slot
is empty or holds a later submission. -/
theorem SlotStep.run_cases {a b : Slot} (h : ReflTransGen SlotStep a b) (ha : a.req.isSome) :
    b = a ∨ a.cancels < b.cancels ∧ a.submits ≤ b.submits ∧
      (b.req = none ∨ a.submits < b.submits) := by
  induction h with
  | refl => exact .inl rfl
  | tail _ hstep ih =>
    cases hstep with
    | submit r n k =>
      cases ih with
      | inl heq =>
        rw [← heq] at ha
        exact absurd ha (by simp)
      | inr hlater =>
        obtain ⟨hcancels, hsubmits, -⟩ := hlater
        exact .inr ⟨hcancels, Nat.le_succ_of_le hsubmits, .inr (Nat.lt_succ_of_le hsubmits)⟩
    | cancel r n k =>
      cases ih with
      | inl heq => exact .inr (heq ▸ ⟨Nat.lt_succ_self k, Nat.le_refl n, .inl rfl⟩)
      | inr hlater =>
        obtain ⟨hcancels, hsubmits, -⟩ := hlater
        exact .inr ⟨Nat.lt_succ_of_lt hcancels, hsubmits, .inl rfl⟩

/-- A slot holds its submission exactly as long as the request is not cancelled. -/
theorem SlotStep.holds_iff {a b : Slot} (h : ReflTransGen SlotStep a b) (ha : a.req.isSome) :
    a.Holds b ↔ b.cancels = a.cancels := by
  constructor
  · intro hb
    cases SlotStep.run_cases h ha with
    | inl heq => rw [heq]
    | inr hlater =>
      obtain ⟨-, -, hempty⟩ := hlater
      cases hempty with
      | inl hnone =>
        rw [← hb.1, hnone] at ha
        exact absurd ha (by simp)
      | inr hlt => exact absurd hb.2 (Nat.ne_of_gt hlt)
  · intro hcancels
    cases SlotStep.run_cases h ha with
    | inl heq => exact heq ▸ ⟨rfl, rfl⟩
    | inr hlater => exact absurd hcancels (Nat.ne_of_gt hlater.1)

section
variable {κ τ : Type} {s s' : Usbd κ τ} {σ : Nat → Slot}

/-- The slot with the index `ix`. -/
def Usbd.slot (s : Usbd κ τ) (ix : Nat) : Slot := ⟨s.reqs ix, s.submits ix, s.cancels ix⟩

/-- Requests have been submitted and cancelled since the slots were `σ`. -/
def Evolved (σ : Nat → Slot) (s : Usbd κ τ) : Prop := ∀ ix, ReflTransGen SlotStep (σ ix) (s.slot ix)

/-- The code changes slots as `usbd_req_submit` and `usbd_req_cancel` do. -/
def Acts {α : Type} (x : UsbdM κ τ α) : Prop := ∀ σ, Preserves (Evolved σ) x

theorem evolved_slot (s : Usbd κ τ) : Evolved s.slot s := fun _ => .refl

theorem Evolved.of_slot (h : Evolved σ s) (hs : s'.slot = s.slot) : Evolved σ s' := by
  rwa [Evolved, hs]

theorem Evolved.update (h : Evolved σ s) {ix : Nat} (hstep : SlotStep (s.slot ix) (s'.slot ix))
    (hs : ∀ i ≠ ix, s'.slot i = s.slot i) : Evolved σ s' := by
  intro i
  by_cases hi : i = ix
  · exact hi ▸ (h ix).tail hstep
  · rw [hs i hi]
    exact h i

theorem Usbd.slot_submitted_of_ne {r : Req} {i : Nat} (hi : i ≠ r.ix) :
    (s.submitted r).slot i = s.slot i := by
  simp only [slot, submitted, Function.update_of_ne hi]

theorem Usbd.slot_cancelled_of_ne {r : Req} {i : Nat} (hi : i ≠ r.ix) :
    (s.cancelled r).slot i = s.slot i := by
  simp only [slot, cancelled, Function.update_of_ne hi]

theorem Evolved.submitted (h : Evolved σ s) {r : Req} (hslot : s.reqs r.ix = none) :
    Evolved σ (s.submitted r) := by
  have hstep : SlotStep (s.slot r.ix) ((s.submitted r).slot r.ix) := by
    simp only [Usbd.slot, Usbd.submitted, Function.update_self, hslot]
    exact .submit r _ _
  exact h.update hstep fun _ => Usbd.slot_submitted_of_ne

theorem Evolved.cancelled (h : Evolved σ s) {r : Req} (hslot : s.reqs r.ix = some r) :
    Evolved σ (s.cancelled r) := by
  have hstep : SlotStep (s.slot r.ix) ((s.cancelled r).slot r.ix) := by
    simp only [Usbd.slot, Usbd.cancelled, Function.update_self, hslot]
    exact .cancel r _ _
  exact h.update hstep fun _ => Usbd.slot_cancelled_of_ne

theorem usbdReqSubmit_acts (r : Req) : Acts (usbdReqSubmit r : UsbdM κ τ Unit) := fun _ _ h =>
  post_usbdReqSubmit.2 ⟨fun _ => h.of_slot rfl, fun hslot => h.submitted hslot⟩

section
variable {call : Complete κ → Req → UsbdM κ τ Unit} (hcall : ∀ c r, Acts (call c r))
include hcall

theorem usbdNotify_acts (r : Req) : Acts (usbdNotify call r) := fun σ s h =>
  post_usbdNotify.2 ⟨fun _ => h, fun c _ => hcall c r σ s h⟩

theorem usbdReqCancel_acts (r : Req) : Acts (usbdReqCancel call r) := by
  intro σ s h
  refine post_usbdReqCancel.2 ⟨fun _ => h, fun hslot => ?_⟩
  exact (usbdNotify_acts hcall r σ _ (h.cancelled hslot)).imp fun _ _ h' => h'.of_slot rfl

/-- A round changes the slots of other indices as its callback does. -/
theorem usbdCompletions_round_slots (ix : Nat) (s : Usbd κ τ) :
    Post (usbdCompletions.round call ix)
      (fun _ s' => ∀ i ≠ ix, ReflTransGen SlotStep (s.slot i) (s'.slot i)) (fun _ _ => True) s := by
  have hslot : ∀ i ≠ ix, (s.setSlot ix none).slot i = s.slot i := by
    intro i hi
    simp only [Usbd.slot, Usbd.setSlot, Function.update_of_ne hi]
  have hevolved := evolved_slot (s.setSlot ix none)
  have hround : Post (usbdCompletions.round call ix)
      (fun _ => Evolved (s.setSlot ix none).slot) (fun _ _ => True) s := by
    refine post_usbdCompletions_round.2 ⟨fun _ => trivial, fun r _ => ?_⟩
    refine post_usbdReqComplete.2 ⟨fun _ => hevolved, fun _ => ?_⟩
    have hcompleted : Evolved (s.setSlot ix none).slot ((s.setSlot ix none).completed r) :=
      hevolved.of_slot rfl
    exact (usbdNotify_acts hcall r _ _ hcompleted).mono (fun _ _ h => h) fun _ _ _ => trivial
  refine hround.imp fun _ s' h i hi => ?_
  rw [← hslot i hi]
  exact h i

end

end

end ShieldLoader
