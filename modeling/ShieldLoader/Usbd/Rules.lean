import ShieldLoader.Data.Word
import ShieldLoader.Usbd.Defs

/-!
# Postconditions of the driver

One rule for each function of `usbd.c` that callbacks use, and `Usbd.Keeps`: what a piece of code
leaves alone that works on some requests only.
-/

namespace ShieldLoader

open EStateM

variable {κ τ : Type} {s s' s'' : Usbd κ τ} {r : Req}

namespace Usbd

@[simp] theorem setReq_req (f : UsbdReq κ → UsbdReq κ) :
    (s.setReq r f).req = Function.update s.req r (f (s.req r)) := rfl
@[simp] theorem setReq_reqs (f : UsbdReq κ → UsbdReq κ) : (s.setReq r f).reqs = s.reqs := rfl
@[simp] theorem setReq_ctx (f : UsbdReq κ → UsbdReq κ) : (s.setReq r f).ctx = s.ctx := rfl
@[simp] theorem setReq_small (f : UsbdReq κ → UsbdReq κ) : (s.setReq r f).small = s.small := rfl

@[simp] theorem setCtx_ctx (f : τ → τ) : (s.setCtx f).ctx = f s.ctx := rfl
@[simp] theorem setCtx_req (f : τ → τ) : (s.setCtx f).req = s.req := rfl
@[simp] theorem setCtx_reqs (f : τ → τ) : (s.setCtx f).reqs = s.reqs := rfl

@[simp] theorem setSlot_reqs (ix : Nat) (q : Option Req) :
    (s.setSlot ix q).reqs = Function.update s.reqs ix q := rfl
@[simp] theorem setSlot_req (ix : Nat) (q : Option Req) : (s.setSlot ix q).req = s.req := rfl

@[simp] theorem storeBuffer_reqs (b : Buffer) (off : Nat) (data : List UInt8) :
    (s.storeBuffer r b off data).reqs = s.reqs := by cases b <;> rfl
@[simp] theorem storeBuffer_req (b : Buffer) (off : Nat) (data : List UInt8) :
    (s.storeBuffer r b off data).req = s.req := by cases b <;> rfl
@[simp] theorem storeBuffer_ctx (b : Buffer) (off : Nat) (data : List UInt8) :
    (s.storeBuffer r b off data).ctx = s.ctx := by cases b <;> rfl
@[simp] theorem storeBuffer_currentConfig (b : Buffer) (off : Nat) (data : List UInt8) :
    (s.storeBuffer r b off data).currentConfig = s.currentConfig := by cases b <;> rfl

@[simp] theorem storeBuffer_epCtrl (b : Buffer) (off : Nat) (data : List UInt8) :
    (s.storeBuffer r b off data).epCtrl = s.epCtrl := by cases b <;> rfl

@[simp] theorem length_load (a : UInt64) (n : Nat) : (s.load a n).length = n := by simp [load]

/-- Bytes that are there already may be stored again. -/
theorem store_of_load {a : UInt64} {data : List UInt8} (h : s.load a data.length = data) :
    s.store a data = s := by
  have hmem : (s.store a data).mem = s.mem := by
    funext x
    rw [store]
    dsimp only
    split
    · next hx =>
      have hx' := congrArg (·[(x - a).toNat]?) h
      simp only [load, List.getElem?_map, List.getElem?_range hx, Option.map_some,
        List.getElem?_eq_getElem hx, Option.some.injEq, UInt64.ofNat_toNat] at hx'
      rw [← List.getElem_eq_getD (h := hx), ← hx', UInt64.add_comm, UInt64.sub_add_cancel]
    · rfl
  show { s with mem := (s.store a data).mem } = s
  rw [hmem]

/-- Bytes whose store changes nothing were there. -/
theorem load_of_store {a : UInt64} {data : List UInt8} (hlen : data.length < 2 ^ 64)
    (h : (s.store a data).mem = s.mem) : s.load a data.length = data := by
  refine List.ext_getElem (length_load ..) fun i hi hi' => ?_
  have hx : (a + UInt64.ofNat i - a).toNat = i := by
    rw [UInt64.add_comm, UInt64.add_sub_cancel, UInt64.toNat_ofNat_of_lt' (Nat.lt_trans hi' hlen)]
  have := congrFun h (a + UInt64.ofNat i)
  rw [store] at this
  simp only [hx, hi', if_true] at this
  simp only [load, List.getElem_map, List.getElem_range]
  rw [← this, ← List.getElem_eq_getD]

/-- Two stores, the second behind the first. -/
theorem store_store {a : UInt64} {d data : List UInt8} (hlen : d.length + data.length < 2 ^ 64) :
    (s.store a d).store (a + UInt64.ofNat d.length) data = s.store a (d ++ data) := by
  have hd : (UInt64.ofNat d.length).toNat = d.length :=
    UInt64.toNat_ofNat_of_lt' (Nat.lt_of_le_of_lt (Nat.le_add_right _ _) hlen)
  rw [store, store, store]
  congr 1
  funext x
  have hsub : (x - (a + UInt64.ofNat d.length)).toNat =
      ((x - a).toNat + (2 ^ 64 - d.length)) % 2 ^ 64 := by
    simp only [UInt64.toNat_sub, UInt64.toNat_add, hd]
    have := a.toNat_lt
    have := x.toNat_lt
    omega
  have hlt := (x - a).toNat_lt
  dsimp only
  rw [hsub, List.length_append]
  generalize (x - a).toNat = k at hlt
  rcases Nat.lt_or_ge k d.length with hk | hk
  · have hfar : ¬(k + (2 ^ 64 - d.length)) % 2 ^ 64 < data.length := by omega
    rw [if_neg hfar, if_pos hk, if_pos (by omega), List.getD_append _ _ _ _ hk]
  · have hnear : (k + (2 ^ 64 - d.length)) % 2 ^ 64 = k - d.length := by omega
    rw [hnear, List.getD_append_right _ _ _ _ hk, if_neg (show ¬k < d.length by omega)]
    by_cases hk' : k - d.length < data.length
    · rw [if_pos hk', if_pos (by omega)]
    · rw [if_neg hk', if_neg (by omega)]

/-- Bytes that are stored behind others follow them. -/
theorem load_store_append {a : UInt64} {d data : List UInt8} (h : s.load a d.length = d)
    (hlen : d.length + data.length < 2 ^ 64) :
    (s.store (a + UInt64.ofNat d.length) data).load a (d ++ data).length = d ++ data := by
  have hof : ∀ i < (d ++ data).length, (UInt64.ofNat i).toNat = i := fun i hi =>
    UInt64.toNat_ofNat_of_lt' (Nat.lt_trans hi (by rwa [List.length_append]))
  refine List.ext_getElem (length_load ..) fun i hi _ => ?_
  rw [length_load] at hi
  have hd : (UInt64.ofNat d.length).toNat = d.length :=
    UInt64.toNat_ofNat_of_lt' (Nat.lt_of_le_of_lt (Nat.le_add_right _ _) hlen)
  have hsub : a + UInt64.ofNat i - (a + UInt64.ofNat d.length) =
      UInt64.ofNat i - UInt64.ofNat d.length := by
    rw [← UInt64.toNat_inj]
    simp only [UInt64.toNat_sub, UInt64.toNat_add, hof i hi, hd]
    have := a.toNat_lt
    omega
  simp only [load, store, List.getElem_map, List.getElem_range, hsub]
  rcases Nat.lt_or_ge i d.length with hlt | hge
  · -- the bytes before are not reached
    have hfar : ¬(UInt64.ofNat i - UInt64.ofNat d.length).toNat < data.length := by
      rw [UInt64.toNat_sub, hof i hi, hd]
      omega
    rw [if_neg hfar, List.getElem_append_left hlt]
    have := congrArg (·[i]?) h
    simpa [load, hlt] using this
  · rw [List.length_append] at hi
    have hnear : (UInt64.ofNat i - UInt64.ofNat d.length).toNat = i - d.length := by
      rw [UInt64.toNat_sub, hof i (by rwa [List.length_append]), hd]
      omega
    rw [hnear, if_pos (by omega), List.getElem_append_right hge, ← List.getElem_eq_getD 0]

/-- The state after a request is submitted in an empty slot. -/
def submitted (r : Req) (s : Usbd κ τ) : Usbd κ τ :=
  let q := { s.req r with bufferLength := min (s.req r).bufferLength maxTransfer }
  { s with
    reqs := Function.update s.reqs r.ix (some r)
    req := Function.update s.req r q
    td := Function.update s.td r.ix (usbdTdInit q.bufferLength (s.bufferAddr r q.buffer))
    primed := Function.update (fun ix => s.primed ix && !flushBits (some r.ep.num) r.ep.send ix)
      r.ix true
    submits := Function.update s.submits r.ix (s.submits r.ix + 1) }

@[simp] theorem submitted_reqs :
    (s.submitted r).reqs = Function.update s.reqs r.ix (some r) := rfl
@[simp] theorem submitted_ctx : (s.submitted r).ctx = s.ctx := rfl
@[simp] theorem submitted_small : (s.submitted r).small = s.small := rfl
@[simp] theorem submitted_req : (s.submitted r).req = Function.update s.req r
    { s.req r with bufferLength := min (s.req r).bufferLength maxTransfer } := rfl

/-- The state after a request in its slot is cancelled, before its callback. -/
def cancelled (r : Req) (s : Usbd κ τ) : Usbd κ τ :=
  { s with
    reqs := Function.update s.reqs r.ix none
    req := Function.update s.req r { s.req r with error := true, cancel := true }
    primed := fun ix => s.primed ix && !flushBits (some r.ep.num) r.ep.send ix
    cancels := Function.update s.cancels r.ix (s.cancels r.ix + 1) }

@[simp] theorem cancelled_reqs :
    (s.cancelled r).reqs = Function.update s.reqs r.ix none := rfl
@[simp] theorem cancelled_req : (s.cancelled r).req = Function.update s.req r
    { s.req r with error := true, cancel := true } := rfl

/-- The state after a completed request is read, before its callback. -/
def completed (r : Req) (s : Usbd κ τ) : Usbd κ τ :=
  s.setReq r fun q =>
    { q with
      ioDone := q.bufferLength - ((s.td r.ix).sizeIocSts &&& usbdTdPacketSize) >>> 16
      error := (s.td r.ix).sizeIocSts &&& usbdTdErrorMask ≠ 0 }

@[simp] theorem completed_reqs : (s.completed r).reqs = s.reqs := rfl
@[simp] theorem completed_ctx : (s.completed r).ctx = s.ctx := rfl
@[simp] theorem completed_req : (s.completed r).req = Function.update s.req r
    { s.req r with
      ioDone := (s.req r).bufferLength -
        ((s.td r.ix).sizeIocSts &&& usbdTdPacketSize) >>> 16
      error := (s.td r.ix).sizeIocSts &&& usbdTdErrorMask ≠ 0 } := rfl

/-- Code that works on the requests `W` has taken `s` to `s'`. -/
structure Keeps (W : Req → Prop) (s s' : Usbd κ τ) : Prop where
  reqs : ∀ ix, (∀ r, W r → r.ix ≠ ix) → s'.reqs ix = s.reqs ix
  req : ∀ r, ¬W r → s'.req r = s.req r
  small : ∀ r, ¬W r → s'.small r = s.small r
  smallAddr : s'.smallAddr = s.smallAddr
  hs : s'.hs = s.hs
  descs : s'.descs = s.descs
  currentConfig : s'.currentConfig = s.currentConfig
  epCtrl : s'.epCtrl = s.epCtrl
  devAddr : s'.devAddr = s.devAddr

namespace Keeps

variable {W W' : Req → Prop}

theorem refl (s : Usbd κ τ) : Keeps W s s :=
  ⟨fun _ _ => rfl, fun _ _ => rfl, fun _ _ => rfl, rfl, rfl, rfl, rfl, rfl, rfl⟩

theorem trans (h : Keeps W s s') (h' : Keeps W s' s'') : Keeps W s s'' where
  reqs ix hix := (h'.reqs ix hix).trans (h.reqs ix hix)
  req r hr := (h'.req r hr).trans (h.req r hr)
  small r hr := (h'.small r hr).trans (h.small r hr)
  smallAddr := h'.smallAddr.trans h.smallAddr
  hs := h'.hs.trans h.hs
  descs := h'.descs.trans h.descs
  currentConfig := h'.currentConfig.trans h.currentConfig
  epCtrl := h'.epCtrl.trans h.epCtrl
  devAddr := h'.devAddr.trans h.devAddr

theorem mono (h : Keeps W s s') (hW : ∀ r, W r → W' r) : Keeps W' s s' where
  reqs ix hix := h.reqs ix fun r hr => hix r (hW r hr)
  req r hr := h.req r fun hw => hr (hW r hw)
  small r hr := h.small r fun hw => hr (hW r hw)
  smallAddr := h.smallAddr
  hs := h.hs
  descs := h.descs
  currentConfig := h.currentConfig
  epCtrl := h.epCtrl
  devAddr := h.devAddr

theorem ne {r' : Req} (hr : W r) (hr' : ¬W r') : r' ≠ r := fun h => hr' (h ▸ hr)

theorem setReq (hr : W r) (f : UsbdReq κ → UsbdReq κ) : Keeps W s (s.setReq r f) :=
  { refl s with req := fun _ hr' => Function.update_of_ne (ne hr hr') .. }

theorem setCtx (f : τ → τ) : Keeps W s (s.setCtx f) := { refl s with }

theorem setSlot {ix : Nat} {q : Option Req} (hr : W r) (hix : r.ix = ix) :
    Keeps W s (s.setSlot ix q) :=
  { refl s with reqs := fun _ h => Function.update_of_ne (fun he => h r hr (hix.trans he.symm)) .. }

theorem store (a : UInt64) (data : List UInt8) : Keeps W s (s.store a data) := { refl s with }

theorem storeBuffer (hr : W r) (b : Buffer) (off : Nat) (data : List UInt8) :
    Keeps W s (s.storeBuffer r b off data) := by
  cases b with
  | small =>
    exact { refl s with small := fun _ hr' => Function.update_of_ne (ne hr hr') .. }
  | addr a => exact store ..

theorem submitted (hr : W r) : Keeps W s (s.submitted r) :=
  { refl s with
    reqs := fun _ h => Function.update_of_ne (fun he => h r hr he.symm) ..
    req := fun _ hr' => Function.update_of_ne (ne hr hr') .. }

theorem cancelled (hr : W r) : Keeps W s (s.cancelled r) :=
  { refl s with
    reqs := fun _ h => Function.update_of_ne (fun he => h r hr he.symm) ..
    req := fun _ hr' => Function.update_of_ne (ne hr hr') .. }

theorem completed (hr : W r) : Keeps W s (s.completed r) := setReq hr _

end Keeps

end Usbd

/-! ### Rules -/

section
variable {Q : Unit → Usbd κ τ → Prop} {E : Halt → Usbd κ τ → Prop}

@[simp] theorem post_usbdHwEpFlush {ep : Option Nat} {send : Bool} :
    Post (usbdHwEpFlush ep send) Q E s ↔
      Q () { s with primed := fun ix => s.primed ix && !flushBits ep send ix } := by
  simp [usbdHwEpFlush]

@[simp] theorem post_usbdHwReset :
    Post usbdHwReset Q E s ↔ Q () { s with primed := fun _ => false } := by
  simp [usbdHwReset]

/-- A request is submitted, or its slot is taken. -/
theorem post_usbdReqSubmit : Post (usbdReqSubmit r) Q E s ↔
    (s.reqs r.ix ≠ none → E (.inFlight r.ix)
      (s.setReq r fun q => { q with bufferLength := min q.bufferLength maxTransfer })) ∧
    (s.reqs r.ix = none → Q () (s.submitted r)) := by
  rcases h : s.reqs r.ix with _ | r'
  · simp only [usbdReqSubmit, post_bind, post_modify, post_get, Usbd.setReq_reqs, h,
      Option.isSome_none, Bool.false_eq_true, if_false, post_usbdHwEpFlush,
      ne_eq, not_true_eq_false, false_imp_iff, true_and, true_imp_iff]
    rw [usbdEpPrime, post_modify]
    simp only [Usbd.submitted, Usbd.setSlot, Usbd.setReq, Function.update_self]
    rfl
  · simp [usbdReqSubmit, h]

theorem post_usbdReqCancel {call : Complete κ → Req → UsbdM κ τ Unit} :
    Post (usbdReqCancel call r) Q E s ↔
      (s.reqs r.ix ≠ some r → Q () s) ∧
      (s.reqs r.ix = some r → Post (usbdNotify call r)
        (fun _ s => Q () (s.setReq r fun q => { q with cancel := false })) E (s.cancelled r)) := by
  by_cases h : s.reqs r.ix = some r
  · simp only [usbdReqCancel, post_bind, post_get, h, ne_eq, not_true_eq_false, if_false,
      post_usbdHwEpFlush, post_modify, false_imp_iff, true_and, true_imp_iff]
    rfl
  · simp [usbdReqCancel, h]

theorem post_usbdNotify {call : Complete κ → Req → UsbdM κ τ Unit} :
    Post (usbdNotify call r) Q E s ↔
      ((s.req r).complete = none → Q () s) ∧
      ∀ c, (s.req r).complete = some c → Post (call c r) Q E s := by
  rcases h : (s.req r).complete with _ | c <;> simp [usbdNotify, h]

theorem post_usbdReqComplete {call : Complete κ → Req → UsbdM κ τ Unit} :
    Post (usbdReqComplete call r) Q E s ↔
      ((s.req r).complete = none → Q () s) ∧
      ((s.req r).complete ≠ none → Post (usbdNotify call r) Q E (s.completed r)) := by
  rcases h : (s.req r).complete with _ | c
  · simp [usbdReqComplete, h]
  · simp only [usbdReqComplete, post_bind, post_get, h, Option.isNone_some, Bool.false_eq_true,
      if_false, post_modify, reduceCtorEq, false_imp_iff, true_and, ne_eq, not_false_eq_true,
      true_imp_iff]
    rfl

theorem post_usbdCompletions_round {call : Complete κ → Req → UsbdM κ τ Unit} {ix : Nat} :
    Post (usbdCompletions.round call ix) Q E s ↔
      (s.reqs ix = none → E (.nullReq ix) (s.setSlot ix none)) ∧
      ∀ r, s.reqs ix = some r → Post (usbdReqComplete call r) Q E (s.setSlot ix none) := by
  rcases h : s.reqs ix with _ | r <;> simp [usbdCompletions.round, h]

theorem post_usbdPortReset_sweep {call : Complete κ → Req → UsbdM κ τ Unit} {ix : Nat} :
    Post (usbdPortReset.sweep call ix) Q E s ↔
      (s.reqs ix = none → Q () s) ∧
      ∀ r, s.reqs ix = some r → Post (usbdNotify call r) Q E
        ((s.setSlot ix none).setReq r fun q => { q with error := true }) := by
  rcases h : s.reqs ix with _ | r <;> simp [usbdPortReset.sweep, h]

end

end ShieldLoader
