import ShieldLoader.Fb.Receive
import Mathlib.Tactic.IntervalCases

/-!
# The pages of a transfer

A transfer descriptor names the memory of its transfer by the address of its first byte and the
pages behind it. `usbd_td_init` sets as many page pointers as a buffer of that length needs which
begins at the start of a page.
-/

namespace ShieldLoader

open EStateM Usbd PollInput

namespace UsbdTd

/-- The page pointer with number `i`. -/
def buffPtr (td : UsbdTd) : Nat → Option UInt32
  | 0 => some td.buffPtr0
  | 1 => some td.buffPtr1
  | 2 => some td.buffPtr2
  | 3 => some td.buffPtr3
  | 4 => some td.buffPtr4
  | _ => none

/-- The address at which the controller has byte `k` of the transfer. It counts from the offset in
the first pointer, and takes the page from the pointer of the page that it has reached. -/
def byteAddr (td : UsbdTd) (k : Nat) : Option Nat :=
  let x := td.buffPtr0.toNat % 0x1000 + k
  (td.buffPtr (x / 0x1000)).map fun ptr => ptr.toNat / 0x1000 * 0x1000 + x % 0x1000

/-- Each page of the `n` bytes at `p` is in the pointer that the controller takes it from. -/
def Pages (td : UsbdTd) (p n : Nat) : Prop :=
  ∀ k < n, ∃ ptr, td.buffPtr ((p % 0x1000 + k) / 0x1000) = some ptr ∧
    ptr.toNat / 0x1000 = (p + k) / 0x1000

/-- The controller transfers the `n` bytes at `p`. -/
def Transfers (td : UsbdTd) (p n : Nat) : Prop := ∀ k < n, td.byteAddr k = some (p + k)

theorem Pages.transfers {td : UsbdTd} {p n : Nat} (h : td.Pages p n)
    (hp : td.buffPtr0.toNat = p) : td.Transfers p n := by
  intro k hk
  obtain ⟨ptr, hptr, hpage⟩ := h k hk
  rw [byteAddr, hp, hptr, Option.map_some, hpage]
  congr 1
  omega

end UsbdTd

/-! ### The pointers -/

section
variable {size : UInt32} {buf : UInt64}

/-- The next page, with 32 bits. -/
theorem toNat_add_page (x : UInt32) :
    (x + 0x1000).toNat / 0x1000 = (x.toNat / 0x1000 + 1) % 2 ^ 20 := by
  have h : (0x1000 : UInt32).toNat = 0x1000 := rfl
  rw [UInt32.toNat_add, h]
  omega

/-- The page without the offset in it. -/
theorem toNat_and_page (x : UInt32) : (x &&& 0xfffff000).toNat / 0x1000 = x.toNat / 0x1000 := by
  have hmask : (0xfffff000 : UInt32).toNat / 2 ^ 12 = 2 ^ 20 - 1 := by decide
  have hx := x.toNat_lt
  rw [UInt32.toNat_and, show 0x1000 = 2 ^ 12 from rfl, Nat.and_div_two_pow, hmask,
    Nat.and_two_pow_sub_one_eq_mod, Nat.mod_eq_of_lt (by omega)]

@[simp] theorem usbdTdInit_buffPtr0 : (usbdTdInit size buf).buffPtr0 = buf.toUInt32 := by
  rw [usbdTdInit]
  dsimp only
  split_ifs <;> rfl

/-- A pointer behind the first is set if the buffer would need its page at the start of one. -/
theorem usbdTdInit_buffPtr_succ {i : Nat} (hi : i < 4) :
    ∃ ptr, (usbdTdInit size buf).buffPtr (i + 1) = some ptr ∧ ptr.toNat / 0x1000 =
      if (i + 1) * 0x1000 < size.toNat then (buf.toUInt32.toNat / 0x1000 + (i + 1)) % 2 ^ 20
      else 0 := by
  have hle : ∀ n : UInt32, size ≤ n ↔ ¬n.toNat < size.toNat := fun n => by
    rw [UInt32.le_iff_toNat_le, Nat.not_lt]
  have h0 : (0 : UInt32).toNat / 0x1000 = 0 := rfl
  have h1 : (0x1000 : UInt32).toNat = 1 * 0x1000 := rfl
  have h2 : (0x2000 : UInt32).toNat = 2 * 0x1000 := rfl
  have h3 : (0x3000 : UInt32).toNat = 3 * 0x1000 := rfl
  have h4 : (0x4000 : UInt32).toNat = 4 * 0x1000 := rfl
  simp only [usbdTdInit, hle, h1, h2, h3, h4]
  interval_cases i
  all_goals
    split_ifs
    all_goals
      refine ⟨_, rfl, ?_⟩
      simp only [toNat_add_page, toNat_and_page, h0] <;> omega

/-- All pages of a buffer are named if it does not lie in more of them than it needs at the start of
a page. -/
theorem usbdTdInit_pages_iff (hbuf : buf.toNat < 2 ^ 32) (hsize : size ≤ maxTransfer) :
    (usbdTdInit size buf).Pages buf.toNat size.toNat ↔ size.toNat = 0 ∨
      buf.toNat + size.toNat ≤ 2 ^ 32 ∧
        buf.toNat % 0x1000 + (size.toNat - 1) % 0x1000 < 0x1000 := by
  have hbuf0 : buf.toUInt32.toNat = buf.toNat := by
    rw [UInt64.toNat_toUInt32, Nat.mod_eq_of_lt hbuf]
  rw [UInt32.le_iff_toNat_le, show maxTransfer.toNat = 5 * 0x1000 from rfl] at hsize
  constructor
  · intro h
    rcases Nat.eq_zero_or_pos size.toNat with h0 | hpos
    · exact .inl h0
    -- the last byte decides
    · obtain ⟨ptr, hptr, hpage⟩ := h (size.toNat - 1) (by omega)
      have hi : (buf.toNat % 0x1000 + (size.toNat - 1)) / 0x1000 ≤ 5 := by omega
      cases hix : (buf.toNat % 0x1000 + (size.toNat - 1)) / 0x1000 with
      | zero => omega
      | succ i =>
        rw [hix] at hptr
        have hi4 : i < 4 := by
          by_contra hge
          obtain rfl : i = 4 := by omega
          exact absurd hptr (by simp [UsbdTd.buffPtr])
        obtain ⟨ptr', hptr', hset⟩ := @usbdTdInit_buffPtr_succ size buf i hi4
        obtain rfl := Option.some.inj (hptr.symm.trans hptr')
        rw [hpage, hbuf0] at hset
        split_ifs at hset <;> omega
  · rintro (h0 | ⟨hend, hoff⟩) k hk
    · omega
    cases hix : (buf.toNat % 0x1000 + k) / 0x1000 with
    | zero =>
      refine ⟨_, rfl, ?_⟩
      rw [usbdTdInit_buffPtr0, hbuf0]
      omega
    | succ i =>
      obtain ⟨ptr, hptr, hset⟩ := @usbdTdInit_buffPtr_succ size buf i (by omega)
      refine ⟨ptr, hptr, ?_⟩
      rw [hset, hbuf0, if_pos (by omega)]
      omega

end

/-! ### Requests -/

section
variable {κ τ : Type} {s : Usbd κ τ} {r : Req}

/-- **The pages of a transfer**: a request that is submitted moves the bytes of its buffer exactly
if the buffer ends where 32 bits do or before, and the offset of its first byte and that of the last
of as many bytes from the start of a page together stay in one page. -/
theorem usbdReqSubmit_transfers_iff
    (hp : (s.bufferAddr r (s.req r).buffer).toNat < 2 ^ 32) :
    Post (usbdReqSubmit r)
      (fun _ s' =>
        let p := (s.bufferAddr r (s.req r).buffer).toNat
        let n := (min (s.req r).bufferLength maxTransfer).toNat
        (s'.req r).bufferLength.toNat = n ∧
          ((s'.td r.ix).Pages p n ∧ (s'.td r.ix).Transfers p n ↔
            n = 0 ∨ p + n ≤ 2 ^ 32 ∧ p % 0x1000 + (n - 1) % 0x1000 < 0x1000))
      (fun e _ => e = .inFlight r.ix ∧ s.reqs r.ix ≠ none) s := by
  refine post_usbdReqSubmit.2 ⟨fun h => ⟨rfl, h⟩, fun _ => ?_⟩
  dsimp only
  rw [submitted_req, Function.update_self]
  refine ⟨rfl, ?_⟩
  have htd : (s.submitted r).td r.ix = usbdTdInit (min (s.req r).bufferLength maxTransfer)
      (s.bufferAddr r (s.req r).buffer) := Function.update_self ..
  have hmax : min (s.req r).bufferLength maxTransfer ≤ maxTransfer := by
    rw [UInt32.le_iff_toNat_le, UInt32.toNat_min]
    exact Nat.min_le_right ..
  rw [htd, ← usbdTdInit_pages_iff hp hmax]
  refine ⟨And.left, fun h => ⟨h, h.transfers ?_⟩⟩
  rw [usbdTdInit_buffPtr0, UInt64.toNat_toUInt32, Nat.mod_eq_of_lt hp]

end

/-- The request for the rest of a download, behind the bytes that have come. -/
def fetching : Fb :=
  machine.setReq ep1OutReq fun q => { q with buffer := .addr 0x80000200, bufferLength := 0x4e00 }

/-- A buffer with an offset whose last page is full. -/
theorem usbdReqSubmit_transfers_fetching :
    Post (usbdReqSubmit ep1OutReq)
      (fun _ s' =>
        let p := (fetching.bufferAddr ep1OutReq (fetching.req ep1OutReq).buffer).toNat
        let n := (min (fetching.req ep1OutReq).bufferLength maxTransfer).toNat
        (s'.req ep1OutReq).bufferLength.toNat = n ∧
          ((s'.td ep1OutReq.ix).Pages p n ∧ (s'.td ep1OutReq.ix).Transfers p n ↔
            n = 0 ∨ p + n ≤ 2 ^ 32 ∧ p % 0x1000 + (n - 1) % 0x1000 < 0x1000))
      (fun e _ => e = .inFlight ep1OutReq.ix ∧ fetching.reqs ep1OutReq.ix ≠ none) fetching :=
  usbdReqSubmit_transfers_iff (by decide)

/-- After a short packet the rest of a download begins inside a page, and the sixth page of the
transfer has no pointer. -/
theorem transfer_ends_early :
    Post ([command "download:10000", sent,
        done ep1OutReq.ix (0x5000 - 0x200) (List.replicate 0x200 0)].forM fbPoll)
      (fun _ s' =>
        s'.reqs ep1OutReq.ix = some ep1OutReq ∧
        (s'.req ep1OutReq).buffer = .addr 0xbff00200 ∧
        (s'.req ep1OutReq).bufferLength = 0x5000 ∧
        ¬(s'.td ep1OutReq.ix).Pages 0xbff00200 0x5000 ∧
        ¬(s'.td ep1OutReq.ix).Transfers 0xbff00200 0x5000)
      (fun _ _ => False) waiting := by
  have hrun : Post ([command "download:10000", sent,
        done ep1OutReq.ix (0x5000 - 0x200) (List.replicate 0x200 0)].forM fbPoll)
      (fun _ s' =>
        s'.reqs ep1OutReq.ix = some ep1OutReq ∧
        (s'.req ep1OutReq).buffer = .addr 0xbff00200 ∧
        (s'.req ep1OutReq).bufferLength = 0x5000 ∧
        (s'.td ep1OutReq.ix).buffPtr0 = 0xbff00200)
      (fun _ _ => False) waiting := by
    decide +kernel
  refine hrun.imp ?_
  intro _ s' h
  obtain ⟨hslot, hbuf, hlen, hptr⟩ := h
  refine ⟨hslot, hbuf, hlen, fun h => ?_, fun h => ?_⟩
  · obtain ⟨ptr, h5, -⟩ := h 0x4e00 (by decide)
    exact absurd h5 (by simp [UsbdTd.buffPtr])
  · have h5 := h 0x4e00 (by decide)
    rw [UsbdTd.byteAddr, hptr] at h5
    exact absurd h5 (by simp [UsbdTd.buffPtr])

end ShieldLoader
