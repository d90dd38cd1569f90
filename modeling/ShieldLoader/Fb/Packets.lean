import ShieldLoader.Fb.Responses

/-!
# The packets of responses

What the IN request of endpoint 1 holds after each response function: the status, the text after
`INFO`, the size after `DATA`. None of them meets a `BUG_ON`.
-/

namespace ShieldLoader

open EStateM Usbd

/-- The packet in the IN request. -/
def Usbd.inPacket (s : Fb) : List UInt8 :=
  s.loadBuffer ep1InReq (s.req ep1InReq).buffer (s.req ep1InReq).bufferLength.toNat

/-- The IN request is submitted with this packet and callback. -/
structure Sends (p : List UInt8) (c : Option (Complete FbComplete)) (s s' : Fb) : Prop where
  responds : Responds c s s'
  packet : s'.inPacket = p
  buffer : (s'.req ep1InReq).buffer = .small
  mem : s'.mem = s.mem

/-- Why a response is not sent: another one is in flight. -/
def Blocked (s : Fb) (e : Halt) : Prop := e = .inFlight ep1InReq.ix ∧ s.reqs ep1InReq.ix ≠ none

section
variable {s s' : Fb}

/-- The packet depends on the request and its small buffer. -/
theorem Usbd.inPacket_congr (hreq : s'.req ep1InReq = s.req ep1InReq)
    (hsmall : s'.small ep1InReq = s.small ep1InReq) (hb : (s.req ep1InReq).buffer = .small) :
    s'.inPacket = s.inPacket := by
  simp only [inPacket, hreq, hb, loadBuffer, hsmall]

theorem toNat_ofNat_of_le {n : Nat} (h : n ≤ 64) : (UInt32.ofNat n).toNat = n := by
  rw [UInt32.toNat_ofNat']
  exact Nat.mod_eq_of_lt (by omega)

/-- How every response ends: its text is stored in the small buffer, the request is filled in by `f`
and submitted. -/
theorem Still.sends {s₁ : Fb} {p : List UInt8} {n : Nat} {c : Option (Complete FbComplete)}
    {f : UsbdReq FbComplete → UsbdReq FbComplete} (h : Still s s₁)
    (hb : (s₁.req ep1InReq).buffer = .small) (hmem : s₁.mem = s.mem)
    (hfb : (f (s₁.req ep1InReq)).buffer = .small) (hfc : (f (s₁.req ep1InReq)).complete = c)
    (hn : (f (s₁.req ep1InReq)).bufferLength.toNat = n) (hle : n ≤ p.length) (h64 : n ≤ 64) :
    Post (usbdReqSubmit ep1InReq) (fun _ s' => Sends (p.take n) c s s' ∧ s'.ctx = s₁.ctx)
      (fun e _ => Blocked s e)
      ((s₁.storeBuffer ep1InReq (s₁.req ep1InReq).buffer 0 p).setReq ep1InReq f) := by
  rw [hb]
  have hstill : Still s ((s₁.storeBuffer ep1InReq .small 0 p).setReq ep1InReq f) :=
    (h.trans (Still.storeBuffer ..)).trans (Still.setReq ..)
  have hreq : ((s₁.storeBuffer ep1InReq .small 0 p).setReq ep1InReq f).req ep1InReq =
      f (s₁.req ep1InReq) := by
    rw [setReq_req, Function.update_self, storeBuffer_req]
  generalize hs₂ : (s₁.storeBuffer ep1InReq .small 0 p).setReq ep1InReq f = s₂ at hstill hreq
  have hsmall : s₂.small ep1InReq = p ++ (s₁.small ep1InReq).drop p.length := by
    rw [← hs₂, setReq_small]
    simp only [Usbd.storeBuffer, Function.update_self, List.take_zero, List.nil_append,
      Nat.zero_add]
  have hmin : min (f (s₁.req ep1InReq)).bufferLength maxTransfer =
      (f (s₁.req ep1InReq)).bufferLength := by
    have hmax : maxTransfer.toNat = 0x5000 := rfl
    rw [← UInt32.toNat_inj, UInt32.toNat_min, hn, hmax]
    omega
  refine post_usbdReqSubmit.2 ⟨fun hne => ⟨rfl, hstill.2 ▸ hne⟩, fun _ => ⟨⟨?_, ?_, ?_, ?_⟩, ?_⟩⟩
  · refine hstill.responds ⟨⟨.submitted rfl, rfl, rfl⟩, ?_, ?_⟩
    · rw [submitted_reqs, Function.update_self]
    · rw [submitted_req, Function.update_self, hreq]
      exact hfc
  · rw [inPacket, submitted_req, Function.update_self, hreq]
    show loadBuffer (s₂.submitted ep1InReq) ep1InReq (f (s₁.req ep1InReq)).buffer
      (min (f (s₁.req ep1InReq)).bufferLength maxTransfer).toNat = _
    rw [hmin, hn, hfb, loadBuffer, submitted_small, hsmall, List.take_append_of_le_length hle]
  · rw [submitted_req, Function.update_self, hreq]
    exact hfb
  · rw [← hmem, ← hs₂]; rfl
  · rw [← hs₂]; rfl

end

/-! ### The responses -/

section
variable (s : Fb)

/-- A status is sent as it is, `OKAY` for none, with its final `0`. -/
theorem fbEndCommandWithCustomComplete_sends {status : FbStatus} (complete : FbComplete)
    (h : (status.getD (bytes "OKAY")).length < 64) :
    Post (fbEndCommandWithCustomComplete status complete)
      (fun _ s' => Sends (status.getD (bytes "OKAY") ++ [0]) (some (.client complete)) s s' ∧
        s'.ctx = s.ctx) (fun e _ => Blocked s e) s := by
  have hlen : (UInt32.ofNat ((status.getD (bytes "OKAY")).length + 1)).toNat =
      (status.getD (bytes "OKAY")).length + 1 := toNat_ofNat_of_le (by omega)
  simp only [fbEndCommandWithCustomComplete, post_bind, post_modify, post_get, post_ite,
    post_throw]
  set f : UsbdReq FbComplete → UsbdReq FbComplete := fun q =>
    { q with buffer := .small, bufferLength :=
      UInt32.ofNat ((status.getD (bytes "OKAY")).length + 1) } with hf
  have hreq : (s.setReq ep1InReq f).req ep1InReq = f (s.req ep1InReq) := by
    rw [setReq_req, Function.update_self]
  refine ⟨fun hlt => ?_, fun _ => ?_⟩
  · rw [hreq, UInt32.lt_iff_toNat_lt, hlen] at hlt
    have h64 : (64 : UInt32).toNat = 64 := rfl
    omega
  · have hsend := Still.sends (s := s) (p := status.getD (bytes "OKAY") ++ [0])
      (n := (status.getD (bytes "OKAY")).length + 1) (c := some (.client complete))
      (f := fun q => { q with complete := some (.client complete) }) (Still.setReq s f)
      (by rw [hreq]) rfl (by rw [hreq]) rfl (by rw [hreq, ← hlen]) (by simp) (by omega)
    rw [List.take_of_length_le (by simp)] at hsend
    exact hsend

theorem fbEndCommand_sends {status : FbStatus} (h : (status.getD (bytes "OKAY")).length < 64) :
    Post (fbEndCommand status)
      (fun _ s' => Sends (status.getD (bytes "OKAY") ++ [0])
        (some (.client .endCommandComplete)) s s' ∧ s'.ctx = s.ctx) (fun e _ => Blocked s e) s :=
  fbEndCommandWithCustomComplete_sends s .endCommandComplete h

theorem fbEndCommandWithInfo_sends (info : List UInt8) :
    Post (fbEndCommandWithInfo info)
      (fun _ s' => Sends (bytes "INFO" ++ scnprintf 60 info)
        (some (.client .endCommandWithInfoComplete)) s s' ∧ s'.ctx = s.ctx)
      (fun e _ => Blocked s e) s := by
  have hinfo : (bytes "INFO").length = 4 := rfl
  have hle : (scnprintf 60 info).length ≤ 59 := by
    rw [scnprintf, List.length_take]
    omega
  have hlen : (UInt32.ofNat (scnprintf 60 info).length + 4).toNat =
      (scnprintf 60 info).length + 4 := by
    rw [UInt32.toNat_add, toNat_ofNat_of_le (by omega)]
    exact Nat.mod_eq_of_lt (by simp; omega)
  simp only [fbEndCommandWithInfo, post_bind, post_modify]
  set f : UsbdReq FbComplete → UsbdReq FbComplete := fun q => { q with buffer := .small } with hf
  have hreq : (s.setReq ep1InReq f).req ep1InReq = f (s.req ep1InReq) := by
    rw [setReq_req, Function.update_self]
  have hsend := Still.sends (s := s) (p := bytes "INFO" ++ scnprintf 60 info ++ [0])
    (n := (scnprintf 60 info).length + 4) (c := some (.client .endCommandWithInfoComplete))
    (f := fun q =>
      { q with
        bufferLength := UInt32.ofNat (scnprintf 60 info).length + 4
        complete := some (.client .endCommandWithInfoComplete) })
    (Still.setReq s f) (by rw [hreq]) rfl (by rw [hreq]) rfl hlen
    (by simp only [List.length_append, hinfo]; omega) (by omega)
  rw [List.take_left' (by simp only [List.length_append, hinfo]; omega)] at hsend
  exact hsend

/-- A text finds the IN slot taken. -/
theorem fbEndCommandWithInfo_busy {s : Fb} (h : s.reqs ep1InReq.ix ≠ none) {info : List UInt8} :
    Post (fbEndCommandWithInfo info) (fun _ _ => False) (fun e _ => e = .inFlight ep1InReq.ix) s := by
  simp only [fbEndCommandWithInfo, post_bind, post_modify]
  refine post_usbdReqSubmit.2 ⟨fun _ => rfl, fun hn => h ?_⟩
  rwa [setReq_reqs, storeBuffer_reqs, setReq_reqs] at hn

/-- The size of a download is sent with eight digits. -/
theorem fbRequestData_sends :
    Post fbRequestData
      (fun _ s' => Sends (bytes "DATA" ++ fmtHexPad 8 s.ctx.loadSize.toUInt32.toUInt64) none s s' ∧
        s'.ctx = s.ctx) (fun e _ => Blocked s e) s := by
  have hdata : (bytes "DATA").length = 4 := rfl
  set size := s.ctx.loadSize.toUInt32.toUInt64 with hsize
  have h8 : (fmtHexPad 8 size).length = 8 := by
    refine length_fmtHexPad (by decide) ?_
    rw [hsize, UInt32.toNat_toUInt64]
    exact UInt32.toNat_lt _
  have htext : scnprintf 64 (bytes "DATA" ++ fmtHexPad 8 size) = bytes "DATA" ++ fmtHexPad 8 size :=
    List.take_of_length_le (by rw [List.length_append, h8, hdata]; decide)
  simp only [fbRequestData, post_bind, post_modify, post_get]
  set f : UsbdReq FbComplete → UsbdReq FbComplete := fun q => { q with buffer := .small } with hf
  have hreq : (s.setReq ep1InReq f).req ep1InReq = f (s.req ep1InReq) := by
    rw [setReq_req, Function.update_self]
  rw [setReq_ctx, ← hsize, htext]
  have hsend := Still.sends (s := s) (p := bytes "DATA" ++ fmtHexPad 8 size ++ [0])
    (n := 12) (c := none)
    (f := fun q =>
      { q with
        bufferLength := UInt32.ofNat (bytes "DATA" ++ fmtHexPad 8 size).length, complete := none })
    (Still.setReq s f) (by rw [hreq]) rfl (by rw [hreq]) rfl
    (by rw [List.length_append, h8, hdata]; rfl)
    (by simp only [List.length_append, h8, hdata]; decide) (by decide)
  rw [List.take_left' (by rw [List.length_append, h8, hdata])] at hsend
  exact hsend

end

/-! ### Pages of `peek` -/

/-- A number of `n` bytes in memory is below `256 ^ n`. -/
theorem Usbd.toNat_loadWord_lt (s : Fb) (a : UInt64) {n : Nat} (h : n ≤ 8) :
    (s.loadWord a n).toNat < 256 ^ n := by
  have hfold : ∀ l : List UInt8, l.length ≤ 8 →
      (l.foldr (fun (b : UInt8) (w : UInt64) => w <<< 8 ||| b.toUInt64) 0).toNat <
        2 ^ (8 * l.length) := by
    intro l
    induction l with
    | nil => exact fun _ => by simp
    | cons b l ih =>
      intro hl
      rw [List.length_cons] at hl ⊢
      have hb : b.toNat < 2 ^ 8 := b.toNat_lt
      have hw := ih (by omega)
      rw [List.foldr_cons, UInt64.toNat_or, UInt8.toNat_toUInt64, UInt64.toNat_shiftLeft]
      refine Nat.or_lt_two_pow (lt_of_le_of_lt (Nat.mod_le _ _) ?_) ?_
      · rw [Nat.shiftLeft_eq, Nat.mul_add, Nat.pow_add]
        exact Nat.mul_lt_mul_of_pos_right hw (by decide)
      · exact hb.trans_le (Nat.pow_le_pow_right (by decide) (by omega))
  have hlen : (s.load a n).length = n := by simp [load]
  have h256 : 256 ^ n = 2 ^ (8 * n) := by rw [Nat.pow_mul]
  have := hfold (s.load a n) (by omega)
  rwa [hlen, ← h256] at this

theorem isAccess_cases {access : UInt64} (h : isAccess access = true) :
    access.toNat = 1 ∨ access.toNat = 2 ∨ access.toNat = 4 ∨ access.toNat = 8 := by
  simp only [isAccess, Bool.or_eq_true, decide_eq_true_eq] at h
  rcases h with ((rfl | rfl) | rfl) | rfl <;> decide

/-- An item has its two digits for each byte and a blank, or three characters. -/
theorem fbOemCmdPeekExe.length_item_le {peek : FbPeekState} {value : UInt64}
    (ha : isAccess peek.access = true) (hv : value.toNat < 256 ^ peek.access.toNat) :
    (fbOemCmdPeekExe.item peek value).length ≤ 2 * peek.access.toNat + 1 := by
  have h1 : 1 ≤ peek.access.toNat := by
    rcases isAccess_cases ha with h | h | h | h <;> omega
  have hblank : (bytes " ").length = 1 := rfl
  rw [item]
  split
  · simp only [List.length_append, hblank, List.length_singleton]
    omega
  · have h16 : 256 ^ peek.access.toNat = 16 ^ (2 * peek.access.toNat) := by rw [Nat.pow_mul]
    rw [List.length_append, length_fmtHexPad (by omega) (h16 ▸ hv), hblank]

theorem fbOemCmdPeekExe.length_loop_le (s : Fb) {peek : FbPeekState}
    (ha : isAccess peek.access = true) (lenToFill n : Nat) :
    (fbOemCmdPeekExe.loop s peek lenToFill n).1.length ≤ n * (2 * peek.access.toNat + 1) := by
  induction n generalizing peek lenToFill with
  | zero => simp [loop]
  | succ n ih =>
    have h8 : peek.access.toNat ≤ 8 := by
      rcases isAccess_cases ha with h | h | h | h <;> omega
    have hitem := length_item_le ha (s.toNat_loadWord_lt peek.addr h8)
    have hrest := @ih { peek with addr := peek.addr + peek.access } ha
      (lenToFill - (2 * peek.access.toNat + 1))
    have htake : (scnprintf lenToFill (item peek (s.loadWord peek.addr peek.access.toNat))).length ≤
        2 * peek.access.toNat + 1 := by
      rw [scnprintf, List.length_take]
      omega
    simp only [loop, List.length_append]
    rw [Nat.add_mul, Nat.one_mul]
    dsimp only at hrest
    omega

/-- How many items the next packet of `peek` has. -/
def FbPeekState.count (peek : FbPeekState) : Nat :=
  min ((64 - 4 - 1) / (2 * peek.access.toNat + 1)) peek.items.toNat

/-- The state of `peek` behind its next packet. -/
def FbPeekState.next (s : Fb) (peek : FbPeekState) : FbPeekState :=
  { peek with
    addr := (fbOemCmdPeekExe.loop s peek (64 - 4 - 1) peek.count).2
    items := peek.items - UInt64.ofNat peek.count }

/-- The next packet of `peek`. -/
def FbPeekState.packet (s : Fb) (peek : FbPeekState) : List UInt8 :=
  bytes "INFO" ++ (fbOemCmdPeekExe.loop s peek (64 - 4 - 1) peek.count).1 ++ [0]

/-- The items of a packet are no longer to come. -/
theorem FbPeekState.toNat_items_sub (peek : FbPeekState) :
    (peek.items - UInt64.ofNat peek.count).toNat = peek.items.toNat - peek.count := by
  have hle : peek.count ≤ peek.items.toNat := Nat.min_le_right _ _
  have hof : (UInt64.ofNat peek.count).toNat = peek.count :=
    UInt64.toNat_ofNat_of_lt' (hle.trans_lt peek.items.toNat_lt)
  rw [UInt64.toNat_sub_of_le _ _ (by rw [UInt64.le_iff_toNat_le, hof]; exact hle), hof]

theorem FbPeekState.length_packet_le (s : Fb) {peek : FbPeekState}
    (ha : isAccess peek.access = true) : (peek.packet s).length ≤ 64 := by
  have hloop := fbOemCmdPeekExe.length_loop_le s ha (64 - 4 - 1) peek.count
  have hcount : peek.count * (2 * peek.access.toNat + 1) ≤ 59 :=
    (Nat.mul_le_mul_right _ (Nat.min_le_left _ _)).trans (Nat.div_mul_le_self _ _)
  have hinfo : (bytes "INFO").length = 4 := rfl
  simp only [packet, List.length_append, hinfo, List.length_singleton]
  omega

/-- `peek` sends its next packet, or `OKAY` when there is none. -/
theorem fbOemCmdPeekExe_page {req : Option Req} {s : Fb}
    (hb : (s.req ep1InReq).buffer = .small) (ha : isAccess s.ctx.peek.access = true)
    (he : (req.any fun r => (s.req r).error) = false) :
    Post (fbOemCmdPeekExe req)
      (fun _ s' =>
        (s.ctx.peek.count = 0 → Sends (bytes "OKAY" ++ [0]) (some (.client .endCommandComplete))
          s s' ∧ s'.ctx = s.ctx) ∧
        (s.ctx.peek.count ≠ 0 → Sends (s.ctx.peek.packet s) (some (.client .oemCmdPeekExe)) s s' ∧
          s'.ctx = { s.ctx with peek := s.ctx.peek.next s }))
      (fun e _ => Blocked s e) s := by
  simp only [fbOemCmdPeekExe, post_bind, post_get, post_ite, post_pure, post_modify, post_throw]
  refine ⟨fun h => absurd h (by simp [he]), fun _ => ⟨fun hcount => ?_, fun hcount => ?_⟩⟩
  · refine (fbEndCommand_sends s (by decide)).imp fun _ s' h => ⟨fun _ => h, fun hne => ?_⟩
    exact absurd hcount hne
  have hle := s.ctx.peek.length_packet_le s ha
  refine ⟨fun h => absurd h (Nat.not_lt.2 hle), fun _ => ?_⟩
  have hsend := Still.sends (s := s) (n := (s.ctx.peek.packet s).length) (p := s.ctx.peek.packet s)
    (c := some (.client .oemCmdPeekExe))
    (f := fun q =>
      { q with
        bufferLength := UInt32.ofNat (s.ctx.peek.packet s).length
        complete := some (.client .oemCmdPeekExe) })
    (Still.setCtx s (f := fun fb => { fb with peek := s.ctx.peek.next s }) rfl rfl) hb rfl hb rfl
    (toNat_ofNat_of_le hle) le_rfl hle
  rw [show ((setCtx (fun fb => { fb with peek := s.ctx.peek.next s }) s).req ep1InReq).buffer =
    .small from hb, List.take_length] at hsend
  exact hsend.imp fun _ s' h => ⟨fun h0 => absurd h0 hcount, fun _ => ⟨h.1, h.2.trans rfl⟩⟩

/-- A page of `peek` has been sent, and fewer items are left. -/
structure Peeked (s s' : Fb) : Prop where
  sends : ∃ text, Sends (bytes "INFO" ++ text) (some (.client .oemCmdPeekExe)) s s'
  ctx : s'.ctx = { s.ctx with peek := s'.ctx.peek }
  access : s'.ctx.peek.access = s.ctx.peek.access
  items : s'.ctx.peek.items.toNat < s.ctx.peek.items.toNat

/-- `peek` sends its next page, or `OKAY` when there is none. -/
theorem fbOemCmdPeekExe_sends {req : Option Req} {s : Fb}
    (hb : (s.req ep1InReq).buffer = .small) (ha : isAccess s.ctx.peek.access = true)
    (he : (req.any fun r => (s.req r).error) = false) :
    Post (fbOemCmdPeekExe req)
      (fun _ s' => (Sends (bytes "OKAY" ++ [0]) (some (.client .endCommandComplete)) s s' ∧
        s'.ctx = s.ctx) ∨ Peeked s s') (fun e _ => Blocked s e) s := by
  refine (fbOemCmdPeekExe_page hb ha he).imp fun _ s' h => ?_
  rcases Nat.eq_zero_or_pos s.ctx.peek.count with h0 | hpos
  · exact .inl (h.1 h0)
  · obtain ⟨hsend, hctx⟩ := h.2 hpos.ne'
    refine .inr ⟨⟨_, by rwa [FbPeekState.packet, List.append_assoc] at hsend⟩, ?_, ?_, ?_⟩
    · rw [hctx]
    · rw [hctx]
      rfl
    · -- at least one item is sent, and no more than are left
      have hle : s.ctx.peek.count ≤ s.ctx.peek.items.toNat := Nat.min_le_right _ _
      rw [hctx]
      exact s.ctx.peek.toNat_items_sub.trans_lt (by omega)

end ShieldLoader
