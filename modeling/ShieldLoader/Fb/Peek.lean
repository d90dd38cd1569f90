import ShieldLoader.Fb.Exchange

/-!
# Pages of `peek`

`oem peek` sends its items in packets, each with as many as fit in whole. The state between two
packets is in `fb->peek`: the address and the number of the items that are left. Fields have one
width, so the text of a reply is read back without its packets.
-/

namespace ShieldLoader

open EStateM Usbd PollInput

/-- The arguments that `fb_oem_cmd_peek` accepts. -/
structure FbPeekState.Ok (peek : FbPeekState) : Prop where
  access : isAccess peek.access = true
  ascii : peek.ascii = true → peek.access = 1

namespace FbPeekState

/-- The width of a field: two digits for each byte, and a blank. -/
def width (peek : FbPeekState) : Nat := 2 * peek.access.toNat + 1

/-- How many items a full packet has. -/
def perPacket (peek : FbPeekState) : Nat := 59 / peek.width

/-- The number in memory that item `i` shows. -/
def value (s : Fb) (peek : FbPeekState) (i : Nat) : UInt64 :=
  s.loadWord (peek.addr + UInt64.ofNat i * peek.access) peek.access.toNat

/-- The first `n` fields. -/
def fields (s : Fb) (peek : FbPeekState) (n : Nat) : List UInt8 :=
  (List.range n).flatMap fun i => fbOemCmdPeekExe.item peek (peek.value s i)

/-- `n` items further on. -/
def advance (peek : FbPeekState) (n : Nat) : FbPeekState :=
  { peek with
    addr := peek.addr + UInt64.ofNat n * peek.access
    items := peek.items - UInt64.ofNat n }

/-- A packet with as many of the items as it can have. -/
def page (s : Fb) (peek : FbPeekState) : List UInt8 :=
  bytes "INFO" ++ peek.fields s peek.count ++ [0]

/-! ### Fields -/

section
variable {s s' : Fb} {peek : FbPeekState}

theorem Ok.advance (h : peek.Ok) (n : Nat) : (peek.advance n).Ok := ⟨h.access, h.ascii⟩

theorem value_lt (h : peek.Ok) (i : Nat) : (peek.value s i).toNat < 256 ^ peek.access.toNat := by
  have h8 : peek.access.toNat ≤ 8 := by
    rcases isAccess_cases h.access with h | h | h | h <;> omega
  exact s.toNat_loadWord_lt _ h8

/-- All fields have one width. -/
theorem length_item (h : peek.Ok) {v : UInt64} (hv : v.toNat < 256 ^ peek.access.toNat) :
    (fbOemCmdPeekExe.item peek v).length = peek.width := by
  have h1 : 1 ≤ peek.access.toNat := by
    rcases isAccess_cases h.access with h | h | h | h <;> omega
  have hblank : (bytes " ").length = 1 := rfl
  rw [fbOemCmdPeekExe.item, width]
  split
  · next hascii =>
    rw [h.ascii hascii.1, List.length_append, List.length_append, hblank, List.length_singleton]
    rfl
  · have h16 : 256 ^ peek.access.toNat = 16 ^ (2 * peek.access.toNat) := by rw [Nat.pow_mul]
    rw [List.length_append, length_fmtHexPad (by omega) (h16 ▸ hv), hblank]

theorem value_advance (n i : Nat) : (peek.advance n).value s i = peek.value s (n + i) := by
  rw [value, value, UInt64.ofNat_add, UInt64.add_mul, ← UInt64.add_assoc]
  rfl

theorem fields_add (m n : Nat) :
    peek.fields s (m + n) = peek.fields s m ++ (peek.advance m).fields s n := by
  rw [fields, List.range_add, List.flatMap_append, List.flatMap_map]
  simp only [fields, value_advance]
  rfl

theorem fields_zero : peek.fields s 0 = [] := rfl

theorem fields_one : peek.fields s 1 = fbOemCmdPeekExe.item peek (peek.value s 0) :=
  List.append_nil _

/-- The fields depend on the memory. -/
theorem fields_congr (h : s'.mem = s.mem) (n : Nat) : peek.fields s' n = peek.fields s n := by
  simp only [fields, value, loadWord, load, h]

theorem length_fields (h : peek.Ok) (n : Nat) : (peek.fields s n).length = n * peek.width := by
  induction n generalizing peek with
  | zero => rw [fields_zero, List.length_nil, Nat.zero_mul]
  | succ n ih =>
    have hrest : ((peek.advance 1).fields s n).length = n * peek.width := ih (h.advance 1)
    rw [Nat.add_comm n 1, fields_add, fields_one, List.length_append, length_item h (value_lt h 0),
      hrest, Nat.add_mul, Nat.one_mul]

/-- A field is where its number says. -/
theorem fields_drop_take (h : peek.Ok) {i n : Nat} (hi : i < n) :
    ((peek.fields s n).drop (i * peek.width)).take peek.width =
      fbOemCmdPeekExe.item peek (peek.value s i) := by
  obtain ⟨k, rfl⟩ := Nat.exists_eq_add_of_lt hi
  have hitem := length_item h (@value_lt s peek h i)
  rw [Nat.add_assoc, fields_add, List.drop_left' (length_fields h i), Nat.add_comm k 1, fields_add,
    fields_one, value_advance, Nat.add_zero]
  exact List.take_left' hitem

/-! ### Packets -/

/-- No field of a packet is cut. -/
theorem loop_eq (h : peek.Ok) {lenToFill n : Nat} (hn : n * peek.width < lenToFill) :
    fbOemCmdPeekExe.loop s peek lenToFill n =
      (peek.fields s n, peek.addr + UInt64.ofNat n * peek.access) := by
  induction n generalizing peek lenToFill with
  | zero =>
    rw [fbOemCmdPeekExe.loop, fields_zero]
    exact congrArg _ (by rw [show UInt64.ofNat 0 = 0 from rfl, UInt64.zero_mul, UInt64.add_zero])
  | succ n ih =>
    set next : FbPeekState := { peek with addr := peek.addr + peek.access } with hnext
    rw [Nat.add_mul, Nat.one_mul] at hn
    have hfits : n * next.width < lenToFill - peek.width := Nat.lt_sub_of_add_lt hn
    have hrest := @ih next ⟨h.access, h.ascii⟩ (lenToFill - peek.width) hfits
    have hfields : next.fields s n = (peek.advance 1).fields s n := by
      have haddr : peek.addr + UInt64.ofNat 1 * peek.access = peek.addr + peek.access := by
        rw [show UInt64.ofNat 1 = 1 from rfl, UInt64.one_mul]
      simp only [fields, value, advance, haddr, hnext]
      rfl
    have hvalue : s.loadWord peek.addr peek.access.toNat = peek.value s 0 := by
      rw [value, show UInt64.ofNat 0 = 0 from rfl, UInt64.zero_mul, UInt64.add_zero]
    have hitem : scnprintf lenToFill (fbOemCmdPeekExe.item peek (peek.value s 0)) =
        fbOemCmdPeekExe.item peek (peek.value s 0) :=
      List.take_of_length_le (by rw [length_item h (value_lt h 0)]; omega)
    rw [fbOemCmdPeekExe.loop, hvalue, hitem]
    show (_ ++ (fbOemCmdPeekExe.loop s next (lenToFill - peek.width) n).1,
      (fbOemCmdPeekExe.loop s next (lenToFill - peek.width) n).2) = _
    rw [hrest, Nat.add_comm n 1, fields_add, fields_one, hfields, UInt64.ofNat_add, UInt64.add_mul,
      show UInt64.ofNat 1 = 1 from rfl, UInt64.one_mul, ← UInt64.add_assoc]

theorem count_eq : peek.count = min peek.perPacket peek.items.toNat := rfl

theorem loop_count (h : peek.Ok) : fbOemCmdPeekExe.loop s peek (64 - 4 - 1) peek.count =
    (peek.fields s peek.count, peek.addr + UInt64.ofNat peek.count * peek.access) := by
  refine loop_eq h ?_
  -- one more than the items must fit
  have hle : peek.count * peek.width ≤ peek.perPacket * peek.width :=
    Nat.mul_le_mul_right _ (Nat.min_le_left _ _)
  have hper : peek.perPacket * peek.width < 59 := by
    rw [perPacket, width]
    rcases isAccess_cases h.access with h | h | h | h <;> rw [h] <;> decide
  exact hle.trans_lt hper

theorem next_eq (h : peek.Ok) : peek.next s = peek.advance peek.count := by
  rw [next, loop_count h]
  rfl

theorem packet_eq (h : peek.Ok) : peek.packet s = peek.page s := by
  rw [packet, loop_count h, page]

theorem page_congr (h : s'.mem = s.mem) : peek.page s' = peek.page s := by
  rw [page, page, fields_congr h]

/-- How many packets the items need. -/
def pages (peek : FbPeekState) : Nat := (peek.items.toNat + peek.perPacket - 1) / peek.perPacket

theorem toNat_items_advance : (peek.advance peek.count).items.toNat =
    peek.items.toNat - peek.count := peek.toNat_items_sub

theorem perPacket_cases (h : peek.Ok) : peek.perPacket = 19 ∨ peek.perPacket = 11 ∨
    peek.perPacket = 6 ∨ peek.perPacket = 3 := by
  rw [perPacket, width]
  rcases isAccess_cases h.access with h | h | h | h <;> rw [h] <;> decide

theorem pages_of_count_eq (h : peek.Ok) (h0 : peek.count = 0) :
    peek.items.toNat = 0 ∧ peek.pages = 0 := by
  rw [count_eq] at h0
  rw [pages]
  rcases perPacket_cases h with hper | hper | hper | hper <;> rw [hper] at h0 ⊢ <;> omega

theorem pages_advance (h : peek.Ok) (h0 : peek.count ≠ 0) :
    peek.pages = (peek.advance peek.count).pages + 1 := by
  have hper' : (peek.advance peek.count).perPacket = peek.perPacket := rfl
  rw [pages, pages, hper', toNat_items_advance]
  rw [count_eq] at h0 ⊢
  rcases perPacket_cases h with hper | hper | hper | hper <;> rw [hper] at h0 ⊢ <;> omega

end

end FbPeekState

/-! ### Replies -/

/-- The value of a field: a character between blanks, or a hexadecimal number. -/
def fieldValue (field : List UInt8) : UInt64 :=
  if deref field = ' '.toNat.toUInt8 then (deref (field.drop 1)).toUInt64
  else (simpleStrtoull field 16).1

/-- The text of a packet after `INFO`, without its `0`. -/
def infoText (p : List UInt8) : List UInt8 := (p.drop 4).dropLast

/-- The packets `ps` have the items of `peek`, whole and in their order. -/
structure Paged (s : Fb) (peek : FbPeekState) (ps : List (List UInt8)) : Prop where
  count : ps.length = peek.pages
  packet : ∀ p ∈ ps, p.length ≤ 64 ∧
    ∃ t, p = bytes "INFO" ++ t ++ [0] ∧ peek.width ∣ t.length
  text : ps.flatMap infoText = peek.fields s peek.items.toNat

section
variable {s s' : Fb} {peek : FbPeekState}

theorem fieldValue_item (h : peek.Ok) {v : UInt64} (hv : v.toNat < 256 ^ peek.access.toNat) :
    fieldValue (fbOemCmdPeekExe.item peek v) = v := by
  rw [fbOemCmdPeekExe.item]
  split
  · next hascii =>
    rw [h.ascii hascii.1] at hv
    show v.toUInt8.toUInt64 = v
    rw [← UInt64.toNat_inj, UInt8.toNat_toUInt64, UInt64.toNat_toUInt8]
    exact Nat.mod_eq_of_lt hv
  · have hread := @simpleStrtoull_fmtHexPad (2 * peek.access.toNat) v (bytes " ") (by decide)
      (by decide)
    have hdigit : deref (fmtHexPad (2 * peek.access.toNat) v ++ bytes " ") ≠ ' '.toNat.toUInt8 := by
      have hdigits := @isHexDigit_of_mem_fmtHexPad (2 * peek.access.toNat) v
      cases hpad : fmtHexPad (2 * peek.access.toNat) v with
      | nil => simp [fmtHexPad, fmtHex] at hpad
      | cons c l =>
        intro hblank
        have hc := (hdigits (hpad ▸ List.mem_cons_self ..)).xdigit
        rw [show c = ' '.toNat.toUInt8 from hblank] at hc
        exact absurd hc (by decide)
    rw [fieldValue, if_neg hdigit, hread]

theorem Paged.nil (h : peek.Ok) (h0 : peek.count = 0) : Paged s peek [] := by
  obtain ⟨hitems, hpages⟩ := FbPeekState.pages_of_count_eq h h0
  refine ⟨hpages.symm, fun p hp => absurd hp List.not_mem_nil, ?_⟩
  rw [hitems]
  rfl

/-- A packet goes before those of the items behind it. -/
theorem Paged.cons {ps : List (List UInt8)} (h : peek.Ok) (h0 : peek.count ≠ 0)
    (hps : Paged s (peek.advance peek.count) ps) : Paged s peek (peek.page s :: ps) := by
  constructor
  · rw [List.length_cons, hps.count, FbPeekState.pages_advance h h0]
  · intro p hp
    cases List.mem_cons.1 hp with
    | inl hp =>
      refine hp ▸ ⟨?_, _, rfl, ?_⟩
      · rw [← FbPeekState.packet_eq h]
        exact peek.length_packet_le s h.access
      · rw [FbPeekState.length_fields h]
        exact Nat.dvd_mul_left ..
    | inr hp => exact hps.packet p hp
  · have hinfo : (bytes "INFO").length = 4 := rfl
    have htext : infoText (peek.page s) = peek.fields s peek.count := by
      rw [infoText, FbPeekState.page, List.append_assoc, List.drop_left' hinfo, List.dropLast_concat]
    have hle : peek.count ≤ peek.items.toNat := Nat.min_le_right _ _
    rw [List.flatMap_cons, htext, hps.text, FbPeekState.toNat_items_advance,
      ← FbPeekState.fields_add, Nat.add_sub_cancel' hle]

/-- The fields of a reply say what is in the memory. -/
theorem Paged.value {ps : List (List UInt8)} (h : Paged s peek ps) (hok : peek.Ok) {i : Nat}
    (hi : i < peek.items.toNat) :
    fieldValue (((ps.flatMap infoText).drop (i * peek.width)).take peek.width) =
      peek.value s i := by
  rw [h.text, FbPeekState.fields_drop_take hok hi]
  exact fieldValue_item hok (FbPeekState.value_lt hok i)

end

/-! ### Transfers -/

/-- The host takes a packet for each of the transfers. -/
def fbTakes : List Finish → FbM (List (List UInt8))
  | [] => pure []
  | f :: fs => do
    let p := (← get).inPacket
    fbPoll (.transfer ep1InReq.ix f)
    let ps ← fbTakes fs
    return p :: ps

/-- A packet with the first items of `peek` is in the IN request, or `OKAY` when there are none. The
items are in the memory of `s`. -/
structure Peeking (s : Fb) (peek : FbPeekState) (s' : Fb) : Prop where
  small : InSmall s'
  mem : s'.mem = s.mem
  ends : peek.count = 0 → Busy (some (.client .endCommandComplete)) s' ∧
    s'.inPacket = bytes "OKAY" ++ [0]
  page : peek.count ≠ 0 → Busy (some (.client .oemCmdPeekExe)) s' ∧
    s'.inPacket = peek.page s ∧ s'.ctx.peek = peek.advance peek.count

section
variable {s s₀ : Fb} {peek : FbPeekState}

theorem fbOemCmdPeekExe_peeking {req : Option Req} (hb : InSmall s) (hok : s.ctx.peek.Ok)
    (hmem : s.mem = s₀.mem) (he : (req.any fun r => (s.req r).error) = false) :
    Post (fbOemCmdPeekExe req) (fun _ s' => Peeking s₀ s.ctx.peek s') (fun e _ => Blocked s e) s := by
  refine (fbOemCmdPeekExe_page hb hok.access he).imp fun _ s' h => ?_
  rcases Nat.eq_zero_or_pos s.ctx.peek.count with h0 | hpos
  · obtain ⟨hsend, -⟩ := h.1 h0
    exact ⟨hsend.inSmall, hsend.mem.trans hmem, fun _ => ⟨hsend.busy, hsend.packet⟩,
      fun hne => absurd h0 hne⟩
  · obtain ⟨hsend, hctx⟩ := h.2 hpos.ne'
    refine ⟨hsend.inSmall, hsend.mem.trans hmem, fun h0 => absurd h0 hpos.ne', fun _ => ?_⟩
    have hpage : s.ctx.peek.packet s = s.ctx.peek.page s₀ :=
      (FbPeekState.packet_eq hok).trans (FbPeekState.page_congr hmem)
    exact ⟨hsend.busy, hsend.packet.trans hpage, by rw [hctx, FbPeekState.next_eq hok]⟩

/-- The packet is taken, and the next one is made of the same memory. -/
theorem peeking_poll_post {f : Finish} (hb : Busy (some (.client .oemCmdPeekExe)) s)
    (hsmall : InSmall s) (hok : s.ctx.peek.Ok) (hmem : s.mem = s₀.mem)
    (hf : f.sizeIocSts &&& usbdTdErrorMask = 0) :
    Post (fbPoll (.transfer ep1InReq.ix f)) (fun _ s' => Peeking s₀ s.ctx.peek s')
      (fun _ _ => False) s := by
  refine in_poll_post hb.1 hf (by simp [hb.2]) fun s₁ h₁ => ?_
  have hc := h₁.taken.complete.trans hb.2
  refine post_usbdNotify.2 ⟨fun hn => absurd (hn.symm.trans hc) (by simp), fun c hc' => ?_⟩
  obtain rfl := Option.some.inj (hc'.symm.trans hc)
  have hctx := h₁.taken.ctx
  rw [← hctx] at hok ⊢
  exact (@fbOemCmdPeekExe_peeking s₁ s₀ (some ep1InReq) (h₁.buffer.trans hsmall) hok
    (h₁.taken.mem.trans hmem) (by simp [h₁.error])).mono (fun _ _ h => h)
    fun _ _ he => he.2 h₁.taken.slot

/-- The packets from here on, when the host takes all of them. -/
theorem peeking_takes_post {fs : List Finish} {s' : Fb} (h : Peeking s peek s')
    (hok : peek.Ok) (hfs : ∀ f ∈ fs, f.sizeIocSts &&& usbdTdErrorMask = 0)
    (hlen : fs.length = peek.pages + 1) :
    Post (fbTakes fs)
      (fun ps s'' => (∃ pages, ps = pages ++ [bytes "OKAY" ++ [0]] ∧ Paged s peek pages) ∧
        s''.reqs ep1InReq.ix = none ∧ s''.ctx.inCommand = false)
      (fun _ _ => False) s' := by
  induction fs generalizing peek s' with
  | nil => simp at hlen
  | cons f fs ih =>
    have hf := hfs f (List.mem_cons_self ..)
    have hfs' : ∀ f ∈ fs, f.sizeIocSts &&& usbdTdErrorMask = 0 := fun f hf =>
      hfs f (List.mem_cons_of_mem _ hf)
    rw [List.length_cons] at hlen
    rw [fbTakes, post_bind, post_get, post_bind]
    rcases Nat.eq_zero_or_pos peek.count with h0 | hpos
    · -- the last packet
      obtain ⟨hb, hp⟩ := h.ends h0
      rw [(FbPeekState.pages_of_count_eq hok h0).2] at hlen
      obtain rfl := List.length_eq_zero_iff.1 (Nat.succ.inj hlen)
      refine (last_poll_post (by decide) hb h.small hf).mono ?_ fun _ _ he => he.1 rfl
      intro _ s₁ h₁
      rw [fbTakes, post_bind, post_pure, post_pure]
      exact ⟨⟨[], by rw [hp]; rfl, .nil hok h0⟩, h₁.2.2⟩
    · obtain ⟨hb, hp, hpeek⟩ := h.page hpos.ne'
      have hpeek' : s'.ctx.peek.Ok := hpeek ▸ hok.advance _
      rw [FbPeekState.pages_advance hok hpos.ne'] at hlen
      refine (peeking_poll_post hb h.small hpeek' h.mem hf).imp fun _ s₁ h₁ => ?_
      rw [hpeek] at h₁
      rw [post_bind]
      refine (ih h₁ (hok.advance _) hfs' (Nat.succ.inj hlen)).imp fun ps s₂ h₂ => ?_
      obtain ⟨⟨pages, rfl, hpages⟩, hidle⟩ := h₂
      exact post_pure.2 ⟨⟨_, by rw [hp]; rfl, .cons hok hpos.ne' hpages⟩, hidle⟩

end

/-! ### Commands -/

/-- The arguments in the text of `oem peek`, if `fb_oem_cmd_peek` accepts them. -/
def fbOemCmdPeek.args (cmd : List UInt8) : Option FbPeekState :=
  let (addr, cmd) := simpleStrtoull cmd 0
  if deref cmd ≠ ' '.toNat.toUInt8 then none
  else
    let (ascii, access, cmd) := fbOemCmdPeek.access (cmd.drop 1)
    if !isAccess access then none
    else
      let (items, cmd) := fbOemCmdPeek.items cmd
      if deref cmd ≠ 0 then none else some ⟨addr, access, items, ascii⟩

section
variable {s : Fb} {cmd : List UInt8} {peek : FbPeekState}

theorem fbOemCmdPeek_of_args (h : fbOemCmdPeek.args cmd = some peek) :
    peek.Ok ∧ fbOemCmdPeek cmd = (do
      modify (Usbd.setCtx fun fb => { fb with peek })
      fbOemCmdPeekExe none
      return fbOk) := by
  rw [fbOemCmdPeek.args] at h
  rw [fbOemCmdPeek]
  obtain ⟨addr, cmd₁, hnum⟩ : ∃ addr cmd₁, simpleStrtoull cmd 0 = (addr, cmd₁) := ⟨_, _, rfl⟩
  rw [hnum] at h ⊢
  dsimp only at h ⊢
  split at h
  · exact absurd h (by simp)
  next hblank =>
  obtain ⟨ascii, access, cmd₂, hacc⟩ : ∃ ascii access cmd₂,
      fbOemCmdPeek.access (cmd₁.drop 1) = (ascii, access, cmd₂) := ⟨_, _, _, rfl⟩
  rw [hacc] at h ⊢
  dsimp only at h ⊢
  split at h
  · exact absurd h (by simp)
  next haccess =>
  obtain ⟨items, cmd₃, hitems⟩ : ∃ items cmd₃, fbOemCmdPeek.items cmd₂ = (items, cmd₃) :=
    ⟨_, _, rfl⟩
  rw [hitems] at h ⊢
  dsimp only at h ⊢
  split at h
  · exact absurd h (by simp)
  next hend =>
  obtain rfl := Option.some.inj h
  refine ⟨⟨by simpa using haccess, (fbOemCmdPeek.access_spec hacc).1⟩, ?_⟩
  rw [if_neg hblank, if_neg haccess, if_neg hend, modify_bind_modify, modify_bind_modify]
  rfl

theorem fbCmdOem_peek (cmd : List UInt8) : fbCmdOem (bytes "peek " ++ cmd) = fbOemCmdPeek cmd := by
  have hname : memcmp (bytes "peek " ++ cmd) (bytes "peek ") = true :=
    memcmp_iff.2 (List.prefix_append ..)
  simp only [fbCmdOem, fbOemCmds, List.find?_cons, hname, List.drop_left]

/-- A command is received in the small buffer. -/
theorem finish_mem_of_listening {f : Finish} (h : Listening (finish ep1OutReq.ix f s)) :
    (finish ep1OutReq.ix f s).mem = s.mem := by
  have hu := (finish_untouched ep1OutReq.ix f s).1
  have hslot : s.reqs ep1OutReq.ix = some ep1OutReq := by
    rw [← hu.reqs]
    exact h.slot
  have hbuf : (s.req ep1OutReq).buffer = .small := by
    rw [← hu.req]
    exact h.buffer
  have hsend : ep1OutReq.ep.send = false := rfl
  simp only [finish, hslot, hsend, Bool.false_eq_true, if_false, hbuf, storeBuffer]

/-- The command is carried out, and its first packet is in the IN request. -/
theorem oemPeek_poll_post {fc : Finish} (hin : s.reqs ep1InReq.ix = none) (hsmall : InSmall s)
    (hsel : UsbdStep.selected (.complete ep1OutReq.ix) (finish ep1OutReq.ix fc s) =
      some (.oem (bytes "peek " ++ cmd)))
    (hargs : fbOemCmdPeek.args cmd = some peek) :
    Post (fbPoll (.transfer ep1OutReq.ix fc)) (fun _ s' => Peeking s peek s') (fun _ _ => False)
      s := by
  obtain ⟨-, hlisten, hok, hcmd⟩ := UsbdStep.selected_eq_some hsel
  have hu := (finish_untouched ep1OutReq.ix fc s).1
  have hmem := finish_mem_of_listening hlisten
  rw [fbPoll, post_usbdPoll_transfer _ (by decide)]
  refine command_round_post hlisten hok (by rw [hu.reqs]; exact hin)
    (by rw [InSmall, hu.req]; exact hsmall) fun s₁ htext hmem₁ hs hc hb he hin₁ hsmall₁ => ?_
  refine fbRxCmdComplete_dispatches hs hc hb he hin₁ hsmall₁ fun s₂ h₂ => ?_
  obtain ⟨hpeek, hcode⟩ := fbOemCmdPeek_of_args hargs
  have hmem₂ : s₂.mem = s.mem := h₂.mem.trans (hmem₁.trans hmem)
  rw [htext, hcmd, fbRxCmdComplete.result, fbDispatch, fbCmdOem_peek, hcode]
  simp only [post_bind, post_modify, post_pure, if_true]
  exact (@fbOemCmdPeekExe_peeking (s₂.setCtx fun fb => { fb with peek }) s none h₂.small hpeek hmem₂
    rfl).mono (fun _ _ h => h) fun _ _ he => he.2 h₂.slot

end

/-- All arguments can be given in a command. -/
theorem fbOemCmdPeek_args_surj {peek : FbPeekState} (h : peek.Ok) :
    ∃ cmd, (bytes "oem peek " ++ cmd).length < 64 ∧
      ∀ n, fbOemCmdPeek.args (cmd ++ List.replicate n 0) = some peek := by
  -- the width as a character or a number
  set width := if peek.ascii then bytes "c" else bytes "0x" ++ fmtHex peek.access with hwidth
  have hlen : width.length ≤ 3 := by
    rw [hwidth]
    split
    · decide
    · have haccess : peek.access.toNat < 16 ^ 1 := by
        rcases isAccess_cases h.access with h | h | h | h <;> omega
      rw [List.length_append, fmtHex, List.length_map]
      exact Nat.add_le_add_left ((Nat.length_toDigits_le_iff (by decide) (by decide)).2 haccess) 2
  have haccess : ∀ rest, fbOemCmdPeek.access (width ++ bytes " " ++ rest) =
      (peek.ascii, peek.access, bytes " " ++ rest) := by
    intro rest
    rw [fbOemCmdPeek.access, hwidth]
    cases hascii : peek.ascii with
    | true =>
      rw [h.ascii hascii]
      rfl
    | false =>
      have hread := @simpleStrtoull_fmtHex peek.access (bytes " " ++ rest) rfl
      have hc : deref (bytes "0x" ++ fmtHex peek.access ++ bytes " " ++ rest) ≠ 'c'.toNat.toUInt8 := by
        show '0'.toNat.toUInt8 ≠ _
        decide
      rw [if_neg Bool.false_ne_true, if_neg hc, List.append_assoc _ _ rest, hread]
  refine ⟨bytes "0x" ++ fmtHex peek.addr ++ (bytes " " ++ (width ++ bytes " " ++
    (bytes "0x" ++ fmtHex peek.items))), ?_, fun n => ?_⟩
  · have haddr := length_fmtHex_le peek.addr
    have hitems := length_fmtHex_le peek.items
    have hname : (bytes "oem peek ").length = 9 ∧ (bytes "0x").length = 2 ∧
        (bytes " ").length = 1 := by decide
    simp only [List.length_append, hname]
    omega
  · have hread := @simpleStrtoull_fmtHex peek.addr (bytes " " ++ (width ++ bytes " " ++
      (bytes "0x" ++ fmtHex peek.items ++ List.replicate n 0))) rfl
    have hzeros : isxdigit (deref (List.replicate n 0)) = false ∧
        deref (List.replicate n (0 : UInt8)) = 0 := by
      cases n with
      | zero => decide
      | succ n => exact ⟨rfl, rfl⟩
    have hitems := @simpleStrtoull_fmtHex peek.items (List.replicate n 0) hzeros.1
    have hblank : ∀ rest, deref (bytes " " ++ rest) = ' '.toNat.toUInt8 := fun _ => rfl
    have hdrop : ∀ rest, (bytes " " ++ rest).drop 1 = rest := fun _ => rfl
    simp only [List.append_assoc] at hread haccess hitems ⊢
    simp only [fbOemCmdPeek.args, fbOemCmdPeek.items, hread, hblank, hdrop, haccess, hitems,
      hzeros.2, h.access, ne_eq, not_true_eq_false, if_false, if_true, Bool.not_true,
      Bool.false_eq_true]

/-- **Peek pages through memory exactly**: when the host takes all packets, `oem peek` sends as many
as its items need and then `OKAY`. Each packet has whole fields between `INFO` and its `0`, and the
fields of all packets are read back as what is in the memory, one after the other. -/
theorem oemPeek_pages {s : Fb} {cmd : List UInt8} {peek : FbPeekState} {fc : Finish}
    {fs : List Finish} (hin : s.reqs ep1InReq.ix = none) (hsmall : InSmall s)
    (hsel : UsbdStep.selected (.complete ep1OutReq.ix) (finish ep1OutReq.ix fc s) =
      some (.oem (bytes "peek " ++ cmd)))
    (hargs : fbOemCmdPeek.args cmd = some peek)
    (hfs : ∀ f ∈ fs, f.sizeIocSts &&& usbdTdErrorMask = 0) (hlen : fs.length = peek.pages + 1) :
    Post (do
        fbPoll (.transfer ep1OutReq.ix fc)
        fbTakes fs)
      (fun ps s' =>
        (∃ pages, ps = pages ++ [bytes "OKAY" ++ [0]] ∧ pages.length = peek.pages ∧
          (∀ p ∈ pages, p.length ≤ 64 ∧
            ∃ t, p = bytes "INFO" ++ t ++ [0] ∧ peek.width ∣ t.length) ∧
          (pages.flatMap infoText).length = peek.items.toNat * peek.width ∧
          ∀ i < peek.items.toNat,
            fieldValue (((pages.flatMap infoText).drop (i * peek.width)).take peek.width) =
              s.loadWord (peek.addr + UInt64.ofNat i * peek.access) peek.access.toNat) ∧
        s'.reqs ep1InReq.ix = none ∧ s'.ctx.inCommand = false)
      (fun _ _ => False) s := by
  have hok := (fbOemCmdPeek_of_args hargs).1
  rw [post_bind]
  refine (oemPeek_poll_post hin hsmall hsel hargs).imp fun _ s₁ h₁ => ?_
  refine (peeking_takes_post h₁ hok hfs hlen).imp fun ps s₂ h₂ => ?_
  obtain ⟨⟨pages, hps, hpages⟩, hidle⟩ := h₂
  refine ⟨⟨pages, hps, hpages.count, hpages.packet, ?_, fun i hi => hpages.value hok hi⟩, hidle⟩
  rw [hpages.text, FbPeekState.length_fields hok]

/-- Four items in two packets. -/
theorem oemPeek_pages_four :
    Post (do
        fbPoll (.transfer ep1OutReq.ix ⟨0x2d0000, bytes "oem peek 0x1000 8 4"⟩)
        fbTakes [⟨0, []⟩, ⟨0, []⟩, ⟨0, []⟩])
      (fun ps s' =>
        (∃ pages, ps = pages ++ [bytes "OKAY" ++ [0]] ∧
          pages.length = (⟨0x1000, 8, 4, false⟩ : FbPeekState).pages ∧
          (∀ p ∈ pages, p.length ≤ 64 ∧
            ∃ t, p = bytes "INFO" ++ t ++ [0] ∧
              (⟨0x1000, 8, 4, false⟩ : FbPeekState).width ∣ t.length) ∧
          (pages.flatMap infoText).length = 4 * (⟨0x1000, 8, 4, false⟩ : FbPeekState).width ∧
          ∀ i < 4,
            fieldValue (((pages.flatMap infoText).drop
                (i * (⟨0x1000, 8, 4, false⟩ : FbPeekState).width)).take
                (⟨0x1000, 8, 4, false⟩ : FbPeekState).width) =
              waiting.loadWord (0x1000 + UInt64.ofNat i * 8) 8) ∧
        s'.reqs ep1InReq.ix = none ∧ s'.ctx.inCommand = false)
      (fun _ _ => False) waiting :=
  @oemPeek_pages waiting (bytes "0x1000 8 4" ++ List.replicate 45 0) ⟨0x1000, 8, 4, false⟩ _ _ rfl
    rfl (by decide +kernel) (by decide) (by decide) (by decide)

end ShieldLoader
