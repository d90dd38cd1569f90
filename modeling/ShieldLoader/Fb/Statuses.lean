import ShieldLoader.Fb.Image
import ShieldLoader.Fb.Packets
import ShieldLoader.Lmb.Named

/-!
# Statuses

A command that fails should have changed nothing, and an `oem free`, `oem alloc` or `oem alloc32`
that succeeds should have done what it says. `FbDeed.Honest` is when this is so.
-/

namespace ShieldLoader

open EStateM Usbd

/-! ### Arguments -/

/-- The arguments of `fb_oem_cmd_free`; `none` for a bad command. -/
def fbOemCmdFree.args (cmd : List UInt8) : Option (UInt64 × UInt64 × UInt64) :=
  let (addr, cmd) := simpleStrtoull cmd 0
  if deref cmd ≠ ' '.toNat.toUInt8 then none
  else
    let (size, cmd) := simpleStrtoull (cmd.drop 1) 0
    if deref cmd ≠ ' '.toNat.toUInt8 then none
    else
      let (align, cmd) := simpleStrtoull (cmd.drop 1) 0
      if deref cmd ≠ 0 then none else some (addr, size, align)

/-- The arguments of `fb_oem_cmd_alloc_ex`; `none` for a bad command. -/
def fbOemCmdAllocEx.args (cmd : List UInt8) : Option (UInt64 × UInt64 × LmbType) :=
  let (size, cmd) := simpleStrtoull cmd 0
  if deref cmd ≠ ' '.toNat.toUInt8 then none
  else
    let (align, cmd) := simpleStrtoull (cmd.drop 1) 0
    (fbOemCmdAllocEx.type cmd).map fun type => (size, align, type)

/-- What the loop of `fb_oem_cmd_poke` stores, and whether it comes to the end of the command. -/
def fbOemCmdPoke.stored (access : UInt64) (ascii : Bool) (cmd : List UInt8) : List UInt8 × Bool :=
  if _h : deref cmd = 0 then ([], true)
  else if ascii then
    let (data, ok) := stored access ascii (cmd.drop 1)
    (deref cmd :: data, ok)
  else
    let value := (simpleStrtoull cmd 0).1
    let rest := (simpleStrtoull cmd 0).2
    if _h' : deref rest = ' '.toNat.toUInt8 then
      let (data, ok) := stored access ascii (rest.drop 1)
      (wordBytes value access.toNat ++ data, ok)
    else if _h' : deref rest = 0 then
      let (data, ok) := stored access ascii rest
      (wordBytes value access.toNat ++ data, ok)
    else ([], false)
termination_by cmd.length
decreasing_by
  · exact length_drop_one_lt _h
  · exact (length_drop_one_lt (by rw [_h']; decide)).trans_le
      (simpleStrtoull_suffix cmd 0).length_le
  · exact simpleStrtoull_length_lt _h _h'

/-- The address and the bytes that `fb_oem_cmd_poke` has stored when it comes to a malformed
number; `none` if it does not come to one. -/
def fbOemCmdPoke.refused (cmd : List UInt8) : Option (UInt64 × List UInt8) :=
  let (addr, cmd) := simpleStrtoull cmd 0
  if deref cmd ≠ ' '.toNat.toUInt8 then none
  else
    let (ascii, access, cmd) := fbOemCmdPeek.access (cmd.drop 1)
    if !isAccess access then none
    else if deref cmd ≠ ' '.toNat.toUInt8 then none
    else
      let (data, ok) := fbOemCmdPoke.stored access ascii (cmd.drop 1)
      if ok then none else some (addr, data)

/-- What a command acts on. -/
inductive FbDeed where
  | poke (cmd : List UInt8)
  | alloc (cmd : List UInt8) (maxAddr : UInt64)
  | free (cmd : List UInt8)
  | download (cmd : List UInt8)
  | other
  deriving DecidableEq, Repr

/-- What the selected command acts on, with its arguments. -/
def FbSelected.deed : FbSelected → FbDeed
  | .oem cmd =>
    if memcmp cmd (bytes "poke ") then .poke (cmd.drop 5)
    else if memcmp cmd (bytes "alloc ") then .alloc (cmd.drop 6) lmbAllocAnywhere
    else if memcmp cmd (bytes "alloc32 ") then .alloc (cmd.drop 8) lmbAlloc32Bit
    else if memcmp cmd (bytes "free ") then .free (cmd.drop 5)
    else .other
  | .download cmd => .download cmd
  | .reboot _ | .flash _ | .unknown => .other

/-- What the success of a command says of the reserved table before and after it: the range that
`oem free` names is gone, and the block whose address `oem alloc` reports is there. -/
def FbDeed.Done : FbDeed → Fb → Fb → Prop
  | .free cmd, s, s' => ∃ addr size align, fbOemCmdFree.args cmd = some (addr, size, align) ∧
      Removed s.ctx.lmb.reserved.table addr.toNat (maskUp size.toNat align.toNat)
        s'.ctx.lmb.reserved.table
  | .alloc cmd _, s, s' => ∃ size align type b,
      fbOemCmdAllocEx.args cmd = some (size, align, type) ∧
      s'.inPacket = bytes "INFO0x" ++ fmtHex b ∧
      Added s.ctx.lmb.reserved.table b.toNat (maskUp size.toNat align.toNat)
        s'.ctx.lmb.reserved.table
  | .poke _, _, _ | .download _, _, _ | .other, _, _ => True

/-- The status that the code of a command returns is truthful: when it fails, the memory, the tables
of the allocator and the image are as they were, and when it succeeds it has done what it says. -/
def FbDeed.Truthful (d : FbDeed) (x : FbM FbStatus) (s : Fb) : Prop :=
  Post x (fun st s' => (st ≠ fbOk → s'.mem = s.mem ∧ s'.ctx.image = s.ctx.image) ∧
    (st = fbOk → d.Done s s')) (fun _ _ => True) s

/-- The status of the selected command is truthful. -/
def FbSelected.Truthful (call : Complete FbComplete → Req → FbM Unit) (sel : FbSelected) (s : Fb) :
    Prop :=
  sel.deed.Truthful (fbDispatch call sel) s

/-- `download:` fails with these tables: its text is not a number, or there is no room. -/
def fbCmdDownload.Refuses (lmb : Lmb) (cmd : List UInt8) : Prop :=
  deref (simpleStrtoull cmd 16).2 ≠ 0 ∨
    ∃ lmb', lmbAllocBase lmb (simpleStrtoull cmd 16).1 downloadAlignment lmbAlloc32Bit .boot
      tagDlod = some (0, lmb')

/-- When the status of a command is truthful.

* `oem poke` comes to no malformed number, or has stored the bytes that were there;
* `oem free` finds something to remove, which `lmb_free` does not report to it;
* the block that `lmb_alloc_base` finds and takes is listed;
* there is no image for `download:` to discard, or the text is a number and, after the image is
  freed, there is room. -/
def FbDeed.Honest : FbDeed → Fb → Prop
  | .poke cmd, s => ∀ addr data, fbOemCmdPoke.refused cmd = some (addr, data) →
      s.load addr data.length = data
  | .free cmd, s => ∀ addr size align, fbOemCmdFree.args cmd = some (addr, size, align) →
      Removable s.ctx.lmb addr size align
  | .alloc cmd maxAddr, s => ∀ size align type b,
      fbOemCmdAllocEx.args cmd = some (size, align, type) →
      lmbAllocBase.search s.ctx.lmb (lmbAlignUp size align) align maxAddr
        s.ctx.lmb.memory.cnt.toNat = some b →
      s.ctx.lmb.reserved.Takes ⟨b, lmbAlignUp size align, tagFbrq, type⟩ →
      BlockListed s.ctx.lmb size align type tagFbrq b
  | .download cmd, s => s.ctx.lastLoaded = 0 ∨
      ∀ r lmb, lmbFree s.ctx.lmb s.ctx.lastLoaded s.ctx.loadSize s.ctx.loadAlign = some (r, lmb) →
        ¬fbCmdDownload.Refuses lmb cmd
  | .other, _ => True

/-! ### The text of a command -/

theorem fbOemCmdFree_eq (cmd : List UInt8) : fbOemCmdFree cmd =
    match fbOemCmdFree.args cmd with
    | none => pure fbBadCommand
    | some (addr, size, align) => do
      let _ ← lmbCall fun lmb => lmbFree lmb addr size align
      fbEndCommand fbOk
      return fbOk := by
  rw [fbOemCmdFree, fbOemCmdFree.args]
  dsimp only
  split_ifs <;> rfl

theorem fbOemCmdAllocEx_eq (cmd : List UInt8) (maxAddr : UInt64) : fbOemCmdAllocEx cmd maxAddr =
    match fbOemCmdAllocEx.args cmd with
    | none => pure fbBadCommand
    | some (size, align, type) => do
      let addr ← lmbCall fun lmb => lmbAllocBase lmb size align maxAddr type tagFbrq
      if addr = 0 then return fbOom
      else
        fbEndCommandWithInfo (bytes "0x" ++ fmtHex addr)
        return fbOk := by
  rw [fbOemCmdAllocEx, fbOemCmdAllocEx.args]
  dsimp only
  split_ifs
  · rfl
  · cases fbOemCmdAllocEx.type (simpleStrtoull ((simpleStrtoull cmd 0).2.drop 1) 0).2 <;> rfl

@[simp] theorem length_wordBytes (w : UInt64) (n : Nat) : (wordBytes w n).length = n := by
  simp [wordBytes]

theorem toNat_le_of_isAccess {access : UInt64} (h : isAccess access = true) :
    access.toNat ≤ 8 := by
  simp only [isAccess, Bool.or_eq_true, decide_eq_true_eq] at h
  rcases h with ((rfl | rfl) | rfl) | rfl <;> decide

/-- Each byte of the text makes at most eight bytes. -/
theorem fbOemCmdPoke.length_stored_le {access : UInt64} (ha : access.toNat ≤ 8) (ascii : Bool)
    (cmd : List UInt8) : (stored access ascii cmd).1.length ≤ 8 * cmd.length := by
  induction cmd using fbOemCmdPoke.stored.induct access ascii with
  | case1 cmd h0 =>
    rw [stored, dif_pos h0]
    exact Nat.zero_le _
  | case2 cmd h0 hascii ih =>
    have hlt := length_drop_one_lt h0
    rw [stored, dif_neg h0, if_pos hascii, List.length_cons]
    omega
  | case3 cmd h0 hascii rest hr ih =>
    have hlt : (rest.drop 1).length < cmd.length :=
      (length_drop_one_lt (by rw [hr]; decide)).trans_le (simpleStrtoull_suffix cmd 0).length_le
    rw [stored, dif_neg h0, if_neg hascii, dif_pos hr, List.length_append, length_wordBytes]
    show access.toNat + (stored access ascii (rest.drop 1)).1.length ≤ _
    omega
  | case4 cmd h0 hascii rest hr hend ih =>
    have hlt : rest.length < cmd.length := simpleStrtoull_length_lt h0 hend
    rw [stored, dif_neg h0, if_neg hascii, dif_neg hr, dif_pos hend, List.length_append,
      length_wordBytes]
    show access.toNat + (stored access ascii rest).1.length ≤ _
    omega
  | case5 cmd h0 hascii rest hr hend =>
    rw [stored, dif_neg h0, if_neg hascii, dif_neg hr, dif_neg hend]
    exact Nat.zero_le _

/-! ### `oem poke` -/

/-- The loop of `fb_oem_cmd_poke` comes to the end of the command and succeeds, or has stored what
comes before a malformed number. -/
theorem fbOemCmdPoke_loop_post {access : UInt64} {ascii : Bool} (ha : isAccess access = true)
    (hascii : ascii = true → access = 1) {cmd : List UInt8} (hlen : cmd.length < 2 ^ 60)
    (addr : UInt64) (s : Fb) :
    Post (fbOemCmdPoke.loop access ascii addr cmd)
      (fun st s' => (fbOemCmdPoke.stored access ascii cmd).2 = true ∧ st = fbOk ∨
        (fbOemCmdPoke.stored access ascii cmd).2 = false ∧ st = fbBadCommand ∧
          s' = s.store addr (fbOemCmdPoke.stored access ascii cmd).1)
      (fun _ _ => (fbOemCmdPoke.stored access ascii cmd).2 = true) s := by
  have h8 := toNat_le_of_isAccess ha
  -- the bytes of one round, and those of the rounds after it
  have hround : ∀ {d : List UInt8} {cmd' : List UInt8} {addr : UInt64} {s : Fb},
      d.length = access.toNat → cmd'.length < 2 ^ 60 →
      (s.store addr d).store (addr + access) (fbOemCmdPoke.stored access ascii cmd').1 =
        s.store addr (d ++ (fbOemCmdPoke.stored access ascii cmd').1) := by
    intro d cmd' addr s hd hcmd
    have hle := fbOemCmdPoke.length_stored_le h8 ascii cmd'
    have hstore := @store_store _ _ s addr d (fbOemCmdPoke.stored access ascii cmd').1 (by omega)
    rwa [hd, UInt64.ofNat_toNat] at hstore
  induction addr, cmd using fbOemCmdPoke.loop.induct access ascii generalizing s with
  | case1 addr cmd h0 =>
    rw [fbOemCmdPoke.loop, fbOemCmdPoke.stored, dif_pos h0, dif_pos h0, post_bind]
    exact (post_true _ s).mono (fun _ _ _ => post_pure.2 (.inl ⟨rfl, rfl⟩)) fun _ _ _ => rfl
  | case2 addr cmd h0 hc ih =>
    have hlt := length_drop_one_lt h0
    rw [fbOemCmdPoke.loop, fbOemCmdPoke.stored, dif_neg h0, dif_neg h0, if_pos hc, if_pos hc,
      post_bind, post_modify]
    refine (ih (by omega) _).mono ?_ fun _ _ he => he
    rintro st s' (h | ⟨hend, hst, rfl⟩)
    · exact .inl h
    · refine .inr ⟨hend, hst, ?_⟩
      exact hround (by rw [hascii hc]; rfl) (by omega)
  | case3 addr cmd h0 hc rest hr ih =>
    have hlt : (rest.drop 1).length < cmd.length :=
      (length_drop_one_lt (by rw [hr]; decide)).trans_le (simpleStrtoull_suffix cmd 0).length_le
    rw [fbOemCmdPoke.loop, fbOemCmdPoke.stored, dif_neg h0, dif_neg h0, if_neg hc, if_neg hc,
      dif_pos hr, dif_pos hr, post_bind, post_modify]
    refine (ih (by omega) _).mono ?_ fun _ _ he => he
    rintro st s' (h | ⟨hend, hst, rfl⟩)
    · exact .inl h
    · exact .inr ⟨hend, hst, hround (length_wordBytes ..) (by omega)⟩
  | case4 addr cmd h0 hc rest hr hend ih =>
    have hlt : rest.length < cmd.length := simpleStrtoull_length_lt h0 hend
    rw [fbOemCmdPoke.loop, fbOemCmdPoke.stored, dif_neg h0, dif_neg h0, if_neg hc, if_neg hc,
      dif_neg hr, dif_neg hr, dif_pos hend, dif_pos hend, post_bind, post_modify]
    refine (ih (by omega) _).mono ?_ fun _ _ he => he
    rintro st s' (h | ⟨hend, hst, rfl⟩)
    · exact .inl h
    · exact .inr ⟨hend, hst, hround (length_wordBytes ..) (by omega)⟩
  | case5 addr cmd h0 hc rest hr hend =>
    rw [fbOemCmdPoke.loop, fbOemCmdPoke.stored, dif_neg h0, dif_neg h0, if_neg hc, if_neg hc,
      dif_neg hr, dif_neg hr, dif_neg hend, dif_neg hend, post_pure]
    exact .inr ⟨rfl, rfl, rfl⟩

/-- `fb_oem_cmd_poke` succeeds, or fails and has stored nothing or the bytes before a malformed
number. -/
theorem fbOemCmdPoke_post {cmd : List UInt8} (hlen : cmd.length < 2 ^ 60) (s : Fb) :
    Post (fbOemCmdPoke cmd)
      (fun st s' => fbOemCmdPoke.refused cmd = none ∧ (st ≠ fbOk → s' = s) ∨
        ∃ addr data, fbOemCmdPoke.refused cmd = some (addr, data) ∧ data.length < 2 ^ 64 ∧
          st = fbBadCommand ∧ s' = s.store addr data)
      (fun _ _ => fbOemCmdPoke.refused cmd = none) s := by
  rw [fbOemCmdPoke, fbOemCmdPoke.refused]
  obtain ⟨addr, cmd₁, hnum⟩ : ∃ addr cmd₁, simpleStrtoull cmd 0 = (addr, cmd₁) := ⟨_, _, rfl⟩
  have hsuf : cmd₁ <:+ cmd := by
    have := simpleStrtoull_suffix cmd 0
    rwa [hnum] at this
  rw [hnum]
  dsimp only
  by_cases h1 : deref cmd₁ ≠ ' '.toNat.toUInt8
  · rw [if_pos h1, if_pos h1, post_pure]
    exact .inl ⟨rfl, fun _ => rfl⟩
  rw [if_neg h1, if_neg h1]
  obtain ⟨ascii, access, cmd₂, hacc⟩ : ∃ ascii access cmd₂,
      fbOemCmdPeek.access (cmd₁.drop 1) = (ascii, access, cmd₂) := ⟨_, _, _, rfl⟩
  obtain ⟨hone, hsuf₂⟩ := fbOemCmdPeek.access_spec hacc
  rw [hacc]
  dsimp only
  by_cases h2 : (!isAccess access) = true
  · rw [if_pos h2, if_pos h2, post_pure]
    exact .inl ⟨rfl, fun _ => rfl⟩
  rw [if_neg h2, if_neg h2]
  by_cases h3 : deref cmd₂ ≠ ' '.toNat.toUInt8
  · rw [if_pos h3, if_pos h3, post_pure]
    exact .inl ⟨rfl, fun _ => rfl⟩
  rw [if_neg h3, if_neg h3]
  have ha : isAccess access = true := by simpa using h2
  have hlen₂ : (cmd₂.drop 1).length < 2 ^ 60 :=
    ((((List.drop_suffix 1 cmd₂).trans hsuf₂).trans (List.drop_suffix 1 cmd₁)).trans
      hsuf).length_le.trans_lt hlen
  have hdata := fbOemCmdPoke.length_stored_le (toNat_le_of_isAccess ha) ascii (cmd₂.drop 1)
  refine (fbOemCmdPoke_loop_post ha hone hlen₂ addr s).mono ?_ fun _ _ he => if_pos he
  rintro st s' (⟨hok, rfl⟩ | ⟨hok, rfl, rfl⟩)
  · exact .inl ⟨if_pos hok, fun h => absurd rfl h⟩
  · exact .inr ⟨addr, _, if_neg (by rw [hok]; decide), by omega, rfl, rfl⟩

/-! ### Statuses of handlers -/

section
variable {s : Fb} {cmd : List UInt8}

theorem fbOemCmdPoke_truthful_iff (hlen : cmd.length < 2 ^ 60) :
    (FbDeed.poke cmd).Truthful (fbOemCmdPoke cmd) s ↔ (FbDeed.poke cmd).Honest s := by
  have hpost := fbOemCmdPoke_post hlen s
  constructor
  · intro h addr data href
    refine ((hpost.and h).mono ?_ ?_).const
    · rintro st s' ⟨⟨hnone, -⟩ | ⟨addr', data', href', hdata, rfl, rfl⟩, hkeep, -⟩
      · exact absurd (hnone.symm.trans href) (by simp)
      · obtain ⟨rfl, rfl⟩ := by simpa using href'.symm.trans href
        exact load_of_store hdata (hkeep (by decide)).1
    · rintro e s' ⟨hnone, -⟩
      exact absurd (hnone.symm.trans href) (by simp)
  · intro h
    refine hpost.mono ?_ fun _ _ _ => trivial
    rintro st s' (⟨-, hsame⟩ | ⟨addr, data, href, -, rfl, rfl⟩)
    · refine ⟨fun hst => ?_, fun _ => trivial⟩
      rw [hsame hst]
      exact ⟨rfl, rfl⟩
    · refine ⟨fun _ => ?_, fun _ => trivial⟩
      rw [store_of_load (h addr data href)]
      exact ⟨rfl, rfl⟩

theorem fbOemCmdFree_truthful_iff (hok : s.ctx.lmb.reserved.Ok) (hs : s.reqs ep1InReq.ix = none) :
    (FbDeed.free cmd).Truthful (fbOemCmdFree cmd) s ↔ (FbDeed.free cmd).Honest s := by
  rw [FbDeed.Truthful, fbOemCmdFree_eq]
  rcases hargs : fbOemCmdFree.args cmd with _ | ⟨addr, size, align⟩
  · refine iff_of_true (post_pure.2 ⟨fun _ => ⟨rfl, rfl⟩, fun h => absurd h (by decide)⟩) ?_
    intro addr size align h
    exact absurd (hargs.symm.trans h) (by simp)
  obtain ⟨r, lmb', hfree⟩ := exists_lmbFree_eq_some hok addr size align
  have hhonest : (FbDeed.free cmd).Honest s ↔ Removable s.ctx.lmb addr size align := by
    refine ⟨fun h => h addr size align hargs, fun h addr' size' align' hargs' => ?_⟩
    obtain ⟨rfl, rfl, rfl⟩ := by simpa using hargs.symm.trans hargs'
    exact h
  have hsend := @fbEndCommand_sends (s.setCtx fun fb => { fb with lmb := lmb' }) fbOk (by decide)
  rw [hhonest, ← lmbFree_removed_iff hok hfree]
  dsimp only
  rw [post_bind, post_lmbCall]
  constructor
  · rintro ⟨-, h⟩
    have hend := h r lmb' hfree
    rw [post_bind] at hend
    refine ((hsend.and hend).mono ?_ fun _ _ he => absurd hs he.1.2).const
    rintro - s' ⟨⟨-, hctx⟩, hdone⟩
    rw [post_pure] at hdone
    obtain ⟨addr', size', align', hargs', hrem⟩ := hdone.2 rfl
    obtain ⟨rfl, rfl, rfl⟩ := by simpa using hargs.symm.trans hargs'
    rwa [hctx] at hrem
  · intro hrem
    refine ⟨fun _ => trivial, fun r' lmb'' hfree' => ?_⟩
    obtain ⟨rfl, rfl⟩ := Prod.mk.inj (Option.some.inj (hfree'.symm.trans hfree))
    rw [post_bind]
    refine hsend.mono ?_ fun _ _ _ => trivial
    rintro - s' ⟨-, hctx⟩
    refine post_pure.2 ⟨fun h => absurd rfl h, fun _ => ⟨addr, size, align, hargs, ?_⟩⟩
    rw [hctx]
    exact hrem

theorem fbOemCmdAllocEx.args_type {size align : UInt64} {type : LmbType}
    (h : args cmd = some (size, align, type)) : type ≠ .mmio := by
  have htype : ∀ cmd, fbOemCmdAllocEx.type cmd ≠ some .mmio := by
    intro cmd
    rw [fbOemCmdAllocEx.type]
    dsimp only
    split_ifs <;> simp
  rw [args] at h
  dsimp only at h
  split_ifs at h
  obtain ⟨type', htype', heq⟩ := Option.map_eq_some_iff.1 h
  obtain ⟨-, -, rfl⟩ := by simpa only [Prod.mk.injEq] using heq
  rintro rfl
  exact htype _ htype'

theorem fbOemCmdAllocEx_truthful_iff {maxAddr : UInt64} (hok : s.ctx.lmb.reserved.Ok)
    (hs : s.reqs ep1InReq.ix = none) :
    (FbDeed.alloc cmd maxAddr).Truthful (fbOemCmdAllocEx cmd maxAddr) s ↔
      (FbDeed.alloc cmd maxAddr).Honest s := by
  rw [FbDeed.Truthful, fbOemCmdAllocEx_eq]
  rcases hargs : fbOemCmdAllocEx.args cmd with _ | ⟨size, align, type⟩
  · refine iff_of_true (post_pure.2 ⟨fun _ => ⟨rfl, rfl⟩, fun h => absurd h (by decide)⟩) ?_
    intro size align type b h
    exact absurd (hargs.symm.trans h) (by simp)
  have htype := fbOemCmdAllocEx.args_type hargs
  dsimp only
  rw [post_bind, post_lmbCall]
  rcases hl : lmbAllocBase s.ctx.lmb size align maxAddr type tagFbrq with _ | ⟨b, lmb'⟩
  · refine iff_of_true ⟨fun _ => trivial, fun _ _ h => by simp at h⟩ ?_
    intro size' align' type' b hargs' hsearch htakes
    obtain ⟨rfl, rfl, rfl⟩ := by simpa using hargs.symm.trans hargs'
    obtain ⟨lmb', h⟩ := (lmbAllocBase.found_iff hok.cnt_le htype
      (lmbAllocBase.search_overlaps _ hsearch).1).2 ⟨hsearch, htakes⟩
    exact absurd (hl.symm.trans h) (by simp)
  by_cases hb : b = 0
  · subst hb
    refine iff_of_true ⟨fun _ => trivial, fun b lmb h => ?_⟩ ?_
    · obtain ⟨rfl, rfl⟩ := Prod.mk.inj (Option.some.inj h)
      rw [if_pos rfl, post_pure, lmbAllocBase_eq_of_zero hl]
      exact ⟨fun _ => ⟨rfl, rfl⟩, fun h => absurd h (by decide)⟩
    · intro size' align' type' b hargs' hsearch htakes
      obtain ⟨rfl, rfl, rfl⟩ := by simpa using hargs.symm.trans hargs'
      have hb := (lmbAllocBase.search_overlaps _ hsearch).1
      obtain ⟨lmb', h⟩ := (lmbAllocBase.found_iff hok.cnt_le htype hb).2 ⟨hsearch, htakes⟩
      exact absurd (Prod.mk.inj (Option.some.inj (h.symm.trans hl))).1 hb
  have hfound := (lmbAllocBase.found_iff hok.cnt_le htype hb).1 ⟨lmb', hl⟩
  have hhonest : (FbDeed.alloc cmd maxAddr).Honest s ↔
      BlockListed s.ctx.lmb size align type tagFbrq b := by
    refine ⟨fun h => h size align type b hargs hfound.1 hfound.2, fun h => ?_⟩
    intro size' align' type' b' hargs' hsearch _
    obtain ⟨rfl, rfl, rfl⟩ := by simpa using hargs.symm.trans hargs'
    obtain rfl := Option.some.inj (hfound.1.symm.trans hsearch)
    exact h
  have hpacket : bytes "INFO" ++ scnprintf 60 (bytes "0x" ++ fmtHex b) =
      bytes "INFO0x" ++ fmtHex b := by
    have hlen : (bytes "0x" ++ fmtHex b).length ≤ 60 - 1 := by
      have h2 : (bytes "0x").length = 2 := rfl
      have hle := length_fmtHex_le b
      rw [List.length_append]
      omega
    rw [scnprintf, List.take_of_length_le hlen]
    rfl
  have hsend := fbEndCommandWithInfo_sends (s.setCtx fun fb => { fb with lmb := lmb' })
    (bytes "0x" ++ fmtHex b)
  rw [hhonest, ← lmbAllocBase_added_iff hok hl hb]
  constructor
  · rintro ⟨-, h⟩
    have hend := h b lmb' rfl
    rw [if_neg hb, post_bind] at hend
    refine ((hsend.and hend).mono ?_ fun _ _ he => absurd hs he.1.2).const
    rintro - s' ⟨⟨hs', hctx⟩, hdone⟩
    rw [post_pure] at hdone
    obtain ⟨size', align', type', b', hargs', hp, hadd⟩ := hdone.2 rfl
    obtain ⟨rfl, rfl, rfl⟩ := by simpa using hargs.symm.trans hargs'
    rw [hs'.packet, hpacket] at hp
    obtain rfl := fmtHex_inj (List.append_cancel_left hp)
    rwa [hctx] at hadd
  · intro hadd
    refine ⟨fun _ => trivial, fun b' lmb'' h => ?_⟩
    obtain ⟨rfl, rfl⟩ := Prod.mk.inj (Option.some.inj h)
    rw [if_neg hb, post_bind]
    refine hsend.mono ?_ fun _ _ _ => trivial
    rintro - s' ⟨hs', hctx⟩
    refine post_pure.2 ⟨fun h => absurd rfl h, fun _ => ⟨size, align, type, b, hargs, ?_, ?_⟩⟩
    · rw [hs'.packet, hpacket]
    · rw [hctx]
      exact hadd

/-- What `fb_cmd_download` does after the last image is discarded. -/
def fbCmdDownload.load (call : Complete FbComplete → Req → FbM Unit) (cmd : List UInt8) :
    FbM FbStatus := do
  let (size, cmd) := simpleStrtoull cmd 16
  if deref cmd ≠ 0 then return fbBadCommand
  else
    let addr ← lmbCall fun lmb =>
      lmbAllocBase lmb size downloadAlignment lmbAlloc32Bit .boot tagDlod
    modify (Usbd.setCtx fun fb => { fb with lastLoaded := addr })
    if addr = 0 then return fbOom
    else
      modify (Usbd.setCtx fun fb =>
        { fb with loadSize := size, loadRem := size, loadAlign := downloadAlignment })
      usbdReqCancel call ep1OutReq
      fbRequestData
      fbRxData
      return fbOk

/-- `download:` with no image fails exactly when it is refused, and has then changed nothing. -/
theorem fbCmdDownload.load_post (call : Complete FbComplete → Req → FbM Unit)
    (h0 : s.ctx.lastLoaded = 0) :
    Post (load call cmd)
      (fun st s' => (st ≠ fbOk ↔ Refuses s.ctx.lmb cmd) ∧
        (st ≠ fbOk → s'.mem = s.mem ∧ s'.ctx.image = s.ctx.image))
      (fun _ _ => ¬Refuses s.ctx.lmb cmd) s := by
  have hfail : ∀ {st : FbStatus}, st ≠ fbOk → Refuses s.ctx.lmb cmd →
      (st ≠ fbOk ↔ Refuses s.ctx.lmb cmd) ∧
        (st ≠ fbOk → s.mem = s.mem ∧ s.ctx.image = s.ctx.image) :=
    fun hst hr => ⟨iff_of_true hst hr, fun _ => ⟨rfl, rfl⟩⟩
  rw [load]
  dsimp only
  by_cases hend : deref (simpleStrtoull cmd 16).2 ≠ 0
  · rw [if_pos hend, post_pure]
    exact hfail (by decide) (.inl hend)
  rw [if_neg hend, post_bind, post_lmbCall]
  refine ⟨fun hnone hr => ?_, fun addr lmb' hl => ?_⟩
  · rcases hr with h | ⟨lmb', h⟩
    · exact hend h
    · exact absurd (hnone.symm.trans h) (by simp)
  rw [post_bind, post_modify]
  by_cases hz : addr = 0
  · subst hz
    have hsame : setCtx (fun fb => { fb with lastLoaded := 0 })
        (setCtx (fun fb => { fb with lmb := lmb' }) s) = s := by
      obtain ⟨⟩ := lmbAllocBase_eq_of_zero hl
      show { s with ctx := { s.ctx with lmb := s.ctx.lmb, lastLoaded := 0 } } = s
      rw [← h0]
    rw [if_pos rfl, post_pure, hsame]
    exact hfail (by decide) (.inr ⟨lmb', hl⟩)
  have hno : ¬Refuses s.ctx.lmb cmd := by
    rintro (h | ⟨lmb'', h⟩)
    · exact hend h
    · exact hz (Prod.mk.inj (Option.some.inj (hl.symm.trans h))).1
  rw [if_neg hz, post_bind, post_modify, post_bind]
  refine (post_true _ _).mono (fun _ s₁ _ => ?_) fun _ _ _ => hno
  rw [post_bind]
  refine (post_true _ _).mono (fun _ s₂ _ => ?_) fun _ _ _ => hno
  rw [post_bind]
  refine (post_true _ _).mono (fun _ s₃ _ => ?_) fun _ _ _ => hno
  exact post_pure.2 ⟨iff_of_false (not_not.2 rfl) hno, fun h => absurd rfl h⟩

theorem fbCmdDownload_truthful_iff (call : Complete FbComplete → Req → FbM Unit) :
    (FbDeed.download cmd).Truthful (fbCmdDownload call cmd) s ↔ (FbDeed.download cmd).Honest s := by
  have hload : fbCmdDownload call cmd =
      fbCmdDownload.discard >>= fun _ => fbCmdDownload.load call cmd := rfl
  rw [FbDeed.Truthful, hload, post_bind]
  by_cases h0 : s.ctx.lastLoaded = 0
  · refine iff_of_true ?_ (.inl h0)
    have hdiscard : Post fbCmdDownload.discard (fun _ s' => s' = s) (fun _ _ => True) s := by
      simp only [fbCmdDownload.discard, post_bind, post_get, post_ite, post_pure]
      exact ⟨fun h => absurd h0 h, fun _ => trivial⟩
    refine hdiscard.imp ?_
    rintro - _ rfl
    exact (fbCmdDownload.load_post call h0).mono (fun _ _ h => ⟨h.2, fun _ => trivial⟩)
      fun _ _ _ => trivial
  have hhonest : (FbDeed.download cmd).Honest s ↔ ∀ r lmb, lmbFree s.ctx.lmb s.ctx.lastLoaded
      s.ctx.loadSize s.ctx.loadAlign = some (r, lmb) → ¬fbCmdDownload.Refuses lmb cmd :=
    or_iff_right h0
  rw [hhonest]
  simp only [fbCmdDownload.discard, post_bind, post_get, post_ite, post_pure, post_lmbCall,
    post_modify]
  constructor
  · rintro ⟨h, -⟩ r lmb hfree hr
    have hpost := (h h0).2 r lmb hfree
    refine (((fbCmdDownload.load_post call rfl).and hpost).mono ?_ fun _ _ he => he.1 hr).const
    rintro st s' ⟨⟨hiff, himage⟩, hkeep, -⟩
    have hst := hiff.2 hr
    have hlast := congrArg (·.2.1) ((himage hst).2.symm.trans (hkeep hst).2)
    exact h0 hlast.symm
  · intro h
    refine ⟨fun _ => ⟨fun _ => trivial, fun r lmb hfree => ?_⟩, fun h' => absurd h0 h'⟩
    refine (fbCmdDownload.load_post call rfl).mono ?_ fun _ _ _ => trivial
    rintro st s' ⟨hiff, -⟩
    exact ⟨fun hst => absurd (hiff.1 hst) (h r lmb hfree), fun _ => trivial⟩

/-! ### Commands -/

/-- A handler that neither stores nor calls the allocator fails without effects. -/
theorem Handler.truthful {W : FbEffect → Prop} {x : FbM FbStatus} (h : Handler W x)
    (hlmb : ¬W .lmb) (hmem : ¬W .mem) : FbDeed.other.Truthful x s := by
  have hok : ∀ {s₁ : Fb} {r : FbM Unit}, Post (r >>= fun _ => pure fbOk)
      (fun st s' => (st ≠ fbOk → s'.mem = s.mem ∧ s'.ctx.image = s.ctx.image) ∧
        (st = fbOk → FbDeed.other.Done s s')) (fun _ _ => True) s₁ := fun {s₁ r} =>
    post_bind.2 ((post_true r s₁).imp fun _ _ _ =>
      post_pure.2 ⟨fun h => absurd rfl h, fun _ => trivial⟩)
  have hgen : ∀ s₁ : Fb, s₁.mem = s.mem → s₁.ctx.image = s.ctx.image → Post x
      (fun st s' => (st ≠ fbOk → s'.mem = s.mem ∧ s'.ctx.image = s.ctx.image) ∧
        (st = fbOk → FbDeed.other.Done s s')) (fun _ _ => True) s₁ := by
    induction h with
    | fail h => exact fun s₁ h₁ h₂ => post_pure.2 ⟨fun _ => ⟨h₁, h₂⟩, fun _ => trivial⟩
    | endCommand => exact fun _ _ _ => hok
    | endCommandWithInfo info => exact fun _ _ _ => hok
    | reboot => exact fun _ _ _ => hok
    | peek h => exact fun _ _ _ => hok (r := modify _ >>= fun _ => fbOemCmdPeekExe none)
    | setCtx hcmd hload hlmb hx ih =>
      intro s₁ h₁ h₂
      refine post_bind.2 (post_modify.2 (ih _ h₁ ?_))
      have hl := hload s₁.ctx
      simp only [FbMem.load, Prod.mk.injEq] at hl
      rw [← h₂]
      simp only [FbMem.image, setCtx_ctx, hlmb, hl]
    | store h a data hx ih => exact absurd h hmem
    | get hf ih => exact fun s₁ h₁ h₂ => post_bind.2 (post_get.2 (ih s₁ s₁ h₁ h₂))
    | lmbCall h hf ih => exact absurd h hlmb
  exact hgen s rfl rfl

/-- `fb_cmd_oem` calls the command whose name the text starts with. -/
theorem fbCmdOem_eq {name : List UInt8} {f : List UInt8 → FbM FbStatus} {n : Nat}
    (hc : (name, f) ∈ fbOemCmds) (hn : name.length = n) (h : memcmp cmd name = true) :
    fbCmdOem cmd = f (cmd.drop n) := by
  have hnames : ∀ a ∈ fbOemCmds.map Prod.fst, ∀ b ∈ fbOemCmds.map Prod.fst, a <+: b → a = b := by
    decide
  have hnodup : (fbOemCmds.map Prod.fst).Nodup := by decide
  have hfind : (fbOemCmds.find? fun c => memcmp cmd c.1) = some (name, f) := by
    cases hf : fbOemCmds.find? fun c => memcmp cmd c.1 with
    | none => exact absurd h (List.find?_eq_none.1 hf _ hc)
    | some c' =>
      have hc' := List.mem_of_find?_eq_some hf
      have h' := List.find?_some hf
      refine congrArg some (List.inj_on_of_nodup_map hnodup hc' hc ?_)
      rcases List.prefix_or_prefix_of_prefix (memcmp_iff.1 h) (memcmp_iff.1 h') with hp | hp
      · exact (hnames _ (List.mem_map_of_mem hc) _ (List.mem_map_of_mem hc') hp).symm
      · exact hnames _ (List.mem_map_of_mem hc') _ (List.mem_map_of_mem hc) hp
  rw [fbCmdOem, hfind, ← hn]

theorem fbCmdOem_truthful_iff (hlen : cmd.length < 2 ^ 60) (hok : TakesLmb cmd → s.ctx.lmb.reserved.Ok)
    (hs : s.reqs ep1InReq.ix = none) :
    (FbSelected.oem cmd).deed.Truthful (fbCmdOem cmd) s ↔ (FbSelected.oem cmd).deed.Honest s := by
  rw [FbSelected.deed]
  have hdrop : ∀ n, (cmd.drop n).length < 2 ^ 60 := fun n =>
    (List.drop_suffix n cmd).length_le.trans_lt hlen
  split
  · next h =>
    rw [fbCmdOem_eq (f := fbOemCmdPoke) (n := 5) (by simp [fbOemCmds]) rfl h]
    exact fbOemCmdPoke_truthful_iff (hdrop 5)
  split
  · next h =>
    rw [fbCmdOem_eq (f := fbOemCmdAlloc) (n := 6) (by simp [fbOemCmds]) rfl h]
    exact fbOemCmdAllocEx_truthful_iff (hok ⟨_, by simp, h⟩) hs
  split
  · next h =>
    rw [fbCmdOem_eq (f := fbOemCmdAlloc32) (n := 8) (by simp [fbOemCmds]) rfl h]
    exact fbOemCmdAllocEx_truthful_iff (hok ⟨_, by simp, h⟩) hs
  split
  · next h =>
    rw [fbCmdOem_eq (f := fbOemCmdFree) (n := 5) (by simp [fbOemCmds]) rfl h]
    exact fbOemCmdFree_truthful_iff (hok ⟨_, by simp, h⟩) hs
  · next hpoke halloc halloc32 hfree =>
    refine iff_of_true ?_ trivial
    refine (fbCmdOem_handler (W := fun _ => False) cmd ?_ fun h => hpoke h).truthful id id
    rintro ⟨name, hname, h⟩
    simp only [List.mem_cons, List.not_mem_nil, or_false] at hname
    rcases hname with rfl | rfl | rfl
    · exact halloc h
    · exact halloc32 h
    · exact hfree h

/-- **When statuses are truthful.** The text of the command is in the small buffer, and the slot of
the response is empty: otherwise no status is sent. -/
theorem fbDispatch_truthful_iff (call : Complete FbComplete → Req → FbM Unit) {cbuf : List UInt8}
    (hlen : cbuf.length = 64) (hok : (fbSelect cbuf).TakesLmb → s.ctx.lmb.reserved.Ok)
    (hs : s.reqs ep1InReq.ix = none) :
    (fbSelect cbuf).Truthful call s ↔ (fbSelect cbuf).deed.Honest s := by
  have hoem : ∀ cmd, fbSelect cbuf = .oem cmd → cmd.length < 2 ^ 60 := by
    intro cmd h
    rw [fbSelect] at h
    split_ifs at h
    obtain rfl := FbSelected.oem.inj h
    rw [List.length_drop, hlen]
    decide
  rw [FbSelected.Truthful]
  generalize fbSelect cbuf = sel at hok hoem ⊢
  cases sel with
  | oem cmd => exact fbCmdOem_truthful_iff (hoem cmd rfl) hok hs
  | reboot type =>
    exact iff_of_true ((fbCmdReboot_handler (W := fun _ => False) type).truthful id id) trivial
  | download cmd => exact fbCmdDownload_truthful_iff call
  | flash cmd =>
    refine iff_of_true ?_ trivial
    have hfail : ∀ {st : FbStatus}, st ≠ fbOk → (st ≠ fbOk → s.mem = s.mem ∧
        s.ctx.image = s.ctx.image) ∧ (st = fbOk → FbDeed.other.Done s s) :=
      fun _ => ⟨fun _ => ⟨rfl, rfl⟩, fun _ => trivial⟩
    rw [FbDeed.Truthful, fbDispatch, fbCmdFlash, post_ite]
    refine ⟨fun _ => post_pure.2 (hfail (by decide)), fun _ => ?_⟩
    rw [post_bind, post_get, post_ite]
    refine ⟨fun _ => post_pure.2 (hfail (by decide)), fun _ => ?_⟩
    rw [post_bind]
    refine (post_true _ s).imp fun _ _ _ => ?_
    exact post_pure.2 ⟨fun h => absurd rfl h, fun _ => trivial⟩
  | unknown =>
    exact iff_of_true (post_pure.2 ⟨fun _ => ⟨rfl, rfl⟩, fun h => absurd h (by decide)⟩) trivial

end

/-- `oem free` of a range that is not reserved, on the table of `lmb_init`. -/
theorem fbDispatch_truthful_iff_free :
    let cbuf := List.rightpad 64 0 (bytes "oem free 0x80000000 0x1000 0x1000")
    (fbSelect cbuf).Truthful fbCall waiting ↔ (fbSelect cbuf).deed.Honest waiting :=
  fbDispatch_truthful_iff fbCall (by decide) (fun _ => .inr ⟨rfl, rfl⟩) rfl

/-- A `poke` that fails has stored its first word, a `free` that succeeds had nothing to remove, and
a `download:` that fails has discarded the image. -/
theorem statuses_lie :
    ¬(fbSelect (List.rightpad 64 0 (bytes "oem poke 0x80000000 1 1 x"))).Truthful fbCall waiting ∧
    ¬(fbSelect (List.rightpad 64 0 (bytes "oem free 0x80000000 0x1000 0x1000"))).Truthful fbCall
      waiting ∧
    ¬(fbSelect (List.rightpad 64 0 (bytes "download:x"))).Truthful fbCall (waiting.setCtx fun fb =>
      { fb with lastLoaded := 0x80000000, loadSize := 0x1000, loadAlign := 0x100000 }) := by
  refine ⟨fun h => ?_, fun h => ?_, fun h => ?_⟩
  · have hrun : Post (fbDispatch fbCall
        (fbSelect (List.rightpad 64 0 (bytes "oem poke 0x80000000 1 1 x"))))
        (fun st s' => st ≠ fbOk ∧ s'.mem 0x80000000 = 1) (fun _ _ => False) waiting := by
      decide +kernel
    refine ((hrun.and h).mono ?_ fun _ _ he => he.1).const
    rintro st s' ⟨⟨hst, hone⟩, hkeep, -⟩
    rw [(hkeep hst).1] at hone
    exact absurd hone (by decide)
  · have hrun : Post (fbDispatch fbCall
        (fbSelect (List.rightpad 64 0 (bytes "oem free 0x80000000 0x1000 0x1000"))))
        (fun st _ => st = fbOk) (fun _ _ => False) waiting := by
      decide +kernel
    have hdeed : (fbSelect (List.rightpad 64 0 (bytes "oem free 0x80000000 0x1000 0x1000"))).deed =
        .free (List.rightpad 55 0 (bytes "0x80000000 0x1000 0x1000")) := by
      decide +kernel
    have hargs : fbOemCmdFree.args (List.rightpad 55 0 (bytes "0x80000000 0x1000 0x1000")) =
        some (0x80000000, 0x1000, 0x1000) := by
      decide +kernel
    refine ((hrun.and h).mono ?_ fun _ _ he => he.1).const
    rintro st s' ⟨hst, -, hdone⟩
    have hd := hdone hst
    rw [hdeed] at hd
    obtain ⟨addr, size, align, hargs', hrem⟩ := hd
    obtain ⟨rfl, rfl, rfl⟩ := by simpa using hargs.symm.trans hargs'
    obtain ⟨⟨e, he, hx⟩, -⟩ := hrem 0x80000000 (by decide) (by decide)
    obtain rfl : e = lmbDummy.seg := List.mem_singleton.1 he
    exact absurd hx (by simp [lmbDummy])
  · have hrun : Post (fbDispatch fbCall (fbSelect (List.rightpad 64 0 (bytes "download:x"))))
        (fun st s' => st ≠ fbOk ∧ s'.ctx.lastLoaded = 0) (fun _ _ => False)
        (waiting.setCtx fun fb =>
          { fb with lastLoaded := 0x80000000, loadSize := 0x1000, loadAlign := 0x100000 }) := by
      decide +kernel
    refine ((hrun.and h).mono ?_ fun _ _ he => he.1).const
    rintro st s' ⟨⟨hst, hzero⟩, hkeep, -⟩
    have hlast := congrArg (·.2.1) (hkeep hst).2
    exact absurd (hlast.symm.trans hzero) (by decide)

end ShieldLoader
