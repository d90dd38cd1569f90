import ShieldLoader.Fb.Fields

/-!
# The grammar of `oem alloc`, `oem free` and `oem peek`

Which strings the commands should take, and on which they do what they should: on all of their
grammar, and on every other string except those that the parsers accept by mistake.
-/

namespace ShieldLoader

open Ascii EStateM

/-- `FB_BAD_COMMAND` is returned, the tables of the allocator are as before, and memory is neither
read nor written. -/
structure BadCommand (x : FbM FbStatus) : Prop where
  status : ∀ s, Post x (fun status s' => status = fbBadCommand ∧ s'.ctx.lmb = s.ctx.lmb)
    (fun _ _ => False) s
  blind : ∀ m, Commutes (fun s : Fb => { s with mem := m }) x

/-- What the code does depends on memory, or changes it. -/
def AccessesMemory (x : FbM FbStatus) : Prop :=
  ¬∀ m, Commutes (fun s : Fb => { s with mem := m }) x

theorem badCommand_pure : BadCommand (pure fbBadCommand) :=
  ⟨fun _ => post_pure.2 ⟨rfl, rfl⟩, fun _ => .of_pure _⟩

/-- The state of `peek` may have changed. -/
theorem BadCommand.setPeek {g : FbMem → FbPeekState} {x : FbM FbStatus} (h : BadCommand x) :
    BadCommand (modify (Usbd.setCtx fun fb => { fb with peek := g fb }) >>= fun _ => x) := by
  refine ⟨fun s => ?_, fun m => .modify_bind (fun _ => rfl) (h.blind m)⟩
  rw [post_bind, post_modify]
  exact (h.status _).imp fun _ _ hs => ⟨hs.1, hs.2.trans rfl⟩

theorem not_badCommand {x : FbM FbStatus}
    (h : ∀ s, Post x (fun status _ => status ≠ fbBadCommand) (fun _ _ => True) s) : ¬BadCommand x := by
  intro hr
  have hboth := (hr.status machine).and (h machine)
  exact (hboth.mono (fun _ _ h => absurd h.1.1 h.2) fun _ _ h => h.1).const

/-! ### What the commands do -/

/-- The allocation that `fb_oem_cmd_alloc_ex` attempts with these arguments. -/
def fbOemCmdAllocEx.run (size align maxAddr : UInt64) (type : LmbType) : FbM FbStatus := do
  let addr ← lmbCall fun lmb => lmbAllocBase lmb size align maxAddr type tagFbrq
  if addr = 0 then return fbOom
  else
    fbEndCommandWithInfo (bytes "0x" ++ fmtHex addr)
    return fbOk

/-- The release that `fb_oem_cmd_free` carries out with these arguments. -/
def fbOemCmdFree.run (addr size align : UInt64) : FbM FbStatus := do
  let _ ← lmbCall fun lmb => lmbFree lmb addr size align
  fbEndCommand fbOk
  return fbOk

/-- The code is an attempt to allocate. -/
def Allocates (maxAddr : UInt64) (x : FbM FbStatus) : Prop :=
  ∃ size align type, x = fbOemCmdAllocEx.run size align maxAddr type

/-- The code is a release. -/
def Frees (x : FbM FbStatus) : Prop := ∃ addr size align, x = fbOemCmdFree.run addr size align

section
variable {maxAddr : UInt64} {x : FbM FbStatus} {cmd : List UInt8}

theorem Allocates.not_badCommand (h : Allocates maxAddr x) : ¬BadCommand x := by
  obtain ⟨size, align, type, rfl⟩ := h
  refine ShieldLoader.not_badCommand fun s => ?_
  rw [fbOemCmdAllocEx.run, post_bind]
  refine (post_true _ _).imp fun addr s₁ _ => ?_
  split
  · exact post_pure.2 (by decide)
  · rw [post_bind]
    exact (post_true _ _).imp fun _ _ _ => post_pure.2 (by decide)

theorem Frees.not_badCommand (h : Frees x) : ¬BadCommand x := by
  obtain ⟨addr, size, align, rfl⟩ := h
  refine ShieldLoader.not_badCommand fun s => ?_
  simp only [fbOemCmdFree.run, post_bind]
  refine (post_true _ _).imp fun _ _ _ => (post_true _ _).imp fun _ _ _ => ?_
  exact post_pure.2 (by decide)

theorem fbOemCmdAllocEx.allocates (h : (args cmd).isSome) :
    Allocates maxAddr (fbOemCmdAllocEx cmd maxAddr) := by
  obtain ⟨⟨size, align, type⟩, hargs⟩ := Option.isSome_iff_exists.1 h
  exact ⟨size, align, type, by rw [fbOemCmdAllocEx_eq, hargs]; rfl⟩

theorem fbOemCmdAllocEx.badCommand (h : ¬(args cmd).isSome) :
    BadCommand (fbOemCmdAllocEx cmd maxAddr) := by
  rw [fbOemCmdAllocEx_eq, Option.not_isSome_iff_eq_none.1 h]
  exact badCommand_pure

theorem fbOemCmdFree.frees (h : (args cmd).isSome) : Frees (fbOemCmdFree cmd) := by
  obtain ⟨⟨addr, size, align⟩, hargs⟩ := Option.isSome_iff_exists.1 h
  exact ⟨addr, size, align, by rw [fbOemCmdFree_eq, hargs]; rfl⟩

theorem fbOemCmdFree.badCommand (h : ¬(args cmd).isSome) : BadCommand (fbOemCmdFree cmd) := by
  rw [fbOemCmdFree_eq, Option.not_isSome_iff_eq_none.1 h]
  exact badCommand_pure

theorem fbOemCmdPeek.not_badCommand (h : (args cmd).isSome) :
    ¬BadCommand (fbOemCmdPeek cmd) := by
  obtain ⟨peek, hpeek⟩ := Option.isSome_iff_exists.1 h
  rw [(fbOemCmdPeek_of_args hpeek).2]
  refine ShieldLoader.not_badCommand fun s => ?_
  simp only [post_bind, post_modify]
  exact (post_true _ _).imp fun _ _ _ => post_pure.2 (by decide)

theorem fbOemCmdPeek.badCommand (h : ¬(args cmd).isSome) : BadCommand (fbOemCmdPeek cmd) := by
  rw [fbOemCmdPeek]
  rw [args_eq, field] at h
  dsimp only
  refine BadCommand.setPeek ?_
  split
  · exact badCommand_pure
  next hblank =>
  rw [if_neg hblank] at h
  refine BadCommand.setPeek ?_
  split
  · exact badCommand_pure
  next haccess =>
  rw [if_neg haccess] at h
  refine BadCommand.setPeek ?_
  split
  · exact badCommand_pure
  next hend =>
  rw [if_neg hend] at h
  exact absurd rfl h

end

/-! ### Grammars -/

/-- The strings for `oem alloc` and `oem alloc32`: two numerals and perhaps `boot` or `runtime`. -/
def AllocGrammar (cmd : List UInt8) : Prop :=
  ∃ size align rest, words cmd = size :: align :: rest ∧ IsNumeral size ∧ IsNumeral align ∧
    AllocEnd rest

/-- The strings for `oem free`: three numerals. -/
def FreeGrammar (cmd : List UInt8) : Prop :=
  ∃ addr size align, words cmd = [addr, size, align] ∧ IsNumeral addr ∧ IsNumeral size ∧
    IsNumeral align

/-- The strings for `oem peek`, where `W` are the widths: a numeral, `c` or a width, and perhaps a
numeral. -/
def PeekGrammar (W : Set (List UInt8)) (cmd : List UInt8) : Prop :=
  ∃ addr w rest, words cmd = addr :: w :: rest ∧ IsNumeral addr ∧ (w = bytes "c" ∨ w ∈ W) ∧
    (rest = [] ∨ ∃ n, rest = [n] ∧ IsNumeral n)

/-- `oem alloc` goes on with an empty number, or with an alignment that is no numeral. -/
def AllocSlip (cmd : List UInt8) : Prop :=
  ∃ size align rest, words cmd = size :: align :: rest ∧ Scanned size ∧
    (¬Scanned align ∨ AllocEnd rest ∧ (size = [] ∨ align = []))

/-- `oem free` goes on with an empty number. -/
def FreeSlip (cmd : List UInt8) : Prop :=
  ∃ addr size align, words cmd = [addr, size, align] ∧ Scanned addr ∧ Scanned size ∧
    Scanned align ∧ (addr = [] ∨ size = [] ∨ align = [])

/-- `oem peek` goes on with an empty number, or with another spelling of a width. -/
def PeekSlip (W : Set (List UInt8)) (cmd : List UInt8) : Prop :=
  ∃ addr w rest, words cmd = addr :: w :: rest ∧ Scanned addr ∧ (w = bytes "c" ∨ IsWidth w) ∧
    (rest = [] ∨ ∃ n, rest = [n] ∧ Scanned n) ∧
    (addr = [] ∨ w ≠ bytes "c" ∧ w ∉ W ∨ rest = [[]])

section
variable {cmd : List UInt8} {W : Set (List UInt8)}

theorem allocSlip_iff (h0 : 0 ∉ cmd) (t : List UInt8) :
    AllocSlip cmd ↔ (fbOemCmdAllocEx.args (cmd ++ 0 :: t)).isSome ∧ ¬AllocGrammar cmd := by
  rw [fbOemCmdAllocEx.args_isSome h0]
  constructor
  · rintro ⟨size, align, rest, hw, hsize, h⟩
    refine ⟨⟨size, align, rest, hw, hsize, h.imp_right And.left⟩, ?_⟩
    rintro ⟨size', align', rest', hw', h1, h2, -⟩
    obtain ⟨rfl, rfl, rfl⟩ : size = size' ∧ align = align' ∧ rest = rest' := by
      simpa using hw.symm.trans hw'
    rw [isNumeral_iff] at h1 h2
    exact h.elim (fun h => h h2.2) fun h => h.2.elim h1.1 h2.1
  · rintro ⟨⟨size, align, rest, hw, hsize, h⟩, hno⟩
    refine ⟨size, align, rest, hw, hsize, or_iff_not_imp_left.2 fun halign => ?_⟩
    rw [not_not] at halign
    have hend := h.resolve_left (not_not.2 halign)
    refine ⟨hend, ?_⟩
    by_contra hne
    rw [not_or] at hne
    exact hno ⟨size, align, rest, hw, isNumeral_iff.2 ⟨hne.1, hsize⟩,
      isNumeral_iff.2 ⟨hne.2, halign⟩, hend⟩

theorem freeSlip_iff (h0 : 0 ∉ cmd) (t : List UInt8) :
    FreeSlip cmd ↔ (fbOemCmdFree.args (cmd ++ 0 :: t)).isSome ∧ ¬FreeGrammar cmd := by
  rw [fbOemCmdFree.args_isSome h0]
  constructor
  · rintro ⟨addr, size, align, hw, h1, h2, h3, hnil⟩
    refine ⟨⟨addr, size, align, hw, h1, h2, h3⟩, ?_⟩
    rintro ⟨addr', size', align', hw', h1', h2', h3'⟩
    obtain ⟨rfl, rfl, rfl⟩ : addr = addr' ∧ size = size' ∧ align = align' := by
      simpa using hw.symm.trans hw'
    rw [isNumeral_iff] at h1' h2' h3'
    exact hnil.elim h1'.1 fun h => h.elim h2'.1 h3'.1
  · rintro ⟨⟨addr, size, align, hw, h1, h2, h3⟩, hno⟩
    refine ⟨addr, size, align, hw, h1, h2, h3, ?_⟩
    by_contra hne
    rw [not_or, not_or] at hne
    exact hno ⟨addr, size, align, hw, isNumeral_iff.2 ⟨hne.1, h1⟩, isNumeral_iff.2 ⟨hne.2.1, h2⟩,
      isNumeral_iff.2 ⟨hne.2.2, h3⟩⟩

theorem peekSlip_iff (h0 : 0 ∉ cmd) (t : List UInt8) :
    PeekSlip W cmd ↔ (fbOemCmdPeek.args (cmd ++ 0 :: t)).isSome ∧ ¬PeekGrammar W cmd := by
  rw [fbOemCmdPeek.args_isSome h0]
  constructor
  · rintro ⟨addr, w, rest, hw, h1, h2, h3, h⟩
    refine ⟨⟨addr, w, rest, hw, h1, h2, h3⟩, ?_⟩
    rintro ⟨addr', w', rest', hw', h1', h2', h3'⟩
    obtain ⟨rfl, rfl, rfl⟩ : addr = addr' ∧ w = w' ∧ rest = rest' := by
      simpa using hw.symm.trans hw'
    rcases h with h | h | h
    · exact (isNumeral_iff.1 h1').1 h
    · exact h2'.elim h.1 h.2
    · rcases h3' with h3' | ⟨n, h3', hn⟩
      · exact absurd (h3'.symm.trans h) (by simp)
      · obtain rfl : n = [] := by simpa using h3'.symm.trans h
        exact (isNumeral_iff.1 hn).1 rfl
  · rintro ⟨⟨addr, w, rest, hw, h1, h2, h3⟩, hno⟩
    refine ⟨addr, w, rest, hw, h1, h2, h3, ?_⟩
    by_contra hne
    rw [not_or, not_or] at hne
    refine hno ⟨addr, w, rest, hw, isNumeral_iff.2 ⟨hne.1, h1⟩, ?_, ?_⟩
    · exact or_iff_not_imp_left.2 fun hc => not_not.1 fun hW => hne.2.1 ⟨hc, hW⟩
    · refine h3.imp_right fun ⟨n, hn, hs⟩ => ⟨n, hn, isNumeral_iff.2 ⟨?_, hs⟩⟩
      rintro rfl
      exact hne.2.2 hn

theorem AllocGrammar.accepts (h : AllocGrammar cmd) (h0 : 0 ∉ cmd) (t : List UInt8) :
    (fbOemCmdAllocEx.args (cmd ++ 0 :: t)).isSome := by
  obtain ⟨size, align, rest, hw, h1, h2, h3⟩ := h
  exact (fbOemCmdAllocEx.args_isSome h0 t).2 ⟨size, align, rest, hw, .inr h1, .inr h3⟩

theorem FreeGrammar.accepts (h : FreeGrammar cmd) (h0 : 0 ∉ cmd) (t : List UInt8) :
    (fbOemCmdFree.args (cmd ++ 0 :: t)).isSome := by
  obtain ⟨addr, size, align, hw, h1, h2, h3⟩ := h
  exact (fbOemCmdFree.args_isSome h0 t).2 ⟨addr, size, align, hw, .inr h1, .inr h2, .inr h3⟩

theorem PeekGrammar.accepts (h : PeekGrammar W cmd) (hW : ∀ w ∈ W, IsWidth w) (h0 : 0 ∉ cmd)
    (t : List UInt8) : (fbOemCmdPeek.args (cmd ++ 0 :: t)).isSome := by
  obtain ⟨addr, w, rest, hw, h1, h2, h3⟩ := h
  exact (fbOemCmdPeek.args_isSome h0 t).2 ⟨addr, w, rest, hw, .inr h1, h2.imp_right (hW w),
    h3.imp_right fun ⟨n, hn, h⟩ => ⟨n, hn, .inr h⟩⟩

end

/-- A command is exact if its parser takes no more than its grammar. -/
theorem exact_iff {accepts acts bad grammar : Prop} (hacc : accepts → acts)
    (hrej : ¬accepts → bad) (hno : acts → ¬bad) (hgr : grammar → accepts) :
    ((acts ↔ grammar) ∧ (¬grammar → bad)) ↔ ¬(accepts ∧ ¬grammar) := by
  constructor
  · rintro ⟨hiff, -⟩ ⟨ha, hg⟩
    exact hg (hiff.1 (hacc ha))
  · intro h
    have honly : accepts → grammar := fun ha => not_not.1 fun hg => h ⟨ha, hg⟩
    refine ⟨⟨fun hacts => honly ?_, fun hg => hacc (hgr hg)⟩, fun hg => hrej (mt honly hg)⟩
    exact not_not.1 fun ha => hno hacts (hrej ha)

/-- **Where the commands take exactly their grammar.** `oem alloc` and `oem alloc32` allocate on the
strings of their grammar only, `oem free` releases on those of its own, `oem peek` reads memory on
none but its own, and on all other strings they return `FB_BAD_COMMAND` and do nothing, exactly if
the parser makes no slip. This is so for whatever spellings of the widths `W` are meant. -/
theorem fbOemCmd_grammar_iff {cmd : List UInt8} (h0 : 0 ∉ cmd) (t : List UInt8) :
    (∀ maxAddr,
      ((Allocates maxAddr (fbOemCmdAllocEx (cmd ++ 0 :: t) maxAddr) ↔ AllocGrammar cmd) ∧
        (¬AllocGrammar cmd → BadCommand (fbOemCmdAllocEx (cmd ++ 0 :: t) maxAddr))) ↔
      ¬AllocSlip cmd) ∧
    (((Frees (fbOemCmdFree (cmd ++ 0 :: t)) ↔ FreeGrammar cmd) ∧
        (¬FreeGrammar cmd → BadCommand (fbOemCmdFree (cmd ++ 0 :: t)))) ↔
      ¬FreeSlip cmd) ∧
    ∀ W, (∀ w ∈ W, IsWidth w) →
      (((AccessesMemory (fbOemCmdPeek (cmd ++ 0 :: t)) → PeekGrammar W cmd) ∧
        (¬PeekGrammar W cmd → BadCommand (fbOemCmdPeek (cmd ++ 0 :: t)))) ↔
      ¬PeekSlip W cmd) := by
  refine ⟨fun maxAddr => ?_, ?_, fun W hW => ?_⟩
  · rw [allocSlip_iff h0 t]
    exact exact_iff fbOemCmdAllocEx.allocates fbOemCmdAllocEx.badCommand Allocates.not_badCommand
      fun h => h.accepts h0 t
  · rw [freeSlip_iff h0 t]
    exact exact_iff fbOemCmdFree.frees fbOemCmdFree.badCommand Frees.not_badCommand
      fun h => h.accepts h0 t
  · rw [peekSlip_iff h0 t]
    constructor
    · rintro ⟨-, hbad⟩ ⟨ha, hg⟩
      exact fbOemCmdPeek.not_badCommand ha (hbad hg)
    · intro h
      have hbad : ¬PeekGrammar W cmd → BadCommand (fbOemCmdPeek (cmd ++ 0 :: t)) :=
        fun hg => fbOemCmdPeek.badCommand fun ha => h ⟨ha, hg⟩
      exact ⟨fun hmem => not_not.1 fun hg => hmem (hbad hg).blind, hbad⟩

/-- The widths of the manual. -/
def widths : Set (List UInt8) := {bytes "1", bytes "2", bytes "4", bytes "8"}

/-- Three numerals are for `oem free` and `oem peek`, and not for `oem alloc`. -/
theorem fbOemCmd_grammar_numerals :
    let cmd := bytes "0x80070000 4 16"
    BadCommand (fbOemCmdAlloc (cmd ++ [0])) ∧ Frees (fbOemCmdFree (cmd ++ [0])) ∧
      (AccessesMemory (fbOemCmdPeek (cmd ++ [0])) → PeekGrammar widths cmd) := by
  intro cmd
  have hw : words cmd = [bytes "0x80070000", bytes "4", bytes "16"] := by decide
  have hW : ∀ w ∈ widths, IsWidth w := by
    rintro _ (rfl | rfl | rfl | rfl)
    · exact ⟨1, by decide⟩
    · exact ⟨2, by decide⟩
    · exact ⟨4, by decide⟩
    · exact ⟨8, by decide⟩
  obtain ⟨halloc, hfree, hpeek⟩ := fbOemCmd_grammar_iff (show 0 ∉ cmd by decide) []
  refine ⟨((halloc lmbAllocAnywhere).2 ?_).2 ?_, (hfree.2 ?_).1.2 ?_, ((hpeek widths hW).2 ?_).1⟩
  · rintro ⟨size, align, rest, h, -, hslip⟩
    obtain ⟨rfl, rfl, rfl⟩ : bytes "0x80070000" = size ∧ bytes "4" = align ∧ [bytes "16"] = rest := by
      simpa using hw.symm.trans h
    exact absurd hslip (by decide)
  · rintro ⟨size, align, rest, h, -, -, hend⟩
    obtain ⟨rfl, rfl, rfl⟩ : bytes "0x80070000" = size ∧ bytes "4" = align ∧ [bytes "16"] = rest := by
      simpa using hw.symm.trans h
    exact absurd hend (by decide)
  · rintro ⟨addr, size, align, h, -, -, -, hslip⟩
    obtain ⟨rfl, rfl, rfl⟩ : bytes "0x80070000" = addr ∧ bytes "4" = size ∧ bytes "16" = align := by
      simpa using hw.symm.trans h
    exact absurd hslip (by decide)
  · exact ⟨_, _, _, hw, by decide, by decide, by decide⟩
  · rintro ⟨addr, w, rest, h, -, -, -, hslip⟩
    obtain ⟨rfl, rfl, rfl⟩ : bytes "0x80070000" = addr ∧ bytes "4" = w ∧ [bytes "16"] = rest := by
      simpa using hw.symm.trans h
    rcases hslip with h | ⟨-, h⟩ | h
    · exact absurd h (by decide)
    · exact h (.inr (.inr (.inl rfl)))
    · exact absurd h (by decide)

/-- An alignment with a letter behind it, two blanks, and a width without an address. -/
theorem fbOemCmd_grammar_slips :
    (Allocates lmbAllocAnywhere (fbOemCmdAlloc (bytes "1 2x" ++ [0])) ∧
      ¬AllocGrammar (bytes "1 2x")) ∧
    (Frees (fbOemCmdFree (bytes "  " ++ [0])) ∧ ¬FreeGrammar (bytes "  ")) ∧
    (AccessesMemory (fbOemCmdPeek (bytes " 4" ++ [0])) ∧
      ¬PeekGrammar {w | IsWidth w} (bytes " 4")) := by
  refine ⟨⟨fbOemCmdAllocEx.allocates (by decide), ?_⟩, ⟨fbOemCmdFree.frees (by decide), ?_⟩,
    ?_, ?_⟩
  · rintro ⟨size, align, rest, h, -, halign, -⟩
    have hw : words (bytes "1 2x") = [bytes "1", bytes "2x"] := by decide
    obtain ⟨-, rfl, -⟩ : bytes "1" = size ∧ bytes "2x" = align ∧ [] = rest := by
      simpa using hw.symm.trans h
    exact absurd halign (by decide)
  · rintro ⟨addr, size, align, h, haddr, -⟩
    have hw : words (bytes "  ") = [[], [], []] := by decide
    obtain ⟨rfl, -⟩ : [] = addr ∧ [] = size ∧ [] = align := by simpa using hw.symm.trans h
    exact absurd haddr (by decide)
  · intro h
    have hsmall := congrArg (fun r : Result Halt Fb FbStatus => match r with
      | .ok _ s => s.small ep1InReq
      | .error _ s => s.small ep1InReq) (h (fun _ => 1) machine)
    exact absurd hsmall (by decide +kernel)
  · rintro ⟨addr, w, rest, h, haddr, -⟩
    have hw : words (bytes " 4") = [[], bytes "4"] := by decide
    obtain ⟨rfl, -⟩ : [] = addr ∧ bytes "4" = w ∧ [] = rest := by simpa using hw.symm.trans h
    exact absurd haddr (by decide)

end ShieldLoader
