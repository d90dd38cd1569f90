import ShieldLoader.Fdt.Path

/-!
# Aliases

A path that does not start with a slash starts with an alias, whose path may start with an alias
again. `fdt_path_offset` returns exactly when this comes to an end.
-/

namespace ShieldLoader

open Fuel Fdt

section
variable (d : Fdt) (n : Nat)

/-! ### More fuel -/

theorem strlen_grows (s : UInt64) : Grows (fun n => strlen d.mem n s) n := by
  have hturn (n : Nat) (sc : UInt64) : Grows (fun n => strlen.turn d.mem s n sc) n := .const _
  exact .loop hturn s

theorem readText_grows (s : UInt64) : Grows (fun n => readText d.mem n s) n :=
  (strlen_grows d n s).map _

theorem fdtNextTag_grows (startoffset : Int) : Grows (fun n => fdtNextTag d n startoffset) n := by
  have hturn (n : Nat) (offset : Int) : Grows (fun n => fdtNextTag.nameTurn d n offset) n :=
    .const (fdtNextTag.nameTurn d 0 offset)
  have hname (offset : Int) : Grows (fun n => fdtNextTag.name d n offset) n := .loop hturn offset
  have hskip (tag : UInt32) (offset : Int) : Grows (fun n => fdtNextTag.skip d n tag offset) n :=
    .ite (hname offset) (.const _)
  simp only [fdtNextTag]
  cases fdtOffsetPtr d startoffset 4 with
  | none => exact .const _
  | some tagp => exact (hskip _ _).map _

theorem fdtCheckNodeOffset_grows (offset : Int) : Grows (fun n => fdtCheckNodeOffset d n offset) n :=
  .ite (.const _) ((fdtNextTag_grows d n offset).map _)

theorem fdtNextNode_grows (offset : Int) (depth : Option Int) :
    Grows (fun n => fdtNextNode d n offset depth) n := by
  have hturn (n : Nat) (s : Int × Option Int) : Grows (fun n => fdtNextNode.turn d n s) n :=
    (fdtNextTag_grows d n s.1).map _
  have hloop (s : Int × Option Int) : Grows (fun n => loop (fdtNextNode.turn d) n s) n :=
    .loop hturn s
  have hstart (nextoffset : Int) : Grows (fun n => if nextoffset < 0 then some (nextoffset, depth)
      else loop (fdtNextNode.turn d) n (nextoffset, depth)) n := .ite (.const _) (hloop _)
  exact .ite ((fdtCheckNodeOffset_grows d n offset).bind hstart) (hloop _)

theorem fdtSubnodeOffsetNamelen_grows (offset : Int) (name : List UInt8) :
    Grows (fun n => fdtSubnodeOffsetNamelen d n offset name) n := by
  have hturn (n : Nat) (s : Int × Int) : Grows (fun n => fdtNamed.turn d 0 name n s) n :=
    .ite (.ite (.const _) ((fdtNextNode_grows d n _ _).map _)) (.const _)
  exact .ite (.const _) (.loop hturn _)

theorem fdtGetpropNamelen_grows (nodeoffset : Int) (name : List UInt8) :
    Grows (fun n => fdtGetpropNamelen d n nodeoffset name) n := by
  have hswitch (n : Nat) (offset : Int) (r : UInt32 × Int) :
      Grows (fun n => fdtGetPropertyNamelen.switch d name offset r n) n :=
    .ite (.const _) (.ite (((strlen_grows d n _).map _).map _) (.ite (.const _) (.const _)))
  have hturn (n : Nat) (offset : Int) : Grows (fun n => fdtGetPropertyNamelen.turn d name n offset) n :=
    (fdtNextTag_grows d n offset).bind (hswitch n offset)
  have hgo (err : Int) : Grows (fun n => if err < 0 then some (.error err)
      else loop (fdtGetPropertyNamelen.turn d name) n err) n := .ite (.const _) (.loop hturn err)
  exact Grows.map (.ite (.const _) ((fdtCheckNodeOffset_grows d n nodeoffset).bind hgo)) _

theorem fdtPathOffset_loop_grows (s : List UInt8 × Int) :
    Grows (fun n => loop (fdtPathOffset.turn d) n s) n := by
  have hturn (n : Nat) (s : List UInt8 × Int) : Grows (fun n => fdtPathOffset.turn d n s) n :=
    .ite (.const _) ((fdtSubnodeOffsetNamelen_grows d n s.2 _).map _)
  exact .loop hturn s

/-- What `fdt_path_offset` does with what it gets for an alias. -/
def fdtPathOffset.follow (path : List UInt8) (p : Option UInt64) (n : Nat) : Option Int :=
  match p with
  | none => some (-fdtErrBadpath)
  | some p =>
    ((readText d.mem n p).bind fun s => fdtPathOffset d n s).bind fun offset =>
      loop (fdtPathOffset.turn d) n (path.dropWhile (· ≠ '/'.toNat.toUInt8), offset)

theorem fdtPathOffset_succ (path : List UInt8) : fdtPathOffset d (n + 1) path =
    if fdtCheckHeader d ≠ 0 then some (fdtCheckHeader d)
    else if deref path ≠ '/'.toNat.toUInt8 then
      (fdtGetAliasNamelen d n (path.takeWhile (· ≠ '/'.toNat.toUInt8))).bind fun p =>
        fdtPathOffset.follow d path p n
    else loop (fdtPathOffset.turn d) n (path, 0) := by
  rw [fdtPathOffset]
  rfl

theorem fdtGetAliasNamelen_succ (name : List UInt8) : fdtGetAliasNamelen d (n + 1) name =
    (fdtPathOffset d n (bytes "/aliases")).bind fun aliasoffset =>
      if aliasoffset < 0 then some none
      else (fdtGetpropNamelen d n aliasoffset name).map fun r => r.toOption.map Prod.fst := by
  rw [fdtGetAliasNamelen]

theorem fdtPathOffset_grows_both :
    (∀ path, Grows (fun n => fdtPathOffset d n path) n) ∧
      ∀ name, Grows (fun n => fdtGetAliasNamelen d n name) n := by
  induction n with
  | zero =>
    constructor
    · intro path a h
      dsimp only at h
      rw [fdtPathOffset] at h
      cases h
    · intro name a h
      dsimp only at h
      rw [fdtGetAliasNamelen] at h
      cases h
  | succ n ih =>
    constructor
    · intro path a h
      have hfollow (p : Option UInt64) : Grows (fdtPathOffset.follow d path p) n := by
        cases p with
        | none => exact .const _
        | some p =>
          exact ((readText_grows d n p).bind ih.1).bind fun _ => fdtPathOffset_loop_grows d n _
      dsimp only at h ⊢
      rw [fdtPathOffset_succ] at h ⊢
      exact Grows.ite (.const _) (.ite ((ih.2 _).bind hfollow) (fdtPathOffset_loop_grows d n _)) a h
    · intro name a h
      dsimp only at h ⊢
      rw [fdtGetAliasNamelen_succ] at h ⊢
      have hvalue (aliasoffset : Int) : Grows (fun n => if aliasoffset < 0 then some none
          else (fdtGetpropNamelen d n aliasoffset name).map fun r => r.toOption.map Prod.fst) n :=
        .ite (.const _) ((fdtGetpropNamelen_grows d n aliasoffset name).map _)
      exact ((ih.1 _).bind hvalue) a h

theorem fdtPathOffset_grows (path : List UInt8) : Grows (fun n => fdtPathOffset d n path) n :=
  (fdtPathOffset_grows_both d n).1 path

theorem fdtGetAliasNamelen_grows (name : List UInt8) :
    Grows (fun n => fdtGetAliasNamelen d n name) n := (fdtPathOffset_grows_both d n).2 name

end

/-! ### Texts that end -/

section
variable {m : Memory} {p : UInt64} {n : Nat} {s : List UInt8}

theorem strlen_holds {sc r : UInt64} (h : loop (strlen.turn m p) n sc = some r) :
    ∃ s, m.HoldsText sc s ∧ r = sc + UInt64.ofNat s.length - p := by
  induction n generalizing sc with
  | zero => cases h
  | succ n ih =>
    rw [loop, strlen.turn, Option.bind_some] at h
    split_ifs at h with hzero
    · refine ⟨[], ⟨List.not_mem_nil, Memory.holds_cons.2 ⟨hzero, rfl⟩⟩, ?_⟩
      show r = sc + 0 - p
      rw [UInt64.add_zero]
      exact (Option.some.inj h).symm
    · obtain ⟨s, hs, hr⟩ := ih h
      refine ⟨m sc :: s, ⟨?_, Memory.holds_cons.2 ⟨rfl, hs.holds⟩⟩, ?_⟩
      · rw [List.mem_cons, not_or]
        exact ⟨Ne.symm hzero, hs.zero_notMem⟩
      · rw [hr, List.length_cons, Nat.add_comm s.length, UInt64.ofNat_add, ← UInt64.add_assoc]
        rfl

theorem holds_of_readText (h : readText m n p = some s) : m.HoldsText p s := by
  obtain ⟨r, hr, hs⟩ := Option.map_eq_some_iff.1 h
  obtain ⟨t, ht, hlen⟩ := strlen_holds hr
  rw [UInt64.add_comm, UInt64.add_sub_cancel] at hlen
  rw [hlen, ht.toNat_length, (Memory.holds_append.1 ht.holds).1.slice_eq] at hs
  exact hs ▸ ht

end

/-! ### Where paths lead -/

/-- What is found, or else `FDT_ERR_NOTFOUND`. -/
def found (x : Option (DtNode × Forest DtNode)) : Except Int (DtNode × Forest DtNode) :=
  x.elim (.error (-fdtErrNotfound)) .ok

/-- The offset of what is found, or the error. -/
def leadOffset : Except Int (DtNode × Forest DtNode) → Int
  | .error err => err
  | .ok x => x.1.offset

theorem leadOffset_found (x : Option (DtNode × Forest DtNode)) :
    leadOffset (found x) = foundOffset (x.map Prod.fst) := by
  cases x with
  | none => rfl
  | some x => rfl

/-- The property of the node `/aliases` for a name. -/
def aliasProp (root : DtNode) (c : Forest DtNode) (name : List UInt8) : Option DtProp :=
  (along (bytes "/aliases") (root, c)).bind fun x => x.1.props.find? (·.name = name)

/-- The path of a name in `/aliases` goes in the place of the name. -/
inductive Fdt.Leads (d : Fdt) (root : DtNode) (c : Forest DtNode) :
    List UInt8 → Except Int (DtNode × Forest DtNode) → Prop
  | slash : deref path = '/'.toNat.toUInt8 → Leads d root c path (found (along path (root, c)))
  | unknown : deref path ≠ '/'.toNat.toUInt8 →
    aliasProp root c (path.takeWhile (· ≠ '/'.toNat.toUInt8)) = none →
    Leads d root c path (.error (-fdtErrBadpath))
  | through : deref path ≠ '/'.toNat.toUInt8 →
    aliasProp root c (path.takeWhile (· ≠ '/'.toNat.toUInt8)) = some p →
    d.mem.HoldsText (fdtStructPtr d (p.offset + 12 : Nat)) s → Leads d root c s r →
    Leads d root c path (r.bind fun x => found (along (path.dropWhile (· ≠ '/'.toNat.toUInt8)) x))

section
variable {d : Fdt} {root n : DtNode} {c c' : Forest DtNode} {stop : Nat}
  {path name s : List UInt8} {r : Except Int (DtNode × Forest DtNode)}

/-- A path leads to a node of the tree, or to an error. -/
theorem Fdt.Leads.result (h : d.Leads root c path r) :
    (∃ err < 0, r = .error err) ∨ ∃ x, r = .ok x ∧ Forest.Occurs x.1 x.2 (.node root c .nil) := by
  have hfound {path : List UInt8} {x : DtNode × Forest DtNode}
      (hx : Forest.Occurs x.1 x.2 (.node root c .nil)) :
      (∃ err < 0, found (along path x) = .error err) ∨
        ∃ y, found (along path x) = .ok y ∧ Forest.Occurs y.1 y.2 (.node root c .nil) := by
    cases hb : along path x with
    | none => exact .inl ⟨_, by decide, rfl⟩
    | some y => exact .inr ⟨y, rfl, Forest.occurs_descend hb hx⟩
  induction h with
  | slash => exact hfound .here
  | unknown => exact .inl ⟨_, by decide, rfl⟩
  | through _ _ _ _ ih =>
    rcases ih with ⟨err, herr, rfl⟩ | ⟨x, rfl, hx⟩
    · exact .inl ⟨err, herr, rfl⟩
    · exact hfound hx

/-- `fdt_get_alias_namelen`. -/
theorem Fdt.IsTree.getAlias (h : d.IsTree root c stop) (name : List UInt8) :
    Yields (fun fuel => fdtGetAliasNamelen d fuel name)
      ((aliasProp root c name).map fun p => fdtStructPtr d (p.offset + 12 : Nat)) := by
  refine Yields.of_succ ?_
  have hpath := h.pathOffset (show (0 : UInt8) ∉ bytes "/aliases" by decide) (by decide)
  refine (hpath.bind (g := fun aliasoffset fuel => if aliasoffset < 0 then some none
    else (fdtGetpropNamelen d fuel aliasoffset name).map fun r => r.toOption.map Prod.fst) ?_).congr
    fun fuel => fdtGetAliasNamelen_succ d fuel name
  rw [aliasProp]
  cases hb : along (bytes "/aliases") (root, c) with
  | none => exact .const fun fuel => rfl
  | some x =>
    have hx := Forest.occurs_descend hb (.here (a := root) (c := c) (s := .nil))
    have hno : ¬(x.1.offset : Int) < 0 := by omega
    refine ((h.getprop hx name).map_eq ?_).congr fun fuel => if_neg hno
    cases hfind : x.1.props.find? (·.name = name) with
    | none => rw [Option.bind_some, hfind]; rfl
    | some p => rw [Option.bind_some, hfind]; rfl

/-- At an error, the loop over the components ends. -/
theorem fdtPathOffset_loop_error {err : Int} (herr : err < 0) (hheader : fdtCheckHeader d = 0) :
    Yields (fun fuel => loop (fdtPathOffset.turn d) fuel (path, err)) err := by
  refine Yields.loop_done ?_
  simp only [fdtPathOffset.turn]
  split_ifs
  · exact .const fun _ => rfl
  · have hsub (s : List UInt8) : Yields (fun fuel => fdtSubnodeOffsetNamelen d fuel err s) err := by
      have hstop : ¬((0 : Int) ≤ err ∧ (0 : Int) ≤ 0) := by omega
      have hloop : Yields (fun fuel => loop (fdtNamed.turn d 0 s) fuel (err, 0)) err :=
        Yields.loop_done (.const fun fuel => if_neg hstop)
      exact hloop.congr fun fuel => if_neg (not_not_intro hheader)
    exact (hsub _).map_eq (if_pos herr)

/-- What follows the look at an alias. -/
theorem Fdt.IsTree.pathOffset_alias (h : d.IsTree root c stop)
    (hrel : deref path ≠ '/'.toNat.toUInt8) {o : Int}
    (ho : Yields (fdtPathOffset.follow d path
      ((aliasProp root c (path.takeWhile (· ≠ '/'.toNat.toUInt8))).map fun p =>
        fdtStructPtr d (p.offset + 12 : Nat))) o) :
    Yields (fun fuel => fdtPathOffset d fuel path) o := by
  refine Yields.of_succ (((h.getAlias _).bind (g := fdtPathOffset.follow d path) ho).congr
    fun fuel => ?_)
  rw [fdtPathOffset_succ, if_neg (not_not_intro h.header), if_pos hrel]

theorem Fdt.Leads.yields (h : d.IsTree root c stop) (hpath : 0 ∉ path) (hr : d.Leads root c path r) :
    Yields (fun fuel => fdtPathOffset d fuel path) (leadOffset r) := by
  induction hr with
  | slash habs =>
    rw [leadOffset_found]
    exact h.pathOffset hpath habs
  | unknown hrel hnone =>
    refine h.pathOffset_alias hrel ?_
    rw [hnone]
    exact .const fun _ => rfl
  | @through path p s r hrel hsome htext hs ih =>
    refine h.pathOffset_alias hrel ?_
    rw [hsome]
    have hrest : 0 ∉ path.dropWhile (· ≠ '/'.toNat.toUInt8) := fun h0 =>
      hpath ((List.dropWhile_suffix _).subset h0)
    refine ((readText_of_holds htext).bind (g := fun s n => fdtPathOffset d n s)
      (ih htext.zero_notMem)).bind (g := fun offset n => loop (fdtPathOffset.turn d) n
        (path.dropWhile (· ≠ '/'.toNat.toUInt8), offset)) ?_
    rcases hs.result with ⟨err, herr, rfl⟩ | ⟨x, rfl, hx⟩
    · exact fdtPathOffset_loop_error herr h.header
    · have hloop := h.pathLoop hx hrest
      rwa [← leadOffset_found] at hloop

/-- If the function returns, then the path leads somewhere. -/
theorem Fdt.IsTree.leads (h : d.IsTree root c stop) {n : Nat} {o : Int} (hpath : 0 ∉ path)
    (ho : fdtPathOffset d n path = some o) : ∃ r, d.Leads root c path r := by
  induction n using Nat.strong_induction_on generalizing path o with
  | _ n ih =>
    by_cases habs : deref path = '/'.toNat.toUInt8
    · exact ⟨_, .slash habs⟩
    cases n with
    | zero =>
      rw [fdtPathOffset] at ho
      cases ho
    | succ n =>
      rw [fdtPathOffset_succ, if_neg (not_not_intro h.header), if_pos habs] at ho
      obtain ⟨p, hp, ho⟩ := Option.bind_eq_some_iff.1 ho
      have hsame := (h.getAlias _).unique (Grows.yields (fun n => fdtGetAliasNamelen_grows d n _) hp)
      cases hprop : aliasProp root c (path.takeWhile (· ≠ '/'.toNat.toUInt8)) with
      | none => exact ⟨_, .unknown habs hprop⟩
      | some q =>
        rw [hprop, Option.map_some] at hsame
        subst hsame
        obtain ⟨o', ho', -⟩ := Option.bind_eq_some_iff.1 ho
        obtain ⟨s, hs, ho'⟩ := Option.bind_eq_some_iff.1 ho'
        have htext := holds_of_readText hs
        obtain ⟨r, hr⟩ := ih n (Nat.lt_succ_self n) htext.zero_notMem ho'
        exact ⟨_, .through habs hprop htext hr⟩

/-- **`fdt_path_offset` returns exactly when the aliases come to an end**, and then what the path
leads to: the node that is reached through the first matching children, `FDT_ERR_NOTFOUND` when there
is none, and `FDT_ERR_BADPATH` for a name that is no alias. -/
theorem fdtPathOffset_leads (h : d.IsTree root c stop) (hpath : 0 ∉ path) (o : Int) :
    (∃ fuel, fdtPathOffset d fuel path = some o) ↔
      ∃ r, d.Leads root c path r ∧ o = leadOffset r := by
  constructor
  · rintro ⟨fuel, ho⟩
    obtain ⟨r, hr⟩ := h.leads hpath ho
    refine ⟨r, hr, Yields.unique (Grows.yields (fun n => fdtPathOffset_grows d n path) ho) ?_⟩
    exact hr.yields h hpath
  · rintro ⟨r, hr, rfl⟩
    obtain ⟨N, hN⟩ := hr.yields h hpath
    exact ⟨N, hN N le_rfl⟩

end

theorem fdtPathOffset_leads_small :
    (∃ fuel, fdtPathOffset (smallDtb.load 0x83000000) fuel (bytes "serial0") = some 216) ∧
      ∃ r, (smallDtb.load 0x83000000).Leads smallDtb.rootNode smallDtb.childNodes (bytes "serial0") r ∧
        216 = leadOffset r := by
  have hvalue : ∃ fuel, fdtPathOffset (smallDtb.load 0x83000000) fuel (bytes "serial0") = some 216 :=
    ⟨40, by decide +kernel⟩
  exact ⟨hvalue, (fdtPathOffset_leads smallDtb_written.isTree (by decide) 216).1 hvalue⟩

end ShieldLoader
