import ShieldLoader.Fdt.Properties
import ShieldLoader.Data.Numeral

/-!
# Searches over all nodes

The searches for a type, a compatible device, the value of a property or a phandle find the first
node behind the starting one that matches.
-/

namespace ShieldLoader

open Fuel

/-! ### Lists of strings -/

/-- The strings in the bytes, each one with a zero behind it. -/
def stringlist (bs : List UInt8) : List (List UInt8) := (bs.splitOn 0).dropLast

theorem stringlist_of_notMem {bs : List UInt8} (h : 0 ∉ bs) : stringlist bs = [] := by
  rw [stringlist, List.splitOn_eq_singleton h]
  rfl

theorem stringlist_append {s : List UInt8} (h : 0 ∉ s) (bs : List UInt8) :
    stringlist (s ++ 0 :: bs) = s :: stringlist bs := by
  rw [stringlist, List.splitOn_append_cons_self_of_not_mem h,
    List.dropLast_cons_of_ne_nil (List.splitOn_ne_nil 0 bs)]
  rfl

section
variable {d : Fdt} {m : Memory} {p : UInt64} {v s t : List UInt8}

theorem memchr_of_notMem {c : UInt8} (hv : c ∉ v) (h : m.Holds p v) : memchr m c p v.length = none := by
  induction v generalizing p with
  | nil => rfl
  | cons b v ih =>
    rw [List.mem_cons, not_or] at hv
    rw [Memory.holds_cons] at h
    rw [List.length_cons, memchr, if_neg (h.1 ▸ Ne.symm hv.1), ih hv.2 h.2]

theorem memchr_append {c : UInt8} (hs : c ∉ s) (h : m.Holds p (s ++ c :: t)) :
    memchr m c p (s ++ c :: t).length = some (p + UInt64.ofNat s.length) := by
  induction s generalizing p with
  | nil =>
    rw [List.nil_append, List.length_cons, memchr, if_pos (Memory.holds_cons.1 h).1]
    exact congrArg some (UInt64.add_zero p).symm
  | cons b s ih =>
    rw [List.mem_cons, not_or] at hs
    rw [List.cons_append, Memory.holds_cons] at h
    rw [List.cons_append, List.length_cons, memchr, if_neg (h.1 ▸ Ne.symm hs.1), ih hs.2 h.2,
      List.length_cons, Nat.add_comm s.length, UInt64.ofNat_add, UInt64.add_assoc]
    rfl

/-- Bytes that are compared with the first ones at an address. -/
theorem slice_prefix {bs : List UInt8} {n : Nat} (h : m.Holds p bs) (hn : n ≤ bs.length) :
    m.slice p n <+: bs := by
  obtain ⟨k, hk⟩ := Nat.exists_eq_add_of_le hn
  have hall := h.slice_eq
  rw [hk, Memory.slice_add] at hall
  exact ⟨_, hall⟩

/-- The comparison with the first string. -/
theorem slice_eq_iff {str : List UInt8} (hstr : 0 ∉ str) (hs : 0 ∉ s) (h : m.Holds p (s ++ 0 :: t))
    (hlen : str.length ≤ s.length + t.length) :
    m.slice p (str.length + 1) = str ++ [0] ↔ str = s := by
  constructor
  · intro heq
    have hpre : str ++ [0] <+: s ++ 0 :: t := by
      rw [← heq]
      exact slice_prefix h (by rw [List.length_append, List.length_cons]; omega)
    obtain ⟨r, hr⟩ := hpre
    have htext := congrArg text hr
    rwa [List.append_assoc, List.singleton_append, text_append_zero hstr, text_append_zero hs] at htext
  · rintro rfl
    rw [List.append_cons, Memory.holds_append] at h
    have hslice := h.1.slice_eq
    rwa [List.length_append, List.length_singleton] at hslice

theorem length_lt_of_mem_stringlist {bs x : List UInt8} (hx : x ∈ stringlist bs) :
    x.length < bs.length := by
  induction hn : bs.length using Nat.strong_induction_on generalizing bs with
  | _ n ih =>
    by_cases h0 : 0 ∈ bs
    · obtain ⟨r, hr⟩ := eq_text_append h0
      rw [hr, stringlist_append (zero_notMem_text bs)] at hx
      have hlen := congrArg List.length hr
      rw [List.length_append, List.length_cons] at hlen
      cases List.mem_cons.1 hx with
      | inl hx =>
        rw [hx]
        omega
      | inr hx =>
        have := ih r.length (by omega) hx rfl
        omega
    · rw [stringlist_of_notMem h0] at hx
      cases hx

/-- The loop looks through the strings of the value. It takes the byte behind the value for the end
of a last string that has none. -/
theorem fdtStringlistContains.loop_eq {str : List UInt8} (hstr : 0 ∉ str) {b : UInt8} {n : Nat}
    (h : d.mem.Holds p (v ++ [b])) (hn : v.length < n) :
    fdtStringlistContains.loop d str n p v.length = decide (str ∈ stringlist (v ++ [b])) := by
  induction n generalizing p v with
  | zero => omega
  | succ n ih =>
    rw [fdtStringlistContains.loop]
    have hv := (Memory.holds_append.1 h).1
    by_cases h0 : 0 ∈ v
    · obtain ⟨w, hw⟩ := eq_text_append h0
      have hs := zero_notMem_text v
      generalize text v = s at hw hs
      subst hw
      rw [List.append_assoc, List.cons_append] at h
      rw [List.append_assoc, List.cons_append, stringlist_append hs]
      have hsplit : d.mem.Holds p (s ++ [0] ++ (w ++ [b])) := by rwa [← List.append_cons]
      have hstop := Memory.holds_append.1 hsplit
      have hlt : s.length < 2 ^ 64 :=
        Memory.HoldsText.length_lt ⟨hs, hstop.1⟩
      have hrest : d.mem.Holds (p + UInt64.ofNat s.length + 1) (w ++ [b]) := by
        have hrest := hstop.2
        rw [List.length_append, List.length_singleton, UInt64.ofNat_add, ← UInt64.add_assoc] at hrest
        exact hrest
      have hback : (p + UInt64.ofNat s.length - p).toNat = s.length := by
        rw [UInt64.add_comm, UInt64.add_sub_cancel, UInt64.toNat_ofNat_of_lt_two_pow hlt]
      have hlen : (s ++ 0 :: w).length - (s.length + 1) = w.length := by
        rw [List.length_append, List.length_cons]
        omega
      rw [memchr_append hs hv]
      dsimp only
      rw [hback, hlen]
      split_ifs with hle heq
      · have hmatch := (slice_eq_iff hstr hs h (by simp at hle ⊢; omega)).1 heq
        exact (decide_eq_true (hmatch ▸ List.mem_cons_self ..)).symm
      · have hmatch := mt (slice_eq_iff hstr hs h (by simp at hle ⊢; omega)).2 heq
        rw [ih hrest (by simp at hn; omega)]
        simp [hmatch]
      · refine (decide_eq_false fun hmem => hle ?_).symm
        rw [← stringlist_append hs] at hmem
        have := length_lt_of_mem_stringlist hmem
        simp at this ⊢
        omega
    · rw [memchr_of_notMem h0 hv]
      dsimp only
      by_cases hb : b = 0
      · subst hb
        rw [stringlist_append h0, stringlist_of_notMem List.not_mem_nil]
        split_ifs with hle heq
        · have hmatch := (slice_eq_iff hstr h0 h (by simpa using hle)).1 heq
          exact (decide_eq_true (hmatch ▸ List.mem_cons_self ..)).symm
        · have hmatch := mt (slice_eq_iff hstr h0 h (by simpa using hle)).2 heq
          simp [hmatch]
        · refine (decide_eq_false fun hmem => hle ?_).symm
          rw [List.mem_singleton.1 hmem]
      · have hno : 0 ∉ v ++ [b] := by
          rw [List.mem_append, List.mem_singleton, not_or]
          exact ⟨h0, Ne.symm hb⟩
        rw [stringlist_of_notMem hno]
        split_ifs with hle heq
        · have hpre := slice_prefix (n := str.length + 1) h (by simpa using hle)
          rw [heq] at hpre
          exact absurd (hpre.subset (by simp)) hno
        · simp
        · simp

/-- `_fdt_stringlist_contains` for a value. -/
theorem fdtStringlistContains_eq {str : List UInt8} (hstr : 0 ∉ str) (h : d.mem.Holds p v) :
    fdtStringlistContains d p v.length str =
      decide (str ∈ stringlist (v ++ [d.mem (p + UInt64.ofNat v.length)])) := by
  have hnext : d.mem.Holds p (v ++ [d.mem (p + UInt64.ofNat v.length)]) :=
    Memory.holds_append.2 ⟨h, Memory.holds_cons.2 ⟨rfl, rfl⟩⟩
  rw [fdtStringlistContains, if_neg (by omega), text_of_notMem hstr]
  exact fdtStringlistContains.loop_eq hstr hnext (Nat.lt_succ_self _)

end

/-! ### The loop -/

/-- The nodes behind the starting offset: all, or those that come after one. -/
def Behind (nodes : List DtNode) (start : Int) (post : List DtNode) : Prop :=
  start = -1 ∧ post = nodes ∨ ∃ pre n, nodes = pre ++ n :: post ∧ start = n.offset

theorem Behind.occurs {f : Forest DtNode} {start : Int} {post : List DtNode}
    (h : Behind f.labels start post) {n : DtNode} (hn : n ∈ post) : ∃ c, Forest.Occurs n c f := by
  refine Forest.exists_occurs ?_
  rcases h with ⟨-, rfl⟩ | ⟨pre, m, hnodes, -⟩
  · exact hn
  · rw [hnodes]
    exact List.mem_append_right _ (List.mem_cons_of_mem _ hn)

/-- The offset of a node that was found. -/
def foundOffset (n : Option DtNode) : Int := n.elim (-fdtErrNotfound) fun n => n.offset

section
variable {d : Fdt} {root n : DtNode} {c c' : Forest DtNode} {stop : Nat}
  {check : Nat → Int → Option Int} {P : DtNode → Bool}

/-- `check` tells which nodes are looked for. -/
def Fdt.Checks (check : Nat → Int → Option Int) (P : DtNode → Bool) (n : DtNode) : Prop :=
  ∃ err, Yields (fun fuel => check fuel n.offset) err ∧
    (P n = true → err = 0) ∧ (P n = false → 0 < err ∨ err = -fdtErrNotfound)

/-- From a node of a chain, the search goes on to the first match. -/
theorem fdtNodeOffsetBy.loop_find {nodes : List DtNode} (hcheck : ∀ n ∈ nodes, Fdt.Checks check P n)
    {x : Int}
    (hchain : ((x, none) :: (nodes.map (fun n => ((n.offset : Int), (none : Option Int))) ++
      [(-fdtErrNotfound, none)])).IsChain d.Next) :
    Yields (fun fuel => (fdtNextNode d fuel x none).bind fun r =>
      loop (fdtNodeOffsetBy.turn d check) fuel r.1) (foundOffset (nodes.find? P)) := by
  induction nodes generalizing x with
  | nil =>
    have hnext := (List.isChain_cons_cons.1 hchain).1
    refine Yields.bind (g := fun r fuel => loop (fdtNodeOffsetBy.turn d check) fuel r.1) hnext ?_
    exact Yields.loop_done (.const fun fuel => rfl)
  | cons n nodes ih =>
    rw [List.map_cons, List.cons_append] at hchain
    obtain ⟨hnext, hrest⟩ := List.isChain_cons_cons.1 hchain
    have hgo := ih (fun m hm => hcheck m (List.mem_cons_of_mem _ hm)) hrest
    obtain ⟨err, herr, hfound, hother⟩ := hcheck n (List.mem_cons_self ..)
    refine Yields.bind (g := fun r fuel => loop (fdtNodeOffsetBy.turn d check) fuel r.1) hnext ?_
    -- the turn at the node
    have hturn : ∀ t, Yields (fun fuel => fdtNodeOffsetBy.react d n.offset err fuel) t →
        Yields (fun fuel => fdtNodeOffsetBy.turn d check fuel n.offset) t := fun t ht =>
      (herr.bind (g := fdtNodeOffsetBy.react d n.offset) ht).congr fun fuel =>
        if_pos (Int.natCast_nonneg _)
    cases hP : P n with
    | true =>
      rw [List.find?_cons_of_pos hP]
      refine Yields.loop_done (hturn _ (.const fun fuel => ?_))
      rw [hfound hP]
      rfl
    | false =>
      rw [List.find?_cons_of_neg (by simp [hP])]
      have hgoes : ¬(err < 0 ∧ err ≠ -fdtErrNotfound) ∧ err ≠ 0 := by
        rcases hother hP with h | h
        · omega
        · rw [fdtErrNotfound] at *
          omega
      have hreact (fuel : Nat) : fdtNodeOffsetBy.react d n.offset err fuel =
          (fdtNextNode d fuel n.offset none).map fun r => .next r.1 := by
        rw [fdtNodeOffsetBy.react, if_neg hgoes.1, if_neg hgoes.2]
      obtain ⟨y, ys, hy⟩ := List.exists_cons_of_ne_nil (List.append_ne_nil_of_right_ne_nil
        (nodes.map fun n => ((n.offset : Int), (none : Option Int)))
        (List.cons_ne_nil ((-fdtErrNotfound, none) : Int × Option Int) []))
      rw [hy] at hrest
      have hnext' := (List.isChain_cons_cons.1 hrest).1
      refine Yields.loop_next (hturn (.next y.1) ((hnext'.map _).congr hreact)) ?_
      exact hnext'.of_bind (g := fun r fuel => loop (fdtNodeOffsetBy.turn d check) fuel r.1) hgo

theorem map_visit_none (f : Forest DtNode) (k : Nat) :
    (f.preorder k).map (Fdt.visit none) = f.labels.map fun n => ((n.offset : Int), none) := by
  rw [← Nat.add_zero k, f.preorder_add k 0, Forest.labels, List.map_map, List.map_map]
  rfl

/-- The search goes through the nodes behind the starting offset. -/
theorem Fdt.IsTree.find (h : d.IsTree root c stop) {start : Int} {post : List DtNode}
    (hstart : Behind (Forest.node root c .nil).labels start post)
    (hcheck : ∀ n ∈ post, Checks check P n) :
    Yields (fun fuel => fdtNodeOffsetBy d check fuel start) (foundOffset (post.find? P)) := by
  have hchain := h.chain (x := -1) (e := none) (by decide) (by simp)
  rw [map_visit_none] at hchain
  refine fdtNodeOffsetBy.loop_find hcheck ?_
  rcases hstart with ⟨rfl, rfl⟩ | ⟨pre, n, hnodes, rfl⟩
  · exact hchain
  · rw [hnodes, List.map_append, List.map_cons, List.append_assoc, List.cons_append,
      ← List.cons_append] at hchain
    exact (List.isChain_append.1 hchain).2.1

/-! ### What is looked for -/

/-- The node lists the string in the property; the byte behind the value may end the last string. -/
def Fdt.lists (d : Fdt) (propname str : List UInt8) (n : DtNode) : Bool :=
  (n.props.find? (·.name = propname)).any fun p => (stringlist
    (p.value ++ [d.mem (fdtStructPtr d (p.offset + 12 : Nat) + UInt64.ofNat p.value.length)])).contains
      str

/-- The property of the node has the value. -/
def DtNode.hasValue (propname propval : List UInt8) (n : DtNode) : Bool :=
  (n.props.find? (·.name = propname)).any fun p => decide (p.value = propval)

theorem Fdt.IsTree.getprop_text (h : d.IsTree root c stop)
    (hn : Forest.Occurs n c' (.node root c .nil)) {name : List UInt8} (hname : 0 ∉ name) :
    Yields (fun fuel => fdtGetprop d fuel n.offset name)
      (d.dataResult (n.props.find? (·.name = name))) := by
  refine (h.getprop hn name).congr fun fuel => ?_
  rw [fdtGetprop, text_of_notMem hname]

theorem Fdt.IsTree.checks_list (h : d.IsTree root c stop)
    (hn : Forest.Occurs n c' (.node root c .nil)) {propname str : List UInt8}
    (hname : 0 ∉ propname) (hstr : 0 ∉ str) :
    Checks (fun fuel offset => fdtNodeCheck d propname fuel offset str) (d.lists propname str) n := by
  have hget := h.getprop_text hn hname
  refine ⟨_, hget.map _, ?_⟩
  cases hfind : n.props.find? (·.name = propname) with
  | none =>
    rw [lists, hfind]
    exact ⟨fun hP => absurd hP (by simp), fun _ => .inr rfl⟩
  | some p =>
    have hvalue := h.holds_value hn (List.mem_of_find?_eq_some hfind)
    rw [lists, hfind, Option.any_some, dataResult, List.contains_eq_mem]
    dsimp only
    rw [fdtStringlistContains_eq hstr hvalue]
    exact ⟨fun hP => if_pos hP, fun hP => .inl (by rw [hP]; exact Int.one_pos)⟩

theorem Fdt.IsTree.checks_value (h : d.IsTree root c stop)
    (hn : Forest.Occurs n c' (.node root c .nil)) {propname : List UInt8} (hname : 0 ∉ propname)
    (propval : List UInt8) :
    Checks (fun fuel offset => (fdtGetprop d fuel offset propname).map
      (fdtNodeOffsetByPropValue.check d propval)) (DtNode.hasValue propname propval) n := by
  have hget := h.getprop_text hn hname
  refine ⟨_, hget.map _, ?_⟩
  cases hfind : n.props.find? (·.name = propname) with
  | none =>
    rw [DtNode.hasValue, hfind]
    exact ⟨fun hP => absurd hP (by simp), fun _ => .inl Int.one_pos⟩
  | some p =>
    have hvalue := (h.holds_value hn (List.mem_of_find?_eq_some hfind)).slice_eq
    rw [DtNode.hasValue, hfind, Option.any_some, dataResult, fdtNodeOffsetByPropValue.check]
    dsimp only
    have hsame : ((p.value.length : Int) = propval.length ∧ d.mem.slice
        (fdtStructPtr d (p.offset + 12 : Nat)) propval.length = propval) ↔ p.value = propval := by
      constructor
      · rintro ⟨hlen, hslice⟩
        rw [← hvalue, Int.natCast_inj.1 hlen, hslice]
      · rintro rfl
        exact ⟨rfl, hvalue⟩
    rw [decide_eq_true_iff, decide_eq_false_iff_not]
    exact ⟨fun hP => if_pos (hsame.2 hP),
      fun hP => .inl (by rw [if_neg (mt hsame.1 hP)]; exact Int.one_pos)⟩

theorem Fdt.IsTree.byDtype (h : d.IsTree root c stop) {start : Int} {post : List DtNode}
    (hstart : Behind (Forest.node root c .nil).labels start post) {dtype : List UInt8}
    (hstr : 0 ∉ dtype) : Yields (fun fuel => fdtNodeOffsetByDtype d fuel start dtype)
      (foundOffset (post.find? (d.lists (bytes "device_type") dtype))) := by
  have hfind := h.find hstart fun n hn => (hstart.occurs hn).elim fun _ hn =>
    h.checks_list hn (show (0 : UInt8) ∉ bytes "device_type" by decide) hstr
  exact hfind.congr fun fuel => if_neg (not_not_intro h.header)

theorem Fdt.IsTree.byCompatible (h : d.IsTree root c stop) {start : Int} {post : List DtNode}
    (hstart : Behind (Forest.node root c .nil).labels start post) {compatible : List UInt8}
    (hstr : 0 ∉ compatible) : Yields (fun fuel => fdtNodeOffsetByCompatible d fuel start compatible)
      (foundOffset (post.find? (d.lists (bytes "compatible") compatible))) := by
  have hfind := h.find hstart fun n hn => (hstart.occurs hn).elim fun _ hn =>
    h.checks_list hn (show (0 : UInt8) ∉ bytes "compatible" by decide) hstr
  exact hfind.congr fun fuel => if_neg (not_not_intro h.header)

theorem Fdt.IsTree.byPropValue (h : d.IsTree root c stop) {start : Int} {post : List DtNode}
    (hstart : Behind (Forest.node root c .nil).labels start post) {propname : List UInt8}
    (hname : 0 ∉ propname) (propval : List UInt8) :
    Yields (fun fuel => fdtNodeOffsetByPropValue d fuel start propname propval)
      (foundOffset (post.find? (DtNode.hasValue propname propval))) := by
  have hfind := h.find hstart fun n hn => (hstart.occurs hn).elim fun _ hn =>
    h.checks_value hn hname propval
  exact hfind.congr fun fuel => if_neg (not_not_intro h.header)

/-- **The searches find the first node that matches** behind the starting offset, in preorder. When
there is none, the error is `FDT_ERR_NOTFOUND`. -/
theorem fdtNodeOffsetBy_find (h : d.IsTree root c stop) {start : Int} {post : List DtNode}
    (hstart : Behind (Forest.node root c .nil).labels start post) :
    (∀ dtype, 0 ∉ dtype → Yields (fun fuel => fdtNodeOffsetByDtype d fuel start dtype)
      (foundOffset (post.find? (d.lists (bytes "device_type") dtype)))) ∧
    (∀ compatible, 0 ∉ compatible →
      Yields (fun fuel => fdtNodeOffsetByCompatible d fuel start compatible)
        (foundOffset (post.find? (d.lists (bytes "compatible") compatible)))) ∧
    ∀ propname propval, 0 ∉ propname →
      Yields (fun fuel => fdtNodeOffsetByPropValue d fuel start propname propval)
        (foundOffset (post.find? (DtNode.hasValue propname propval))) :=
  ⟨fun _ hstr => h.byDtype hstart hstr, fun _ hstr => h.byCompatible hstart hstr,
    fun _ propval hname => h.byPropValue hstart hname propval⟩

theorem fdtNodeOffsetBy_find_small :
    Yields (fun fuel => fdtNodeOffsetByDtype (smallDtb.load 0x83000000) fuel (-1) (bytes "memory"))
      (foundOffset ((Forest.node smallDtb.rootNode smallDtb.childNodes .nil).labels.find?
        ((smallDtb.load 0x83000000).lists (bytes "device_type") (bytes "memory")))) :=
  (fdtNodeOffsetBy_find smallDtb_written.isTree (.inl ⟨rfl, rfl⟩)).1 _ (by decide)

/-! ### Phandles -/

/-- The phandle of a node, or zero. -/
def DtNode.phandle (n : DtNode) : UInt32 :=
  (n.props.find? (·.name = bytes "linux,phandle")).elim 0 fun p =>
    if p.value.length ≠ 4 then 0 else UInt32.ofNat (bigEndian p.value)

theorem Fdt.IsTree.getPhandle (h : d.IsTree root c stop)
    (hn : Forest.Occurs n c' (.node root c .nil)) :
    Yields (fun fuel => fdtGetPhandle d fuel n.offset) n.phandle := by
  refine (h.getprop_text hn (by decide)).map_eq ?_
  cases hfind : n.props.find? (·.name = bytes "linux,phandle") with
  | none =>
    rw [DtNode.phandle, hfind]
    rfl
  | some p =>
    have hvalue := (h.holds_value hn (List.mem_of_find?_eq_some hfind)).slice_eq
    rw [DtNode.phandle, hfind, Option.elim_some, dataResult]
    dsimp only
    by_cases hlen : p.value.length = 4
    · have hload : fdt32 d.mem (fdtStructPtr d (p.offset + 12 : Nat)) =
          UInt32.ofNat (bigEndian p.value) := by
        have hlt := bigEndian_lt p.value
        rw [hlen] at hlt hvalue
        rw [← UInt32.toNat_inj, toNat_fdt32, hvalue, UInt32.toNat_ofNat',
          Nat.mod_eq_of_lt (by omega)]
      rw [if_neg (not_not_intro hlen), if_neg (by omega), hload]
    · rw [if_pos hlen, if_pos (by omega)]

/-- The bytes of a phandle, as the little-endian processor has them in the variable. -/
theorem bytes_swab32 (x : UInt32) :
    ((List.range 4).map fun i => UInt8.ofNat ((swab32 x).toNat / 256 ^ i)) = bigBytes 4 x.toNat := by
  have hx : x.toNat = ((x.toNat / 2 ^ 24 % 256 * 256 + x.toNat / 2 ^ 16 % 256) * 256 +
      x.toNat / 2 ^ 8 % 256) * 256 + x.toNat % 256 := by
    have hlt := x.toNat_lt
    omega
  have hswab := toNat_swab32 x
  have hdigit (n : Nat) : n % 256 < 256 := Nat.mod_lt n (by decide)
  have h0 := hdigit x.toNat
  have h1 := hdigit (x.toNat / 2 ^ 8)
  have h2 := hdigit (x.toNat / 2 ^ 16)
  have h3 := hdigit (x.toNat / 2 ^ 24)
  generalize x.toNat % 256 = d0 at hx hswab h0
  generalize x.toNat / 2 ^ 8 % 256 = d1 at hx hswab h1
  generalize x.toNat / 2 ^ 16 % 256 = d2 at hx hswab h2
  generalize x.toNat / 2 ^ 24 % 256 = d3 at hx hswab h3
  generalize (swab32 x).toNat = s at hswab
  have hdiv {a b : Nat} (hb : b < 256) : (a * 256 + b) / 256 = a := by omega
  have hmod {a b : Nat} (hb : b < 256) : (a * 256 + b) % 256 = b := by omega
  have e0 : s / 256 ^ 0 % 256 = d3 := by rw [Nat.pow_zero, Nat.div_one, hswab, hmod h3]
  have e1 : s / 256 ^ 1 % 256 = d2 := by rw [Nat.pow_one, hswab, hdiv h3, hmod h2]
  have e2 : s / 256 ^ 2 % 256 = d1 := by
    rw [Nat.pow_succ, Nat.pow_one, ← Nat.div_div_eq_div_mul, hswab, hdiv h3, hdiv h2, hmod h1]
  have e3 : s / 256 ^ 3 % 256 = d0 := by
    rw [Nat.pow_succ, Nat.pow_succ, Nat.pow_one, ← Nat.div_div_eq_div_mul,
      ← Nat.div_div_eq_div_mul, hswab, hdiv h3, hdiv h2, hdiv h1, Nat.mod_eq_of_lt h0]
  have hbyte (n : Nat) : UInt8.ofNat n = UInt8.ofNat (n % 256) :=
    UInt8.toNat_inj.1 (by rw [UInt8.toNat_ofNat', UInt8.toNat_ofNat', Nat.mod_mod])
  have hbytes : [UInt8.ofNat d3, UInt8.ofNat d2, UInt8.ofNat d1, UInt8.ofNat d0] =
      bigBytes 4 (bigEndian [UInt8.ofNat d3, UInt8.ofNat d2, UInt8.ofNat d1, UInt8.ofNat d0]) :=
    (bigBytes_bigEndian _).symm
  have hvalue : bigEndian [UInt8.ofNat d3, UInt8.ofNat d2, UInt8.ofNat d1, UInt8.ofNat d0] =
      x.toNat := by
    rw [hx]
    simp [bigEndian, Nat.mod_eq_of_lt, h0, h1, h2, h3]
    omega
  rw [hvalue] at hbytes
  show [UInt8.ofNat (s / 256 ^ 0), UInt8.ofNat (s / 256 ^ 1), UInt8.ofNat (s / 256 ^ 2),
    UInt8.ofNat (s / 256 ^ 3)] = _
  rw [← hbytes, hbyte (s / 256 ^ 0), hbyte (s / 256 ^ 1), hbyte (s / 256 ^ 2),
    hbyte (s / 256 ^ 3), e0, e1, e2, e3]

theorem DtNode.hasValue_phandle {x : UInt32} (hx : x ≠ 0) (n : DtNode) :
    n.hasValue (bytes "linux,phandle") (bigBytes 4 x.toNat) = true ↔ n.phandle = x := by
  rw [hasValue, phandle]
  cases n.props.find? (·.name = bytes "linux,phandle") with
  | none => simpa using Ne.symm hx
  | some p =>
    have hlt := x.toNat_lt
    rw [Option.any_some, Option.elim_some, decide_eq_true_iff]
    constructor
    · intro hv
      rw [hv, length_bigBytes, bigEndian_bigBytes (by omega), if_neg (by decide),
        UInt32.ofNat_toNat]
    · intro hv
      split_ifs at hv with hlen
      · exact absurd hv.symm hx
      · have hlen' : p.value.length = 4 := not_not.1 hlen
        have hback := bigBytes_bigEndian p.value
        have hbound := bigEndian_lt p.value
        rw [hlen'] at hback hbound
        rw [← hback, ← hv, UInt32.toNat_ofNat', Nat.mod_eq_of_lt (by omega)]

/-- **`fdt_node_offset_by_phandle` finds the first node for which `fdt_get_phandle` returns the
phandle**, or there is no such node. -/
theorem fdtNodeOffsetByPhandle_first (h : d.IsTree root c stop) {x : UInt32} (h0 : x ≠ 0)
    (h1 : x ≠ -1) :
    (∃ pre n post, (Forest.node root c .nil).labels = pre ++ n :: post ∧
      Yields (fun fuel => fdtNodeOffsetByPhandle d fuel x) n.offset ∧
      Yields (fun fuel => fdtGetPhandle d fuel n.offset) x ∧
      ∀ m ∈ pre, ∃ y ≠ x, Yields (fun fuel => fdtGetPhandle d fuel m.offset) y) ∨
    Yields (fun fuel => fdtNodeOffsetByPhandle d fuel x) (-fdtErrNotfound) ∧
      ∀ m ∈ (Forest.node root c .nil).labels,
        ∃ y ≠ x, Yields (fun fuel => fdtGetPhandle d fuel m.offset) y := by
  have hget : ∀ m ∈ (Forest.node root c .nil).labels,
      Yields (fun fuel => fdtGetPhandle d fuel m.offset) m.phandle := fun m hm =>
    (Forest.exists_occurs hm).elim fun _ hm => h.getPhandle hm
  have hother : ∀ m : DtNode, ¬m.hasValue (bytes "linux,phandle") (bigBytes 4 x.toNat) = true →
      m.phandle ≠ x := fun m hm hx => hm ((m.hasValue_phandle h0).2 hx)
  have hsearch : Yields (fun fuel => fdtNodeOffsetByPhandle d fuel x)
      (foundOffset ((Forest.node root c .nil).labels.find?
        (DtNode.hasValue (bytes "linux,phandle") (bigBytes 4 x.toNat)))) := by
    refine (h.byPropValue (.inl ⟨rfl, rfl⟩) (by decide) _).congr fun fuel => ?_
    rw [fdtNodeOffsetByPhandle, if_neg (not_or.2 ⟨h0, h1⟩), bytes_swab32]
  cases hfind : (Forest.node root c .nil).labels.find?
      (DtNode.hasValue (bytes "linux,phandle") (bigBytes 4 x.toNat)) with
  | none =>
    rw [hfind] at hsearch
    refine .inr ⟨hsearch, fun m hm => ⟨m.phandle, hother m ?_, hget m hm⟩⟩
    exact List.find?_eq_none.1 hfind m hm
  | some n =>
    rw [hfind] at hsearch
    obtain ⟨hn, pre, post, hsplit, hpre⟩ := List.find?_eq_some_iff_append.1 hfind
    have hmem : n ∈ (Forest.node root c .nil).labels := hsplit ▸ List.mem_append_right _ (.head _)
    refine .inl ⟨pre, n, post, hsplit, hsearch, ?_, fun m hm => ?_⟩
    · have hphandle := hget n hmem
      rwa [(n.hasValue_phandle h0).1 hn] at hphandle
    · have hall : m ∈ (Forest.node root c .nil).labels := hsplit ▸ List.mem_append_left _ hm
      refine ⟨m.phandle, hother m ?_, hget m hall⟩
      have := hpre m hm
      simpa using this

end

theorem fdtNodeOffsetByPhandle_first_small :
    (∃ pre n post, (Forest.node smallDtb.rootNode smallDtb.childNodes .nil).labels =
        pre ++ n :: post ∧
      Yields (fun fuel => fdtNodeOffsetByPhandle (smallDtb.load 0x83000000) fuel 7) n.offset ∧
      Yields (fun fuel => fdtGetPhandle (smallDtb.load 0x83000000) fuel n.offset) 7 ∧
      ∀ m ∈ pre, ∃ y ≠ 7,
        Yields (fun fuel => fdtGetPhandle (smallDtb.load 0x83000000) fuel m.offset) y) ∨
    Yields (fun fuel => fdtNodeOffsetByPhandle (smallDtb.load 0x83000000) fuel 7)
        (-fdtErrNotfound) ∧
      ∀ m ∈ (Forest.node smallDtb.rootNode smallDtb.childNodes .nil).labels,
        ∃ y ≠ 7, Yields (fun fuel => fdtGetPhandle (smallDtb.load 0x83000000) fuel m.offset) y :=
  fdtNodeOffsetByPhandle_first smallDtb_written.isTree (by decide) (by decide)

end ShieldLoader
