import ShieldLoader.Fdt.Reservations
import ShieldLoader.Fdt.Path
import ShieldLoader.Boot.Cmdline
import ShieldLoader.Boot.Nodes

/-!
# `main` and the device tree

`main` reads the command line, the memory nodes and the reservation map from the blob while it sets
up the allocator. It does what it would do with the same data from the abstract tree.
-/

namespace ShieldLoader

open Fuel Fdt

/-! ### `main.c` -/

section
variable (d : Fdt)

/-- `fdt_get_cmdline`. -/
def fdtGetCmdline (fuel : Nat) : Option (Option UInt64) :=
  if fdtCheckHeader d < 0 then some none
  else (fdtPathOffset d fuel (bytes "/chosen")).bind fun node =>
    if node < 0 then some none
    else (fdtGetprop d fuel node (bytes "bootargs")).map fun r => r.toOption.map Prod.fst

/-- The command line, if there is one. -/
def mainTree.cmdline (fuel : Nat) : Option UInt64 → Option (Option (List UInt8))
  | none => some none
  | some p => (readText d.mem fuel p).map some

/-- `base` or `size`, from two cells. -/
def mainTree.cells (prop : UInt64) : UInt64 :=
  (fdt32 d.mem (prop + 4)).toUInt64 ||| (fdt32 d.mem prop).toUInt64 <<< 32

/-- A turn of the loop over the cells of `reg`, at `prop` with `prop_len`. -/
def mainTree.rangeTurn (_ : Nat) (s : UInt64 × Int × Lmb) : Option (Turn (UInt64 × Int × Lmb) Lmb) :=
  if s.2.1 = 0 then some (.done s.2.2)
  else
    (lmbAdd s.2.2 (mainTree.cells d s.1) (mainTree.cells d (s.1 + 8)) (lmbTag 'R' 'A' 'M' 'R')).map
      fun r => .next (s.1 + 16, castInt (s.2.1 - 16), r.2)

/-- The loop over the cells, for what `fdt_getprop` returned. `BUG_ON_EX` does not return. -/
def mainTree.ranges (lmb : Lmb) (prop : Except Int (UInt64 × Int)) (fuel : Nat) : Option Lmb :=
  match prop with
  | .error _ => none
  | .ok prop => loop (mainTree.rangeTurn d) fuel (prop.1, prop.2, lmb)

/-- A turn of the loop over the memory nodes. -/
def mainTree.nodeTurn (fuel : Nat) (s : Int × Lmb) : Option (Turn (Int × Lmb) Lmb) :=
  if s.1 = -1 then some (.done s.2)
  else
    ((fdtGetprop d fuel s.1 (bytes "reg")).bind fun prop => mainTree.ranges d s.2 prop fuel).bind
      fun lmb => (fdtNodeOffsetByDtype d fuel s.1 (bytes "memory")).map fun node => .next (node, lmb)

/-- A turn of the loop over the reservation map. Without a header, `base` and `size` have no
values. -/
def mainTree.rsvTurn (resvCount : Int) (_ : Nat) (s : Int × Lmb) : Option (Turn (Int × Lmb) Lmb) :=
  if s.1 < resvCount then
    (fdtGetMemRsv d s.1).2.bind fun r =>
      (lmbReserve s.2 r.1 r.2 resvLabel.1 resvLabel.2).map fun r => .next (castInt (s.1 + 1), r.2)
  else some (.done s.2)

/-- What `main` takes from the command line, with the places of the device tree and the loader. -/
def mainTree.info (imageStart imageEnd : UInt64) (cmdline : Option (List UInt8)) : BootInfo :=
  BootInfo.withCmdline ⟨[], none, none, none, none, none, d.addr, fdtTotalsize d, imageStart, imageEnd,
    []⟩ cmdline

/-- `main` up to `fb_launch`, without its messages. -/
def mainTree (imageStart imageEnd : UInt64) (lmb : Lmb) (fuel : Nat) : Option Lmb :=
  ((fdtGetCmdline d fuel).bind fun p => mainTree.cmdline d fuel p).bind fun cmdline =>
    ((fdtNodeOffsetByDtype d fuel (-1) (bytes "memory")).bind fun node =>
      loop (mainTree.nodeTurn d) fuel (node, lmbInit lmb)).bind fun lmb =>
        (lmbReserveAll lmb (mainTree.info d imageStart imageEnd cmdline).reservations).bind fun lmb =>
          (fdtNumMemRsv d fuel).bind fun resvCount =>
            loop (mainTree.rsvTurn d resvCount) fuel (0, lmb)

end

/-! ### The abstract tree -/

/-- The ranges in a value of 16 bytes for each one. -/
def rangesOf : Nat → List UInt8 → List (UInt64 × UInt64)
  | 0, _ => []
  | k + 1, v => (UInt64.ofNat (bigEndian (v.take 8)), UInt64.ofNat (bigEndian ((v.drop 8).take 8))) ::
    rangesOf k (v.drop 16)

/-- The ranges of a memory node. There are none without `reg` or when its length is no multiple of
16. -/
def DtNode.ranges (n : DtNode) : Option (List (UInt64 × UInt64)) :=
  (n.props.find? (·.name = bytes "reg")).bind fun p =>
    if 16 ∣ p.value.length then some (rangesOf (p.value.length / 16) p.value) else none

/-- The ranges of several memory nodes. -/
def rangesOfAll : List DtNode → Option (List (UInt64 × UInt64))
  | [] => some []
  | n :: ns => n.ranges.bind fun r => (rangesOfAll ns).map (r ++ ·)

/-- The property with the command line. -/
def bootargs (root : DtNode) (c : Forest DtNode) : Option DtProp :=
  (along (bytes "/chosen") (root, c)).bind fun x => x.1.props.find? (·.name = bytes "bootargs")

/-- What the tree says for `main`. -/
def Fdt.bootInfo (d : Fdt) (root : DtNode) (c : Forest DtNode) (rsv : List (UInt64 × UInt64))
    (imageStart imageEnd : UInt64) : Option BootInfo :=
  (rangesOfAll ((Forest.node root c .nil).labels.filter
      (d.lists (bytes "device_type") (bytes "memory")))).map fun memory =>
    { mainTree.info d imageStart imageEnd ((bootargs root c).map fun p => text p.value) with
      memory := memory, memRsv := rsv }

/-! ### Cells -/

section
variable {d : Fdt} {root n : DtNode} {c c' : Forest DtNode} {stop : Nat} {p : UInt64}
  {v : List UInt8}

/-- Two cells are a big-endian number. -/
theorem mainTree.cells_eq (d : Fdt) (p : UInt64) :
    mainTree.cells d p = UInt64.ofNat (bigEndian (d.mem.slice p 8)) := by
  have hhi := toNat_fdt32 d.mem p
  have hlo := toNat_fdt32 d.mem (p + 4)
  have hlt := (fdt32 d.mem (p + 4)).toNat_lt
  have hlt' := (fdt32 d.mem p).toNat_lt
  have hsplit : bigEndian (d.mem.slice p 8) =
      bigEndian (d.mem.slice p 4) * 2 ^ 32 + bigEndian (d.mem.slice (p + 4) 4) := by
    rw [d.mem.slice_add p 4 4, bigEndian_append, Memory.length_slice]
    rfl
  have hor : (mainTree.cells d p).toNat =
      (fdt32 d.mem p).toNat * 2 ^ 32 + (fdt32 d.mem (p + 4)).toNat := by
    rw [cells, UInt64.toNat_or, Nat.or_comm, UInt64.toNat_shiftLeft, UInt32.toNat_toUInt64,
      UInt32.toNat_toUInt64, show (32 : UInt64).toNat % 64 = 32 from rfl, Nat.shiftLeft_eq,
      Nat.mod_eq_of_lt (by omega), mul_two_pow_or hlt]
  rw [← UInt64.toNat_inj, hor, UInt64.toNat_ofNat', hsplit, ← hhi, ← hlo]
  omega

/-- The first bytes of a value. -/
theorem holds_take (h : d.mem.Holds p v) {k : Nat} (hk : k ≤ v.length) :
    d.mem.slice p k = v.take k ∧ d.mem.Holds (p + UInt64.ofNat k) (v.drop k) := by
  rw [← List.take_append_drop k v, Memory.holds_append, List.length_take, Nat.min_eq_left hk] at h
  have hslice := h.1.slice_eq
  rw [List.length_take, Nat.min_eq_left hk] at hslice
  exact ⟨hslice, h.2⟩

/-- The loop over the cells adds the ranges. -/
theorem mainTree.rangeTurn_loop {k : Nat} (hk : 16 * k < 2 ^ 31) (hlen : v.length = 16 * k)
    (h : d.mem.Holds p v) (lmb : Lmb) :
    Settles (fun fuel => loop (mainTree.rangeTurn d) fuel (p, (16 * k : Nat), lmb))
      (lmbAddAll lmb ((rangesOf k v).map NodeLoop.property)) := by
  induction k generalizing p v lmb with
  | zero => exact Yields.loop_done (.const fun fuel => if_pos rfl)
  | succ k ih =>
    have hne : ¬((16 * (k + 1) : Nat) : Int) = 0 := by omega
    have hcast : castInt (((16 * (k + 1) : Nat) : Int) - 16) = (16 * k : Nat) := by
      rw [castInt_of_lt (by omega) (by omega)]
      omega
    obtain ⟨hbase, hrest⟩ := holds_take h (show 8 ≤ v.length by omega)
    obtain ⟨hsize, hrest⟩ := holds_take hrest (show 8 ≤ (v.drop 8).length by
      rw [List.length_drop]
      omega)
    rw [UInt64.add_assoc, List.drop_drop] at hrest
    have hturn (fuel : Nat) : mainTree.rangeTurn d fuel (p, (16 * (k + 1) : Nat), lmb) =
        (lmbAdd lmb (UInt64.ofNat (bigEndian (v.take 8)))
          (UInt64.ofNat (bigEndian ((v.drop 8).take 8))) (lmbTag 'R' 'A' 'M' 'R')).map
            fun r => .next (p + 16, (16 * k : Nat), r.2) := by
      rw [rangeTurn, if_neg hne]
      dsimp only
      rw [cells_eq, cells_eq, hbase, show p + 8 = p + UInt64.ofNat 8 from rfl, hsize, hcast]
    have hloop := Settles.loop (.const hturn) (y := fun s => lmbAddAll s.2.2
      ((rangesOf k (v.drop 16)).map NodeLoop.property)) fun s' hs' => by
        obtain ⟨r, -, hr⟩ := Option.map_eq_some_iff.1 hs'
        obtain rfl := Turn.next.inj hr
        exact ih (by omega) (by rw [List.length_drop]; omega) hrest r.2
    rw [Option.bind_map] at hloop
    exact hloop

/-- With another length, the loop does not end. -/
theorem mainTree.rangeTurn_none {len : Int} (hlen : len % 16 ≠ 0) (lmb : Lmb) :
    Settles (fun fuel => loop (mainTree.rangeTurn d) fuel (p, len, lmb)) none := by
  refine Settles.loop_none (fun s : UInt64 × Int × Lmb => s.2.1 % 16 ≠ 0) ?_ ?_ hlen
  · intro n s s' hs ht
    rw [rangeTurn] at ht
    split_ifs at ht with hzero
    · cases ht
    · obtain ⟨r, -, hr⟩ := Option.map_eq_some_iff.1 ht
      obtain rfl := Turn.next.inj hr
      show castInt (s.2.1 - 16) % 16 ≠ 0
      rw [castInt]
      omega
  · intro n s r hs ht
    rw [rangeTurn] at ht
    split_ifs at ht with hzero
    · rw [hzero] at hs
      exact hs rfl
    · obtain ⟨r, -, hr⟩ := Option.map_eq_some_iff.1 ht
      cases hr

/-! ### Memory nodes -/

/-- The ranges of a node, or no return. -/
theorem Fdt.IsTree.mainRanges (h : d.IsTree root c stop)
    (hn : Forest.Occurs n c' (.node root c .nil)) (lmb : Lmb) :
    Settles (fun fuel => (fdtGetprop d fuel n.offset (bytes "reg")).bind fun prop =>
        mainTree.ranges d lmb prop fuel)
      (n.ranges.bind fun r => lmbAddAll lmb (r.map NodeLoop.property)) := by
  have hget := (h.getprop_text hn (show (0 : UInt8) ∉ bytes "reg" by decide)).settles
  refine (hget.bind (g := mainTree.ranges d lmb) (y := fun _ =>
    n.ranges.bind fun r => lmbAddAll lmb (r.map NodeLoop.property)) fun prop hprop => ?_)
  obtain rfl := Option.some.inj hprop
  rw [DtNode.ranges]
  cases hfind : n.props.find? (·.name = bytes "reg") with
  | none => exact .const fun fuel => rfl
  | some q =>
    have hq := List.mem_of_find?_eq_some hfind
    have hholds := h.holds_value hn hq
    have hlt := h.length_value_lt hn hq
    rw [Option.bind_some]
    split_ifs with hdvd
    · have hloop := mainTree.rangeTurn_loop (k := q.value.length / 16) (by omega) (by omega) hholds lmb
      rwa [Nat.mul_div_cancel' hdvd] at hloop
    · exact mainTree.rangeTurn_none (by omega) lmb

theorem lmbAddAll_append (lmb : Lmb) (ps qs : List LmbProperty) :
    lmbAddAll lmb (ps ++ qs) = (lmbAddAll lmb ps).bind fun lmb => lmbAddAll lmb qs := by
  induction ps generalizing lmb with
  | nil => rfl
  | cons p ps ih => simp only [List.cons_append, lmbAddAll, ih, Option.bind_assoc]

/-- The loop over the memory nodes adds the ranges of all of them. -/
theorem Fdt.IsTree.mainNodes (h : d.IsTree root c stop) {start : Int} {post : List DtNode}
    (hstart : Behind (Forest.node root c .nil).labels start post) (lmb : Lmb) :
    Settles (fun fuel => (fdtNodeOffsetByDtype d fuel start (bytes "memory")).bind fun node =>
        loop (mainTree.nodeTurn d) fuel (node, lmb))
      ((rangesOfAll (post.filter (d.lists (bytes "device_type") (bytes "memory")))).bind fun r =>
        lmbAddAll lmb (r.map NodeLoop.property)) := by
  induction hk : post.length using Nat.strong_induction_on generalizing start post lmb with
  | _ k ih =>
    have hnode := h.byDtype hstart (show (0 : UInt8) ∉ bytes "memory" by decide)
    refine (hnode.settles.bind (g := fun node fuel => loop (mainTree.nodeTurn d) fuel (node, lmb))
      (y := fun _ => (rangesOfAll (post.filter (d.lists (bytes "device_type") (bytes "memory")))).bind
        fun r => lmbAddAll lmb (r.map NodeLoop.property)) fun node hnode => ?_)
    obtain rfl := Option.some.inj hnode
    cases hfind : post.find? (d.lists (bytes "device_type") (bytes "memory")) with
    | none =>
      rw [List.filter_eq_nil_iff.2 (List.find?_eq_none.1 hfind)]
      exact Yields.loop_done (.const fun fuel => if_pos rfl)
    | some n =>
      obtain ⟨hn, pre, post', rfl, hpre⟩ := List.find?_eq_some_iff_append.1 hfind
      have hpre' : pre.filter (d.lists (bytes "device_type") (bytes "memory")) = [] :=
        List.filter_eq_nil_iff.2 fun m hm => by simpa using hpre m hm
      rw [List.filter_append, hpre', List.nil_append, List.filter_cons_of_pos hn]
      have hbehind : Behind (Forest.node root c .nil).labels n.offset post' := by
        rcases hstart with ⟨-, hpost⟩ | ⟨pre₀, m, hnodes, -⟩
        · exact .inr ⟨pre, n, hpost.symm, rfl⟩
        · exact .inr ⟨pre₀ ++ m :: pre, n, by rw [hnodes, List.append_assoc, List.cons_append], rfl⟩
      obtain ⟨c', hocc⟩ := hstart.occurs (n := n) (by simp)
      have hshort : post'.length < k := by
        rw [← hk, List.length_append, List.length_cons]
        omega
      have hnext := h.byDtype hbehind (show (0 : UInt8) ∉ bytes "memory" by decide)
      have hne : ¬(n.offset : Int) = -1 := by omega
      have hturn := ((h.mainRanges hocc lmb).bind (g := fun lmb fuel =>
        (fdtNodeOffsetByDtype d fuel n.offset (bytes "memory")).map fun node =>
          Turn.next (ρ := Lmb) (node, lmb)) (y := fun lmb => some (.next (_, lmb)))
            fun lmb _ => hnext.map _).congr (g := fun fuel => mainTree.nodeTurn d fuel (n.offset, lmb))
              fun fuel => if_neg hne
      have hloop := hturn.loop (y := fun s =>
        (rangesOfAll (post'.filter (d.lists (bytes "device_type") (bytes "memory")))).bind fun r =>
          lmbAddAll s.2 (r.map NodeLoop.property)) fun s' hs' => by
            obtain ⟨lmb', -, hs'⟩ := Option.bind_eq_some_iff.1 hs'
            obtain rfl := Turn.next.inj (Option.some.inj hs')
            exact Settles.of_bind hnext (ih _ hshort hbehind lmb' rfl)
      rw [rangesOfAll]
      cases hranges : n.ranges with
      | none =>
        rw [hranges] at hloop
        exact hloop
      | some r =>
        rw [hranges] at hloop
        cases hrest : rangesOfAll (post'.filter (d.lists (bytes "device_type") (bytes "memory"))) with
        | none =>
          rw [hrest] at hloop
          cases hadd : lmbAddAll lmb (r.map NodeLoop.property) with
          | none => rwa [Option.bind_some, hadd] at hloop
          | some lmb' => rwa [Option.bind_some, hadd] at hloop
        | some r' =>
          rw [hrest] at hloop
          rw [Option.bind_some, Option.map_some, Option.bind_some, List.map_append, lmbAddAll_append]
          rw [Option.bind_some, Option.bind_assoc] at hloop
          exact hloop

/-! ### The reservation map -/

/-- The entries from `i` on are reserved one after the other. -/
theorem mainTree.rsvTurn_loop {rsv : List (UInt64 × UInt64)} (h : d.RsvAt rsv)
    (hheader : fdtCheckHeader d = 0) {i : Nat} (hi : i ≤ rsv.length) (lmb : Lmb) :
    Settles (fun fuel => loop (mainTree.rsvTurn d rsv.length) fuel (i, lmb))
      (lmbReserveAll lmb ((rsv.drop i).map fun r => ⟨r.1, r.2, resvLabel.2, resvLabel.1⟩)) := by
  have hlt := h.length_lt
  induction hk : rsv.length - i generalizing i lmb with
  | zero =>
    have hstop : ¬(i : Int) < rsv.length := by omega
    rw [List.drop_of_length_le (by omega)]
    exact Yields.loop_done (.const fun fuel => if_neg hstop)
  | succ k ih =>
    have hlt' : i < rsv.length := by omega
    have hgo : (i : Int) < rsv.length := by omega
    have hcast : castInt ((i : Int) + 1) = (i + 1 : Nat) := castInt_of_lt (by omega) (by omega)
    have hturn (fuel : Nat) : mainTree.rsvTurn d rsv.length fuel (i, lmb) =
        (lmbReserve lmb rsv[i].1 rsv[i].2 resvLabel.1 resvLabel.2).map fun r =>
          .next ((i + 1 : Nat), r.2) := by
      rw [rsvTurn, if_pos hgo, h.get hheader hlt', hcast]
      rfl
    have hloop := Settles.loop (.const hturn) (y := fun s => lmbReserveAll s.2
      ((rsv.drop (i + 1)).map fun r => ⟨r.1, r.2, resvLabel.2, resvLabel.1⟩)) fun s' hs' => by
        obtain ⟨r, -, hr⟩ := Option.map_eq_some_iff.1 hs'
        obtain rfl := Turn.next.inj hr
        exact ih hlt' r.2 (by omega)
    rw [Option.bind_map] at hloop
    rw [List.drop_eq_getElem_cons hlt', List.map_cons]
    exact hloop

/-! ### The command line -/

theorem Fdt.IsTree.getCmdline (h : d.IsTree root c stop) :
    Yields (fun fuel => fdtGetCmdline d fuel)
      ((bootargs root c).map fun p => fdtStructPtr d (p.offset + 12 : Nat)) := by
  have hpath := h.pathOffset (show (0 : UInt8) ∉ bytes "/chosen" by decide) (by decide)
  have hno : ¬fdtCheckHeader d < 0 := by
    rw [h.header]
    decide
  have hstep (fuel : Nat) : fdtGetCmdline d fuel =
      (fdtPathOffset d fuel (bytes "/chosen")).bind fun node => if node < 0 then some none
        else (fdtGetprop d fuel node (bytes "bootargs")).map fun r => r.toOption.map Prod.fst :=
    if_neg hno
  refine (hpath.bind (g := fun node fuel => if node < 0 then some none
    else (fdtGetprop d fuel node (bytes "bootargs")).map fun r => r.toOption.map Prod.fst) ?_).congr
    hstep
  rw [bootargs]
  cases hb : along (bytes "/chosen") (root, c) with
  | none => exact .const fun fuel => rfl
  | some x =>
    have hx := Forest.occurs_descend hb (.here (a := root) (c := c) (s := .nil))
    have hno : ¬(x.1.offset : Int) < 0 := by omega
    refine ((h.getprop_text hx (by decide)).map_eq ?_).congr fun fuel => if_neg hno
    cases hfind : x.1.props.find? (·.name = bytes "bootargs") with
    | none => rw [Option.bind_some, hfind]; rfl
    | some p => rw [Option.bind_some, hfind]; rfl

/-- The property with the command line is in the memory. -/
theorem Fdt.IsTree.holds_bootargs (h : d.IsTree root c stop) {p : DtProp}
    (hp : p ∈ bootargs root c) : d.mem.Holds (fdtStructPtr d (p.offset + 12 : Nat)) p.value := by
  obtain ⟨x, hb, hfind⟩ := Option.bind_eq_some_iff.1 hp
  have hx := Forest.occurs_descend hb (.here (a := root) (c := c) (s := .nil))
  exact h.holds_value hx (List.mem_of_find?_eq_some hfind)

/-- The text that `fdt_get_cmdline` points to. -/
theorem Fdt.IsTree.cmdline (h : d.IsTree root c stop) (hends : ∀ p ∈ bootargs root c, 0 ∈ p.value) :
    Yields (fun fuel => (fdtGetCmdline d fuel).bind fun p => mainTree.cmdline d fuel p)
      ((bootargs root c).map fun p => text p.value) := by
  refine h.getCmdline.bind (g := fun p fuel => mainTree.cmdline d fuel p) ?_
  cases hp : bootargs root c with
  | none => exact .const fun fuel => rfl
  | some p =>
    have hholds := h.holds_bootargs hp
    obtain ⟨t, ht⟩ := eq_text_append (hends p hp)
    rw [ht, List.append_cons, Memory.holds_append] at hholds
    exact (readText_of_holds ⟨zero_notMem_text p.value, hholds.1⟩).map some

/-! ### `main` -/

/-- The entries of the map come last. -/
theorem main_withTree {b : BootInfo} (hb : b.memRsv = []) (memory rsv : List (UInt64 × UInt64))
    (lmb : Lmb) : main lmb { b with memory := memory, memRsv := rsv } =
      (lmbAddAll (lmbInit lmb) (memory.map NodeLoop.property)).bind fun lmb =>
        (lmbReserveAll lmb b.reservations).bind fun lmb =>
          lmbReserveAll lmb (rsv.map fun r => ⟨r.1, r.2, resvLabel.2, resvLabel.1⟩) := by
  have hsplit : ({ b with memory := memory, memRsv := rsv } : BootInfo).reservations =
      b.reservations ++ rsv.map fun r => ⟨r.1, r.2, resvLabel.2, resvLabel.1⟩ := by
    rw [BootInfo.reservations, BootInfo.reservations, hb, List.map_nil, List.append_nil]
    rfl
  rw [main, mainUpTo, hsplit]
  simp only [lmbReserveAll_append]
  rfl

/-- **`main` does with the blob what it does with the tree**: when the device tree and the
reservation map are in the memory, the allocator gets the ranges of the memory nodes, those of the
command line and those of the map, in this order. `main` does not return from a memory node without
`reg`, or with one whose length is no multiple of 16. -/
theorem mainTree_eq (h : d.IsTree root c stop) {rsv : List (UInt64 × UInt64)} (hrsv : d.RsvAt rsv)
    (hends : ∀ p ∈ bootargs root c, 0 ∈ p.value) (imageStart imageEnd : UInt64) (lmb : Lmb) :
    Settles (fun fuel => mainTree d imageStart imageEnd lmb fuel)
      ((d.bootInfo root c rsv imageStart imageEnd).bind fun b => main lmb b) := by
  have hreserve (lmb : Lmb) : Settles (fun fuel => (fdtNumMemRsv d fuel).bind fun resvCount =>
      loop (mainTree.rsvTurn d resvCount) fuel (0, lmb))
      (lmbReserveAll lmb (rsv.map fun r => ⟨r.1, r.2, resvLabel.2, resvLabel.1⟩)) := by
    refine (hrsv.num.settles.bind (g := fun resvCount fuel =>
      loop (mainTree.rsvTurn d resvCount) fuel (0, lmb)) (y := fun _ =>
        lmbReserveAll lmb (rsv.map fun r => ⟨r.1, r.2, resvLabel.2, resvLabel.1⟩)) fun _ hnum => ?_)
    obtain rfl := Option.some.inj hnum
    exact mainTree.rsvTurn_loop hrsv h.header (Nat.zero_le _) lmb
  have hstart : Behind (Forest.node root c .nil).labels (-1) _ := .inl ⟨rfl, rfl⟩
  have hnodes := h.mainNodes hstart (lmbInit lmb)
  have hall := (h.cmdline hends).settles.bind (g := fun cmdline fuel =>
    ((fdtNodeOffsetByDtype d fuel (-1) (bytes "memory")).bind fun node =>
      loop (mainTree.nodeTurn d) fuel (node, lmbInit lmb)).bind fun lmb =>
        (lmbReserveAll lmb (mainTree.info d imageStart imageEnd cmdline).reservations).bind fun lmb =>
          (fdtNumMemRsv d fuel).bind fun resvCount =>
            loop (mainTree.rsvTurn d resvCount) fuel (0, lmb)) fun cmdline _ =>
    hnodes.bind (g := fun lmb fuel =>
        (lmbReserveAll lmb (mainTree.info d imageStart imageEnd cmdline).reservations).bind fun lmb =>
          (fdtNumMemRsv d fuel).bind fun resvCount =>
            loop (mainTree.rsvTurn d resvCount) fuel (0, lmb)) fun lmb _ =>
      Settles.bind (f := fun _ =>
        lmbReserveAll lmb (mainTree.info d imageStart imageEnd cmdline).reservations)
        (.const fun _ => rfl) fun lmb _ => hreserve lmb
  rw [bootInfo, Option.bind_map]
  simp only [Function.comp_def, main_withTree (b := mainTree.info d imageStart imageEnd _) rfl]
  rw [← Option.bind_assoc]
  exact hall

end

theorem mainTree_eq_small :
    Settles (fun fuel => mainTree (smallDtb.load 0x83000000) 0x80080000 0x800c0000 lmbZero fuel)
      (((smallDtb.load 0x83000000).bootInfo smallDtb.rootNode smallDtb.childNodes smallDtb.rsv
        0x80080000 0x800c0000).bind fun b => main lmbZero b) :=
  mainTree_eq smallDtb_written.isTree smallDtb_written.rsvAt (by decide +kernel) _ _ _

end ShieldLoader
