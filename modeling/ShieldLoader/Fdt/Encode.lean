import ShieldLoader.Fdt.Layout
import ShieldLoader.Fdt.Loads

/-!
# Device trees written out

A tree becomes a blob: the header, the reservation map, the structure block and the strings block.
What is in the memory then is that tree.
-/

namespace ShieldLoader

/-- A node without its place: the name, and the properties, each a name and a value. -/
structure DtSource where
  name : List UInt8
  props : List (List UInt8 × List UInt8)
deriving DecidableEq

/-! ### The structure block -/

/-- Zeros up to the size of a tag. -/
def padded (bs : List UInt8) : List UInt8 :=
  bs ++ List.replicate (tagAlign bs.length - bs.length) 0

def tagBytes (tag : UInt32) : List UInt8 := bigBytes 4 tag.toNat

section
variable (nameoff : List UInt8 → Nat)

/-- A property, with the offsets of the names in the strings block. -/
def propBytes (p : List UInt8 × List UInt8) : List UInt8 :=
  tagBytes fdtProp ++ (bigBytes 4 p.2.length ++ (bigBytes 4 (nameoff p.1) ++ padded p.2))

/-- The nodes of a forest. -/
def forestBytes : Forest DtSource → List UInt8
  | .nil => []
  | .node a c s => tagBytes fdtBeginNode ++ (padded (a.name ++ [0]) ++
      (a.props.flatMap (propBytes nameoff) ++ (forestBytes c ++ (tagBytes fdtEndNode ++
        forestBytes s))))

end

/-- The properties, the first one at `o`. -/
def locateProps : Nat → List (List UInt8 × List UInt8) → List DtProp
  | _, [] => []
  | o, p :: ps => ⟨o, p.1, p.2⟩ :: locateProps (o + (12 + tagAlign p.2.length)) ps

/-- The bytes of properties. -/
def propsSize (ps : List (List UInt8 × List UInt8)) : Nat :=
  (ps.map fun p => 12 + tagAlign p.2.length).sum

/-- The bytes of the nodes of a forest. -/
def forestSize : Forest DtSource → Nat
  | .nil => 0
  | .node a c s =>
    4 + (tagAlign (a.name.length + 1) + (propsSize a.props + (forestSize c + (4 + forestSize s))))

/-- The nodes of a forest, the first one at `o`. -/
def locate : Nat → Forest DtSource → Forest DtNode
  | _, .nil => .nil
  | o, .node a c s =>
    let o₁ := o + (4 + tagAlign (a.name.length + 1))
    let o₂ := o₁ + propsSize a.props
    .node ⟨o, a.name, locateProps o₁ a.props⟩ (locate o₂ c) (locate (o₂ + forestSize c + 4) s)

@[simp] theorem length_padded (bs : List UInt8) : (padded bs).length = tagAlign bs.length := by
  have hle := le_tagAlign bs.length
  rw [padded, List.length_append, List.length_replicate]
  omega

@[simp] theorem length_tagBytes (tag : UInt32) : (tagBytes tag).length = 4 := length_bigBytes ..

theorem length_propBytes (nameoff : List UInt8 → Nat) (p : List UInt8 × List UInt8) :
    (propBytes nameoff p).length = 12 + tagAlign p.2.length := by
  simp only [propBytes, List.length_append, length_tagBytes, length_bigBytes, length_padded]
  omega

theorem length_flatMap_propBytes (nameoff : List UInt8 → Nat)
    (ps : List (List UInt8 × List UInt8)) :
    (ps.flatMap (propBytes nameoff)).length = propsSize ps := by
  simp only [propsSize, List.length_flatMap, length_propBytes]

theorem length_forestBytes (nameoff : List UInt8 → Nat) (f : Forest DtSource) :
    (forestBytes nameoff f).length = forestSize f := by
  induction f with
  | nil => rfl
  | node a c s ihc ihs =>
    simp only [forestBytes, forestSize, List.length_append, length_tagBytes, length_padded,
      List.length_singleton, length_flatMap_propBytes, ihc, ihs]

theorem propsSize_mod (ps : List (List UInt8 × List UInt8)) : propsSize ps % 4 = 0 := by
  induction ps with
  | nil => rfl
  | cons p ps ih =>
    have hp := tagAlign_mod p.2.length
    rw [propsSize] at ih
    rw [propsSize, List.map_cons, List.sum_cons]
    omega

theorem forestSize_mod (f : Forest DtSource) : forestSize f % 4 = 0 := by
  induction f with
  | nil => rfl
  | node a c s ihc ihs =>
    have hname := tagAlign_mod (a.name.length + 1)
    have hprops := propsSize_mod a.props
    rw [forestSize]
    omega

/-! ### The memory -/

section
variable {d : Fdt} {nameoff : List UInt8 → Nat} {o o' : Nat}

theorem fdt32_of_holds {m : Memory} {p : UInt64} {x : Nat} (h : m.Holds p (bigBytes 4 x))
    (hx : x < 2 ^ 32) : (fdt32 m p).toNat = x := by
  have hslice := h.slice_eq
  rw [length_bigBytes] at hslice
  rw [toNat_fdt32, hslice]
  exact bigEndian_bigBytes hx

theorem fdt64_of_holds {m : Memory} {p : UInt64} {x : Nat} (h : m.Holds p (bigBytes 8 x))
    (hx : x < 2 ^ 64) : (fdt64 m p).toNat = x := by
  have hslice := h.slice_eq
  rw [length_bigBytes] at hslice
  rw [toNat_fdt64, hslice]
  exact bigEndian_bigBytes hx

/-- Bytes of the structure block. -/
def Fdt.BlockHolds (d : Fdt) (o : Nat) (bs : List UInt8) : Prop :=
  d.mem.Holds (fdtStructPtr d o) bs

theorem Fdt.blockHolds_append {bs cs : List UInt8} : d.BlockHolds o (bs ++ cs) ↔
    d.BlockHolds o bs ∧ d.BlockHolds (o + bs.length) cs := by
  rw [BlockHolds, BlockHolds, BlockHolds, fdtStructPtr_add]
  exact Memory.holds_append

theorem Fdt.BlockHolds.tagAt {tag : UInt32} (h : d.BlockHolds o (tagBytes tag)) : d.TagAt o tag :=
  UInt32.toNat_inj.1 (fdt32_of_holds h tag.toNat_lt)

/-- The names of properties are where `nameoff` says. -/
structure Fdt.Names (d : Fdt) (nameoff : List UInt8 → Nat) (names : List (List UInt8)) : Prop where
  lt : ∀ n ∈ names, nameoff n < 2 ^ 31
  text : ∀ n ∈ names, d.mem.HoldsText (fdtString d (nameoff n)) n

theorem tagAlign_add {o n : Nat} (ho : o % 4 = 0) : tagAlign (o + n) = o + tagAlign n := by
  rw [tagAlign, tagAlign]
  omega

theorem Fdt.propAt_of_holds {names : List (List UInt8)} (hnames : d.Names nameoff names)
    {p : List UInt8 × List UInt8} (hp : p.1 ∈ names) (hlen : p.2.length < 2 ^ 31) (ho : o % 4 = 0)
    (h : d.BlockHolds o (propBytes nameoff p)) :
    d.PropAt ⟨o, p.1, p.2⟩ (o + (12 + tagAlign p.2.length)) := by
  rw [propBytes, blockHolds_append, blockHolds_append, blockHolds_append, padded,
    blockHolds_append] at h
  simp only [length_tagBytes, length_bigBytes] at h
  obtain ⟨htag, hvallen, hnameoff, hvalue, -⟩ := h
  have hlt := hnames.lt _ hp
  have hoff : (fdt32 d.mem (fdtStructPtr d (o + 8 : Nat))).toNat = nameoff p.1 :=
    fdt32_of_holds hnameoff (by omega)
  refine ⟨htag.tagAt, fdt32_of_holds hvallen (hlen.trans (by decide)), ?_, hvalue, ?_⟩
  · dsimp only
    rw [hoff, castInt_of_lt (by omega) (by omega)]
    exact hnames.text _ hp
  · dsimp only
    rw [Nat.add_assoc o, tagAlign_add ho, Nat.add_comm 12, tagAlign, tagAlign]
    omega

theorem Fdt.beginAt_of_holds {name : List UInt8} (hname : 0 ∉ name) (ho : o % 4 = 0)
    (htag : d.BlockHolds o (tagBytes fdtBeginNode))
    (h : d.BlockHolds (o + 4) (padded (name ++ [0]))) :
    d.BeginAt o name (o + (4 + tagAlign (name.length + 1))) := by
  rw [padded, blockHolds_append] at h
  refine ⟨htag.tagAt, ⟨hname, h.1⟩, ?_⟩
  rw [@tagAlign_add (o + 4) _ (by omega), Nat.add_assoc]

/-- Properties in front of contents. -/
theorem Fdt.Contents.props {names : List (List UInt8)} (hnames : d.Names nameoff names)
    {ps : List (List UInt8 × List UInt8)} {f : Forest DtNode}
    (hps : ∀ p ∈ ps, p.1 ∈ names ∧ p.2.length < 2 ^ 31) (ho : o % 4 = 0)
    (h : d.BlockHolds o (ps.flatMap (propBytes nameoff)))
    (hf : d.Contents (o + propsSize ps) [] f o') :
    d.Contents o (locateProps o ps) f o' := by
  induction ps generalizing o with
  | nil => exact hf
  | cons p ps ih =>
    obtain ⟨hp, hlen⟩ := hps p (List.mem_cons_self ..)
    have halign := tagAlign_mod p.2.length
    rw [List.flatMap_cons, blockHolds_append, length_propBytes] at h
    have hhead := propAt_of_holds hnames hp hlen ho h.1
    rw [propsSize, List.map_cons, List.sum_cons, ← Nat.add_assoc] at hf
    exact .prop hhead (ih (fun q hq => hps q (List.mem_cons_of_mem _ hq)) (by omega) h.2 hf)

/-- A node of a tree that can be written out. -/
structure DtSource.Good (names : List (List UInt8)) (a : DtSource) : Prop where
  zero_notMem : 0 ∉ a.name
  props : ∀ p ∈ a.props, p.1 ∈ names ∧ p.2.length < 2 ^ 31

/-- **A forest that was written out is in the block.** -/
theorem Fdt.contents_of_holds {names : List (List UInt8)} (hnames : d.Names nameoff names)
    {f : Forest DtSource} {k : Nat} (hf : ∀ x ∈ f.preorder k, x.1.Good names) (ho : o % 4 = 0)
    (h : d.BlockHolds o (forestBytes nameoff f)) :
    d.Contents o [] (locate o f) (o + forestSize f) := by
  induction f generalizing o k with
  | nil => exact .nil
  | node a c s ihc ihs =>
    rw [forestBytes, blockHolds_append, blockHolds_append, blockHolds_append, blockHolds_append,
      blockHolds_append] at h
    simp only [length_tagBytes, length_padded, List.length_append, List.length_singleton,
      length_flatMap_propBytes, length_forestBytes] at h
    obtain ⟨htag, hname, hprops, hc, hend, hs⟩ := h
    rw [Forest.preorder] at hf
    have hgood := hf _ (List.mem_cons_self ..)
    have h₁ := tagAlign_mod (a.name.length + 1)
    have h₂ := propsSize_mod a.props
    have h₃ := forestSize_mod c
    have hbegin := beginAt_of_holds hgood.zero_notMem ho htag hname
    have hcc := ihc (fun x hx => hf x (List.mem_cons_of_mem _ (List.mem_append_left _ hx)))
      (by omega) hc
    have hss := ihs (fun x hx => hf x (List.mem_cons_of_mem _ (List.mem_append_right _ hx)))
      (by omega) hs
    rw [Nat.add_assoc o 4] at hprops hcc hend hss
    have hbody := Contents.props hnames hgood.props (by omega) hprops hcc
    have hnode := Contents.node hbegin hbody hend.tagAt hss
    have hstop : o + forestSize (.node a c s) = o + (4 + tagAlign (a.name.length + 1)) +
        propsSize a.props + forestSize c + 4 + forestSize s := by
      rw [forestSize]
      omega
    rw [hstop]
    exact hnode

end

/-- What there is of a node without its place. -/
def DtNode.source (n : DtNode) : DtSource := ⟨n.name, n.props.map fun p => (p.name, p.value)⟩

theorem source_locateProps (o : Nat) (ps : List (List UInt8 × List UInt8)) :
    (locateProps o ps).map (fun p => (p.name, p.value)) = ps := by
  induction ps generalizing o with
  | nil => rfl
  | cons p ps ih => rw [locateProps, List.map_cons, ih]

/-- The places are all that is added. -/
theorem map_source_locate (o : Nat) (f : Forest DtSource) :
    (locate o f).map DtNode.source = f := by
  induction f generalizing o with
  | nil => rfl
  | node a c s ihc ihs =>
    rw [locate, Forest.map, ihc, ihs, DtNode.source, source_locateProps]

/-! ### The strings block -/

/-- Texts with their zeros. -/
def stringsBytes (names : List (List UInt8)) : List UInt8 := names.flatMap (· ++ [0])

/-- Where a text is. -/
def stringsOffset (names : List (List UInt8)) (n : List UInt8) : Nat :=
  (stringsBytes (names.takeWhile (· ≠ n))).length

theorem stringsBytes_eq {names : List (List UInt8)} {n : List UInt8} (h : n ∈ names) :
    ∃ rest, stringsBytes names = stringsBytes (names.takeWhile (· ≠ n)) ++ (n ++ [0] ++ rest) := by
  induction names with
  | nil => cases h
  | cons m names ih =>
    by_cases hm : m = n
    · refine ⟨stringsBytes names, ?_⟩
      rw [List.takeWhile_cons_of_neg (by simpa using hm), ← hm]
      rfl
    · obtain ⟨rest, hrest⟩ := ih ((List.mem_cons.1 h).resolve_left (Ne.symm hm))
      refine ⟨rest, ?_⟩
      rw [List.takeWhile_cons_of_pos (by simpa using hm), stringsBytes, List.flatMap_cons]
      rw [stringsBytes] at hrest
      rw [hrest, stringsBytes, stringsBytes, List.flatMap_cons, ← List.append_assoc (_ ++ [0])]

/-! ### The blob -/

/-- A device tree that is to be written out: the reservation map, the names of the properties, and
the root with its children. -/
structure Dtb where
  rsv : List (UInt64 × UInt64)
  names : List (List UInt8)
  root : DtSource
  children : Forest DtSource

namespace Dtb

variable (s : Dtb)

/-- The tree. -/
def tree : Forest DtSource := .node s.root s.children .nil

def rsvBytes : List UInt8 :=
  s.rsv.flatMap (fun r => bigBytes 8 r.1.toNat ++ bigBytes 8 r.2.toNat) ++ bigBytes 16 0

def structBytes : List UInt8 := forestBytes (stringsOffset s.names) s.tree ++ tagBytes fdtEnd

/-- The offset of the structure block. -/
def offStruct : Nat := 40 + s.rsvBytes.length

/-- The offset of the strings block. -/
def offStrings : Nat := s.offStruct + s.structBytes.length

def totalsize : Nat := s.offStrings + (stringsBytes s.names).length

/-- The fields of the header. -/
def header : List Nat :=
  [0xd00dfeed, s.totalsize, s.offStruct, s.offStrings, 40, 17, 16, 0, (stringsBytes s.names).length,
    s.structBytes.length]

def bytes : List UInt8 :=
  s.header.flatMap (bigBytes 4) ++ (s.rsvBytes ++ (s.structBytes ++ stringsBytes s.names))

/-- The tree can be written out. -/
structure Good : Prop where
  names : ∀ n ∈ s.names, 0 ∉ n
  nodes : ∀ x ∈ s.tree.preorder 0, x.1.Good s.names
  rsv : ∀ r ∈ s.rsv, r.2 ≠ 0
  totalsize_lt : s.totalsize < 2 ^ 31

theorem length_rsvBytes : s.rsvBytes.length = 16 * s.rsv.length + 16 := by
  have hentry : ∀ r : UInt64 × UInt64,
      (bigBytes 8 r.1.toNat ++ bigBytes 8 r.2.toNat).length = 16 := fun r => by
    rw [List.length_append, length_bigBytes, length_bigBytes]
  rw [rsvBytes, List.length_append, length_bigBytes, List.length_flatMap]
  simp only [hentry, List.map_const', List.sum_replicate, smul_eq_mul, Nat.mul_comm]

theorem length_structBytes : s.structBytes.length = forestSize s.tree + 4 := by
  rw [structBytes, List.length_append, length_forestBytes, length_tagBytes]

theorem length_headerBytes : (s.header.flatMap (bigBytes 4)).length = 40 := by
  simp only [header, List.flatMap_cons, List.flatMap_nil, List.length_append, length_bigBytes,
    List.length_nil]

theorem length_bytes : s.bytes.length = s.totalsize := by
  rw [bytes, List.length_append, List.length_append, List.length_append, length_headerBytes,
    totalsize, offStrings, offStruct]
  omega

/-- The root with its place. -/
def rootNode : DtNode :=
  ⟨0, s.root.name, locateProps (4 + tagAlign (s.root.name.length + 1)) s.root.props⟩

/-- The nodes below the root with their places. -/
def childNodes : Forest DtNode :=
  locate (4 + tagAlign (s.root.name.length + 1) + propsSize s.root.props) s.children

theorem locate_tree : locate 0 s.tree = .node s.rootNode s.childNodes .nil := by
  rw [tree, locate, rootNode, childNodes, locate]
  simp only [Nat.zero_add]

end Dtb

theorem toUInt64_eq (x : UInt32) : x.toUInt64 = UInt64.ofNat x.toNat := by
  have hx := x.toNat_lt
  rw [← UInt64.toNat_inj, UInt32.toNat_toUInt64, UInt64.toNat_ofNat', Nat.mod_eq_of_lt (by omega)]

/-- A device tree that was written out is in the memory. -/
structure Fdt.Written (d : Fdt) (s : Dtb) : Prop where
  good : s.Good
  holds : d.mem.Holds d.addr s.bytes
  addr_lt : d.addr.toNat + s.totalsize < 2 ^ 64

namespace Fdt.Written

variable {d : Fdt} {s : Dtb}

theorem header (h : d.Written s) {i : Nat} (hi : i < s.header.length) (hlt : s.header[i] < 2 ^ 32) :
    (fdtGetHeader d i).toNat = s.header[i] := by
  have hholds := (Memory.holds_append.1 h.holds).1
  exact fdt32_of_holds (Memory.holds_flatMap (length_bigBytes 4) hholds hi) hlt

theorem le_totalsize (s : Dtb) :
    40 + s.rsvBytes.length = s.offStruct ∧ s.offStruct + (forestSize s.tree + 4) = s.offStrings ∧
      s.offStrings + (stringsBytes s.names).length = s.totalsize := by
  rw [Dtb.totalsize, Dtb.offStrings, Dtb.offStruct, Dtb.length_structBytes]
  exact ⟨rfl, rfl, rfl⟩

theorem offStruct (h : d.Written s) : (fdtOffDtStruct d).toNat = s.offStruct := by
  have hle := le_totalsize s
  have hlt := h.good.totalsize_lt
  exact h.header (show 2 < 10 by decide) (show s.offStruct < 2 ^ 32 by omega)

theorem offStrings (h : d.Written s) : (fdtOffDtStrings d).toNat = s.offStrings := by
  have hle := le_totalsize s
  have hlt := h.good.totalsize_lt
  exact h.header (show 3 < 10 by decide) (show s.offStrings < 2 ^ 32 by omega)

theorem checkHeader (h : d.Written s) : fdtCheckHeader d = 0 := by
  have hmagic : (fdtMagic d).toNat = 0xd00dfeed :=
    h.header (show 0 < 10 by decide) (show 0xd00dfeed < 2 ^ 32 by decide)
  have hversion : (fdtVersion d).toNat = 17 :=
    h.header (show 5 < 10 by decide) (show 17 < 2 ^ 32 by decide)
  have hcomp : (fdtLastCompVersion d).toNat = 16 :=
    h.header (show 6 < 10 by decide) (show 16 < 2 ^ 32 by decide)
  rw [fdtCheckHeader, if_pos (UInt32.toNat_inj.1 hmagic), if_neg, if_neg]
  · rw [UInt32.lt_iff_toNat_lt, hcomp]
    decide
  · rw [UInt32.lt_iff_toNat_lt, hversion]
    decide

theorem fits (h : d.Written s) : d.Fits (forestSize s.tree + 4) := by
  have hle := le_totalsize s
  have hlt := h.good.totalsize_lt
  have haddr := h.addr_lt
  have hsize : (fdtSizeDtStruct d).toNat = s.structBytes.length :=
    h.header (show 9 < 10 by decide) (show s.structBytes.length < 2 ^ 32 by
      rw [s.length_structBytes]
      omega)
  refine ⟨by omega, fun _ => ?_, ?_⟩
  · rw [hsize, s.length_structBytes]
  · rw [h.offStruct]
    omega

theorem structPtr_zero (h : d.Written s) :
    fdtStructPtr d (0 : Nat) = d.addr + UInt64.ofNat s.offStruct := by
  rw [fdtStructPtr, toUInt64_eq, h.offStruct]
  exact UInt64.add_zero _

theorem structBlock (h : d.Written s) : d.BlockHolds 0 s.structBytes := by
  have hholds := Memory.holds_append.1 (Memory.holds_append.1 (Memory.holds_append.1 h.holds).2).2
  rw [s.length_headerBytes, UInt64.add_assoc, ← UInt64.ofNat_add] at hholds
  rw [BlockHolds, h.structPtr_zero]
  exact hholds.1

theorem stringsBlock (h : d.Written s) :
    d.mem.Holds (d.addr + UInt64.ofNat s.offStrings) (stringsBytes s.names) := by
  have hholds := Memory.holds_append.1 (Memory.holds_append.1 (Memory.holds_append.1 h.holds).2).2
  rw [s.length_headerBytes, UInt64.add_assoc, ← UInt64.ofNat_add, UInt64.add_assoc,
    ← UInt64.ofNat_add] at hholds
  exact hholds.2

theorem names (h : d.Written s) : d.Names (stringsOffset s.names) s.names := by
  have hle := le_totalsize s
  have hlt := h.good.totalsize_lt
  constructor
  · intro n hn
    obtain ⟨rest, hrest⟩ := stringsBytes_eq hn
    have hlen := congrArg List.length hrest
    rw [List.length_append] at hlen
    rw [stringsOffset]
    omega
  · intro n hn
    obtain ⟨rest, hrest⟩ := stringsBytes_eq hn
    have hholds := h.stringsBlock
    rw [hrest, Memory.holds_append, Memory.holds_append] at hholds
    refine ⟨h.good.names n hn, ?_⟩
    rw [fdtString, uInt64_ofInt_natCast, toUInt64_eq, h.offStrings]
    exact hholds.2.1

/-- **What was written out is in the structure block.** -/
theorem isTree (h : d.Written s) : d.IsTree s.rootNode s.childNodes (forestSize s.tree) := by
  have hblock := h.structBlock
  rw [Dtb.structBytes, blockHolds_append, length_forestBytes, Nat.zero_add] at hblock
  have hcontents := contents_of_holds h.names h.good.nodes rfl hblock.1
  rw [s.locate_tree, Nat.zero_add] at hcontents
  exact ⟨h.checkHeader, h.fits, rfl, hcontents, hblock.2.tagAt⟩

end Fdt.Written

/-! ### A small tree -/

instance (names : List (List UInt8)) (a : DtSource) : Decidable (a.Good names) :=
  decidable_of_iff (0 ∉ a.name ∧ ∀ p ∈ a.props, p.1 ∈ names ∧ p.2.length < 2 ^ 31)
    ⟨fun h => ⟨h.1, h.2⟩, fun h => ⟨h.zero_notMem, h.props⟩⟩

/-- The blob of a tree, loaded at an address. -/
def Dtb.load (s : Dtb) (addr : UInt64) : Fdt := ⟨Memory.ofBytes addr s.bytes, addr⟩

theorem Dtb.Good.written {s : Dtb} (h : s.Good) {addr : UInt64}
    (haddr : addr.toNat + s.totalsize < 2 ^ 64) : (s.load addr).Written s :=
  ⟨h, Memory.holds_ofBytes (by rw [s.length_bytes]; omega), haddr⟩

/-- A tree with a command line, an alias for the serial port, and 2 GiB at 0x80000000. -/
def smallDtb : Dtb where
  rsv := [(0x80000000, 0x1000)]
  names := ["bootargs", "device_type", "reg", "compatible", "serial0", "linux,phandle"].map bytes
  root := ⟨[], [(bytes "compatible", bytes "nvidia,foster-e" ++ [0] ++ bytes "nvidia,t210ref" ++ [0])]⟩
  children :=
    .node ⟨bytes "aliases", [(bytes "serial0", bytes "/soc/serial" ++ [0])]⟩ .nil <|
    .node ⟨bytes "chosen", [(bytes "bootargs", bytes "vpr=4K@2M quiet" ++ [0])]⟩ .nil <|
    .node ⟨bytes "memory@80000000", [(bytes "device_type", bytes "memory" ++ [0]),
      (bytes "reg", bigBytes 8 0x80000000 ++ bigBytes 8 0x80000000)]⟩ .nil <|
    .node ⟨bytes "soc", []⟩
      (.node ⟨bytes "serial@70006000", [(bytes "linux,phandle", bigBytes 4 7),
        (bytes "compatible", bytes "nvidia,tegra20-uart" ++ [0])]⟩ .nil .nil) .nil

theorem smallDtb_good : smallDtb.Good where
  names := by decide +kernel
  nodes := by decide +kernel
  rsv := List.forall_mem_singleton.2 (by decide)
  totalsize_lt := by decide +kernel

theorem smallDtb_written : (smallDtb.load 0x83000000).Written smallDtb :=
  smallDtb_good.written (by decide +kernel)

/-- The node with the command line. -/
def smallChosen : DtNode :=
  ⟨92, bytes "chosen", [⟨104, bytes "bootargs", bytes "vpr=4K@2M quiet" ++ [0]⟩]⟩

theorem smallChosen_occurs :
    Forest.Occurs smallChosen .nil (.node smallDtb.rootNode smallDtb.childNodes .nil) :=
  .child (.next .here)

end ShieldLoader
