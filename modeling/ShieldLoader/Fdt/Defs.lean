import ShieldLoader.Boot.Nodes
import ShieldLoader.Data.Bytes
import ShieldLoader.Data.Fuel
import ShieldLoader.Fb.Strings

/-!
# The flattened device tree

The functions of `fdt.c` and `fdt_ro.c`. They get the address of the tree and read its header, the
structure block, the strings block and the reservation map in the memory. An `int` is its value, and
what is assigned to one is cut down with `castInt`; a pointer that may be `NULL` is an `Option`. The
loops have fuel, and `none` is a loop that did not end.
-/

namespace ShieldLoader

open Fuel

/-! ### Memory -/

/-- `*p` for a pointer to 32 bits. The processor is little-endian. -/
def load32 (m : Memory) (p : UInt64) : UInt32 :=
  UInt32.ofNat ((List.range 4).foldr (fun k n => (m (p + UInt64.ofNat k)).toNat + 256 * n) 0)

/-- `swab64`. -/
def swab64 (x : UInt64) : UInt64 :=
  (x &&& 0x00000000000000ff) <<< 56 ||| (x &&& 0x000000000000ff00) <<< 40 |||
  (x &&& 0x0000000000ff0000) <<< 24 ||| (x &&& 0x00000000ff000000) <<< 8 |||
  (x &&& 0x000000ff00000000) >>> 8 ||| (x &&& 0x0000ff0000000000) >>> 24 |||
  (x &&& 0x00ff000000000000) >>> 40 ||| (x &&& 0xff00000000000000) >>> 56

/-- `fdt32_to_cpu (*p)`. -/
def fdt32 (m : Memory) (p : UInt64) : UInt32 := swab32 (load32 m p)

/-- `fdt64_to_cpu (*p)`. -/
def fdt64 (m : Memory) (p : UInt64) : UInt64 := swab64 (m.word p)

/-- A turn of the loop of `strlen`. -/
def strlen.turn (m : Memory) (s : UInt64) (_ : Nat) (sc : UInt64) : Option (Turn UInt64 UInt64) :=
  some (if m sc = 0 then .done (sc - s) else .next (sc + 1))

/-- `strlen`. -/
def strlen (m : Memory) (fuel : Nat) (s : UInt64) : Option UInt64 := loop (strlen.turn m s) fuel s

/-- `memchr`. -/
def memchr (m : Memory) (c : UInt8) : UInt64 → Nat → Option UInt64
  | _, 0 => none
  | p, n + 1 => if m p = c then some p else memchr m c (p + 1) n

/-- The text at an address. -/
def readText (m : Memory) (fuel : Nat) (s : UInt64) : Option (List UInt8) :=
  (strlen m fuel s).map fun n => m.slice s n.toNat

/-! ### `libfdt.h` and `libfdt_internal.h` -/

/-- The memory, and the address of the device tree. -/
structure Fdt where
  mem : Memory
  addr : UInt64

/-- The `int` that a number is cut down to. -/
def castInt (x : Int) : Int := (x + 2 ^ 31) % 2 ^ 32 - 2 ^ 31

def fdtErrNotfound : Int := 1
def fdtErrNospace : Int := 3
def fdtErrBadoffset : Int := 4
def fdtErrBadpath : Int := 5
def fdtErrBadphandle : Int := 6
def fdtErrBadstate : Int := 7
def fdtErrTruncated : Int := 8
def fdtErrBadmagic : Int := 9
def fdtErrBadversion : Int := 10
def fdtErrBadstructure : Int := 11
def fdtErrInternal : Int := 13

def fdtBeginNode : UInt32 := 1
def fdtEndNode : UInt32 := 2
def fdtProp : UInt32 := 3
def fdtNop : UInt32 := 4
def fdtEnd : UInt32 := 9

section
variable (d : Fdt)

/-- `fdt_get_header`, for the field number `i`. -/
def fdtGetHeader (i : Nat) : UInt32 := fdt32 d.mem (d.addr + UInt64.ofNat (4 * i))

def fdtMagic : UInt32 := fdtGetHeader d 0
def fdtTotalsize : UInt32 := fdtGetHeader d 1
def fdtOffDtStruct : UInt32 := fdtGetHeader d 2
def fdtOffDtStrings : UInt32 := fdtGetHeader d 3
def fdtOffMemRsvmap : UInt32 := fdtGetHeader d 4
def fdtVersion : UInt32 := fdtGetHeader d 5
def fdtLastCompVersion : UInt32 := fdtGetHeader d 6
def fdtSizeDtStruct : UInt32 := fdtGetHeader d 9

/-- `_fdt_offset_ptr`. -/
def fdtStructPtr (offset : Int) : UInt64 :=
  d.addr + (fdtOffDtStruct d).toUInt64 + UInt64.ofInt offset

/-- `_fdt_mem_rsv`. -/
def fdtMemRsv (n : Int) : UInt64 :=
  d.addr + (fdtOffMemRsvmap d).toUInt64 + UInt64.ofInt (16 * n)

/-! ### `fdt.c` -/

/-- `fdt_check_header`. -/
def fdtCheckHeader : Int :=
  if fdtMagic d = 0xd00dfeed then
    if fdtVersion d < 0x10 then -fdtErrBadversion
    else if 0x11 < fdtLastCompVersion d then -fdtErrBadversion
    else 0
  else if fdtMagic d = ~~~0xd00dfeed then
    if fdtSizeDtStruct d = 0 then -fdtErrBadstate else 0
  else -fdtErrBadmagic

/-- `fdt_offset_ptr`. -/
def fdtOffsetPtr (offset : Int) (len : UInt32) : Option UInt64 :=
  let last := UInt32.ofInt offset + len
  if 0x11 ≤ fdtVersion d ∧ (last < UInt32.ofInt offset ∨ fdtSizeDtStruct d < last) then none
  else
    let p := fdtStructPtr d offset
    if p + len.toUInt64 < p then none else some p

/-- A turn of the loop over the name of a node. -/
def fdtNextTag.nameTurn (_ : Nat) (offset : Int) : Option (Turn Int (Option Int)) :=
  match fdtOffsetPtr d offset 1 with
  | none => some (.done none)
  | some p =>
    if d.mem p = 0 then some (.done (some (castInt (offset + 1))))
    else some (.next (castInt (offset + 1)))

/-- The loop over the name of a node: the offset behind it, if it has an end. -/
def fdtNextTag.name (fuel : Nat) (offset : Int) : Option (Option Int) :=
  loop (fdtNextTag.nameTurn d) fuel offset

/-- The `switch` of `fdt_next_tag`: the offset behind what the tag stands for. -/
def fdtNextTag.skip (fuel : Nat) (tag : UInt32) (offset : Int) : Option (Option Int) :=
  if tag = fdtBeginNode then fdtNextTag.name d fuel offset
  else if tag = fdtProp then
    some ((fdtOffsetPtr d offset 4).map fun lenp =>
      castInt (offset + 8 + (fdt32 d.mem lenp).toNat))
  else if tag = fdtEnd ∨ tag = fdtEndNode ∨ tag = fdtNop then some (some offset)
  else some none

/-- What `fdt_next_tag` returns for a tag whose contents end at an offset, if they have an end. -/
def fdtNextTag.finish (startoffset : Int) (tag : UInt32) : Option Int → UInt32 × Int
  | none => (fdtEnd, -fdtErrBadstructure)
  | some offset =>
    if fdtOffsetPtr d startoffset (UInt32.ofInt (offset - startoffset)) = none then
      (fdtEnd, -fdtErrBadstructure)
    else (tag, castInt ((offset + 3) / 4 * 4))

/-- `fdt_next_tag`: the tag, and `*nextoffset`. -/
def fdtNextTag (fuel : Nat) (startoffset : Int) : Option (UInt32 × Int) :=
  match fdtOffsetPtr d startoffset 4 with
  | none => some (fdtEnd, -fdtErrTruncated)
  | some tagp =>
    let tag := fdt32 d.mem tagp
    (fdtNextTag.skip d fuel tag (castInt (startoffset + 4))).map
      (fdtNextTag.finish d startoffset tag)

/-- `_fdt_check_node_offset`. -/
def fdtCheckNodeOffset (fuel : Nat) (offset : Int) : Option Int :=
  if offset < 0 ∨ offset % 4 ≠ 0 then some (-fdtErrBadoffset)
  else (fdtNextTag d fuel offset).map fun r =>
    if r.1 = fdtBeginNode then r.2 else -fdtErrBadoffset

/-- The `switch` of `fdt_next_node`, for an offset and a depth, a tag and `nextoffset`. The depth is
that of the pointer `depth`, if it is one. -/
def fdtNextNode.switch (s : Int × Option Int) (r : UInt32 × Int) :
    Turn (Int × Option Int) (Int × Option Int) :=
  if r.1 = fdtBeginNode then .done (s.1, s.2.map (· + 1))
  else if r.1 = fdtEndNode then
    let depth := s.2.map (· - 1)
    if ∃ x ∈ depth, x < 0 then .done (r.2, depth) else .next (r.2, depth)
  else if r.1 = fdtEnd then
    if 0 ≤ r.2 ∨ r.2 = -fdtErrTruncated ∧ s.2 = none then .done (-fdtErrNotfound, s.2)
    else .done (r.2, s.2)
  else .next (r.2, s.2)

/-- A turn of the loop of `fdt_next_node`. -/
def fdtNextNode.turn (fuel : Nat) (s : Int × Option Int) :
    Option (Turn (Int × Option Int) (Int × Option Int)) :=
  (fdtNextTag d fuel s.1).map (fdtNextNode.switch s)

/-- `fdt_next_node`: the offset, and the depth afterwards. -/
def fdtNextNode (fuel : Nat) (offset : Int) (depth : Option Int) : Option (Int × Option Int) :=
  if 0 ≤ offset then
    (fdtCheckNodeOffset d fuel offset).bind fun nextoffset =>
      if nextoffset < 0 then some (nextoffset, depth)
      else loop (fdtNextNode.turn d) fuel (nextoffset, depth)
  else loop (fdtNextNode.turn d) fuel (0, depth)

/-! ### `fdt_ro.c`

A name is given as the bytes that its length says. -/

/-- `_fdt_nodename_eq`. -/
def fdtNodenameEq (offset : Int) (s : List UInt8) : Bool :=
  match fdtOffsetPtr d (castInt (offset + 4)) (UInt32.ofNat (s.length + 1)) with
  | none => false
  | some p =>
    if d.mem.slice p s.length ≠ s then false
    else
      let c := d.mem (p + UInt64.ofNat s.length)
      c = 0 ∨ '@'.toNat.toUInt8 ∉ s ∧ c = '@'.toNat.toUInt8

/-- `fdt_string`. -/
def fdtString (stroffset : Int) : UInt64 :=
  d.addr + (fdtOffDtStrings d).toUInt64 + UInt64.ofInt stroffset

/-- `_fdt_string_eq`. -/
def fdtStringEq (fuel : Nat) (stroffset : Int) (s : List UInt8) : Option Bool :=
  (strlen d.mem fuel (fdtString d stroffset)).map fun n =>
    n.toNat = s.length ∧ d.mem.slice (fdtString d stroffset) s.length = s

/-- `fdt_get_mem_rsv`: what it returns, and the address and the size. -/
def fdtGetMemRsv (n : Int) : Int × Option (UInt64 × UInt64) :=
  if fdtCheckHeader d ≠ 0 then (fdtCheckHeader d, none)
  else (0, some (fdt64 d.mem (fdtMemRsv d n), fdt64 d.mem (fdtMemRsv d n + 8)))

/-- A turn of the loop of `fdt_num_mem_rsv`. -/
def fdtNumMemRsv.turn (_ : Nat) (i : Int) : Option (Turn Int Int) :=
  some (if fdt64 d.mem (fdtMemRsv d i + 8) ≠ 0 then .next (castInt (i + 1)) else .done i)

/-- `fdt_num_mem_rsv`. -/
def fdtNumMemRsv (fuel : Nat) : Option Int := loop (fdtNumMemRsv.turn d) fuel 0

/-- A turn of the loops of `fdt_subnode_offset_namelen` and `fdt_sibling_offset_namelen`, which go on
at depths from `least`. -/
def fdtNamed.turn (least : Int) (name : List UInt8) (fuel : Nat) (s : Int × Int) :
    Option (Turn (Int × Int) Int) :=
  if 0 ≤ s.1 ∧ least ≤ s.2 then
    if s.2 = 1 ∧ fdtNodenameEq d s.1 name then some (.done s.1)
    else (fdtNextNode d fuel s.1 (some s.2)).map fun r => .next (r.1, r.2.getD s.2)
  else some (.done (if s.2 < 0 then -fdtErrNotfound else s.1))

/-- `fdt_subnode_offset_namelen`. -/
def fdtSubnodeOffsetNamelen (fuel : Nat) (offset : Int) (name : List UInt8) : Option Int :=
  if fdtCheckHeader d ≠ 0 then some (fdtCheckHeader d)
  else loop (fdtNamed.turn d 0 name) fuel (offset, 0)

/-- `fdt_sibling_offset_namelen`. -/
def fdtSiblingOffsetNamelen (fuel : Nat) (offset : Int) (name : List UInt8) : Option Int :=
  if fdtCheckHeader d ≠ 0 then some (fdtCheckHeader d)
  else (fdtNextNode d fuel offset (some 1)).bind fun r =>
    loop (fdtNamed.turn d 1 name) fuel (r.1, r.2.getD 1)

/-- `fdt_subnode_offset`. -/
def fdtSubnodeOffset (fuel : Nat) (parentoffset : Int) (name : List UInt8) : Option Int :=
  fdtSubnodeOffsetNamelen d fuel parentoffset (text name)

/-- `fdt_sibling_offset`. -/
def fdtSiblingOffset (fuel : Nat) (offset : Int) (name : List UInt8) : Option Int :=
  fdtSiblingOffsetNamelen d fuel offset (text name)

/-- `fdt_get_name`: the name and its length, or the error. -/
def fdtGetName (fuel : Nat) (nodeoffset : Int) : Option (Except Int (UInt64 × Int)) :=
  if fdtCheckHeader d ≠ 0 then some (.error (fdtCheckHeader d))
  else (fdtCheckNodeOffset d fuel nodeoffset).bind fun err =>
    if err < 0 then some (.error err)
    else (strlen d.mem fuel (fdtStructPtr d nodeoffset + 4)).map fun n =>
      .ok (fdtStructPtr d nodeoffset + 4, castInt n.toNat)

/-- The `switch` of `fdt_get_property_namelen`, for an offset, a tag and `nextoffset`. -/
def fdtGetPropertyNamelen.switch (name : List UInt8) (offset : Int) (r : UInt32 × Int) (fuel : Nat) :
    Option (Turn Int (Except Int (UInt64 × Int))) :=
  if r.1 = fdtEnd then
    some (.done (.error (if r.2 < 0 then r.2 else -fdtErrBadstructure)))
  else if r.1 = fdtProp then
    let prop := fdtStructPtr d offset
    (fdtStringEq d fuel (castInt (fdt32 d.mem (prop + 8)).toNat) name).map fun eq =>
      if eq then .done (.ok (prop, castInt (fdt32 d.mem (prop + 4)).toNat)) else .next r.2
  else if r.1 = fdtBeginNode ∨ r.1 = fdtEndNode then
    some (.done (.error (-fdtErrNotfound)))
  else some (.next r.2)

/-- A turn of the loop of `fdt_get_property_namelen`. -/
def fdtGetPropertyNamelen.turn (name : List UInt8) (fuel : Nat) (offset : Int) :
    Option (Turn Int (Except Int (UInt64 × Int))) :=
  (fdtNextTag d fuel offset).bind fun r => fdtGetPropertyNamelen.switch d name offset r fuel

/-- `fdt_get_property_namelen`: the property and `*lenp`, or the error. -/
def fdtGetPropertyNamelen (fuel : Nat) (nodeoffset : Int) (name : List UInt8) :
    Option (Except Int (UInt64 × Int)) :=
  if fdtCheckHeader d ≠ 0 then some (.error (fdtCheckHeader d))
  else (fdtCheckNodeOffset d fuel nodeoffset).bind fun err =>
    if err < 0 then some (.error err)
    else loop (fdtGetPropertyNamelen.turn d name) fuel err

/-- `fdt_get_property`. -/
def fdtGetProperty (fuel : Nat) (nodeoffset : Int) (name : List UInt8) :
    Option (Except Int (UInt64 × Int)) :=
  fdtGetPropertyNamelen d fuel nodeoffset (text name)

/-- `fdt_getprop_namelen`: the data and their length, or the error. -/
def fdtGetpropNamelen (fuel : Nat) (nodeoffset : Int) (name : List UInt8) :
    Option (Except Int (UInt64 × Int)) :=
  (fdtGetPropertyNamelen d fuel nodeoffset name).map fun r => r.map fun prop => (prop.1 + 12, prop.2)

/-- `fdt_getprop`. -/
def fdtGetprop (fuel : Nat) (nodeoffset : Int) (name : List UInt8) :
    Option (Except Int (UInt64 × Int)) :=
  fdtGetpropNamelen d fuel nodeoffset (text name)

/-- `fdt_get_phandle`. -/
def fdtGetPhandle (fuel : Nat) (nodeoffset : Int) : Option UInt32 :=
  (fdtGetprop d fuel nodeoffset (bytes "linux,phandle")).map fun r =>
    match r with
    | .error _ => 0
    | .ok php => if php.2 ≠ 4 then 0 else fdt32 d.mem php.1

/-- What `fdt_path_offset` does with what it gets for a component. -/
def fdtPathOffset.enter (rest : List UInt8) (offset : Int) : Turn (List UInt8 × Int) Int :=
  if offset < 0 then .done offset else .next (rest, offset)

/-- A turn of the loop of `fdt_path_offset`, at a place of the path and a node. -/
def fdtPathOffset.turn (fuel : Nat) (s : List UInt8 × Int) : Option (Turn (List UInt8 × Int) Int) :=
  let p := s.1.dropWhile (· = '/'.toNat.toUInt8)
  if p = [] then some (.done s.2)
  else
    (fdtSubnodeOffsetNamelen d fuel s.2 (p.takeWhile (· ≠ '/'.toNat.toUInt8))).map
      (fdtPathOffset.enter (p.dropWhile (· ≠ '/'.toNat.toUInt8)))

mutual

/-- `fdt_path_offset`. The path is the text without its `0`. -/
def fdtPathOffset (fuel : Nat) (path : List UInt8) : Option Int :=
  match fuel with
  | 0 => none
  | fuel + 1 =>
    if fdtCheckHeader d ≠ 0 then some (fdtCheckHeader d)
    else if deref path ≠ '/'.toNat.toUInt8 then
      (fdtGetAliasNamelen fuel (path.takeWhile (· ≠ '/'.toNat.toUInt8))).bind fun p =>
        match p with
        | none => some (-fdtErrBadpath)
        | some p =>
          ((readText d.mem fuel p).bind fun s => fdtPathOffset fuel s).bind fun offset =>
            loop (fdtPathOffset.turn d) fuel (path.dropWhile (· ≠ '/'.toNat.toUInt8), offset)
    else loop (fdtPathOffset.turn d) fuel (path, 0)

/-- `fdt_get_alias_namelen`. -/
def fdtGetAliasNamelen (fuel : Nat) (name : List UInt8) : Option (Option UInt64) :=
  match fuel with
  | 0 => none
  | fuel + 1 =>
    (fdtPathOffset fuel (bytes "/aliases")).bind fun aliasoffset =>
      if aliasoffset < 0 then some none
      else (fdtGetpropNamelen d fuel aliasoffset name).map fun r => r.toOption.map Prod.fst

end

/-- `fdt_get_alias`. -/
def fdtGetAlias (fuel : Nat) (name : List UInt8) : Option (Option UInt64) :=
  fdtGetAliasNamelen d fuel (text name)

/-- What the functions that walk up to `nodeoffset` return when they do not get there. -/
def fdtMissed (offset : Int) : Int :=
  if offset = -fdtErrNotfound ∨ 0 ≤ offset then -fdtErrBadoffset
  else if offset = -fdtErrBadoffset then -fdtErrBadstructure
  else offset

/-- `fdt_get_path` in its loop: the node, its depth, `pdepth`, and the first `p` bytes of `buf`. -/
structure GetPath where
  offset : Int
  depth : Int
  pdepth : Int
  buf : List UInt8

/-- The bytes up to the last `/` before the end. -/
def dropComponent (buf : List UInt8) : List UInt8 :=
  (buf.reverse.tail.dropWhile (· ≠ '/'.toNat.toUInt8)).reverse

/-- `while (pdepth > depth)`. -/
def fdtGetPath.up (depth : Int) : Nat → Int → List UInt8 → Int × List UInt8
  | 0, pdepth, buf => (pdepth, buf)
  | n + 1, pdepth, buf =>
    if depth < pdepth then up depth n (pdepth - 1) (dropComponent buf) else (pdepth, buf)

/-- The name of a node goes behind `pdepth` and the buffer, if there is room. -/
def fdtGetPath.push (buflen : Int) (up : Int × List UInt8) (name : UInt64 × Int) :
    Int × List UInt8 :=
  if up.2.length + name.2 + 1 ≤ buflen then
    (up.1 + 1, up.2 ++ d.mem.slice name.1 name.2.toNat ++ ['/'.toNat.toUInt8])
  else up

/-- What `fdt_get_path` does behind the name, for `pdepth` and the buffer or an error. -/
def fdtGetPath.react (nodeoffset : Int) (s : GetPath) (r : Except Int (Int × List UInt8))
    (fuel : Nat) : Option (Turn GetPath (Except Int (List UInt8))) :=
  match r with
  | .error err => some (.done (.error err))
  | .ok (pdepth, buf) =>
    if s.offset = nodeoffset then
      if pdepth < s.depth + 1 then some (.done (.error (-fdtErrNospace)))
      else some (.done (.ok (if 1 < buf.length then buf.dropLast else buf)))
    else (fdtNextNode d fuel s.offset (some s.depth)).map fun next =>
      .next ⟨next.1, next.2.getD s.depth, pdepth, buf⟩

/-- A turn of the loop of `fdt_get_path`. -/
def fdtGetPath.turn (nodeoffset buflen : Int) (fuel : Nat) (s : GetPath) :
    Option (Turn GetPath (Except Int (List UInt8))) :=
  if 0 ≤ s.offset ∧ s.offset ≤ nodeoffset then
    let up := fdtGetPath.up s.depth (s.pdepth - s.depth).toNat s.pdepth s.buf
    (if s.depth ≤ up.1 then
      (fdtGetName d fuel s.offset).map fun name => name.map (fdtGetPath.push d buflen up)
    else some (.ok up)).bind fun r => fdtGetPath.react d nodeoffset s r fuel
  else some (.done (.error (fdtMissed s.offset)))

/-- `fdt_get_path`: the path, or the error. -/
def fdtGetPath (fuel : Nat) (nodeoffset buflen : Int) : Option (Except Int (List UInt8)) :=
  if fdtCheckHeader d ≠ 0 then some (.error (fdtCheckHeader d))
  else if buflen < 2 then some (.error (-fdtErrNospace))
  else loop (fdtGetPath.turn d nodeoffset buflen) fuel ⟨0, 0, 0, []⟩

/-- A turn of the loop of `fdt_supernode_atdepth_offset`, at a node, its depth and the supernode. -/
def fdtSupernodeAtdepthOffset.turn (nodeoffset supernodedepth : Int) (fuel : Nat)
    (s : Int × Int × Int) : Option (Turn (Int × Int × Int) (Int × Option Int)) :=
  if 0 ≤ s.1 ∧ s.1 ≤ nodeoffset then
    let supernodeoffset := if s.2.1 = supernodedepth then s.1 else s.2.2
    if s.1 = nodeoffset then
      some (.done (if s.2.1 < supernodedepth then -fdtErrNotfound else supernodeoffset, some s.2.1))
    else (fdtNextNode d fuel s.1 (some s.2.1)).map fun r =>
      .next (r.1, r.2.getD s.2.1, supernodeoffset)
  else some (.done (fdtMissed s.1, none))

/-- `fdt_supernode_atdepth_offset`: what it returns, and `*nodedepth` if that was set. -/
def fdtSupernodeAtdepthOffset (fuel : Nat) (nodeoffset supernodedepth : Int) :
    Option (Int × Option Int) :=
  if fdtCheckHeader d ≠ 0 then some (fdtCheckHeader d, none)
  else if supernodedepth < 0 then some (-fdtErrNotfound, none)
  else loop (fdtSupernodeAtdepthOffset.turn d nodeoffset supernodedepth) fuel
    (0, 0, -fdtErrInternal)

/-- `fdt_node_depth`. -/
def fdtNodeDepth (fuel : Nat) (nodeoffset : Int) : Option Int :=
  (fdtSupernodeAtdepthOffset d fuel nodeoffset 0).map fun r =>
    if r.1 ≠ 0 then if r.1 < 0 then r.1 else -fdtErrInternal
    else r.2.getD 0

/-- `fdt_parent_offset`. -/
def fdtParentOffset (fuel : Nat) (nodeoffset : Int) : Option Int :=
  (fdtNodeDepth d fuel nodeoffset).bind fun nodedepth =>
    if nodedepth < 0 then some nodedepth
    else (fdtSupernodeAtdepthOffset d fuel nodeoffset (nodedepth - 1)).map Prod.fst

/-- What the searches over all nodes do at a node for which the check returns `err`: an error, `0`
for a node that is found, or positive. -/
def fdtNodeOffsetBy.react (offset err : Int) (fuel : Nat) : Option (Turn Int Int) :=
  if err < 0 ∧ err ≠ -fdtErrNotfound then some (.done err)
  else if err = 0 then some (.done offset)
  else (fdtNextNode d fuel offset none).map fun r => .next r.1

/-- A turn of the loop of the searches over all nodes. -/
def fdtNodeOffsetBy.turn (check : Nat → Int → Option Int) (fuel : Nat) (offset : Int) :
    Option (Turn Int Int) :=
  if 0 ≤ offset then
    (check fuel offset).bind fun err => fdtNodeOffsetBy.react d offset err fuel
  else some (.done offset)

/-- The searches over all nodes behind `startoffset`. -/
def fdtNodeOffsetBy (check : Nat → Int → Option Int) (fuel : Nat) (startoffset : Int) :
    Option Int :=
  (fdtNextNode d fuel startoffset none).bind fun r =>
    loop (fdtNodeOffsetBy.turn d check) fuel r.1

/-- The comparison of `fdt_node_offset_by_prop_value`. An error of `fdt_getprop` is no match. -/
def fdtNodeOffsetByPropValue.check (propval : List UInt8) : Except Int (UInt64 × Int) → Int
  | .error _ => 1
  | .ok val =>
    if val.2 = propval.length ∧ d.mem.slice val.1 propval.length = propval then 0 else 1

/-- `fdt_node_offset_by_prop_value`. -/
def fdtNodeOffsetByPropValue (fuel : Nat) (startoffset : Int) (propname propval : List UInt8) :
    Option Int :=
  if fdtCheckHeader d ≠ 0 then some (fdtCheckHeader d)
  else fdtNodeOffsetBy d (fun fuel offset => (fdtGetprop d fuel offset propname).map
    (fdtNodeOffsetByPropValue.check d propval)) fuel startoffset

/-- `fdt_node_offset_by_phandle`. The processor is little-endian. -/
def fdtNodeOffsetByPhandle (fuel : Nat) (phandle : UInt32) : Option Int :=
  if phandle = 0 ∨ phandle = -1 then some (-fdtErrBadphandle)
  else fdtNodeOffsetByPropValue d fuel (-1) (bytes "linux,phandle")
    ((List.range 4).map fun i => UInt8.ofNat ((swab32 phandle).toNat / 256 ^ i))

/-- `_fdt_stringlist_contains`, with at most `n` strings. -/
def fdtStringlistContains.loop (str : List UInt8) : Nat → UInt64 → Nat → Bool
  | 0, _, _ => false
  | n + 1, strlist, listlen =>
    if str.length ≤ listlen then
      if d.mem.slice strlist (str.length + 1) = str ++ [0] then true
      else match memchr d.mem 0 strlist listlen with
        | none => false
        | some p => loop str n (p + 1) (listlen - ((p - strlist).toNat + 1))
    else false

/-- `_fdt_stringlist_contains`. A negative length is less than that of any string. -/
def fdtStringlistContains (strlist : UInt64) (listlen : Int) (str : List UInt8) : Bool :=
  if listlen < 0 then false
  else fdtStringlistContains.loop d (text str) (listlen.toNat + 1) strlist listlen.toNat

/-- `fdt_node_check_compatible` and `fdt_node_check_dtype`, with the name of the property. -/
def fdtNodeCheck (propname : List UInt8) (fuel : Nat) (nodeoffset : Int) (str : List UInt8) :
    Option Int :=
  (fdtGetprop d fuel nodeoffset propname).map fun r =>
    match r with
    | .error len => len
    | .ok prop => if fdtStringlistContains d prop.1 prop.2 str then 0 else 1

/-- `fdt_node_check_compatible`. -/
def fdtNodeCheckCompatible (fuel : Nat) (nodeoffset : Int) (compatible : List UInt8) : Option Int :=
  fdtNodeCheck d (bytes "compatible") fuel nodeoffset compatible

/-- `fdt_node_check_dtype`. -/
def fdtNodeCheckDtype (fuel : Nat) (nodeoffset : Int) (dtype : List UInt8) : Option Int :=
  fdtNodeCheck d (bytes "device_type") fuel nodeoffset dtype

/-- `fdt_node_offset_by_compatible`. -/
def fdtNodeOffsetByCompatible (fuel : Nat) (startoffset : Int) (compatible : List UInt8) :
    Option Int :=
  if fdtCheckHeader d ≠ 0 then some (fdtCheckHeader d)
  else fdtNodeOffsetBy d (fun fuel offset => fdtNodeCheckCompatible d fuel offset compatible) fuel
    startoffset

/-- `fdt_node_offset_by_dtype`. -/
def fdtNodeOffsetByDtype (fuel : Nat) (startoffset : Int) (dtype : List UInt8) : Option Int :=
  if fdtCheckHeader d ≠ 0 then some (fdtCheckHeader d)
  else fdtNodeOffsetBy d (fun fuel offset => fdtNodeCheckDtype d fuel offset dtype) fuel startoffset

end

end ShieldLoader
