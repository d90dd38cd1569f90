import Mathlib.Logic.Function.Basic
import Mathlib.Data.List.Basic

/-!
# Logical memory blocks

The allocator of `lmb.c`. Addresses and sizes are 64-bit words and every sum wraps as in C. The
array of a table is a function of the index; entries at and past `cnt` are kept, since the code
reads them when `cnt` is `0`. A call that leaves the array is `none`.
-/

namespace ShieldLoader

/-- `lmb_type_t`. -/
inductive LmbType where
  | invalid | free | boot | runtime | mmio
  deriving DecidableEq, Repr

/-- `struct lmb_property`. -/
structure LmbProperty where
  base : UInt64
  size : UInt64
  tag : UInt32
  type : LmbType
  deriving DecidableEq, Repr

/-- `struct lmb_region`. -/
structure LmbRegion where
  cnt : UInt64
  region : Nat → LmbProperty

/-- `struct lmb`. -/
structure Lmb where
  memory : LmbRegion
  reserved : LmbRegion

/-- `MAX_LMB_REGIONS`; the array has one entry more. -/
def maxLmbRegions : Nat := 32

/-- `_LMB_TAG`. -/
def lmbTag (a b c d : Char) : UInt32 :=
  d.val <<< 24 ||| c.val <<< 16 ||| b.val <<< 8 ||| a.val

/-- `LMB_TAG_NONE`. -/
def lmbTagNone : UInt32 := lmbTag 'N' 'O' 'N' 'E'

/-- `LMB_ALLOC_ANYWHERE`. -/
def lmbAllocAnywhere : UInt64 := 0

/-- `LMB_ALLOC_32BIT`. -/
def lmbAlloc32Bit : UInt64 := 0xffffffff

/-- `lmb_addrs_overlap`. -/
def lmbAddrsOverlap (base1 size1 base2 size2 : UInt64) : Bool :=
  base1 < base2 + size2 && base2 < base1 + size1

/-- `lmb_addrs_adjacent`. -/
def lmbAddrsAdjacent (base1 size1 base2 size2 : UInt64) : Int :=
  if base2 = base1 + size1 then 1
  else if base1 = base2 + size2 then -1
  else 0

/-- `lmb_regions_adjacent`. -/
def lmbRegionsAdjacent (rgn : LmbRegion) (r1 r2 : Nat) : Int :=
  lmbAddrsAdjacent (rgn.region r1).base (rgn.region r1).size
    (rgn.region r2).base (rgn.region r2).size

/-- The loop of `lmb_remove_region`: `n` rounds from index `i` on. -/
def lmbRemoveRegion.shift (region : Nat → LmbProperty) (i : Nat) : Nat → Nat → LmbProperty
  | 0 => region
  | n + 1 => shift (Function.update region i (region (i + 1))) (i + 1) n

/-- `lmb_remove_region`. The bound `cnt - 1` of its loop is unsigned: for `cnt = 0` the loop runs
past the end of the array. -/
def lmbRemoveRegion (rgn : LmbRegion) (r : Nat) : Option LmbRegion :=
  if maxLmbRegions < (rgn.cnt - 1).toNat then none
  else some
    { cnt := rgn.cnt - 1
      region := lmbRemoveRegion.shift rgn.region r ((rgn.cnt - 1).toNat - r) }

/-- `lmb_coalesce_regions`. -/
def lmbCoalesceRegions (rgn : LmbRegion) (r1 r2 : Nat) : Option LmbRegion :=
  let grown := { rgn.region r1 with size := (rgn.region r1).size + (rgn.region r2).size }
  lmbRemoveRegion { rgn with region := Function.update rgn.region r1 grown } r2

/-- The dummy zero size entry of `lmb_init`. -/
def lmbDummy : LmbProperty := ⟨0, 0, lmbTagNone, .invalid⟩

/-- `lmb_init`. -/
def lmbInit (lmb : Lmb) : Lmb where
  memory := ⟨1, Function.update lmb.memory.region 0 lmbDummy⟩
  reserved := ⟨1, Function.update lmb.reserved.region 0 lmbDummy⟩

/-- The first loop of `lmb_add_region` without its updates, `n` rounds from index `i` on: `none`
when an overlapping entry is met, else the index at which the loop stops and the value of
`lmb_addrs_adjacent` there (`0` when it runs to the end). -/
def lmbAddRegion.scan (rgn : LmbRegion) (base size : UInt64) (i : Nat) : Nat → Option (Nat × Int)
  | 0 => some (i, 0)
  | n + 1 =>
    if lmbAddrsOverlap base size (rgn.region i).base (rgn.region i).size then none
    else
      let adjacent := lmbAddrsAdjacent base size (rgn.region i).base (rgn.region i).size
      if adjacent ≠ 0 then some (i, adjacent)
      else scan rgn base size (i + 1) n

/-- The update that the first loop of `lmb_add_region` makes to the entry it stops at, and the
value of `coalesced` after it. -/
def lmbAddRegion.grow (p : LmbProperty) (size : UInt64) (type : LmbType) (tag : UInt32)
    (adjacent : Int) : LmbProperty × Nat :=
  if tag = p.tag ∧ type = p.type then
    if 0 < adjacent then ({ p with base := p.base - size, size := p.size + size }, 1)
    else if adjacent < 0 then ({ p with size := p.size + size }, 1)
    else (p, 0)
  else (p, 0)

/-- The last loop of `lmb_add_region`, from index `i - 1` down. -/
def lmbAddRegion.insert (region : Nat → LmbProperty) (p : LmbProperty) : Nat → Nat → LmbProperty
  | 0 => region
  | i + 1 =>
    if p.base < (region i).base then insert (Function.update region (i + 1) (region i)) p i
    else Function.update region (i + 1) p

/-- The merge of `lmb_add_region` after its first loop, with the value of `coalesced` after it. -/
def lmbAddRegion.merge (rgn : LmbRegion) (i coalesced : Nat) : Option (LmbRegion × Nat) :=
  if i < (rgn.cnt - 1).toNat ∧ lmbRegionsAdjacent rgn i (i + 1) ≠ 0 ∧
      (rgn.region i).tag = (rgn.region (i + 1)).tag ∧
      (rgn.region i).type = (rgn.region (i + 1)).type then do
    let rgn ← lmbCoalesceRegions rgn i (i + 1)
    return (rgn, coalesced + 1)
  else some (rgn, coalesced)

/-- The end of `lmb_add_region`, when nothing was coalesced. -/
def lmbAddRegion.place (rgn : LmbRegion) (p : LmbProperty) : Int × LmbRegion :=
  if maxLmbRegions ≤ rgn.cnt.toNat then (-1, rgn)
  else
    let region := lmbAddRegion.insert rgn.region p rgn.cnt.toNat
    let region := if p.base < (region 0).base then Function.update region 0 p else region
    (0, { cnt := rgn.cnt + 1, region })

/-- `lmb_add_region`. -/
def lmbAddRegion (rgn : LmbRegion) (base size : UInt64) (type : LmbType) (tag : UInt32) :
    Option (Int × LmbRegion) :=
  let p : LmbProperty := ⟨base, size, tag, type⟩
  if rgn.cnt = 1 ∧ (rgn.region 0).size = 0 then
    some (0, { rgn with region := Function.update rgn.region 0 p })
  else
    match lmbAddRegion.scan rgn base size 0 rgn.cnt.toNat with
    | none => some (-1, rgn)
    | some (i, adjacent) => do
      let (q, coalesced) := lmbAddRegion.grow (rgn.region i) size type tag adjacent
      let (rgn, coalesced) ← lmbAddRegion.merge
        { rgn with region := Function.update rgn.region i q } i coalesced
      return if coalesced ≠ 0 then ((coalesced : Int), rgn) else lmbAddRegion.place rgn p

/-- `lmb_add`. -/
def lmbAdd (lmb : Lmb) (base size : UInt64) (tag : UInt32) : Option (Int × Lmb) := do
  let (ret, memory) ← lmbAddRegion lmb.memory base size .free tag
  return (ret, { lmb with memory })

/-- `lmb_add_mmio`. -/
def lmbAddMmio (lmb : Lmb) (base size : UInt64) (tag : UInt32) : Option (Int × Lmb) := do
  let (ret, memory) ← lmbAddRegion lmb.memory base size .mmio tag
  if ret = 0 then
    let (_, reserved) ← lmbAddRegion lmb.reserved base size .mmio tag
    return (ret, ⟨memory, reserved⟩)
  else return (ret, { lmb with memory })

/-- `lmb_align_down`. -/
def lmbAlignDown (addr size : UInt64) : UInt64 := addr &&& ~~~(size - 1)

/-- `lmb_align_up`. -/
def lmbAlignUp (addr size : UInt64) : UInt64 := (addr + size - 1) &&& ~~~(size - 1)

/-- The search loop of `lmb_free`, `n` rounds from index `i` on. -/
def lmbFree.find (rgn : LmbRegion) (base «end» : UInt64) (i : Nat) : Nat → Option Nat
  | 0 => none
  | n + 1 =>
    if (rgn.region i).base ≤ base ∧ «end» ≤ (rgn.region i).base + (rgn.region i).size then some i
    else find rgn base «end» (i + 1) n

/-- `lmb_free`. -/
def lmbFree (lmb : Lmb) (base size align : UInt64) : Option (Int × Lmb) :=
  let rgn := lmb.reserved
  let size := lmbAlignUp size align
  let «end» := base + size
  match lmbFree.find rgn base «end» 0 rgn.cnt.toNat with
  | none => some (-1, lmb)
  | some i =>
    let p := rgn.region i
    let rgnend := p.base + p.size
    if p.type = .mmio then some (-1, lmb)
    else if p.base = base ∧ rgnend = «end» then do
      let rgn ← lmbRemoveRegion rgn i
      return (0, { lmb with reserved := rgn })
    else if p.base = base then
      let q := { p with base := «end», size := p.size - size }
      some (0, { lmb with reserved := { rgn with region := Function.update rgn.region i q } })
    else if rgnend = «end» then
      let q := { p with size := p.size - size }
      some (0, { lmb with reserved := { rgn with region := Function.update rgn.region i q } })
    else do
      let q := { p with size := base - p.base }
      let (ret, rgn) ← lmbAddRegion { rgn with region := Function.update rgn.region i q }
        «end» (rgnend - «end») p.type p.tag
      return (ret, { lmb with reserved := rgn })

/-- `lmb_is_known`. -/
def lmbIsKnown (lmb : Lmb) (addr size : UInt64) : Bool :=
  (List.range lmb.memory.cnt.toNat).any fun i =>
    let p := lmb.memory.region i
    let upper := p.base + p.size
    p.base ≤ addr && addr ≤ upper - 1 && p.base ≤ addr + size && addr + size ≤ upper

/-- `lmb_is_reserved`. -/
def lmbIsReserved (lmb : Lmb) (addr : UInt64) : Bool :=
  (List.range lmb.reserved.cnt.toNat).any fun i =>
    let p := lmb.reserved.region i
    let upper := p.base + p.size - 1
    p.base ≤ addr && addr ≤ upper

/-- `lmb_reserve`. -/
def lmbReserve (lmb : Lmb) (base size : UInt64) (type : LmbType) (tag : UInt32) :
    Option (Int × Lmb) :=
  if type ≠ .boot ∧ type ≠ .runtime then some (-1, lmb)
  else if !lmbIsKnown lmb base size then some (-1, lmb)
  else do
    let (ret, reserved) ← lmbAddRegion lmb.reserved base size type tag
    return (ret, { lmb with reserved })

/-- `lmb_overlaps_region`; `none` is its `-1`. -/
def lmbOverlapsRegion (rgn : LmbRegion) (base size : UInt64) : Option Nat :=
  (List.range rgn.cnt.toNat).find? fun i =>
    lmbAddrsOverlap base size (rgn.region i).base (rgn.region i).size

/-- The `while` loop of `__lmb_alloc_base`, in at most `n` rounds, up to the block that it takes:
`none` when it is left without one. -/
def lmbAllocBase.scan (reserved : LmbRegion) (lmbbase size align : UInt64) :
    Nat → UInt64 → Option UInt64
  | 0, _ => none
  | n + 1, base =>
    if base ≠ 0 ∧ lmbbase ≤ base then
      match lmbOverlapsRegion reserved base size with
      | none => some base
      | some j =>
        let resBase := (reserved.region j).base
        if resBase < size then none
        else scan reserved lmbbase size align n (lmbAlignDown (resBase - size) align)
    else none

/-- The first `base` that `__lmb_alloc_base` tries in the memory entry `p`, or `none` for an entry
that it skips. -/
def lmbAllocBase.start (p : LmbProperty) (size align maxAddr : UInt64) : Option UInt64 :=
  if p.size < size then none
  else if maxAddr = lmbAllocAnywhere then some (lmbAlignDown (p.base + p.size - size) align)
  else if p.base < maxAddr then
    some (lmbAlignDown (min (p.base + p.size) maxAddr - size) align)
  else none

/-- The `for` loop of `__lmb_alloc_base`, from index `i - 1` down. Each candidate of the inner loop
is below the one before it, so `base + 1` rounds are enough. -/
def lmbAllocBase.search (lmb : Lmb) (size align maxAddr : UInt64) : Nat → Option UInt64
  | 0 => none
  | i + 1 =>
    let p := lmb.memory.region i
    match lmbAllocBase.start p size align maxAddr with
    | none => search lmb size align maxAddr i
    | some base =>
      match lmbAllocBase.scan lmb.reserved p.base size align (base.toNat + 1) base with
      | none => search lmb size align maxAddr i
      | some base => some base

/-- `lmb_alloc_base` with `__lmb_alloc_base`. -/
def lmbAllocBase (lmb : Lmb) (size align maxAddr : UInt64) (type : LmbType) (tag : UInt32) :
    Option (UInt64 × Lmb) :=
  if type = .mmio then some (0, lmb)
  else
    let size := lmbAlignUp size align
    match lmbAllocBase.search lmb size align maxAddr lmb.memory.cnt.toNat with
    | none => some (0, lmb)
    | some base => do
      let (ret, reserved) ← lmbAddRegion lmb.reserved base size type tag
      return (if ret < 0 then 0 else base, { lmb with reserved })

/-- `lmb_alloc`. -/
def lmbAlloc (lmb : Lmb) (size align : UInt64) (type : LmbType) (tag : UInt32) :
    Option (UInt64 × Lmb) :=
  lmbAllocBase lmb size align lmbAllocAnywhere type tag

end ShieldLoader
