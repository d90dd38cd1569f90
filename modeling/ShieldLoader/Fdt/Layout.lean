import ShieldLoader.Fdt.Defs
import ShieldLoader.Data.Forest

/-!
# Trees in a structure block

A device tree is a node with properties and a forest of nodes below it. It is in a structure block
when the block has the tags for it, one behind the other, with `FDT_NOP`s anywhere between them.
-/

namespace ShieldLoader

open Fuel

/-- A property, with the offset of its tag. -/
structure DtProp where
  offset : Nat
  name : List UInt8
  value : List UInt8
deriving DecidableEq

/-- A node, with the offset of its tag. -/
structure DtNode where
  offset : Nat
  name : List UInt8
  props : List DtProp
deriving DecidableEq

/-- Rounding up to the size of a tag. -/
def tagAlign (n : Nat) : Nat := (n + 3) / 4 * 4

namespace Fdt

/-- Offsets up to `size` are good for `fdt_offset_ptr`. -/
structure Fits (d : Fdt) (size : Nat) : Prop where
  size_lt : size < 2 ^ 31
  le_struct : 0x11 ≤ fdtVersion d → size ≤ (fdtSizeDtStruct d).toNat
  addr_lt : d.addr.toNat + (fdtOffDtStruct d).toNat + size < 2 ^ 64

/-- The tag is at the offset. -/
def TagAt (d : Fdt) (o : Nat) (tag : UInt32) : Prop := fdt32 d.mem (fdtStructPtr d o) = tag

/-- The property is at its offset, and what follows is at `o'`. -/
structure PropAt (d : Fdt) (p : DtProp) (o' : Nat) : Prop where
  tag : d.TagAt p.offset fdtProp
  len : (fdt32 d.mem (fdtStructPtr d (p.offset + 4 : Nat))).toNat = p.value.length
  name : d.mem.HoldsText
    (fdtString d (castInt (fdt32 d.mem (fdtStructPtr d (p.offset + 8 : Nat))).toNat)) p.name
  value : d.mem.Holds (fdtStructPtr d (p.offset + 12 : Nat)) p.value
  next : o' = tagAlign (p.offset + 12 + p.value.length)

/-- A node of this name starts at `o`, and what follows is at `o'`. -/
structure BeginAt (d : Fdt) (o : Nat) (name : List UInt8) (o' : Nat) : Prop where
  tag : d.TagAt o fdtBeginNode
  text : d.mem.HoldsText (fdtStructPtr d (o + 4 : Nat)) name
  next : o' = tagAlign (o + 4 + (name.length + 1))

/-- Between `o` and `o'` are the properties and then the nodes. -/
inductive Contents (d : Fdt) : Nat → List DtProp → Forest DtNode → Nat → Prop
  | nil : Contents d o [] .nil o
  | nop : d.TagAt o fdtNop → Contents d (o + 4) ps f o' → Contents d o ps f o'
  | prop : d.PropAt p o₁ → Contents d o₁ ps f o' → Contents d p.offset (p :: ps) f o'
  | node : d.BeginAt o name o₁ → Contents d o₁ ps c o₂ → d.TagAt o₂ fdtEndNode →
    Contents d (o₂ + 4) [] s o' → Contents d o [] (.node ⟨o, name, ps⟩ c s) o'

/-- The structure block is that of the tree with this root and these children. -/
structure IsTree (d : Fdt) (root : DtNode) (children : Forest DtNode) (stop : Nat) : Prop where
  header : fdtCheckHeader d = 0
  fits : d.Fits (stop + 4)
  offset : root.offset = 0
  contents : d.Contents 0 [] (.node root children .nil) stop
  end_tag : d.TagAt stop fdtEnd

end Fdt

/-! ### Numbers -/

theorem castInt_of_lt {x : Int} (h0 : -2 ^ 31 ≤ x) (h : x < 2 ^ 31) : castInt x = x := by
  rw [castInt]
  omega

theorem le_tagAlign (n : Nat) : n ≤ tagAlign n := by
  rw [tagAlign]
  omega

theorem tagAlign_mod (n : Nat) : tagAlign n % 4 = 0 := Nat.mul_mod_left _ 4

theorem toNat_uInt32_ofInt {n : Nat} (h : n < 2 ^ 32) : (UInt32.ofInt n).toNat = n := by
  rw [UInt32.ofInt, UInt32.toNat_ofNat']
  omega

theorem uInt64_ofInt_natCast (n : Nat) : UInt64.ofInt n = UInt64.ofNat n := by
  rw [← UInt64.toNat_inj, UInt64.ofInt, UInt64.toNat_ofNat', UInt64.toNat_ofNat']
  omega

/-! ### Pointers -/

section
variable {d : Fdt} {o o' size : Nat}

theorem fdtStructPtr_add (d : Fdt) (o k : Nat) :
    fdtStructPtr d (o + k : Nat) = fdtStructPtr d o + UInt64.ofNat k := by
  rw [fdtStructPtr, fdtStructPtr, Int.natCast_add, UInt64.ofInt_add, ← UInt64.add_assoc,
    uInt64_ofInt_natCast k]

theorem Fdt.Fits.toNat_structPtr (h : d.Fits size) (ho : o ≤ size) :
    (fdtStructPtr d o).toNat = d.addr.toNat + (fdtOffDtStruct d).toNat + o := by
  have hlt := h.addr_lt
  have hsize := h.size_lt
  have hoff : (UInt64.ofInt (o : Int)).toNat = o := by
    rw [UInt64.ofInt, UInt64.toNat_ofNat']
    omega
  rw [fdtStructPtr, UInt64.toNat_add, UInt64.toNat_add, UInt32.toNat_toUInt64, hoff]
  omega

/-- `fdt_offset_ptr` inside of the block. -/
theorem Fdt.Fits.offsetPtr (h : d.Fits size) {len : UInt32} (hlen : o + len.toNat ≤ size) :
    fdtOffsetPtr d o len = some (fdtStructPtr d o) := by
  have hsize := h.size_lt
  have ho : (UInt32.ofInt (o : Int)).toNat = o := toNat_uInt32_ofInt (by omega)
  have hlast : (UInt32.ofInt o + len).toNat = o + len.toNat := by
    rw [UInt32.toNat_add, ho]
    omega
  have hcheck : ¬(0x11 ≤ fdtVersion d ∧
      (UInt32.ofInt o + len < UInt32.ofInt o ∨ fdtSizeDtStruct d < UInt32.ofInt o + len)) := by
    rintro ⟨hversion, hlt⟩
    have hstruct := h.le_struct hversion
    rw [UInt32.lt_iff_toNat_lt, UInt32.lt_iff_toNat_lt, hlast, ho] at hlt
    omega
  have hptr : ¬fdtStructPtr d o + len.toUInt64 < fdtStructPtr d o := by
    have haddr := h.addr_lt
    rw [UInt64.lt_iff_toNat_lt, UInt64.toNat_add, h.toNat_structPtr (by omega),
      UInt32.toNat_toUInt64]
    omega
  rw [fdtOffsetPtr]
  dsimp only
  rw [if_neg hcheck, if_neg hptr]

/-! ### `fdt_next_tag` -/

/-- A tag whose contents end at `e`. -/
theorem Fdt.Fits.nextTag (h : d.Fits size) {tag : UInt32} {e : Nat} (htag : d.TagAt o tag)
    (hskip : Yields (fun fuel => fdtNextTag.skip d fuel tag (o + 4 : Nat)) (some e))
    (hle : o + 4 ≤ e) (hsize : tagAlign e ≤ size) :
    Yields (fun fuel => fdtNextTag d fuel o) (tag, (tagAlign e : Int)) := by
  have hlt := h.size_lt
  have he := le_tagAlign e
  have hfour : (o : Nat) + (4 : UInt32).toNat ≤ size := by
    show o + 4 ≤ size
    omega
  have hlen : (UInt32.ofInt ((e : Int) - o)).toNat = e - o := by
    rw [show (e : Int) - o = ((e - o : Nat) : Int) by omega]
    exact toNat_uInt32_ofInt (by omega)
  have hcast : castInt ((o : Int) + 4) = (o + 4 : Nat) := castInt_of_lt (by omega) (by omega)
  have halign : castInt (((e : Int) + 3) / 4 * 4) = tagAlign e := by
    rw [tagAlign] at *
    rw [castInt_of_lt (by omega) (by omega)]
    omega
  have hfinish : fdtNextTag.finish d o tag (some e) = (tag, (tagAlign e : Int)) := by
    rw [fdtNextTag.finish, h.offsetPtr (by omega), if_neg (by simp), halign]
  rw [← hfinish]
  refine (hskip.map _).congr fun fuel => ?_
  rw [fdtNextTag, h.offsetPtr hfour]
  dsimp only
  rw [htag, hcast]

/-- A tag that stands for nothing else. -/
theorem Fdt.Fits.nextTag_plain (h : d.Fits size) {tag : UInt32} (htag : d.TagAt o tag)
    (hplain : tag = fdtEnd ∨ tag = fdtEndNode ∨ tag = fdtNop) (ho : o % 4 = 0)
    (hsize : o + 4 ≤ size) : Yields (fun fuel => fdtNextTag d fuel o) (tag, ((o + 4 : Nat) : Int)) := by
  have halign : tagAlign (o + 4) = o + 4 := by
    rw [tagAlign]
    omega
  have hskip (fuel : Nat) :
      fdtNextTag.skip d fuel tag (o + 4 : Nat) = some (some ((o + 4 : Nat) : Int)) := by
    rcases hplain with rfl | rfl | rfl
    all_goals rfl
  have hyields := h.nextTag htag (.const hskip) le_rfl (halign.symm ▸ hsize)
  rwa [halign] at hyields

/-- The loop over a name. -/
theorem Fdt.Fits.nextTag_name (h : d.Fits size) {name : List UInt8}
    (hname : d.mem.HoldsText (fdtStructPtr d o) name) (hsize : o + (name.length + 1) ≤ size) :
    Yields (fun fuel => fdtNextTag.name d fuel o) (some ((o + (name.length + 1) : Nat) : Int)) := by
  have hlt := h.size_lt
  induction name generalizing o with
  | nil =>
    have hzero : d.mem (fdtStructPtr d o) = 0 := (Memory.holds_cons.1 hname.holds).1
    have hcast : castInt ((o : Int) + 1) = (o + 1 : Nat) := castInt_of_lt (by omega) (by omega)
    refine Yields.loop_done (.const fun fuel => ?_)
    rw [fdtNextTag.nameTurn, h.offsetPtr (show o + (1 : UInt32).toNat ≤ size from hsize)]
    dsimp only
    rw [if_pos hzero, hcast]
    rfl
  | cons b name ih =>
    have hb := Memory.holds_cons.1 hname.holds
    have hne : d.mem (fdtStructPtr d o) ≠ 0 := fun hzero =>
      hname.zero_notMem (List.mem_cons.2 (.inl (hzero.symm.trans hb.1)))
    have hptr : fdtStructPtr d (o + 1 : Nat) = fdtStructPtr d o + 1 := fdtStructPtr_add d o 1
    have hcast : castInt ((o : Int) + 1) = (o + 1 : Nat) := castInt_of_lt (by omega) (by omega)
    rw [List.length_cons] at hsize
    have hturn (fuel : Nat) : fdtNextTag.nameTurn d fuel o = some (.next ((o + 1 : Nat) : Int)) := by
      rw [fdtNextTag.nameTurn, h.offsetPtr (show o + (1 : UInt32).toNat ≤ size by
        show o + 1 ≤ size
        omega)]
      dsimp only
      rw [if_neg hne, hcast]
    refine Yields.loop_next (.const hturn) ?_
    · have htext : d.mem.HoldsText (fdtStructPtr d (o + 1 : Nat)) name := by
        refine ⟨fun h0 => hname.zero_notMem (List.mem_cons_of_mem _ h0), ?_⟩
        rw [hptr]
        exact hb.2
      have hrest := ih htext (by omega)
      rwa [show o + 1 + (name.length + 1) = o + ((b :: name).length + 1) by
        rw [List.length_cons]; omega] at hrest

theorem Fdt.BeginAt.nextTag (h : d.Fits size) {name : List UInt8} (hbegin : d.BeginAt o name o')
    (hsize : o' ≤ size) :
    Yields (fun fuel => fdtNextTag d fuel o) (fdtBeginNode, (o' : Int)) := by
  have hle := le_tagAlign (o + 4 + (name.length + 1))
  have hnext := hbegin.next
  have hskip : Yields (fun fuel => fdtNextTag.skip d fuel fdtBeginNode (o + 4 : Nat))
      (some ((o + 4 + (name.length + 1) : Nat) : Int)) :=
    (h.nextTag_name hbegin.text (by omega)).congr fun fuel => rfl
  rw [hnext]
  exact h.nextTag hbegin.tag hskip (by omega) (by omega)

theorem Fdt.PropAt.nextTag (h : d.Fits size) {p : DtProp} (hprop : d.PropAt p o')
    (hsize : o' ≤ size) :
    Yields (fun fuel => fdtNextTag d fuel p.offset) (fdtProp, (o' : Int)) := by
  have hlt := h.size_lt
  have hle := le_tagAlign (p.offset + 12 + p.value.length)
  have hnext := hprop.next
  have hfour : p.offset + 4 + (4 : UInt32).toNat ≤ size := by
    show p.offset + 4 + 4 ≤ size
    omega
  have hskip : Yields (fun fuel => fdtNextTag.skip d fuel fdtProp (p.offset + 4 : Nat))
      (some ((p.offset + 12 + p.value.length : Nat) : Int)) := by
    refine .const fun fuel => ?_
    show some ((fdtOffsetPtr d (p.offset + 4 : Nat) 4).map _) = _
    rw [h.offsetPtr hfour, Option.map_some, hprop.len, castInt_of_lt (by omega) (by omega)]
    simp only [Option.some.injEq]
    omega
  rw [hnext]
  exact h.nextTag hprop.tag hskip (by omega) (by omega)

/-! ### The shape of contents -/

theorem Fdt.BeginAt.le {name : List UInt8} (h : d.BeginAt o name o') : o + 5 ≤ o' := by
  have hle := le_tagAlign (o + 4 + (name.length + 1))
  rw [h.next]
  omega

theorem Fdt.PropAt.le {p : DtProp} (h : d.PropAt p o') : p.offset + 12 ≤ o' := by
  rw [h.next]
  exact (Nat.le_add_right ..).trans (le_tagAlign _)

theorem Fdt.Contents.le {ps : List DtProp} {f : Forest DtNode} (h : d.Contents o ps f o') :
    o ≤ o' := by
  induction h with
  | nil => exact le_rfl
  | nop _ _ ih => omega
  | prop hp _ ih =>
    have := hp.le
    omega
  | node hb _ _ _ ihc ihs =>
    have := hb.le
    omega

/-- Tags are aligned. -/
theorem Fdt.Contents.mod {ps : List DtProp} {f : Forest DtNode} (h : d.Contents o ps f o')
    (ho : o % 4 = 0) : o' % 4 = 0 := by
  induction h with
  | nil => exact ho
  | nop _ _ ih => exact ih (by omega)
  | prop hp _ ih => exact ih (hp.next ▸ tagAlign_mod _)
  | node hb _ _ _ ihc ihs =>
    have hc := ihc (hb.next ▸ tagAlign_mod _)
    exact ihs (by omega)

theorem Fdt.PropAt.unique {p q : DtProp} {o₁ o₂ : Nat} (hp : d.PropAt p o₁) (hq : d.PropAt q o₂)
    (h : p.offset = q.offset) : p = q ∧ o₁ = o₂ := by
  obtain ⟨po, pname, pvalue⟩ := p
  obtain ⟨qo, qname, qvalue⟩ := q
  obtain rfl : po = qo := h
  have hlen : pvalue.length = qvalue.length := hp.len.symm.trans hq.len
  have hvalue : pvalue = qvalue := by
    have hp' := hp.value.slice_eq
    have hq' := hq.value.slice_eq
    dsimp only at hp' hq'
    rw [← hp', ← hq', hlen]
  obtain rfl := hvalue
  obtain rfl : pname = qname := hp.name.unique hq.name
  exact ⟨rfl, hp.next.trans hq.next.symm⟩

theorem Fdt.BeginAt.unique {name name' : List UInt8} {o₁ o₂ : Nat} (h : d.BeginAt o name o₁)
    (h' : d.BeginAt o name' o₂) : name = name' ∧ o₁ = o₂ := by
  obtain rfl := h.text.unique h'.text
  exact ⟨rfl, h.next.trans h'.next.symm⟩

/-- Contents end here. -/
def Fdt.EndAt (d : Fdt) (o : Nat) : Prop := d.TagAt o fdtEndNode ∨ d.TagAt o fdtEnd

theorem Fdt.EndAt.not_tag {tag : UInt32} (h : d.EndAt o) (htag : d.TagAt o tag)
    (hne : tag ≠ fdtEndNode ∧ tag ≠ fdtEnd) : False := by
  rcases h with h | h
  · exact hne.1 (htag.symm.trans h)
  · exact hne.2 (htag.symm.trans h)

theorem Fdt.TagAt.absurd {tag tag' : UInt32} {P : Prop} (h : d.TagAt o tag) (h' : d.TagAt o tag')
    (hne : tag ≠ tag') : P := (hne (h.symm.trans h')).elim

/-- What is in a block up to an end is there in one way only. -/
theorem Fdt.Contents.unique {ps qs : List DtProp} {f g : Forest DtNode} {o'' : Nat}
    (h : d.Contents o ps f o') (h' : d.Contents o qs g o'') (hend : d.EndAt o')
    (hend' : d.EndAt o'') : ps = qs ∧ f = g ∧ o' = o'' := by
  induction h generalizing qs g o'' with
  | nil =>
    cases h' with
    | nil => exact ⟨rfl, rfl, rfl⟩
    | nop htag _ => exact (hend.not_tag htag (by decide)).elim
    | prop hp _ => exact (hend.not_tag hp.tag (by decide)).elim
    | node hb _ _ _ => exact (hend.not_tag hb.tag (by decide)).elim
  | nop htag _ ih =>
    cases h' with
    | nil => exact (hend'.not_tag htag (by decide)).elim
    | nop _ h' => exact ih h' hend hend'
    | prop hp _ => exact htag.absurd hp.tag (by decide)
    | node hb _ _ _ => exact htag.absurd hb.tag (by decide)
  | @prop p o₁ ps f o' hp _ ih =>
    generalize ho : p.offset = o at h'
    cases h' with
    | nil => exact (hend'.not_tag (ho ▸ hp.tag) (by decide)).elim
    | nop htag _ => exact htag.absurd (ho ▸ hp.tag) (by decide)
    | node hb _ _ _ => exact hb.tag.absurd (ho ▸ hp.tag) (by decide)
    | prop hq h' =>
      obtain ⟨rfl, rfl⟩ := hp.unique hq ho
      obtain ⟨rfl, rfl, rfl⟩ := ih h' hend hend'
      exact ⟨rfl, rfl, rfl⟩
  | node hb _ hcend _ ihc ihs =>
    cases h' with
    | nil => exact (hend'.not_tag hb.tag (by decide)).elim
    | nop htag _ => exact htag.absurd hb.tag (by decide)
    | prop hp _ => exact hp.tag.absurd hb.tag (by decide)
    | node hb' hc' hcend' hs' =>
      obtain ⟨rfl, rfl⟩ := hb.unique hb'
      obtain ⟨rfl, rfl, rfl⟩ := ihc hc' (.inl hcend) (.inl hcend')
      obtain ⟨-, rfl, rfl⟩ := ihs hs' hend hend'
      exact ⟨rfl, rfl, rfl⟩

/-- There is one tree in a block. -/
theorem Fdt.IsTree.unique {root root' : DtNode} {c c' : Forest DtNode} {stop stop' : Nat}
    (h : d.IsTree root c stop) (h' : d.IsTree root' c' stop') :
    root = root' ∧ c = c' ∧ stop = stop' := by
  obtain ⟨-, hf, rfl⟩ := h.contents.unique h'.contents (.inr h.end_tag) (.inr h'.end_tag)
  rw [Forest.node.injEq] at hf
  exact ⟨hf.1, hf.2.1, rfl⟩

end

end ShieldLoader
