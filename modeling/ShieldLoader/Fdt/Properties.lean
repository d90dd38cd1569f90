import ShieldLoader.Fdt.Walk

/-!
# Properties

`fdt_getprop` finds the first property of a node that has the name, and nothing else.
-/

namespace ShieldLoader

open Fuel

/-! ### Strings in the memory -/

section
variable {m : Memory} {p : UInt64} {s : List UInt8}

theorem strlen_loop {sc : UInt64} (h : m.HoldsText sc s) :
    Yields (fun fuel => loop (strlen.turn m p) fuel sc) (sc + UInt64.ofNat s.length - p) := by
  induction s generalizing sc with
  | nil =>
    have hzero : m sc = 0 := (Memory.holds_cons.1 h.holds).1
    refine Yields.loop_done (.const fun fuel => ?_)
    rw [strlen.turn, if_pos hzero]
    show some (Turn.done (sc - p)) = some (.done (sc + 0 - p))
    rw [UInt64.add_zero]
  | cons b s ih =>
    have hb := Memory.holds_cons.1 h.holds
    have hne : m sc ≠ 0 := fun hzero =>
      h.zero_notMem (List.mem_cons.2 (.inl (hzero.symm.trans hb.1)))
    have hrest := ih ⟨fun h0 => h.zero_notMem (List.mem_cons_of_mem _ h0), hb.2⟩
    rw [List.length_cons, Nat.add_comm, UInt64.ofNat_add, ← UInt64.add_assoc]
    exact Yields.loop_next (.const fun fuel => by rw [strlen.turn, if_neg hne]) hrest

theorem strlen_of_holds (h : m.HoldsText p s) :
    Yields (fun fuel => strlen m fuel p) (UInt64.ofNat s.length) := by
  have hloop := strlen_loop (p := p) h
  rwa [UInt64.add_comm, UInt64.add_sub_cancel] at hloop

theorem readText_of_holds (h : m.HoldsText p s) : Yields (fun fuel => readText m fuel p) s := by
  refine (strlen_of_holds h).map_eq ?_
  rw [h.toNat_length]
  exact (Memory.holds_append.1 h.holds).1

end

section
variable {d : Fdt} {o o' size : Nat} {n root : DtNode} {c f : Forest DtNode} {name : List UInt8}

/-- `_fdt_string_eq`. -/
theorem fdtStringEq_of_holds {off : Int} {s : List UInt8} (h : d.mem.HoldsText (fdtString d off) s)
    (name : List UInt8) : Yields (fun fuel => fdtStringEq d fuel off name) (decide (s = name)) := by
  refine (strlen_of_holds h).map_eq ?_
  rw [h.toNat_length, decide_eq_decide]
  constructor
  · rintro ⟨hlen, hslice⟩
    have hs := (Memory.holds_append.1 h.holds).1.slice_eq
    rw [← hs, hlen, hslice]
  · rintro rfl
    exact ⟨rfl, (Memory.holds_append.1 h.holds).1⟩

/-! ### `fdt_get_property` -/

/-- What `fdt_get_property` returns for a property, if there is one. -/
def Fdt.propResult (d : Fdt) : Option DtProp → Except Int (UInt64 × Int)
  | none => .error (-fdtErrNotfound)
  | some p => .ok (fdtStructPtr d p.offset, p.value.length)

/-- A turn at a property. -/
theorem Fdt.PropAt.turn {p : DtProp} (h : d.PropAt p o') (hfit : d.Fits size) (hsize : o' ≤ size)
    (name : List UInt8) :
    Yields (fun fuel => fdtGetPropertyNamelen.turn d name fuel p.offset)
      (if p.name = name then .done (d.propResult (some p)) else .next (o' : Int)) := by
  have hle := le_tagAlign (p.offset + 12 + p.value.length)
  have hnext := h.next
  have hlt := hfit.size_lt
  have hlen : castInt (fdt32 d.mem (fdtStructPtr d p.offset + 4)).toNat = p.value.length := by
    have hptr : fdtStructPtr d p.offset + 4 = fdtStructPtr d (p.offset + 4 : Nat) :=
      (fdtStructPtr_add d p.offset 4).symm
    rw [hptr, h.len]
    exact castInt_of_lt (by omega) (by omega)
  have hname : d.mem.HoldsText (fdtString d
      (castInt (fdt32 d.mem (fdtStructPtr d p.offset + 8)).toNat)) p.name := by
    have hptr : fdtStructPtr d p.offset + 8 = fdtStructPtr d (p.offset + 8 : Nat) :=
      (fdtStructPtr_add d p.offset 8).symm
    rw [hptr]
    exact h.name
  refine (h.nextTag hfit hsize).bind (g := fdtGetPropertyNamelen.switch d name p.offset) ?_
  refine ((fdtStringEq_of_holds hname name).map_eq (g := fun eq =>
    if eq then .done (.ok (fdtStructPtr d p.offset,
      castInt (fdt32 d.mem (fdtStructPtr d p.offset + 4)).toNat)) else .next (o' : Int)) ?_).congr
    fun fuel => rfl
  rw [hlen]
  simp only [decide_eq_true_eq]
  rfl

/-- A turn at another tag than that of a property. -/
theorem Fdt.TagAt.turn {tag : UInt32} {next : Int} (htag : Yields (fun fuel => fdtNextTag d fuel o) (tag, next))
    (name : List UInt8) (hplain : tag = fdtNop ∨ tag = fdtBeginNode ∨ tag = fdtEndNode) :
    Yields (fun fuel => fdtGetPropertyNamelen.turn d name fuel o)
      (if tag = fdtNop then .next next else .done (.error (-fdtErrNotfound))) := by
  refine htag.bind (g := fdtGetPropertyNamelen.switch d name o) (.const fun fuel => ?_)
  rcases hplain with rfl | rfl | rfl
  all_goals rfl

/-- The loop finds the first property with the name. -/
theorem Fdt.Contents.getProperty {ps : List DtProp} (hfit : d.Fits size) (h : d.Contents o ps f o')
    (ho : o % 4 = 0) (hend : d.TagAt o' fdtEndNode) (hsize : o' + 4 ≤ size) (name : List UInt8) :
    Yields (fun fuel => loop (fdtGetPropertyNamelen.turn d name) fuel o)
      (d.propResult (ps.find? (·.name = name))) := by
  induction h with
  | nil =>
    have htag := hfit.nextTag_plain hend (.inr (.inl rfl)) ho hsize
    exact Yields.loop_done (TagAt.turn htag name (.inr (.inr rfl)))
  | nop htag h ih =>
    have hle := h.le
    have hnext := hfit.nextTag_plain htag (.inr (.inr rfl)) ho (by omega)
    exact Yields.loop_next (TagAt.turn hnext name (.inl rfl)) (ih (by omega) hend hsize)
  | @prop p o₁ ps f o' hp h ih =>
    have hturn := hp.turn hfit (h.le.trans (by omega)) name
    by_cases hname : p.name = name
    · rw [if_pos hname] at hturn
      rw [List.find?_cons_of_pos (by simpa using hname)]
      exact Yields.loop_done hturn
    · rw [if_neg hname] at hturn
      rw [List.find?_cons_of_neg (by simpa using hname)]
      exact Yields.loop_next hturn (ih (hp.next ▸ tagAlign_mod _) hend hsize)
  | node hb hc hcend hs _ _ =>
    have hle := hc.le
    have hle' := hs.le
    exact Yields.loop_done (TagAt.turn (hb.nextTag hfit (by omega)) name (.inr (.inl rfl)))

theorem Fdt.SubtreeAt.checkNodeOffset {o₁ o₂ : Nat} (h : d.SubtreeAt n c o₁ o₂) (hfit : d.Fits size)
    (hsize : o₂ + 4 ≤ size) : Yields (fun fuel => fdtCheckNodeOffset d fuel n.offset) (o₁ : Int) := by
  have hle := h.contents.le
  exact checkNodeOffset_of_begin h.aligned (h.begins.nextTag hfit (by omega))

/-- `fdt_get_property` for a node that is in the block. -/
theorem Fdt.SubtreeAt.getProperty {o₁ o₂ : Nat} (h : d.SubtreeAt n c o₁ o₂) (hfit : d.Fits size)
    (hheader : fdtCheckHeader d = 0) (hsize : o₂ + 4 ≤ size) (name : List UInt8) :
    Yields (fun fuel => fdtGetPropertyNamelen d fuel n.offset name)
      (d.propResult (n.props.find? (·.name = name))) := by
  have ho₁ : o₁ % 4 = 0 := h.begins.next ▸ tagAlign_mod _
  have hno : ¬(o₁ : Int) < 0 := by omega
  refine ((h.checkNodeOffset hfit hsize).bind (g := fun err fuel =>
    if err < 0 then some (.error err)
    else loop (fdtGetPropertyNamelen.turn d name) fuel err) ?_).congr fun fuel => ?_
  · exact (h.contents.getProperty hfit ho₁ h.end_node hsize name).congr fun fuel => if_neg hno
  · exact if_neg (not_not_intro hheader)

/-! ### `fdt_getprop` -/

theorem Fdt.Contents.propAt {ps : List DtProp} (h : d.Contents o ps f o') {p : DtProp}
    (hp : p ∈ ps) : ∃ o₁, d.PropAt p o₁ ∧ o₁ ≤ o' := by
  induction h with
  | nil => cases hp
  | nop _ _ ih => exact ih hp
  | prop hq h ih =>
    cases List.mem_cons.1 hp with
    | inl heq => exact ⟨_, heq ▸ hq, h.le⟩
    | inr hp => exact ih hp
  | node _ _ _ _ _ _ => cases hp

/-- What `fdt_getprop` returns for a property, if there is one. -/
def Fdt.dataResult (d : Fdt) : Option DtProp → Except Int (UInt64 × Int)
  | none => .error (-fdtErrNotfound)
  | some p => .ok (fdtStructPtr d (p.offset + 12 : Nat), p.value.length)

section
variable {stop : Nat} {c' : Forest DtNode}

theorem Fdt.IsTree.getprop (h : d.IsTree root c stop)
    (hn : Forest.Occurs n c' (.node root c .nil)) (name : List UInt8) :
    Yields (fun fuel => fdtGetpropNamelen d fuel n.offset name)
      (d.dataResult (n.props.find? (·.name = name))) := by
  obtain ⟨o₁, o₂, hsub, hle⟩ := h.subtreeAt hn
  refine (hsub.getProperty h.fits h.header hle name).map_eq ?_
  cases n.props.find? (·.name = name) with
  | none => rfl
  | some p =>
    rw [dataResult, fdtStructPtr_add]
    rfl

/-- The value of a property of the tree is in the memory. -/
theorem Fdt.IsTree.holds_value (h : d.IsTree root c stop)
    (hn : Forest.Occurs n c' (.node root c .nil)) {p : DtProp} (hp : p ∈ n.props) :
    d.mem.Holds (fdtStructPtr d (p.offset + 12 : Nat)) p.value := by
  obtain ⟨o₁, o₂, hsub, -⟩ := h.subtreeAt hn
  obtain ⟨o', hat, -⟩ := hsub.contents.propAt hp
  exact hat.value

theorem Fdt.IsTree.length_value_lt (h : d.IsTree root c stop)
    (hn : Forest.Occurs n c' (.node root c .nil)) {p : DtProp} (hp : p ∈ n.props) :
    p.value.length < 2 ^ 31 := by
  obtain ⟨o₁, o₂, hsub, hle⟩ := h.subtreeAt hn
  obtain ⟨o', hat, hle'⟩ := hsub.contents.propAt hp
  have hlt := h.fits.size_lt
  have hend := le_tagAlign (p.offset + 12 + p.value.length)
  have hnext := hat.next
  omega

/-- `fdt_get_name`. -/
theorem Fdt.IsTree.getName (h : d.IsTree root c stop) {c' : Forest DtNode}
    (hn : Forest.Occurs n c' (.node root c .nil)) :
    Yields (fun fuel => fdtGetName d fuel n.offset)
      (.ok (fdtStructPtr d n.offset + 4, n.name.length)) := by
  obtain ⟨o₁, o₂, hsub, hle⟩ := h.subtreeAt hn
  have hno : ¬(o₁ : Int) < 0 := by omega
  have htext := hsub.begins.text
  have hptr : fdtStructPtr d (n.offset + 4 : Nat) = fdtStructPtr d n.offset + 4 :=
    fdtStructPtr_add d n.offset 4
  have hlen : castInt (UInt64.ofNat n.name.length).toNat = n.name.length := by
    have hlt := h.fits.size_lt
    have hnext := hsub.begins.next
    have hend := le_tagAlign (n.offset + 4 + (n.name.length + 1))
    have hle' := hsub.contents.le
    rw [htext.toNat_length]
    exact castInt_of_lt (by omega) (by omega)
  rw [hptr] at htext
  refine ((hsub.checkNodeOffset h.fits hle).bind (g := fun err fuel =>
    if err < 0 then some (.error err)
    else (strlen d.mem fuel (fdtStructPtr d n.offset + 4)).map fun len =>
      .ok (fdtStructPtr d n.offset + 4, castInt len.toNat)) ?_).congr fun fuel => ?_
  · refine ((strlen_of_holds htext).map_eq ?_).congr fun fuel => if_neg hno
    rw [hlen]
  · exact if_neg (not_not_intro h.header)

/-- **`fdt_getprop` finds the first property of the name**: a pointer to its value, and the length.
When there is none, the error is `FDT_ERR_NOTFOUND`. -/
theorem fdtGetprop_find (h : d.IsTree root c stop)
    (hn : Forest.Occurs n c' (.node root c .nil)) (name : List UInt8) :
    (∀ p, n.props.find? (·.name = name) = some p →
      ∃ q, Yields (fun fuel => fdtGetpropNamelen d fuel n.offset name) (.ok (q, p.value.length)) ∧
        d.mem.Holds q p.value) ∧
    (n.props.find? (·.name = name) = none →
      Yields (fun fuel => fdtGetpropNamelen d fuel n.offset name) (.error (-fdtErrNotfound))) := by
  have hget := h.getprop hn name
  constructor
  · intro p hp
    rw [hp] at hget
    exact ⟨_, hget, h.holds_value hn (List.mem_of_find?_eq_some hp)⟩
  · intro hnone
    rwa [hnone] at hget

end

end

theorem fdtGetprop_find_small :
    ∃ q, Yields (fun fuel => fdtGetpropNamelen (smallDtb.load 0x83000000) fuel smallChosen.offset
        (bytes "bootargs")) (.ok (q, (bytes "vpr=4K@2M quiet" ++ [0]).length)) ∧
      (smallDtb.load 0x83000000).mem.Holds q (bytes "vpr=4K@2M quiet" ++ [0]) :=
  (fdtGetprop_find smallDtb_written.isTree smallChosen_occurs (bytes "bootargs")).1
    ⟨104, bytes "bootargs", bytes "vpr=4K@2M quiet" ++ [0]⟩ (by decide)

/-! ### There and back -/

/-- What is read of a node at an offset: its name, and for every name the first property. -/
structure Fdt.Reads (d : Fdt) (o : Int) (a : DtSource) : Prop where
  name : ∃ p, Yields (fun fuel => fdtGetName d fuel o) (.ok (p, a.name.length)) ∧
    d.mem.HoldsText p a.name
  prop : ∀ name p, a.props.find? (·.1 = name) = some p →
    ∃ q, Yields (fun fuel => fdtGetpropNamelen d fuel o name) (.ok (q, p.2.length)) ∧
      d.mem.Holds q p.2
  no_prop : ∀ name, a.props.find? (·.1 = name) = none →
    Yields (fun fuel => fdtGetpropNamelen d fuel o name) (.error (-fdtErrNotfound))

section
variable {d : Fdt} {n root : DtNode} {c c' : Forest DtNode} {stop : Nat} {s : Dtb}

theorem find?_source (n : DtNode) (name : List UInt8) :
    n.source.props.find? (·.1 = name) =
      (n.props.find? (·.name = name)).map fun p => (p.name, p.value) := by
  rw [DtNode.source, List.find?_map]
  rfl

theorem Fdt.IsTree.reads (h : d.IsTree root c stop) (hn : Forest.Occurs n c' (.node root c .nil)) :
    d.Reads n.offset n.source := by
  obtain ⟨o₁, o₂, hsub, -⟩ := h.subtreeAt hn
  refine ⟨⟨_, h.getName hn, ?_⟩, fun name p hp => ?_, fun name hnone => ?_⟩
  · have htext := hsub.begins.text
    rwa [fdtStructPtr_add] at htext
  · rw [find?_source, Option.map_eq_some_iff] at hp
    obtain ⟨q, hq, rfl⟩ := hp
    exact (fdtGetprop_find h hn name).1 q hq
  · rw [find?_source, Option.map_eq_none_iff] at hnone
    exact (fdtGetprop_find h hn name).2 hnone

/-- **A device tree is read back from its blob.** From a negative offset, `fdt_next_node` comes to
offsets and depths that are those of the nodes in preorder, where `fdt_get_name` and `fdt_getprop`
find their names and properties, and then to the end; and no other tree is in the structure block. -/
theorem Fdt.Written.tree_round_trip (h : d.Written s) :
    (∀ x < 0, ∀ e : Option Int, (∀ k ∈ e, 0 ≤ k) → ∃ visited,
      ((x, e) :: (visited ++ [(-fdtErrNotfound, e)])).IsChain d.Next ∧
        List.Forall₂ (fun v a => d.Reads v.1 a.1 ∧ v.2 = e.map (· + (a.2 : Int))) visited
          (s.tree.preorder 1)) ∧
    ∀ root c stop, d.IsTree root c stop →
      (Forest.node root c .nil).map DtNode.source = s.tree := by
  have htree : (Forest.node s.rootNode s.childNodes .nil).map DtNode.source = s.tree := by
    rw [← s.locate_tree, map_source_locate]
  refine ⟨fun x hx e he => ⟨_, h.isTree.chain hx he, ?_⟩, fun root c stop h' => ?_⟩
  · rw [← htree, Forest.preorder_map, List.forall₂_map_left_iff, List.forall₂_map_right_iff,
      List.forall₂_same]
    intro y hy
    obtain ⟨c', hc'⟩ := Forest.exists_occurs (Forest.mem_labels_of_preorder hy)
    exact ⟨h.isTree.reads hc', rfl⟩
  · obtain ⟨rfl, rfl, -⟩ := h'.unique h.isTree
    exact htree

end

theorem tree_round_trip_small :
    (∀ x < 0, ∀ e : Option Int, (∀ k ∈ e, 0 ≤ k) → ∃ visited,
      ((x, e) :: (visited ++ [(-fdtErrNotfound, e)])).IsChain (smallDtb.load 0x83000000).Next ∧
        List.Forall₂ (fun v a => (smallDtb.load 0x83000000).Reads v.1 a.1 ∧
          v.2 = e.map (· + (a.2 : Int))) visited (smallDtb.tree.preorder 1)) ∧
    ∀ root c stop, (smallDtb.load 0x83000000).IsTree root c stop →
      (Forest.node root c .nil).map DtNode.source = smallDtb.tree :=
  Fdt.Written.tree_round_trip smallDtb_written

end ShieldLoader
