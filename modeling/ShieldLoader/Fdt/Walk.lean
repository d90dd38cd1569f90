import ShieldLoader.Fdt.Encode

/-!
# Walking through a tree

`fdt_next_node` goes through the nodes of a tree in preorder, and `*depth` follows their levels.
-/

namespace ShieldLoader

open Fuel

namespace Fdt

/-- `fdt_next_node` goes from the first offset and depth to the second. -/
def Next (d : Fdt) (x y : Int × Option Int) : Prop :=
  Yields (fun fuel => fdtNextNode d fuel x.1 x.2) y

/-- The loop of `fdt_next_node` ends with `r`. -/
def Walks (d : Fdt) (s r : Int × Option Int) : Prop :=
  Yields (fun fuel => loop (fdtNextNode.turn d) fuel s) r

/-- A node at a level below one of depth `e`: the offset, and the depth. -/
def visit (e : Option Int) (x : DtNode × Nat) : Int × Option Int :=
  (x.1.offset, e.map (· + (x.2 : Int)))

/-- The node and its children are in the block: its contents are between `o₁` and `o₂`. -/
structure SubtreeAt (d : Fdt) (n : DtNode) (c : Forest DtNode) (o₁ o₂ : Nat) : Prop where
  aligned : n.offset % 4 = 0
  begins : d.BeginAt n.offset n.name o₁
  contents : d.Contents o₁ n.props c o₂
  end_node : d.TagAt o₂ fdtEndNode

end Fdt

open Fdt

section
variable {d : Fdt} {o o' size : Nat} {e : Option Int} {n root : DtNode} {c f : Forest DtNode}
  {r : Int × Option Int}

/-- What occurs in a forest is in the block. -/
theorem Fdt.Contents.subtreeAt {ps : List DtProp} (h : d.Contents o ps f o') (ho : o % 4 = 0)
    (hn : Forest.Occurs n c f) : ∃ o₁ o₂, d.SubtreeAt n c o₁ o₂ ∧ o₂ + 4 ≤ o' := by
  induction h with
  | nil => cases hn
  | nop _ _ ih => exact ih (by omega) hn
  | prop hp _ ih => exact ih (hp.next ▸ tagAlign_mod _) hn
  | node hb hc hend hs ihc ihs =>
    have ho₁ := hb.next ▸ tagAlign_mod _
    have ho₂ := hc.mod ho₁
    have hle := hs.le
    cases hn with
    | here => exact ⟨_, _, ⟨ho, hb, hc, hend⟩, hle⟩
    | child hn =>
      obtain ⟨o₁, o₂, hsub, hle'⟩ := ihc ho₁ hn
      exact ⟨o₁, o₂, hsub, by omega⟩
    | next hn => exact ihs (by omega) hn

/-! ### Turns -/

theorem Fdt.Walks.skip {tag : UInt32} {next : Int} (hskip : tag = fdtProp ∨ tag = fdtNop)
    (htag : Yields (fun fuel => fdtNextTag d fuel o) (tag, next)) (h : d.Walks (next, e) r) :
    d.Walks (o, e) r := by
  have hswitch : fdtNextNode.switch ((o : Int), e) (tag, next) = .next (next, e) := by
    rcases hskip with rfl | rfl
    all_goals rfl
  exact Yields.loop_next (htag.map_eq hswitch) h

/-- The end of a node below the starting one. -/
theorem Fdt.Walks.endNode {next : Int} (he : ∀ x ∈ e, 0 ≤ x)
    (htag : Yields (fun fuel => fdtNextTag d fuel o) (fdtEndNode, next)) (h : d.Walks (next, e) r) :
    d.Walks (o, e.map (· + 1)) r := by
  have hswitch : fdtNextNode.switch ((o : Int), e.map (· + 1)) (fdtEndNode, next) =
      .next (next, e) := by
    have hback : (e.map (· + 1)).map (· - 1) = e := by
      rw [Option.map_map]
      exact (Option.map_congr fun x _ => Int.add_sub_cancel x 1).trans Option.map_id'
    have hno : ¬∃ x ∈ e, x < 0 := fun ⟨x, hx, hlt⟩ => absurd (he x hx) (by omega)
    rw [fdtNextNode.switch, if_neg (show fdtEndNode ≠ fdtBeginNode by decide), if_pos rfl, hback,
      if_neg hno]
  exact Yields.loop_next (htag.map_eq hswitch) h

/-- The beginning of a node. -/
theorem Fdt.Walks.beginNode {next : Int}
    (htag : Yields (fun fuel => fdtNextTag d fuel o) (fdtBeginNode, next)) :
    d.Walks (o, e) (o, e.map (· + 1)) :=
  Yields.loop_done (htag.map_eq rfl)

/-- The end of the starting node. -/
theorem Fdt.Walks.endStart {next : Int}
    (htag : Yields (fun fuel => fdtNextTag d fuel o) (fdtEndNode, next)) :
    d.Walks (o, some 0) (next, some (-1)) :=
  Yields.loop_done (htag.map_eq rfl)

/-- The end of the tree. -/
theorem Fdt.Walks.end_ {next : Int} (hnext : 0 ≤ next)
    (htag : Yields (fun fuel => fdtNextTag d fuel o) (fdtEnd, next)) :
    d.Walks (o, e) (-fdtErrNotfound, e) := by
  have hswitch : fdtNextNode.switch ((o : Int), e) (fdtEnd, next) = .done (-fdtErrNotfound, e) := by
    rw [fdtNextNode.switch, if_neg (show fdtEnd ≠ fdtBeginNode by decide),
      if_neg (show fdtEnd ≠ fdtEndNode by decide), if_pos rfl, if_pos (.inl hnext)]
  exact Yields.loop_done (htag.map_eq hswitch)

/-! ### `fdt_next_node` -/

/-- `_fdt_check_node_offset` for the beginning of a node. -/
theorem Fdt.checkNodeOffset_of_begin {next : Nat} (ho : o % 4 = 0)
    (htag : Yields (fun fuel => fdtNextTag d fuel o) (fdtBeginNode, (next : Int))) :
    Yields (fun fuel => fdtCheckNodeOffset d fuel o) (next : Int) := by
  have hcheck : ¬((o : Int) < 0 ∨ (o : Int) % 4 ≠ 0) := by omega
  refine (htag.map_eq (g := fun r => if r.1 = fdtBeginNode then r.2 else -fdtErrBadoffset)
    (if_pos rfl)).congr fun fuel => ?_
  rw [fdtCheckNodeOffset, if_neg hcheck]

/-- From a node, the loop starts behind its name. -/
theorem Fdt.Next.of_begin {next : Nat} (ho : o % 4 = 0)
    (htag : Yields (fun fuel => fdtNextTag d fuel o) (fdtBeginNode, (next : Int)))
    (h : d.Walks (next, e) r) : d.Next (o, e) r := by
  have hno : ¬(next : Int) < 0 := by omega
  refine ((checkNodeOffset_of_begin ho htag).bind
    (g := fun nextoffset fuel => if nextoffset < 0 then some (nextoffset, e)
      else loop (fdtNextNode.turn d) fuel (nextoffset, e)) ?_).congr fun fuel => ?_
  · exact h.congr fun fuel => if_neg hno
  · exact if_pos (Int.natCast_nonneg o)

/-- From a negative offset, the loop starts at the root. -/
theorem Fdt.Next.of_neg {x : Int} (hx : x < 0) (h : d.Walks (0, e) r) : d.Next (x, e) r :=
  h.congr fun _ => if_neg (by omega)

/-! ### A forest -/

theorem visit_succ (e : Option Int) (f : Forest DtNode) :
    (f.preorder 2).map (visit e) = (f.preorder 1).map (visit (e.map (· + 1))) := by
  rw [f.preorder_add 1 1, List.map_map]
  refine List.map_congr_left fun x _ => ?_
  simp only [Function.comp_apply, visit, Option.map_map, Nat.cast_add, Nat.cast_one,
    Function.comp_def, Int.add_assoc]

/-- From where a forest starts, `fdt_next_node` goes through its nodes in preorder, and then to
where it goes from the end. -/
theorem Fdt.Contents.chain {ps : List DtProp} (hfit : d.Fits size) (h : d.Contents o ps f o')
    (ho : o % 4 = 0) (hsize : o' ≤ size) (he : ∀ x ∈ e, 0 ≤ x) (hr : d.Walks (o', e) r) :
    ∃ y ys, (f.preorder 1).map (visit e) ++ [r] = y :: ys ∧ d.Walks (o, e) y ∧
      (y :: ys).IsChain d.Next := by
  induction h generalizing e r with
  | nil => exact ⟨r, [], rfl, hr, .singleton r⟩
  | nop htag h ih =>
    have hle := h.le
    obtain ⟨y, ys, heq, hwalk, hchain⟩ := ih (by omega) hsize he hr
    have hnext := hfit.nextTag_plain htag (.inr (.inr rfl)) ho (by omega)
    exact ⟨y, ys, heq, hwalk.skip (.inr rfl) hnext, hchain⟩
  | prop hp h ih =>
    obtain ⟨y, ys, heq, hwalk, hchain⟩ := ih (hp.next ▸ tagAlign_mod _) hsize he hr
    exact ⟨y, ys, heq, hwalk.skip (.inl rfl) (hp.nextTag hfit (h.le.trans hsize)), hchain⟩
  | @node o name o₁ ps c o₂ s o' hb hc hend hs ihc ihs =>
    have ho₁ : o₁ % 4 = 0 := hb.next ▸ tagAlign_mod _
    have ho₂ := hc.mod ho₁
    have hle := hs.le
    have hlec := hc.le
    -- the siblings come after the end of the node
    obtain ⟨y, ys, heq, hwalk, hchain⟩ := ihs (by omega) hsize he hr
    have hend' := hfit.nextTag_plain hend (.inr (.inl rfl)) ho₂ (by omega)
    have he' : ∀ x ∈ e.map (· + 1), 0 ≤ x := by
      intro x hx
      obtain ⟨w, hw, rfl⟩ := Option.mem_map.1 hx
      have := he w hw
      omega
    obtain ⟨z, zs, heqc, hwalkc, hchainc⟩ := ihc ho₁ (by omega) he' (hwalk.endNode he hend')
    have hbegin := hb.nextTag hfit (by omega)
    refine ⟨visit e (⟨o, name, ps⟩, 1), _, List.cons_append .., ?_, ?_⟩
    · exact Walks.beginNode hbegin
    · have hsplit : (c.preorder 1).map (visit (e.map (· + 1))) ++ y :: ys = z :: (zs ++ ys) := by
        rw [List.append_cons, heqc, List.cons_append]
      have hfirst : d.Next (o, e.map (· + 1)) z := Next.of_begin ho hbegin hwalkc
      rw [List.map_append, visit_succ, List.append_assoc, heq]
      have hjoin := List.isChain_split.2 ⟨heqc ▸ hchainc, hchain⟩
      rw [hsplit] at hjoin ⊢
      exact List.isChain_cons_cons.2 ⟨hfirst, hjoin⟩

/-- A node in a block, and then the nodes below it. -/
theorem Fdt.SubtreeAt.chain {o₁ o₂ : Nat} (h : d.SubtreeAt n c o₁ o₂) (hfit : d.Fits size)
    (hsize : o₂ + 4 ≤ size) (he : ∀ x ∈ e, 0 ≤ x) (hr : d.Walks (o₂, e) r) :
    (((n.offset : Int), e) :: ((c.preorder 1).map (visit e) ++ [r])).IsChain d.Next := by
  have ho₁ : o₁ % 4 = 0 := h.begins.next ▸ tagAlign_mod _
  have hle := h.contents.le
  obtain ⟨y, ys, heq, hwalk, hchain⟩ := h.contents.chain hfit ho₁ (by omega) he hr
  have hfirst := Next.of_begin h.aligned (h.begins.nextTag hfit (by omega)) hwalk
  rw [heq]
  exact List.isChain_cons_cons.2 ⟨hfirst, hchain⟩

section
variable {stop : Nat}

/-- Any node of the tree is in the block. -/
theorem Fdt.IsTree.subtreeAt (h : d.IsTree root c stop) {c' : Forest DtNode}
    (hn : Forest.Occurs n c' (.node root c .nil)) :
    ∃ o₁ o₂, d.SubtreeAt n c' o₁ o₂ ∧ o₂ + 4 ≤ stop + 4 := by
  obtain ⟨o₁, o₂, hsub, hle⟩ := h.contents.subtreeAt rfl hn
  exact ⟨o₁, o₂, hsub, by omega⟩

/-- The walk through the whole tree. -/
theorem Fdt.IsTree.chain (h : d.IsTree root c stop) {x : Int} (hx : x < 0) (he : ∀ x ∈ e, 0 ≤ x) :
    ((x, e) :: (((Forest.node root c .nil).preorder 1).map (visit e) ++
      [(-fdtErrNotfound, e)])).IsChain d.Next := by
  have hend := h.fits.nextTag_plain h.end_tag (.inl rfl) (h.contents.mod rfl) le_rfl
  obtain ⟨y, ys, heq, hwalk, hchain⟩ := h.contents.chain h.fits rfl (Nat.le_add_right ..) he
    (Walks.end_ (Int.natCast_nonneg _) hend)
  rw [heq]
  exact List.isChain_cons_cons.2 ⟨.of_neg hx hwalk, hchain⟩

/-- The walk through the nodes below one. -/
theorem Fdt.IsTree.chain_below (h : d.IsTree root c stop) {c' : Forest DtNode}
    (hn : Forest.Occurs n c' (.node root c .nil)) :
    ∃ o : Nat, (((n.offset : Int), some 0) :: ((c'.preorder 1).map (visit (some 0)) ++
      [((o : Int), some (-1))])).IsChain d.Next := by
  obtain ⟨o₁, o₂, hsub, hle⟩ := h.subtreeAt hn
  have ho₁ : o₁ % 4 = 0 := hsub.begins.next ▸ tagAlign_mod _
  have hend := h.fits.nextTag_plain hsub.end_node (.inr (.inl rfl)) (hsub.contents.mod ho₁) hle
  exact ⟨o₂ + 4, hsub.chain h.fits hle (by simp) (Walks.endStart hend)⟩

/-- **`fdt_next_node` goes through a tree in preorder**, and `*depth` follows the levels. From a
negative offset it starts at the root and ends with `-FDT_ERR_NOTFOUND`; from a node at depth `0` it
goes through the nodes below and ends with a negative depth. -/
theorem fdtNextNode_preorder (h : d.IsTree root c stop) :
    (∀ x < 0, ∀ e : Option Int, (∀ k ∈ e, 0 ≤ k) →
      ((x, e) :: (((Forest.node root c .nil).preorder 1).map (visit e) ++
        [(-fdtErrNotfound, e)])).IsChain d.Next) ∧
    ∀ n c', Forest.Occurs n c' (.node root c .nil) →
      ∃ o : Nat, (((n.offset : Int), some 0) :: ((c'.preorder 1).map (visit (some 0)) ++
        [((o : Int), some (-1))])).IsChain d.Next :=
  ⟨fun _ hx _ he => h.chain hx he, fun _ _ hn => h.chain_below hn⟩

theorem fdtNextNode_preorder_small :
    (∀ x < 0, ∀ e : Option Int, (∀ k ∈ e, 0 ≤ k) →
      ((x, e) :: (((Forest.node smallDtb.rootNode smallDtb.childNodes .nil).preorder 1).map
        (visit e) ++ [(-fdtErrNotfound, e)])).IsChain (smallDtb.load 0x83000000).Next) ∧
    ∀ n c', Forest.Occurs n c' (.node smallDtb.rootNode smallDtb.childNodes .nil) →
      ∃ o : Nat, (((n.offset : Int), some 0) :: ((c'.preorder 1).map (visit (some 0)) ++
        [((o : Int), some (-1))])).IsChain (smallDtb.load 0x83000000).Next :=
  fdtNextNode_preorder smallDtb_written.isTree

end

end

end ShieldLoader
