import ShieldLoader.Fdt.Path

/-!
# Depths and paths of nodes

The functions that walk from the root to a node find its depth, the nodes above it and its path.
-/

namespace ShieldLoader

open Fuel Fdt

section
variable {d : Fdt} {o o' : Nat} {root n : DtNode} {c f : Forest DtNode} {stop : Nat}

/-! ### The order of the offsets -/

/-- Nodes are at the offsets of their contents, in preorder. -/
theorem Fdt.Contents.sorted {ps : List DtProp} (h : d.Contents o ps f o') :
    (∀ n ∈ f.labels, o ≤ n.offset ∧ n.offset < o') ∧
      f.labels.Pairwise fun m n => m.offset < n.offset := by
  induction h with
  | nil => exact ⟨fun _ hn => absurd hn List.not_mem_nil, .nil⟩
  | nop _ _ ih =>
    refine ⟨fun n hn => ?_, ih.2⟩
    have := ih.1 n hn
    omega
  | prop hp _ ih =>
    have hle := hp.le
    refine ⟨fun n hn => ?_, ih.2⟩
    have := ih.1 n hn
    omega
  | @node o name o₁ ps c o₂ s o' hb hc hend hs ihc ihs =>
    have hle := hb.le
    have hlec := hc.le
    have hles := hs.le
    rw [Forest.labels_node]
    constructor
    · intro n hn
      rw [List.mem_cons, List.mem_append] at hn
      rcases hn with rfl | hn | hn
      · exact ⟨le_rfl, by dsimp only; omega⟩
      · have := ihc.1 n hn
        omega
      · have := ihs.1 n hn
        omega
    · refine List.pairwise_cons.2 ⟨fun n hn => ?_, List.pairwise_append.2 ⟨ihc.2, ihs.2, ?_⟩⟩
      · rcases List.mem_append.1 hn with hn | hn
        · have := ihc.1 n hn
          dsimp only
          omega
        · have := ihs.1 n hn
          dsimp only
          omega
      · intro m hm n hn
        have := ihc.1 m hm
        have := ihs.1 n hn
        omega

/-! ### Walking to a node -/

/-- The visit of a node that is reached through others. -/
def arrive (x : List DtNode × DtNode) : Int × Option Int := (x.2.offset, some (x.1.length : Int))

theorem map_visit_zero (f : Forest DtNode) :
    (f.preorder 0).map (visit (some 0)) = (f.lineages []).map arrive := by
  rw [show f.preorder 0 = f.preorder ([] : List DtNode).length from rfl, f.preorder_lineages,
    List.map_map]
  refine List.map_congr_left fun x _ => ?_
  simp only [Function.comp_apply, visit, arrive, Option.map_some, Int.zero_add]

/-- From the root at depth `0`. -/
theorem Fdt.IsTree.chain_root (h : d.IsTree root c stop) : ∃ r,
    (((Forest.node root c .nil).lineages []).map arrive ++ [r]).IsChain d.Next := by
  obtain ⟨o, hchain⟩ := h.chain_below .here
  refine ⟨((o : Int), some (-1)), ?_⟩
  rw [← map_visit_zero, Forest.preorder, Forest.preorder, List.append_nil, List.map_cons,
    List.cons_append]
  exact hchain

/-- The nodes are visited in the order of their offsets. -/
theorem Fdt.IsTree.sorted_lineages (h : d.IsTree root c stop) :
    ((Forest.node root c .nil).lineages []).Pairwise fun x y => x.2.offset < y.2.offset := by
  have hsorted := h.contents.sorted.2
  rw [← Forest.labels_lineages [], List.pairwise_map] at hsorted
  exact hsorted

/-! ### Depths -/

section
variable {u : List DtNode} {j : Nat}

/-- The supernode is the one of these nodes, if there is one. -/
def SupernodeIn (j : Nat) (l : List DtNode) (sup : Int) : Prop := ∀ m ∈ l[j]?, sup = m.offset

theorem SupernodeIn.front {l l' : List DtNode} {sup : Int} (h : SupernodeIn j l sup)
    (hpre : l' <+: l) : SupernodeIn j l' sup := by
  obtain ⟨t, rfl⟩ := hpre
  intro m hm
  obtain ⟨hlt, -⟩ := List.getElem?_eq_some_iff.1 hm
  exact h m (by rwa [List.getElem?_append_left hlt])

theorem SupernodeIn.concat {l : List DtNode} {sup : Int} (h : SupernodeIn j l sup) (m : DtNode) :
    SupernodeIn j (l ++ [m]) (if (l.length : Int) = j then (m.offset : Int) else sup) := by
  intro m' hm'
  by_cases hj : l.length = j
  · rw [if_pos (by omega)]
    subst hj
    rw [List.getElem?_concat_length, Option.mem_some_iff] at hm'
    rw [hm']
  · rw [if_neg (by omega)]
    refine h m' ?_
    have hlt : j < l.length := by
      have := (List.getElem?_eq_some_iff.1 hm').1
      rw [List.length_append, List.length_singleton] at this
      omega
    rwa [List.getElem?_append_left hlt] at hm'

/-- The loop of `fdt_supernode_atdepth_offset` ends at the given node. -/
theorem fdtSupernodeAtdepthOffset.loop_here {sup : Int} (hsup : SupernodeIn j u sup) :
    Yields (fun fuel => loop (fdtSupernodeAtdepthOffset.turn d n.offset j) fuel
        (n.offset, u.length, sup)) (foundOffset (u ++ [n])[j]?, some u.length) := by
  refine Yields.loop_done (.const fun fuel => ?_)
  have hgo : (0 : Int) ≤ n.offset ∧ (n.offset : Int) ≤ n.offset := by omega
  have hafter := hsup.concat n
  rw [turn, if_pos hgo, if_pos rfl]
  dsimp only
  cases hj : (u ++ [n])[j]? with
  | none =>
    have hlen := List.getElem?_eq_none_iff.1 hj
    rw [List.length_append, List.length_singleton] at hlen
    rw [if_pos (by omega)]
    rfl
  | some m =>
    have hlen := (List.getElem?_eq_some_iff.1 hj).1
    rw [List.length_append, List.length_singleton] at hlen
    rw [if_neg (by omega), hafter m hj]
    rfl

/-- From a node on the way, the loop goes on to the given one. -/
theorem fdtSupernodeAtdepthOffset.loop_find {xs : List (List DtNode × DtNode)}
    {x : List DtNode × DtNode} {r : Int × Option Int} {sup : Int} (hn : (u, n) ∈ x :: xs)
    (hsorted : (x :: xs).Pairwise fun x y => x.2.offset < y.2.offset)
    (hfollows : (x :: xs).IsChain Forest.Follows)
    (hchain : ((x :: xs).map arrive ++ [r]).IsChain d.Next) (hsup : SupernodeIn j x.1 sup) :
    Yields (fun fuel => loop (fdtSupernodeAtdepthOffset.turn d n.offset j) fuel
        (x.2.offset, x.1.length, sup)) (foundOffset (u ++ [n])[j]?, some u.length) := by
  induction xs generalizing x sup with
  | nil =>
    obtain rfl := List.mem_singleton.1 hn
    exact loop_here hsup
  | cons y ys ih =>
    cases List.mem_cons.1 hn with
    | inl hx =>
      obtain rfl := hx
      exact loop_here hsup
    | inr hys =>
      have hlt : x.2.offset < n.offset := List.rel_of_pairwise_cons hsorted hys
      obtain ⟨hfollow, hfollows⟩ := List.isChain_cons_cons.1 hfollows
      obtain ⟨hnext, hchain⟩ := List.isChain_cons_cons.1 hchain
      have hrest := ih hys hsorted.of_cons hfollows hchain ((hsup.concat x.2).front hfollow)
      refine Yields.loop_next ((hnext.map fun r =>
        Turn.next (r.1, r.2.getD x.1.length, _)).congr fun fuel => ?_) hrest
      have hgo : (0 : Int) ≤ x.2.offset ∧ (x.2.offset : Int) ≤ n.offset := by omega
      have hne : (x.2.offset : Int) ≠ n.offset := by omega
      rw [turn, if_pos hgo, if_neg hne]
      rfl

/-- `fdt_supernode_atdepth_offset`. -/
theorem Fdt.IsTree.supernode (h : d.IsTree root c stop)
    (hn : (u, n) ∈ (Forest.node root c .nil).lineages []) (j : Nat) :
    Yields (fun fuel => fdtSupernodeAtdepthOffset d fuel n.offset j)
      (foundOffset (u ++ [n])[j]?, some u.length) := by
  obtain ⟨r, hchain⟩ := h.chain_root
  have hloop := fdtSupernodeAtdepthOffset.loop_find hn h.sorted_lineages
    (Forest.isChain_lineages (.node root c .nil)) hchain
    (show SupernodeIn j [] (-fdtErrInternal) from fun m hm => by simp at hm)
  rw [h.offset] at hloop
  have hno : ¬(j : Int) < 0 := by omega
  refine hloop.congr fun fuel => ?_
  rw [fdtSupernodeAtdepthOffset, if_neg (not_not_intro h.header), if_neg hno]
  rfl

/-- The first node on the way is the root. -/
theorem head_lineage (hn : (u, n) ∈ (Forest.node root c .nil).lineages []) :
    (u ++ [n])[0]? = some root := by
  rw [Forest.lineages, Forest.lineages, List.append_nil, List.mem_cons] at hn
  rcases hn with heq | hn
  · obtain ⟨rfl, rfl⟩ := Prod.mk.inj heq
    rfl
  · obtain ⟨t, rfl, -⟩ := Forest.exists_of_mem_lineages hn
    rfl

theorem Fdt.IsTree.nodeDepth (h : d.IsTree root c stop)
    (hn : (u, n) ∈ (Forest.node root c .nil).lineages []) :
    Yields (fun fuel => fdtNodeDepth d fuel n.offset) u.length := by
  have hzero := h.supernode hn 0
  rw [head_lineage hn] at hzero
  have hroot : foundOffset (some root) = 0 := by
    show (root.offset : Int) = 0
    rw [h.offset]
    rfl
  rw [hroot] at hzero
  exact hzero.map_eq (if_neg (not_not_intro rfl))

theorem Fdt.IsTree.parent (h : d.IsTree root c stop)
    (hn : (u, n) ∈ (Forest.node root c .nil).lineages []) :
    Yields (fun fuel => fdtParentOffset d fuel n.offset) (foundOffset u.getLast?) := by
  have hno : ¬(u.length : Int) < 0 := by omega
  refine (h.nodeDepth hn).bind (g := fun nodedepth fuel => if nodedepth < 0 then some nodedepth
    else (fdtSupernodeAtdepthOffset d fuel n.offset (nodedepth - 1)).map Prod.fst) ?_
  simp only [if_neg hno]
  cases u with
  | nil =>
    refine .const fun fuel => ?_
    rw [fdtSupernodeAtdepthOffset, if_neg (not_not_intro h.header)]
    rfl
  | cons a u =>
    have hlast : (a :: u ++ [n])[u.length]? = (a :: u).getLast? := by
      rw [List.getElem?_append_left (by simp), List.getLast?_eq_getElem?]
      rfl
    have hsuper := (h.supernode hn u.length).map Prod.fst
    rw [hlast] at hsuper
    rwa [List.length_cons, Nat.cast_add_one, Int.add_sub_cancel]

/-- **The functions on depths find the nodes above a node**: its depth is their number, the one at a
depth is the one that stands there, and the parent is the last one. The root has no parent, and there
is nothing at larger depths. -/
theorem fdtNodeDepth_lineage (h : d.IsTree root c stop)
    (hn : (u, n) ∈ (Forest.node root c .nil).lineages []) :
    Yields (fun fuel => fdtNodeDepth d fuel n.offset) u.length ∧
      (∀ j : Nat, Yields (fun fuel => fdtSupernodeAtdepthOffset d fuel n.offset j)
        (foundOffset (u ++ [n])[j]?, some u.length)) ∧
      Yields (fun fuel => fdtParentOffset d fuel n.offset) (foundOffset u.getLast?) :=
  ⟨h.nodeDepth hn, h.supernode hn, h.parent hn⟩

end

end

theorem fdtNodeDepth_lineage_small :
    Yields (fun fuel => fdtNodeDepth (smallDtb.load 0x83000000) fuel smallChosen.offset) 1 ∧
      (∀ j : Nat, Yields (fun fuel =>
          fdtSupernodeAtdepthOffset (smallDtb.load 0x83000000) fuel smallChosen.offset j)
        (foundOffset ([smallDtb.rootNode, smallChosen])[j]?, some 1)) ∧
      Yields (fun fuel => fdtParentOffset (smallDtb.load 0x83000000) fuel smallChosen.offset)
        (foundOffset (some smallDtb.rootNode)) :=
  fdtNodeDepth_lineage smallDtb_written.isTree (u := [smallDtb.rootNode]) (by decide +kernel)

end ShieldLoader
