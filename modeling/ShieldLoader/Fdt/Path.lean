import ShieldLoader.Fdt.Search

/-!
# Names and paths

A node is looked for by its name among the children of another one or behind it, and by the names on
the way from the root.
-/

namespace ShieldLoader

open Fuel Fdt

/-! ### Names -/

/-- The node is called `s`: this is the name, or the name without the unit address. -/
def DtNode.named (s : List UInt8) (n : DtNode) : Bool :=
  decide (n.name = s ∨ '@'.toNat.toUInt8 ∉ s ∧ s ++ ['@'.toNat.toUInt8] <+: n.name)

theorem DtNode.prefix_of_named {s : List UInt8} {n : DtNode} (h : n.named s = true) :
    s <+: n.name := by
  rcases of_decide_eq_true h with h | ⟨-, h⟩
  · rw [h]
  · exact (List.prefix_append ..).trans h

section
variable {d : Fdt} {size o' : Nat} {n root : DtNode} {c c' : Forest DtNode} {s : List UInt8}
  {stop : Nat}

theorem fdtOffsetPtr_eq {offset : Int} {len : UInt32} {p : UInt64}
    (h : fdtOffsetPtr d offset len = some p) : p = fdtStructPtr d offset := by
  rw [fdtOffsetPtr] at h
  dsimp only at h
  split_ifs at h
  exact (Option.some.inj h).symm

/-- `_fdt_nodename_eq`. -/
theorem Fdt.BeginAt.nodenameEq (hfit : d.Fits size) (h : d.BeginAt n.offset n.name o')
    (hsize : o' ≤ size) (hs : 0 ∉ s) : fdtNodenameEq d n.offset s = n.named s := by
  have hlt := hfit.size_lt
  have hle := le_tagAlign (n.offset + 4 + (n.name.length + 1))
  have hnext := h.next
  have hcast : castInt ((n.offset : Int) + 4) = (n.offset + 4 : Nat) :=
    castInt_of_lt (by omega) (by omega)
  rw [fdtNodenameEq, hcast]
  have hold := h.text.holds
  by_cases hpre : s <+: n.name
  · obtain ⟨t, ht⟩ := hpre
    have hlen := congrArg List.length ht
    rw [List.length_append] at hlen
    have hone : (UInt32.ofNat (s.length + 1)).toNat = s.length + 1 := by
      rw [UInt32.toNat_ofNat']
      omega
    rw [hfit.offsetPtr (by omega)]
    dsimp only
    rw [← ht, List.append_assoc, Memory.holds_append] at hold
    rw [if_neg (not_not_intro hold.1.slice_eq)]
    rw [DtNode.named, ← ht]
    cases t with
    | nil =>
      have hzero := (Memory.holds_cons.1 hold.2).1
      rw [hzero]
      simp
    | cons b t =>
      have hb := (Memory.holds_cons.1 hold.2).1
      have hne : b ≠ 0 := fun h0 => h.text.zero_notMem (by rw [← ht, h0]; simp)
      rw [hb]
      simp [hne, List.prefix_append_right_inj, List.cons_prefix_cons, eq_comm]
  · have hno : n.named s = false := by
      cases hnamed : n.named s with
      | false => rfl
      | true => exact absurd (DtNode.prefix_of_named hnamed) hpre
    rw [hno]
    cases hptr : fdtOffsetPtr d (n.offset + 4 : Nat) (UInt32.ofNat (s.length + 1)) with
    | none => rfl
    | some p =>
      rw [fdtOffsetPtr_eq hptr]
      dsimp only
      rw [if_pos]
      intro hslice
      by_cases hlong : s.length ≤ n.name.length
      · refine hpre ?_
        rw [← hslice]
        exact slice_prefix (Memory.holds_append.1 hold).1 hlong
      · obtain ⟨k, hk⟩ := Nat.exists_eq_add_of_lt (not_le.1 hlong)
        rw [show s.length = (n.name ++ [0]).length + k by simp; omega, Memory.slice_add,
          hold.slice_eq] at hslice
        exact hs (hslice ▸ by simp)

theorem Fdt.IsTree.nodenameEq (h : d.IsTree root c stop)
    (hn : Forest.Occurs n c' (.node root c .nil)) (hs : 0 ∉ s) :
    fdtNodenameEq d n.offset s = n.named s := by
  obtain ⟨o₁, o₂, hsub, hle⟩ := h.subtreeAt hn
  have hle' := hsub.contents.le
  exact hsub.begins.nodenameEq h.fits (by omega) hs

/-! ### Children and siblings -/

/-- A node at depth `1` with the name. -/
def namedChild (s : List UInt8) (x : DtNode × Nat) : Bool := decide (x.2 = 1) && x.1.named s

/-- The loop stops at such a node, and goes on from any other one. -/
theorem fdtNamed.loop_node {x : DtNode × Nat} {least : Nat} {y : Int × Option Int} {z : Int}
    (hname : fdtNodenameEq d x.1.offset s = x.1.named s) (hleast : least ≤ x.2)
    (hnext : d.Next (x.1.offset, some (x.2 : Int)) y)
    (hrest : Yields (fun fuel => loop (fdtNamed.turn d least s) fuel (y.1, y.2.getD x.2)) z) :
    Yields (fun fuel => loop (fdtNamed.turn d least s) fuel (x.1.offset, x.2))
      (if namedChild s x then x.1.offset else z) := by
  have hgo : (0 : Int) ≤ x.1.offset ∧ (least : Int) ≤ x.2 := by omega
  have hcond : ((x.2 : Int) = 1 ∧ fdtNodenameEq d x.1.offset s = true) ↔ namedChild s x = true := by
    rw [hname, namedChild, Bool.and_eq_true, decide_eq_true_iff]
    exact and_congr_left' Nat.cast_eq_one
  by_cases hx : namedChild s x = true
  · rw [if_pos hx]
    refine Yields.loop_done (.const fun fuel => ?_)
    rw [fdtNamed.turn, if_pos hgo, if_pos (hcond.2 hx)]
  · rw [if_neg hx]
    refine Yields.loop_next ((hnext.map fun r => Turn.next (r.1, r.2.getD x.2)).congr fun fuel => ?_) hrest
    rw [fdtNamed.turn, if_pos hgo, if_neg (mt hcond.1 hx)]

/-- The loop looks for the first node at depth `1` with the name. -/
theorem fdtNamed.loop_find {xs : List (DtNode × Nat)} {least : Nat} {o k : Int}
    (hname : ∀ x ∈ xs, fdtNodenameEq d x.1.offset s = x.1.named s)
    (hleast : ∀ x ∈ xs, least ≤ x.2) {y : Int × Option Int} {ys : List (Int × Option Int)}
    (heq : xs.map (visit (some 0)) ++ [(o, some (-1))] = y :: ys) (hchain : (y :: ys).IsChain d.Next) :
    Yields (fun fuel => loop (fdtNamed.turn d least s) fuel (y.1, y.2.getD k))
      (foundOffset ((xs.find? (namedChild s)).map Prod.fst)) := by
  induction xs generalizing y ys k with
  | nil =>
    obtain ⟨rfl, rfl⟩ := List.cons.inj heq
    have hstop : ¬((0 : Int) ≤ o ∧ (least : Int) ≤ -1) := by omega
    exact Yields.loop_done (.const fun fuel => if_neg hstop)
  | cons x xs ih =>
    obtain ⟨y', ys', heq'⟩ := List.exists_cons_of_ne_nil
      (show xs.map (visit (some 0)) ++ [(o, some (-1))] ≠ [] by simp)
    rw [List.map_cons, List.cons_append, heq', visit, Option.map_some, Int.zero_add] at heq
    obtain ⟨rfl, rfl⟩ := List.cons.inj heq
    obtain ⟨hnext, hchain⟩ := List.isChain_cons_cons.1 hchain
    have hrest := ih (k := x.2) (fun z hz => hname z (.tail _ hz)) (fun z hz => hleast z (.tail _ hz))
      heq' hchain
    have hloop := loop_node (hname x (.head _)) (hleast x (.head _)) hnext hrest
    rw [List.find?_cons]
    cases hx : namedChild s x with
    | true => rwa [hx, if_pos rfl] at hloop
    | false => rwa [hx, if_neg Bool.false_ne_true] at hloop

theorem Fdt.IsTree.nodenameEq_below (h : d.IsTree root c stop)
    (hn : Forest.Occurs n c' (.node root c .nil)) (hs : 0 ∉ s) {x : DtNode × Nat}
    (hx : x ∈ c'.preorder 1) : fdtNodenameEq d x.1.offset s = x.1.named s := by
  obtain ⟨_, hx⟩ := Forest.exists_occurs (Forest.mem_labels_of_preorder hx)
  exact h.nodenameEq (hn.trans hx) hs

/-- `fdt_subnode_offset_namelen` finds the first child with the name. -/
theorem Fdt.IsTree.subnode (h : d.IsTree root c stop)
    (hn : Forest.Occurs n c' (.node root c .nil)) (hs : 0 ∉ s) :
    Yields (fun fuel => fdtSubnodeOffsetNamelen d fuel n.offset s)
      (foundOffset ((c'.roots.find? fun x => x.1.named s).map Prod.fst)) := by
  obtain ⟨o, hchain⟩ := h.chain_below hn
  have hname : ∀ x ∈ (n, 0) :: c'.preorder 1, fdtNodenameEq d x.1.offset s = x.1.named s := by
    intro x hx
    cases List.mem_cons.1 hx with
    | inl hx => exact hx ▸ h.nodenameEq hn hs
    | inr hx => exact h.nodenameEq_below hn hs hx
  have hloop := fdtNamed.loop_find (k := 0) hname
    (show ∀ x ∈ (n, 0) :: c'.preorder 1, 0 ≤ x.2 from fun _ _ => Nat.zero_le _) rfl hchain
  have hfind : ((n, 0) :: c'.preorder 1).find? (namedChild s) =
      (c'.roots.find? fun x => x.1.named s).map fun x => (x.1, 1) := by
    rw [List.find?_cons_of_neg (by simp [namedChild]), c'.preorder_roots]
    exact Forest.find?_level _ 1 _
  rw [hfind, Option.map_map] at hloop
  refine hloop.congr fun fuel => ?_
  rw [fdtSubnodeOffsetNamelen, if_neg (not_not_intro h.header)]
  rfl

/-- `fdt_sibling_offset_namelen` finds the next node with the name and the same parent. -/
theorem Fdt.IsTree.sibling (h : d.IsTree root c stop) {m : DtNode} {cm : Forest DtNode}
    {pre post : List (DtNode × Forest DtNode)} (hm : Forest.Occurs m cm (.node root c .nil))
    (hsplit : cm.roots = pre ++ (n, c') :: post) (hs : 0 ∉ s) :
    Yields (fun fuel => fdtSiblingOffsetNamelen d fuel n.offset s)
      (foundOffset ((post.find? fun x => x.1.named s).map Prod.fst)) := by
  obtain ⟨o, hchain⟩ := h.chain_below hm
  have hrows : cm.preorder 1 = pre.flatMap (fun x => (x.1, 1) :: x.2.preorder 2) ++
      (n, 1) :: (c'.preorder 2 ++ post.flatMap fun x => (x.1, 1) :: x.2.preorder 2) := by
    rw [cm.preorder_roots, hsplit, List.flatMap_append, List.flatMap_cons, List.cons_append]
  generalize hrest : c'.preorder 2 ++ post.flatMap (fun x => (x.1, 1) :: x.2.preorder 2) = rest
    at hrows
  have hmem : ∀ x ∈ rest, x ∈ cm.preorder 1 := fun x hx => by
    rw [hrows]
    exact List.mem_append_right _ (.tail _ hx)
  rw [hrows, List.map_append, List.append_assoc, ← List.cons_append] at hchain
  have hchain := (List.isChain_append.1 hchain).2.1
  obtain ⟨y, ys, heq⟩ := List.exists_cons_of_ne_nil
    (show rest.map (visit (some 0)) ++ [((o : Int), some (-1))] ≠ [] by simp)
  rw [List.map_cons, List.cons_append, heq] at hchain
  obtain ⟨hnext, hchain⟩ := List.isChain_cons_cons.1 hchain
  have hloop := fdtNamed.loop_find (k := 1) (fun x hx => h.nodenameEq_below hm hs (hmem x hx))
    (show ∀ x ∈ rest, 1 ≤ x.2 from fun x hx => Forest.le_of_mem_preorder (hmem x hx)) heq hchain
  have hbelow : (c'.preorder 2).find? (namedChild s) = none := by
    refine List.find?_eq_none.2 fun x hx => ?_
    have hle := Forest.le_of_mem_preorder hx
    rw [namedChild, decide_eq_false (by omega : ¬x.2 = 1)]
    exact Bool.false_ne_true
  have hfind : rest.find? (namedChild s) =
      (post.find? fun x => x.1.named s).map fun x => (x.1, 1) := by
    rw [← hrest, List.find?_append, hbelow, Option.none_or]
    exact Forest.find?_level _ 1 _
  rw [hfind, Option.map_map] at hloop
  refine (hnext.bind (g := fun r fuel => loop (fdtNamed.turn d 1 s) fuel (r.1, r.2.getD 1))
    hloop).congr fun fuel => ?_
  rw [fdtSiblingOffsetNamelen, if_neg (not_not_intro h.header)]
  rfl

/-- **A name is looked for among the children only**: `fdt_subnode_offset_namelen` finds the first
child that is called so, and `fdt_sibling_offset_namelen` the first one behind a given child. -/
theorem fdtSubnodeOffset_children (h : d.IsTree root c stop)
    (hn : Forest.Occurs n c' (.node root c .nil)) (hs : 0 ∉ s) :
    Yields (fun fuel => fdtSubnodeOffsetNamelen d fuel n.offset s)
        (foundOffset ((c'.roots.find? fun x => x.1.named s).map Prod.fst)) ∧
      ∀ pre m cm post, c'.roots = pre ++ (m, cm) :: post →
        Yields (fun fuel => fdtSiblingOffsetNamelen d fuel m.offset s)
          (foundOffset ((post.find? fun x => x.1.named s).map Prod.fst)) :=
  ⟨h.subnode hn hs, fun _ _ _ _ hsplit => h.sibling hn hsplit hs⟩

end

theorem fdtSubnodeOffset_children_small :
    Yields (fun fuel => fdtSubnodeOffsetNamelen (smallDtb.load 0x83000000) fuel
        smallDtb.rootNode.offset (bytes "memory"))
        (foundOffset ((smallDtb.childNodes.roots.find? fun x => x.1.named (bytes "memory")).map
          Prod.fst)) ∧
      ∀ pre m cm post, smallDtb.childNodes.roots = pre ++ (m, cm) :: post →
        Yields (fun fuel => fdtSiblingOffsetNamelen (smallDtb.load 0x83000000) fuel m.offset
            (bytes "memory"))
          (foundOffset ((post.find? fun x => x.1.named (bytes "memory")).map Prod.fst)) :=
  fdtSubnodeOffset_children smallDtb_written.isTree .here (by decide)

/-! ### Components -/

theorem dropWhile_head {α : Type*} {p : α → Bool} {xs ys : List α} {x : α}
    (h : xs.dropWhile p = x :: ys) : p x = false := by
  have hhead := List.head?_dropWhile_not p xs
  rwa [h] at hhead

/-- The names in a path: several slashes are as good as one. -/
def components (path : List UInt8) : List (List UInt8) :=
  (path.splitOn '/'.toNat.toUInt8).filter (· ≠ [])

theorem components_slash (path : List UInt8) :
    components ('/'.toNat.toUInt8 :: path) = components path := by
  have hsplit : ('/'.toNat.toUInt8 :: path).splitOn '/'.toNat.toUInt8 =
      [] :: path.splitOn '/'.toNat.toUInt8 :=
    List.splitOn_append_cons_self_of_not_mem List.not_mem_nil path
  rw [components, hsplit]
  rfl

theorem components_dropSlashes (path : List UInt8) :
    components (path.dropWhile (· = '/'.toNat.toUInt8)) = components path := by
  induction path with
  | nil => rfl
  | cons b path ih =>
    rw [List.dropWhile_cons]
    split_ifs with hb
    · rw [ih, of_decide_eq_true hb, components_slash]
    · rfl

/-- The first component, and the ones in what is behind it. -/
theorem components_cons {b : UInt8} {path : List UInt8} (hb : b ≠ '/'.toNat.toUInt8) :
    components (b :: path) = (b :: path).takeWhile (· ≠ '/'.toNat.toUInt8) ::
      components ((b :: path).dropWhile (· ≠ '/'.toNat.toUInt8)) := by
  have hsplit := List.takeWhile_append_dropWhile (p := (· ≠ '/'.toNat.toUInt8)) (l := b :: path)
  have hno : '/'.toNat.toUInt8 ∉ (b :: path).takeWhile (· ≠ '/'.toNat.toUInt8) := fun h => by
    simpa using List.mem_takeWhile_imp h
  have hne : (b :: path).takeWhile (· ≠ '/'.toNat.toUInt8) ≠ [] := by
    rw [List.takeWhile_cons_of_pos (by simpa using hb)]
    exact List.cons_ne_nil _ _
  cases hrest : (b :: path).dropWhile (· ≠ '/'.toNat.toUInt8) with
  | nil =>
    rw [hrest, List.append_nil] at hsplit
    rw [hsplit] at hno hne ⊢
    rw [components, List.splitOn_eq_singleton hno, List.filter_cons_of_pos (by simp)]
    rfl
  | cons x rest =>
    have hx : x = '/'.toNat.toUInt8 := by simpa using dropWhile_head hrest
    rw [hrest, hx] at hsplit
    rw [hx, components_slash]
    generalize (b :: path).takeWhile (· ≠ '/'.toNat.toUInt8) = t at *
    rw [← hsplit, components, List.splitOn_append_cons_self_of_not_mem hno,
      List.filter_cons_of_pos (by simpa using hne)]
    rfl

/-! ### Paths from the root -/

section
variable {d : Fdt} {n root : DtNode} {c c' : Forest DtNode} {path : List UInt8} {stop : Nat}

/-- What a path leads to from a node. -/
def along (path : List UInt8) (x : DtNode × Forest DtNode) : Option (DtNode × Forest DtNode) :=
  Forest.descend DtNode.named (components path) x

/-- From a node, the loop goes down the components. -/
theorem Fdt.IsTree.pathLoop (h : d.IsTree root c stop)
    (hn : Forest.Occurs n c' (.node root c .nil)) (hpath : 0 ∉ path) :
    Yields (fun fuel => loop (fdtPathOffset.turn d) fuel (path, n.offset))
      (foundOffset ((along path (n, c')).map Prod.fst)) := by
  induction hk : path.length using Nat.strong_induction_on generalizing path n c' with
  | _ k ih =>
    rw [along, ← components_dropSlashes]
    cases hp : path.dropWhile (· = '/'.toNat.toUInt8) with
    | nil =>
      refine Yields.loop_done (.const fun fuel => ?_)
      rw [fdtPathOffset.turn, hp]
      rfl
    | cons b p =>
      have hb : b ≠ '/'.toNat.toUInt8 := by simpa using dropWhile_head hp
      have hsub : ∀ x ∈ b :: p, x ∈ path := fun x hx =>
        (List.dropWhile_suffix _).subset (hp ▸ hx)
      have hle : (b :: p).length ≤ path.length := hp ▸ (List.dropWhile_suffix _).length_le
      have hturn (fuel : Nat) : fdtPathOffset.turn d fuel (path, n.offset) =
          (fdtSubnodeOffsetNamelen d fuel n.offset
            ((b :: p).takeWhile (· ≠ '/'.toNat.toUInt8))).map
              (fdtPathOffset.enter ((b :: p).dropWhile (· ≠ '/'.toNat.toUInt8))) := by
        rw [fdtPathOffset.turn, hp, if_neg (List.cons_ne_nil _ _)]
      rw [components_cons hb, Forest.descend]
      have hs : 0 ∉ (b :: p).takeWhile (· ≠ '/'.toNat.toUInt8) := fun h0 =>
        hpath (hsub 0 ((List.takeWhile_prefix _).subset h0))
      have hstep := ((h.subnode hn hs).map _).congr hturn
      dsimp only
      cases hfind : c'.roots.find? fun x =>
          x.1.named ((b :: p).takeWhile (· ≠ '/'.toNat.toUInt8)) with
      | none =>
        rw [hfind] at hstep
        exact Yields.loop_done hstep
      | some x =>
        rw [hfind] at hstep
        have hx := hn.trans (Forest.occurs_of_mem_roots (List.mem_of_find?_eq_some hfind))
        have hno : ¬(x.1.offset : Int) < 0 := by omega
        have hshort : ((b :: p).dropWhile (· ≠ '/'.toNat.toUInt8)).length < k := by
          rw [List.dropWhile_cons_of_pos (by simpa using hb), ← hk]
          exact ((List.dropWhile_suffix _).length_le).trans_lt hle
        have hrest := ih _ hshort hx
          (fun h0 => hpath (hsub 0 ((List.dropWhile_suffix _).subset h0))) rfl
        have henter : fdtPathOffset.enter ((b :: p).dropWhile (· ≠ '/'.toNat.toUInt8)) x.1.offset =
            .next (_, (x.1.offset : Int)) := if_neg hno
        exact Yields.loop_next (henter ▸ hstep) hrest

/-- `fdt_path_offset` for a path that starts at the root. -/
theorem Fdt.IsTree.pathOffset (h : d.IsTree root c stop) (hpath : 0 ∉ path)
    (habs : deref path = '/'.toNat.toUInt8) :
    Yields (fun fuel => fdtPathOffset d fuel path)
      (foundOffset ((along path (root, c)).map Prod.fst)) := by
  have hloop := h.pathLoop .here hpath
  rw [h.offset] at hloop
  refine Yields.of_succ (hloop.congr fun fuel => ?_)
  rw [fdtPathOffset, if_neg (not_not_intro h.header), if_neg (not_not_intro habs)]
  rfl

end

end ShieldLoader
