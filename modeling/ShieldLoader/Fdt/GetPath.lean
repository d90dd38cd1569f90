import ShieldLoader.Fdt.Depth

/-!
# Paths of nodes

`fdt_get_path` writes the names on the way to a node, and `fdt_path_offset` finds the node again.
-/

namespace ShieldLoader

open Fuel Fdt

/-! ### The buffer -/

/-- The names, each one with a slash behind it. -/
def pathBytes (l : List DtNode) : List UInt8 := l.flatMap fun n => n.name ++ ['/'.toNat.toUInt8]

/-- The path: the last slash is left out, but that of the root is not. -/
def pathText (l : List DtNode) : List UInt8 :=
  if 1 < (pathBytes l).length then (pathBytes l).dropLast else pathBytes l

/-- The number of names that there is room for. -/
def kept : Int → List DtNode → Nat
  | _, [] => 0
  | room, n :: l =>
    if n.name.length + 1 ≤ room then kept (room - (n.name.length + 1)) l + 1 else 0

section
variable {d : Fdt} {l : List DtNode} {n root : DtNode} {c : Forest DtNode} {room : Int} {stop : Nat}

theorem pathBytes_concat (l : List DtNode) (n : DtNode) :
    pathBytes (l ++ [n]) = pathBytes l ++ n.name ++ ['/'.toNat.toUInt8] := by
  rw [pathBytes, List.flatMap_append, List.flatMap_singleton, List.append_assoc]
  rfl

theorem length_pathBytes_cons (n : DtNode) (l : List DtNode) :
    (pathBytes (n :: l)).length = n.name.length + 1 + (pathBytes l).length := by
  rw [pathBytes, List.flatMap_cons, List.length_append, List.length_append, List.length_singleton]
  rfl

theorem kept_le (room : Int) (l : List DtNode) : kept room l ≤ l.length := by
  induction l generalizing room with
  | nil => exact le_rfl
  | cons n l ih =>
    rw [kept]
    split_ifs
    · exact Nat.succ_le_succ (ih _)
    · exact Nat.zero_le _

theorem kept_take (room : Int) (l : List DtNode) (q : Nat) :
    kept room (l.take q) = min (kept room l) q := by
  induction l generalizing room q with
  | nil =>
    rw [List.take_nil, kept, Nat.zero_min]
  | cons n l ih =>
    cases q with
    | zero => rw [List.take_zero, kept, Nat.min_zero]
    | succ q =>
      rw [List.take_succ_cons, kept, kept]
      split_ifs
      · rw [ih, Nat.succ_min_succ]
      · rw [Nat.zero_min]

/-- All names have room when their path has. -/
theorem kept_eq_length (hroom : 0 ≤ room) :
    kept room l = l.length ↔ (pathBytes l).length ≤ room := by
  induction l generalizing room with
  | nil => exact ⟨fun _ => hroom, fun _ => rfl⟩
  | cons n l ih =>
    rw [kept, length_pathBytes_cons, List.length_cons]
    split_ifs with hfits
    · rw [Nat.succ_inj, ih (by omega)]
      omega
    · exact iff_of_false not_false (by omega)

theorem kept_concat (hroom : 0 ≤ room) (l : List DtNode) (n : DtNode) : kept room (l ++ [n]) =
    if kept room l = l.length ∧ (pathBytes l).length + n.name.length + 1 ≤ room then l.length + 1
    else kept room l := by
  have hall := kept_eq_length (l := l ++ [n]) hroom
  have htake := kept_take room (l ++ [n]) l.length
  have hle := kept_le room (l ++ [n])
  rw [List.take_left] at htake
  simp only [pathBytes_concat, List.length_append, List.length_singleton] at hall hle
  have hle' := kept_le room l
  have hbefore := kept_eq_length (l := l) hroom
  split_ifs with hfits
  · exact hall.2 (by omega)
  · have hne : kept room (l ++ [n]) ≠ l.length + 1 := fun h => hfits (by
      have := hall.1 h
      omega)
    omega

/-! ### Going up -/

/-- What was in the buffer without the last name. -/
theorem dropComponent_concat (hslash : '/'.toNat.toUInt8 ∉ n.name) (l : List DtNode) :
    dropComponent (pathBytes (l ++ [n])) = pathBytes l := by
  have hname : ∀ x ∈ n.name.reverse, decide (x ≠ '/'.toNat.toUInt8) = true := fun x hx =>
    decide_eq_true fun heq => hslash (heq ▸ List.mem_reverse.1 hx)
  have hbefore : (pathBytes l).reverse.dropWhile (· ≠ '/'.toNat.toUInt8) = (pathBytes l).reverse := by
    induction l using List.reverseRecOn with
    | nil => rfl
    | append_singleton l m _ =>
      rw [pathBytes_concat, List.reverse_append]
      rfl
  rw [dropComponent, pathBytes_concat, List.reverse_append, List.reverse_append,
    List.reverse_singleton, List.singleton_append, List.tail_cons,
    List.dropWhile_append_of_pos hname, hbefore, List.reverse_reverse]

/-- `while (pdepth > depth)`. -/
theorem fdtGetPath.up_eq (hslash : ∀ m ∈ l, '/'.toNat.toUInt8 ∉ m.name) {k depth : Nat}
    (hk : k ≤ l.length) : fdtGetPath.up depth (k - depth) k (pathBytes (l.take k)) =
      (((min k depth : Nat) : Int), pathBytes (l.take (min k depth))) := by
  induction k with
  | zero =>
    rw [Nat.zero_sub, fdtGetPath.up, Nat.zero_min]
  | succ k ih =>
    by_cases hlt : depth < k + 1
    · have hback : dropComponent (pathBytes (l.take (k + 1))) = pathBytes (l.take k) := by
        rw [List.take_succ_eq_append_getElem hk]
        exact dropComponent_concat (hslash _ (List.getElem_mem _)) _
      have hmin : min (k + 1) depth = min k depth := by omega
      rw [Nat.succ_sub (by omega), fdtGetPath.up, if_pos (by omega), hback, Nat.cast_add_one,
        Int.add_sub_cancel, ih (by omega), hmin]
    · rw [Nat.sub_eq_zero_of_le (by omega), fdtGetPath.up, Nat.min_eq_left (by omega)]

/-! ### The loop -/

/-- `pdepth` and the buffer are those of these nodes. -/
structure GetPath.In (room : Int) (l : List DtNode) (pdepth : Int) (buf : List UInt8) : Prop where
  pdepth : pdepth = kept room l
  buf : buf = pathBytes (l.take (kept room l))

/-- Up to the nodes above the next one. -/
theorem GetPath.In.up {pdepth : Int} {buf : List UInt8} {u : List DtNode}
    (h : GetPath.In room l pdepth buf) (hslash : ∀ m ∈ l, '/'.toNat.toUInt8 ∉ m.name)
    (hpre : u <+: l) : fdtGetPath.up u.length (pdepth - u.length).toNat pdepth buf =
      ((kept room u : Int), pathBytes (u.take (kept room u))) := by
  have hu : l.take u.length = u := (List.prefix_iff_eq_take.1 hpre).symm
  have hmin : min (kept room l) u.length = kept room u := by rw [← kept_take, hu]
  have htake : l.take (kept room u) = u.take (kept room u) := by
    rw [← hu, List.take_take, hu, Nat.min_eq_left (kept_le room u)]
  rw [h.pdepth, h.buf, Int.toNat_sub, fdtGetPath.up_eq hslash (kept_le room l), hmin, htake]

/-- The next name, if there is room for it and for those before it. -/
theorem GetPath.In.concat {u : List DtNode} (hroom : 0 ≤ room) :
    GetPath.In room (u ++ [n]) (if kept room u = u.length ∧
        (pathBytes u).length + n.name.length + 1 ≤ room then kept room u + 1 else kept room u)
      (if kept room u = u.length ∧ (pathBytes u).length + n.name.length + 1 ≤ room
        then pathBytes (u ++ [n]) else pathBytes (u.take (kept room u))) := by
  have hkept := kept_concat hroom u n
  split_ifs at hkept ⊢ with hfits
  · constructor
    · rw [hkept, hfits.1]
      rfl
    · rw [hkept, List.take_of_length_le (by simp)]
  · refine ⟨by rw [hkept], ?_⟩
    rw [hkept, List.take_append_of_le_length (kept_le room u)]

/-- What a turn does before it looks whether the node is the given one. -/
theorem GetPath.In.turn {nodeoffset pdepth : Int} {buf : List UInt8} {u : List DtNode}
    (hroom : 0 ≤ room) (h : GetPath.In room l pdepth buf)
    (hslash : ∀ m ∈ l, '/'.toNat.toUInt8 ∉ m.name) (hpre : u <+: l)
    (hname : Yields (fun fuel => fdtGetName d fuel n.offset)
      (.ok (fdtStructPtr d n.offset + 4, n.name.length)))
    (htext : d.mem.Holds (fdtStructPtr d n.offset + 4) n.name) (hle : (n.offset : Int) ≤ nodeoffset) :
    ∃ pdepth' buf', GetPath.In room (u ++ [n]) pdepth' buf' ∧ ∀ r,
      Yields (fdtGetPath.react d nodeoffset ⟨n.offset, u.length, pdepth, buf⟩ (.ok (pdepth', buf'))) r →
      Yields (fun fuel => fdtGetPath.turn d nodeoffset room fuel ⟨n.offset, u.length, pdepth, buf⟩)
        r := by
  have hgo : (0 : Int) ≤ n.offset ∧ (n.offset : Int) ≤ nodeoffset := ⟨by omega, hle⟩
  have hstep (fuel : Nat) : fdtGetPath.turn d nodeoffset room fuel ⟨n.offset, u.length, pdepth, buf⟩ =
      (if (u.length : Int) ≤ kept room u then (fdtGetName d fuel n.offset).map fun name => name.map
          (fdtGetPath.push d room ((kept room u : Int), pathBytes (u.take (kept room u))))
        else some (.ok ((kept room u : Int), pathBytes (u.take (kept room u))))).bind fun r =>
          fdtGetPath.react d nodeoffset ⟨n.offset, u.length, pdepth, buf⟩ r fuel := by
    rw [fdtGetPath.turn, if_pos hgo]
    dsimp only
    rw [h.up hslash hpre]
  have hle := kept_le room u
  refine ⟨_, _, concat hroom, fun r hgoes => ?_⟩
  refine (Yields.bind (g := fdtGetPath.react d nodeoffset ⟨n.offset, u.length, pdepth, buf⟩)
    ?_ hgoes).congr hstep
  by_cases hall : kept room u = u.length
  · have hpush : fdtGetPath.push d room ((kept room u : Int), pathBytes (u.take (kept room u)))
        (fdtStructPtr d n.offset + 4, (n.name.length : Int)) =
          (if kept room u = u.length ∧ (pathBytes u).length + n.name.length + 1 ≤ room
            then (kept room u + 1 : Int) else kept room u,
          if kept room u = u.length ∧ (pathBytes u).length + n.name.length + 1 ≤ room
            then pathBytes (u ++ [n]) else pathBytes (u.take (kept room u))) := by
      rw [fdtGetPath.push, hall, List.take_length]
      dsimp only
      split_ifs with hfits hfits' hfits'
      · rw [Int.toNat_natCast, htext.slice_eq, pathBytes_concat]
      · exact absurd ⟨rfl, hfits⟩ hfits'
      · exact absurd hfits'.2 hfits
      · rfl
    rw [← hpush]
    exact (hname.map_eq rfl).congr fun fuel => if_pos (by omega)
  · refine .const fun fuel => ?_
    rw [if_neg (by omega), if_neg (fun h => hall h.1), if_neg (fun h => hall h.1)]

/-- What `fdt_get_path` returns for a node with these nodes on the way. -/
def pathResult (room : Int) (l : List DtNode) : Except Int (List UInt8) :=
  if (pathBytes l).length ≤ room then .ok (pathText l) else .error (-fdtErrNospace)

/-- At the given node. -/
theorem GetPath.In.react_here {pdepth pdepth' : Int} {buf buf' : List UInt8} {u : List DtNode}
    (hroom : 0 ≤ room) (h : GetPath.In room (u ++ [n]) pdepth' buf') :
    Yields (fdtGetPath.react d n.offset ⟨n.offset, u.length, pdepth, buf⟩ (.ok (pdepth', buf')))
      (.done (pathResult room (u ++ [n]))) := by
  refine .const fun fuel => ?_
  have hall := kept_eq_length (l := u ++ [n]) hroom
  have hle := kept_le room (u ++ [n])
  rw [List.length_append, List.length_singleton] at hall hle
  rw [fdtGetPath.react]
  dsimp only
  rw [if_pos rfl, h.pdepth, pathResult]
  by_cases hfits : kept room (u ++ [n]) = u.length + 1
  · have hbuf : buf' = pathBytes (u ++ [n]) := by
      rw [h.buf, hfits, List.take_of_length_le (by simp)]
    rw [if_neg (by omega), if_pos (hall.1 hfits), hbuf, pathText]
  · rw [if_pos (by omega), if_neg (mt hall.2 hfits)]

/-- The name of the node is where `fdt_get_name` says, and has no slash. -/
structure Fdt.NameAt (d : Fdt) (n : DtNode) : Prop where
  get : Yields (fun fuel => fdtGetName d fuel n.offset)
    (.ok (fdtStructPtr d n.offset + 4, n.name.length))
  holds : d.mem.Holds (fdtStructPtr d n.offset + 4) n.name
  slash : '/'.toNat.toUInt8 ∉ n.name

/-- From a node on the way, the loop goes on to the given one. -/
theorem fdtGetPath.loop_find {xs : List (List DtNode × DtNode)} {x : List DtNode × DtNode}
    {u : List DtNode} {r : Int × Option Int} {pdepth : Int} {buf : List UInt8} (hroom : 0 ≤ room)
    (hn : (u, n) ∈ x :: xs) (hsorted : (x :: xs).Pairwise fun x y => x.2.offset < y.2.offset)
    (hfollows : (x :: xs).IsChain Forest.Follows)
    (hchain : ((x :: xs).map arrive ++ [r]).IsChain d.Next) (hname : ∀ y ∈ x :: xs, d.NameAt y.2)
    (hin : GetPath.In room l pdepth buf) (hslash : ∀ m ∈ l, '/'.toNat.toUInt8 ∉ m.name)
    (hpre : x.1 <+: l) :
    Yields (fun fuel => loop (fdtGetPath.turn d n.offset room) fuel
        ⟨x.2.offset, x.1.length, pdepth, buf⟩) (pathResult room (u ++ [n])) := by
  induction xs generalizing x l pdepth buf with
  | nil =>
    obtain rfl := List.mem_singleton.1 hn
    have hat := hname _ (.head _)
    obtain ⟨_, _, hin', hturn⟩ := hin.turn hroom hslash hpre hat.get hat.holds le_rfl
    exact Yields.loop_done (hturn _ (hin'.react_here hroom))
  | cons y ys ih =>
    have hat := hname x (.head _)
    cases List.mem_cons.1 hn with
    | inl hx =>
      obtain rfl := hx
      obtain ⟨_, _, hin', hturn⟩ := hin.turn hroom hslash hpre hat.get hat.holds le_rfl
      exact Yields.loop_done (hturn _ (hin'.react_here hroom))
    | inr hys =>
      have hlt : x.2.offset < n.offset := List.rel_of_pairwise_cons hsorted hys
      have hne : ¬(x.2.offset : Int) = n.offset := by omega
      obtain ⟨hfollow, hfollows⟩ := List.isChain_cons_cons.1 hfollows
      obtain ⟨hnext, hchain⟩ := List.isChain_cons_cons.1 hchain
      obtain ⟨pdepth', buf', hin', hturn⟩ := hin.turn hroom hslash hpre
        hat.get hat.holds (show (x.2.offset : Int) ≤ n.offset by omega)
      have hslash' : ∀ m ∈ x.1 ++ [x.2], '/'.toNat.toUInt8 ∉ m.name := by
        intro m hm
        cases List.mem_append.1 hm with
        | inl hm => exact hslash m (hpre.subset hm)
        | inr hm => exact List.mem_singleton.1 hm ▸ hat.slash
      have hrest := ih hys hsorted.of_cons hfollows hchain (fun z hz => hname z (.tail _ hz)) hin'
        hslash' hfollow
      refine Yields.loop_next (hturn _ ((hnext.map fun next =>
        Turn.next ⟨next.1, next.2.getD x.1.length, pdepth', buf'⟩).congr fun fuel => ?_)) hrest
      rw [fdtGetPath.react]
      exact if_neg hne

/-! ### `fdt_get_path` -/

theorem Fdt.IsTree.nameAt (h : d.IsTree root c stop) {c' : Forest DtNode}
    (hn : Forest.Occurs n c' (.node root c .nil)) (hslash : '/'.toNat.toUInt8 ∉ n.name) :
    d.NameAt n := by
  obtain ⟨o₁, o₂, hsub, -⟩ := h.subtreeAt hn
  have hptr : fdtStructPtr d (n.offset + 4 : Nat) = fdtStructPtr d n.offset + 4 :=
    fdtStructPtr_add d n.offset 4
  exact ⟨h.getName hn, hptr ▸ (Memory.holds_append.1 hsub.begins.text.holds).1, hslash⟩

theorem Fdt.IsTree.getPath (h : d.IsTree root c stop) {u : List DtNode}
    (hslash : ∀ m ∈ (Forest.node root c .nil).labels, '/'.toNat.toUInt8 ∉ m.name)
    (hn : (u, n) ∈ (Forest.node root c .nil).lineages []) (hroom : 2 ≤ room) :
    Yields (fun fuel => fdtGetPath d fuel n.offset room) (pathResult room (u ++ [n])) := by
  obtain ⟨r, hchain⟩ := h.chain_root
  have hname : ∀ y ∈ (Forest.node root c .nil).lineages [], d.NameAt y.2 := by
    intro y hy
    have hmem : y.2 ∈ (Forest.node root c .nil).labels := by
      rw [← Forest.labels_lineages []]
      exact List.mem_map_of_mem hy
    obtain ⟨c', hocc⟩ := Forest.exists_occurs hmem
    exact h.nameAt hocc (hslash _ hmem)
  have hloop := fdtGetPath.loop_find (show 0 ≤ room by omega) hn h.sorted_lineages
    (Forest.isChain_lineages (.node root c .nil)) hchain hname
    (show GetPath.In room [] 0 [] from ⟨rfl, rfl⟩)
    (fun m hm => absurd hm List.not_mem_nil) List.prefix_rfl
  rw [h.offset] at hloop
  refine hloop.congr fun fuel => ?_
  rw [fdtGetPath, if_neg (not_not_intro h.header), if_neg (by omega)]
  rfl

/-! ### The names in a path -/

theorem components_name {s : List UInt8} (hs : s ≠ []) (hslash : '/'.toNat.toUInt8 ∉ s)
    (q : List UInt8) : components (s ++ '/'.toNat.toUInt8 :: q) = s :: components q := by
  obtain ⟨b, s, rfl⟩ := List.exists_cons_of_ne_nil hs
  have hall : ∀ x ∈ b :: s, decide (x ≠ '/'.toNat.toUInt8) = true := fun x hx =>
    decide_eq_true fun heq => hslash (heq ▸ hx)
  have hb : b ≠ '/'.toNat.toUInt8 := of_decide_eq_true (hall b (.head _))
  rw [List.cons_append, components_cons hb, ← List.cons_append, List.takeWhile_append_of_pos hall,
    List.dropWhile_append_of_pos hall, List.takeWhile_cons_of_neg (by simp),
    List.dropWhile_cons_of_neg (by simp), List.append_nil, components_slash]

theorem components_last {s : List UInt8} (hs : s ≠ []) (hslash : '/'.toNat.toUInt8 ∉ s) :
    components s = [s] := by
  obtain ⟨b, s, rfl⟩ := List.exists_cons_of_ne_nil hs
  have hall : ∀ x ∈ b :: s, decide (x ≠ '/'.toNat.toUInt8) = true := fun x hx =>
    decide_eq_true fun heq => hslash (heq ▸ hx)
  have htake := @List.takeWhile_append_of_pos _ _ (b :: s) [] hall
  have hdrop := @List.dropWhile_append_of_pos _ _ (b :: s) [] hall
  rw [List.append_nil] at htake hdrop
  rw [components_cons (of_decide_eq_true (hall b (.head _))), htake, hdrop]
  simp [components]

theorem components_pathBytes (hnames : ∀ m ∈ l, m.name ≠ [] ∧ '/'.toNat.toUInt8 ∉ m.name)
    (q : List UInt8) : components (pathBytes l ++ q) = l.map DtNode.name ++ components q := by
  induction l with
  | nil => rfl
  | cons m l ih =>
    have hm := hnames m (.head _)
    have hrest := ih fun m hm => hnames m (.tail _ hm)
    rw [pathBytes] at hrest ⊢
    rw [List.flatMap_cons, List.append_assoc, List.append_assoc, List.singleton_append,
      components_name hm.1 hm.2, hrest]
    rfl

/-- The path of a node below the root has the names below the root. -/
theorem components_pathText (hroot : root.name = [])
    (hnames : ∀ m ∈ l, m.name ≠ [] ∧ '/'.toNat.toUInt8 ∉ m.name) :
    deref (pathText (root :: l)) = '/'.toNat.toUInt8 ∧
      components (pathText (root :: l)) = l.map DtNode.name := by
  have hhead : pathBytes (root :: l) = '/'.toNat.toUInt8 :: pathBytes l := by
    rw [pathBytes, List.flatMap_cons, hroot]
    rfl
  induction l using List.reverseRecOn with
  | nil =>
    rw [pathText, hhead]
    exact ⟨rfl, rfl⟩
  | append_singleton l m _ =>
    have hm := hnames m (List.mem_append_right _ (.head _))
    have hbefore := components_pathBytes (fun m hm => hnames m (List.mem_append_left _ hm)) m.name
    have hdrop : pathText (root :: (l ++ [m])) = '/'.toNat.toUInt8 :: (pathBytes l ++ m.name) := by
      rw [pathText, hhead, pathBytes_concat, if_pos (by simp), ← List.cons_append,
        List.dropLast_concat]
    rw [hdrop, components_slash, hbefore, components_last hm.1 hm.2, List.map_append]
    exact ⟨rfl, rfl⟩

/-! ### There and back -/

/-- **`fdt_get_path` returns the names on the way to the node** when they have room in the buffer
with the zero behind them, and `FDT_ERR_NOSPACE` otherwise. -/
theorem fdtGetPath_text (h : d.IsTree root c stop) {u : List DtNode}
    (hslash : ∀ m ∈ (Forest.node root c .nil).labels, '/'.toNat.toUInt8 ∉ m.name)
    (hn : (u, n) ∈ (Forest.node root c .nil).lineages []) (buflen : Int) :
    Yields (fun fuel => fdtGetPath d fuel n.offset buflen)
      (if 2 ≤ buflen ∧ (pathBytes (u ++ [n])).length ≤ buflen then .ok (pathText (u ++ [n]))
      else .error (-fdtErrNospace)) := by
  by_cases hroom : 2 ≤ buflen
  · have hget := h.getPath hslash hn hroom
    rw [pathResult] at hget
    rwa [if_congr (and_iff_right hroom) rfl rfl]
  · rw [if_neg fun h => hroom h.1]
    refine .const fun fuel => ?_
    rw [fdtGetPath, if_neg (not_not_intro h.header), if_pos (by omega)]

theorem Fdt.IsTree.zero_notMem (h : d.IsTree root c stop) {c' : Forest DtNode}
    (hn : Forest.Occurs n c' (.node root c .nil)) : 0 ∉ n.name := by
  obtain ⟨o₁, o₂, hsub, -⟩ := h.subtreeAt hn
  exact hsub.begins.text.zero_notMem

theorem length_pathText (l : List DtNode) {buflen : Int} (h : 2 ≤ buflen) :
    (pathText l).length < buflen ↔ (pathBytes l).length ≤ buflen := by
  rw [pathText]
  split_ifs
  · rw [List.length_dropLast]
    omega
  · omega

theorem zero_notMem_pathText (hl : ∀ m ∈ l, 0 ∉ m.name) : 0 ∉ pathText l := by
  have hbytes : 0 ∉ pathBytes l := by
    intro h0
    obtain ⟨m, hm, h0⟩ := List.mem_flatMap.1 h0
    cases List.mem_append.1 h0 with
    | inl h0 => exact hl m hm h0
    | inr h0 => exact absurd (List.mem_singleton.1 h0) (by decide)
  rw [pathText]
  split_ifs
  · exact fun h0 => hbytes (List.mem_of_mem_dropLast h0)
  · exact hbytes

theorem DtNode.named_name (n : DtNode) : n.named n.name = true := decide_eq_true (.inl rfl)

/-- The nodes below the root on the way. -/
theorem below_root {u : List DtNode} (hu : (u, n) ∈ (Forest.node root c .nil).lineages [])
    {b : DtNode} {l : List DtNode} (hl : u ++ [n] = b :: l) : b = root ∧ ∀ m ∈ l, m ∈ c.labels := by
  rw [Forest.lineages, Forest.lineages, List.append_nil, List.nil_append, List.mem_cons] at hu
  rcases hu with heq | hu
  · obtain ⟨rfl, rfl⟩ := Prod.mk.inj heq
    obtain ⟨rfl, rfl⟩ := List.cons.inj hl
    exact ⟨rfl, fun m hm => absurd hm List.not_mem_nil⟩
  · obtain ⟨t, rfl, ht⟩ := Forest.exists_of_mem_lineages hu
    obtain ⟨rfl, rfl⟩ := List.cons.inj hl
    exact ⟨rfl, ht⟩

/-- **`fdt_path_offset` finds the node again** from the path that `fdt_get_path` returns, when no
name of a node finds an earlier sibling. -/
theorem fdtPathOffset_getPath (h : d.IsTree root c stop) (hroot : root.name = [])
    (hnames : ∀ m ∈ c.labels, m.name ≠ [] ∧ '/'.toNat.toUInt8 ∉ m.name)
    (hdist : (Forest.node root c .nil).Distinct DtNode.named DtNode.name)
    (hn : n ∈ (Forest.node root c .nil).labels) :
    ∃ path, (∀ buflen : Int, 2 ≤ buflen → path.length < buflen →
        Yields (fun fuel => fdtGetPath d fuel n.offset buflen) (.ok path)) ∧
      Yields (fun fuel => fdtPathOffset d fuel path) n.offset := by
  have hslash : ∀ m ∈ (Forest.node root c .nil).labels, '/'.toNat.toUInt8 ∉ m.name := by
    intro m hm
    rw [Forest.labels_node, List.mem_cons] at hm
    rcases hm with rfl | hm
    · rw [hroot]
      exact List.not_mem_nil
    · exact (hnames m (by simpa [Forest.labels, Forest.preorder] using hm)).2
  obtain ⟨⟨u, n⟩, hu, rfl⟩ := List.mem_map.1 (Forest.labels_lineages [] _ ▸ hn)
  refine ⟨pathText (u ++ [n]), fun buflen hroom hlen => ?_, ?_⟩
  · have hget := h.getPath hslash hu hroom
    rwa [pathResult, if_pos ((length_pathText _ hroom).1 hlen)] at hget
  · have hzero : 0 ∉ pathText (u ++ [n]) := by
      obtain ⟨t, rfl, ht⟩ := Forest.exists_of_mem_lineages hu
      refine zero_notMem_pathText fun m hm => ?_
      obtain ⟨_, hocc⟩ := Forest.exists_occurs (ht m hm)
      exact h.zero_notMem hocc
    obtain ⟨l, b, l', rfl, hl, cb, ca, hb, hdesc⟩ :=
      Forest.descend_lineage DtNode.named_name hdist hu
    obtain ⟨rfl, hbelow⟩ := below_root hu hl
    obtain rfl : cb = c := (Prod.mk.inj (List.mem_singleton.1 hb)).2
    rw [hl] at hzero ⊢
    obtain ⟨hstart, hcomponents⟩ := components_pathText hroot fun m hm => hnames m (hbelow m hm)
    have hpath := h.pathOffset hzero hstart
    rwa [along, hcomponents, hdesc] at hpath

end

theorem fdtGetPath_text_small :
    Yields (fun fuel => fdtGetPath (smallDtb.load 0x83000000) fuel smallChosen.offset 8)
      (if 2 ≤ (8 : Int) ∧ ((pathBytes [smallDtb.rootNode, smallChosen]).length : Int) ≤ 8
        then .ok (pathText [smallDtb.rootNode, smallChosen]) else .error (-fdtErrNospace)) :=
  fdtGetPath_text smallDtb_written.isTree (u := [smallDtb.rootNode]) (by decide +kernel)
    (by decide +kernel) 8

theorem fdtPathOffset_getPath_small :
    ∃ path, (∀ buflen : Int, 2 ≤ buflen → path.length < buflen →
        Yields (fun fuel => fdtGetPath (smallDtb.load 0x83000000) fuel smallChosen.offset buflen)
          (.ok path)) ∧
      Yields (fun fuel => fdtPathOffset (smallDtb.load 0x83000000) fuel path) smallChosen.offset :=
  fdtPathOffset_getPath smallDtb_written.isTree (by decide) (by decide +kernel) (by decide +kernel)
    (by decide +kernel)

end ShieldLoader
