import Mathlib.Data.List.Basic

/-!
# Forests

Finite sequences of trees with a label at each node, as first child and next sibling, and their nodes
in preorder.
-/

/-- A sequence of trees: the first one has the root `a`, and the others follow in `next`. -/
inductive Forest (α : Type*) where
  | nil
  | node (a : α) (children next : Forest α)

namespace Forest

variable {α β : Type*} {a : α} {c f : Forest α}

/-- The nodes in preorder, each with its level; the roots are at level `k`. -/
def preorder : Nat → Forest α → List (α × Nat)
  | _, nil => []
  | k, node a c s => (a, k) :: (preorder (k + 1) c ++ preorder k s)

/-- The labels in preorder. -/
def labels (f : Forest α) : List α := (f.preorder 0).map Prod.fst

/-- Other labels. -/
def map (g : α → β) : Forest α → Forest β
  | nil => nil
  | node a c s => node (g a) (map g c) (map g s)

/-- The node `a` with the children `c` is in the forest. -/
inductive Occurs (a : α) (c : Forest α) : Forest α → Prop
  | here : Occurs a c (node a c s)
  | child : Occurs a c c' → Occurs a c (node b c' s)
  | next : Occurs a c s → Occurs a c (node b c' s)

theorem preorder_add (j k : Nat) (f : Forest α) :
    f.preorder (j + k) = (f.preorder k).map fun x => (x.1, j + x.2) := by
  induction f generalizing k with
  | nil => rfl
  | node a c s ihc ihs =>
    simp only [preorder, List.map_cons, List.map_append, ← ihc, ← ihs, Nat.add_assoc]

theorem preorder_map (g : α → β) (k : Nat) (f : Forest α) :
    (f.map g).preorder k = (f.preorder k).map fun x => (g x.1, x.2) := by
  induction f generalizing k with
  | nil => rfl
  | node a c s ihc ihs => rw [map, preorder, preorder, ihc, ihs, List.map_cons, List.map_append]

theorem labels_node (a : α) (c s : Forest α) :
    (node a c s).labels = a :: (c.labels ++ s.labels) := by
  rw [labels, preorder, c.preorder_add 1 0, List.map_cons, List.map_append, List.map_map]
  rfl

/-- Each node occurs, with its children. -/
theorem exists_occurs (h : a ∈ f.labels) : ∃ c, Occurs a c f := by
  induction f with
  | nil => cases h
  | node b c s ihc ihs =>
    rw [labels_node, List.mem_cons, List.mem_append] at h
    rcases h with rfl | h | h
    · exact ⟨c, .here⟩
    · obtain ⟨c', h⟩ := ihc h
      exact ⟨c', .child h⟩
    · obtain ⟨c', h⟩ := ihs h
      exact ⟨c', .next h⟩

theorem Occurs.trans {b : α} {c' : Forest α} (h : Occurs a c f) (h' : Occurs b c' c) :
    Occurs b c' f := by
  induction h with
  | here => exact .child h'
  | child _ ih => exact .child ih
  | next _ ih => exact .next ih

/-! ### Children -/

/-- The trees of the sequence: each root, with its children. -/
def roots : Forest α → List (α × Forest α)
  | nil => []
  | node a c s => (a, c) :: roots s

theorem occurs_of_mem_roots {x : α × Forest α} (h : x ∈ f.roots) : Occurs x.1 x.2 f := by
  induction f with
  | nil => cases h
  | node b c s _ ihs =>
    cases List.mem_cons.1 h with
    | inl h => exact h ▸ .here
    | inr h => exact .next (ihs h)

theorem preorder_roots (k : Nat) (f : Forest α) :
    f.preorder k = f.roots.flatMap fun x => (x.1, k) :: x.2.preorder (k + 1) := by
  induction f with
  | nil => rfl
  | node a c s _ ihs => rw [preorder, roots, List.flatMap_cons, ← ihs, List.cons_append]

theorem le_of_mem_preorder {k : Nat} {x : α × Nat} (h : x ∈ f.preorder k) : k ≤ x.2 := by
  rw [← Nat.add_zero k, f.preorder_add k 0] at h
  obtain ⟨y, -, rfl⟩ := List.mem_map.1 h
  exact Nat.le_add_right k y.2

theorem mem_labels_of_preorder {k : Nat} {x : α × Nat} (h : x ∈ f.preorder k) : x.1 ∈ f.labels := by
  rw [← Nat.add_zero k, f.preorder_add k 0] at h
  obtain ⟨y, hy, rfl⟩ := List.mem_map.1 h
  exact List.mem_map.2 ⟨y, hy, rfl⟩

/-- The first node of a level is among the trees that start there. -/
theorem find?_level (P : α → Bool) (k : Nat) (xs : List (α × Forest α)) :
    (xs.flatMap fun x => (x.1, k) :: x.2.preorder (k + 1)).find?
      (fun x => decide (x.2 = k) && P x.1) = (xs.find? fun x => P x.1).map fun x => (x.1, k) := by
  induction xs with
  | nil => rfl
  | cons x xs ih =>
    have hbelow : (x.2.preorder (k + 1)).find? (fun y => decide (y.2 = k) && P y.1) = none := by
      refine List.find?_eq_none.2 fun y hy => ?_
      have hle := le_of_mem_preorder hy
      rw [decide_eq_false (by omega : ¬y.2 = k)]
      exact Bool.false_ne_true
    rw [List.flatMap_cons, List.cons_append, List.find?_cons, List.find?_cons, decide_eq_true rfl,
      Bool.true_and]
    cases P x.1 with
    | true => rfl
    | false => rw [List.find?_append, hbelow, Option.none_or, ih]

/-- From a tree, down to the first child that the first step fits, and so on. -/
def descend (fits : β → α → Bool) : List β → α × Forest α → Option (α × Forest α)
  | [], x => some x
  | b :: bs, x => (x.2.roots.find? fun y => fits b y.1).bind (descend fits bs)

theorem occurs_descend {fits : β → α → Bool} {bs : List β} {x y : α × Forest α}
    (h : descend fits bs x = some y) (hx : Occurs x.1 x.2 f) : Occurs y.1 y.2 f := by
  induction bs generalizing x with
  | nil =>
    rw [descend, Option.some.injEq] at h
    exact h ▸ hx
  | cons b bs ih =>
    obtain ⟨z, hz, hrest⟩ := Option.bind_eq_some_iff.1 h
    exact ih hrest (hx.trans (occurs_of_mem_roots (List.mem_of_find?_eq_some hz)))

/-! ### Lineages -/

/-- The nodes in preorder, each with the nodes above it from the root on. -/
def lineages : List α → Forest α → List (List α × α)
  | _, nil => []
  | up, node a c s => (up, a) :: (lineages (up ++ [a]) c ++ lineages up s)

theorem preorder_lineages (up : List α) (f : Forest α) :
    f.preorder up.length = (lineages up f).map fun x => (x.2, x.1.length) := by
  induction f generalizing up with
  | nil => rfl
  | node a c s ihc ihs =>
    have hc := ihc (up ++ [a])
    rw [List.length_append, List.length_singleton] at hc
    rw [preorder, lineages, List.map_cons, List.map_append, hc, ihs]

theorem labels_lineages (up : List α) (f : Forest α) : (lineages up f).map Prod.snd = f.labels := by
  have h := congrArg (List.map Prod.fst) (f.preorder_lineages up)
  rw [← Nat.add_zero up.length, f.preorder_add up.length 0, List.map_map, List.map_map] at h
  exact h.symm

/-- The nodes above a node are in the forest, too. -/
theorem exists_of_mem_lineages {up v : List α} (h : (v, a) ∈ lineages up f) :
    ∃ t, v = up ++ t ∧ ∀ b ∈ t ++ [a], b ∈ f.labels := by
  induction f generalizing up with
  | nil => cases h
  | node b c s ihc ihs =>
    rw [lineages, List.mem_cons, List.mem_append] at h
    rw [labels_node]
    rcases h with h | h | h
    · obtain ⟨rfl, rfl⟩ := Prod.mk.inj h
      exact ⟨[], (List.append_nil _).symm, fun x hx => List.mem_singleton.1 hx ▸ .head _⟩
    · obtain ⟨t, rfl, ht⟩ := ihc h
      refine ⟨b :: t, by simp, fun x hx => ?_⟩
      cases List.mem_cons.1 hx with
      | inl hx => exact hx ▸ .head _
      | inr hx => exact .tail _ (List.mem_append_left _ (ht x hx))
    · obtain ⟨t, hv, ht⟩ := ihs h
      exact ⟨t, hv, fun x hx => .tail _ (List.mem_append_right _ (ht x hx))⟩

/-- No key of a node fits an earlier one with the same parent. -/
def Distinct (fits : β → α → Bool) (key : α → β) : Forest α → Prop
  | nil => True
  | node a c s => (∀ x ∈ s.roots, fits (key x.1) a = false) ∧ c.Distinct fits key ∧
    s.Distinct fits key

instance decidableDistinct (fits : β → α → Bool) (key : α → β) :
    (f : Forest α) → Decidable (f.Distinct fits key)
  | nil => isTrue trivial
  | node _ c s =>
    have := decidableDistinct fits key c
    have := decidableDistinct fits key s
    inferInstanceAs (Decidable (_ ∧ _ ∧ _))

theorem find?_of_distinct {fits : β → α → Bool} {key : α → β} (hkey : ∀ a, fits (key a) a = true)
    (hdist : f.Distinct fits key) {x : α × Forest α} (hx : x ∈ f.roots) :
    (f.roots.find? fun y => fits (key x.1) y.1) = some x := by
  induction f with
  | nil => cases hx
  | node a c s _ ihs =>
    rw [roots, List.find?_cons]
    cases List.mem_cons.1 hx with
    | inl hx => rw [hx, hkey a]
    | inr hx => rw [hdist.1 x hx, ihs hdist.2.2 hx]

/-- A node is reached through the keys of those above it. -/
theorem descend_lineage {fits : β → α → Bool} {key : α → β} (hkey : ∀ a, fits (key a) a = true)
    (hdist : f.Distinct fits key) {up v : List α} (h : (v, a) ∈ lineages up f) :
    ∃ l b l', v = up ++ l ∧ l ++ [a] = b :: l' ∧
      ∃ cb ca, (b, cb) ∈ f.roots ∧ descend fits (l'.map key) (b, cb) = some (a, ca) := by
  induction f generalizing up v with
  | nil => cases h
  | node b c s ihc ihs =>
    rw [lineages, List.mem_cons, List.mem_append] at h
    rcases h with h | h | h
    · obtain ⟨rfl, rfl⟩ := Prod.mk.inj h
      exact ⟨[], a, [], (List.append_nil _).symm, rfl, c, c, .head _, rfl⟩
    · obtain ⟨l, b', l', rfl, hl, cb, ca, hb', hdesc⟩ := ihc hdist.2.1 h
      refine ⟨b :: l, b, b' :: l', by simp, by rw [List.cons_append, hl], c, ca, .head _, ?_⟩
      rw [List.map_cons, descend, find?_of_distinct hkey hdist.2.1 hb']
      exact hdesc
    · obtain ⟨l, b', l', hv, hl, cb, ca, hb', hdesc⟩ := ihs hdist.2.2 h
      exact ⟨l, b', l', hv, hl, cb, ca, .tail _ hb', hdesc⟩

/-- What is above a node is on the way to the one before it. -/
def Follows (x y : List α × α) : Prop := y.1 <+: x.1 ++ [x.2]

theorem isChain_lineages_append {up : List α} {x : List α × α} {zs : List (List α × α)}
    (hx : up <+: x.1 ++ [x.2])
    (hzs : ∀ y : List α × α, up <+: y.1 ++ [y.2] → (y :: zs).IsChain Follows) :
    (x :: (lineages up f ++ zs)).IsChain Follows := by
  induction f generalizing up x zs with
  | nil => exact hzs x hx
  | node a c s ihc ihs =>
    rw [lineages, List.cons_append, List.append_assoc]
    refine List.isChain_cons_cons.2 ⟨hx, ihc List.prefix_rfl fun y hy => ?_⟩
    exact ihs ((List.prefix_append ..).trans hy) hzs

theorem isChain_lineages (f : Forest α) : (lineages [] f).IsChain Follows := by
  cases f with
  | nil => exact .nil
  | node a c s =>
    refine isChain_lineages_append (x := ([], a)) List.prefix_rfl fun y hy => ?_
    have htail : (y :: (lineages [] s ++ [])).IsChain Follows :=
      isChain_lineages_append List.nil_prefix fun z _ => .singleton z
    rwa [List.append_nil] at htail

end Forest
