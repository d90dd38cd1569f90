import ShieldLoader.Data.Machine
import Mathlib.Data.List.Induction

/-!
# Bytes in a memory

What a range of addresses holds, strings that end with a zero, and big-endian numbers.
-/

/-- The number that bytes are, the highest first. -/
def bigEndian (bs : List UInt8) : Nat := bs.foldl (fun x b => 256 * x + b.toNat) 0

/-- The lowest `n` bytes of a number, the highest first. -/
def bigBytes : Nat → Nat → List UInt8
  | 0, _ => []
  | n + 1, x => bigBytes n (x / 256) ++ [UInt8.ofNat x]

@[simp] theorem length_bigBytes (n x : Nat) : (bigBytes n x).length = n := by
  induction n generalizing x with
  | zero => rfl
  | succ n ih => rw [bigBytes, List.length_append, ih, List.length_singleton]

theorem bigEndian_concat (bs : List UInt8) (b : UInt8) :
    bigEndian (bs ++ [b]) = 256 * bigEndian bs + b.toNat := by
  rw [bigEndian, List.foldl_append]
  rfl

theorem bigEndian_append (as bs : List UInt8) :
    bigEndian (as ++ bs) = bigEndian as * 256 ^ bs.length + bigEndian bs := by
  induction bs using List.reverseRecOn with
  | nil => simp [bigEndian]
  | append_singleton bs b ih =>
    rw [← List.append_assoc, bigEndian_concat, bigEndian_concat, ih, List.length_append,
      List.length_singleton, Nat.pow_succ, Nat.mul_add, ← Nat.mul_assoc, ← Nat.mul_assoc,
      Nat.mul_comm 256, Nat.mul_right_comm, Nat.add_assoc]

theorem bigEndian_bigBytes {n x : Nat} (h : x < 256 ^ n) : bigEndian (bigBytes n x) = x := by
  induction n generalizing x with
  | zero =>
    rw [Nat.pow_zero, Nat.lt_one_iff] at h
    exact h.symm
  | succ n ih =>
    rw [bigBytes, bigEndian_concat, ih (by rw [Nat.pow_succ] at h; omega), UInt8.toNat_ofNat']
    omega

theorem bigEndian_lt (bs : List UInt8) : bigEndian bs < 256 ^ bs.length := by
  induction bs using List.reverseRecOn with
  | nil => exact Nat.one_pos
  | append_singleton bs b ih =>
    have hb := b.toNat_lt
    rw [bigEndian_concat, List.length_append, List.length_singleton, Nat.pow_succ]
    omega

theorem bigBytes_bigEndian (bs : List UInt8) : bigBytes bs.length (bigEndian bs) = bs := by
  induction bs using List.reverseRecOn with
  | nil => rfl
  | append_singleton bs b ih =>
    have hb := b.toNat_lt
    have hdiv : (256 * bigEndian bs + b.toNat) / 256 = bigEndian bs := by omega
    have hlow : UInt8.ofNat (256 * bigEndian bs + b.toNat) = b := by
      rw [← UInt8.toNat_inj, UInt8.toNat_ofNat']
      omega
    rw [List.length_append, List.length_singleton, bigBytes, bigEndian_concat, hdiv, ih, hlow]

namespace Memory

variable {m m' : Memory} {p : UInt64} {bs cs : List UInt8} {n : Nat}

/-- The `n` bytes at an address. -/
def slice (m : Memory) (p : UInt64) (n : Nat) : List UInt8 :=
  (List.range n).map fun i => m (p + UInt64.ofNat i)

/-- The bytes are at the address. -/
def Holds (m : Memory) (p : UInt64) (bs : List UInt8) : Prop := m.slice p bs.length = bs

/-- The text is at the address, and a zero is behind it. -/
structure HoldsText (m : Memory) (p : UInt64) (s : List UInt8) : Prop where
  zero_notMem : 0 ∉ s
  holds : m.Holds p (s ++ [0])

@[simp] theorem length_slice (m : Memory) (p : UInt64) (n : Nat) : (m.slice p n).length = n := by
  rw [slice, List.length_map, List.length_range]

theorem getElem_slice {i : Nat} (h : i < (m.slice p n).length) :
    (m.slice p n)[i] = m (p + UInt64.ofNat i) := by
  simp only [slice, List.getElem_map, List.getElem_range]

theorem slice_add (m : Memory) (p : UInt64) (a b : Nat) :
    m.slice p (a + b) = m.slice p a ++ m.slice (p + UInt64.ofNat a) b := by
  simp only [slice, List.range_add, List.map_append, List.map_map, Function.comp_def,
    UInt64.ofNat_add, UInt64.add_assoc]

theorem slice_succ (m : Memory) (p : UInt64) (n : Nat) :
    m.slice p (n + 1) = m p :: m.slice (p + 1) n := by
  rw [Nat.add_comm, slice_add]
  show m (p + 0) :: _ = _
  rw [UInt64.add_zero]
  rfl

theorem holds_append :
    m.Holds p (bs ++ cs) ↔ m.Holds p bs ∧ m.Holds (p + UInt64.ofNat bs.length) cs := by
  rw [Holds, List.length_append, slice_add, Holds, Holds]
  exact ⟨fun h => List.append_inj h (length_slice ..), fun h => by rw [h.1, h.2]⟩

theorem holds_cons {b : UInt8} : m.Holds p (b :: bs) ↔ m p = b ∧ m.Holds (p + 1) bs := by
  rw [Holds, List.length_cons, slice_succ, List.cons.injEq, Holds]

theorem Holds.slice_eq (h : m.Holds p bs) : m.slice p bs.length = bs := h

theorem Holds.apply (h : m.Holds p bs) {i : Nat} (hi : i < bs.length) :
    m (p + UInt64.ofNat i) = bs[i] := by
  have hget := getElem_slice (m := m) (p := p) (n := bs.length) (by rwa [length_slice])
  rw [← hget]
  exact List.getElem_of_eq h _

/-- What is at an address is the only text there. -/
theorem HoldsText.unique {s t : List UInt8} (hs : m.HoldsText p s) (ht : m.HoldsText p t) :
    s = t := by
  induction s generalizing p t with
  | nil =>
    cases t with
    | nil => rfl
    | cons b t =>
      have h0 := (holds_cons.1 hs.holds).1
      have hb := (holds_cons.1 ht.holds).1
      exact absurd (List.mem_cons.2 (.inl (h0.symm.trans hb))) ht.zero_notMem
  | cons a s ih =>
    have ha := holds_cons.1 hs.holds
    cases t with
    | nil =>
      have h0 := (holds_cons.1 ht.holds).1
      exact absurd (List.mem_cons.2 (.inl (h0.symm.trans ha.1))) hs.zero_notMem
    | cons b t =>
      have hb := holds_cons.1 ht.holds
      rw [ih ⟨fun h => hs.zero_notMem (List.mem_cons_of_mem _ h), ha.2⟩
        ⟨fun h => ht.zero_notMem (List.mem_cons_of_mem _ h), hb.2⟩, ← ha.1, hb.1]

/-- One of several numbers in a row. -/
theorem holds_flatMap {α : Type*} {xs : List α}
    {g : α → List UInt8} {k : Nat} (hg : ∀ x, (g x).length = k) (h : m.Holds p (xs.flatMap g))
    {i : Nat} (hi : i < xs.length) : m.Holds (p + UInt64.ofNat (k * i)) (g xs[i]) := by
  induction xs generalizing p i with
  | nil => cases hi
  | cons x xs ih =>
    rw [List.flatMap_cons, holds_append, hg] at h
    cases i with
    | zero =>
      rw [Nat.mul_zero]
      show m.Holds (p + 0) _
      rw [UInt64.add_zero]
      exact h.1
    | succ i =>
      rw [Nat.mul_add, Nat.mul_one, Nat.add_comm, UInt64.ofNat_add, ← UInt64.add_assoc]
      exact ih h.2 (Nat.lt_of_succ_lt_succ hi)

/-- A text does not go around the memory. -/
theorem HoldsText.length_lt {s : List UInt8} (h : m.HoldsText p s) : s.length < 2 ^ 64 := by
  by_contra hge
  have hlast : m (p + UInt64.ofNat s.length) = 0 := by
    have hend := (holds_append.1 h.holds).2
    exact (holds_cons.1 hend).1
  have hi : s.length % 2 ^ 64 < s.length := by omega
  have hsame : UInt64.ofNat s.length = UInt64.ofNat (s.length % 2 ^ 64) := by
    rw [← UInt64.toNat_inj, UInt64.toNat_ofNat', UInt64.toNat_ofNat', Nat.mod_mod]
  have hbyte := (holds_append.1 h.holds).1.apply hi
  rw [← hsame, hlast] at hbyte
  exact h.zero_notMem (hbyte ▸ List.getElem_mem hi)

theorem HoldsText.toNat_length {s : List UInt8} (h : m.HoldsText p s) :
    (UInt64.ofNat s.length).toNat = s.length :=
  UInt64.toNat_ofNat_of_lt_two_pow h.length_lt

/-- The memory with bytes at an address, and zeros elsewhere. -/
def ofBytes (p : UInt64) (bs : List UInt8) : Memory := fun x => bs.getD (x - p).toNat 0

theorem holds_ofBytes (h : bs.length ≤ 2 ^ 64) : (ofBytes p bs).Holds p bs := by
  apply List.ext_getElem (length_slice ..)
  intro i hi hi'
  have hback : (p + UInt64.ofNat i - p).toNat = i := by
    rw [UInt64.add_comm, UInt64.add_sub_cancel, UInt64.toNat_ofNat']
    omega
  rw [getElem_slice, ofBytes, hback, List.getD_eq_getElem _ _ hi']

/-- The distance from an address. -/
theorem sub_toNat_eq {x : UInt64} {i : Nat} (h : i < 2 ^ 64) :
    (x - p).toNat = i ↔ x = p + UInt64.ofNat i := by
  constructor
  · intro hx
    rw [← hx, UInt64.ofNat_toNat, UInt64.add_comm, UInt64.sub_add_cancel]
  · rintro rfl
    rw [UInt64.add_comm, UInt64.add_sub_cancel, UInt64.toNat_ofNat_of_lt_two_pow h]

/-- The memory with what fits of some bytes in the `n` ones at an address. -/
def stored (m : Memory) (p : UInt64) (n : Nat) (bs : List UInt8) : Memory := fun x =>
  if (x - p).toNat < n then bs.getD (x - p).toNat (m x) else m x

theorem stored_nil (m : Memory) (p : UInt64) (n : Nat) : m.stored p n [] = m := by
  funext x
  rw [stored]
  split <;> rfl

theorem stored_concat {b : UInt8} (h : bs.length < n) (hlt : bs.length < 2 ^ 64) :
    m.stored p n (bs ++ [b]) =
      Function.update (m.stored p n bs) (p + UInt64.ofNat bs.length) b := by
  funext x
  have hiff : (x - p).toNat = bs.length ↔ x = p + UInt64.ofNat bs.length := sub_toNat_eq hlt
  rw [Function.update_apply, stored, stored]
  by_cases hx : (x - p).toNat = bs.length
  · rw [if_pos (hx ▸ h), if_pos (hiff.1 hx), hx, List.getD_append_right _ _ _ _ (le_refl _), Nat.sub_self]
    rfl
  · rw [if_neg (mt hiff.2 hx)]
    split
    · rcases Nat.lt_or_gt_of_ne hx with hlt | hgt
      · rw [List.getD_append _ _ _ _ hlt]
      · rw [List.getD_append_right _ _ _ _ hgt.le, List.getD_eq_default _ _ hgt.le,
          List.getD_eq_default]
        exact Nat.sub_pos_of_lt hgt
    · rfl

theorem stored_full (h : n ≤ bs.length) : m.stored p n (bs ++ cs) = m.stored p n bs := by
  funext x
  rw [stored, stored]
  split
  · next hx => rw [List.getD_append _ _ _ _ (hx.trans_le h)]
  · rfl

/-- The distance from behind some bytes. -/
theorem sub_add_toNat {k : Nat} (hk : k < 2 ^ 64) (x : UInt64) :
    (x - (p + UInt64.ofNat k)).toNat =
      if k ≤ (x - p).toNat then (x - p).toNat - k else 2 ^ 64 + (x - p).toNat - k := by
  have hsub : x - (p + UInt64.ofNat k) = x - p - UInt64.ofNat k := by
    rw [UInt64.sub_eq_iff_eq_add, UInt64.add_comm p, ← UInt64.add_assoc, UInt64.sub_add_cancel,
      UInt64.sub_add_cancel]
  have hlt := (x - p).toNat_lt
  rw [hsub, UInt64.toNat_sub, UInt64.toNat_ofNat_of_lt_two_pow hk]
  split_ifs <;> omega

/-- What is stored behind some bytes. -/
theorem stored_append (h : bs.length < n) (hn : n ≤ 2 ^ 64) (x : UInt64) :
    ((cs.take (n - bs.length))[(x - (p + UInt64.ofNat bs.length)).toNat]?).getD
      (m.stored p n bs x) = m.stored p n (bs ++ cs) x := by
  have hlen : (cs.take (n - bs.length)).length ≤ n - bs.length := List.length_take_le ..
  rw [sub_add_toNat (h.trans_le hn), stored, stored]
  by_cases hx : (x - p).toNat < n
  · rw [if_pos hx, if_pos hx]
    by_cases hle : bs.length ≤ (x - p).toNat
    · rw [if_pos hle, List.getElem?_take_of_lt (by omega), List.getD_append_right _ _ _ _ hle,
        List.getD_eq_default _ _ hle, List.getD_eq_getElem?_getD]
    · rw [if_neg hle, List.getElem?_eq_none (by omega), Option.getD_none,
        List.getD_append _ _ _ _ (by omega)]
  · rw [if_pos (by omega), List.getElem?_eq_none (by omega), Option.getD_none, if_neg hx, if_neg hx]

theorem stored_zero (m : Memory) (p : UInt64) (bs : List UInt8) : m.stored p 0 bs = m := by
  funext x
  exact if_neg (Nat.not_lt_zero _)

/-- The last byte that there is room for is overwritten. -/
theorem stored_last {b : UInt8} (h : n < bs.length) (hn : n < 2 ^ 64) :
    Function.update (m.stored p (n + 1) bs) (p + UInt64.ofNat n) b =
      m.stored p (n + 1) (bs.take n ++ [b]) := by
  have hlen : (bs.take n).length = n := List.length_take_of_le h.le
  rw [stored_concat (by omega) (by omega), hlen]
  funext x
  by_cases hx : x = p + UInt64.ofNat n
  · rw [hx, Function.update_self, Function.update_self]
  · have hne : (x - p).toNat ≠ n := fun hc => hx ((sub_toNat_eq hn).1 hc)
    rw [Function.update_of_ne hx, Function.update_of_ne hx, stored, stored]
    split
    · rw [List.getD_eq_getElem?_getD, List.getD_eq_getElem?_getD,
        List.getElem?_take_of_lt (by omega)]
    · rfl

/-- What is stored is there, if there is room for it. -/
theorem holds_stored (h : bs.length ≤ n) (hn : n < 2 ^ 64) : (m.stored p n bs).Holds p bs := by
  apply List.ext_getElem (length_slice ..)
  intro i hi hi'
  rw [getElem_slice, stored, (sub_toNat_eq (by omega)).2 rfl, if_pos (by omega),
    List.getD_eq_getElem _ _ hi']

theorem stored_outside {x : UInt64} (h : n ≤ (x - p).toNat) : m.stored p n bs x = m x :=
  if_neg (not_lt.2 h)

/-- What is stored in two places that have nothing in common. -/
theorem stored_comm {q : UInt64} {k : Nat}
    (h : ∀ i < k, n ≤ (q + UInt64.ofNat i - p).toNat) :
    (m.stored p n bs).stored q k cs = (m.stored q k cs).stored p n bs := by
  funext x
  have hx : (x - q).toNat < k → n ≤ (x - p).toNat := fun hlt => by
    have hq : q + UInt64.ofNat (x - q).toNat = x := by
      rw [UInt64.ofNat_toNat, UInt64.add_comm, UInt64.sub_add_cancel]
    exact hq ▸ h _ hlt
  by_cases hlt : (x - q).toNat < k
  · rw [stored_outside (hx hlt), stored, if_pos hlt, stored_outside (hx hlt), stored, if_pos hlt]
  · have hge := not_lt.1 hlt
    rw [stored_outside hge, stored, stored, stored_outside hge]

end Memory
