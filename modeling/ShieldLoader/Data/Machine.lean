import ShieldLoader.Data.Word
import Mathlib.Logic.Function.Iterate
import Mathlib.Tactic.IntervalCases

/-!
# Machines

Runs of a machine with a total step function, where a state that has halted is its own successor,
and memories of bytes with words of 64 bits.
-/

/-! ### Runs -/

section
variable {σ : Type*} {step : σ → σ} {a b c : σ}

/-- The machine comes from the first state to the second. -/
def Reaches (step : σ → σ) (a b : σ) : Prop := ∃ n, step^[n] a = b

namespace Reaches

theorem refl (a : σ) : Reaches step a a := ⟨0, rfl⟩

theorem trans (h : Reaches step a b) (h' : Reaches step b c) : Reaches step a c := by
  obtain ⟨m, rfl⟩ := h
  obtain ⟨n, rfl⟩ := h'
  exact ⟨n + m, Function.iterate_add_apply ..⟩

theorem head (h : Reaches step (step a) b) : Reaches step a b := trans ⟨1, rfl⟩ h

/-- What each step keeps holds in all states that are reached. -/
theorem invariant {I : σ → Prop} (h : Reaches step a b) (ha : I a)
    (hstep : ∀ c, I c → I (step c)) : I b := by
  obtain ⟨n, rfl⟩ := h
  induction n with
  | zero => exact ha
  | succ n ih =>
    rw [Function.iterate_succ_apply']
    exact hstep _ ih

/-- A machine that halts passes through all states that it reaches. -/
theorem of_halted (h : Reaches step a b) (h' : Reaches step a c) (hc : step c = c) :
    Reaches step b c := by
  obtain ⟨m, rfl⟩ := h
  obtain ⟨n, rfl⟩ := h'
  rcases Nat.le_total m n with hle | hle
  · obtain ⟨k, rfl⟩ := Nat.exists_eq_add_of_le hle
    exact ⟨k, by rw [Nat.add_comm, Function.iterate_add_apply]⟩
  · obtain ⟨k, rfl⟩ := Nat.exists_eq_add_of_le hle
    rw [Nat.add_comm, Function.iterate_add_apply, Function.iterate_fixed hc]
    exact refl _

/-- A machine halts in one state only. -/
theorem unique (h : Reaches step a b) (h' : Reaches step a c) (hb : step b = b) (hc : step c = c) :
    b = c := by
  obtain ⟨n, hn⟩ := h.of_halted h' hc
  rwa [Function.iterate_fixed hb] at hn

/-- A loop of `n` rounds, with an invariant for the rounds that are done. -/
theorem loop {I : Nat → σ → Prop} {n : Nat}
    (hround : ∀ i < n, ∀ a, I i a → ∃ b, Reaches step a b ∧ I (i + 1) b) (h : I 0 a) :
    ∃ b, Reaches step a b ∧ I n b := by
  induction n with
  | zero => exact ⟨a, refl a, h⟩
  | succ n ih =>
    obtain ⟨b, hab, hb⟩ := ih fun i hi => hround i (Nat.lt_succ_of_lt hi)
    obtain ⟨c, hbc, hc⟩ := hround n (Nat.lt_succ_self n) b hb
    exact ⟨c, hab.trans hbc, hc⟩

end Reaches

end

/-! ### Memories -/

/-- A memory of bytes. -/
abbrev Memory := UInt64 → UInt8

/-- Byte `i` of a word, the lowest first. -/
def UInt64.byte (w : UInt64) (i : Nat) : UInt8 := UInt8.ofNat (w.toNat / 256 ^ i)

theorem UInt64.toNat_ofNat_of_lt_two_pow {n : Nat} (h : n < 2 ^ 64) : (UInt64.ofNat n).toNat = n :=
  UInt64.toNat_ofNat_of_lt' h

namespace Memory

variable {m m' : Memory} {a x w : UInt64} {n : Nat}

/-- The `n` bytes at `a` contain the one at `x`. -/
def Covers (a : UInt64) (n : Nat) (x : UInt64) : Prop := (x - a).toNat < n

instance : Decidable (Covers a n x) := inferInstanceAs (Decidable (_ < _))

/-- The word at `a`. -/
def word (m : Memory) (a : UInt64) : UInt64 :=
  UInt64.ofNat ((List.range 8).foldr (fun i n => (m (a + UInt64.ofNat i)).toNat + 256 * n) 0)

/-- The word at `a` becomes `w`. -/
def store (m : Memory) (a w : UInt64) : Memory := fun x =>
  if Covers a 8 x then w.byte (x - a).toNat else m x

/-- The `n` bytes at `a` become zero. -/
def clear (m : Memory) (a : UInt64) (n : Nat) : Memory := fun x => if Covers a n x then 0 else m x

theorem word_eq_iff : m.word a = w ↔ ∀ i < 8, m (a + UInt64.ofNat i) = w.byte i := by
  have hw := w.toNat_lt
  have hb := fun i => (m (a + UInt64.ofNat i)).toNat_lt
  simp only [word, UInt64.byte, show List.range 8 = [0, 1, 2, 3, 4, 5, 6, 7] from rfl,
    List.foldr_cons, List.foldr_nil, ← UInt64.toNat_inj, ← UInt8.toNat_inj, UInt64.toNat_ofNat',
    UInt8.toNat_ofNat']
  generalize w.toNat = w at hw
  have h0 := hb 0; have h1 := hb 1; have h2 := hb 2; have h3 := hb 3
  have h4 := hb 4; have h5 := hb 5; have h6 := hb 6; have h7 := hb 7
  constructor
  · intro h i hi
    interval_cases i <;> omega
  · intro h
    have e0 := h 0 (by decide); have e1 := h 1 (by decide); have e2 := h 2 (by decide)
    have e3 := h 3 (by decide); have e4 := h 4 (by decide); have e5 := h 5 (by decide)
    have e6 := h 6 (by decide); have e7 := h 7 (by decide)
    omega

theorem covers_add (h : n ≤ 2 ^ 64) {i : Nat} (hi : i < n) : Covers a n (a + UInt64.ofNat i) := by
  rw [Covers, UInt64.add_comm, UInt64.add_sub_cancel, UInt64.toNat_ofNat_of_lt' (hi.trans_le h)]
  exact hi

theorem add_sub_toNat (a x : UInt64) : a + UInt64.ofNat (x - a).toNat = x := by
  rw [UInt64.ofNat_toNat, UInt64.add_comm, UInt64.sub_add_cancel]

/-- A word is its bytes. -/
theorem word_eq_iff_covers :
    m.word a = w ↔ ∀ x, Covers a 8 x → m x = w.byte (x - a).toNat := by
  rw [word_eq_iff]
  constructor
  · intro h x hx
    have := h _ hx
    rwa [add_sub_toNat] at this
  · intro h i hi
    have := h _ (covers_add (by decide) hi)
    rwa [UInt64.add_comm, UInt64.add_sub_cancel, UInt64.toNat_ofNat_of_lt' (hi.trans (by decide)),
      UInt64.add_comm] at this

theorem word_congr (h : ∀ x, Covers a 8 x → m' x = m x) : m'.word a = m.word a :=
  word_eq_iff_covers.2 fun x hx => (h x hx).trans (word_eq_iff_covers.1 rfl x hx)

theorem store_of_covers (h : Covers a 8 x) : m.store a w x = w.byte (x - a).toNat := if_pos h

theorem store_of_not_covers (h : ¬Covers a 8 x) : m.store a w x = m x := if_neg h

theorem clear_of_covers (h : Covers a n x) : m.clear a n x = 0 := if_pos h

theorem clear_of_not_covers (h : ¬Covers a n x) : m.clear a n x = m x := if_neg h

/-- A word behind bytes that are zero becomes zero. -/
theorem clear_store (h : n + 8 ≤ 2 ^ 64) :
    (m.clear a n).store (a + UInt64.ofNat n) 0 = m.clear a (n + 8) := by
  funext x
  have hsub : (x - (a + UInt64.ofNat n)).toNat = ((x - a).toNat + (2 ^ 64 - n)) % 2 ^ 64 := by
    simp only [UInt64.toNat_sub, UInt64.toNat_add,
      UInt64.toNat_ofNat_of_lt' (show n < UInt64.size by simp only [UInt64.size]; omega)]
    have := a.toNat_lt
    have := x.toNat_lt
    omega
  have hlt := (x - a).toNat_lt
  by_cases hx : Covers (a + UInt64.ofNat n) 8 x
  · have hx' : Covers a (n + 8) x := by
      rw [Covers, hsub] at hx
      rw [Covers]
      omega
    rw [store_of_covers hx, clear_of_covers hx']
    show UInt8.ofNat (0 / _) = 0
    rw [Nat.zero_div]
    rfl
  · rw [store_of_not_covers hx, clear, clear]
    rw [Covers, hsub] at hx
    refine if_congr ?_ rfl rfl
    rw [Covers, Covers]
    omega

end Memory
