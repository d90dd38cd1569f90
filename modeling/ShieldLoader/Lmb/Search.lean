import ShieldLoader.Data.Machine
import ShieldLoader.Lmb.Defs

/-!
# The rounds of the search

The inner loop of `__lmb_alloc_base` without a bound on its rounds. Each candidate is below the one
before it, whatever the tables hold and also where the sums wrap, so the loop ends, and the bound
that `lmbAllocBase.search` gives `lmbAllocBase.scan` changes nothing.
-/

namespace ShieldLoader

/-- The `while` loop of `__lmb_alloc_base`: before the test of its condition, or left with the
block to take, if it found one. -/
inductive AllocLoop where
  | test (base : UInt64)
  | done (block : Option UInt64)
  deriving DecidableEq, Repr

theorem lmbAlignDown_le_self (addr size : UInt64) : (lmbAlignDown addr size).toNat ≤ addr.toNat :=
  Nat.and_le_left

namespace lmbAllocBase

/-- One round of the loop. -/
def round (reserved : LmbRegion) (lmbbase size align : UInt64) : AllocLoop → AllocLoop
  | .test base =>
    if base ≠ 0 ∧ lmbbase ≤ base then
      match lmbOverlapsRegion reserved base size with
      | none => .done (some base)
      | some j =>
        let resBase := (reserved.region j).base
        if resBase < size then .done none
        else .test (lmbAlignDown (resBase - size) align)
    else .done none
  | .done block => .done block

variable {reserved : LmbRegion} {lmbbase size align base next : UInt64}

/-- The entry that a candidate overlaps begins before the end of the block, and so do the addresses
where the sum of the code has wrapped. -/
theorem base_lt_of_overlaps {j : Nat} (h : lmbOverlapsRegion reserved base size = some j) :
    (reserved.region j).base.toNat < base.toNat + size.toNat := by
  have hov := List.find?_some h
  simp only [lmbAddrsOverlap, Bool.and_eq_true, decide_eq_true_eq] at hov
  have hlt := UInt64.lt_iff_toNat_lt.1 hov.2
  rw [UInt64.toNat_add] at hlt
  exact hlt.trans_le (Nat.mod_le ..)

/-- Where the loop goes on, the next candidate is below. -/
theorem round_lt (h : round reserved lmbbase size align (.test base) = .test next) :
    next < base := by
  rw [round] at h
  split at h
  · cases hj : lmbOverlapsRegion reserved base size with
    | none => simp only [hj, reduceCtorEq] at h
    | some j =>
      have hlt := base_lt_of_overlaps hj
      simp only [hj] at h
      split at h
      · cases h
      · next hge =>
        cases h
        have hle := UInt64.not_lt.1 hge
        have hsub := UInt64.toNat_sub_of_le _ _ hle
        have hdown := lmbAlignDown_le_self ((reserved.region j).base - size) align
        rw [UInt64.le_iff_toNat_le] at hle
        rw [UInt64.lt_iff_toNat_lt]
        omega
  · cases h

/-- A round of the loop is a round of `scan`. -/
theorem scan_succ (n : Nat) :
    scan reserved lmbbase size align (n + 1) base =
      match round reserved lmbbase size align (.test base) with
      | .test next => scan reserved lmbbase size align n next
      | .done block => block := by
  rw [scan, round]
  split
  · cases lmbOverlapsRegion reserved base size with
    | none => rfl
    | some j =>
      dsimp only
      split <;> rfl
  · rfl

/-- With a bound above the candidate, `scan` gives what the loop is left with. -/
theorem reaches_scan {n : Nat} (hn : base.toNat < n) :
    Reaches (round reserved lmbbase size align) (.test base)
      (.done (scan reserved lmbbase size align n base)) := by
  induction n generalizing base with
  | zero => exact absurd hn (Nat.not_lt_zero _)
  | succ n ih =>
    apply Reaches.head
    rw [scan_succ]
    cases hr : round reserved lmbbase size align (.test base) with
    | test next =>
      have hlt := UInt64.lt_iff_toNat_lt.1 (round_lt hr)
      exact ih (by omega)
    | done block => exact .refl _

end lmbAllocBase

/-- The inner loop of `__lmb_alloc_base` ends: whenever it goes on, the next candidate is below the
current one, and from each candidate it is left with what `lmbAllocBase.search` takes for it. -/
theorem lmbAllocBase_halts (reserved : LmbRegion) (lmbbase size align : UInt64) :
    (∀ base next, lmbAllocBase.round reserved lmbbase size align (.test base) = .test next →
      next < base) ∧
    ∀ base, ∃ block,
      Reaches (lmbAllocBase.round reserved lmbbase size align) (.test base) (.done block) ∧
      lmbAllocBase.scan reserved lmbbase size align (base.toNat + 1) base = block :=
  ⟨fun _ _ => lmbAllocBase.round_lt,
    fun base => ⟨_, lmbAllocBase.reaches_scan (Nat.lt_succ_self base.toNat), rfl⟩⟩

/-- From inside a reserved entry the loop goes on below it. -/
theorem lmbAllocBase_halts_reserved :
    let round := lmbAllocBase.round ⟨1, fun _ => ⟨0x3000, 0x1000, lmbTagNone, .boot⟩⟩ 0 0x800 0x1000
    round (.test 0x3800) = .test 0x2000 ∧ (0x2000 : UInt64) < 0x3800 :=
  have h : lmbAllocBase.round ⟨1, fun _ => ⟨0x3000, 0x1000, lmbTagNone, .boot⟩⟩ 0 0x800 0x1000
      (.test 0x3800) = .test 0x2000 := by decide
  ⟨h, (lmbAllocBase_halts _ _ _ _).1 _ _ h⟩

end ShieldLoader
