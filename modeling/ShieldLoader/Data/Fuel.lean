import Mathlib.Data.Nat.Basic
import Mathlib.Order.Lattice

/-!
# Loops with fuel

A loop that may not end is a function of the turns it may take. What a function returns is what it
returns with enough fuel: composition and loops then need no bounds on the fuel.
-/

namespace Fuel

/-- What a turn of a loop ends with: the next state, or the result. -/
inductive Turn (σ ρ : Type*) where
  | next (s : σ)
  | done (r : ρ)

variable {α β σ ρ : Type*}

/-- What comes after a turn. -/
def Turn.after (next : σ → α) (done : ρ → α) : Turn σ ρ → α
  | .next s => next s
  | .done r => done r

/-- Turn after turn, each one with the fuel that is left. -/
def loop (turn : Nat → σ → Option (Turn σ ρ)) : Nat → σ → Option ρ
  | 0, _ => none
  | n + 1, s => (turn n s).bind (Turn.after (loop turn n) some)

/-- With enough fuel, the function returns `a`. -/
def Yields (f : Nat → Option α) (a : α) : Prop := ∃ N, ∀ n ≥ N, f n = some a

namespace Yields

variable {f g : Nat → Option α} {a b : α} {c : β} {turn : Nat → σ → Option (Turn σ ρ)} {s s' : σ}
  {r : ρ}

theorem const (h : ∀ n, f n = some a) : Yields f a := ⟨0, fun n _ => h n⟩

theorem unique (h : Yields f a) (h' : Yields f b) : a = b := by
  obtain ⟨M, hM⟩ := h
  obtain ⟨N, hN⟩ := h'
  exact Option.some.inj ((hM (max M N) (le_max_left ..)).symm.trans (hN _ (le_max_right ..)))

theorem congr (h : Yields f a) (hfg : ∀ n, g n = f n) : Yields g a := by
  obtain ⟨N, hN⟩ := h
  exact ⟨N, fun n hn => (hfg n).trans (hN n hn)⟩

theorem bind {g : α → Nat → Option β} (h : Yields f a) (h' : Yields (g a) c) :
    Yields (fun n => (f n).bind fun x => g x n) c := by
  obtain ⟨M, hM⟩ := h
  obtain ⟨N, hN⟩ := h'
  refine ⟨max M N, fun n hn => ?_⟩
  show (f n).bind _ = _
  rw [hM n ((le_max_left ..).trans hn), Option.bind_some, hN n ((le_max_right ..).trans hn)]

/-- What comes after a part that returns `a`. -/
theorem of_bind {g : α → Nat → Option β} (h : Yields f a)
    (h' : Yields (fun n => (f n).bind fun x => g x n) c) : Yields (g a) c := by
  obtain ⟨M, hM⟩ := h
  obtain ⟨N, hN⟩ := h'
  refine ⟨max M N, fun n hn => ?_⟩
  have hall : (f n).bind (fun x => g x n) = some c := hN n ((le_max_right ..).trans hn)
  rwa [hM n ((le_max_left ..).trans hn), Option.bind_some] at hall

theorem map (h : Yields f a) (g : α → β) : Yields (fun n => (f n).map g) (g a) := by
  obtain ⟨N, hN⟩ := h
  exact ⟨N, fun n hn => congrArg (Option.map g) (hN n hn)⟩

theorem map_eq {g : α → β} (h : Yields f a) (hg : g a = c) : Yields (fun n => (f n).map g) c :=
  hg ▸ h.map g

/-- A function that hands on one less than its fuel. -/
theorem of_succ (h : Yields (fun n => f (n + 1)) a) : Yields f a := by
  obtain ⟨N, hN⟩ := h
  refine ⟨N + 1, fun n hn => ?_⟩
  obtain ⟨n, rfl⟩ : ∃ k, n = k + 1 := ⟨n - 1, by omega⟩
  exact hN n (by omega)

theorem loop_done (h : Yields (fun n => turn n s) (.done r)) : Yields (fun n => loop turn n s) r :=
  of_succ (h.bind (const fun _ => rfl))

theorem loop_next (h : Yields (fun n => turn n s) (.next s'))
    (h' : Yields (fun n => loop turn n s') r) : Yields (fun n => loop turn n s) r :=
  of_succ (h.bind h')

end Yields

/-- A loop whose measure gets smaller does not need more fuel than that. -/
theorem loop_of_lt {turn : Nat → σ → Option (Turn σ ρ)} (μ : σ → Nat)
    (hconst : ∀ n s, turn n s = turn 0 s)
    (hturn : ∀ s s', turn 0 s = some (.next s') → μ s' < μ s) {s : σ} {n k : Nat} (hn : μ s < n)
    (hk : μ s < k) : loop turn n s = loop turn k s := by
  induction n generalizing s k with
  | zero => cases hn
  | succ n ih =>
    cases k with
    | zero => cases hk
    | succ k =>
      rw [loop, loop, hconst n, hconst k]
      cases ht : turn 0 s with
      | none => rfl
      | some t =>
        cases t with
        | done r => rfl
        | next s' =>
          have hlt := hturn s s' ht
          exact ih (Nat.lt_of_lt_of_le hlt (Nat.le_of_lt_succ hn))
            (Nat.lt_of_lt_of_le hlt (Nat.le_of_lt_succ hk))

/-! ### Functions that may not return -/

/-- With enough fuel, the function returns `a` for `some a`; for `none`, it does not return. -/
def Settles (f : Nat → Option α) (x : Option α) : Prop := ∃ N, ∀ n ≥ N, f n = x

namespace Settles

variable {f g : Nat → Option α} {x : Option α} {turn : Nat → σ → Option (Turn σ ρ)} {s : σ}

theorem const (h : ∀ n, f n = x) : Settles f x := ⟨0, fun n _ => h n⟩

theorem congr (h : Settles f x) (hfg : ∀ n, g n = f n) : Settles g x := by
  obtain ⟨N, hN⟩ := h
  exact ⟨N, fun n hn => (hfg n).trans (hN n hn)⟩

theorem bind {g : α → Nat → Option β} {y : α → Option β} (h : Settles f x)
    (hg : ∀ a ∈ x, Settles (g a) (y a)) : Settles (fun n => (f n).bind fun a => g a n) (x.bind y) := by
  obtain ⟨M, hM⟩ := h
  cases x with
  | none => exact ⟨M, fun n hn => congrArg (Option.bind · fun a => g a n) (hM n hn)⟩
  | some a =>
    obtain ⟨N, hN⟩ := hg a rfl
    refine ⟨max M N, fun n hn => ?_⟩
    show (f n).bind _ = _
    rw [hM n ((le_max_left ..).trans hn), Option.bind_some, hN n ((le_max_right ..).trans hn)]
    rfl

theorem of_succ (h : Settles (fun n => f (n + 1)) x) : Settles f x := by
  obtain ⟨N, hN⟩ := h
  refine ⟨N + 1, fun n hn => ?_⟩
  obtain ⟨n, rfl⟩ : ∃ k, n = k + 1 := ⟨n - 1, by omega⟩
  exact hN n (by omega)

/-- What comes after a part that returns `a`. -/
theorem of_bind {g : α → Nat → Option β} {a : α} {y : Option β} (h : Yields f a)
    (h' : Settles (fun n => (f n).bind fun x => g x n) y) : Settles (g a) y := by
  obtain ⟨M, hM⟩ := h
  obtain ⟨N, hN⟩ := h'
  refine ⟨max M N, fun n hn => ?_⟩
  have hall : (f n).bind (fun x => g x n) = y := hN n ((le_max_right ..).trans hn)
  rwa [hM n ((le_max_left ..).trans hn), Option.bind_some] at hall

/-- A turn, and what comes after it. -/
theorem loop {t : Option (Turn σ ρ)} {y : σ → Option ρ} (h : Settles (fun n => turn n s) t)
    (hnext : ∀ s', t = some (.next s') → Settles (fun n => Fuel.loop turn n s') (y s')) :
    Settles (fun n => Fuel.loop turn n s) (t.bind (Turn.after y some)) := by
  refine of_succ (h.bind (g := fun t n => Turn.after (Fuel.loop turn n) some t) fun t ht => ?_)
  cases t with
  | next s' => exact hnext s' ht
  | done r => exact const fun _ => rfl

/-- A loop that cannot end. -/
theorem loop_none (I : σ → Prop) (hnext : ∀ n s s', I s → turn n s = some (.next s') → I s')
    (hdone : ∀ n s r, I s → turn n s ≠ some (.done r)) (hs : I s) :
    Settles (fun n => Fuel.loop turn n s) none := by
  refine const fun n => ?_
  induction n generalizing s with
  | zero => rfl
  | succ n ih =>
    rw [Fuel.loop]
    cases ht : turn n s with
    | none => rfl
    | some t =>
      cases t with
      | next s' => exact ih (hnext n s s' hs ht)
      | done r => exact absurd ht (hdone n s r hs)

end Settles

theorem Yields.settles {f : Nat → Option α} {a : α} (h : Yields f a) : Settles f (some a) := h

/-! ### More fuel -/

/-- What the function returns with fuel `n`, it returns with one more. -/
def Grows (f : Nat → Option α) (n : Nat) : Prop := ∀ a, f n = some a → f (n + 1) = some a

namespace Grows

variable {f : Nat → Option α} {a : α} {n : Nat} {turn : Nat → σ → Option (Turn σ ρ)}

theorem const (x : Option α) : Grows (fun _ => x) n := fun _ h => h

theorem bind {g : α → Nat → Option β} (hf : Grows f n) (hg : ∀ x, Grows (g x) n) :
    Grows (fun n => (f n).bind fun x => g x n) n := by
  intro b hb
  obtain ⟨x, hx, hrest⟩ := Option.bind_eq_some_iff.1 hb
  exact Option.bind_eq_some_iff.2 ⟨x, hf x hx, hg x b hrest⟩

theorem map (hf : Grows f n) (g : α → β) : Grows (fun n => (f n).map g) n := by
  intro b hb
  obtain ⟨x, hx, hrest⟩ := Option.map_eq_some_iff.1 hb
  exact Option.map_eq_some_iff.2 ⟨x, hf x hx, hrest⟩

theorem ite {f' : Nat → Option α} {p : Prop} [Decidable p] (hf : Grows f n) (hf' : Grows f' n) :
    Grows (fun n => if p then f n else f' n) n := by
  by_cases h : p
  · simpa only [if_pos h] using hf
  · simpa only [if_neg h] using hf'

theorem loop (hturn : ∀ n s, Grows (fun n => turn n s) n) (s : σ) :
    Grows (fun n => Fuel.loop turn n s) n := by
  intro r hr
  induction n generalizing s with
  | zero => cases hr
  | succ n ih =>
    obtain ⟨t, ht, hrest⟩ := Option.bind_eq_some_iff.1 hr
    refine Option.bind_eq_some_iff.2 ⟨t, hturn n s t ht, ?_⟩
    cases t with
    | next s' => exact ih s' hrest
    | done r' => exact hrest

/-- A function that returns something at all returns it with enough fuel. -/
theorem yields (hf : ∀ n, Grows f n) (h : f n = some a) : Yields f a := by
  refine ⟨n, fun m hm => ?_⟩
  induction m, hm using Nat.le_induction with
  | base => exact h
  | succ m _ ih => exact hf m a ih

end Grows

end Fuel
