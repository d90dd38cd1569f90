import Mathlib.Logic.Nonempty

/-!
# Programs with a state that can stop

Rules of postconditions for `EStateM`. `Post x Q E s` says what the run of `x` from `s` ends in:
`Q` of the value and the state when it returns, `E` of the reason and the state when it stops.
-/

namespace EStateM

variable {ε σ α β : Type}

/-- The run of `x` from `s` returns with `Q` or stops with `E`. -/
def Post (x : EStateM ε σ α) (Q : α → σ → Prop) (E : ε → σ → Prop) (s : σ) : Prop :=
  match x s with
  | .ok a s => Q a s
  | .error e s => E e s

section
variable {Q Q' : α → σ → Prop} {E E' : ε → σ → Prop} {s s' : σ} {x y : EStateM ε σ α}

@[simp] theorem post_pure {a : α} : Post (pure a : EStateM ε σ α) Q E s ↔ Q a s := Iff.rfl

@[simp] theorem post_throw {e : ε} : Post (throw e : EStateM ε σ α) Q E s ↔ E e s := Iff.rfl

@[simp] theorem post_get {Q : σ → σ → Prop} : Post (get : EStateM ε σ σ) Q E s ↔ Q s s := Iff.rfl

@[simp] theorem post_set {s₁ : σ} {Q : PUnit → σ → Prop} :
    Post (set s₁ : EStateM ε σ PUnit) Q E s ↔ Q ⟨⟩ s₁ := Iff.rfl

@[simp] theorem post_modify {f : σ → σ} {Q : PUnit → σ → Prop} :
    Post (modify f : EStateM ε σ PUnit) Q E s ↔ Q ⟨⟩ (f s) := Iff.rfl

@[simp] theorem post_bind {f : α → EStateM ε σ β} {Q : β → σ → Prop} :
    Post (x >>= f) Q E s ↔ Post x (fun a s => Post (f a) Q E s) E s := by
  simp only [Post, bind, EStateM.bind]
  rcases x s with ⟨a, s'⟩ | ⟨e, s'⟩ <;> rfl

@[simp] theorem post_map {f : α → β} {Q : β → σ → Prop} :
    Post (f <$> x) Q E s ↔ Post x (fun a s => Q (f a) s) E s := by
  rw [map_eq_pure_bind, post_bind]
  rfl

@[simp] theorem post_ite {c : Prop} [Decidable c] :
    Post (if c then x else y) Q E s ↔ (c → Post x Q E s) ∧ (¬c → Post y Q E s) := by
  by_cases h : c <;> simp [h]

instance [∀ a s, Decidable (Q a s)] [∀ e s, Decidable (E e s)] : Decidable (Post x Q E s) :=
  match h : x s with
  | .ok a s' => decidable_of_iff (Q a s') (by rw [Post, h])
  | .error e s' => decidable_of_iff (E e s') (by rw [Post, h])

theorem Post.mono (h : Post x Q E s) (hQ : ∀ a s, Q a s → Q' a s) (hE : ∀ e s, E e s → E' e s) :
    Post x Q' E' s := by
  unfold Post at *
  cases hx : x s with
  | ok a s' => exact hQ a s' (by simpa [hx] using h)
  | error e s' => exact hE e s' (by simpa [hx] using h)

theorem Post.imp (h : Post x Q E s) (hQ : ∀ a s, Q a s → Q' a s) : Post x Q' E s :=
  h.mono hQ fun _ _ => id

theorem Post.and (h : Post x Q E s) (h' : Post x Q' E' s) :
    Post x (fun a s => Q a s ∧ Q' a s) (fun e s => E e s ∧ E' e s) s := by
  unfold Post at *
  cases hx : x s with
  | ok a s' => exact ⟨by simpa [hx] using h, by simpa [hx] using h'⟩
  | error e s' => exact ⟨by simpa [hx] using h, by simpa [hx] using h'⟩

theorem post_true (x : EStateM ε σ α) (s : σ) : Post x (fun _ _ => True) (fun _ _ => True) s := by
  unfold Post
  cases x s with
  | ok a s' => trivial
  | error e s' => trivial

/-- Every run returns or stops. -/
theorem Post.const {p : Prop} (h : Post x (fun _ _ => p) (fun _ _ => p) s) : p := by
  unfold Post at h
  cases hx : x s with
  | ok a s' => simpa [hx] using h
  | error e s' => simpa [hx] using h

theorem Post.of_ok (h : Post x Q E s) {a : α} (hx : x s = .ok a s') : Q a s' := by
  simpa [Post, hx] using h

theorem Post.of_error (h : Post x Q E s) {e : ε} (hx : x s = .error e s') : E e s' := by
  simpa [Post, hx] using h

theorem post_iff : Post x Q E s ↔
    (∀ a s', x s = .ok a s' → Q a s') ∧ ∀ e s', x s = .error e s' → E e s' := by
  constructor
  · exact fun h => ⟨fun _ _ => h.of_ok, fun _ _ => h.of_error⟩
  · rintro ⟨hQ, hE⟩
    unfold Post
    cases hx : x s with
    | ok a s' => exact hQ a s' hx
    | error e s' => exact hE e s' hx

theorem post_forall {ι : Type} [Nonempty ι] {Q : ι → α → σ → Prop} :
    Post x (fun a s => ∀ i, Q i a s) E s ↔ ∀ i, Post x (Q i) E s := by
  constructor
  · exact fun h i => h.imp fun _ _ hQ => hQ i
  · intro h
    refine post_iff.2 ⟨fun a s' hx i => (h i).of_ok hx, fun e s' hx => ?_⟩
    exact (h (Classical.arbitrary ι)).of_error hx

@[simp] theorem post_discard {Q : PUnit → σ → Prop} :
    Post (discard x) Q E s ↔ Post x (fun _ s => Q ⟨⟩ s) E s := by
  unfold Post
  rw [Functor.discard, map_const, Function.comp]
  simp only [Functor.map, EStateM.map]
  rcases x s with ⟨a, s'⟩ | ⟨e, s'⟩ <;> rfl

end

@[simp] theorem post_forM_nil {f : α → EStateM ε σ PUnit} {Q : PUnit → σ → Prop}
    {E : ε → σ → Prop} {s : σ} : Post (List.forM [] f) Q E s ↔ Q ⟨⟩ s := Iff.rfl

@[simp] theorem post_forM_cons {f : α → EStateM ε σ PUnit} {a : α} {l : List α}
    {Q : PUnit → σ → Prop} {E : ε → σ → Prop} {s : σ} :
    Post (List.forM (a :: l) f) Q E s ↔ Post (f a) (fun _ s => Post (List.forM l f) Q E s) E s :=
  post_bind

theorem post_forM_singleton {f : α → EStateM ε σ PUnit} {a : α} {Q : PUnit → σ → Prop}
    {E : ε → σ → Prop} {s : σ} : Post (List.forM [a] f) Q E s ↔ Post (f a) Q E s :=
  post_forM_cons

@[simp] theorem post_forM_append {f : α → EStateM ε σ PUnit} {l l' : List α}
    {Q : PUnit → σ → Prop} {E : ε → σ → Prop} {s : σ} : Post (List.forM (l ++ l') f) Q E s ↔
      Post (List.forM l f) (fun _ s => Post (List.forM l' f) Q E s) E s := by
  rw [List.forM_eq_forM, List.forM_append, post_bind]

@[simp] theorem post_forM_map {g : β → α} {f : α → EStateM ε σ PUnit} {l : List β}
    {Q : PUnit → σ → Prop} {E : ε → σ → Prop} {s : σ} :
    Post (List.forM (l.map g) f) Q E s ↔ Post (List.forM l fun b => f (g b)) Q E s := by
  rw [List.forM_eq_forM, List.forM_map, List.forM_eq_forM]

/-- The rule of loops: what each round keeps holds after the last one. -/
theorem Post.forM {f : α → EStateM ε σ PUnit} {I : σ → Prop} {E : ε → σ → Prop} {l : List α}
    (hstep : ∀ a ∈ l, ∀ s, I s → Post (f a) (fun _ => I) E s) {s : σ} (hs : I s) :
    Post (l.forM f) (fun _ => I) E s := by
  induction l generalizing s with
  | nil => exact hs
  | cons a l ih =>
    refine post_forM_cons.2 ((hstep a (by simp) s hs).imp fun _ s' hs' => ?_)
    exact ih (fun b hb => hstep b (by simp [hb])) hs'

theorem modify_bind_modify (f g : σ → σ) (k : PUnit → EStateM ε σ α) :
    (modify f >>= fun _ => modify g >>= k : EStateM ε σ α) = modify (g ∘ f) >>= k := rfl

/-- In the run of the loop from `s`, each round that is reached starts in a state with `G`. -/
def Along (f : α → EStateM ε σ PUnit) (G : α → σ → Prop) : List α → σ → Prop
  | [], _ => True
  | a :: l, s => G a s ∧ Post (f a) (fun _ => Along f G l) (fun _ _ => True) s

instance Along.decidable {f : α → EStateM ε σ PUnit} {G : α → σ → Prop}
    [∀ a s, Decidable (G a s)] : ∀ (l : List α) (s : σ), Decidable (Along f G l s)
  | [], _ => isTrue trivial
  | a :: l, s =>
    have := Along.decidable (f := f) (G := G) l
    inferInstanceAs (Decidable (G a s ∧ Post (f a) (fun _ => Along f G l) (fun _ _ => True) s))

/-- The rule of loops for a run whose rounds all start in states with `G`. -/
theorem Along.forM {f : α → EStateM ε σ PUnit} {G : α → σ → Prop} {I : σ → Prop}
    {E : ε → σ → Prop} (hstep : ∀ a s, I s → G a s → Post (f a) (fun _ => I) E s) {l : List α}
    {s : σ} (h : Along f G l s) (hs : I s) : Post (l.forM f) (fun _ => I) E s := by
  induction l generalizing s with
  | nil => exact hs
  | cons a l ih =>
    refine post_forM_cons.2 (((hstep a s hs h.1).and h.2).mono ?_ fun _ _ h => h.1)
    exact fun _ s' h => ih h.2 h.1

theorem Along.and {f : α → EStateM ε σ PUnit} {G G' : α → σ → Prop} {l : List α} {s : σ}
    (h : Along f G l s) (h' : Along f G' l s) : Along f (fun a s => G a s ∧ G' a s) l s := by
  induction l generalizing s with
  | nil => trivial
  | cons a l ih =>
    refine ⟨⟨h.1, h'.1⟩, ?_⟩
    exact (h.2.and h'.2).mono (fun _ _ h => ih h.1 h.2) fun _ _ _ => trivial

theorem Along.of_forall {f : α → EStateM ε σ PUnit} {p : α → Prop} {l : List α}
    (h : ∀ a ∈ l, p a) (s : σ) : Along f (fun a _ => p a) l s := by
  induction l generalizing s with
  | nil => trivial
  | cons a l ih =>
    refine ⟨h a (by simp), post_iff.2 ⟨fun _ s' _ => ?_, fun _ _ _ => trivial⟩⟩
    exact ih (fun b hb => h b (by simp [hb])) s'

/-- A run that ends well has met in every round the condition that the round needs. -/
theorem Along.of_forM {f : α → EStateM ε σ PUnit} {G H : α → σ → Prop} {I : σ → Prop}
    {Q : PUnit → σ → Prop} {E : ε → σ → Prop}
    (hstep : ∀ a s, I s → H a s → Post (f a) (fun _ s' => G a s ∧ I s') (fun e s' => E e s' → G a s) s)
    {l : List α} {s : σ} (h : Along f H l s) (hs : I s) (hpost : Post (l.forM f) Q E s) :
    Along f G l s := by
  induction l generalizing s with
  | nil => trivial
  | cons a l ih =>
    have hround := (hstep a s hs h.1).and (h.2.and (post_forM_cons.1 hpost))
    refine ⟨?_, hround.mono (fun _ _ ⟨hg, hrest, hpost⟩ => ih hrest hg.2 hpost) fun _ _ _ => trivial⟩
    exact (hround.mono (fun _ _ h => h.1.1) fun _ _ h => h.1 h.2.2).const

/-- What the rounds of the loop add up to, up to the one that stops. The program does not know of
it: `g` sees the state before and the one after each round. -/
def Ghost {γ : Type} (f : α → EStateM ε σ PUnit) (g : α → σ → σ → γ → γ) : List α → σ → γ → γ
  | [], _, w => w
  | a :: l, s, w =>
    match f a s with
    | .ok _ s' => Ghost f g l s' (g a s s' w)
    | .error _ _ => w

/-- The rule of loops with a ghost. -/
theorem Along.forM_ghost {γ : Type} {f : α → EStateM ε σ PUnit} {g : α → σ → σ → γ → γ}
    {G : α → σ → Prop} {I : γ → σ → Prop} {E : γ → ε → σ → Prop}
    (hstep : ∀ a w s, I w s → G a s → Post (f a) (fun _ s' => I (g a s s' w) s') (E w) s)
    {l : List α} {s : σ} (h : Along f G l s) {w : γ} (hs : I w s) :
    Post (l.forM f) (fun _ => I (Ghost f g l s w)) (E (Ghost f g l s w)) s := by
  induction l generalizing s w with
  | nil => exact hs
  | cons a l ih =>
    have hround := (hstep a w s hs h.1).and h.2
    refine post_forM_cons.2 (post_iff.2 ⟨fun _ s' hs' => ?_, fun e s' hs' => ?_⟩)
    · have h' := hround.of_ok hs'
      rw [Ghost, hs']
      exact ih h'.2 h'.1
    · rw [Ghost, hs']
      exact (hround.of_error hs').1

attribute [irreducible] Post

/-! ### What code leaves alone -/

/-- The code leaves `f` of the state alone, also when it stops. -/
def Frames {γ : Type} (f : σ → γ) (x : EStateM ε σ α) : Prop :=
  ∀ s, Post x (fun _ s' => f s' = f s) (fun _ s' => f s' = f s) s

namespace Frames

variable {γ : Type} {f : σ → γ} {x y : EStateM ε σ α}

theorem of_pure (a : α) : Frames f (pure a : EStateM ε σ α) := fun _ => post_pure.2 rfl

theorem of_throw (e : ε) : Frames f (throw e : EStateM ε σ α) := fun _ => post_throw.2 rfl

theorem of_modify {g : σ → σ} (h : ∀ s, f (g s) = f s) :
    Frames f (modify g : EStateM ε σ PUnit) := fun s => post_modify.2 (h s)

theorem post (h : Frames f x) {s s₀ : σ} (hs : f s = f s₀) :
    Post x (fun _ s' => f s' = f s₀) (fun _ s' => f s' = f s₀) s :=
  (h s).mono (fun _ _ h' => h'.trans hs) fun _ _ h' => h'.trans hs

theorem bind {g : α → EStateM ε σ β} (hx : Frames f x) (hg : ∀ a, Frames f (g a)) :
    Frames f (x >>= g) :=
  fun s => post_bind.2 ((hx s).imp fun a _ hs => (hg a).post hs)

theorem get_bind {g : σ → EStateM ε σ β} (hg : ∀ s, Frames f (g s)) : Frames f (get >>= g) :=
  fun s => post_bind.2 (post_get.2 (hg s s))

theorem modify_bind {g : σ → σ} {y : EStateM ε σ β} (h : ∀ s, f (g s) = f s) (hy : Frames f y) :
    Frames f (modify g >>= fun _ => y) := (of_modify h).bind fun _ => hy

theorem ite {c : Prop} [Decidable c] (hx : Frames f x) (hy : Frames f y) :
    Frames f (if c then x else y) := by
  split
  · exact hx
  · exact hy

theorem guard {c : Prop} [Decidable c] {e : ε} (hx : Frames f x) :
    Frames f (if c then throw e >>= fun _ : β => x else x) :=
  ite ((of_throw e).bind fun _ => hx) hx

theorem of_discard (hx : Frames f x) : Frames f (discard x) :=
  fun s => post_discard.2 (hx s)

theorem forM {g : β → EStateM ε σ PUnit} {l : List β} (h : ∀ b ∈ l, Frames f (g b)) :
    Frames f (l.forM g) := by
  induction l with
  | nil => exact of_pure _
  | cons b l ih => exact (h b (by simp)).bind fun _ => ih fun b hb => h b (by simp [hb])

theorem comp {δ : Type} (h : Frames f x) (g : γ → δ) : Frames (fun s => g (f s)) x :=
  fun s => (h s).mono (fun _ _ hs => congrArg g hs) fun _ _ hs => congrArg g hs

end Frames

/-! ### What code keeps -/

/-- The code keeps the invariant `I`, also when it stops. -/
def Preserves (I : σ → Prop) (x : EStateM ε σ α) : Prop :=
  ∀ s, I s → Post x (fun _ => I) (fun _ => I) s

namespace Preserves

variable {I : σ → Prop} {x y : EStateM ε σ α}

theorem of_pure (a : α) : Preserves I (pure a : EStateM ε σ α) := fun _ h => post_pure.2 h

theorem of_throw (e : ε) : Preserves I (throw e : EStateM ε σ α) := fun _ h => post_throw.2 h

theorem of_modify {g : σ → σ} (hg : ∀ s, I s → I (g s)) :
    Preserves I (modify g : EStateM ε σ PUnit) := fun s h => post_modify.2 (hg s h)

theorem bind {g : α → EStateM ε σ β} (hx : Preserves I x) (hg : ∀ a, Preserves I (g a)) :
    Preserves I (x >>= g) :=
  fun s h => post_bind.2 ((hx s h).imp fun a s' h' => hg a s' h')

theorem get_bind {g : σ → EStateM ε σ β} (hg : ∀ s, Preserves I (g s)) :
    Preserves I (get >>= g) :=
  fun s h => post_bind.2 (post_get.2 (hg s s h))

theorem modify_bind {g : σ → σ} {y : EStateM ε σ β} (hg : ∀ s, I s → I (g s))
    (hy : Preserves I y) : Preserves I (modify g >>= fun _ => y) := (of_modify hg).bind fun _ => hy

theorem ite {c : Prop} [Decidable c] (hx : Preserves I x) (hy : Preserves I y) :
    Preserves I (if c then x else y) := by
  split
  · exact hx
  · exact hy

theorem guard {c : Prop} [Decidable c] {e : ε} (hx : Preserves I x) :
    Preserves I (if c then throw e >>= fun _ : β => x else x) :=
  ite ((of_throw e).bind fun _ => hx) hx

theorem of_discard (hx : Preserves I x) : Preserves I (discard x) :=
  fun s h => post_discard.2 (hx s h)

theorem forM {g : β → EStateM ε σ PUnit} {l : List β} (hg : ∀ b, Preserves I (g b)) :
    Preserves I (l.forM g) := by
  induction l with
  | nil => exact of_pure _
  | cons b l ih => exact (hg b).bind fun _ => ih

end Preserves

/-! ### Code that does not look -/

/-- The result with another final state. -/
def Result.mapState (φ : σ → σ) : Result ε σ α → Result ε σ α
  | .ok a s => .ok a (φ s)
  | .error e s => .error e (φ s)

/-- From `s`, it makes no difference whether the state is changed by `φ` before the code or after
it. -/
def CommutesAt (φ : σ → σ) (x : EStateM ε σ α) (s : σ) : Prop := x (φ s) = (x s).mapState φ

/-- The code neither reads nor writes what `φ` changes. -/
def Commutes (φ : σ → σ) (x : EStateM ε σ α) : Prop := ∀ s, CommutesAt φ x s

namespace Commutes

variable {φ : σ → σ}

theorem of_pure (a : α) : Commutes φ (pure a : EStateM ε σ α) := fun _ => rfl

theorem modify_bind {g : σ → σ} {y : EStateM ε σ β} (h : ∀ s, g (φ s) = φ (g s))
    (hy : Commutes φ y) : Commutes φ (modify g >>= fun _ => y) := by
  intro s
  show y (g (φ s)) = (y (g s)).mapState φ
  rw [h]
  exact hy (g s)

end Commutes

/-! ### Two runs -/

/-- From `s` and `s'` the code ends in the same way, in states that are the same but for what `φ`
hides. -/
def AlikeAt (φ : σ → σ) (x : EStateM ε σ α) (s s' : σ) : Prop :=
  (x s).mapState φ = (x s').mapState φ

/-- What `φ` hides makes no difference to the code. -/
def Alike (φ : σ → σ) (x : EStateM ε σ α) : Prop := ∀ s s', φ s = φ s' → AlikeAt φ x s s'

section
variable {φ : σ → σ} {x y : EStateM ε σ α} {s s' : σ}

theorem AlikeAt.bind {f : α → EStateM ε σ β} (hx : AlikeAt φ x s s')
    (hf : ∀ a t t', x s = .ok a t → x s' = .ok a t' → φ t = φ t' → AlikeAt φ (f a) t t') :
    AlikeAt φ (x >>= f) s s' := by
  show (EStateM.bind x f s).mapState φ = (EStateM.bind x f s').mapState φ
  rw [EStateM.bind, EStateM.bind]
  rw [AlikeAt] at hx
  cases h : x s with
  | ok a t =>
    cases h' : x s' with
    | ok a' t' =>
      rw [h, h'] at hx
      obtain ⟨rfl, ht⟩ := Result.ok.inj hx
      exact hf a t t' h h' ht
    | error e t' =>
      rw [h, h'] at hx
      exact absurd hx (by simp [Result.mapState])
  | error e t =>
    cases h' : x s' with
    | ok a t' =>
      rw [h, h'] at hx
      exact absurd hx (by simp [Result.mapState])
    | error e' t' =>
      rw [h, h'] at hx
      obtain ⟨rfl, ht⟩ := Result.error.inj hx
      exact congrArg (Result.error e) ht

theorem AlikeAt.get_bind {f : σ → EStateM ε σ β} (h : f s' = f s) (hf : AlikeAt φ (f s) s s') :
    AlikeAt φ (get >>= f) s s' := by
  show (f s s).mapState φ = (f s' s').mapState φ
  rw [h]
  exact hf

theorem AlikeAt.modify_bind {g : σ → σ} {y : EStateM ε σ β} (hy : AlikeAt φ y (g s) (g s')) :
    AlikeAt φ (modify g >>= fun _ => y) s s' := hy

theorem AlikeAt.ite {c : Prop} [Decidable c] (hx : c → AlikeAt φ x s s')
    (hy : ¬c → AlikeAt φ y s s') : AlikeAt φ (if c then x else y) s s' := by
  split
  · next h => exact hx h
  · next h => exact hy h

namespace Alike

theorem of_pure (a : α) : Alike φ (pure a : EStateM ε σ α) :=
  fun _ _ h => congrArg (Result.ok a) h

theorem of_throw (e : ε) : Alike φ (throw e : EStateM ε σ α) :=
  fun _ _ h => congrArg (Result.error e) h

/-- An assignment to what `φ` shows. -/
theorem of_modify {g : σ → σ} (h : ∀ s, g (φ s) = φ (g s)) :
    Alike φ (modify g : EStateM ε σ PUnit) := by
  intro s s' hs
  show Result.ok _ (φ (g s)) = Result.ok _ (φ (g s'))
  rw [← h, ← h, hs]

/-- An assignment that may reach what `φ` hides. -/
theorem of_store {g : σ → σ} (h : ∀ s, φ (g (φ s)) = φ (g s)) :
    Alike φ (modify g : EStateM ε σ PUnit) := by
  intro s s' hs
  show Result.ok _ (φ (g s)) = Result.ok _ (φ (g s'))
  rw [← h s, ← h s', hs]

theorem bind {f : α → EStateM ε σ β} (hx : Alike φ x) (hf : ∀ a, Alike φ (f a)) :
    Alike φ (x >>= f) := fun s s' h => (hx s s' h).bind fun a t t' _ _ ht => hf a t t' ht

theorem get_bind {f : σ → EStateM ε σ β} (h : ∀ s, f (φ s) = f s) (hf : ∀ s, Alike φ (f s)) :
    Alike φ (get >>= f) := fun s s' hs => .get_bind (by rw [← h s', ← hs, h]) (hf s s s' hs)

theorem modify_bind {g : σ → σ} {y : EStateM ε σ β} (h : ∀ s, g (φ s) = φ (g s))
    (hy : Alike φ y) : Alike φ (modify g >>= fun _ => y) := (of_modify h).bind fun _ => hy

theorem store_bind {g : σ → σ} {y : EStateM ε σ β} (h : ∀ s, φ (g (φ s)) = φ (g s))
    (hy : Alike φ y) : Alike φ (modify g >>= fun _ => y) := (of_store h).bind fun _ => hy

theorem ite {c : Prop} [Decidable c] (hx : Alike φ x) (hy : Alike φ y) :
    Alike φ (if c then x else y) :=
  fun s s' h => .ite (fun _ => hx s s' h) fun _ => hy s s' h

theorem guard {c : Prop} [Decidable c] {e : ε} (hx : Alike φ x) :
    Alike φ (if c then throw e >>= fun _ : β => x else x) :=
  ite ((of_throw e).bind fun _ => hx) hx

end Alike

end

end EStateM
