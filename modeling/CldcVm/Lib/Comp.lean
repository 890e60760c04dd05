import Mathlib.Tactic

/-!
# Stateful computations that may fail

`Comp σ ε α` computes on a state `σ` and either returns or throws. Some kinds
of facts about such computations are closed under sequencing, and a proof about
a long program is put together from the facts about its steps:

* `Agrees R x`: two runs of `x` from `R`-related states both throw, or return
  the same value in `R`-related states (a two-run property);
* `Triple P E Q x`: from `P`, `x` returns with `Q` or throws an error with `E`;
* `Keeps I E V x`: `x` keeps the invariant `I`, returns values with `V` and throws
  errors with `E`;
* `Simulates P Q x y`, `Tracks R V x y`: where `x` returns, `y` returns, in
  related states;
* `bind_eq_ok`: a sequence returns iff its parts do.
-/

namespace CldcVm.Lib

/-- Computations on a state `σ` that may throw an `ε`. -/
abbrev Comp (σ ε : Type) := StateT σ (Except ε)

variable {σ ε α β : Type}

namespace Comp

@[simp] theorem pure_apply (a : α) (s : σ) : (pure a : Comp σ ε α) s = .ok (a, s) := rfl

@[simp] theorem throw_apply (e : ε) (s : σ) : (throw e : Comp σ ε α) s = .error e := rfl

@[simp] theorem get_apply (s : σ) : (get : Comp σ ε σ) s = .ok (s, s) := rfl

@[simp] theorem modify_apply (f : σ → σ) (s : σ) :
    (modify f : Comp σ ε PUnit) s = .ok ((), f s) := rfl

theorem bind_apply (x : Comp σ ε α) (f : α → Comp σ ε β) (s : σ) : (x >>= f) s =
      match x s with
      | .ok (a, s') => f a s'
      | .error e => .error e := by
  change Except.bind (x s) _ = _
  cases x s <;> rfl

theorem get_bind_apply (f : σ → Comp σ ε α) (s : σ) : (get >>= f) s = f s s := rfl

theorem bind_eq_ok {x : Comp σ ε α} {f : α → Comp σ ε β} {s : σ} {r : β × σ} :
    (x >>= f) s = .ok r ↔ ∃ a s', x s = .ok (a, s') ∧ f a s' = .ok r := by
  rw [bind_apply]
  cases hx : x s with
  | error e => simp
  | ok p =>
    obtain ⟨a, s'⟩ := p
    simp

theorem bind_eq_error {x : Comp σ ε α} {f : α → Comp σ ε β} {s : σ} {e : ε} :
    (x >>= f) s = .error e ↔ x s = .error e ∨ ∃ a s', x s = .ok (a, s') ∧ f a s' = .error e := by
  rw [bind_apply]
  cases hx : x s with
  | error e' => simp
  | ok p =>
    obtain ⟨a, s'⟩ := p
    simp

/-- A computation that does not look at the state. -/
def ofExcept (x : Except ε α) : Comp σ ε α := fun s =>
  match x with
  | .ok a => .ok (a, s)
  | .error e => .error e

theorem ofExcept_eq_ok {x : Except ε α} {s s' : σ} {a : α} :
    (ofExcept x : Comp σ ε α) s = .ok (a, s') ↔ x = .ok a ∧ s' = s := by
  unfold ofExcept
  cases x with
  | error e => simp
  | ok b =>
    simp only [Except.ok.injEq, Prod.mk.injEq]
    exact ⟨fun h => ⟨h.1, h.2.symm⟩, fun h => ⟨h.1, h.2.symm⟩⟩

/-! ## Two runs -/

/-- Two outcomes agree: both errors, or the same value in related states. -/
def OutcomesAgree (R : σ → σ → Prop) : Except ε (α × σ) → Except ε (α × σ) → Prop
  | .ok (a, s), .ok (b, t) => a = b ∧ R s t
  | .error _, .error _ => True
  | _, _ => False

/-- Two runs from related states have outcomes that agree. -/
def Agrees (R : σ → σ → Prop) (x : Comp σ ε α) : Prop :=
  ∀ s t, R s t → OutcomesAgree R (x s) (x t)

theorem Agrees.pure (R : σ → σ → Prop) (a : α) : Agrees R (Pure.pure a : Comp σ ε α) :=
  fun _ _ h => ⟨rfl, h⟩

theorem Agrees.throw (R : σ → σ → Prop) (e : ε) : Agrees R (throw e : Comp σ ε α) :=
  fun _ _ _ => trivial

/-- Two runs whose first parts agree, and whose second parts cannot tell related
states apart, agree. -/
theorem OutcomesAgree.bind {R : σ → σ → Prop} {x : Comp σ ε α} {f : α → Comp σ ε β} {s t : σ}
    (h : OutcomesAgree R (x s) (x t)) (hf : ∀ a, Agrees R (f a)) :
    OutcomesAgree R ((x >>= f) s) ((x >>= f) t) := by
  rw [bind_apply, bind_apply]
  rcases hs : x s with e | ⟨a, s'⟩ <;> rcases ht : x t with e' | ⟨b, t'⟩ <;>
    rw [hs, ht] at h
  · exact trivial
  · exact h.elim
  · exact h.elim
  · obtain ⟨rfl, hst'⟩ := h
    exact hf a s' t' hst'

theorem Agrees.bind {R : σ → σ → Prop} {x : Comp σ ε α} {f : α → Comp σ ε β}
    (hx : Agrees R x) (hf : ∀ a, Agrees R (f a)) : Agrees R (x >>= f) :=
  fun s t hst => (hx s t hst).bind hf

theorem Agrees.ite {R : σ → σ → Prop} {p : Prop} [Decidable p] {x y : Comp σ ε α}
    (hx : p → Agrees R x) (hy : ¬ p → Agrees R y) : Agrees R (if p then x else y) := by
  split_ifs with h
  · exact hx h
  · exact hy h

theorem Agrees.ofExcept (R : σ → σ → Prop) (x : Except ε α) :
    Agrees R (ofExcept x : Comp σ ε α) := by
  intro s t hst
  cases x with
  | error e => exact trivial
  | ok a => exact ⟨rfl, hst⟩

/-- For a symmetric relation it is enough that what the one run returns, the
other returns. -/
theorem Agrees.of_symm {R : σ → σ → Prop} (hsymm : ∀ s t, R s t → R t s) {x : Comp σ ε α}
    (h : ∀ s t, R s t → ∀ a s', x s = .ok (a, s') → ∃ t', x t = .ok (a, t') ∧ R s' t') :
    Agrees R x := by
  intro s t hst
  rcases hs : x s with e | ⟨a, s'⟩
  · rcases ht : x t with e' | ⟨b, t'⟩
    · exact trivial
    · obtain ⟨s', hs', -⟩ := h t s (hsymm s t hst) b t' ht
      rw [hs] at hs'
      cases hs'
  · obtain ⟨t', ht, hst'⟩ := h s t hst a s' hs
    rw [ht]
    exact ⟨rfl, hst'⟩

/-- A step that reads the state may read what related states share. -/
theorem Agrees.get_bind {R : σ → σ → Prop} {f : σ → Comp σ ε α}
    (hf : ∀ s t, R s t → OutcomesAgree R (f s s) (f t t)) : Agrees R (get >>= f) := by
  intro s t hst
  exact hf s t hst

theorem Agrees.modify {R : σ → σ → Prop} {f : σ → σ} (hf : ∀ s t, R s t → R (f s) (f t)) :
    Agrees R (modify f : Comp σ ε PUnit) :=
  fun s t hst => ⟨rfl, hf s t hst⟩

/-! ## Triples and invariants -/

/-- From a state with `P` the computation returns with `Q`, or it throws an error
with `E`. -/
def Triple (P : σ → Prop) (E : ε → Prop) (Q : α → σ → Prop) (x : Comp σ ε α) : Prop :=
  ∀ s, P s →
    match x s with
    | .ok (a, s') => Q a s'
    | .error e => E e

section Triple

variable {P : σ → Prop} {E : ε → Prop} {Q : α → σ → Prop} {S : β → σ → Prop}

theorem Triple.intro {x : Comp σ ε α} (hok : ∀ s a s', P s → x s = .ok (a, s') → Q a s')
    (herr : ∀ s e, P s → x s = .error e → E e) : Triple P E Q x := by
  intro s hs
  rcases hx : x s with e | ⟨a, s'⟩
  · exact herr s e hs hx
  · exact hok s a s' hs hx

theorem Triple.ok {x : Comp σ ε α} (h : Triple P E Q x) {s s' : σ} {a : α} (hs : P s)
    (hx : x s = .ok (a, s')) : Q a s' := by
  have := h s hs
  rw [hx] at this
  exact this

theorem Triple.error {x : Comp σ ε α} (h : Triple P E Q x) {s : σ} {e : ε} (hs : P s)
    (hx : x s = .error e) : E e := by
  have := h s hs
  rw [hx] at this
  exact this

theorem Triple.pure {a : α} (ha : ∀ s, P s → Q a s) : Triple P E Q (Pure.pure a : Comp σ ε α) := ha

theorem Triple.throw {e : ε} (he : E e) : Triple P E Q (throw e : Comp σ ε α) :=
  fun _ _ => he

theorem Triple.bind {x : Comp σ ε α} {f : α → Comp σ ε β} (hx : Triple P E Q x)
    (hf : ∀ a, Triple (Q a) E S (f a)) : Triple P E S (x >>= f) := by
  intro s hs
  rw [bind_apply]
  rcases h : x s with e | ⟨a, s'⟩
  · exact hx.error hs h
  · exact hf a s' (hx.ok hs h)

theorem Triple.ite {p : Prop} [Decidable p] {x y : Comp σ ε α}
    (hx : p → Triple P E Q x) (hy : ¬ p → Triple P E Q y) : Triple P E Q (if p then x else y) := by
  split_ifs with h
  · exact hx h
  · exact hy h

/-- A step that reads the state may use what is known of it. -/
theorem Triple.get_bind {f : σ → Comp σ ε α}
    (hf : ∀ s, P s → match f s s with
      | .ok (a, s') => Q a s'
      | .error e => E e) : Triple P E Q (get >>= f) := hf

end Triple

/-- The computation keeps the invariant `I`, returns values with `V` and throws
errors with `E`. -/
def Keeps (I : σ → Prop) (E : ε → Prop) (V : α → Prop) (x : Comp σ ε α) : Prop :=
  Triple I E (fun a s => V a ∧ I s) x

section Keeps

variable {I : σ → Prop} {E : ε → Prop} {V : α → Prop} {W : β → Prop}

theorem Keeps.pure {a : α} (ha : V a) : Keeps I E V (Pure.pure a : Comp σ ε α) :=
  Triple.pure fun _ hs => ⟨ha, hs⟩

theorem Keeps.throw {e : ε} (he : E e) : Keeps I E V (throw e : Comp σ ε α) := Triple.throw he

theorem Keeps.bind {x : Comp σ ε α} {f : α → Comp σ ε β} (hx : Keeps I E V x)
    (hf : ∀ a, V a → Keeps I E W (f a)) : Keeps I E W (x >>= f) :=
  Triple.bind hx fun a s hs => hf a hs.1 s hs.2

theorem Keeps.ite {p : Prop} [Decidable p] {x y : Comp σ ε α}
    (hx : p → Keeps I E V x) (hy : ¬ p → Keeps I E V y) : Keeps I E V (if p then x else y) :=
  Triple.ite hx hy

theorem Keeps.ofExcept {x : Except ε α} (hok : ∀ a, x = .ok a → V a)
    (herr : ∀ e, x = .error e → E e) : Keeps I E V (ofExcept x : Comp σ ε α) := by
  intro s hs
  cases x with
  | error e => exact herr e rfl
  | ok a => exact ⟨hok a rfl, hs⟩

end Keeps

/-! ## Simulation -/

/-- From states related by `P`: where `x` returns, `y` returns, and values and
states are related by `Q`. -/
def Simulates {τ δ : Type} (P : σ → τ → Prop) (Q : α → β → σ → τ → Prop) (x : Comp σ ε α)
    (y : Comp τ δ β) : Prop :=
  ∀ s t, P s t → ∀ a s', x s = .ok (a, s') → ∃ b t', y t = .ok (b, t') ∧ Q a b s' t'

section Simulates

variable {τ δ γ ζ : Type} {P : σ → τ → Prop} {Q : α → β → σ → τ → Prop}
  {S : γ → ζ → σ → τ → Prop}

theorem Simulates.pure {a : α} {b : β} (h : ∀ s t, P s t → Q a b s t) :
    Simulates P Q (Pure.pure a : Comp σ ε α) (Pure.pure b : Comp τ δ β) := by
  intro s t hst a' s' hx
  cases hx
  exact ⟨b, t, rfl, h s t hst⟩

theorem Simulates.throw (e : ε) (y : Comp τ δ β) : Simulates P Q (throw e : Comp σ ε α) y := by
  intro s t hst a s' hx
  cases hx

theorem Simulates.bind {x : Comp σ ε α} {y : Comp τ δ β} {f : α → Comp σ ε γ}
    {g : β → Comp τ δ ζ} (hx : Simulates P Q x y)
    (hf : ∀ a b, Simulates (Q a b) S (f a) (g b)) : Simulates P S (x >>= f) (y >>= g) := by
  intro s t hst c s' h
  obtain ⟨a, s₁, h1, h2⟩ := bind_eq_ok.mp h
  obtain ⟨b, t₁, h3, hQ⟩ := hx s t hst a s₁ h1
  obtain ⟨d, t', h4, hS⟩ := hf a b s₁ t₁ hQ c s' h2
  exact ⟨d, t', bind_eq_ok.mpr ⟨b, t₁, h3, h4⟩, hS⟩

/-- A check of the one side has no counterpart on the other. -/
theorem Simulates.check_bind {x : Comp σ ε α} {f : α → Comp σ ε γ} {y : Comp τ δ ζ}
    {I : α → σ → τ → Prop} (hx : ∀ s t, P s t → ∀ a s', x s = .ok (a, s') → I a s' t)
    (hf : ∀ a, Simulates (I a) S (f a) y) : Simulates P S (x >>= f) y := by
  intro s t hst c s' h
  obtain ⟨a, s₁, h1, h2⟩ := bind_eq_ok.mp h
  exact hf a s₁ t (hx s t hst a s₁ h1) c s' h2

theorem Simulates.ite {p : Prop} [Decidable p] {x x' : Comp σ ε α} {y : Comp τ δ β}
    (hx : p → Simulates P Q x y) (hx' : ¬ p → Simulates P Q x' y) :
    Simulates P Q (if p then x else x') y := by
  split_ifs with h
  · exact hx h
  · exact hx' h

theorem Simulates.weaken {Q' : α → β → σ → τ → Prop} {x : Comp σ ε α} {y : Comp τ δ β}
    (h : Simulates P Q x y) (hQ : ∀ a b s t, Q a b s t → Q' a b s t) : Simulates P Q' x y := by
  intro s t hst a s' hx
  obtain ⟨b, t', h1, h2⟩ := h s t hst a s' hx
  exact ⟨b, t', h1, hQ _ _ _ _ h2⟩

end Simulates

/-- The two keep the relation `R`, and their values are related by `V`. -/
def Tracks {τ δ : Type} (R : σ → τ → Prop) (V : α → β → Prop) (x : Comp σ ε α)
    (y : Comp τ δ β) : Prop :=
  Simulates R (fun a b s t => V a b ∧ R s t) x y

section Tracks

variable {τ δ γ ζ : Type} {R : σ → τ → Prop} {V : α → β → Prop} {W : γ → ζ → Prop}
  {S : γ → ζ → σ → τ → Prop}

theorem Tracks.pure {a : α} {b : β} (h : V a b) :
    Tracks R V (Pure.pure a : Comp σ ε α) (Pure.pure b : Comp τ δ β) :=
  Simulates.pure fun _ _ hst => ⟨h, hst⟩

theorem Tracks.throw (e : ε) (y : Comp τ δ β) : Tracks R V (throw e : Comp σ ε α) y :=
  Simulates.throw e y

/-- After a step that keeps the relation, anything may follow. -/
theorem Tracks.bind_simulates {x : Comp σ ε α} {y : Comp τ δ β} {f : α → Comp σ ε γ}
    {g : β → Comp τ δ ζ} (hx : Tracks R V x y)
    (hf : ∀ a b, V a b → Simulates R S (f a) (g b)) : Simulates R S (x >>= f) (y >>= g) :=
  Simulates.bind hx fun a b s t hst => hf a b hst.1 s t hst.2

theorem Tracks.bind {x : Comp σ ε α} {y : Comp τ δ β} {f : α → Comp σ ε γ}
    {g : β → Comp τ δ ζ} (hx : Tracks R V x y)
    (hf : ∀ a b, V a b → Tracks R W (f a) (g b)) : Tracks R W (x >>= f) (y >>= g) :=
  hx.bind_simulates hf

theorem Tracks.ite {p : Prop} [Decidable p] {x x' : Comp σ ε α} {y : Comp τ δ β}
    (hx : p → Tracks R V x y) (hx' : ¬ p → Tracks R V x' y) :
    Tracks R V (if p then x else x') y :=
  Simulates.ite hx hx'

/-- A check that does not look at the state has no counterpart. -/
theorem Tracks.ofExcept_bind {x : Except ε α} {f : α → Comp σ ε γ} {y : Comp τ δ ζ}
    (hf : ∀ a, x = .ok a → Tracks R W (f a) y) : Tracks R W (ofExcept x >>= f) y :=
  Simulates.check_bind (I := fun a s t => x = .ok a ∧ R s t)
    (fun s t hst a s' hx => by
      obtain ⟨hok, rfl⟩ := ofExcept_eq_ok.mp hx
      exact ⟨hok, hst⟩)
    fun a s t hst => hf a hst.1 s t hst.2

/-- The same where the check comes last. -/
theorem Tracks.bind_ofExcept {x : Comp σ ε α} {f : α → Except ε γ} {y : Comp τ δ β}
    (hx : Tracks R V x y) : Tracks R (fun _ b => ∃ a, V a b) (x >>= fun a => ofExcept (f a)) y := by
  intro s t hst c s' h
  obtain ⟨a, s₁, h1, h2⟩ := bind_eq_ok.mp h
  obtain ⟨-, rfl⟩ := ofExcept_eq_ok.mp h2
  obtain ⟨b, t', h3, hV, hR⟩ := hx s t hst a s' h1
  exact ⟨b, t', h3, ⟨a, hV⟩, hR⟩

theorem Tracks.weaken {V' : α → β → Prop} {x : Comp σ ε α} {y : Comp τ δ β}
    (h : Tracks R V x y) (hV : ∀ a b, V a b → V' a b) : Tracks R V' x y :=
  Simulates.weaken h fun _ _ _ _ hst => ⟨hV _ _ hst.1, hst.2⟩

end Tracks

end Comp

end CldcVm.Lib
