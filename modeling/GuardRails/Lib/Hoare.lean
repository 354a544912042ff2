import Mathlib.Tactic.Common

/-!
# Weakest preconditions for a state monad that can halt

`EStateM ε σ α` is a computation over the state `σ` that either returns a value
of `α` or halts with an `ε`; the state is kept in both cases. `wp x Q E s` says
that running `x` from `s` ends in a value and a state that satisfy `Q`, or halts
in a way that satisfies `E`. The rules below have the shape of the program text:
a proof applies the rule of the first statement and goes on with the rest.
-/

namespace StateHoare

variable {ε σ α β : Type}

/-- Running `x` from `s` satisfies `Q` when it returns and `E` when it halts. -/
def wp (x : EStateM ε σ α) (Q : α → σ → Prop) (E : ε → σ → Prop) (s : σ) : Prop :=
  match x s with
  | .ok a s' => Q a s'
  | .error e s' => E e s'

variable {Q Q' : α → σ → Prop} {E E' : ε → σ → Prop} {s : σ}

/-- What a run that returns satisfies. -/
theorem wp_ok {x : EStateM ε σ α} {a : α} {s' : σ}
    (h : wp x Q E s) (hx : x s = .ok a s') : Q a s' := by
  simpa only [wp, hx] using h

/-- What a run that halts satisfies. -/
theorem wp_error {x : EStateM ε σ α} {e : ε} {s' : σ}
    (h : wp x Q E s) (hx : x s = .error e s') : E e s' := by
  simpa only [wp, hx] using h

/-- A run that cannot return halts. -/
theorem wp_halts {x : EStateM ε σ α} (h : wp x (fun _ _ => False) E s) :
    ∃ e s', x s = .error e s' ∧ E e s' := by
  cases hx : x s with
  | ok a s' => exact (wp_ok h hx).elim
  | error e s' => exact ⟨e, s', rfl, wp_error h hx⟩

/-- A run that cannot halt returns. -/
theorem wp_returns {x : EStateM ε σ α} (h : wp x Q (fun _ _ => False) s) :
    ∃ a s', x s = .ok a s' ∧ Q a s' := by
  cases hx : x s with
  | ok a s' => exact ⟨a, s', rfl, wp_ok h hx⟩
  | error e s' => exact (wp_error h hx).elim

/-- A run that is known to return. -/
theorem wp_of_ok {x : EStateM ε σ α} {a : α} {s' : σ} (hx : x s = .ok a s') (h : Q a s') :
    wp x Q E s := by
  unfold wp
  rw [hx]
  exact h

/-- The rule of consequence. -/
theorem wp_mono {x : EStateM ε σ α} (h : wp x Q E s)
    (hQ : ∀ a s', Q a s' → Q' a s') (hE : ∀ e s', E e s' → E' e s') :
    wp x Q' E' s := by
  unfold wp at h ⊢
  cases hx : x s with
  | ok a s' =>
      rw [hx] at h
      exact hQ a s' h
  | error e s' =>
      rw [hx] at h
      exact hE e s' h

/-- A run may be looked at itself. -/
theorem wp_run {x : EStateM ε σ α} (hQ : ∀ a s', x s = .ok a s' → Q a s')
    (hE : ∀ e s', x s = .error e s' → E e s') : wp x Q E s := by
  unfold wp
  cases hx : x s with
  | ok a s' => exact hQ a s' hx
  | error e s' => exact hE e s' hx

theorem run_bind {x : EStateM ε σ α} {f : α → EStateM ε σ β} {a : α} {s' : σ}
    {r : EStateM.Result ε σ β} (hx : x s = .ok a s') (hf : f a s' = r) : (x >>= f) s = r := by
  change EStateM.bind x f s = r
  rw [EStateM.bind, hx]
  exact hf

theorem run_bind_error {x : EStateM ε σ α} {f : α → EStateM ε σ β} {e : ε} {s' : σ}
    (hx : x s = .error e s') : (x >>= f) s = .error e s' := by
  change EStateM.bind x f s = _
  rw [EStateM.bind, hx]

/-- Two runs that agree on what comes first. -/
theorem run_bind_congr {x y : EStateM ε σ α} {f : α → EStateM ε σ β} (h : x s = y s) :
    (x >>= f) s = (y >>= f) s := by
  cases hx : x s with
  | ok a s' => rw [run_bind hx rfl, run_bind (h.symm.trans hx) rfl]
  | error e s' => rw [run_bind_error hx, run_bind_error (h.symm.trans hx)]

/-- Two runs that agree on what comes after. -/
theorem run_bind_of_ok {x : EStateM ε σ α} {f g : α → EStateM ε σ β}
    (h : ∀ a s', x s = .ok a s' → f a s' = g a s') : (x >>= f) s = (x >>= g) s := by
  cases hx : x s with
  | ok a s' => rw [run_bind hx rfl, run_bind hx rfl, h a s' hx]
  | error e s' => rw [run_bind_error hx, run_bind_error hx]

theorem run_bind_eq_ok {x : EStateM ε σ α} {f : α → EStateM ε σ β} {b : β} {s' : σ}
    (h : (x >>= f) s = .ok b s') : ∃ a s₁, x s = .ok a s₁ ∧ f a s₁ = .ok b s' := by
  cases hx : x s with
  | ok a s₁ => exact ⟨a, s₁, rfl, (run_bind hx rfl).symm.trans h⟩
  | error e s₁ =>
      rw [run_bind_error hx] at h
      cases h

theorem run_bind_eq_error {x : EStateM ε σ α} {f : α → EStateM ε σ β} {e : ε} {s' : σ}
    (h : (x >>= f) s = .error e s') :
    x s = .error e s' ∨ ∃ a s₁, x s = .ok a s₁ ∧ f a s₁ = .error e s' := by
  cases hx : x s with
  | ok a s₁ => exact .inr ⟨a, s₁, rfl, (run_bind hx rfl).symm.trans h⟩
  | error e' s₁ =>
      rw [run_bind_error hx] at h
      cases h
      exact .inl rfl

theorem wp_trivial (x : EStateM ε σ α) : wp x (fun _ _ => True) (fun _ _ => True) s := by
  unfold wp
  cases x s <;> trivial

/-- Both of two facts about one run. -/
theorem wp_and {x : EStateM ε σ α} (h : wp x Q E s) (h' : wp x Q' E' s) :
    wp x (fun a s' => Q a s' ∧ Q' a s') (fun e s' => E e s' ∧ E' e s') s := by
  unfold wp at h h' ⊢
  cases hx : x s with
  | ok a s' =>
      rw [hx] at h h'
      exact ⟨h, h'⟩
  | error e s' =>
      rw [hx] at h h'
      exact ⟨h, h'⟩

theorem wp_bind_iff {x : EStateM ε σ α} {f : α → EStateM ε σ β} {Q : β → σ → Prop} :
    wp (x >>= f) Q E s ↔ wp x (fun a => wp (f a) Q E) E s := by
  change (match EStateM.bind x f s with
    | .ok a s' => Q a s'
    | .error e s' => E e s') ↔ _
  unfold EStateM.bind wp
  cases x s with
  | ok a s' => rfl
  | error e s' => rfl

/-- Sequencing. -/
theorem wp_bind {x : EStateM ε σ α} {f : α → EStateM ε σ β} {Q : β → σ → Prop}
    (h : wp x (fun a => wp (f a) Q E) E s) : wp (x >>= f) Q E s :=
  wp_bind_iff.2 h

/-- Sequencing after a step whose outcome is known. -/
theorem wp_bind_of {x : EStateM ε σ α} {f : α → EStateM ε σ β} {R : β → σ → Prop}
    (h : wp x Q E s) (hf : ∀ a s', Q a s' → wp (f a) R E s') : wp (x >>= f) R E s :=
  wp_bind (wp_mono h hf fun _ _ he => he)

theorem wp_pure {a : α} (h : Q a s) : wp (pure a : EStateM ε σ α) Q E s := h

theorem wp_get {Q : σ → σ → Prop} (h : Q s s) : wp (get : EStateM ε σ σ) Q E s := h

theorem wp_set {s' : σ} {Q : PUnit → σ → Prop} (h : Q ⟨⟩ s') :
    wp (set s' : EStateM ε σ PUnit) Q E s := h

theorem wp_modify {f : σ → σ} {Q : PUnit → σ → Prop} (h : Q ⟨⟩ (f s)) :
    wp (modify f : EStateM ε σ PUnit) Q E s := h

theorem wp_modifyGet {f : σ → α × σ} (h : Q (f s).1 (f s).2) :
    wp (modifyGet f : EStateM ε σ α) Q E s := h

theorem wp_throw {e : ε} (h : E e s) : wp (throw e : EStateM ε σ α) Q E s := h

theorem wp_ite {c : Prop} [Decidable c] {x y : EStateM ε σ α}
    (hx : c → wp x Q E s) (hy : ¬ c → wp y Q E s) :
    wp (if c then x else y) Q E s := by
  by_cases hc : c
  · rw [if_pos hc]
    exact hx hc
  · rw [if_neg hc]
    exact hy hc

/-- A list walked with an accumulator: `I done acc` holds before each element,
`done` being the elements already walked. -/
theorem wp_foldlM {γ : Type} {f : β → γ → EStateM ε σ β} (I : List γ → β → σ → Prop)
    (xs : List γ) (b : β) (h0 : I [] b s)
    (hstep : ∀ done x todo b s, xs = done ++ x :: todo → I done b s →
      wp (f b x) (I (done ++ [x])) E s) :
    wp (xs.foldlM f b) (I xs) E s := by
  suffices key : ∀ (todo done : List γ) (b : β) (s : σ), xs = done ++ todo →
      I done b s → wp (todo.foldlM f b) (I xs) E s from key xs [] b s rfl h0
  intro todo
  induction todo with
  | nil =>
      intro done b s hxs hI
      rw [List.append_nil] at hxs
      exact hxs ▸ hI
  | cons x todo ih =>
      intro done b s hxs hI
      rw [List.foldlM_cons]
      refine wp_bind_of (hstep done x todo b s hxs hI) ?_
      intro b' s' hI'
      exact ih (done ++ [x]) b' s' (by rw [hxs, List.append_assoc, List.singleton_append]) hI'

/-! ## Invariants -/

/-- `x` keeps `J`, and halts only as `E` allows. -/
def Maintains (J : σ → Prop) (E : ε → σ → Prop) (x : EStateM ε σ α) : Prop :=
  ∀ s, J s → wp x (fun _ => J) E s

variable {J : σ → Prop}

theorem Maintains.bind {x : EStateM ε σ α} {f : α → EStateM ε σ β} (hx : Maintains J E x)
    (hf : ∀ a, Maintains J E (f a)) : Maintains J E (x >>= f) :=
  fun s h => wp_bind_of (hx s h) hf

theorem maintains_pure {a : α} : Maintains J E (pure a) := fun _ h => wp_pure h

theorem maintains_get {f : σ → EStateM ε σ β} (hf : ∀ s, Maintains J E (f s)) :
    Maintains J E (get >>= f) :=
  fun s h => wp_bind (wp_get (hf s s h))

theorem maintains_ite {c : Prop} [Decidable c] {x y : EStateM ε σ α} (hx : Maintains J E x)
    (hy : Maintains J E y) : Maintains J E (if c then x else y) :=
  fun s h => wp_ite (fun _ => hx s h) fun _ => hy s h

theorem maintains_foldlM {γ : Type} {f : β → γ → EStateM ε σ β}
    (hf : ∀ b x, Maintains J E (f b x)) (xs : List γ) (b : β) : Maintains J E (xs.foldlM f b) :=
  fun _ h => wp_foldlM (fun _ _ => J) xs b h fun _ x _ b s _ h => hf b x s h

end StateHoare
