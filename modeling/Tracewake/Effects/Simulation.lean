import Tracewake.Effects.Rules

/-!
# Simulation of computations

One computation follows another one if it returns a related result whenever the other
returns, and raises the same whenever the other raises one of the exceptions that are kept.
There is one rule for each way of putting computations together.
-/

namespace Tracewake.Effects

variable {σ τ ε α β γ δ : Type}

/-- From related states `y` does what `x` does: where `x` returns, `y` returns something
related, and where `x` raises an exception of `K`, `y` raises it too. The states stay
related. -/
def Simulates (R : σ → τ → Prop) (K : ε → Prop) (x : Computation σ ε α) (Q : α → β → Prop)
    (y : Computation τ ε β) : Prop :=
  ∀ s t, R s t →
    (∀ a s', x s = (.ok a, s') → ∃ b t', y t = (.ok b, t') ∧ R s' t' ∧ Q a b) ∧
    (∀ e s', x s = (.error e, s') → K e → ∃ t', y t = (.error e, t') ∧ R s' t')

namespace Simulates

variable {R : σ → τ → Prop} {K : ε → Prop} {x : Computation σ ε α} {y : Computation τ ε β}
  {Q : α → β → Prop} {f : α → Computation σ ε γ} {g : β → Computation τ ε δ}
  {Q' : γ → δ → Prop}

/-- The rule for values. -/
theorem ret {a : α} {b : β} (h : Q a b) :
    Simulates R K (pure a : Computation σ ε α) Q (pure b) := by
  intro s t hst
  constructor
  · intro a' s' hrun
    cases hrun
    exact ⟨b, t, rfl, hst, h⟩
  · intro e s' hrun
    cases hrun

/-- An exception that is not kept is nothing to follow. -/
theorem raise {e : ε} (h : ¬ K e) : Simulates R K (throw e : Computation σ ε α) Q y := by
  intro s t hst
  constructor
  · intro a s' hrun
    cases hrun
  · intro e' s' hrun hkept
    cases hrun
    exact absurd hkept h

/-- The rule for the same error on both sides. -/
theorem raise_same {e : ε} :
    Simulates R K (throw e : Computation σ ε α) Q (throw e : Computation τ ε β) := by
  intro s t hst
  constructor
  · intro a s' hrun
    cases hrun
  · intro e' s' hrun _
    cases hrun
    exact ⟨t, rfl, hst⟩

/-- The rule for sequences. -/
theorem bind (hx : Simulates R K x Q y) (hf : ∀ a b, Q a b → Simulates R K (f a) Q' (g b)) :
    Simulates R K (x >>= f) Q' (y >>= g) := by
  intro s t hst
  obtain ⟨hreturns, hraises⟩ := hx s t hst
  rcases hrun : x s with ⟨e | a, s'⟩
  · rw [run_bind_error hrun]
    constructor
    · intro c s'' hcase
      cases hcase
    · intro e' s'' hcase hkept
      cases hcase
      obtain ⟨t', hy, hrelated⟩ := hraises e s' hrun hkept
      exact ⟨t', run_bind_error hy, hrelated⟩
  · obtain ⟨b, t', hy, hrelated, hab⟩ := hreturns a s' hrun
    rw [run_bind_ok hrun, run_bind_ok hy]
    exact hf a b hab s' t' hrelated

/-- Behind an exception that is not kept nothing runs. -/
theorem raise_bind {e : ε} {z : Computation τ ε δ} (h : ¬ K e) :
    Simulates R K ((throw e : Computation σ ε α) >>= f) Q' z := by
  intro s t _
  rw [run_bind_error (run_throw e s)]
  constructor
  · intro a s' hrun
    cases hrun
  · intro e' s' hrun hkept
    cases hrun
    exact absurd hkept h

/-- Reading related states yields related states. -/
theorem read : Simulates R K (get : Computation σ ε σ) R (get : Computation τ ε τ) := by
  intro s t hst
  constructor
  · intro a s' hrun
    cases hrun
    exact ⟨t, t, rfl, hst, hst⟩
  · intro e s' hrun
    cases hrun

/-- The rule for changes of both states. -/
theorem change {p : σ → σ} {q : τ → τ} (h : ∀ s t, R s t → R (p s) (q t)) :
    Simulates R K (modify p : Computation σ ε PUnit) (fun _ _ => True)
      (modify q : Computation τ ε PUnit) := by
  intro s t hst
  constructor
  · intro a s' hrun
    cases hrun
    exact ⟨⟨⟩, q t, rfl, h s t hst, trivial⟩
  · intro e s' hrun
    cases hrun

/-- A handler that answers the exceptions that are kept and passes on the others. -/
theorem handle {K' : ε → Prop} {p : ε → Computation σ ε α} {q : ε → Computation τ ε β}
    (hx : Simulates R K x Q y) (hkept : ∀ e, K e → Simulates R K' (p e) Q (q e))
    (hother : ∀ e, ¬ K e → ¬ K' e ∧ p e = throw e) :
    Simulates R K' (tryCatch x p) Q (tryCatch y q) := by
  intro s t hst
  obtain ⟨hreturns, hraises⟩ := hx s t hst
  rw [run_tryCatch, run_tryCatch]
  rcases hrun : x s with ⟨e | a, s'⟩
  · by_cases he : K e
    · obtain ⟨t', hy, hrelated⟩ := hraises e s' hrun he
      rw [hy]
      exact hkept e he s' t' hrelated
    · obtain ⟨hnot, hthrow⟩ := hother e he
      dsimp only
      rw [hthrow]
      constructor
      · intro a s'' hcase
        cases hcase
      · intro e' s'' hcase hkept'
        cases hcase
        exact absurd hkept' hnot
  · obtain ⟨b, t', hy, hrelated, hab⟩ := hreturns a s' hrun
    rw [hy]
    constructor
    · intro a' s'' hcase
      cases hcase
      exact ⟨b, t', rfl, hrelated, hab⟩
    · intro e s'' hcase
      cases hcase

end Simulates

end Tracewake.Effects
