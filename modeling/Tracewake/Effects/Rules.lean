import Mathlib.Init

/-!
# Computations that change a state and may raise

A computation runs from a state to a result or an exception, and to the state that it
leaves in both cases. The equations on single runs drive an execution forward, the
inversions take a finished run apart, `Ensures` is the rule for a property that holds
of every state on the way, and `Triple` the one for what holds before and after.
-/

namespace Tracewake.Effects

variable {σ ε α β : Type}

/-- A computation over the state `σ` that returns `α` or raises `ε`. -/
abbrev Computation (σ ε : Type) := ExceptT ε (StateM σ)

/-! ## Single runs -/

/-- The computation that ends at once. -/
theorem run_pure (a : α) (s : σ) : (pure a : Computation σ ε α) s = (.ok a, s) := rfl

/-- The computation that fails at once. -/
theorem run_throw (e : ε) (s : σ) : (throw e : Computation σ ε α) s = (.error e, s) := rfl

/-- Reading the state. -/
theorem run_get (s : σ) : (get : Computation σ ε σ) s = (.ok s, s) := rfl

/-- Changing the state. -/
theorem run_modify (f : σ → σ) (s : σ) :
    (modify f : Computation σ ε PUnit) s = (.ok ⟨⟩, f s) := rfl

/-- Changing the state and returning a value. -/
theorem run_modifyGet (f : σ → α × σ) (s : σ) :
    (modifyGet f : Computation σ ε α) s = (.ok (f s).1, (f s).2) := rfl

/-- A sequence runs its second part where the first has ended, unless it failed. -/
theorem run_bind (x : Computation σ ε α) (f : α → Computation σ ε β) (s : σ) :
    (x >>= f) s = match x s with
      | (.ok a, s') => f a s'
      | (.error e, s') => (.error e, s') := by
  change (StateT.bind x (ExceptT.bindCont f)) s = _
  simp only [StateT.bind]
  change (match x s with | (r, s') => ExceptT.bindCont f r s') = _
  rcases x s with ⟨_ | a, s'⟩ <;> rfl

/-- A handler runs where the body failed. -/
theorem run_tryCatch (x : Computation σ ε α) (handle : ε → Computation σ ε α) (s : σ) :
    (tryCatch x handle) s = match x s with
      | (.ok a, s') => (.ok a, s')
      | (.error e, s') => handle e s' := by
  simp only [tryCatch, tryCatchThe, MonadExceptOf.tryCatch, ExceptT.tryCatch, ExceptT.mk, bind,
    StateT.bind]
  change (match x s with | (r, s') => _) = _
  rcases x s with ⟨_ | a, s'⟩ <;> rfl

/-- A computation goes on from the result of its first part. -/
theorem run_bind_ok {x : Computation σ ε α} {f : α → Computation σ ε β} {s s' : σ} {a : α}
    (h : x s = (.ok a, s')) : (x >>= f) s = f a s' := by
  rw [run_bind, h]

/-- A sequence whose first part fails has failed. -/
theorem run_bind_error {x : Computation σ ε α} {f : α → Computation σ ε β} {s s' : σ} {e : ε}
    (h : x s = (.error e, s')) : (x >>= f) s = (.error e, s') := by
  rw [run_bind, h]

/-- A sequence that returned is two parts that returned. -/
theorem bind_eq_ok {x : Computation σ ε α} {f : α → Computation σ ε β} {s t : σ} {b : β} :
    (x >>= f) s = (.ok b, t) ↔ ∃ a s', x s = (.ok a, s') ∧ f a s' = (.ok b, t) := by
  rw [run_bind]
  constructor
  · intro h
    rcases hx : x s with ⟨_ | a, s'⟩
    · rw [hx] at h
      cases h
    · rw [hx] at h
      exact ⟨a, s', rfl, h⟩
  · rintro ⟨a, s', hx, hf⟩
    rw [hx]
    exact hf

/-! ## Invariants -/

/-- From states that satisfy `P` the computation leaves such states, also where it
raises, and what it returns satisfies `Q`. -/
def Ensures (P : σ → Prop) (x : Computation σ ε α) (Q : α → Prop) : Prop :=
  ∀ s, P s → P (x s).2 ∧ ∀ a, (x s).1 = .ok a → Q a

namespace Ensures

variable {P : σ → Prop} {Q : α → Prop} {R : β → Prop} {x : Computation σ ε α}
  {f : α → Computation σ ε β}

/-- The rule for a value. -/
theorem ret {a : α} (h : Q a) : Ensures P (pure a : Computation σ ε α) Q := by
  intro s hs
  refine ⟨hs, fun b hb => ?_⟩
  cases hb
  exact h

/-- The rule for an error: nothing is asked of it but the state. -/
theorem raise {e : ε} : Ensures P (throw e : Computation σ ε α) Q := by
  intro s hs
  exact ⟨hs, fun b hb => nomatch hb⟩

/-- The rule for a sequence. -/
theorem bind (hx : Ensures P x Q) (hf : ∀ a, Q a → Ensures P (f a) R) :
    Ensures P (x >>= f) R := by
  intro s hs
  obtain ⟨hstate, hresult⟩ := hx s hs
  rw [run_bind]
  rcases hrun : x s with ⟨e | a, s'⟩
  · rw [hrun] at hstate
    exact ⟨hstate, fun b hb => nomatch hb⟩
  · rw [hrun] at hstate hresult
    exact hf a (hresult a rfl) s' hstate

/-- Where nothing needs to be known of the first result. -/
theorem seq (hx : Ensures P x Q) (hf : ∀ a, Ensures P (f a) R) : Ensures P (x >>= f) R :=
  hx.bind fun a _ => hf a

/-- Behind a computation that never returns nothing runs. -/
theorem never (hx : Ensures P x fun _ => False) : Ensures P (x >>= f) R :=
  hx.bind fun _ h => h.elim

/-- Reading a state yields one that has the property. -/
theorem read : Ensures P (get : Computation σ ε σ) P := by
  intro s hs
  refine ⟨hs, fun t ht => ?_⟩
  cases ht
  exact hs

/-- The rule for a change of the state with a value. -/
theorem update {g : σ → α × σ} (hstate : ∀ s, P s → P (g s).2) (hresult : ∀ s, P s → Q (g s).1) :
    Ensures P (modifyGet g : Computation σ ε α) Q := by
  intro s hs
  refine ⟨hstate s hs, fun a ha => ?_⟩
  cases ha
  exact hresult s hs

/-- The rule for a change of the state. -/
theorem change {g : σ → σ} (h : ∀ s, P s → P (g s)) :
    Ensures P (modify g : Computation σ ε PUnit) fun _ => True := by
  intro s hs
  exact ⟨h s hs, fun _ _ => trivial⟩

/-- The rule for a handler: it takes over in a state that has the property. -/
theorem attempt {handle : ε → Computation σ ε α} (hx : Ensures P x Q)
    (hhandle : ∀ e, Ensures P (handle e) Q) :
    Ensures P (tryCatch x handle) Q := by
  intro s hs
  obtain ⟨hstate, hresult⟩ := hx s hs
  rw [run_tryCatch]
  rcases hrun : x s with ⟨e | a, s'⟩
  · rw [hrun] at hstate
    exact hhandle e s' hstate
  · rw [hrun] at hstate hresult
    refine ⟨hstate, fun b hb => ?_⟩
    cases hb
    exact hresult a rfl

/-- The rule for a case distinction. -/
theorem branch {c : Prop} [Decidable c] {y : Computation σ ε α} (hx : c → Ensures P x Q)
    (hy : ¬ c → Ensures P y Q) : Ensures P (if c then x else y) Q := by
  split
  · next h => exact hx h
  · next h => exact hy h

end Ensures

/-! ## Preconditions and postconditions -/

/-- From a state that satisfies `P` the computation returns a value in a state that the two
satisfy `Q`, or it raises in a state that satisfies `E`. -/
def Triple (P : σ → Prop) (x : Computation σ ε α) (Q : α → σ → Prop) (E : σ → Prop) : Prop :=
  ∀ s, P s → (∀ a s', x s = (.ok a, s') → Q a s') ∧ ∀ e s', x s = (.error e, s') → E s'

namespace Triple

variable {P P' E E' : σ → Prop} {Q Q' : α → σ → Prop} {R : β → σ → Prop}
  {x : Computation σ ε α} {f : α → Computation σ ε β}

/-- The rule for a value: its postcondition holds already. -/
theorem ret {a : α} (h : ∀ s, P s → Q a s) : Triple P (pure a : Computation σ ε α) Q E := by
  intro s hs
  constructor
  · intro b s' hrun
    cases hrun
    exact h s hs
  · intro e s' hrun
    cases hrun

/-- The rule for a sequence: what the first part leaves is what the second one needs. -/
theorem bind (hx : Triple P x Q E) (hf : ∀ a, Triple (Q a) (f a) R E) :
    Triple P (x >>= f) R E := by
  intro s hs
  obtain ⟨hreturns, hraises⟩ := hx s hs
  rcases hrun : x s with ⟨e | a, s'⟩
  · rw [run_bind_error hrun]
    constructor
    · intro b s'' hcase
      cases hcase
    · intro e' s'' hcase
      cases hcase
      exact hraises e s' hrun
  · rw [run_bind_ok hrun]
    exact hf a s' (hreturns a s' hrun)

/-- The rule of consequence. -/
theorem weaken (hx : Triple P x Q E) (hP : ∀ s, P' s → P s) (hQ : ∀ a s, Q a s → Q' a s)
    (hE : ∀ s, E s → E' s) : Triple P' x Q' E' := by
  intro s hs
  obtain ⟨hreturns, hraises⟩ := hx s (hP s hs)
  exact ⟨fun a s' hrun => hQ a s' (hreturns a s' hrun), fun e s' hrun => hE s' (hraises e s' hrun)⟩

/-- The rule for a case distinction. -/
theorem branch {c : Prop} [Decidable c] {y : Computation σ ε α} (hx : c → Triple P x Q E)
    (hy : ¬ c → Triple P y Q E) : Triple P (if c then x else y) Q E := by
  split
  · next h => exact hx h
  · next h => exact hy h

/-- Reading the state yields the state that is there. -/
theorem read : Triple P (get : Computation σ ε σ) (fun a s => a = s ∧ P s) E := by
  intro s hs
  constructor
  · intro a s' hrun
    cases hrun
    exact ⟨rfl, hs⟩
  · intro e s' hrun
    cases hrun

/-- The rule for a change of the state with a value. -/
theorem update {g : σ → α × σ} (h : ∀ s, P s → Q (g s).1 (g s).2) :
    Triple P (modifyGet g : Computation σ ε α) Q E := by
  intro s hs
  constructor
  · intro a s' hrun
    cases hrun
    exact h s hs
  · intro e s' hrun
    cases hrun

/-- The rule for a handler: it takes over where the body has raised. -/
theorem handle {p : ε → Computation σ ε α} (hx : Triple P x Q E)
    (hp : ∀ e, Triple E (p e) Q E') : Triple P (tryCatch x p) Q E' := by
  intro s hs
  obtain ⟨hreturns, hraises⟩ := hx s hs
  rw [run_tryCatch]
  rcases hrun : x s with ⟨e | a, s'⟩
  · exact hp e s' (hraises e s' hrun)
  · constructor
    · intro b s'' hcase
      cases hcase
      exact hreturns a s' hrun
    · intro e s'' hcase
      cases hcase

/-- What holds of every state on the way holds at the end. -/
theorem of_ensures {Q : α → Prop} (hx : Ensures P x Q) :
    Triple P x (fun a s => P s ∧ Q a) P := by
  intro s hs
  obtain ⟨hstate, hresult⟩ := hx s hs
  constructor
  · intro a s' hrun
    rw [hrun] at hstate hresult
    exact ⟨hstate, hresult a rfl⟩
  · intro e s' hrun
    rw [hrun] at hstate
    exact hstate

/-- A property that the end has, however it comes to it, is one that is ensured. -/
theorem ensures {Q : α → Prop} (hx : Triple P x (fun a s => P s ∧ Q a) P) : Ensures P x Q := by
  intro s hs
  obtain ⟨hreturns, hraises⟩ := hx s hs
  rcases hrun : x s with ⟨e | a, s'⟩
  · exact ⟨hraises e s' hrun, fun b hb => nomatch hb⟩
  · obtain ⟨hstate, ha⟩ := hreturns a s' hrun
    refine ⟨hstate, fun b hb => ?_⟩
    cases hb
    exact ha

end Triple

end Tracewake.Effects
