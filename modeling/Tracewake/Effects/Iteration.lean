import Tracewake.Effects.Rules

/-!
# Loops and guards

An invariant that every round keeps holds behind the loop, and a loop that returned is as many
rounds that returned. A guard that returned changed nothing, and its condition does not hold.
-/

namespace Tracewake.Effects

variable {σ ε α : Type}

/-- What every round keeps holds behind all of them. -/
theorem Ensures.forM {P : σ → Prop} {l : List α} {f : α → Computation σ ε Unit}
    (h : ∀ a ∈ l, Ensures P (f a) fun _ => True) : Ensures P (l.forM f) fun _ => True := by
  induction l with
  | nil => exact .ret trivial
  | cons a l ih =>
    have hrest := ih fun b hb => h b (List.mem_cons_of_mem _ hb)
    exact (h a List.mem_cons_self).seq fun _ => hrest

/-- A loop over nothing does nothing. -/
theorem run_forM_nil {f : α → Computation σ ε Unit} (s : σ) :
    ([] : List α).forM f s = (.ok (), s) := rfl

/-- A loop that returned began with a round that returned. -/
theorem forM_cons_eq_ok {a : α} {l : List α} {f : α → Computation σ ε Unit} {s t : σ} :
    (a :: l).forM f s = (.ok (), t) ↔ ∃ s', f a s = (.ok (), s') ∧ l.forM f s' = (.ok (), t) := by
  change (f a >>= fun _ => l.forM f) s = _ ↔ _
  rw [bind_eq_ok]
  constructor
  · rintro ⟨_, s', hhead, hrest⟩
    exact ⟨s', hhead, hrest⟩
  · rintro ⟨s', hhead, hrest⟩
    exact ⟨(), s', hhead, hrest⟩

/-- What a loop raises one of its rounds raised. -/
theorem forM_eq_error {l : List α} {f : α → Computation σ ε Unit} {s t : σ} {e : ε}
    (h : l.forM f s = (.error e, t)) : ∃ a ∈ l, ∃ s', f a s' = (.error e, t) := by
  induction l generalizing s with
  | nil => cases h
  | cons a l ih =>
    change (f a >>= fun _ => l.forM f) s = _ at h
    rcases hhead : f a s with ⟨raised | _, s'⟩
    · rw [run_bind_error hhead] at h
      cases h
      exact ⟨a, List.mem_cons_self, s, hhead⟩
    · rw [run_bind_ok hhead] at h
      obtain ⟨b, hb, hround⟩ := ih h
      exact ⟨b, List.mem_cons_of_mem a hb, hround⟩

/-- A loop returns when every round returns and prepares the rounds behind it. -/
theorem forM_returns {P : List α → σ → Prop} {f : α → Computation σ ε Unit}
    (h : ∀ a l s, P (a :: l) s → ∃ s', f a s = (.ok (), s') ∧ P l s') {l : List α} {s : σ}
    (hstart : P l s) : ∃ t, l.forM f s = (.ok (), t) := by
  induction l generalizing s with
  | nil => exact ⟨s, rfl⟩
  | cons a l ih =>
    obtain ⟨s', hhead, hnext⟩ := h a l s hstart
    obtain ⟨t, hrest⟩ := ih hnext
    exact ⟨t, forM_cons_eq_ok.mpr ⟨s', hhead, hrest⟩⟩

/-- Raise where the condition holds. -/
def raiseIf (condition : Prop) [Decidable condition] (error : ε) : Computation σ ε Unit :=
  if condition then throw error else pure ()

section Guards

variable {condition : Prop} [Decidable condition] {error : ε}

/-- A check changes nothing. -/
theorem Ensures.raiseIf {P : σ → Prop} :
    Ensures P (raiseIf condition error : Computation σ ε Unit) fun _ => True :=
  .branch (fun _ => .raise) fun _ => .ret trivial

/-- A check passes if its condition does not hold. -/
theorem raiseIf_eq_ok {s t : σ} :
    (raiseIf condition error : Computation σ ε Unit) s = (.ok (), t) ↔ ¬ condition ∧ t = s := by
  rw [raiseIf]
  split
  · next h =>
    rw [run_throw]
    constructor
    · intro heq
      cases heq
    · rintro ⟨hnot, -⟩
      exact absurd h hnot
  · next h =>
    rw [run_pure]
    constructor
    · intro heq
      cases heq
      exact ⟨h, rfl⟩
    · rintro ⟨-, rfl⟩
      rfl

end Guards

end Tracewake.Effects
