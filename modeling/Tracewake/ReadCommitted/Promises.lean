import Tracewake.ReadCommitted.Rules

/-!
# Further promises

Once the transactions of a system are verified, more can be promised of their commits
without verifying everything again. A restricted contract admits fewer commits and says
more about each. Since the others do less under it, what was verified stays verified, and
only the new promises are left to show.
-/

namespace Tracewake.ReadCommitted

variable {K : Type} [DecidableEq K] {β : K → Type} {C ε α γ : Type}

namespace Contract

/-- The contract under which a commit is permitted only on a further condition, and then
has a further meaning. -/
def restrict (c : Contract β C ε α) (permits : Session β C → World β C ε α → Prop)
    (means : Session β C → α → World β C ε α → Prop) : Contract β C ε α where
  Inv := c.Inv
  Starts := c.Starts
  Apart := c.Apart
  apart_mono := c.apart_mono
  Permits σ w := c.Permits σ w ∧ permits σ w
  Guar σ value w := c.Guar σ value w ∧ means σ value w
  Refused := c.Refused

variable {c : Contract β C ε α} {permits : Session β C → World β C ε α → Prop}
  {means : Session β C → α → World β C ε α → Prop} {σ : Session β C} {w w' : World β C ε α}

/-- The others do no more under the restricted contract. -/
theorem Interferes.of_restrict (h : (c.restrict permits means).Interferes σ w w') :
    c.Interferes σ w w' := by
  cases h with
  | tick n => exact .tick n
  | draw => exact .draw
  | refuse τ error herror => exact .refuse τ error herror
  | commit τ value hcompatible howned hapart hpermits hguar =>
    exact .commit τ value hcompatible howned hapart hpermits.1 hguar.1

/-- A restricted contract admits fewer changes by others, each of which the contract admits
too. -/
theorem Rely.of_restrict (h : (c.restrict permits means).Rely σ w w') : c.Rely σ w w' := by
  induction h with
  | refl => exact .refl
  | tail _ hlast ih => exact ih.tail ⟨hlast.1, hlast.2.1.of_restrict, hlast.2.2⟩

/-- What is verified against more interference is verified against less. -/
theorem wp_restrict {p : Program β ε γ} {post : Except ε γ → Session β C → World β C ε α → Prop}
    (h : c.wp p post σ w) : (c.restrict permits means).wp p post σ w := by
  induction p generalizing σ w with
  | pure value => exact wp_pure (wp_pure_iff.mp h)
  | fail error => exact wp_fail (wp_fail_iff.mp h)
  | snapshot next ih =>
    exact wp_snapshot_iff.mpr fun w' hw' hinv =>
      ih _ (wp_snapshot_iff.mp h w' hw'.of_restrict hinv)
  | lock mode key next ih =>
    exact wp_lock_iff.mpr fun w' hw' hinv => ih _ (wp_lock_iff.mp h w' hw'.of_restrict hinv)
  | tryLock key next ih =>
    refine wp_tryLock_iff.mpr fun w' hw' hinv => ?_
    obtain ⟨hbusy, hfree⟩ := wp_tryLock_iff.mp h w' hw'.of_restrict hinv
    exact ⟨ih _ hbusy, ih _ hfree⟩
  | insert key row next ih =>
    refine wp_insert_iff.mpr fun w' hw' hinv => ?_
    obtain ⟨htaken, hfree⟩ := wp_insert_iff.mp h w' hw'.of_restrict hinv
    exact ⟨fun hsome => ih _ (htaken hsome), fun hnone => ih _ (hfree hnone)⟩
  | sequence next ih => exact wp_sequence fun n => ih n (wp_sequence_iff.mp h n)
  | write key row next ih =>
    obtain ⟨hlocked, hnext⟩ := wp_write_iff.mp h
    exact wp_write hlocked (ih hnext)

/-- Two conditions that are verified apart hold together. -/
theorem wp_and {p : Program β ε γ} {post post' : Except ε γ → Session β C → World β C ε α → Prop}
    (h : c.wp p post σ w) (h' : c.wp p post' σ w) :
    c.wp p (fun result σ w => post result σ w ∧ post' result σ w) σ w := by
  induction p generalizing σ w with
  | pure value => exact wp_pure ⟨wp_pure_iff.mp h, wp_pure_iff.mp h'⟩
  | fail error => exact wp_fail ⟨wp_fail_iff.mp h, wp_fail_iff.mp h'⟩
  | snapshot next ih =>
    exact wp_snapshot_iff.mpr fun w' hw' hinv =>
      ih _ (wp_snapshot_iff.mp h w' hw' hinv) (wp_snapshot_iff.mp h' w' hw' hinv)
  | lock mode key next ih =>
    exact wp_lock_iff.mpr fun w' hw' hinv =>
      ih _ (wp_lock_iff.mp h w' hw' hinv) (wp_lock_iff.mp h' w' hw' hinv)
  | tryLock key next ih =>
    refine wp_tryLock_iff.mpr fun w' hw' hinv => ?_
    obtain ⟨hbusy, hfree⟩ := wp_tryLock_iff.mp h w' hw' hinv
    obtain ⟨hbusy', hfree'⟩ := wp_tryLock_iff.mp h' w' hw' hinv
    exact ⟨ih _ hbusy hbusy', ih _ hfree hfree'⟩
  | insert key row next ih =>
    refine wp_insert_iff.mpr fun w' hw' hinv => ?_
    obtain ⟨htaken, hfree⟩ := wp_insert_iff.mp h w' hw' hinv
    obtain ⟨htaken', hfree'⟩ := wp_insert_iff.mp h' w' hw' hinv
    exact ⟨fun hsome => ih _ (htaken hsome) (htaken' hsome),
      fun hnone => ih _ (hfree hnone) (hfree' hnone)⟩
  | sequence next ih =>
    exact wp_sequence fun n => ih n (wp_sequence_iff.mp h n) (wp_sequence_iff.mp h' n)
  | write key row next ih =>
    obtain ⟨hlocked, hnext⟩ := wp_write_iff.mp h
    exact wp_write hlocked (ih hnext (wp_write_iff.mp h').2)

variable (c permits means) in
/-- A transaction that commits has the further meaning whenever it may commit. -/
def Promises (result : Except ε α) (σ : Session β C) (w : World β C ε α) : Prop :=
  ∀ value, result = .ok value → ∀ w', c.Rely σ w w' → c.Inv w' → c.Permits σ w' →
    permits σ w' → means σ value w'

/-- Verified transactions that keep the new promises keep the restricted contract. -/
theorem Verified.restrict {program : C → ℤ → Program β ε α} (h : c.Verified program)
    (hpromises : ∀ call w, c.Inv w → c.Starts call w →
      c.wp (program call w.clock) (c.Promises permits means) (.start call w.clock w.store) w) :
    (c.restrict permits means).Verified program where
  initial := h.initial
  tick := h.tick
  draw := h.draw
  refuse := h.refuse
  calls call w hinv hstarts := by
    refine wp_mono _ ?_ (wp_restrict (wp_and (h.calls call w hinv hstarts)
      (hpromises call w hinv hstarts)))
    rintro result σ w ⟨houtcome, hpromise⟩
    cases result with
    | error error => exact fun w' hw' => houtcome w' hw'.of_restrict
    | ok value =>
      intro w' hw' hinv hpermits
      obtain ⟨hguar, hafter⟩ := houtcome w' hw'.of_restrict hinv hpermits.1
      exact ⟨⟨hguar, hpromise value rfl w' hw'.of_restrict hinv hpermits.1 hpermits.2⟩, hafter⟩

/-- A schedule that also respects the further condition on commits. -/
theorem Schedules.restrict {allowed : System β C ε α → Event C → Prop} (h : c.Schedules allowed)
    (hpermits : ∀ s n t value, allowed s (.run n) → s.running.lookup n = some t →
      t.program = .pure value → permits t.session s.world) :
    (c.restrict permits means).Schedules allowed where
  start := h.start
  permits s n t value hallowed ht hvalue :=
    ⟨h.permits s n t value hallowed ht hvalue, hpermits s n t value hallowed ht hvalue⟩
  apart := h.apart

/-- The history stays or grows by one call. -/
theorem Moves.history (h : c.Moves w w') :
    w'.history = w.history ∨ ∃ f, w'.history = f :: w.history := by
  cases h with
  | tick n => exact .inl rfl
  | draw => exact .inl rfl
  | refuse σ error _ => exact .inr ⟨_, rfl⟩
  | commit σ value _ _ _ => exact .inr ⟨_, rfl⟩

end Contract

end Tracewake.ReadCommitted
