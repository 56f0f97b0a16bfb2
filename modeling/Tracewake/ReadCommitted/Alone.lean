import Tracewake.ReadCommitted.Serial

/-!
# Programs that run alone

While no other session is open, nothing changes between the statements of a
transaction and every row can be locked. Its outcome is then computed statement by
statement from what it sees, and postconditions are followed through the program
without a rely condition.
-/

namespace Tracewake.ReadCommitted

variable {K : Type} [DecidableEq K] {β : K → Type} {C ε ε' α γ δ ι : Type}

/-- What is asserted of the end of a program: its result and what its session sees then. -/
abbrev Outcome (β : K → Type) (C ε α ε' γ : Type) :=
  Except ε' γ → Session β C → World β C ε α → Prop

/-- The program, run alone, ends with the postcondition. It changes no row that it has
not locked. -/
def Program.RunsTo : Program β ε' γ → Outcome β C ε α ε' γ → Session β C → World β C ε α → Prop
  | .pure value, post, σ, w => post (.ok value) σ w
  | .fail error, post, σ, w => post (.error error) σ w
  | .snapshot next, post, σ, w => (next (σ.view w.store)).RunsTo post σ.nextStatement w
  | .lock mode key next, post, σ, w =>
    (next ((σ.view w.store).lookup key)).RunsTo post (σ.lock mode key) w
  | .tryLock key next, post, σ, w =>
    (next (some ((σ.view w.store).lookup key))).RunsTo post (σ.lock .exclusive key) w
  | .insert key row next, post, σ, w =>
    if ((σ.view w.store).lookup key).isSome then (next false).RunsTo post σ w
    else (next true).RunsTo post ((σ.lock .exclusive key).write key (some row)) w
  | .sequence next, post, σ, w => (next w.sequence).RunsTo post σ w.draw
  | .write key row next, post, σ, w =>
    σ.locks key = some .exclusive ∧ next.RunsTo post (σ.write key row) w

/-- The world after a transaction has ended. -/
def World.finish (w : World β C ε α) (σ : Session β C) : Except ε α → World β C ε α
  | .ok value => w.commit σ value
  | .error error => w.refuse σ error

namespace Program

variable {σ : Session β C} {w : World β C ε α}

/-- A program that ends with a postcondition has an end, at the same time. -/
theorem RunsTo.alone {p : Program β ε α} {post : Outcome β C ε α ε α} (h : p.RunsTo post σ w) :
    ∃ result σ' w', post result σ' w' ∧ p.alone σ w = some (w'.finish σ' result) ∧
      w'.store = w.store ∧ w'.clock = w.clock ∧ w'.history = w.history ∧ σ'.now = σ.now ∧
      σ'.call = σ.call := by
  induction p generalizing σ w with
  | pure value => exact ⟨.ok value, σ, w, h, rfl, rfl, rfl, rfl, rfl, rfl⟩
  | fail error => exact ⟨.error error, σ, w, h, rfl, rfl, rfl, rfl, rfl, rfl⟩
  | snapshot next ih => exact ih _ h
  | lock mode key next ih => exact ih _ h
  | tryLock key next ih => exact ih _ h
  | insert key row next ih =>
    unfold RunsTo at h
    unfold alone
    split
    · next htaken =>
      rw [if_pos htaken] at h
      exact ih _ h
    · next hfree =>
      rw [if_neg hfree] at h
      exact ih _ h
  | sequence next ih => exact ih _ h
  | write key row next ih =>
    unfold alone
    rw [if_pos h.1]
    exact ih h.2

/-- A weaker statement about the end of a lone run holds whenever a stronger one does. -/
theorem RunsTo.mono {p : Program β ε' γ} {post post' : Outcome β C ε α ε' γ}
    (hpost : ∀ result σ w, post result σ w → post' result σ w) (h : p.RunsTo post σ w) :
    p.RunsTo post' σ w := by
  induction p generalizing σ w with
  | pure value => exact hpost _ _ _ h
  | fail error => exact hpost _ _ _ h
  | snapshot next ih => exact ih _ h
  | lock mode key next ih => exact ih _ h
  | tryLock key next ih => exact ih _ h
  | insert key row next ih =>
    unfold RunsTo at h ⊢
    split
    · next htaken =>
      rw [if_pos htaken] at h
      exact ih _ h
    · next hfree =>
      rw [if_neg hfree] at h
      exact ih _ h
  | sequence next ih => exact ih _ h
  | write key row next ih => exact ⟨h.1, ih h.2⟩

/-- A sequence of two programs ends as the second one does after the first. -/
theorem runsTo_bind {p : Program β ε' γ} {f : γ → Program β ε' δ} {post : Outcome β C ε α ε' δ} :
    (p.bind f).RunsTo post σ w ↔ p.RunsTo (fun result σ' w' => match result with
      | .ok value => (f value).RunsTo post σ' w'
      | .error error => post (.error error) σ' w') σ w := by
  induction p generalizing σ w with
  | pure value => rfl
  | fail error => rfl
  | snapshot next ih => exact ih _
  | lock mode key next ih => exact ih _
  | tryLock key next ih => exact ih _
  | insert key row next ih =>
    unfold bind RunsTo
    split
    · exact ih _
    · exact ih _
  | sequence next ih => exact ih _
  | write key row next ih => exact and_congr_right fun _ => ih

section Rules

variable {post : Outcome β C ε α ε' γ}

/-- A row that qualifies is changed. -/
theorem runsTo_updateKey {key : K} {qualifies : AList β → β key → Bool} {set : β key → β key}
    {post : Outcome β C ε α ε' (Option (β key))} {row : β key}
    (hrow : (σ.view w.store).lookup key = some row) (hqualifies : qualifies (σ.view w.store) row)
    (h : post (.ok (some (set row)))
      ((σ.nextStatement.lock .exclusive key).write key (some (set row))) w) :
    (updateKey key qualifies set).RunsTo post σ w := by
  have hfound : (some row).filter (qualifies (σ.view w.store)) = some row :=
    Option.filter_eq_some_iff.mpr ⟨rfl, hqualifies⟩
  have hview : (σ.nextStatement.view w.store).lookup key = some row := hrow
  simp only [updateKey, RunsTo, hrow, Option.any_some, hqualifies, if_true, lockRow, bind, hview,
    hfound]
  exact ⟨Session.lock_locks_self _ key, h⟩

/-- A key that is free is taken. -/
theorem runsTo_insert {key : K} {row : β key} {next : Bool → Program β ε' γ}
    (hfree : (σ.view w.store).lookup key = none)
    (h : (next true).RunsTo post ((σ.lock .exclusive key).write key (some row)) w) :
    (Program.insert key row next).RunsTo post σ w := by
  unfold RunsTo
  rw [hfree]
  exact h

/-- A loop ends with what every one of its rounds preserves. -/
theorem runsTo_forEach {body : ι → Program β ε' Unit} {items : List ι}
    (J : List ι → Session β C → World β C ε α → Prop)
    (hbody : ∀ done i rest σ w, items = done ++ i :: rest → J done σ w →
      (body i).RunsTo (fun result σ' w' => result = .ok () ∧ J (done ++ [i]) σ' w') σ w)
    (hinit : J [] σ w) :
    (forEach body items).RunsTo (fun result σ' w' => result = .ok () ∧ J items σ' w') σ w := by
  have hloop : ∀ rest done σ w, items = done ++ rest → J done σ w →
      (forEach body rest).RunsTo (fun result σ' w' => result = .ok () ∧ J items σ' w') σ w := by
    intro rest
    induction rest with
    | nil =>
      intro done σ w hitems hJ
      rw [List.append_nil] at hitems
      exact ⟨rfl, hitems ▸ hJ⟩
    | cons i rest ih =>
      intro done σ w hitems hJ
      refine runsTo_bind.mpr ((hbody done i rest σ w hitems hJ).mono ?_)
      rintro _ σ' w' ⟨rfl, hnext⟩
      exact ih (done ++ [i]) σ' w' (by simp [hitems]) hnext
  exact hloop items [] σ w rfl hinit

/-- Rows that all qualify and fit into the limit are all locked. -/
theorem runsTo_lockSkipping {key : ι → K} {qualifies : (i : ι) → β (key i) → Bool}
    {items : List ι} {limit : ℕ} {post : Outcome β C ε α ε' (List ((i : ι) × β (key i)))}
    (hitems : ∀ i ∈ items, ((σ.view w.store).lookup (key i)).any (qualifies i))
    (hlimit : items.length ≤ limit)
    (h : ∀ selected σ', selected.map Sigma.fst = items → σ'.writes = σ.writes →
      (∀ k, σ.locks k = some .exclusive → σ'.locks k = some .exclusive) →
      (∀ entry ∈ selected, σ'.locks (key entry.1) = some .exclusive ∧
        (σ.view w.store).lookup (key entry.1) = some entry.2) → post (.ok selected) σ' w) :
    (lockSkipping key qualifies items limit).RunsTo post σ w := by
  induction items generalizing σ limit post with
  | nil =>
    unfold lockSkipping
    exact h [] σ rfl rfl (fun _ hk => hk) (by simp)
  | cons i rest ih =>
    obtain ⟨limit, rfl⟩ : ∃ n, limit = n + 1 :=
      Nat.exists_eq_add_one_of_ne_zero (by simp only [List.length_cons] at hlimit; omega)
    obtain ⟨row, hrow, hqualifies⟩ := (Option.any_eq_true _ _).mp (hitems i List.mem_cons_self)
    have hfound : (some row).filter (qualifies i) = some row :=
      Option.filter_eq_some_iff.mpr ⟨rfl, hqualifies⟩
    unfold lockSkipping RunsTo
    simp only [hrow, Option.bind_some, hfound]
    refine runsTo_bind.mpr (ih ?_ ?_ ?_)
    · exact fun j hj => hitems j (List.mem_cons_of_mem i hj)
    · simp only [List.length_cons] at hlimit
      omega
    · intro selected σ' hselected hwrites hlocks hrows
      refine h (⟨i, row⟩ :: selected) σ' (by simp [hselected]) hwrites (fun k hk => ?_) ?_
      · exact hlocks k (Session.locks_lock_of_exclusive hk _ _)
      · intro entry hentry
        rcases List.mem_cons.mp hentry with rfl | hmem
        · exact ⟨hlocks _ (Session.lock_locks_self σ (key i)), hrow⟩
        · exact hrows entry hmem

end Rules

end Program

end Tracewake.ReadCommitted
