import Tracewake.ReadCommitted.Alone

/-!
# Confined changes

What a program that runs alone leaves as it was. Between two points of a transaction only the
rows of some keys change in what its session sees, and no lock is given up.
-/

namespace Tracewake.ReadCommitted

variable {K : Type} [DecidableEq K] {β : K → Type} {C ε ε' α γ ι : Type}

/-- Only rows of these keys have changed since an earlier point of a program. -/
structure Confined (keys : K → Prop) (σ : Session β C) (w : World β C ε α) (σ' : Session β C)
    (w' : World β C ε α) : Prop where
  store : w'.store = w.store
  locks : ∀ k, σ.locks k = some .exclusive → σ'.locks k = some .exclusive
  kept : ∀ k, ¬ keys k → (σ'.view w'.store).lookup k = (σ.view w.store).lookup k

namespace Confined

variable {keys other : K → Prop} {σ σ₁ σ₂ : Session β C} {w w₁ w₂ : World β C ε α}

/-- A session that does nothing is confined to any keys. -/
theorem refl : Confined keys σ w σ w := ⟨rfl, fun _ h => h, fun _ _ => rfl⟩

/-- Two stretches that are confined to the same keys are confined to them together. -/
theorem trans (h : Confined keys σ w σ₁ w₁) (h' : Confined keys σ₁ w₁ σ₂ w₂) :
    Confined keys σ w σ₂ w₂ where
  store := h'.store.trans h.store
  locks k hk := h'.locks k (h.locks k hk)
  kept k hk := (h'.kept k hk).trans (h.kept k hk)

/-- What is confined to some keys is confined to more of them. -/
theorem mono (h : Confined keys σ w σ₁ w₁) (hkeys : ∀ k, keys k → other k) :
    Confined other σ w σ₁ w₁ where
  store := h.store
  locks := h.locks
  kept k hk := h.kept k fun hkey => hk (hkeys k hkey)

/-- Beginning a statement locks and writes nothing. -/
theorem nextStatement : Confined keys σ w σ.nextStatement w :=
  ⟨rfl, fun _ h => h, fun _ _ => rfl⟩

/-- Taking a lock writes nothing. -/
theorem lock (mode : LockMode) (key : K) : Confined keys σ w (σ.lock mode key) w :=
  ⟨rfl, fun _ h => Session.locks_lock_of_exclusive h mode key, fun _ _ => rfl⟩

/-- Drawing from the sequence touches no row. -/
theorem draw : Confined keys σ w σ w.draw := ⟨rfl, fun _ h => h, fun _ _ => rfl⟩

/-- The row of a key is written. -/
theorem write_self (key : K) (row : Option (β key)) :
    Confined (· = key) σ w (σ.write key row) w where
  store := rfl
  locks _ h := h
  kept _ hk := Session.view_write_ne σ row w.store hk

/-- A write to one of the keys is confined to them. -/
theorem write {key : K} (hkey : keys key) (row : Option (β key)) :
    Confined keys σ w (σ.write key row) w where
  store := rfl
  locks _ h := h
  kept _ hk := Session.view_write_ne σ row w.store fun heq => hk (heq ▸ hkey)

end Confined

namespace Program

variable {σ : Session β C} {w : World β C ε α}

/-- A row that qualifies is changed, and no other one. -/
theorem runsTo_updateKey_confined {key : K} {qualifies : AList β → β key → Bool}
    {set : β key → β key} {post : Outcome β C ε α ε' (Option (β key))} {row : β key}
    (hrow : (σ.view w.store).lookup key = some row) (hqualifies : qualifies (σ.view w.store) row)
    (h : ∀ σ' w', Confined (· = key) σ w σ' w' →
      (σ'.view w'.store).lookup key = some (set row) → post (.ok (some (set row))) σ' w') :
    (updateKey key qualifies set).RunsTo post σ w := by
  refine runsTo_updateKey hrow hqualifies (h _ _ ?_ (Session.view_write_self _ _ _ _))
  exact (Confined.nextStatement.trans (.lock .exclusive key)).trans (.write_self key _)

/-- An update of one row after the other changes no row but these. -/
theorem runsTo_updateRows {key : ι → K} {qualifies : (i : ι) → β (key i) → Bool}
    {set : (i : ι) → β (key i) → β (key i)} {items : List ι}
    {post : Outcome β C ε α ε' (List ((i : ι) × β (key i)))}
    (h : ∀ updated σ' w', Confined (fun k => ∃ i ∈ items, k = key i) σ w σ' w' →
      post (.ok updated) σ' w') : (updateRows key qualifies set items).RunsTo post σ w := by
  induction items generalizing σ post with
  | nil => exact h [] σ w .refl
  | cons i rest ih =>
    have hmore : ∀ {σ' : Session β C},
        Confined (fun k => ∃ j ∈ i :: rest, k = key j) σ w σ' w → ∀ σ'' w'',
          Confined (fun k => ∃ j ∈ rest, k = key j) σ' w σ'' w'' →
            Confined (fun k => ∃ j ∈ i :: rest, k = key j) σ w σ'' w'' := by
      intro σ' hfirst σ'' w'' hrest
      refine hfirst.trans (hrest.mono ?_)
      rintro k ⟨j, hj, rfl⟩
      exact ⟨j, List.mem_cons_of_mem i hj, rfl⟩
    have hlock : Confined (fun k => ∃ j ∈ i :: rest, k = key j) σ w
        (σ.lock .exclusive (key i)) w := .lock _ _
    simp only [updateRows, lockRow, bind, RunsTo]
    cases ((σ.view w.store).lookup (key i)).filter (qualifies i) with
    | none => exact ih fun updated σ' w' hrest => h updated σ' w' (hmore hlock σ' w' hrest)
    | some row =>
      refine ⟨Session.lock_locks_self σ (key i), runsTo_bind.mpr (ih ?_)⟩
      intro updated σ' w' hrest
      refine h _ σ' w' (hmore (hlock.trans (.write ?_ _)) σ' w' hrest)
      exact ⟨i, List.mem_cons_self, rfl⟩

/-- An update of rows that its snapshot selects changes none of any other kind. -/
theorem runsTo_update {key : ι → K} {scan : AList β → List ι}
    {qualifies : AList β → (i : ι) → β (key i) → Bool} {set : (i : ι) → β (key i) → β (key i)}
    {post : Outcome β C ε α ε' (List ((i : ι) × β (key i)))}
    (h : ∀ updated σ' w', Confined (fun k => ∃ i, k = key i) σ w σ' w' →
      post (.ok updated) σ' w') : (update key scan qualifies set).RunsTo post σ w := by
  refine runsTo_updateRows fun updated σ' w' hconfined => h updated σ' w' ?_
  refine Confined.nextStatement.trans (hconfined.mono ?_)
  rintro k ⟨i, -, rfl⟩
  exact ⟨i, rfl⟩

end Program

end Tracewake.ReadCommitted
