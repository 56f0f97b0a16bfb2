import Mathlib.Data.List.Forall2

/-!
# Lists that correspond item by item

A computation that is applied to each item of a list returns a list that corresponds to it,
and it returns one if it returns for each item.
-/

namespace Tracewake.Sequences

variable {α β ε : Type} {l : List α} {results : List β}

section Correspondence

variable {R : α → β → Prop}

/-- A left element of paired lists has a partner. -/
theorem exists_of_forall₂ {x : α} (h : List.Forall₂ R l results) (hx : x ∈ l) :
    ∃ y ∈ results, R x y := by
  induction h with
  | nil => cases hx
  | cons hhead _ ih =>
    rcases List.mem_cons.mp hx with rfl | hmem
    · exact ⟨_, List.mem_cons_self, hhead⟩
    · obtain ⟨y, hy, hat⟩ := ih hmem
      exact ⟨y, List.mem_cons_of_mem _ hy, hat⟩

/-- A right element of paired lists has a partner. -/
theorem exists_of_mem_forall₂ {y : β} (h : List.Forall₂ R l results) (hy : y ∈ results) :
    ∃ x ∈ l, R x y := exists_of_forall₂ h.flip hy

/-- The items at one index correspond. -/
theorem forall₂_getElem? (h : List.Forall₂ R l results) {i : ℕ} {x : α} (hx : l[i]? = some x) :
    ∃ y, results[i]? = some y ∧ R x y := by
  induction h generalizing i with
  | nil => cases hx
  | @cons _ y _ _ hhead _ ih =>
    cases i with
    | zero =>
      obtain rfl := Option.some.inj hx
      exact ⟨y, rfl, hhead⟩
    | succ i => exact ih hx

end Correspondence

section Computations

/-- The results of a map pair with what they were computed from. -/
theorem forall₂_of_mapM {f : α → Option β} (h : l.mapM f = some results) :
    List.Forall₂ (fun x y => f x = some y) l results := by
  induction l generalizing results with
  | nil =>
    obtain rfl : [] = results := Option.some.inj h
    exact List.Forall₂.nil
  | cons x l ih =>
    rw [List.mapM_cons] at h
    obtain ⟨y, hy, hrest⟩ := Option.bind_eq_some_iff.mp h
    obtain ⟨ys, hys, hcons⟩ := Option.bind_eq_some_iff.mp hrest
    obtain rfl := Option.some.inj hcons
    exact List.Forall₂.cons hy (ih hys)

/-- Lists whose elements pair are mapped to each other. -/
theorem mapM_some {f : α → Option β} (h : List.Forall₂ (fun x y => f x = some y) l results) :
    l.mapM f = some results := by
  induction h with
  | nil => rfl
  | cons hhead _ ih =>
    rw [List.mapM_cons, hhead, ih]
    rfl

/-- A map succeeds if it does on every element. -/
theorem mapM_some_of_forall {f : α → Option β} (h : ∀ x ∈ l, ∃ y, f x = some y) :
    ∃ results, l.mapM f = some results := by
  induction l with
  | nil => exact ⟨[], rfl⟩
  | cons x l ih =>
    obtain ⟨y, hy⟩ := h x List.mem_cons_self
    obtain ⟨ys, hys⟩ := ih fun other hother => h other (List.mem_cons_of_mem x hother)
    exact ⟨y :: ys, by rw [List.mapM_cons, hy, hys]; rfl⟩

/-- Lists whose elements pair are mapped to each other. -/
theorem mapM_ok {f : α → Except ε β}
    (h : List.Forall₂ (fun x y => f x = .ok y) l results) : l.mapM f = .ok results := by
  induction h with
  | nil => rfl
  | cons hhead _ ih =>
    rw [List.mapM_cons, hhead, ih]
    rfl

/-- The results of a map pair with what they were computed from. -/
theorem forall₂_of_mapM_ok {f : α → Except ε β} (h : l.mapM f = .ok results) :
    List.Forall₂ (fun x y => f x = .ok y) l results := by
  induction l generalizing results with
  | nil =>
    obtain rfl : [] = results := Except.ok.inj h
    exact List.Forall₂.nil
  | cons x l ih =>
    rw [List.mapM_cons] at h
    cases hx : f x with
    | error e =>
      rw [hx] at h
      cases h
    | ok y =>
      cases hl : l.mapM f with
      | error e =>
        rw [hx, hl] at h
        cases h
      | ok ys =>
        rw [hx, hl] at h
        obtain rfl := Except.ok.inj h
        exact List.Forall₂.cons hx (ih hl)

/-- A computation returns for a list exactly when it returns for each item. -/
theorem mapM_isOk {f : α → Except ε β} :
    (∃ results, l.mapM f = .ok results) ↔ ∀ x ∈ l, ∃ y, f x = .ok y := by
  constructor
  · rintro ⟨results, hresults⟩ x hx
    obtain ⟨y, -, hy⟩ := exists_of_forall₂ (forall₂_of_mapM_ok hresults) hx
    exact ⟨y, hy⟩
  · intro h
    induction l with
    | nil => exact ⟨[], rfl⟩
    | cons x l ih =>
      obtain ⟨y, hy⟩ := h x List.mem_cons_self
      obtain ⟨ys, hys⟩ := ih fun other hother => h other (List.mem_cons_of_mem x hother)
      exact ⟨y :: ys, by rw [List.mapM_cons, hy, hys]; rfl⟩

end Computations

end Tracewake.Sequences
