import Tracewake.ReadCommitted.Rules

/-!
# What a program leaves alone

A footprint says how each row may change. Whether a program keeps to it is read off its
statements, one change at a time: a change is compared with the row that the program has
locked last, or with every row if it has locked another one. A verified transaction that
keeps to a footprint commits only changes that the footprint allows.
-/

namespace Tracewake.ReadCommitted

variable {K : Type} {β : K → Type} {C ε α γ ι : Type}

/-- Allowed changes may follow one another. -/
def Footprint.Transitive (F : Footprint β) : Prop :=
  ∀ k old mid new, F.Allows k old mid → F.Allows k mid new → F.Allows k old new

/-- What a program knows of the rows: the one that it has just read under a lock. -/
abbrev Seen (β : K → Type) := Option ((k : K) × Option (β k))

/-- A row is not known to be another one. -/
def Seen.Agrees (seen : Seen β) (key : K) (old : Option (β key)) : Prop :=
  ∀ row, seen = some ⟨key, row⟩ → old = row

namespace Program

/-- Every change that the program makes is allowed. -/
def Within (F : Footprint β) : Program β ε α → Seen β → Prop
  | .pure _, _ => True
  | .fail _, _ => True
  | .snapshot next, _ => ∀ store, (next store).Within F none
  | .lock _ key next, _ => ∀ row, (next row).Within F (some ⟨key, row⟩)
  | .tryLock key next, _ =>
    (next none).Within F none ∧ ∀ row, (next (some row)).Within F (some ⟨key, row⟩)
  | .insert key row next, _ => F.Allows key none (some row) ∧ ∀ done, (next done).Within F none
  | .sequence next, _ => ∀ n, (next n).Within F none
  | .write key row next, seen =>
    (∀ old, seen.Agrees key old → F.Allows key old row) ∧ next.Within F none

variable {F : Footprint β} {p : Program β ε α} {seen : Seen β}

/-- A program that keeps to a footprint without knowing anything keeps to it. -/
theorem Within.mono (h : p.Within F none) : p.Within F seen := by
  cases p with
  | write key row next => exact ⟨fun old _ => h.1 old (fun _ hseen => nomatch hseen), h.2⟩
  | _ => exact h

/-- A sequence keeps to a footprint if both of its parts do. What the first part has seen is
forgotten, so the second must do without it. -/
theorem Within.bind {f : α → Program β ε γ} (h : p.Within F seen)
    (hf : ∀ value, (f value).Within F none) : (p.bind f).Within F seen := by
  induction p generalizing seen with
  | pure value => exact (hf value).mono
  | fail error => trivial
  | snapshot next ih => exact fun store => ih store (h store)
  | lock mode key next ih => exact fun row => ih row (h row)
  | tryLock key next ih => exact ⟨ih none h.1, fun row => ih (some row) (h.2 row)⟩
  | insert key row next ih => exact ⟨h.1, fun done => ih done (h.2 done)⟩
  | sequence next ih => exact fun n => ih n (h n)
  | write key row next ih => exact ⟨h.1, ih h.2⟩

/-- A query changes nothing. -/
theorem within_select {query : AList β → α} :
    (select query : Program β ε α).Within F seen :=
  fun _ => trivial

/-- Locking a row changes nothing. -/
theorem within_lockRow {mode : LockMode} {key : K} {qualifies : β key → Bool} :
    (lockRow mode key qualifies : Program β ε (Option (β key))).Within F seen :=
  fun _ => trivial

/-- An insertion keeps to a footprint that allows the row to appear. -/
theorem within_insertRow {key : K} {row : β key} (h : F.Allows key none (some row)) :
    (insertRow key row : Program β ε Bool).Within F seen :=
  ⟨h, fun _ => trivial⟩

/-- A loop keeps to a footprint if its body does for every item. -/
theorem within_forEach {body : ι → Program β ε Unit} {items : List ι}
    (h : ∀ i ∈ items, (body i).Within F none) : (forEach body items).Within F seen := by
  induction items generalizing seen with
  | nil => trivial
  | cons i rest ih =>
    refine Within.bind (h i (List.mem_cons_self ..)).mono fun _ => ih fun j hj => ?_
    exact h j (List.mem_cons_of_mem _ hj)

/-- An update of listed rows keeps to a footprint that allows each of them to change so. The
footprint is asked of the row that has just been read under the lock. -/
theorem within_updateRows {key : ι → K} {qualifies : (i : ι) → β (key i) → Bool}
    {set : (i : ι) → β (key i) → β (key i)} {items : List ι}
    (h : ∀ i row, F.Allows (key i) (some row) (some (set i row))) :
    (updateRows key qualifies set items :
      Program β ε (List ((i : ι) × β (key i)))).Within F seen := by
  induction items generalizing seen with
  | nil => trivial
  | cons i rest ih =>
    intro found
    dsimp only [Program.bind]
    cases hfound : found.filter (qualifies i) with
    | none => exact ih
    | some row =>
      refine ⟨fun old hold => ?_, Within.bind ih fun _ => trivial⟩
      obtain ⟨hsome, -⟩ := Option.filter_eq_some_iff.mp hfound
      rw [hold found rfl, hsome]
      exact h i row

/-- A deletion of listed rows keeps to a footprint that allows them to disappear. -/
theorem within_deleteRows {key : ι → K} {qualifies : (i : ι) → β (key i) → Bool} {items : List ι}
    (h : ∀ i old, F.Allows (key i) old none) :
    (deleteRows key qualifies items : Program β ε ℕ).Within F seen := by
  induction items generalizing seen with
  | nil => trivial
  | cons i rest ih =>
    intro found
    dsimp only [Program.bind]
    cases found.filter (qualifies i) with
    | none => exact ih
    | some row => exact ⟨fun old _ => h i old, Within.bind ih fun _ => trivial⟩

/-- Locking rows that nobody else has locked changes nothing. -/
theorem within_lockSkipping {key : ι → K} {qualifies : (i : ι) → β (key i) → Bool}
    {items : List ι} {limit : ℕ} :
    (lockSkipping key qualifies items limit :
      Program β ε (List ((i : ι) × β (key i)))).Within F seen := by
  induction items generalizing limit seen with
  | nil => trivial
  | cons i rest ih =>
    cases limit with
    | zero => trivial
    | succ limit =>
      refine ⟨ih, fun row => ?_⟩
      dsimp only
      split
      · exact ih
      · exact Within.bind ih fun _ => trivial

variable [DecidableEq K]

/-- Locking the row that a query has found changes nothing. -/
theorem within_selectLocked {mode : LockMode} {key : K} {qualifies : AList β → β key → Bool} :
    (selectLocked mode key qualifies : Program β ε (Option (β key))).Within F seen := by
  intro store
  dsimp only
  split
  · exact within_lockRow
  · trivial

/-- An update of one row keeps to a footprint that allows the new row in place of the old
one. -/
theorem within_updateKey {key : K} {qualifies : AList β → β key → Bool} {set : β key → β key}
    (h : ∀ row, F.Allows key (some row) (some (set row))) :
    (updateKey key qualifies set : Program β ε (Option (β key))).Within F seen := by
  intro store
  dsimp only
  split
  · intro found
    dsimp only [Program.bind]
    cases hfound : found.filter (qualifies store) with
    | none => trivial
    | some row =>
      refine ⟨fun old hold => ?_, trivial⟩
      obtain ⟨hsome, -⟩ := Option.filter_eq_some_iff.mp hfound
      rw [hold found rfl, hsome]
      exact h row
  · trivial

/-- An update keeps to a footprint that allows each row it may change to change so. -/
theorem within_update {key : ι → K} {scan : AList β → List ι}
    {qualifies : AList β → (i : ι) → β (key i) → Bool} {set : (i : ι) → β (key i) → β (key i)}
    (h : ∀ i row, F.Allows (key i) (some row) (some (set i row))) :
    (update key scan qualifies set :
      Program β ε (List ((i : ι) × β (key i)))).Within F seen :=
  fun _ => within_updateRows h

/-- A deletion keeps to a footprint that allows each row it may delete to disappear. -/
theorem within_delete {key : ι → K} {scan : AList β → List ι}
    {qualifies : AList β → (i : ι) → β (key i) → Bool} (h : ∀ i old, F.Allows (key i) old none) :
    (delete key scan qualifies : Program β ε ℕ).Within F seen :=
  fun _ => within_deleteRows h

/-- Selecting rows with `SKIP LOCKED` changes nothing. -/
theorem within_selectSkipLocked {key : ι → K} {scan : AList β → List ι}
    {qualifies : AList β → (i : ι) → β (key i) → Bool} {limit : ℕ} :
    (selectSkipLocked key scan qualifies limit :
      Program β ε (List ((i : ι) × β (key i)))).Within F seen :=
  fun _ => within_lockSkipping

end Program

namespace Contract

variable [DecidableEq K] {c : Contract β C ε α} {F : Footprint β} {σ σ' : Session β C} {w w' : World β C ε α}

/-- The session has locked the row that it has seen, and still sees it. -/
def Sees (seen : Seen β) (σ : Session β C) (w : World β C ε α) : Prop :=
  ∀ k row, seen = some ⟨k, row⟩ → σ.locks k ≠ none ∧ (σ.view w.store).lookup k = row

/-- Every session sees what nothing is known of. -/
theorem Sees.none : Sees none σ w := fun _ _ h => nomatch h

/-- A row that has just been locked is seen. -/
theorem Sees.lock (mode : LockMode) (key : K) :
    Sees (some ⟨key, (σ.view w.store).lookup key⟩) (σ.lock mode key) w := by
  rintro k row hseen
  obtain ⟨rfl, hrow⟩ := Sigma.mk.inj (Option.some.inj hseen)
  exact ⟨Session.lock_locks_self_ne_none σ mode key, eq_of_heq hrow⟩

/-- A transaction within a footprint keeps to it. -/
theorem wp_within (htrans : F.Transitive) {p : Program β ε γ} {seen : Seen β}
    {post : Except ε γ → Session β C → World β C ε α → Prop} (hp : p.Within F seen)
    (hkeeps : Keeps F σ w) (hsees : Sees seen σ w) (h : c.wp p post σ w) :
    c.wp p (fun result σ' w' => post result σ' w' ∧ Keeps F σ' w' ∧ σ'.call = σ.call ∧
      σ'.now = σ.now) σ w := by
  induction p generalizing seen σ w with
  | pure value => exact wp_pure ⟨wp_pure_iff.mp h, hkeeps, rfl, rfl⟩
  | fail error => exact wp_fail ⟨wp_fail_iff.mp h, hkeeps, rfl, rfl⟩
  | snapshot next ih =>
    refine wp_snapshot_iff.mpr fun w' hw' hinv => ?_
    have hnext := wp_snapshot_iff.mp h w' hw' hinv
    have hlater : c.Later σ w σ.nextStatement w' := .of_snapshot hw'
    exact ih _ (hp _) (hkeeps.later hlater) .none hnext
  | lock mode key next ih =>
    refine wp_lock_iff.mpr fun w' hw' hinv => ?_
    have hnext := wp_lock_iff.mp h w' hw' hinv
    have hlater : c.Later σ w (σ.lock mode key) w' := .of_lock hw' mode key
    exact ih _ (hp _) (hkeeps.later hlater) (.lock mode key) hnext
  | tryLock key next ih =>
    refine wp_tryLock_iff.mpr fun w' hw' hinv => ?_
    obtain ⟨hbusy, hfree⟩ := wp_tryLock_iff.mp h w' hw' hinv
    have hlater : c.Later σ w (σ.lock .exclusive key) w' := .of_lock hw' .exclusive key
    constructor
    · exact ih _ hp.1 (hkeeps.later (.of_rely hw')) .none hbusy
    · exact ih _ (hp.2 _) (hkeeps.later hlater) (.lock .exclusive key) hfree
  | insert key row next ih =>
    refine wp_insert_iff.mpr fun w' hw' hinv => ?_
    obtain ⟨htaken, hfree⟩ := wp_insert_iff.mp h w' hw' hinv
    have hlater : c.Later σ w (σ.lock .exclusive key) w' := .of_lock hw' .exclusive key
    refine ⟨fun hsome => ?_, fun hnone => ?_⟩
    · exact ih _ (hp.2 false) (hkeeps.later (.of_rely hw')) .none (htaken hsome)
    · have hlocked := hkeeps.later hlater
      have hallows : F.Allows key (w'.store.lookup key) none := by
        have hview := hlocked.allows key
        rwa [show ((σ.lock .exclusive key).view w'.store).lookup key = none from hnone] at hview
      have hkept := hlocked.write (Session.lock_locks_self σ key) (htrans _ _ _ _ hallows hp.1)
      exact ih _ (hp.2 true) hkept .none (hfree hnone)
  | sequence next ih =>
    exact wp_sequence fun n => ih n (hp n) hkeeps .none (wp_sequence_iff.mp h n)
  | write key row next ih =>
    obtain ⟨hlocked, hnext⟩ := wp_write_iff.mp h
    have hold : F.Allows key ((σ.view w.store).lookup key) row :=
      hp.1 _ fun seenRow hseen => (hsees key seenRow hseen).2
    have hkept := hkeeps.write hlocked (htrans _ _ _ _ (hkeeps.allows key) hold)
    exact wp_write hlocked (ih hp.2 hkept .none hnext)

end Contract

end Tracewake.ReadCommitted
