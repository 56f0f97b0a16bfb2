import Tracewake.ReadCommitted.Contract

/-!
# Rules for statements

Between two points of a transaction its locks grow, its own writes stay and the
others do what they are allowed to do. `Later` is this relation, and facts about
locked rows survive it. Each statement form of the program language has a rule
that needs no knowledge of how the form is programmed.
-/

namespace Tracewake.ReadCommitted

variable {K : Type} [DecidableEq K] {β : K → Type} {C ε α γ ι : Type}

/-- What a transaction may do to each row. It may leave any row alone. -/
structure Footprint {K : Type} (β : K → Type) where
  Allows : (k : K) → Option (β k) → Option (β k) → Prop
  refl : ∀ k row, Allows k row row

namespace Contract

/-- A later point of the same transaction. -/
structure Onward (c : Contract β C ε α) (σ : Session β C) (w : World β C ε α)
    (σ' : Session β C) (w' : World β C ε α) : Prop where
  call : σ'.call = σ.call
  now : σ'.now = σ.now
  origin : σ'.origin = σ.origin
  locked : ∀ k, σ.locks k ≠ none → σ'.locks k ≠ none
  exclusive : ∀ k, σ.locks k = some .exclusive → σ'.locks k = some .exclusive
  statements : σ.statements ≤ σ'.statements
  rely : c.Rely σ w w'

/-- A later point of the same transaction with no own write in between. -/
structure Later (c : Contract β C ε α) (σ : Session β C) (w : World β C ε α)
    (σ' : Session β C) (w' : World β C ε α) : Prop extends c.Onward σ w σ' w' where
  writes : σ'.writes = σ.writes

variable {c : Contract β C ε α} {σ σ' σ'' : Session β C} {w w' w'' : World β C ε α}

/-- What the others may do to a session with more locks and more statements they
may also do to the session before. -/
theorem Rely.weaken (hcall : σ'.call = σ.call) (hnow : σ'.now = σ.now)
    (hlocked : ∀ k, σ.locks k ≠ none → σ'.locks k ≠ none)
    (hexclusive : ∀ k, σ.locks k = some .exclusive → σ'.locks k = some .exclusive)
    (hstatements : σ.statements ≤ σ'.statements) (h : c.Rely σ' w w') : c.Rely σ w w' := by
  induction h with
  | refl => exact Rely.refl
  | tail _ hlast ih =>
    refine Relation.ReflTransGen.tail ih ⟨hlast.1, ?_, hlast.2.2⟩
    cases hlast.2.1 with
    | tick n => exact .tick n
    | draw => exact .draw
    | refuse τ error herror => exact .refuse τ error herror
    | commit τ value hcompatible howned hapart hpermits hguar =>
      refine .commit τ value ?_ howned ?_ hpermits hguar
      · intro k m m' hm hm'
        obtain ⟨m₁, hm₁⟩ := Option.ne_none_iff_exists'.mp (hlocked k (by simp [hm]))
        have hshare := hcompatible k m₁ m' hm₁ hm'
        cases m with
        | share => exact ⟨rfl, hshare.2⟩
        | exclusive =>
          rw [hexclusive k hm] at hm₁
          cases hm₁
          exact absurd hshare.1 (by simp)
      · rw [hcall, hnow] at hapart
        exact c.apart_mono _ _ _ _ _ _ hstatements hapart

/-- Nothing need happen. -/
theorem Onward.refl : c.Onward σ w σ w :=
  ⟨rfl, rfl, rfl, fun _ => id, fun _ => id, le_rfl, .refl⟩

/-- Two stretches of a transaction are one stretch. -/
theorem Onward.trans (h : c.Onward σ w σ' w') (h' : c.Onward σ' w' σ'' w'') :
    c.Onward σ w σ'' w'' where
  call := h'.call.trans h.call
  now := h'.now.trans h.now
  origin := h'.origin.trans h.origin
  locked k hk := h'.locked k (h.locked k hk)
  exclusive k hk := h'.exclusive k (h.exclusive k hk)
  statements := Nat.le_trans h.statements h'.statements
  rely := h.rely.trans (h'.rely.weaken h.call h.now h.locked h.exclusive h.statements)

/-- A stretch of a transaction may end with a write. -/
theorem Onward.write (h : c.Onward σ w σ' w') (key : K) (row : Option (β key)) :
    c.Onward σ w (σ'.write key row) w' :=
  ⟨h.call, h.now, h.origin, h.locked, h.exclusive, h.statements, h.rely⟩

/-- Nothing need happen. -/
theorem Later.refl : c.Later σ w σ w := ⟨.refl, rfl⟩

/-- Two stretches without a write are one stretch. -/
theorem Later.trans (h : c.Later σ w σ' w') (h' : c.Later σ' w' σ'' w'') :
    c.Later σ w σ'' w'' :=
  ⟨h.toOnward.trans h'.toOnward, h'.writes.trans h.writes⟩

/-- The session may wait while the others go on. -/
theorem Later.of_rely (h : c.Rely σ w w') : c.Later σ w σ w' :=
  ⟨⟨rfl, rfl, rfl, fun _ => id, fun _ => id, le_rfl, h⟩, rfl⟩

/-- The session may begin a statement after a wait. -/
theorem Later.of_snapshot (h : c.Rely σ w w') : c.Later σ w σ.nextStatement w' :=
  ⟨⟨rfl, rfl, rfl, fun _ => id, fun _ => id, Nat.le_succ _, h⟩, rfl⟩

/-- The session may get a lock after a wait. -/
theorem Later.of_lock (h : c.Rely σ w w') (mode : LockMode) (key : K) :
    c.Later σ w (σ.lock mode key) w' :=
  ⟨⟨rfl, rfl, rfl, fun _ hk => Session.locks_lock_ne_none hk mode key,
    fun _ hk => Session.locks_lock_of_exclusive hk mode key, le_rfl, h⟩, rfl⟩

/-- The clock does not go back while a transaction runs. -/
theorem Later.clock_le (h : c.Later σ w σ' w') : w.clock ≤ w'.clock := h.rely.clock_le

/-- A locked row is the same later on. -/
theorem Later.lookup_eq (h : c.Later σ w σ' w') {k : K} (hk : σ.locks k ≠ none) :
    w'.store.lookup k = w.store.lookup k :=
  h.rely.lookup_eq hk

/-- What the session sees of a row it has locked is the same later on. -/
theorem Later.view_lookup_eq (h : c.Later σ w σ' w') {k : K} (hk : σ.locks k ≠ none) :
    (σ'.view w'.store).lookup k = (σ.view w.store).lookup k := by
  simp only [Session.view, Writes.lookup_apply, h.writes, h.lookup_eq hk]

/-- The session has kept to a footprint so far and has locked every row it changed. -/
structure Keeps (F : Footprint β) (σ : Session β C) (w : World β C ε α) : Prop where
  owned : σ.Owned
  allows : ∀ k, F.Allows k (w.store.lookup k) ((σ.view w.store).lookup k)

variable {F : Footprint β}

/-- A session that has changed nothing keeps to every footprint. -/
theorem Keeps.of_writes_empty (h : σ.writes = ∅) : Keeps F σ w where
  owned := by
    intro k hk
    rw [h] at hk
    exact absurd hk (AList.notMem_empty k)
  allows := by
    intro k
    rw [Session.view_of_writes_empty h]
    exact F.refl k _

/-- Nobody else changes the rows that the session has changed. -/
theorem Keeps.later (h : Keeps F σ w) (hlater : c.Later σ w σ' w') : Keeps F σ' w' where
  owned := by
    intro k hk
    rw [hlater.writes] at hk
    exact hlater.exclusive k (h.owned k hk)
  allows := by
    intro k
    by_cases hk : k ∈ σ.writes
    · have hlocked : σ.locks k ≠ none := by simp [h.owned k hk]
      rw [hlater.view_lookup_eq hlocked, hlater.lookup_eq hlocked]
      exact h.allows k
    · have hnone : σ'.writes.lookup k = none := by
        rw [hlater.writes, AList.lookup_eq_none]
        exact hk
      have hview : (σ'.view w'.store).lookup k = w'.store.lookup k := by
        simp [Session.view, hnone]
      rw [hview]
      exact F.refl k _

/-- The session changes a locked row in an allowed way. -/
theorem Keeps.write (h : Keeps F σ w) {k : K} (hlocked : σ.locks k = some .exclusive)
    {row : Option (β k)} (hallows : F.Allows k (w.store.lookup k) row) :
    Keeps F (σ.write k row) w where
  owned := h.owned.write hlocked row
  allows := by
    intro k'
    by_cases hk : k' = k
    · subst hk
      rw [Session.view_write_self]
      exact hallows
    · rw [Session.view_write_ne σ row w.store hk]
      exact h.allows k'

variable {post : Except ε γ → Session β C → World β C ε α → Prop}

/-- A transaction never takes back that it has begun a statement. -/
theorem wp_counted {program : Program β ε γ} {n : ℕ} (hn : n ≤ σ.statements)
    (h : c.wp program (fun result σ' w' => n ≤ σ'.statements → post result σ' w') σ w) :
    c.wp program post σ w := by
  induction program generalizing σ w with
  | pure value => exact wp_pure_iff.mpr (wp_pure_iff.mp h hn)
  | fail error => exact wp_fail_iff.mpr (wp_fail_iff.mp h hn)
  | snapshot rest ih =>
    exact wp_snapshot_iff.mpr fun w' hw' hinv =>
      ih _ (Nat.le_succ_of_le hn) (wp_snapshot_iff.mp h w' hw' hinv)
  | lock mode key rest ih =>
    exact wp_lock_iff.mpr fun w' hw' hinv => ih _ hn (wp_lock_iff.mp h w' hw' hinv)
  | tryLock key rest ih =>
    refine wp_tryLock_iff.mpr fun w' hw' hinv => ?_
    obtain ⟨hbusy, hfree⟩ := wp_tryLock_iff.mp h w' hw' hinv
    exact ⟨ih _ hn hbusy, ih _ hn hfree⟩
  | insert key row rest ih =>
    refine wp_insert_iff.mpr fun w' hw' hinv => ?_
    obtain ⟨htaken, hfree⟩ := wp_insert_iff.mp h w' hw' hinv
    exact ⟨fun hsome => ih _ hn (htaken hsome), fun hnone => ih _ hn (hfree hnone)⟩
  | sequence rest ih => exact wp_sequence_iff.mpr fun m => ih m hn (wp_sequence_iff.mp h m)
  | write key row rest ih =>
    obtain ⟨hlocked, hrest⟩ := wp_write_iff.mp h
    exact wp_write_iff.mpr ⟨hlocked, ih hn hrest⟩

/-- A statement counts. -/
theorem wp_snapshot_counted {next : AList β → Program β ε γ}
    (h : c.wp (.snapshot next) (fun result σ' w' => σ.statements < σ'.statements →
      post result σ' w') σ w) : c.wp (.snapshot next) post σ w :=
  wp_snapshot_iff.mpr fun w' hw' hinv => wp_counted (Nat.le_refl _) (wp_snapshot_iff.mp h w' hw' hinv)

/-- Sequential composition through an intermediate condition. Errors end the transaction. -/
theorem wp_seq {δ : Type} {program : Program β ε δ} {next : δ → Program β ε γ}
    (middle : δ → Session β C → World β C ε α → Prop)
    (hfirst : c.wp program (fun result σ w => match result with
      | .ok value => middle value σ w
      | .error error => post (.error error) σ w) σ w)
    (hnext : ∀ value σ' w', middle value σ' w' → c.wp (next value) post σ' w') :
    c.wp (program.bind next) post σ w := by
  rw [wp_bind]
  refine c.wp_mono ?_ hfirst
  intro result σ' w' hresult
  cases result with
  | ok value => exact hnext value σ' w' hresult
  | error error => exact hresult

/-- Sequential composition, one statement after the other. -/
theorem wp_then {δ : Type} {program : Program β ε δ} {next : δ → Program β ε γ}
    (h : c.wp program (fun result σ w => match result with
      | .ok value => c.wp (next value) post σ w
      | .error error => post (.error error) σ w) σ w) :
    c.wp (program.bind next) post σ w := by
  rw [wp_bind]
  refine c.wp_mono ?_ h
  intro result σ' w' hresult
  cases result with
  | ok value => exact hresult
  | error error => exact hresult

/-- The rule for the end of a program. -/
theorem wp_pure {value : γ} (h : post (.ok value) σ w) : c.wp (.pure value) post σ w :=
  wp_pure_iff.mpr h

/-- The rule for the failure of a program. -/
theorem wp_fail {error : ε} (h : post (.error error) σ w) : c.wp (.fail error) post σ w :=
  wp_fail_iff.mpr h

/-- A number is drawn from the sequence. -/
theorem wp_sequence {next : ℕ → Program β ε γ} (h : ∀ n, c.wp (next n) post σ w) :
    c.wp (.sequence next) post σ w :=
  wp_sequence_iff.mpr h

/-- A locked row is changed. -/
theorem wp_write {key : K} {row : Option (β key)} {next : Program β ε γ}
    (hlocked : σ.locks key = some .exclusive) (h : c.wp next post (σ.write key row) w) :
    c.wp (.write key row next) post σ w :=
  wp_write_iff.mpr ⟨hlocked, h⟩

/-- A row is locked unless someone else holds it. -/
theorem wp_tryLock {key : K} {next : Option (Option (β key)) → Program β ε γ}
    (hbusy : ∀ w', c.Later σ w σ w' → c.Inv w' → c.wp (next none) post σ w')
    (hfree : ∀ σ' w', c.Later σ w σ' w' → σ' = σ.lock .exclusive key → c.Inv w' →
      c.wp (next (some ((σ'.view w'.store).lookup key))) post σ' w') :
    c.wp (.tryLock key next) post σ w :=
  wp_tryLock_iff.mpr fun w' hw' hinv =>
    ⟨hbusy w' (.of_rely hw') hinv, hfree _ w' (.of_lock hw' .exclusive key) rfl hinv⟩

/-- A statement begins with a snapshot. -/
theorem wp_snapshot {next : AList β → Program β ε γ}
    (h : ∀ σ' w', c.Later σ w σ' w' → σ' = σ.nextStatement → c.Inv w' →
      c.wp (next (σ'.view w'.store)) post σ' w') :
    c.wp (.snapshot next) post σ w :=
  wp_snapshot_iff.mpr fun w' hw' hinv => h _ w' (.of_snapshot hw') rfl hinv

/-- A row is locked and its newest version read. -/
theorem wp_lock {mode : LockMode} {key : K} {next : Option (β key) → Program β ε γ}
    (h : ∀ σ' w', c.Later σ w σ' w' → σ' = σ.lock mode key → c.Inv w' →
      c.wp (next ((σ'.view w'.store).lookup key)) post σ' w') :
    c.wp (.lock mode key next) post σ w :=
  wp_lock_iff.mpr fun w' hw' hinv => h _ w' (.of_lock hw' mode key) rfl hinv

/-- A plain query sees the rows committed when it starts, under the own writes. -/
theorem wp_select {query : AList β → γ}
    (h : ∀ σ' w', c.Later σ w σ' w' → σ'.locks = σ.locks → c.Inv w' →
      post (.ok (query (σ'.view w'.store))) σ' w') :
    c.wp (Program.select query) post σ w :=
  wp_snapshot fun σ' w' hlater hsnapshot hinv => wp_pure (h σ' w' hlater (hsnapshot ▸ rfl) hinv)

/-- A row that is locked and looked at again. -/
theorem wp_lockRow {mode : LockMode} {key : K} {qualifies : β key → Bool}
    {post : Except ε (Option (β key)) → Session β C → World β C ε α → Prop}
    (h : ∀ σ' w', c.Later σ w σ' w' → σ' = σ.lock mode key → c.Inv w' →
      post (.ok (((σ'.view w'.store).lookup key).filter qualifies)) σ' w') :
    c.wp (Program.lockRow mode key qualifies) post σ w :=
  wp_lock fun σ' w' hlater hlock hinv => wp_pure (h σ' w' hlater hlock hinv)

/-- One row of a locking query: either the snapshot has no such row, or the row is
locked and its newest version decides. -/
theorem wp_selectLocked {mode : LockMode} {key : K} {qualifies : AList β → β key → Bool}
    {post : Except ε (Option (β key)) → Session β C → World β C ε α → Prop}
    (hmissing : ∀ σ' w', c.Later σ w σ' w' → σ'.locks = σ.locks → c.Inv w' →
      ¬ ((σ'.view w'.store).lookup key).any (qualifies (σ'.view w'.store)) →
      post (.ok none) σ' w')
    (hlocked : ∀ σ₁ w₁ σ' w', c.Later σ w σ₁ w₁ → c.Inv w₁ → c.Later σ₁ w₁ σ' w' → c.Inv w' →
      ((σ₁.view w₁.store).lookup key).any (qualifies (σ₁.view w₁.store)) →
      σ' = (σ₁.lock mode key) →
      post (.ok (((σ'.view w'.store).lookup key).filter (qualifies (σ₁.view w₁.store)))) σ' w') :
    c.wp (Program.selectLocked mode key qualifies) post σ w := by
  refine wp_snapshot fun σ₁ w₁ hlater hsnapshot hinv₁ => ?_
  split
  · next hany =>
    exact wp_lockRow fun σ' w' h' hlock hinv' =>
      hlocked σ₁ w₁ σ' w' hlater hinv₁ h' hinv' hany hlock
  · next hany => exact wp_pure (hmissing _ _ hlater (hsnapshot ▸ rfl) hinv₁ hany)

/-- A plain `INSERT`. -/
theorem wp_insertRow {key : K} {row : β key}
    {post : Except ε Bool → Session β C → World β C ε α → Prop}
    (htaken : ∀ w', c.Rely σ w w' → c.Inv w' → ((σ.view w'.store).lookup key).isSome →
      post (.ok false) σ w')
    (hfree : ∀ σ' w', c.Later σ w σ' w' → c.Inv w' → σ'.locks key = some .exclusive →
      σ' = σ.lock .exclusive key →
      (σ'.view w'.store).lookup key = none → post (.ok true) (σ'.write key (some row)) w') :
    c.wp (Program.insertRow key row) post σ w := by
  refine wp_insert_iff.mpr fun w' hw' hinv => ⟨fun hsome => ?_, fun hnone => ?_⟩
  · exact wp_pure (htaken w' hw' hinv hsome)
  · exact wp_pure
      (hfree _ w' (.of_lock hw' .exclusive key) hinv (Session.lock_locks_self σ key) rfl hnone)

/-- An `UPDATE` of one row named by its key. -/
theorem wp_updateKey {key : K} {qualifies : AList β → β key → Bool} {set : β key → β key}
    {post : Except ε (Option (β key)) → Session β C → World β C ε α → Prop}
    (hmissing : ∀ σ' w', c.Later σ w σ' w' → c.Inv w' →
      ¬ ((σ'.view w'.store).lookup key).any (qualifies (σ'.view w'.store)) →
      post (.ok none) σ' w')
    (hskip : ∀ σ₁ w₁ σ' w', c.Later σ w σ₁ w₁ → c.Inv w₁ → c.Later σ₁ w₁ σ' w' → c.Inv w' →
      σ'.locks key = some .exclusive →
      ((σ₁.view w₁.store).lookup key).any (qualifies (σ₁.view w₁.store)) →
      ((σ'.view w'.store).lookup key).filter (qualifies (σ₁.view w₁.store)) = none →
      post (.ok none) σ' w')
    (hset : ∀ σ₁ w₁ σ' w' row, c.Later σ w σ₁ w₁ → c.Inv w₁ → c.Later σ₁ w₁ σ' w' → c.Inv w' →
      σ'.locks key = some .exclusive →
      (σ'.view w'.store).lookup key = some row → qualifies (σ₁.view w₁.store) row →
      post (.ok (some (set row))) (σ'.write key (some (set row))) w') :
    c.wp (Program.updateKey key qualifies set) post σ w := by
  refine wp_snapshot fun σ₁ w₁ hlater _ hinv₁ => ?_
  split
  · next hany =>
    rw [wp_bind]
    refine wp_lockRow fun σ' w' h' hlock hinv' => ?_
    have hexclusive : σ'.locks key = some .exclusive := by
      rw [hlock]
      exact Session.lock_locks_self _ key
    cases hrow : ((σ'.view w'.store).lookup key).filter (qualifies (σ₁.view w₁.store)) with
    | none => exact wp_pure (hskip _ _ σ' w' hlater hinv₁ h' hinv' hexclusive hany hrow)
    | some row =>
      obtain ⟨hlookup, hqualifies⟩ := Option.filter_eq_some_iff.mp hrow
      refine wp_write hexclusive (wp_pure ?_)
      exact hset _ _ σ' w' row hlater hinv₁ h' hinv' hexclusive hlookup hqualifies
  · next hany => exact wp_pure (hmissing _ _ hlater hinv₁ hany)

/-- An `UPDATE` of one row that the session has locked already. -/
theorem wp_updateKey_locked {key : K} {qualifies : AList β → β key → Bool}
    {set : β key → β key} {row : β key}
    {post : Except ε (Option (β key)) → Session β C → World β C ε α → Prop}
    (hlocked : σ.locks key = some .exclusive) (hrow : (σ.view w.store).lookup key = some row)
    (hqualifies : ∀ store, qualifies store row)
    (h : ∀ σ' w', c.Later σ w σ' w' → c.Inv w' → σ'.locks key = some .exclusive →
      post (.ok (some (set row))) (σ'.write key (some (set row))) w') :
    c.wp (Program.updateKey key qualifies set) post σ w := by
  have hne : σ.locks key ≠ none := by simp [hlocked]
  refine wp_updateKey ?_ ?_ ?_
  · intro σ' w' h' _ hnone
    rw [h'.view_lookup_eq hne, hrow] at hnone
    exact absurd (hqualifies _) (by simpa using hnone)
  · intro σ₁ w₁ σ' w' h₁ _ h' _ _ _ hnone
    rw [(h₁.trans h').view_lookup_eq hne, hrow] at hnone
    simp [hqualifies] at hnone
  · intro σ₁ w₁ σ' w' row' h₁ _ h' hinv' hexclusive hrow' _
    rw [(h₁.trans h').view_lookup_eq hne, hrow] at hrow'
    cases hrow'
    exact h σ' w' (h₁.trans h') hinv' hexclusive

/-- A loop over items with an invariant on the items done. -/
theorem wp_forEach {body : ι → Program β ε Unit} {items : List ι}
    {post : Except ε Unit → Session β C → World β C ε α → Prop}
    (J : List ι → Session β C → World β C ε α → Prop)
    (hbody : ∀ done i rest σ w, items = done ++ i :: rest → J done σ w →
      c.wp (body i) (fun result σ' w' => match result with
        | .ok _ => J (done ++ [i]) σ' w'
        | .error error => post (.error error) σ' w') σ w)
    (hpost : ∀ σ w, J items σ w → post (.ok ()) σ w) (hinit : J [] σ w) :
    c.wp (Program.forEach body items) post σ w := by
  have hloop : ∀ rest done σ w, items = done ++ rest → J done σ w →
      c.wp (Program.forEach body rest) post σ w := by
    intro rest
    induction rest with
    | nil =>
      intro done σ w hitems hJ
      rw [List.append_nil] at hitems
      exact wp_pure (hpost σ w (hitems ▸ hJ))
    | cons i rest ih =>
      intro done σ w hitems hJ
      simp only [Program.forEach]
      rw [wp_bind]
      refine c.wp_mono ?_ (hbody done i rest σ w hitems hJ)
      intro result σ' w' hresult
      cases result with
      | error error => exact hresult
      | ok value => exact ih (done ++ [i]) σ' w' (by simp [hitems]) hresult
  exact hloop items [] σ w rfl hinit

/-- The rows of an `UPDATE`, one after the other: a row that no longer qualifies
stays locked, and every other row is changed. -/
theorem wp_updateRows {key : ι → K} {qualifies : (i : ι) → β (key i) → Bool}
    {set : (i : ι) → β (key i) → β (key i)} {items : List ι}
    {post : Except ε (List ((i : ι) × β (key i))) → Session β C → World β C ε α → Prop}
    (J : List ι → Session β C → World β C ε α → Prop)
    (hlater : ∀ done σ w σ' w', J done σ w → c.Later σ w σ' w' → c.Inv w' → J done σ' w')
    (hskip : ∀ done i rest σ w, items = done ++ i :: rest → J done σ w → c.Inv w →
      σ.locks (key i) = some .exclusive →
      ((σ.view w.store).lookup (key i)).filter (qualifies i) = none → J (done ++ [i]) σ w)
    (hset : ∀ done i rest row σ w, items = done ++ i :: rest → J done σ w → c.Inv w →
      σ.locks (key i) = some .exclusive → (σ.view w.store).lookup (key i) = some row →
      qualifies i row → J (done ++ [i]) (σ.write (key i) (some (set i row))) w)
    (hpost : ∀ updated σ w, J items σ w → post (.ok updated) σ w) (hinit : J [] σ w) :
    c.wp (Program.updateRows key qualifies set items) post σ w := by
  have hloop : ∀ rest done σ w
      (post : Except ε (List ((i : ι) × β (key i))) → Session β C → World β C ε α → Prop),
      (∀ updated σ w, J items σ w → post (.ok updated) σ w) → items = done ++ rest → J done σ w →
      c.wp (Program.updateRows key qualifies set rest) post σ w := by
    intro rest
    induction rest with
    | nil =>
      intro done σ w post hpost hitems hJ
      rw [List.append_nil] at hitems
      exact wp_pure (hpost [] σ w (hitems ▸ hJ))
    | cons i rest ih =>
      intro done σ w post hpost hitems hJ
      have hitems' : items = (done ++ [i]) ++ rest := by simp [hitems]
      simp only [Program.updateRows]
      rw [wp_bind]
      refine wp_lockRow fun σ' w' h' hlock hinv' => ?_
      have hJ' := hlater done σ w σ' w' hJ h' hinv'
      have hexclusive : σ'.locks (key i) = some .exclusive := by
        rw [hlock]
        exact Session.lock_locks_self _ _
      cases hrow : ((σ'.view w'.store).lookup (key i)).filter (qualifies i) with
      | none =>
        exact ih _ σ' w' post hpost hitems' (hskip done i rest σ' w' hitems hJ' hinv' hexclusive hrow)
      | some row =>
        obtain ⟨hlookup, hqualifies⟩ := Option.filter_eq_some_iff.mp hrow
        refine wp_write hexclusive ?_
        rw [wp_bind]
        refine ih _ _ w' _ ?_ hitems'
          (hset done i rest row σ' w' hitems hJ' hinv' hexclusive hlookup hqualifies)
        exact fun updated σ w hJ => wp_pure (hpost _ σ w hJ)
  exact hloop items [] σ w post hpost rfl hinit

/-- `UPDATE ... WHERE`: the loop of `wp_updateRows` over what the snapshot selects. -/
theorem wp_update {key : ι → K} {scan : AList β → List ι}
    {qualifies : AList β → (i : ι) → β (key i) → Bool} {set : (i : ι) → β (key i) → β (key i)}
    {post : Except ε (List ((i : ι) × β (key i))) → Session β C → World β C ε α → Prop}
    (J : AList β → List ι → Session β C → World β C ε α → Prop)
    (hinit : ∀ σ' w', c.Later σ w σ' w' → σ'.statements = σ.statements + 1 → c.Inv w' →
      J (σ'.view w'.store) [] σ' w')
    (hlater : ∀ store done σ w σ' w', J store done σ w → c.Later σ w σ' w' → c.Inv w' →
      J store done σ' w')
    (hskip : ∀ store done i σ w, i ∈ scan store → (store.lookup (key i)).any (qualifies store i) →
      J store done σ w → c.Inv w → σ.locks (key i) = some .exclusive →
      ((σ.view w.store).lookup (key i)).filter (qualifies store i) = none →
      J store (done ++ [i]) σ w)
    (hset : ∀ store done i row σ w, i ∈ scan store →
      (store.lookup (key i)).any (qualifies store i) → J store done σ w → c.Inv w →
      σ.locks (key i) = some .exclusive → (σ.view w.store).lookup (key i) = some row →
      qualifies store i row → J store (done ++ [i]) (σ.write (key i) (some (set i row))) w)
    (hpost : ∀ store updated σ w, J store ((scan store).filter fun i =>
      (store.lookup (key i)).any (qualifies store i)) σ w → post (.ok updated) σ w) :
    c.wp (Program.update key scan qualifies set) post σ w := by
  refine wp_snapshot fun σ₁ w₁ hlater₁ hsnapshot hinv₁ => ?_
  have hstatements : σ₁.statements = σ.statements + 1 := hsnapshot ▸ rfl
  have hmem : ∀ {store : AList β} {done rest : List ι} {i : ι},
      ((scan store).filter fun i => (store.lookup (key i)).any (qualifies store i)) =
        done ++ i :: rest →
      i ∈ scan store ∧ (store.lookup (key i)).any (qualifies store i) := by
    intro store done rest i hitems
    have hi : i ∈ (scan store).filter fun i => (store.lookup (key i)).any (qualifies store i) := by
      rw [hitems]
      simp
    exact List.mem_filter.mp hi
  refine wp_updateRows (J (σ₁.view w₁.store)) (hlater _) ?_ ?_ (hpost _)
    (hinit _ w₁ hlater₁ hstatements hinv₁)
  · intro done i rest σ' w' hitems hJ hinv hlocked hrow
    exact hskip _ done i σ' w' (hmem hitems).1 (hmem hitems).2 hJ hinv hlocked hrow
  · intro done i rest row σ' w' hitems hJ hinv hlocked hrow hqualifies
    exact hset _ done i row σ' w' (hmem hitems).1 (hmem hitems).2 hJ hinv hlocked hrow hqualifies

/-- An `UPDATE` whose scan finds one row. -/
theorem wp_update_single {key : ι → K} {scan : AList β → List ι}
    {qualifies : AList β → (i : ι) → β (key i) → Bool} {set : (i : ι) → β (key i) → β (key i)}
    {post : Except ε (List ((i : ι) × β (key i))) → Session β C → World β C ε α → Prop} {i : ι}
    (hscan : ∀ σ' w', c.Later σ w σ' w' → c.Inv w' → scan (σ'.view w'.store) = [i])
    (hmissing : ∀ σ' w', c.Later σ w σ' w' → c.Inv w' →
      ¬ ((σ'.view w'.store).lookup (key i)).any (qualifies (σ'.view w'.store) i) →
      post (.ok []) σ' w')
    (hskip : ∀ σ₁ w₁ σ' w', c.Later σ w σ₁ w₁ → c.Inv w₁ → c.Later σ₁ w₁ σ' w' → c.Inv w' →
      ((σ'.view w'.store).lookup (key i)).filter (qualifies (σ₁.view w₁.store) i) = none →
      post (.ok []) σ' w')
    (hset : ∀ σ₁ w₁ σ' w' row, c.Later σ w σ₁ w₁ → c.Inv w₁ → c.Later σ₁ w₁ σ' w' → c.Inv w' →
      σ'.locks (key i) = some .exclusive → (σ'.view w'.store).lookup (key i) = some row →
      qualifies (σ₁.view w₁.store) i row →
      post (.ok [⟨i, set i row⟩]) (σ'.write (key i) (some (set i row))) w') :
    c.wp (Program.update key scan qualifies set) post σ w := by
  refine wp_snapshot fun σ₁ w₁ hlater _ hinv₁ => ?_
  rw [hscan σ₁ w₁ hlater hinv₁, List.filter_singleton]
  cases hany : ((σ₁.view w₁.store).lookup (key i)).any (qualifies (σ₁.view w₁.store) i) with
  | false =>
    simp only [cond_false, Program.updateRows]
    exact wp_pure (hmissing σ₁ w₁ hlater hinv₁ (by simp [hany]))
  | true =>
    simp only [cond_true, Program.updateRows]
    rw [wp_bind]
    refine wp_lockRow fun σ' w' hlater' hlock hinv' => ?_
    have hexclusive : σ'.locks (key i) = some .exclusive := by
      rw [hlock]
      exact Session.lock_locks_self _ _
    cases hrow : ((σ'.view w'.store).lookup (key i)).filter
        (qualifies (σ₁.view w₁.store) i) with
    | none => exact wp_pure (hskip σ₁ w₁ σ' w' hlater hinv₁ hlater' hinv' hrow)
    | some row =>
      obtain ⟨hlookup, hqualifies⟩ := Option.filter_eq_some_iff.mp hrow
      exact wp_write hexclusive (wp_pure
        (hset σ₁ w₁ σ' w' row hlater hinv₁ hlater' hinv' hexclusive hlookup hqualifies))

/-- `DELETE ... WHERE`, like `wp_update` with rows removed. -/
theorem wp_delete {key : ι → K} {scan : AList β → List ι}
    {qualifies : AList β → (i : ι) → β (key i) → Bool}
    {post : Except ε ℕ → Session β C → World β C ε α → Prop}
    (J : Session β C → World β C ε α → Prop)
    (hinit : ∀ σ' w', c.Later σ w σ' w' → σ'.statements = σ.statements + 1 → c.Inv w' → J σ' w')
    (hlater : ∀ σ w σ' w', J σ w → c.Later σ w σ' w' → c.Inv w' → J σ' w')
    (hremove : ∀ store i row σ w, J σ w → c.Inv w → σ.locks (key i) = some .exclusive →
      (σ.view w.store).lookup (key i) = some row → qualifies store i row →
      J (σ.write (key i) none) w)
    (hpost : ∀ removed σ w, J σ w → post (.ok removed) σ w) :
    c.wp (Program.delete key scan qualifies) post σ w := by
  refine wp_snapshot fun σ₁ w₁ hlater₁ hsnapshot hinv₁ => ?_
  have hloop : ∀ store items σ w (post : Except ε ℕ → Session β C → World β C ε α → Prop),
      (∀ removed σ w, J σ w → post (.ok removed) σ w) → J σ w →
      c.wp (Program.deleteRows key (qualifies store) items) post σ w := by
    intro store items
    induction items with
    | nil => exact fun σ w post hpost hJ => wp_pure (hpost 0 σ w hJ)
    | cons i rest ih =>
      intro σ w post hpost hJ
      simp only [Program.deleteRows]
      rw [wp_bind]
      refine wp_lockRow fun σ' w' h' hlock hinv' => ?_
      have hJ' := hlater σ w σ' w' hJ h' hinv'
      have hexclusive : σ'.locks (key i) = some .exclusive := by
        rw [hlock]
        exact Session.lock_locks_self _ _
      cases hrow : ((σ'.view w'.store).lookup (key i)).filter (qualifies store i) with
      | none => exact ih σ' w' post hpost hJ'
      | some row =>
        obtain ⟨hlookup, hqualifies⟩ := Option.filter_eq_some_iff.mp hrow
        refine wp_write hexclusive ?_
        rw [wp_bind]
        exact ih _ w' _ (fun removed σ w hJ => wp_pure (hpost _ σ w hJ))
          (hremove store i row σ' w' hJ' hinv' hexclusive hlookup hqualifies)
  exact hloop _ _ _ w₁ post hpost (hinit _ w₁ hlater₁ (hsnapshot ▸ rfl) hinv₁)

/-- What `SKIP LOCKED` gives back: rows of the items in order, each locked and in
its newest version. -/
theorem wp_lockSkipping {key : ι → K} {qualifies : (i : ι) → β (key i) → Bool} {items : List ι}
    {limit : ℕ}
    {post : Except ε (List ((i : ι) × β (key i))) → Session β C → World β C ε α → Prop}
    (hinv : c.Inv w)
    (h : ∀ selected σ' w', c.Later σ w σ' w' → c.Inv w' →
      (selected.map Sigma.fst).Sublist items → selected.length ≤ limit →
      (∀ entry ∈ selected, σ'.locks (key entry.1) = some .exclusive ∧
        (σ'.view w'.store).lookup (key entry.1) = some entry.2 ∧ qualifies entry.1 entry.2) →
      post (.ok selected) σ' w') :
    c.wp (Program.lockSkipping key qualifies items limit) post σ w := by
  induction items generalizing σ w limit post with
  | nil =>
    simp only [Program.lockSkipping]
    exact wp_pure (h [] σ w .refl hinv (by simp) (by simp) (by simp))
  | cons i rest ih =>
    cases limit with
    | zero =>
      simp only [Program.lockSkipping]
      exact wp_pure (h [] σ w .refl hinv (by simp) (by simp) (by simp))
    | succ limit =>
      simp only [Program.lockSkipping]
      have hskip : ∀ σ₁ w₁, c.Later σ w σ₁ w₁ → c.Inv w₁ →
          c.wp (Program.lockSkipping key qualifies rest (limit + 1)) post σ₁ w₁ := by
        intro σ₁ w₁ h₁ hinv₁
        refine ih hinv₁ ?_
        intro selected σ' w' h' hinv' hsub hlength hrows
        exact h selected σ' w' (h₁.trans h') hinv' (hsub.trans (List.sublist_cons_self _ _))
          hlength hrows
      refine wp_tryLock (fun w₁ h₁ hinv₁ => hskip σ w₁ h₁ hinv₁) fun σ₁ w₁ h₁ hlock hinv₁ => ?_
      have hexclusive : σ₁.locks (key i) = some .exclusive := by
        rw [hlock]
        exact Session.lock_locks_self σ (key i)
      rw [Option.bind_some]
      cases hrow : (((σ₁.view w₁.store).lookup (key i)).filter (qualifies i)) with
      | none => exact hskip _ _ h₁ hinv₁
      | some row =>
        obtain ⟨hlookup, hqualifies⟩ := Option.filter_eq_some_iff.mp hrow
        simp only
        rw [wp_bind]
        refine ih hinv₁ ?_
        intro selected σ' w' h' hinv' hsub hlength hrows
        refine wp_pure (h (⟨i, row⟩ :: selected) σ' w' (h₁.trans h') hinv' (hsub.cons_cons i)
          (by simpa using hlength) ?_)
        intro entry hentry
        rcases List.mem_cons.mp hentry with rfl | hmem
        · refine ⟨h'.exclusive _ hexclusive, ?_, hqualifies⟩
          rw [h'.view_lookup_eq (by simp [hexclusive])]
          exact hlookup
        · exact hrows entry hmem

/-- `SELECT ... FOR UPDATE SKIP LOCKED LIMIT`. -/
theorem wp_selectSkipLocked {key : ι → K} {scan : AList β → List ι}
    {qualifies : AList β → (i : ι) → β (key i) → Bool} {limit : ℕ}
    {post : Except ε (List ((i : ι) × β (key i))) → Session β C → World β C ε α → Prop}
    (h : ∀ selected σ₁ w₁ σ' w', c.Later σ w σ₁ w₁ → c.Inv w₁ → c.Later σ₁ w₁ σ' w' → c.Inv w' →
      (selected.map Sigma.fst).Sublist (scan (σ₁.view w₁.store)) →
      (∀ entry ∈ selected, σ'.locks (key entry.1) = some .exclusive ∧
        (σ'.view w'.store).lookup (key entry.1) = some entry.2 ∧
        qualifies (σ₁.view w₁.store) entry.1 entry.2) →
      post (.ok selected) σ' w') :
    c.wp (Program.selectSkipLocked key scan qualifies limit) post σ w := by
  refine wp_snapshot fun σ₁ w₁ hlater₁ _ hinv₁ => ?_
  refine wp_lockSkipping hinv₁ ?_
  intro selected σ' w' h' hinv' hsub _ hrows
  exact h selected σ₁ w₁ σ' w' hlater₁ hinv₁ h' hinv' (hsub.trans List.filter_sublist) hrows

end Contract

end Tracewake.ReadCommitted
