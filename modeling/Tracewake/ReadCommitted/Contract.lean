import Tracewake.ReadCommitted.System
import Mathlib.Logic.Relation

/-!
# Rely and guarantee for transactions

A contract names an invariant of the committed world, what every commit
guarantees, what every reported error means, and which calls and commits the
schedule admits. A transaction is verified on its own: between any two of its
operations it may only rely on the invariant and on guarantees of commits whose
locks are compatible with its own. Verified transactions then keep the invariant
under every interleaving.
-/

namespace Tracewake.ReadCommitted

variable {K : Type} [DecidableEq K] {β : K → Type} {C ε α γ ι : Type}

/-- What the transactions of a system promise each other. -/
structure Contract {K : Type} [DecidableEq K] (β : K → Type) (C ε α : Type) where
  /-- Holds of every committed world. -/
  Inv : World β C ε α → Prop
  /-- The worlds in which a call may begin. -/
  Starts : C → World β C ε α → Prop
  /-- Whether a session may commit while another is open that serves a call, has a
  transaction timestamp and has begun a number of statements. -/
  Apart : C → ℤ → ℕ → Session β C → World β C ε α → Prop
  /-- Beginning more statements never admits more commits of the others. -/
  apart_mono : ∀ call now m n σ w, m ≤ n → Apart call now n σ w → Apart call now m σ w
  /-- The worlds to which a session may commit. -/
  Permits : Session β C → World β C ε α → Prop
  /-- What a commit means in the world it commits to. -/
  Guar : Session β C → α → World β C ε α → Prop
  /-- What a reported error means. -/
  Refused : Session β C → ε → World β C ε α → Prop

namespace Contract

variable (c : Contract β C ε α)

/-- One step of the other sessions, as session `σ` may observe it. -/
inductive Interferes (σ : Session β C) (w : World β C ε α) : World β C ε α → Prop
  | tick (n : ℕ) : Interferes σ w (w.tick n)
  | draw : Interferes σ w w.draw
  | refuse (τ : Session β C) (error : ε) : c.Refused τ error w → Interferes σ w (w.refuse τ error)
  | commit (τ : Session β C) (value : α) : σ.Compatible τ → τ.Owned →
      c.Apart σ.call σ.now σ.statements τ w → c.Permits τ w → c.Guar τ value w →
      Interferes σ w (w.commit τ value)

/-- Everything the other sessions may do between two operations of session `σ`. -/
def Rely (σ : Session β C) : World β C ε α → World β C ε α → Prop :=
  Relation.ReflTransGen fun w w' => c.Inv w ∧ c.Interferes σ w w' ∧ c.Inv w'

variable {c} in
/-- The world may stay as it is. -/
theorem Rely.refl {σ : Session β C} {w : World β C ε α} : c.Rely σ w w := Relation.ReflTransGen.refl

variable {c} in
/-- What others do in two periods they may do in one. -/
theorem Rely.trans {σ : Session β C} {w₁ w₂ w₃ : World β C ε α} (h₁ : c.Rely σ w₁ w₂)
    (h₂ : c.Rely σ w₂ w₃) : c.Rely σ w₁ w₃ := Relation.ReflTransGen.trans h₁ h₂

/-- A relation that every step of the others respects holds of everything they do. -/
theorem Rely.induction {c : Contract β C ε α} {σ : Session β C}
    (P : World β C ε α → World β C ε α → Prop) (hrefl : ∀ w, P w w)
    (htrans : ∀ w₁ w₂ w₃, P w₁ w₂ → P w₂ w₃ → P w₁ w₃)
    (hstep : ∀ w w', c.Inv w → c.Interferes σ w w' → c.Inv w' → P w w')
    {w w' : World β C ε α} (h : c.Rely σ w w') : P w w' := by
  induction h with
  | refl => exact hrefl w
  | tail _ hlast ih => exact htrans _ _ _ ih (hstep _ _ hlast.1 hlast.2.1 hlast.2.2)

/-- A property of the world that every step of the others preserves. -/
theorem Rely.preserves {c : Contract β C ε α} {σ : Session β C} (P : World β C ε α → Prop)
    (hstep : ∀ w w', c.Inv w → c.Interferes σ w w' → c.Inv w' → P w → P w')
    {w w' : World β C ε α} (h : c.Rely σ w w') : P w → P w' :=
  Rely.induction (fun w w' => P w → P w') (fun _ => id) (fun _ _ _ h₁ h₂ => h₂ ∘ h₁) hstep h

/-- Whatever the others do, the clock does not go back. -/
theorem Rely.clock_le {c : Contract β C ε α} {σ : Session β C} {w w' : World β C ε α}
    (h : c.Rely σ w w') : w.clock ≤ w'.clock := by
  refine Rely.induction (fun w w' => w.clock ≤ w'.clock) (fun _ => le_rfl)
    (fun _ _ _ => le_trans) (fun w w' _ hstep _ => ?_) h
  cases hstep with
  | tick n =>
    simp only [World.tick_clock]
    omega
  | draw => exact le_rfl
  | refuse => exact le_rfl
  | commit => exact le_rfl

/-- Nobody else changes a row that a session has locked. -/
theorem Rely.lookup_eq {c : Contract β C ε α} {σ : Session β C} {w w' : World β C ε α}
    (h : c.Rely σ w w') {k : K} (hk : σ.locks k ≠ none) :
    w'.store.lookup k = w.store.lookup k := by
  refine Rely.induction (fun w w' => w'.store.lookup k = w.store.lookup k) (fun _ => rfl)
    (fun _ _ _ h₁ h₂ => h₂.trans h₁) (fun w w' _ hstep _ => ?_) h
  cases hstep with
  | tick n => rfl
  | draw => rfl
  | refuse => rfl
  | commit τ value hcompatible howned =>
    simp [Session.view, hcompatible.lookup_writes howned hk]

/-- A session's own writes are nothing to the others, who only meet its locks. -/
theorem Rely.write {c : Contract β C ε α} {σ : Session β C} {w w' : World β C ε α}
    (h : c.Rely σ w w') (key : K) (row : Option (β key)) : c.Rely (σ.write key row) w w' := by
  induction h with
  | refl => exact Rely.refl
  | tail _ hlast ih =>
    refine Relation.ReflTransGen.tail ih ⟨hlast.1, ?_, hlast.2.2⟩
    cases hlast.2.1 with
    | tick n => exact .tick n
    | draw => exact .draw
    | refuse τ error herror => exact .refuse τ error herror
    | commit τ value hcompatible howned hapart hpermits hguar =>
      exact .commit τ value hcompatible howned hapart hpermits hguar

/-- The weakest condition under which a transaction, interrupted before every
operation, ends in `post`. -/
def wp : Program β ε γ → (Except ε γ → Session β C → World β C ε α → Prop) →
    Session β C → World β C ε α → Prop
  | .pure value, post, σ, w => post (.ok value) σ w
  | .fail error, post, σ, w => post (.error error) σ w
  | .snapshot next, post, σ, w =>
    ∀ w', c.Rely σ w w' → c.Inv w' → wp (next (σ.view w'.store)) post σ.nextStatement w'
  | .lock mode key next, post, σ, w =>
    ∀ w', c.Rely σ w w' → c.Inv w' →
      wp (next ((σ.view w'.store).lookup key)) post (σ.lock mode key) w'
  | .tryLock key next, post, σ, w =>
    ∀ w', c.Rely σ w w' → c.Inv w' → wp (next none) post σ w' ∧
      wp (next (some ((σ.view w'.store).lookup key))) post (σ.lock .exclusive key) w'
  | .insert key row next, post, σ, w =>
    ∀ w', c.Rely σ w w' → c.Inv w' →
      (((σ.view w'.store).lookup key).isSome → wp (next false) post σ w') ∧
      ((σ.view w'.store).lookup key = none →
        wp (next true) post ((σ.lock .exclusive key).write key (some row)) w')
  | .sequence next, post, σ, w => ∀ n, wp (next n) post σ w
  | .write key row next, post, σ, w =>
    σ.locks key = some .exclusive ∧ wp next post (σ.write key row) w

section Operations

variable {c} {post : Except ε γ → Session β C → World β C ε α → Prop} {σ : Session β C}
  {w : World β C ε α}

/-- A program that has ended satisfies what its value does. -/
theorem wp_pure_iff {value : γ} : c.wp (.pure value) post σ w ↔ post (.ok value) σ w := Iff.rfl

/-- A program that has failed satisfies what its error does. -/
theorem wp_fail_iff {error : ε} : c.wp (.fail error) post σ w ↔ post (.error error) σ w := Iff.rfl

/-- A statement sees the rows as they are when it begins, which may be later than now. -/
theorem wp_snapshot_iff {next : AList β → Program β ε γ} : c.wp (.snapshot next) post σ w ↔
    ∀ w', c.Rely σ w w' → c.Inv w' → c.wp (next (σ.view w'.store)) post σ.nextStatement w' :=
  Iff.rfl

/-- A lock is granted after a wait. The program goes on with the row as it then is. -/
theorem wp_lock_iff {mode : LockMode} {key : K} {next : Option (β key) → Program β ε γ} :
    c.wp (.lock mode key next) post σ w ↔ ∀ w', c.Rely σ w w' → c.Inv w' →
      c.wp (next ((σ.view w'.store).lookup key)) post (σ.lock mode key) w' :=
  Iff.rfl

/-- A lock that is not waited for is granted or not, and the program must be ready for
both. -/
theorem wp_tryLock_iff {key : K} {next : Option (Option (β key)) → Program β ε γ} :
    c.wp (.tryLock key next) post σ w ↔ ∀ w', c.Rely σ w w' → c.Inv w' →
      c.wp (next none) post σ w' ∧
      c.wp (next (some ((σ.view w'.store).lookup key))) post (σ.lock .exclusive key) w' :=
  Iff.rfl

/-- An insertion waits for whoever has locked the key. Then it inserts the row, or it finds
a row and does nothing. -/
theorem wp_insert_iff {key : K} {row : β key} {next : Bool → Program β ε γ} :
    c.wp (.insert key row next) post σ w ↔ ∀ w', c.Rely σ w w' → c.Inv w' →
      (((σ.view w'.store).lookup key).isSome → c.wp (next false) post σ w') ∧
      ((σ.view w'.store).lookup key = none →
        c.wp (next true) post ((σ.lock .exclusive key).write key (some row)) w') :=
  Iff.rfl

/-- Any number may come out of the sequence. -/
theorem wp_sequence_iff {next : ℕ → Program β ε γ} :
    c.wp (.sequence next) post σ w ↔ ∀ n, c.wp (next n) post σ w := Iff.rfl

/-- A write needs the exclusive lock of its row and then takes effect for the session. -/
theorem wp_write_iff {key : K} {row : Option (β key)} {next : Program β ε γ} :
    c.wp (.write key row next) post σ w ↔
      σ.locks key = some .exclusive ∧ c.wp next post (σ.write key row) w := Iff.rfl

end Operations

/-- A composition is verified from its parts. -/
theorem wp_bind {γ' : Type} (p : Program β ε γ) (next : γ → Program β ε γ')
    (post : Except ε γ' → Session β C → World β C ε α → Prop) (σ : Session β C)
    (w : World β C ε α) :
    c.wp (p.bind next) post σ w ↔
      c.wp p (fun result σ w => match result with
        | .ok value => c.wp (next value) post σ w
        | .error error => post (.error error) σ w) σ w := by
  induction p generalizing σ w with
  | pure value => rfl
  | fail error => rfl
  | snapshot rest ih =>
    exact forall₃_congr fun w' _ _ => ih _ _ _
  | lock mode key rest ih =>
    exact forall₃_congr fun w' _ _ => ih _ _ _
  | tryLock key rest ih =>
    exact forall₃_congr fun w' _ _ => and_congr (ih _ _ _) (ih _ _ _)
  | insert key row rest ih =>
    exact forall₃_congr fun w' _ _ =>
      and_congr (imp_congr_right fun _ => ih _ _ _) (imp_congr_right fun _ => ih _ _ _)
  | sequence rest ih => exact forall_congr' fun n => ih _ _ _
  | write key row rest ih => exact and_congr_right fun _ => ih _ _

/-- A weaker postcondition holds whenever a stronger one does. The induction is on the
program. -/
theorem wp_mono {p : Program β ε γ}
    {post post' : Except ε γ → Session β C → World β C ε α → Prop}
    (hpost : ∀ result σ w, post result σ w → post' result σ w) {σ : Session β C}
    {w : World β C ε α} (h : c.wp p post σ w) : c.wp p post' σ w := by
  induction p generalizing σ w with
  | pure value => exact hpost _ _ _ h
  | fail error => exact hpost _ _ _ h
  | snapshot rest ih => exact fun w' hw' hinv => ih _ (h w' hw' hinv)
  | lock mode key rest ih => exact fun w' hw' hinv => ih _ (h w' hw' hinv)
  | tryLock key rest ih =>
    exact fun w' hw' hinv => ⟨ih _ (h w' hw' hinv).1, ih _ (h w' hw' hinv).2⟩
  | insert key row rest ih =>
    exact fun w' hw' hinv =>
      ⟨fun htaken => ih _ ((h w' hw' hinv).1 htaken), fun hfree => ih _ ((h w' hw' hinv).2 hfree)⟩
  | sequence rest ih => exact fun n => ih _ (h n)
  | write key row rest ih => exact ⟨h.1, ih h.2⟩

/-- If the others cannot falsify the postcondition, they cannot falsify the
verification condition of what is left of a transaction. -/
theorem wp_stable {p : Program β ε γ} {post : Except ε γ → Session β C → World β C ε α → Prop}
    (hpost : ∀ result σ w w', post result σ w → c.Rely σ w w' → c.Inv w' → post result σ w')
    {σ : Session β C} {w w' : World β C ε α} (h : c.wp p post σ w) (hw : c.Rely σ w w')
    (hinv : c.Inv w') : c.wp p post σ w' := by
  induction p generalizing σ with
  | pure value => exact hpost _ _ _ _ h hw hinv
  | fail error => exact hpost _ _ _ _ h hw hinv
  | snapshot rest => exact fun w'' hw'' => h w'' (hw.trans hw'')
  | lock mode key rest => exact fun w'' hw'' => h w'' (hw.trans hw'')
  | tryLock key rest => exact fun w'' hw'' => h w'' (hw.trans hw'')
  | insert key row rest => exact fun w'' hw'' => h w'' (hw.trans hw'')
  | sequence rest ih => exact fun n => ih n (h n) hw
  | write key row rest ih => exact ⟨h.1, ih h.2 (hw.write key row)⟩

/-- How a transaction may end: a commit that the schedule permits keeps the
invariant and gives the guarantee, and an error means what it is declared to mean. -/
def outcome : Except ε α → Session β C → World β C ε α → Prop
  | .ok value, σ, w =>
    ∀ w', c.Rely σ w w' → c.Inv w' → c.Permits σ w' →
      c.Guar σ value w' ∧ c.Inv (w'.commit σ value)
  | .error error, σ, w => ∀ w', c.Rely σ w w' → c.Inv w' → c.Refused σ error w'

/-- What a contract asks of the end of a call stays true while the others go on. -/
theorem outcome_stable (result : Except ε α) (σ : Session β C) (w w' : World β C ε α)
    (h : c.outcome result σ w) (hw : c.Rely σ w w') (_ : c.Inv w') : c.outcome result σ w' := by
  cases result with
  | ok value => exact fun w'' hw'' => h w'' (hw.trans hw'')
  | error error => exact fun w'' hw'' => h w'' (hw.trans hw'')

/-- Every call's transaction is verified, and the invariant does not depend on
the clock's progress, on the sequence, or on refused calls. -/
structure Verified (program : C → ℤ → Program β ε α) : Prop where
  initial : ∀ clock, c.Inv (World.initial clock)
  tick : ∀ w n, c.Inv w → c.Inv (w.tick n)
  draw : ∀ w, c.Inv w → c.Inv w.draw
  refuse : ∀ w σ error, c.Inv w → c.Refused σ error w → c.Inv (w.refuse σ error)
  calls : ∀ call w, c.Inv w → c.Starts call w →
    c.wp (program call w.clock) c.outcome (.start call w.clock w.store) w

/-- The allowed events respect where calls may begin and which commits are apart. -/
structure Schedules (allowed : System β C ε α → Event C → Prop) : Prop where
  start : ∀ s n call, allowed s (.start n call) → c.Starts call s.world
  permits : ∀ s n t value, allowed s (.run n) → s.running.lookup n = some t →
    t.program = .pure value → c.Permits t.session s.world
  apart : ∀ s n t value, allowed s (.run n) → s.running.lookup n = some t →
    t.program = .pure value → ∀ m u, m ≠ n → s.running.lookup m = some u →
    c.Apart u.session.call u.session.now u.session.statements t.session s.world

/-- The state of an interleaved run in which everything promised still holds. -/
structure Sound (s : System β C ε α) : Prop where
  inv : c.Inv s.world
  owned : ∀ n t, s.running.lookup n = some t → t.session.Owned
  compatible : ∀ n m t u, n ≠ m → s.running.lookup n = some t → s.running.lookup m = some u →
    t.session.Compatible u.session
  verified : ∀ n t, s.running.lookup n = some t →
    c.wp t.program c.outcome t.session s.world

variable {c}

/-- What every other session may rely on when the world changes. -/
theorem Sound.of_interferes {s : System β C ε α} (h : c.Sound s) {w : World β C ε α}
    {running : AList fun _ : ℕ => Transaction β C ε α} (hinv : c.Inv w)
    (hrunning : ∀ n t, running.lookup n = some t →
      s.running.lookup n = some t ∧ c.Interferes t.session s.world w) : c.Sound ⟨w, running⟩ where
  inv := hinv
  owned n t ht := h.owned n t (hrunning n t ht).1
  compatible n m t u hnm ht hu :=
    h.compatible n m t u hnm (hrunning n t ht).1 (hrunning m u hu).1
  verified n t ht :=
    c.wp_stable c.outcome_stable (h.verified n t (hrunning n t ht).1)
      (Relation.ReflTransGen.single ⟨h.inv, (hrunning n t ht).2, hinv⟩) hinv

/-- One session proceeds and the committed world stays. -/
theorem Sound.resume {s : System β C ε α} (h : c.Sound s) {n : ℕ} {σ : Session β C}
    {program : Program β ε α} (howned : σ.Owned)
    (hcompatible : ∀ m u, m ≠ n → s.running.lookup m = some u → σ.Compatible u.session)
    (hverified : c.wp program c.outcome σ s.world) : c.Sound (s.resume n σ program) := by
  have hlookup : ∀ m u, (s.resume n σ program).running.lookup m = some u →
      (m = n ∧ u = ⟨σ, program⟩) ∨ (m ≠ n ∧ s.running.lookup m = some u) := by
    intro m u hu
    by_cases hm : m = n
    · subst hm
      rw [System.resume, AList.lookup_insert] at hu
      exact .inl ⟨rfl, (Option.some.inj hu).symm⟩
    · rw [System.resume, AList.lookup_insert_ne hm] at hu
      exact .inr ⟨hm, hu⟩
  refine ⟨h.inv, ?_, ?_, ?_⟩
  · intro m u hu
    rcases hlookup m u hu with ⟨rfl, rfl⟩ | ⟨_, hu⟩
    · exact howned
    · exact h.owned m u hu
  · intro m m' u u' hne hu hu'
    rcases hlookup m u hu with ⟨hm, rfl⟩ | ⟨hm, hu⟩
    · rcases hlookup m' u' hu' with ⟨hm', rfl⟩ | ⟨hm', hu'⟩
      · exact absurd (hm.trans hm'.symm) hne
      · exact hcompatible m' u' hm' hu'
    · rcases hlookup m' u' hu' with ⟨_, rfl⟩ | ⟨_, hu'⟩
      · exact (hcompatible m u hm hu).symm
      · exact h.compatible m m' u u' hne hu hu'
  · intro m u hu
    rcases hlookup m u hu with ⟨rfl, rfl⟩ | ⟨_, hu⟩
    · exact hverified
    · exact h.verified m u hu

/-- A lock that no other session blocks keeps sessions compatible. -/
theorem compatible_lock {s : System β C ε α} {n m : ℕ} {σ : Session β C} {mode : LockMode}
    {key : K} {u : Transaction β C ε α} (hblocked : s.blocked n mode key = false) (hm : m ≠ n)
    (hu : s.running.lookup m = some u) (h : σ.Compatible u.session) :
    (σ.lock mode key).Compatible u.session := by
  have hmem : (⟨m, u⟩ : (_ : ℕ) × Transaction β C ε α) ∈ s.running.entries :=
    AList.mem_lookup_iff.mp hu
  have hfree := (List.any_eq_false.mp hblocked) _ hmem
  intro k a b ha hb
  by_cases hk : k = key
  · subst hk
    simp only [ne_eq, hm, not_false_eq_true, decide_true, Bool.true_and, hb] at hfree
    cases b with
    | exclusive => simp at hfree
    | share =>
      have hmode : mode = .share := by
        cases mode with
        | share => rfl
        | exclusive => simp at hfree
      subst hmode
      simp only [Session.lock, Function.update_self] at ha
      split at ha
      · next hx =>
        exact absurd (h k _ _ hx hb).1 (by simp)
      · exact ⟨(Option.some.inj ha).symm, rfl⟩
  · rw [Session.lock_locks_ne _ _ hk] at ha
    exact h k a b ha hb

/-- One operation of one verified transaction. -/
theorem Sound.runStep {program : C → ℤ → Program β ε α} (hverified : c.Verified program)
    {s s' : System β C ε α} (h : c.Sound s) {n : ℕ} {t : Transaction β C ε α}
    (ht : s.running.lookup n = some t)
    (hpermits : ∀ value, t.program = .pure value → c.Permits t.session s.world)
    (hapart : ∀ value, t.program = .pure value → ∀ m u, m ≠ n → s.running.lookup m = some u →
      c.Apart u.session.call u.session.now u.session.statements t.session s.world)
    (hstep : s.runStep n t = some s') : c.Sound s' := by
  have howned := h.owned n t ht
  have hwp := h.verified n t ht
  have hothers : ∀ m u, m ≠ n → s.running.lookup m = some u → t.session.Compatible u.session :=
    fun m u hm hu => h.compatible n m t u hm.symm ht hu
  have herase : ∀ m u, (s.running.erase n).lookup m = some u → m ≠ n ∧ s.running.lookup m = some u := by
    intro m u hu
    by_cases hm : m = n
    · subst hm
      rw [AList.lookup_erase] at hu
      cases hu
    · rw [AList.lookup_erase_ne hm] at hu
      exact ⟨hm, hu⟩
  obtain ⟨σ, p⟩ := t
  cases p with
  | pure value =>
    obtain rfl := Option.some.inj hstep
    have hpermit := hpermits value rfl
    have hend := hwp s.world .refl h.inv hpermit
    refine h.of_interferes hend.2 fun m u hu => ?_
    obtain ⟨hm, hu⟩ := herase m u hu
    exact ⟨hu, .commit σ value (hothers m u hm hu).symm howned (hapart value rfl m u hm hu)
      hpermit hend.1⟩
  | fail error =>
    obtain rfl := Option.some.inj hstep
    have hend := hwp s.world .refl h.inv
    refine h.of_interferes (hverified.refuse _ _ _ h.inv hend) fun m u hu => ?_
    exact ⟨(herase m u hu).2, .refuse σ error hend⟩
  | snapshot next =>
    obtain rfl := Option.some.inj hstep
    exact h.resume howned hothers (hwp s.world .refl h.inv)
  | lock mode key next =>
    simp only [System.runStep] at hstep
    split at hstep
    · cases hstep
    · next hblocked =>
      obtain rfl := Option.some.inj hstep
      exact h.resume (howned.lock mode key)
        (fun m u hm hu => compatible_lock (by simpa using hblocked) hm hu (hothers m u hm hu))
        (hwp s.world .refl h.inv)
  | tryLock key next =>
    simp only [System.runStep] at hstep
    split at hstep
    · obtain rfl := Option.some.inj hstep
      exact h.resume howned hothers (hwp s.world .refl h.inv).1
    · next hblocked =>
      obtain rfl := Option.some.inj hstep
      exact h.resume (howned.lock .exclusive key)
        (fun m u hm hu => compatible_lock (by simpa using hblocked) hm hu (hothers m u hm hu))
        (hwp s.world .refl h.inv).2
  | insert key row next =>
    simp only [System.runStep] at hstep
    split at hstep
    · cases hstep
    · next hblocked =>
      split at hstep
      · next htaken =>
        obtain rfl := Option.some.inj hstep
        exact h.resume howned hothers ((hwp s.world .refl h.inv).1 htaken)
      · next hfree =>
        obtain rfl := Option.some.inj hstep
        refine h.resume ((howned.lock .exclusive key).write (Session.lock_locks_self σ key) _) ?_
          ((hwp s.world .refl h.inv).2 (by simpa using hfree))
        exact fun m u hm hu => compatible_lock (by simpa using hblocked) hm hu (hothers m u hm hu)
  | sequence next =>
    obtain rfl := Option.some.inj hstep
    have hresumed := h.resume howned hothers (hwp s.world.sequence)
    exact hresumed.of_interferes (hverified.draw _ h.inv) fun m u hu => ⟨hu, .draw⟩
  | write key row next =>
    simp only [System.runStep] at hstep
    split at hstep
    · next hlocked =>
      obtain rfl := Option.some.inj hstep
      exact h.resume (howned.write hlocked row) hothers hwp.2
    · cases hstep

/-- Every event that the schedule allows keeps everything promised. -/
theorem Sound.step {program : C → ℤ → Program β ε α} (hverified : c.Verified program)
    {allowed : System β C ε α → Event C → Prop} (hschedule : c.Schedules allowed)
    {s s' : System β C ε α} (h : c.Sound s) {event : Event C} (hallowed : allowed s event)
    (hstep : System.step program event s = some s') : c.Sound s' := by
  cases event with
  | start n call =>
    simp only [System.step] at hstep
    split at hstep
    · cases hstep
    · obtain rfl := Option.some.inj hstep
      refine h.resume (Session.owned_start _ _ _) ?_ ?_
      · intro m u _ _ k a b ha _
        cases ha
      · exact hverified.calls call s.world h.inv (hschedule.start s n call hallowed)
  | run n =>
    obtain ⟨t, ht, hrun⟩ := Option.bind_eq_some_iff.mp hstep
    exact h.runStep hverified ht (fun value => hschedule.permits s n t value hallowed ht)
      (fun value => hschedule.apart s n t value hallowed ht) hrun
  | abort n =>
    obtain rfl := Option.some.inj hstep
    refine ⟨h.inv, ?_, ?_, ?_⟩
    · intro m u hu
      by_cases hm : m = n
      · subst hm
        rw [AList.lookup_erase] at hu
        cases hu
      · exact h.owned m u (by rwa [AList.lookup_erase_ne hm] at hu)
    · intro m m' u u' hne hu hu'
      by_cases hm : m = n
      · subst hm
        rw [AList.lookup_erase] at hu
        cases hu
      · by_cases hm' : m' = n
        · subst hm'
          rw [AList.lookup_erase] at hu'
          cases hu'
        · rw [AList.lookup_erase_ne hm] at hu
          rw [AList.lookup_erase_ne hm'] at hu'
          exact h.compatible m m' u u' hne hu hu'
    · intro m u hu
      by_cases hm : m = n
      · subst hm
        rw [AList.lookup_erase] at hu
        cases hu
      · exact h.verified m u (by rwa [AList.lookup_erase_ne hm] at hu)
  | tick elapsed =>
    obtain rfl := Option.some.inj hstep
    exact h.of_interferes (hverified.tick _ _ h.inv) fun m u hu => ⟨hu, .tick elapsed⟩

/-- Verified transactions keep the contract in every reachable interleaving. -/
theorem Verified.sound {program : C → ℤ → Program β ε α} (hverified : c.Verified program)
    {allowed : System β C ε α → Event C → Prop} (hschedule : c.Schedules allowed)
    {s : System β C ε α} (h : System.Reachable program allowed s) : c.Sound s := by
  induction h with
  | initial clock =>
    refine ⟨hverified.initial clock, ?_, ?_, ?_⟩
    · intro n t ht
      exact absurd ht (by simp [AList.lookup_empty])
    · intro n m t u _ ht
      exact absurd ht (by simp [AList.lookup_empty])
    · intro n t ht
      exact absurd ht (by simp [AList.lookup_empty])
  | step _ hallowed hstep ih => exact ih.step hverified hschedule hallowed hstep

/-- One change of the committed world: time passes, the sequence advances, a call
is refused, or a commit gives its guarantee. -/
inductive Moves (c : Contract β C ε α) (w : World β C ε α) : World β C ε α → Prop
  | tick (n : ℕ) : Moves c w (w.tick n)
  | draw : Moves c w w.draw
  | refuse (σ : Session β C) (error : ε) : c.Refused σ error w → Moves c w (w.refuse σ error)
  | commit (σ : Session β C) (value : α) : σ.Owned → c.Permits σ w → c.Guar σ value w →
      Moves c w (w.commit σ value)

/-- What one event of a sound run does to the committed world. Only the commit of an open
session changes the rows, and then it gives its guarantee. -/
theorem Sound.step_cases {program : C → ℤ → Program β ε α}
    {allowed : System β C ε α → Event C → Prop} (hschedule : c.Schedules allowed)
    {s s' : System β C ε α} (h : c.Sound s) {event : Event C} (hallowed : allowed s event)
    (hstep : System.step program event s = some s') :
    s'.world = s.world ∨ (∃ n : ℕ, s'.world = s.world.tick n) ∨ s'.world = s.world.draw ∨
      (∃ σ error, c.Refused σ error s.world ∧ s'.world = s.world.refuse σ error) ∨
      ∃ n t value, s.running.lookup n = some t ∧ c.Permits t.session s.world ∧
        c.Guar t.session value s.world ∧
        s' = ⟨s.world.commit t.session value, s.running.erase n⟩ := by
  cases event with
  | start n call =>
    simp only [System.step] at hstep
    split at hstep
    · cases hstep
    · obtain rfl := Option.some.inj hstep
      exact .inl rfl
  | abort n =>
    obtain rfl := Option.some.inj hstep
    exact .inl rfl
  | tick elapsed =>
    obtain rfl := Option.some.inj hstep
    exact .inr (.inl ⟨elapsed, rfl⟩)
  | run n =>
    obtain ⟨t, ht, hrun⟩ := Option.bind_eq_some_iff.mp hstep
    have hwp := h.verified n t ht
    rcases System.runStep_cases hrun with ⟨value, hvalue, rfl⟩ | ⟨error, herror, rfl⟩ |
      ⟨σ, program, rfl | rfl, _⟩
    · have hpermit := hschedule.permits s n t value hallowed ht hvalue
      rw [hvalue] at hwp
      have hguar := (hwp s.world .refl h.inv hpermit).1
      exact .inr (.inr (.inr (.inr ⟨n, t, value, ht, hpermit, hguar, rfl⟩)))
    · rw [herror] at hwp
      exact .inr (.inr (.inr (.inl ⟨t.session, error, hwp s.world .refl h.inv, rfl⟩)))
    · exact .inl rfl
    · exact .inr (.inr (.inl rfl))

/-- Each event of a sound run leaves the committed world or moves it once. -/
theorem Sound.moves {program : C → ℤ → Program β ε α}
    {allowed : System β C ε α → Event C → Prop} (hschedule : c.Schedules allowed)
    {s s' : System β C ε α} (h : c.Sound s) {event : Event C} (hallowed : allowed s event)
    (hstep : System.step program event s = some s') :
    s'.world = s.world ∨ c.Moves s.world s'.world := by
  rcases h.step_cases hschedule hallowed hstep with hsame | ⟨n, htick⟩ | hdraw |
    ⟨σ, error, hrefused, hrefuse⟩ | ⟨n, t, value, ht, hpermits, hguar, rfl⟩
  · exact .inl hsame
  · exact .inr (htick ▸ .tick n)
  · exact .inr (hdraw ▸ .draw)
  · exact .inr (hrefuse ▸ .refuse σ error hrefused)
  · exact .inr (.commit t.session value (h.owned n t ht) hpermits hguar)

/-- An event of a sound run leaves the rows as they are, unless it is the commit of an open
session that gives its guarantee. -/
theorem Sound.step_rows {program : C → ℤ → Program β ε α}
    {allowed : System β C ε α → Event C → Prop} (hschedule : c.Schedules allowed)
    {s s' : System β C ε α} (h : c.Sound s) {event : Event C} (hallowed : allowed s event)
    (hstep : System.step program event s = some s') :
    s'.world.store = s.world.store ∧ s.world.clock ≤ s'.world.clock ∨
      ∃ n t value, s.running.lookup n = some t ∧ c.Guar t.session value s.world ∧
        s' = ⟨s.world.commit t.session value, s.running.erase n⟩ := by
  rcases h.step_cases hschedule hallowed hstep with hsame | ⟨n, htick⟩ | hdraw |
    ⟨σ, error, _, hrefuse⟩ | ⟨n, t, value, ht, _, hguar, hcommit⟩
  · exact .inl ⟨by rw [hsame], by rw [hsame]⟩
  · refine .inl ⟨by rw [htick, World.tick_store], ?_⟩
    rw [htick, World.tick_clock]
    omega
  · exact .inl ⟨by rw [hdraw, World.draw_store], by rw [hdraw, World.draw_clock]⟩
  · exact .inl ⟨by rw [hrefuse, World.refuse_store], by rw [hrefuse, World.refuse_clock]⟩
  · exact .inr ⟨n, t, value, ht, hguar, hcommit⟩

/-- A property of worlds that every move keeps holds in every reachable system. -/
theorem Verified.invariant {program : C → ℤ → Program β ε α} (hverified : c.Verified program)
    {allowed : System β C ε α → Event C → Prop} (hschedule : c.Schedules allowed)
    {P : World β C ε α → Prop} (hinitial : ∀ clock, P (World.initial clock))
    (hmoves : ∀ w w', c.Inv w → c.Moves w w' → c.Inv w' → P w → P w')
    {s : System β C ε α} (h : System.Reachable program allowed s) : P s.world := by
  induction h with
  | initial clock => exact hinitial clock
  | step hs hallowed hstep ih =>
    have hsound := hverified.sound hschedule hs
    have hsound' := hsound.step hverified hschedule hallowed hstep
    rcases hsound.moves hschedule hallowed hstep with heq | hmove
    · rw [heq]
      exact ih
    · exact hmoves _ _ hsound.inv hmove hsound'.inv ih

/-- A property of worlds that every move keeps lasts from a reachable system on. -/
theorem Verified.persists {program : C → ℤ → Program β ε α} (hverified : c.Verified program)
    {allowed : System β C ε α → Event C → Prop} (hschedule : c.Schedules allowed)
    {P : World β C ε α → Prop} (hmoves : ∀ w w', c.Inv w → c.Moves w w' → c.Inv w' → P w → P w')
    {events : List (Event C)} {s s' : System β C ε α} (h : System.Reachable program allowed s)
    (hallowed : System.AllowedRun program allowed events s)
    (hrun : System.execute program events s = some s') : P s.world → P s'.world := by
  induction events generalizing s with
  | nil =>
    obtain rfl : s = s' := Option.some.inj hrun
    exact id
  | cons event events ih =>
    intro hbefore
    obtain ⟨s₁, hstep, hrest⟩ := Option.bind_eq_some_iff.mp hrun
    have hsound := hverified.sound hschedule h
    refine ih (h.step hallowed.1 hstep) (hallowed.2 s₁ hstep) hrest ?_
    rcases hsound.moves hschedule hallowed.1 hstep with heq | hmove
    · rw [heq]
      exact hbefore
    · exact hmoves _ _ hsound.inv hmove
        (hsound.step hverified hschedule hallowed.1 hstep).inv hbefore

-- A transaction is verified by rules from here on, and no longer by unfolding.
attribute [irreducible] wp

/-- What every move of the world keeps, and what holds when nothing has happened yet, is
known of every open session and the rows that it began with. -/
theorem Verified.since {program : C → ℤ → Program β ε α} (hverified : c.Verified program)
    {allowed : System β C ε α → Event C → Prop} (hschedule : c.Schedules allowed)
    {Q : AList β → World β C ε α → Prop} (hrefl : ∀ w, c.Inv w → Q w.store w)
    (hmoves : ∀ origin w w', c.Inv w → c.Moves w w' → Q origin w → Q origin w')
    {s : System β C ε α} (h : System.Reachable program allowed s) {n : ℕ}
    {t : Transaction β C ε α} (ht : s.running.lookup n = some t) : Q t.session.origin s.world := by
  induction h generalizing n t with
  | initial clock => exact absurd ht (by rw [AList.lookup_empty]; simp)
  | @step s s' event hs hallowed hstep ih =>
    have hsound := hverified.sound hschedule hs
    have hworld : ∀ origin, Q origin s.world → Q origin s'.world := by
      intro origin hbefore
      rcases hsound.moves hschedule hallowed hstep with heq | hmove
      · rwa [heq]
      · exact hmoves origin _ _ hsound.inv hmove hbefore
    rcases System.step_opened hstep ht with ⟨t', ht', _, _, horigin⟩ | ⟨call, rfl, hsession⟩
    · rw [horigin]
      exact hworld _ (ih ht')
    · rw [hsession]
      exact hworld _ (hrefl s.world hsound.inv)

end Contract

end Tracewake.ReadCommitted
