import Tracewake.ReadCommitted.Program
import Mathlib.Data.Int.Order.Basic

/-!
# Interleaved transactions

The committed world is a store, a clock, an identity sequence and the history of
finished calls. Any number of sessions run transactions against it. One step runs
one operation of one session, so that other transactions may commit between two
statements of a transaction and also while a statement waits for a lock. A lock
is held until its transaction ends, and a session that dies rolls back.
-/

namespace Tracewake.ReadCommitted

/-- A finished call: its transaction timestamp, the moment it ended, and its result. -/
structure Finished (C ε α : Type) where
  call : C
  now : ℤ
  ended : ℤ
  result : Except ε α

/-- What is committed, with the clock, the identity sequence and the calls that
have finished, the latest first. -/
structure World {K : Type} (β : K → Type) (C ε α : Type) where
  store : AList β
  clock : ℤ
  sequence : ℕ
  history : List (Finished C ε α)

/-- An open transaction: the call it serves, its `transaction_timestamp()`, the
rows committed when it began (which only specifications read), the number of
statements it has begun, its locks and its uncommitted writes. -/
structure Session {K : Type} (β : K → Type) (C : Type) where
  call : C
  now : ℤ
  origin : AList β
  statements : ℕ
  locks : K → Option LockMode
  writes : Writes β

/-- A session together with the rest of its transaction. -/
structure Transaction {K : Type} (β : K → Type) (C ε α : Type) where
  session : Session β C
  program : Program β ε α

/-- The committed world and the open transactions by session number. -/
structure System {K : Type} (β : K → Type) (C ε α : Type) where
  world : World β C ε α
  running : AList fun _ : ℕ => Transaction β C ε α

/-- What can happen next: a session begins a call, runs one operation, or dies;
or time passes. -/
inductive Event (C : Type)
  | start (session : ℕ) (call : C)
  | run (session : ℕ)
  | abort (session : ℕ)
  | tick (elapsed : ℕ)

variable {K : Type} {β : K → Type} {C ε α : Type}

namespace Session

/-- A fresh transaction at database time `now`. -/
def start (call : C) (now : ℤ) (origin : AList β) : Session β C :=
  ⟨call, now, origin, 0, fun _ => none, ∅⟩

/-- Begin the next statement. -/
def nextStatement (σ : Session β C) : Session β C := { σ with statements := σ.statements + 1 }

/-- Every changed row is locked exclusively. -/
def Owned (σ : Session β C) : Prop := ∀ k, k ∈ σ.writes → σ.locks k = some .exclusive

/-- Two sessions share a lock only in shared mode. -/
def Compatible (σ τ : Session β C) : Prop :=
  ∀ k m m', σ.locks k = some m → τ.locks k = some m' → m = .share ∧ m' = .share

/-- Compatibility is symmetric: neither of the two sessions is special. -/
theorem Compatible.symm {σ τ : Session β C} (h : σ.Compatible τ) : τ.Compatible σ :=
  fun k m m' hm hm' => (h k m' m hm' hm).symm

/-- A fresh session serves the call it was started for. -/
@[simp] theorem start_call (call : C) (now : ℤ) (origin : AList β) :
    (start call now origin).call = call := rfl

/-- A fresh session keeps the moment of its start as its timestamp. -/
@[simp] theorem start_now (call : C) (now : ℤ) (origin : AList β) :
    (start call now origin).now = now := rfl

/-- A fresh session remembers the rows that were committed when it began. -/
@[simp] theorem start_origin (call : C) (now : ℤ) (origin : AList β) :
    (start call now origin).origin = origin := rfl

/-- A fresh session holds no lock yet. -/
@[simp] theorem start_locks (call : C) (now : ℤ) (origin : AList β) (k : K) :
    (start call now origin).locks k = none := rfl

/-- A fresh session has written nothing yet. -/
@[simp] theorem start_writes (call : C) (now : ℤ) (origin : AList β) :
    (start call now origin).writes = ∅ := rfl

/-- A new statement does not move the beginning of the transaction. -/
@[simp] theorem nextStatement_origin (σ : Session β C) :
    σ.nextStatement.origin = σ.origin := rfl

/-- A new statement belongs to the same call. -/
@[simp] theorem nextStatement_call (σ : Session β C) : σ.nextStatement.call = σ.call := rfl

/-- A new statement has the transaction's timestamp, not its own. -/
@[simp] theorem nextStatement_now (σ : Session β C) : σ.nextStatement.now = σ.now := rfl

/-- A new statement takes no lock by itself and gives none up. -/
@[simp] theorem nextStatement_locks (σ : Session β C) : σ.nextStatement.locks = σ.locks := rfl

/-- A new statement keeps the uncommitted writes. -/
@[simp] theorem nextStatement_writes (σ : Session β C) : σ.nextStatement.writes = σ.writes := rfl

/-- Statements are counted as they begin. -/
@[simp] theorem nextStatement_statements (σ : Session β C) :
    σ.nextStatement.statements = σ.statements + 1 := rfl

/-- A fresh session has written nothing, so it owns all that it has written. -/
theorem owned_start (call : C) (now : ℤ) (origin : AList β) : (start call now origin).Owned := by
  intro k hk
  exact absurd hk (AList.notMem_empty k)

variable [DecidableEq K]

/-- The rows the transaction sees: the committed ones under its own writes. -/
def view (σ : Session β C) (store : AList β) : AList β := σ.writes.apply store

/-- Take a lock. An exclusive lock is not weakened by a shared one. -/
def lock (σ : Session β C) (mode : LockMode) (key : K) : Session β C :=
  { σ with
    locks := Function.update σ.locks key
      (if σ.locks key = some .exclusive then some .exclusive else some mode) }

/-- Record a change. -/
def write (σ : Session β C) (key : K) (row : Option (β key)) : Session β C :=
  { σ with writes := σ.writes.insert key row }

/-- A lock does not move the beginning of the transaction. -/
@[simp] theorem lock_origin (σ : Session β C) (m : LockMode) (k : K) :
    (σ.lock m k).origin = σ.origin := rfl

/-- A lock is taken for the call that the session serves. -/
@[simp] theorem lock_call (σ : Session β C) (m : LockMode) (k : K) :
    (σ.lock m k).call = σ.call := rfl

/-- A lock leaves the transaction's timestamp alone. -/
@[simp] theorem lock_now (σ : Session β C) (m : LockMode) (k : K) : (σ.lock m k).now = σ.now := rfl

/-- A lock writes nothing. -/
@[simp] theorem lock_writes (σ : Session β C) (m : LockMode) (k : K) :
    (σ.lock m k).writes = σ.writes := rfl

/-- A lock is part of a statement that has begun already. -/
@[simp] theorem lock_statements (σ : Session β C) (m : LockMode) (k : K) :
    (σ.lock m k).statements = σ.statements := rfl

/-- A write does not move the beginning of the transaction. -/
@[simp] theorem write_origin (σ : Session β C) (k : K) (row : Option (β k)) :
    (σ.write k row).origin = σ.origin := rfl

/-- A write is made for the call that the session serves. -/
@[simp] theorem write_call (σ : Session β C) (k : K) (row : Option (β k)) :
    (σ.write k row).call = σ.call := rfl

/-- A write leaves the transaction's timestamp alone. -/
@[simp] theorem write_now (σ : Session β C) (k : K) (row : Option (β k)) :
    (σ.write k row).now = σ.now := rfl

/-- A write takes no lock: its row has been locked before. -/
@[simp] theorem write_locks (σ : Session β C) (k : K) (row : Option (β k)) :
    (σ.write k row).locks = σ.locks := rfl

/-- A write is part of a statement that has begun already. -/
@[simp] theorem write_statements (σ : Session β C) (k : K) (row : Option (β k)) :
    (σ.write k row).statements = σ.statements := rfl

/-- The latest write of a row replaces the earlier ones. -/
@[simp] theorem write_writes (σ : Session β C) (k : K) (row : Option (β k)) :
    (σ.write k row).writes = σ.writes.insert k row := rfl

/-- Once a row is locked exclusively the session holds that lock. -/
@[simp] theorem lock_locks_self (σ : Session β C) (k : K) :
    (σ.lock .exclusive k).locks k = some .exclusive := by
  simp [lock]

/-- A lock on one row says nothing about the locks on other rows. -/
theorem lock_locks_ne (σ : Session β C) (m : LockMode) {k k' : K} (h : k' ≠ k) :
    (σ.lock m k).locks k' = σ.locks k' := by
  simp [lock, h]

/-- Taking a lock never gives one up. -/
theorem locks_lock_of_exclusive {σ : Session β C} {k : K} (h : σ.locks k = some .exclusive)
    (m : LockMode) (k' : K) : (σ.lock m k').locks k = some .exclusive := by
  by_cases hk : k = k'
  · subst hk
    simp [lock, h]
  · rw [lock_locks_ne _ _ hk, h]

/-- A row that is locked at all stays locked, in whatever mode, when locks are taken. -/
theorem locks_lock_ne_none {σ : Session β C} {k : K} (h : σ.locks k ≠ none) (m : LockMode)
    (k' : K) : (σ.lock m k').locks k ≠ none := by
  by_cases hk : k = k'
  · subst hk
    simp only [lock, Function.update_self]
    split <;> simp
  · rwa [lock_locks_ne _ _ hk]

/-- After any lock of a row the row is locked. -/
theorem lock_locks_self_ne_none (σ : Session β C) (m : LockMode) (k : K) :
    (σ.lock m k).locks k ≠ none := by
  simp only [lock, Function.update_self]
  split <;> simp

/-- Taking locks keeps ownership, since no exclusive lock is weakened by it. -/
theorem Owned.lock {σ : Session β C} (h : σ.Owned) (m : LockMode) (k : K) :
    (σ.lock m k).Owned :=
  fun k' hk' => locks_lock_of_exclusive (h k' hk') m k

/-- Writing a row that is locked exclusively keeps ownership. The other rows were owned
before. -/
theorem Owned.write {σ : Session β C} (h : σ.Owned) {k : K} (hk : σ.locks k = some .exclusive)
    (row : Option (β k)) : (σ.write k row).Owned := by
  intro k' hk'
  rcases AList.mem_insert σ.writes |>.mp hk' with rfl | hmem
  · exact hk
  · exact h k' hmem

/-- The session sees the row that it wrote last. -/
@[simp] theorem view_write_self (σ : Session β C) (k : K) (row : Option (β k)) (store : AList β) :
    ((σ.write k row).view store).lookup k = row := by
  simp [view]

/-- The session sees every other row as before. -/
theorem view_write_ne (σ : Session β C) {k k' : K} (row : Option (β k)) (store : AList β)
    (h : k' ≠ k) : ((σ.write k row).view store).lookup k' = (σ.view store).lookup k' := by
  simp [view, AList.lookup_insert_ne h]

/-- A session that has written nothing sees what is committed. -/
theorem view_of_writes_empty {σ : Session β C} (h : σ.writes = ∅) (store : AList β) :
    σ.view store = store := by
  simp [view, h]

/-- A row that a session has locked is not among the writes of a compatible session. -/
theorem Compatible.lookup_writes {σ τ : Session β C} (h : σ.Compatible τ) (hτ : τ.Owned)
    {k : K} (hk : σ.locks k ≠ none) : τ.writes.lookup k = none := by
  rw [AList.lookup_eq_none]
  intro hmem
  obtain ⟨m, hm⟩ := Option.ne_none_iff_exists'.mp hk
  have := (h k m _ hm (hτ k hmem)).2
  cases this

end Session

namespace World

/-- Record a call that reported an error. Nothing it wrote is published. -/
def refuse (w : World β C ε α) (σ : Session β C) (error : ε) : World β C ε α :=
  { w with history := ⟨σ.call, σ.now, w.clock, .error error⟩ :: w.history }

/-- Let time pass. -/
def tick (w : World β C ε α) (elapsed : ℕ) : World β C ε α :=
  { w with clock := w.clock + elapsed }

/-- Advance the identity sequence. -/
def draw (w : World β C ε α) : World β C ε α := { w with sequence := w.sequence + 1 }

/-- A refused call publishes nothing. -/
@[simp] theorem refuse_store (w : World β C ε α) (σ : Session β C) (error : ε) :
    (w.refuse σ error).store = w.store := rfl

/-- Recording a refusal takes no time. -/
@[simp] theorem refuse_clock (w : World β C ε α) (σ : Session β C) (error : ε) :
    (w.refuse σ error).clock = w.clock := rfl

/-- A refused call is recorded with its error, before the earlier ones. -/
@[simp] theorem refuse_history (w : World β C ε α) (σ : Session β C) (error : ε) :
    (w.refuse σ error).history = ⟨σ.call, σ.now, w.clock, .error error⟩ :: w.history := rfl

/-- Time passes without any change of a row. -/
@[simp] theorem tick_store (w : World β C ε α) (n : ℕ) : (w.tick n).store = w.store := rfl

/-- The clock advances by what has elapsed. -/
@[simp] theorem tick_clock (w : World β C ε α) (n : ℕ) : (w.tick n).clock = w.clock + n := rfl

/-- No call ends merely because time passes. -/
@[simp] theorem tick_history (w : World β C ε α) (n : ℕ) : (w.tick n).history = w.history := rfl

/-- The identity sequence is no row. -/
@[simp] theorem draw_store (w : World β C ε α) : w.draw.store = w.store := rfl

/-- Drawing from the sequence takes no time. -/
@[simp] theorem draw_clock (w : World β C ε α) : w.draw.clock = w.clock := rfl

/-- Drawing from the sequence ends no call. -/
@[simp] theorem draw_history (w : World β C ε α) : w.draw.history = w.history := rfl

/-- The empty database. -/
def initial (clock : ℤ) : World β C ε α := ⟨∅, clock, 0, []⟩

variable [DecidableEq K]

/-- Publish a transaction's writes and record its result. -/
def commit (w : World β C ε α) (σ : Session β C) (value : α) : World β C ε α :=
  { w with
    store := σ.view w.store
    history := ⟨σ.call, σ.now, w.clock, .ok value⟩ :: w.history }

/-- A commit publishes exactly what the session sees. -/
@[simp] theorem commit_store (w : World β C ε α) (σ : Session β C) (value : α) :
    (w.commit σ value).store = σ.view w.store := rfl

/-- A commit takes no time. -/
@[simp] theorem commit_clock (w : World β C ε α) (σ : Session β C) (value : α) :
    (w.commit σ value).clock = w.clock := rfl

/-- A committed call is recorded with its result, before the earlier ones. -/
@[simp] theorem commit_history (w : World β C ε α) (σ : Session β C) (value : α) :
    (w.commit σ value).history = ⟨σ.call, σ.now, w.clock, .ok value⟩ :: w.history := rfl

end World

namespace System

/-- Replace one transaction. -/
def resume (s : System β C ε α) (n : ℕ) (σ : Session β C) (program : Program β ε α) :
    System β C ε α :=
  { s with running := s.running.insert n ⟨σ, program⟩ }

/-- What a session is about from its beginning to its end. -/
def SameCall (σ τ : Session β C) : Prop := σ.call = τ.call ∧ σ.now = τ.now ∧ σ.origin = τ.origin

/-- Replacing the transaction of one session opens no session. Each open one was open before
with the same call, timestamp and origin. -/
theorem resume_opened {s : System β C ε α} {n : ℕ} {t : Transaction β C ε α} {σ : Session β C}
    {program : Program β ε α} (ht : s.running.lookup n = some t) {m : ℕ} {u : Transaction β C ε α}
    (hu : (s.resume n σ program).running.lookup m = some u) (hσ : SameCall σ t.session) :
    ∃ u', s.running.lookup m = some u' ∧ SameCall u.session u'.session := by
  by_cases hm : m = n
  · subst hm
    rw [resume, AList.lookup_insert] at hu
    obtain rfl := Option.some.inj hu
    exact ⟨t, ht, hσ⟩
  · rw [resume, AList.lookup_insert_ne hm] at hu
    exact ⟨u, hu, rfl, rfl, rfl⟩

/-- A session that is open after another one has ended was open before. -/
theorem erase_opened {running : AList fun _ : ℕ => Transaction β C ε α} {n m : ℕ}
    {u : Transaction β C ε α} (hu : (running.erase n).lookup m = some u) :
    running.lookup m = some u := by
  by_cases hm : m = n
  · subst hm
    simp at hu
  · rwa [AList.lookup_erase_ne hm] at hu

variable [DecidableEq K]

/-- Whether some other session holds a lock on `key` that conflicts with `mode`. -/
def blocked (s : System β C ε α) (n : ℕ) (mode : LockMode) (key : K) : Bool :=
  s.running.entries.any fun entry =>
    entry.1 ≠ n &&
      match entry.2.session.locks key with
      | none => false
      | some .exclusive => true
      | some .share => mode = .exclusive

/-- Run one operation of session `n`. `none` when the session has to wait. -/
def runStep (s : System β C ε α) (n : ℕ) (t : Transaction β C ε α) : Option (System β C ε α) :=
  match t.program with
  | .pure value => some ⟨s.world.commit t.session value, s.running.erase n⟩
  | .fail error => some ⟨s.world.refuse t.session error, s.running.erase n⟩
  | .snapshot next =>
    some (s.resume n t.session.nextStatement (next (t.session.view s.world.store)))
  | .lock mode key next =>
    if s.blocked n mode key then none
    else some (s.resume n (t.session.lock mode key)
      (next ((t.session.view s.world.store).lookup key)))
  | .tryLock key next =>
    if s.blocked n .exclusive key then some (s.resume n t.session (next none))
    else some (s.resume n (t.session.lock .exclusive key)
      (next (some ((t.session.view s.world.store).lookup key))))
  | .insert key row next =>
    if s.blocked n .exclusive key then none
    else if ((t.session.view s.world.store).lookup key).isSome then
      some (s.resume n t.session (next false))
    else some (s.resume n ((t.session.lock .exclusive key).write key (some row)) (next true))
  | .sequence next =>
    some { s.resume n t.session (next s.world.sequence) with world := s.world.draw }
  | .write key row next =>
    if t.session.locks key = some .exclusive then some (s.resume n (t.session.write key row) next)
    else none

/-- One event. A session begins at the clock's time and runs at most one call at once. -/
def step (program : C → ℤ → Program β ε α) : Event C → System β C ε α → Option (System β C ε α)
  | .start n call, s =>
    if n ∈ s.running then none
    else some (s.resume n (.start call s.world.clock s.world.store) (program call s.world.clock))
  | .run n, s => (s.running.lookup n).bind (s.runStep n)
  | .abort n, s => some { s with running := s.running.erase n }
  | .tick elapsed, s => some { s with world := s.world.tick elapsed }

/-- Run a list of events from the left. -/
def execute (program : C → ℤ → Program β ε α) :
    List (Event C) → System β C ε α → Option (System β C ε α)
  | [], s => some s
  | event :: events, s => (step program event s).bind (execute program events)

/-- The systems that events allowed in their state can lead to from the empty database. -/
inductive Reachable (program : C → ℤ → Program β ε α)
    (allowed : System β C ε α → Event C → Prop) : System β C ε α → Prop
  | initial (clock : ℤ) : Reachable program allowed ⟨World.initial clock, ∅⟩
  | step {s s' : System β C ε α} {event : Event C} : Reachable program allowed s →
      allowed s event → step program event s = some s' → Reachable program allowed s'

/-- Whether every event of a list is allowed in the state it happens in. -/
def AllowedRun (program : C → ℤ → Program β ε α) (allowed : System β C ε α → Event C → Prop) :
    List (Event C) → System β C ε α → Prop
  | [], _ => True
  | event :: events, s =>
    allowed s event ∧ ∀ s', System.step program event s = some s' → AllowedRun program allowed events s'

/-- A schedule that allows everything allows every run. -/
theorem AllowedRun.of_all {program : C → ℤ → Program β ε α}
    {allowed : System β C ε α → Event C → Prop} (h : ∀ s event, allowed s event) :
    ∀ events s, AllowedRun program allowed events s
  | [], _ => trivial
  | event :: events, s => ⟨h s event, fun s' _ => AllowedRun.of_all h events s'⟩

/-- A run whose events are allowed leads from a reachable system to a reachable one. The
induction is on the events, from the left. -/
theorem Reachable.execute {program : C → ℤ → Program β ε α}
    {allowed : System β C ε α → Event C → Prop} {events : List (Event C)}
    {s s' : System β C ε α} (hs : Reachable program allowed s)
    (hallowed : AllowedRun program allowed events s)
    (hrun : System.execute program events s = some s') : Reachable program allowed s' := by
  induction events generalizing s with
  | nil =>
    obtain rfl : s = s' := Option.some.inj hrun
    exact hs
  | cons event events ih =>
    obtain ⟨s₁, hstep, hrest⟩ := Option.bind_eq_some_iff.mp hrun
    exact ih (hs.step hallowed.1 hstep) (hallowed.2 s₁ hstep) hrest

/-- What one operation does: it commits, it reports an error, or the transaction goes on and
nothing is published. -/
theorem runStep_cases {s s' : System β C ε α} {n : ℕ} {t : Transaction β C ε α}
    (hstep : s.runStep n t = some s') :
    (∃ value, t.program = .pure value ∧
      s' = ⟨s.world.commit t.session value, s.running.erase n⟩) ∨
    (∃ error, t.program = .fail error ∧
      s' = ⟨s.world.refuse t.session error, s.running.erase n⟩) ∨
    ∃ σ program, (s' = s.resume n σ program ∨
      s' = { s.resume n σ program with world := s.world.draw }) ∧ SameCall σ t.session := by
  obtain ⟨σ, program⟩ := t
  cases program with
  | pure value => exact .inl ⟨value, rfl, (Option.some.inj hstep).symm⟩
  | fail error => exact .inr (.inl ⟨error, rfl, (Option.some.inj hstep).symm⟩)
  | snapshot next =>
    obtain rfl := Option.some.inj hstep
    exact .inr (.inr ⟨_, _, .inl rfl, rfl, rfl, rfl⟩)
  | lock mode key next =>
    simp only [runStep] at hstep
    split at hstep
    · cases hstep
    · obtain rfl := Option.some.inj hstep
      exact .inr (.inr ⟨_, _, .inl rfl, rfl, rfl, rfl⟩)
  | tryLock key next =>
    simp only [runStep] at hstep
    split at hstep
    all_goals
      obtain rfl := Option.some.inj hstep
      exact .inr (.inr ⟨_, _, .inl rfl, rfl, rfl, rfl⟩)
  | insert key row next =>
    simp only [runStep] at hstep
    split at hstep
    · cases hstep
    · split at hstep
      all_goals
        obtain rfl := Option.some.inj hstep
        exact .inr (.inr ⟨_, _, .inl rfl, rfl, rfl, rfl⟩)
  | sequence next =>
    obtain rfl := Option.some.inj hstep
    exact .inr (.inr ⟨_, _, .inr rfl, rfl, rfl, rfl⟩)
  | write key row next =>
    simp only [runStep] at hstep
    split at hstep
    · obtain rfl := Option.some.inj hstep
      exact .inr (.inr ⟨_, _, .inl rfl, rfl, rfl, rfl⟩)
    · cases hstep

/-- A session that is open after one operation was open before it. -/
theorem runStep_opened {s s' : System β C ε α} {n : ℕ} {t : Transaction β C ε α}
    (ht : s.running.lookup n = some t) (hstep : s.runStep n t = some s') {m : ℕ}
    {u : Transaction β C ε α} (hu : s'.running.lookup m = some u) :
    ∃ u', s.running.lookup m = some u' ∧ SameCall u.session u'.session := by
  rcases runStep_cases hstep with ⟨_, _, rfl⟩ | ⟨_, _, rfl⟩ | ⟨σ, program, rfl | rfl, hsame⟩
  · exact ⟨u, erase_opened hu, rfl, rfl, rfl⟩
  · exact ⟨u, erase_opened hu, rfl, rfl, rfl⟩
  · exact resume_opened ht hu hsame
  · exact resume_opened ht hu hsame

/-- An operation of an open session that ends its call. -/
structure Ends (s : System β C ε α) (n : ℕ) (t : Transaction β C ε α) (f : Finished C ε α)
    (s' : System β C ε α) : Prop where
  running : s.running.lookup n = some t
  step : s.runStep n t = some s'
  ended : s'.world.history = f :: s.world.history

/-- A call ends by a commit or by an error. -/
theorem Ends.cases {s s' : System β C ε α} {n : ℕ} {t : Transaction β C ε α}
    {f : Finished C ε α} (h : s.Ends n t f s') : f.call = t.session.call ∧
    ((∃ value, t.program = .pure value ∧ f.result = .ok value ∧
        s'.world.store = t.session.view s.world.store) ∨
      ∃ error, t.program = .fail error ∧ f.result = .error error ∧
        s'.world.store = s.world.store) := by
  obtain ⟨_, hstep, hended⟩ := h
  rcases runStep_cases hstep with ⟨value, hvalue, rfl⟩ | ⟨error, herror, rfl⟩ |
    ⟨σ, program, hopen, _⟩
  · obtain ⟨rfl, _⟩ := List.cons.inj hended
    exact ⟨rfl, .inl ⟨value, hvalue, rfl, rfl⟩⟩
  · obtain ⟨rfl, _⟩ := List.cons.inj hended
    exact ⟨rfl, .inr ⟨error, herror, rfl, rfl⟩⟩
  · -- the transaction goes on, so the history is no longer than before
    have hsame : s'.world.history = s.world.history := by
      rcases hopen with rfl | rfl
      · rfl
      · rfl
    exact absurd (congrArg List.length (hsame.symm.trans hended)) (by simp)

/-- A session that is open after an event was open before it, or its call begins with it. -/
theorem step_opened {program : C → ℤ → Program β ε α} {s s' : System β C ε α} {event : Event C}
    (hstep : System.step program event s = some s') {n : ℕ} {t : Transaction β C ε α}
    (ht : s'.running.lookup n = some t) :
    (∃ t', s.running.lookup n = some t' ∧ SameCall t.session t'.session) ∨
      ∃ call, event = .start n call ∧ t.session = .start call s.world.clock s.world.store := by
  cases event with
  | start m call =>
    simp only [System.step] at hstep
    split at hstep
    · cases hstep
    · obtain rfl := Option.some.inj hstep
      by_cases hm : n = m
      · subst hm
        rw [resume, AList.lookup_insert] at ht
        obtain rfl := Option.some.inj ht
        exact .inr ⟨call, rfl, rfl⟩
      · rw [resume, AList.lookup_insert_ne hm] at ht
        exact .inl ⟨t, ht, rfl, rfl, rfl⟩
  | run m =>
    obtain ⟨u, hu, hrun⟩ := Option.bind_eq_some_iff.mp hstep
    exact .inl (runStep_opened hu hrun ht)
  | abort m =>
    obtain rfl := Option.some.inj hstep
    exact .inl ⟨t, erase_opened ht, rfl, rfl, rfl⟩
  | tick elapsed =>
    obtain rfl := Option.some.inj hstep
    exact .inl ⟨t, ht, rfl, rfl, rfl⟩

/-- What holds of every call when it begins is known of every open session. -/
theorem Reachable.opened {program : C → ℤ → Program β ε α}
    {allowed : System β C ε α → Event C → Prop} {P : C → ℤ → AList β → Prop}
    (hstart : ∀ s n call, allowed s (.start n call) → P call s.world.clock s.world.store)
    {s : System β C ε α} (h : Reachable program allowed s) {n : ℕ} {t : Transaction β C ε α}
    (ht : s.running.lookup n = some t) : P t.session.call t.session.now t.session.origin := by
  induction h generalizing n t with
  | initial clock => exact absurd ht (by rw [AList.lookup_empty]; simp)
  | @step s s' event _ hallowed hstep ih =>
    rcases step_opened hstep ht with ⟨t', ht', hcall, hnow, horigin⟩ | ⟨call, rfl, hsession⟩
    · rw [hcall, hnow, horigin]
      exact ih ht'
    · rw [hsession]
      exact hstart s n call hallowed

end System

end Tracewake.ReadCommitted
