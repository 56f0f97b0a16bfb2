import Tracewake.ReadCommitted.Contract

/-!
# Serial runs

A call that runs alone is a function of the committed world. Runs made of such
calls are interleavings in which no two transactions are ever open together, so
what holds in every interleaving holds in every serial run.
-/

namespace Tracewake.ReadCommitted

variable {K : Type} {β : K → Type} {C ε α : Type}

namespace System

/-- The system in which one transaction is open. -/
def solo (w : World β C ε α) (n : ℕ) (σ : Session β C) (p : Program β ε α) : System β C ε α :=
  (⟨w, ∅⟩ : System β C ε α).resume n σ p

/-- One open transaction leaves the world as it was. -/
@[simp] theorem solo_world (w : World β C ε α) (n : ℕ) (σ : Session β C) (p : Program β ε α) :
    (solo w n σ p).world = w := rfl

/-- The open transaction is found under its number. -/
@[simp] theorem solo_lookup (w : World β C ε α) (n : ℕ) (σ : Session β C) (p : Program β ε α) :
    (solo w n σ p).running.lookup n = some ⟨σ, p⟩ :=
  AList.lookup_insert _

/-- No other transaction is open. -/
theorem solo_entries (w : World β C ε α) (n : ℕ) (σ : Session β C) (p : Program β ε α) :
    (solo w n σ p).running.entries = [⟨n, σ, p⟩] := rfl

/-- With nobody else there, no lock is waited for. -/
@[simp] theorem solo_blocked (w : World β C ε α) (n : ℕ) (σ : Session β C) (p : Program β ε α)
    (mode : LockMode) (key : K) : (solo w n σ p).blocked n mode key = false := by
  simp [blocked, solo_entries]

/-- When the only transaction has ended none is open. -/
theorem solo_erase (w : World β C ε α) (n : ℕ) (σ : Session β C) (p : Program β ε α) :
    (solo w n σ p).running.erase n = ∅ := by
  apply AList.ext
  change List.kerase n (solo w n σ p).running.entries = []
  rw [solo_entries]
  simp [List.kerase]

/-- The only transaction goes on and is still the only one. -/
theorem solo_resume (w : World β C ε α) (n : ℕ) (σ σ' : Session β C) (p p' : Program β ε α) :
    (solo w n σ p).resume n σ' p' = solo w n σ' p' := by
  simp only [solo, resume, AList.insert_insert]

end System

variable [DecidableEq K]

/-- Run a transaction to its end while no other session is open. `none` if it
changes a row that it has not locked. -/
def Program.alone : Program β ε α → Session β C → World β C ε α → Option (World β C ε α)
  | .pure value, σ, w => some (w.commit σ value)
  | .fail error, σ, w => some (w.refuse σ error)
  | .snapshot next, σ, w => (next (σ.view w.store)).alone σ.nextStatement w
  | .lock mode key next, σ, w =>
    (next ((σ.view w.store).lookup key)).alone (σ.lock mode key) w
  | .tryLock key next, σ, w =>
    (next (some ((σ.view w.store).lookup key))).alone (σ.lock .exclusive key) w
  | .insert key row next, σ, w =>
    if ((σ.view w.store).lookup key).isSome then (next false).alone σ w
    else (next true).alone ((σ.lock .exclusive key).write key (some row)) w
  | .sequence next, σ, w => (next w.sequence).alone σ w.draw
  | .write key row next, σ, w =>
    if σ.locks key = some .exclusive then next.alone (σ.write key row) w else none

/-- Serve one call atomically at the clock's time. -/
def World.perform (program : C → ℤ → Program β ε α) (call : C) (w : World β C ε α) :
    Option (World β C ε α) :=
  (program call w.clock).alone (.start call w.clock w.store) w

/-- The worlds that atomic calls and the passage of time lead to from the empty database. -/
inductive Serial (program : C → ℤ → Program β ε α) : World β C ε α → Prop
  | initial (clock : ℤ) : Serial program (World.initial clock)
  | perform {w w' : World β C ε α} (call : C) : Serial program w →
      w.perform program call = some w' → Serial program w'
  | tick {w : World β C ε α} (elapsed : ℕ) : Serial program w → Serial program (w.tick elapsed)

/-- Serve calls one after the other, each followed by a pause. -/
def World.serve (program : C → ℤ → Program β ε α) :
    List (C × ℕ) → World β C ε α → Option (World β C ε α)
  | [], w => some w
  | (call, pause) :: rest, w =>
    (w.perform program call).bind fun w' => (w'.tick pause).serve program rest

/-- Calls that are served one after the other lead from a serial world to a serial world. -/
theorem Serial.serve {program : C → ℤ → Program β ε α} {calls : List (C × ℕ)}
    {w w' : World β C ε α} (hw : Serial program w) (hrun : w.serve program calls = some w') :
    Serial program w' := by
  induction calls generalizing w with
  | nil =>
    obtain rfl : w = w' := Option.some.inj hrun
    exact hw
  | cons entry calls ih =>
    obtain ⟨w₁, hperform, hrest⟩ := Option.bind_eq_some_iff.mp hrun
    exact ih ((hw.perform entry.1 hperform).tick entry.2) hrest

namespace System

variable {program : C → ℤ → Program β ε α} {allowed : System β C ε α → Event C → Prop}

/-- A transaction that runs alone runs in the interleaved system too, if the schedule allows
it to take its steps in the world in which it began. -/
theorem Reachable.alone {n : ℕ} {p : Program β ε α} {σ : Session β C} {w w' : World β C ε α}
    (hallowed : ∀ (w₁ : World β C ε α) (τ : Session β C) (p : Program β ε α),
      w₁.store = w.store → τ.call = σ.call → τ.now = σ.now → allowed (solo w₁ n τ p) (.run n))
    (h : Reachable program allowed (solo w n σ p)) (hrun : p.alone σ w = some w') :
    Reachable program allowed ⟨w', ∅⟩ := by
  have hnext : ∀ {q : Program β ε α} {τ : Session β C} {w₁ : World β C ε α}
      {s : System β C ε α}, w₁.store = w.store → τ.call = σ.call → τ.now = σ.now →
      Reachable program allowed (solo w₁ n τ q) →
      (solo w₁ n τ q).runStep n ⟨τ, q⟩ = some s → Reachable program allowed s := by
    intro q τ w₁ s hstore hcall hnow hs hstep
    refine hs.step (hallowed w₁ τ q hstore hcall hnow) ?_
    simp only [System.step, solo_lookup, Option.bind_some, hstep]
  have hrest : ∀ (τ : Session β C) (w₁ : World β C ε α), w₁.store = w.store → τ.call = σ.call →
      τ.now = σ.now → Reachable program allowed (solo w₁ n τ p) → p.alone τ w₁ = some w' →
      Reachable program allowed ⟨w', ∅⟩ := by
    clear h hrun
    intro τ w₁ hstore hcall hnow h hrun
    induction p generalizing τ w₁ with
    | pure value =>
      obtain rfl := Option.some.inj hrun
      refine hnext hstore hcall hnow h ?_
      simp only [runStep, solo_erase, solo_world]
    | fail error =>
      obtain rfl := Option.some.inj hrun
      refine hnext hstore hcall hnow h ?_
      simp only [runStep, solo_erase, solo_world]
    | snapshot rest ih =>
      refine ih _ _ _ hstore ?_ ?_ (hnext hstore hcall hnow h ?_) hrun
      · exact hcall
      · exact hnow
      · simp only [runStep, solo_resume, solo_world]
    | lock mode key rest ih =>
      refine ih _ _ _ hstore ?_ ?_ (hnext hstore hcall hnow h ?_) hrun
      · exact hcall
      · exact hnow
      · simp [runStep, solo_resume]
    | tryLock key rest ih =>
      refine ih _ _ _ hstore ?_ ?_ (hnext hstore hcall hnow h ?_) hrun
      · exact hcall
      · exact hnow
      · simp [runStep, solo_resume]
    | insert key row rest ih =>
      simp only [Program.alone] at hrun
      split at hrun
      · next htaken =>
        refine ih _ _ _ hstore hcall hnow (hnext hstore hcall hnow h ?_) hrun
        simp only [runStep, solo_blocked, solo_world, htaken, solo_resume]
        simp
      · next hfree =>
        refine ih _ _ _ hstore ?_ ?_ (hnext hstore hcall hnow h ?_) hrun
        · exact hcall
        · exact hnow
        · simp only [runStep, solo_blocked, solo_world, hfree, solo_resume]
          simp
    | sequence rest ih =>
      have hworld : ∀ p', { (solo w₁ n τ p').resume n τ (rest w₁.sequence) with
          world := w₁.draw } = solo w₁.draw n τ (rest w₁.sequence) := by
        intro p'
        rw [solo_resume]
        rfl
      refine ih _ _ _ ?_ hcall hnow (hnext hstore hcall hnow h ?_) hrun
      · exact hstore
      · simp only [runStep, solo_world, hworld]
    | write key row rest ih =>
      simp only [Program.alone] at hrun
      split at hrun
      · next hlocked =>
        refine ih _ _ hstore ?_ ?_ (hnext hstore hcall hnow h ?_) hrun
        · exact hcall
        · exact hnow
        · simp only [runStep, hlocked, if_true, solo_resume]
      · cases hrun
  exact hrest σ w rfl rfl rfl h hrun

/-- A schedule allows a call that is served while no other session is open. -/
structure AllowsAlone (allowed : System β C ε α → Event C → Prop) (call : C) : Prop where
  start : ∀ w, allowed ⟨w, ∅⟩ (.start 0 call)
  run : ∀ (w : World β C ε α) (τ : Session β C) (p : Program β ε α), τ.call = call →
    allowed (solo w 0 τ p) (.run 0)

/-- A call that is served alone is an interleaving, if the schedule allows it to be served
in the world in which it begins. -/
theorem Reachable.performed {call : C} {w w' : World β C ε α}
    (h : Reachable program allowed ⟨w, ∅⟩) (hbegins : allowed ⟨w, ∅⟩ (.start 0 call))
    (hallowed : ∀ (w₁ : World β C ε α) (τ : Session β C) (p : Program β ε α),
      w₁.store = w.store → τ.call = call → τ.now = w.clock → allowed (solo w₁ 0 τ p) (.run 0))
    (hrun : w.perform program call = some w') : Reachable program allowed ⟨w', ∅⟩ := by
  have hstart : Reachable program allowed
      (solo w 0 (.start call w.clock w.store) (program call w.clock)) :=
    h.step hbegins rfl
  exact hstart.alone hallowed hrun

/-- A call that is served alone is an interleaving. -/
theorem Reachable.perform {call : C} {w w' : World β C ε α}
    (h : Reachable program allowed ⟨w, ∅⟩) (hallowed : AllowsAlone allowed call)
    (hrun : w.perform program call = some w') : Reachable program allowed ⟨w', ∅⟩ :=
  h.performed (hallowed.start w) (fun w₁ τ p _ hcall _ => hallowed.run w₁ τ p hcall) hrun

/-- Calls that are served one after the other are an interleaving. -/
theorem Reachable.serve {calls : List (C × ℕ)} {w w' : World β C ε α}
    (h : Reachable program allowed ⟨w, ∅⟩)
    (hcalls : ∀ entry ∈ calls, AllowsAlone allowed entry.1)
    (hticks : ∀ w elapsed, allowed ⟨w, ∅⟩ (.tick elapsed))
    (hrun : w.serve program calls = some w') : Reachable program allowed ⟨w', ∅⟩ := by
  induction calls generalizing w with
  | nil =>
    obtain rfl : w = w' := Option.some.inj hrun
    exact h
  | cons entry calls ih =>
    obtain ⟨w₁, hperform, hrest⟩ := Option.bind_eq_some_iff.mp hrun
    have hentry : AllowsAlone allowed entry.1 := hcalls entry (by simp)
    exact ih ((h.perform hentry hperform).step (hticks w₁ entry.2) rfl)
      (fun other hother => hcalls other (by simp [hother])) hrest

end System

/-- Serial runs are interleavings that every schedule with room for one session allows. -/
theorem Serial.reachable {program : C → ℤ → Program β ε α}
    {allowed : System β C ε α → Event C → Prop}
    (hallowed : ∀ s event, s.running.entries.length ≤ 1 → allowed s event)
    {w : World β C ε α} (h : Serial program w) : System.Reachable program allowed ⟨w, ∅⟩ := by
  have hcalls : ∀ call, System.AllowsAlone allowed call := fun call =>
    ⟨fun w => hallowed _ _ (Nat.zero_le 1), fun w τ p _ => hallowed _ _ (by simp [System.solo_entries])⟩
  induction h with
  | initial clock => exact .initial clock
  | perform call _ hrun ih => exact ih.perform (hcalls call) hrun
  | tick elapsed _ ih => exact ih.step (hallowed _ (.tick elapsed) (Nat.zero_le 1)) rfl

/-- How a transaction ended that ran alone, from a world `w₁` that differs from the one it
began in by draws from the sequence. -/
inductive Contract.Ended (c : Contract β C ε α) (σ : Session β C) (w₁ : World β C ε α) :
    World β C ε α → Prop
  | commit (value : α) : (c.Permits σ w₁ → c.Guar σ value w₁) → Ended c σ w₁ (w₁.commit σ value)
  | refuse (error : ε) : c.Refused σ error w₁ → Ended c σ w₁ (w₁.refuse σ error)

/-- A verified transaction that runs alone gives its guarantee or reports an error that
means what it is declared to mean. -/
theorem Contract.ended_of_alone {c : Contract β C ε α} (hdraw : ∀ w, c.Inv w → c.Inv w.draw)
    {p : Program β ε α} {σ : Session β C} {w w' : World β C ε α} (h : c.wp p c.outcome σ w)
    (hinv : c.Inv w) (hrun : p.alone σ w = some w') :
    ∃ σ' w₁, w₁.store = w.store ∧ w₁.clock = w.clock ∧ w₁.history = w.history ∧ c.Inv w₁ ∧
      σ'.call = σ.call ∧ σ'.now = σ.now ∧ σ'.origin = σ.origin ∧ c.Ended σ' w₁ w' := by
  induction p generalizing σ w with
  | pure value =>
    obtain rfl := Option.some.inj hrun
    refine ⟨σ, w, rfl, rfl, rfl, hinv, rfl, rfl, rfl, .commit value fun hpermits => ?_⟩
    exact (wp_pure_iff.mp h w .refl hinv hpermits).1
  | fail error =>
    obtain rfl := Option.some.inj hrun
    exact ⟨σ, w, rfl, rfl, rfl, hinv, rfl, rfl, rfl, .refuse error (wp_fail_iff.mp h w .refl hinv)⟩
  | snapshot rest ih =>
    have hend := ih _ (wp_snapshot_iff.mp h w .refl hinv) hinv hrun
    exact hend
  | lock mode key rest ih =>
    have hend := ih _ (wp_lock_iff.mp h w .refl hinv) hinv hrun
    exact hend
  | tryLock key rest ih =>
    have hend := ih _ (wp_tryLock_iff.mp h w .refl hinv).2 hinv hrun
    exact hend
  | insert key row rest ih =>
    simp only [Program.alone] at hrun
    split at hrun
    · next htaken => exact ih _ ((wp_insert_iff.mp h w .refl hinv).1 htaken) hinv hrun
    · next hfree =>
      have hend := ih _ ((wp_insert_iff.mp h w .refl hinv).2 (by simpa using hfree)) hinv hrun
      exact hend
  | sequence rest ih =>
    have hdrawn : c.Rely σ w w.draw := Relation.ReflTransGen.single ⟨hinv, .draw, hdraw w hinv⟩
    have hnext := c.wp_stable c.outcome_stable (wp_sequence_iff.mp h w.sequence) hdrawn (hdraw w hinv)
    obtain ⟨σ', w₁, hstore, hclock, hhistory, hrest⟩ := ih _ hnext (hdraw w hinv) hrun
    exact ⟨σ', w₁, hstore, hclock, hhistory, hrest⟩
  | write key row rest ih =>
    simp only [Program.alone] at hrun
    split at hrun
    · have hend := ih (wp_write_iff.mp h).2 hinv hrun
      exact hend
    · cases hrun

end Tracewake.ReadCommitted
