import Tracewake.Recording.Methods
import Tracewake.Recording.Strict

/-!
# Pure replay

A session over a recording that cannot record serves every operation from the recording
or raises. Store, world and calls stay those of the beginning, and the session still cannot
record.
-/

namespace Tracewake.Recording

open JsonText Effects

variable {F D W : Type} [Python F] [Sha256 D] [Pydantic F D] [DecidableEq D]

/-- The machine has a read-only session, and has touched nothing since `base`. -/
structure Replaying (base machine : Machine F D W) : Prop where
  session : machine.session.ReadOnly
  store : machine.store = base.store
  outside : machine.outside = base.outside
  calls : machine.calls = base.calls

omit [DecidableEq D] in
/-- No method of a session that cannot record has any effect. -/
theorem replaying_lasting (base : Machine F D W) :
    Lasting False base.session.redactor base.session.runId (Replaying base) where
  serves _ h := ⟨nofun, nofun, .inr h.session⟩
  session _ _ hsteady h := ⟨hsteady.readOnly h.session, h.store, h.outside, h.calls⟩
  scope _ _ h := ⟨h.session, h.store, h.outside, h.calls⟩
  outside := nofun
  blobs := nofun
  append := nofun

omit [DecidableEq D] in
/-- A session over a recording in a mode that cannot record is read-only. -/
theorem openSession_readOnly {store opened : Store F D} {header fresh : RunHeader F}
    {mode : RecordMode} {redactor : Redactor F D} {matchOn : List Matcher}
    {session : Session F D} (hmode : mode = .none ∨ mode = .once)
    (hopen : openSession store (some header) fresh mode redactor matchOn =
      some (session, opened)) : session.ReadOnly ∧ opened = store := by
  have hall : mode ≠ .all := by
    rcases hmode with rfl | rfl <;> decide
  simp only [openSession, if_neg hall, Option.bind_eq_bind, Option.bind_eq_some_iff] at hopen
  obtain ⟨events, _, hopen⟩ := hopen
  obtain ⟨rfl, rfl⟩ := Prod.mk.inj (Option.some.inj hopen)
  refine ⟨⟨?_, rfl, rfl, rfl, rfl⟩, rfl⟩
  rcases hmode with rfl | rfl <;> rfl

/-- A session that serves a recorded run and cannot record leaves the store as it was and
calls nothing outside, whatever operations are run on it and however it ends. -/
theorem pure_replay_changes_nothing (world : World F D W) {store opened : Store F D}
    {header fresh : RunHeader F} {mode : RecordMode} {redactor : Redactor F D}
    {matchOn : List Matcher} {session : Session F D} (hmode : mode = .none ∨ mode = .once)
    (hopen : openSession store (some header) fresh mode redactor matchOn =
      some (session, opened)) (outside : W) (operations : List (Operation F))
    (exceptional : Bool) :
    let started : Machine F D W := { session, store := opened, outside }
    let ended := closeSession world exceptional (runOperations world operations [] started)
    ended.store = store ∧ ended.outside = outside ∧ ended.calls = [] := by
  intro started ended
  obtain ⟨hsession, rfl⟩ := openSession_readOnly hmode hopen
  have hstarted : Replaying started started := ⟨hsession, rfl, rfl, rfl⟩
  have hrun := (replaying_lasting started).runOperations world operations [] hstarted
  have hended : ended = runOperations world operations [] started := by
    simp only [ended, closeSession, hrun.session.canRecord, Bool.false_eq_true, ↓reduceIte]
  rw [hended]
  exact ⟨hrun.store, hrun.outside, hrun.calls⟩

/-- The spelling of one half. -/
def half : Decimal := ⟨"0.5".toList, by decide, by decide⟩

/-- A world that answers nothing. -/
def silentWorld : World Decimal HexDigest Unit where
  answer _ outside := (.error (.backend []), outside)
  eventMeta _ := ⟨half, none, none⟩
  uuid4 outside := ("00".toList, outside)
  resolve _ _ := none

/-- A finished run. -/
def finishedRun : RunHeader Decimal where
  runId := "run".toList
  name := "greet".toList
  startedAt := half
  status := .ok

/-- A variable that the run read. -/
def readHome : Event Decimal HexDigest :=
  .environment {
    source := .env, key := some "LANG".toList, value := sortKeys (.str "C".toList)
    eventMeta := ⟨half, none, none⟩ }

def finishedStore : Store Decimal HexDigest where
  runs := [finishedRun]
  rows := [Store.row HexDigest finishedRun.runId 0 readHome]

/-- The store of the example has one event. -/
theorem finishedStore_events :
    finishedStore.events finishedRun.runId = some [⟨finishedRun.runId, 0, readHome⟩] := by
  have hrows : finishedStore.rowsOf finishedRun.runId =
      [Store.row HexDigest finishedRun.runId 0 readHome] := by
    simp [finishedStore, Store.rowsOf, Store.row]
  simp [Store.events, Store.inOrder, hrows, Store.readRow_row]

/-- The variable is served twice, and a second run, a file and a tool are missed. -/
theorem pure_replay_changes_nothing_demo :
    ∃ session opened, openSession finishedStore (some finishedRun) finishedRun .none .disabled
        [.model] = some (session, opened) ∧
      let operations : List (Operation Decimal) :=
        [.env .env (some "LANG".toList), .env .env (some "LANG".toList), .env .clock none,
          .content none "a".toList, .write none "a".toList [], .outcome { status := .ok }]
      let started : Machine Decimal HexDigest Unit := { session, store := opened, outside := () }
      let ended := closeSession silentWorld true (runOperations silentWorld operations [] started)
      ended.store = finishedStore ∧ ended.outside = () ∧ ended.calls = [] := by
  have hopen : ∃ session, openSession finishedStore (some finishedRun) finishedRun .none
      .disabled [.model] = some (session, finishedStore) := by
    simp [openSession, finishedStore_events]
  obtain ⟨session, hopen⟩ := hopen
  exact ⟨session, finishedStore, hopen,
    pure_replay_changes_nothing silentWorld (.inl rfl) hopen () _ true⟩

end Tracewake.Recording
