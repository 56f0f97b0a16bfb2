import Tracewake.Effects.Simulation
import Tracewake.Recording.FaithfulReplay

/-!
# Extended runs

What a replay of a run finds when events were appended to the run behind it: the queues
are longer, and the calls that were recorded first are still met first. A replay that
returned before returns the same, unless a tool call or a variable was recorded once more
or an outcome of another status came in.
-/

namespace Tracewake.Recording

open JsonText Effects

variable {F D W : Type} [Python F] [Sha256 D] [Pydantic F D] [DecidableEq D]

/-- What may be appended to a log without taking an answer away. -/
structure Harmless (old more : List (Event F D)) : Prop where
  tools : ∀ key ∈ more.filterMap Event.toolKey?, key ∉ old.filterMap Event.toolKey?
  names : ∀ event ∈ more, ∀ key, event.slot = some (.env .env key) →
    ∀ other ∈ old, other.slot ≠ some (.env .env key)
  outcomes : ∀ last ∈ lastOutcome old, ∀ event, .outcome event ∈ more → event.status = last.status

/-- The second session has the index of the first one with more behind it. -/
structure Session.Extends (short long : Session F D) : Prop where
  readOnly : short.ReadOnly
  readOnly' : long.ReadOnly
  redactor : long.redactor = short.redactor
  matcher : ∃ calls more matchOn, short.matcher = some ⟨calls, matchOn⟩ ∧
    long.matcher = some ⟨calls ++ more, matchOn⟩
  tools : ∀ key call, short.index.toolCalls key = some call → long.index.toolCalls key = some call
  env : ∀ slot, short.index.env slot <+: long.index.env slot
  names : ∀ key, short.index.env (.env, key) ≠ [] →
    long.index.env (.env, key) = short.index.env (.env, key)
  reads : ∀ slot, short.index.reads slot <+: long.index.reads slot
  writes : ∀ path, short.index.writes path <+: long.index.writes path
  outcome : ∀ recorded, short.index.outcome = some recorded →
    ∃ last, long.index.outcome = some last ∧ last.status = recorded.status
  envCursor : long.envCursor = short.envCursor
  readCursor : long.readCursor = short.readCursor
  writeCursor : long.writeCursor = short.writeCursor

/-- The same for two machines, whose stores have the same blobs or more. -/
structure Extending (short long : Machine F D W) : Prop where
  session : short.session.Extends long.session
  below : short.store.Below long.store
  scope : long.scope = short.scope

/-- A missing file. -/
def Missing (raised : Raised D) : Prop := ∃ path, raised = .fileNotFound path

/-- A computation that returns over the shorter log returns the same over the longer one. -/
abbrev Follows {α : Type} (body : Py F D W α) (Q : α → α → Prop) : Prop :=
  Simulates Extending Missing body Q body

section Methods

variable {α : Type} {Q : α → α → Prop} {body : Py F D W α} (world : World F D W)

omit [Sha256 D] [DecidableEq D] in
/-- A replay miss does not say that a file is missing. -/
theorem not_missing_miss (reason : Miss) : ¬ Missing (.replayMiss reason : Raised D) := by
  rintro ⟨path, h⟩
  cases h

omit [Sha256 D] [Pydantic F D] [DecidableEq D] in
/-- Reading the session yields a session that the longer one extends. -/
theorem follows_getSession :
    Follows (getSession : Py F D W (Session F D)) Session.Extends :=
  Simulates.read.bind fun _ _ h => .ret h.session

omit [Sha256 D] [Pydantic F D] [DecidableEq D] in
/-- A change that respects extension is made in both runs. -/
theorem follows_modifySession {change : Session F D → Session F D}
    (h : ∀ short long : Session F D, short.Extends long → (change short).Extends (change long)) :
    Follows (modifySession change : Py F D W Unit) fun _ _ => True :=
  Simulates.change fun _ _ hst => ⟨h _ _ hst.session, hst.below, hst.scope⟩

omit [Pydantic F D] in
/-- A blob is the same in both stores. -/
theorem follows_getBlob (digest : D) :
    Follows (getBlob digest : Py F D W (List UInt8)) Eq := by
  refine Simulates.read.bind fun short long h => ?_
  cases hget : short.store.get digest with
  | error error =>
    refine Simulates.raise ?_
    rintro ⟨path, hpath⟩
    cases hpath
  | ok data =>
    have hlong : long.store.get digest = .ok data := by
      rw [Store.get] at hget ⊢
      cases hblob : short.store.blobs digest with
      | none =>
        rw [hblob] at hget
        cases hget
      | some stored =>
        rw [hblob] at hget
        rw [h.below digest stored hblob]
        exact hget
    rw [hlong]
    exact .ret rfl

/-- What is at a place of a list is there in every longer list. -/
theorem getElem?_of_extended {β : Type} {short long : List β} (h : short <+: long) {index : ℕ}
    {b : β} (hb : short[index]? = some b) : long[index]? = some b := by
  obtain ⟨more, rfl⟩ := h
  rw [List.getElem?_append_left (List.getElem?_eq_some_iff.mp hb).1]
  exact hb

omit [Sha256 D] [Pydantic F D] [DecidableEq D] in
/-- A run that raises something else than a missing file is nothing to follow. -/
theorem follows_raised {short : Machine F D W} {raised : Raised D} {after : Machine F D W}
    (hrun : body short = (.error raised, after)) (hmissing : ¬ Missing raised)
    (long : Machine F D W) :
    (∀ a s', body short = (.ok a, s') →
      ∃ b t', body long = (.ok b, t') ∧ Extending s' t' ∧ Q a b) ∧
    ∀ e s', body short = (.error e, s') → Missing e →
      ∃ t', body long = (.error e, t') ∧ Extending s' t' := by
  rw [hrun]
  constructor
  · intro a s' hcase
    cases hcase
  · intro e s' hcase hkept
    cases hcase
    exact absurd hkept hmissing

omit [Sha256 D] [Pydantic F D] [DecidableEq D] in
/-- A run that returns is followed by a run that returns the same. -/
theorem follows_returned {short long : Machine F D W} {a b : α} {after after' : Machine F D W}
    (hrun : body short = (.ok a, after)) (hrun' : body long = (.ok b, after'))
    (hrelated : Extending after after') (hab : Q a b) :
    (∀ a s', body short = (.ok a, s') →
      ∃ b t', body long = (.ok b, t') ∧ Extending s' t' ∧ Q a b) ∧
    ∀ e s', body short = (.error e, s') → Missing e →
      ∃ t', body long = (.error e, t') ∧ Extending s' t' := by
  rw [hrun]
  constructor
  · intro c s' hcase
    cases hcase
    exact ⟨b, after', hrun', hrelated, hab⟩
  · intro e s' hcase
    cases hcase

/-! ## The environment and the file system -/

omit [Sha256 D] [Pydantic F D] [DecidableEq D] in
/-- The cursors of two sessions move together. -/
theorem Session.Extends.tookEnv {short long : Session F D} (h : short.Extends long)
    (slot : EnvironmentSource × Option Text) :
    (short.tookEnv slot).Extends (long.tookEnv slot) where
  __ := h
  readOnly := { h.readOnly with }
  readOnly' := { h.readOnly' with }
  envCursor := by simp only [Session.tookEnv, h.envCursor]

omit [Sha256 D] [Pydantic F D] [DecidableEq D] in
/-- Taking a read keeps the one session an extension of the other. -/
theorem Session.Extends.tookRead {short long : Session F D} (h : short.Extends long)
    (slot : ReadKind × Text) : (short.tookRead slot).Extends (long.tookRead slot) where
  __ := h
  readOnly := { h.readOnly with }
  readOnly' := { h.readOnly' with }
  readCursor := by simp only [Session.tookRead, h.readCursor]

omit [Sha256 D] [Pydantic F D] [DecidableEq D] in
/-- Taking a write keeps the one session an extension of the other. -/
theorem Session.Extends.tookWrite {short long : Session F D} (h : short.Extends long)
    (path : Text) : (short.tookWrite path).Extends (long.tookWrite path) where
  __ := h
  readOnly := { h.readOnly with }
  readOnly' := { h.readOnly' with }
  writeCursor := by simp only [Session.tookWrite, h.writeCursor]

omit [DecidableEq D] in
/-- Outside the queues a variable is served with its last value. -/
theorem envValue_last {machine : Machine F D W} (h : machine.session.ReadOnly)
    {source : EnvironmentSource} {key : Option Text}
    (hnext : (machine.session.index.env (source, key))[
      machine.session.envCursor (source, key)]? = none) :
    envValue world source key machine =
      if source = .env then
        match (machine.session.index.env (source, key)).getLast? with
        | some value => (.ok (machine.session.redactor.restorePath value), machine)
        | none => (.error (.replayMiss (.envLeft machine.session.runId source key)), machine)
      else (.error (.replayMiss (.envLeft machine.session.runId source key)), machine) := by
  have hsession : getSession machine = (.ok machine.session, machine) := rfl
  have hrecorded : recordedEnv source key machine = (.ok (if source = .env then
      (machine.session.index.env (source, key)).getLast? else none), machine) := by
    rw [recordedEnv, run_bind_ok hsession]
    simp only [h.canReplay, h.forked, Bool.not_false, Bool.and_self, if_true]
    rw [popEnv, run_bind_ok hsession]
    simp only [hnext, run_pure]
  rw [envValue, run_bind_ok hrecorded]
  by_cases hsource : source = .env
  · rw [if_pos hsource, if_pos hsource]
    cases (machine.session.index.env (source, key)).getLast? with
    | some value =>
      dsimp only
      rw [run_bind_ok hsession, if_pos hsource, run_pure]
    | none =>
      dsimp only
      rw [run_bind_ok hsession]
      simp only [h.canRecord, Bool.not_false, if_true]
      rfl
  · rw [if_neg hsource, if_neg hsource]
    dsimp only
    rw [run_bind_ok hsession]
    simp only [h.canRecord, Bool.not_false, if_true]
    rfl

omit [DecidableEq D] in
/-- An environment value is answered from the shorter log, or both runs miss. -/
theorem follows_envValue (source : EnvironmentSource) (key : Option Text) :
    Follows (envValue world source key) Eq := by
  intro short long h
  have hsession := h.session
  cases hnext : (short.session.index.env (source, key))[short.session.envCursor (source, key)]? with
  | some value =>
    have hlong : (long.session.index.env (source, key))[
        long.session.envCursor (source, key)]? = some value := by
      rw [hsession.envCursor]
      exact getElem?_of_extended (hsession.env (source, key)) hnext
    have hafter := hsession.tookEnv (source, key)
    refine follows_returned (envValue_at world hsession.readOnly hnext)
      (envValue_at world hsession.readOnly' hlong) ⟨hafter, h.below, h.scope⟩ ?_
    rw [hsession.redactor]
  | none =>
    have hshort := envValue_last world hsession.readOnly hnext
    by_cases hsource : source = .env
    · rw [if_pos hsource] at hshort
      subst hsource
      cases hlast : (short.session.index.env (.env, key)).getLast? with
      | none =>
        rw [hlast] at hshort
        exact follows_raised hshort (not_missing_miss _) long
      | some value =>
        rw [hlast] at hshort
        have hvalues := hsession.names key fun hempty => by
          rw [hempty] at hlast
          cases hlast
        have hnext' : (long.session.index.env (.env, key))[
            long.session.envCursor (.env, key)]? = none := by
          rw [hvalues, hsession.envCursor, hnext]
        have hlong := envValue_last world hsession.readOnly' hnext'
        rw [if_pos rfl, hvalues, hlast, hsession.redactor] at hlong
        exact follows_returned hshort hlong h rfl
    · rw [if_neg hsource] at hshort
      exact follows_raised hshort (not_missing_miss _) long

omit [Sha256 D] [Pydantic F D] [DecidableEq D] in
/-- A session that does not record raises a miss where an operation has no answer. -/
theorem missFs_raises {machine : Machine F D W} (h : machine.session.ReadOnly) (path kind : Text)
    (recorded : ℕ) : ∃ reason, missFs path kind recorded machine =
      (.error (.replayMiss reason), machine) := by
  have hsession : getSession machine = (.ok machine.session, machine) := rfl
  rw [missFs, run_bind_ok hsession]
  simp only [h.canRecord, Bool.not_false, if_true]
  split
  · exact ⟨_, rfl⟩
  · exact ⟨_, rfl⟩

omit [Sha256 D] [Pydantic F D] [DecidableEq D] in
/-- The same read is served. -/
theorem follows_replayRead (kind : ReadKind) (path : Text) :
    Follows (replayRead kind path : Py F D W (Option (FsReadEvent F D)))
      fun short long => ∃ event, short = some event ∧ long = some event := by
  intro short long h
  have hsession := h.session
  cases hnext : (short.session.index.reads (kind, path))[
      short.session.readCursor (kind, path)]? with
  | some event =>
    have hlong : (long.session.index.reads (kind, path))[
        long.session.readCursor (kind, path)]? = some event := by
      rw [hsession.readCursor]
      exact getElem?_of_extended (hsession.reads (kind, path)) hnext
    exact follows_returned (replayRead_at hsession.readOnly hnext)
      (replayRead_at hsession.readOnly' hlong) ⟨hsession.tookRead (kind, path), h.below, h.scope⟩
      ⟨event, rfl, rfl⟩
  | none =>
    obtain ⟨reason, hmiss⟩ := missFs_raises hsession.readOnly path kind.text
      (short.session.index.reads (kind, path)).length
    have hshort : replayRead kind path short = (.error (.replayMiss reason), short) := by
      have hget : getSession short = (.ok short.session, short) := rfl
      rw [replayRead, run_bind_ok hget]
      simp only [hsession.readOnly.canReplay, hsession.readOnly.forked, Bool.not_true, Bool.or_self,
        Bool.false_eq_true, if_false, hnext]
      rw [run_bind_error hmiss]
    exact follows_raised hshort (not_missing_miss _) long

omit [Sha256 D] [Pydantic F D] [DecidableEq D] in
/-- The same write is checked. -/
theorem follows_replayWrite (path : Text) :
    Follows (replayWrite path : Py F D W (Option (FsWriteEvent F D)))
      fun short long => ∃ event, short = some event ∧ long = some event := by
  intro short long h
  have hsession := h.session
  cases hnext : (short.session.index.writes path)[short.session.writeCursor path]? with
  | some event =>
    have hlong : (long.session.index.writes path)[long.session.writeCursor path]? = some event := by
      rw [hsession.writeCursor]
      exact getElem?_of_extended (hsession.writes path) hnext
    exact follows_returned (replayWrite_at hsession.readOnly hnext)
      (replayWrite_at hsession.readOnly' hlong) ⟨hsession.tookWrite path, h.below, h.scope⟩
      ⟨event, rfl, rfl⟩
  | none =>
    obtain ⟨reason, hmiss⟩ := missFs_raises hsession.readOnly path "write".toList
      (short.session.index.writes path).length
    have hshort : replayWrite path short = (.error (.replayMiss reason), short) := by
      have hget : getSession short = (.ok short.session, short) := rfl
      rw [replayWrite, run_bind_ok hget]
      simp only [hsession.readOnly.canReplay, hsession.readOnly.forked, Bool.not_true, Bool.or_self,
        Bool.false_eq_true, if_false, hnext]
      rw [run_bind_error hmiss]
    exact follows_raised hshort (not_missing_miss _) long

omit [Sha256 D] [Pydantic F D] [DecidableEq D] in
/-- A path is located in the same place in both runs. -/
theorem follows_locate (root : Option Text) (path : Text) :
    Follows (locate world root path : Py F D W (Text × Text)) Eq := by
  refine follows_getSession.bind fun short long h => ?_
  rw [h.redactor]
  cases root with
  | none => exact .ret rfl
  | some root =>
    dsimp only
    cases world.resolve root path with
    | none => exact .raise_same
    | some located => exact .ret rfl

/-- A read is answered from the shorter log, or both runs miss. -/
theorem follows_readBytes (root : Option Text) (path : Text) :
    Follows (readBytes world root path) Eq := by
  refine (follows_locate world root path).bind ?_
  rintro ⟨key, target⟩ _ rfl
  refine (follows_replayRead .content key).bind ?_
  rintro _ _ ⟨event, rfl, rfl⟩
  dsimp only
  split
  · exact follows_getBlob _
  · exact .raise_same

omit [DecidableEq D] in
/-- A question for a file is answered from the shorter log, or both runs miss. -/
theorem follows_fileExists (root : Option Text) (path : Text) :
    Follows (fileExists world root path) Eq := by
  refine (follows_locate world root path).bind ?_
  rintro ⟨key, target⟩ _ rfl
  refine (follows_replayRead .exists key).bind ?_
  rintro _ _ ⟨event, rfl, rfl⟩
  exact .ret rfl

/-- A listing is answered from the shorter log, or both runs miss. -/
theorem follows_listDir (root : Option Text) (path : Text) :
    Follows (listDir world root path) Eq := by
  refine (follows_locate world root path).bind ?_
  rintro ⟨key, target⟩ _ rfl
  refine (follows_replayRead .listing key).bind ?_
  rintro _ _ ⟨event, rfl, rfl⟩
  dsimp only
  split
  · refine (follows_getBlob _).bind ?_
    rintro data _ rfl
    split
    · exact .ret rfl
    · exact .raise_same
  · exact .raise_same

/-- A write is answered from the shorter log, or both runs miss. -/
theorem follows_writeBytes (root : Option Text) (path : Text) (data : List UInt8) :
    Follows (writeBytes world root path data) Eq := by
  refine (follows_locate world root path).bind ?_
  rintro ⟨key, target⟩ _ rfl
  refine (follows_replayWrite key).bind ?_
  rintro _ _ ⟨event, rfl, rfl⟩
  dsimp only
  refine follows_getSession.bind fun short long h => ?_
  rw [h.redactor]
  by_cases hdigest : Sha256.hash (short.redactor.blob data) = event.content.digest
  · simp only [hdigest, ne_eq, not_true_eq_false, if_false]
    exact .ret rfl
  · simp only [ne_eq, hdigest, not_false_eq_true, if_true]
    exact .raise (not_missing_miss _)

omit [Sha256 D] [Pydantic F D] [DecidableEq D] in
/-- A read that may miss its file follows if the read does. -/
theorem follows_orMissing {β : Type} {read : Py F D W β} (h : Follows read Eq) :
    Follows (orMissing read) Eq := by
  refine Simulates.handle (K := Missing) ?_ ?_ ?_
  · rw [map_eq_pure_bind]
    refine h.bind ?_
    rintro value _ rfl
    exact .ret rfl
  · rintro _ ⟨path, rfl⟩
    exact .ret rfl
  · intro raised hraised
    refine ⟨hraised, ?_⟩
    cases raised with
    | fileNotFound path => exact absurd ⟨path, rfl⟩ hraised
    | _ => rfl

/-! ## Tools, models and the outcome -/

omit [Sha256 D] [Pydantic F D] [DecidableEq D] in
/-- Where reports, turns and the last call do not matter. -/
theorem follows_note {change : Session F D → Session F D}
    (h : ∀ session, ∃ report turn currentCallId, change session = { session with
      report := report, turn := turn, currentCallId := currentCallId }) :
    Follows (modifySession change : Py F D W Unit) fun _ _ => True := by
  refine follows_modifySession fun short long hextends => ?_
  obtain ⟨report, turn, currentCallId, hshort⟩ := h short
  obtain ⟨report', turn', currentCallId', hlong⟩ := h long
  rw [hshort, hlong]
  obtain ⟨⟨a1, a2, a3, a4, a5⟩, ⟨b1, b2, b3, b4, b5⟩, h3, h4, h5, h6, h7, h8, h9, h10, h11, h12,
    h13⟩ := hextends
  exact ⟨⟨a1, a2, a3, a4, a5⟩, ⟨b1, b2, b3, b4, b5⟩, h3, h4, h5, h6, h7, h8, h9, h10, h11, h12, h13⟩

omit [Sha256 D] [Pydantic F D] [DecidableEq D] in
/-- A tool call that the shorter log has recorded is recorded in the longer one too. -/
theorem follows_recordedTool (parentCallId : Text) (request : ToolCallRequest F) :
    Follows (recordedTool parentCallId request : Py F D W (Option (ToolCallEvent F D)))
      fun short long => ∀ call, short = some call → long = some call := by
  refine follows_getSession.bind fun short long h => ?_
  simp only [h.readOnly.forked, h.readOnly'.forked, Bool.false_eq_true, if_false]
  exact .ret (h.tools _)

/-- A tool call is answered alike in both runs. -/
theorem follows_callTool (live : Bool) (parentCallId : Text) (request : ToolCallRequest F) :
    Follows (callTool world live parentCallId request) Eq := by
  refine follows_getSession.bind fun short long h => ?_
  rw [h.redactor]
  refine (follows_recordedTool parentCallId request).bind fun recorded recorded' hrecorded => ?_
  cases hkept : recorded.filter fun (recorded : ToolCallEvent F D) =>
      hashArgs D (short.redactor.args request.args) = recorded.argsHash with
  | some call =>
    obtain rfl : recorded = some call := (Option.filter_eq_some_iff.mp hkept).1
    rw [hrecorded call rfl, hkept]
    dsimp only
    refine Simulates.bind (follows_note fun session => ⟨_, _, _, rfl⟩) fun _ _ _ => ?_
    refine (follows_getBlob _).bind ?_
    rintro data _ rfl
    split
    · exact .ret rfl
    · exact .raise_same
  | none =>
    simp only [h.readOnly.canRecord, Bool.not_false, if_true]
    cases recorded with
    | none => exact .raise_bind (not_missing_miss _)
    | some call => exact .raise_bind (not_missing_miss _)

/-- A tool call with the recording of its result is answered alike in both runs. -/
theorem follows_toolsCall (live : Bool) (parentCallId : Text) (request : ToolCallRequest F) :
    Follows (toolsCall world live parentCallId request) Eq := by
  intro short long h
  have hin : Extending (short.inTool parentCallId request.id)
      (long.inTool parentCallId request.id) := ⟨h.session, h.below, rfl⟩
  obtain ⟨hreturns, hraises⟩ := follows_callTool world live parentCallId request _ _ hin
  rw [toolsCall_eq, toolsCall_eq]
  dsimp only
  constructor
  · intro outcome after hrun
    obtain ⟨hresult, rfl⟩ := Prod.mk.inj hrun
    obtain ⟨_, after', hlong, hrelated, rfl⟩ := hreturns outcome _ (Prod.ext hresult rfl)
    rw [hlong]
    exact ⟨outcome, _, rfl, ⟨hrelated.session, hrelated.below, h.scope⟩, rfl⟩
  · intro raised after hrun hkept
    obtain ⟨hresult, rfl⟩ := Prod.mk.inj hrun
    obtain ⟨after', hlong, hrelated⟩ := hraises raised _ (Prod.ext hresult rfl) hkept
    rw [hlong]
    exact ⟨_, rfl, ⟨hrelated.session, hrelated.below, h.scope⟩⟩

omit [Sha256 D] [Pydantic F D] [DecidableEq D] in
/-- The messages of a turn are the same in both runs. -/
theorem follows_turnMessages (messages : List Message) :
    Follows (turnMessages messages : Py F D W (List Message)) Eq := by
  refine follows_getSession.bind fun short long h => ?_
  refine Simulates.bind (follows_note fun session => ⟨_, _, _, rfl⟩) fun _ _ _ => ?_
  rw [h.readOnly.intervention, h.readOnly'.intervention]
  exact .ret rfl

/-- The call that is met first is met first in a longer log. -/
theorem serve_append {accepts : ModelCallEvent F → Bool} {calls : List (ModelCallEvent F × Bool)}
    {call : ModelCallEvent F} {calls' : List (ModelCallEvent F × Bool)}
    (h : serve accepts calls = some (call, calls')) (more : List (ModelCallEvent F × Bool)) :
    serve accepts (calls ++ more) = some (call, calls' ++ more) := by
  induction calls generalizing calls' with
  | nil => cases h
  | cons first calls ih =>
    obtain ⟨recorded, consumed⟩ := first
    rw [List.cons_append, serve]
    rw [serve] at h
    split at h
    · next hserved =>
      rw [if_pos hserved]
      cases h
      rfl
    · next hpassed =>
      rw [if_neg hpassed]
      obtain ⟨⟨found, rest⟩, hfound, heq⟩ := Option.map_eq_some_iff.mp h
      cases heq
      rw [ih hfound]
      rfl

omit [Sha256 D] [Pydantic F D] [DecidableEq D] in
/-- Two matchers stay one longer than the other. -/
theorem follows_rematch (calls more : List (ModelCallEvent F × Bool)) (matchOn : List Matcher)
    (report report' : ReplayReport) :
    Simulates Extending Missing
      (modifySession fun session : Session F D =>
        { session with matcher := some ⟨calls, matchOn⟩, report := report } : Py F D W Unit)
      (fun _ _ => True)
      (modifySession fun session : Session F D =>
        { session with matcher := some ⟨calls ++ more, matchOn⟩, report := report' } :
          Py F D W Unit) := by
  refine Simulates.change fun short long h => ⟨?_, h.below, h.scope⟩
  obtain ⟨⟨a1, a2, a3, a4, a5⟩, ⟨b1, b2, b3, b4, b5⟩, h3, -, h5, h6, h7, h8, h9, h10, h11, h12,
    h13⟩ := h.session
  exact ⟨⟨a1, a2, a3, a4, rfl⟩, ⟨b1, b2, b3, b4, rfl⟩, h3, ⟨calls, more, matchOn, rfl, rfl⟩, h5, h6,
    h7, h8, h9, h10, h11, h12, h13⟩

omit [DecidableEq D] in
/-- A request that is not met raises. -/
theorem matched_raises {machine : Machine F D W} (h : machine.session.ReadOnly)
    {matcher : CallMatcher F} (hmatcher : machine.session.matcher = some matcher)
    {request : ModelRequest F} {messages redacted : List Message}
    (hmessages : machine.session.redactor.messages messages = some redacted)
    (hserve : Recording.serve (matcher.accepts D
      (buildRequest F D request.identity.modelId redacted request.tools)) matcher.calls = none) :
    ∃ reason after, matched request messages machine = (.error (.replayMiss reason), after) := by
  have hsession : getSession machine = (.ok machine.session, machine) := rfl
  rw [matched, run_bind_ok hsession, hmatcher]
  dsimp only
  rw [hmessages]
  simp only [CallMatcher.serve, hserve, h.canRecord, Option.isNone_none, Bool.not_false,
    Bool.and_self, if_true]
  exact ⟨_, _, rfl⟩

omit [DecidableEq D] in
/-- The same call is served. -/
theorem follows_matched (request : ModelRequest F) (messages : List Message) :
    Follows (matched request messages : Py F D W (Option (ModelCallEvent F)))
      fun short long => ∃ call, short = some call ∧ long = some call := by
  intro short long h
  obtain ⟨calls, more, matchOn, hshort, hlong⟩ := h.session.matcher
  have hget : getSession short = (.ok short.session, short) := rfl
  have hget' : getSession long = (.ok long.session, long) := rfl
  cases hmessages : short.session.redactor.messages messages with
  | none =>
    have hmissing : ¬ Missing (.invalid : Raised D) := by
      rintro ⟨_, h⟩
      cases h
    have hrun : matched request messages short = (.error .invalid, short) := by
      rw [matched, run_bind_ok hget, hshort]
      dsimp only
      rw [hmessages]
      rfl
    exact follows_raised hrun hmissing long
  | some redacted =>
    cases hserve : Recording.serve ((⟨calls, matchOn⟩ : CallMatcher F).accepts D
        (buildRequest F D request.identity.modelId redacted request.tools)) calls with
    | none =>
      obtain ⟨reason, after, hmiss⟩ := matched_raises h.session.readOnly hshort hmessages hserve
      exact follows_raised hmiss (not_missing_miss reason) long
    | some found =>
      obtain ⟨call, calls'⟩ := found
      have hserve' : Recording.serve ((⟨calls ++ more, matchOn⟩ : CallMatcher F).accepts D
          (buildRequest F D request.identity.modelId redacted request.tools)) (calls ++ more) =
          some (call, calls' ++ more) := serve_append hserve more
      have hmessages' : long.session.redactor.messages messages = some redacted := by
        rw [h.session.redactor, hmessages]
      rw [matched, run_bind_ok hget, run_bind_ok hget', hshort, hlong]
      dsimp only
      rw [hmessages, hmessages']
      simp only [CallMatcher.serve, hserve, hserve']
      refine (follows_rematch calls' more matchOn _ _).bind (fun _ _ _ => ?_) short long h
      exact .ret ⟨call, rfl, rfl⟩

omit [DecidableEq D] in
/-- A model call is answered alike in both runs. -/
theorem follows_create (request : ModelRequest F) : Follows (Model.create world request) Eq := by
  refine (follows_turnMessages _).bind ?_
  rintro messages _ rfl
  refine (follows_matched request messages).bind ?_
  rintro _ _ ⟨call, rfl, rfl⟩
  dsimp only
  refine Simulates.bind (follows_note fun session => ⟨_, _, _, rfl⟩) fun _ _ _ => ?_
  by_cases hstream : call.stream.isSome = true
  · rw [if_pos hstream]
    exact .raise_bind (not_missing_miss _)
  · rw [if_neg hstream]
    exact .ret rfl

/-- The handle of a recorded stream. -/
def StreamHandle.ofRecorded (callId : Text) (chunks : List (StreamChunk F))
    (response : ModelResponse F) : StreamHandle F D :=
  { callId, source := ⟨chunks, .ok none⟩, onFinish := .recorded response }

omit [DecidableEq D] in
/-- Draining a recorded stream touches nothing. -/
theorem drain_ofRecorded (callId : Text) (chunks : List (StreamChunk F))
    (response : ModelResponse F) (machine : Machine F D W) :
    (StreamHandle.ofRecorded callId chunks response : StreamHandle F D).drain world machine =
      (.ok (.stop, { (StreamHandle.ofRecorded callId chunks response).drained with
        response := some response }), machine) := by
  rw [drain_eq world _ rfl, next_end world _ rfl rfl]
  rfl

omit [DecidableEq D] in
/-- A streamed call opens the same stream in both runs. -/
theorem follows_stream (request : ModelRequest F) :
    Follows (Model.stream world request) fun short long => ∃ callId chunks response,
      short = StreamHandle.ofRecorded callId chunks response ∧ long = short := by
  refine (follows_turnMessages _).bind ?_
  rintro messages _ rfl
  refine (follows_matched request messages).bind ?_
  rintro _ _ ⟨call, rfl, rfl⟩
  dsimp only
  refine Simulates.bind (follows_note fun session => ⟨_, _, _, rfl⟩) fun _ _ _ => ?_
  cases call.stream with
  | none => exact .raise (not_missing_miss _)
  | some recorded => exact .ret ⟨call.callId, recorded.chunks, call.response, rfl, rfl⟩

omit [DecidableEq D] in
/-- A streamed call that is consumed at once has the same chunks and the same response. -/
theorem follows_consume (request : ModelRequest F) : Follows (consume world request) Eq := by
  refine (follows_stream world request).bind ?_
  rintro _ _ ⟨callId, chunks, response, rfl, rfl⟩
  intro short long h
  rw [run_bind_ok (drain_ofRecorded world callId chunks response short),
    run_bind_ok (drain_ofRecorded world callId chunks response long)]
  exact Simulates.ret rfl short long h

/-- An outcome is answered alike in both runs. -/
theorem follows_outcome (args : OutcomeArgs) : Follows (Session.outcome world args) Eq := by
  refine follows_getSession.bind fun short long h => ?_
  cases hshort : short.index.outcome with
  | none =>
    simp only [h.readOnly.canRecord, Bool.not_false, if_true]
    exact .raise_bind (not_missing_miss _)
  | some recorded =>
    obtain ⟨last, hlong, hstatus⟩ := h.outcome recorded hshort
    rw [hlong]
    dsimp only
    rw [hstatus]
    by_cases hsame : args.status = recorded.status
    · simp only [hsame, ne_eq, not_true_eq_false, if_false, h.readOnly.canRecord,
        h.readOnly'.canRecord, Bool.false_eq_true]
      exact .ret rfl
    · simp only [ne_eq, hsame, not_false_eq_true, if_true]
      exact .raise_bind (not_missing_miss _)

/-- An agent whose replay over the shorter log returns is answered the same over the longer
one. -/
theorem follows_agent (live : Bool) (agent : Agent F) :
    Follows (agent.run world live : Py F D W (List (Answer F))) Eq := by
  induction agent with
  | done => exact .ret rfl
  | create request next ih =>
    refine (follows_create world _).bind ?_
    rintro completion _ rfl
    refine (ih completion).bind ?_
    rintro answers _ rfl
    exact .ret rfl
  | stream request next ih =>
    refine (follows_consume world _).bind ?_
    rintro ⟨callId, chunks, response⟩ _ rfl
    refine (ih callId chunks response).bind ?_
    rintro answers _ rfl
    exact .ret rfl
  | tool parentCallId request next ih =>
    refine (follows_toolsCall world live parentCallId request).bind ?_
    rintro outcome _ rfl
    refine (ih outcome).bind ?_
    rintro answers _ rfl
    exact .ret rfl
  | env source key next ih =>
    refine (follows_envValue world source key).bind ?_
    rintro value _ rfl
    refine (ih value).bind ?_
    rintro answers _ rfl
    exact .ret rfl
  | content root path next ih =>
    refine (follows_orMissing (follows_readBytes world root path)).bind ?_
    rintro data _ rfl
    refine (ih data).bind ?_
    rintro answers _ rfl
    exact .ret rfl
  | pathExists root path next ih =>
    refine (follows_fileExists world root path).bind ?_
    rintro found _ rfl
    refine (ih found).bind ?_
    rintro answers _ rfl
    exact .ret rfl
  | listing root path next ih =>
    refine (follows_orMissing (follows_listDir world root path)).bind ?_
    rintro names _ rfl
    refine (ih names).bind ?_
    rintro answers _ rfl
    exact .ret rfl
  | write root path data next ih =>
    refine (follows_writeBytes world root path data).bind ?_
    rintro _ _ -
    refine ih.bind ?_
    rintro answers _ rfl
    exact .ret rfl
  | outcome args next ih =>
    refine (follows_outcome world args).bind ?_
    rintro _ _ -
    refine ih.bind ?_
    rintro answers _ rfl
    exact .ret rfl

end Methods

/-! ## The log behind the log -/

section Logs

variable {old more : List (Event F D)}

omit [Sha256 D] [Pydantic F D] [DecidableEq D] in
/-- A tool call that is found is in the log. -/
theorem mem_of_build_toolCalls {events : List (Event F D)} {key : Text × Text}
    {call : ToolCallEvent F D} (h : (Index.build events).toolCalls key = some call) :
    key ∈ events.filterMap Event.toolKey? := by
  induction events using List.reverseRecOn with
  | nil => cases h
  | append_singleton events event ih =>
    rw [build_append_singleton] at h
    rw [List.filterMap_append]
    cases event with
    | toolCall event =>
      by_cases heq : key = (event.parentCallId, event.toolCallId)
      · exact List.mem_append_right _ (by simp [Event.toolKey?, heq])
      · simp only [Index.add, Function.update_of_ne heq] at h
        exact List.mem_append_left _ (ih h)
    | _ => exact List.mem_append_left _ (ih h)

omit [Sha256 D] [Pydantic F D] [DecidableEq D] in
/-- A tool call is found where no later one has its key. -/
theorem build_toolCalls_append {key : Text × Text}
    (hkey : key ∉ more.filterMap Event.toolKey?) :
    (Index.build (old ++ more)).toolCalls key = (Index.build old).toolCalls key := by
  induction more using List.reverseRecOn with
  | nil => rw [List.append_nil]
  | append_singleton more event ih =>
    rw [List.filterMap_append, List.mem_append, not_or] at hkey
    rw [← List.append_assoc, build_append_singleton, ← ih hkey.1]
    cases event with
    | toolCall event =>
      have hne : key ≠ (event.parentCallId, event.toolCallId) := by
        rintro rfl
        exact hkey.2 (by simp [Event.toolKey?])
      simp only [Index.add, Function.update_of_ne hne]
    | _ => rfl

omit [Sha256 D] [Pydantic F D] [DecidableEq D] in
/-- A session over a log that grew harmlessly extends a session over the log. -/
theorem Harmless.extends (h : Harmless old more) {mode : RecordMode}
    (hmode : mode = .none ∨ mode = .once) (runId runId' : Text) (redactor : Redactor F D)
    (matchOn : List Matcher) :
    (Session.new runId mode redactor matchOn (some old) none).Extends
      (Session.new runId' mode redactor matchOn (some (old ++ more)) none) := by
  have hready : ∀ (id : Text) (events : List (Event F D)),
      (Session.new id mode redactor matchOn (some events) none).ReadOnly := by
    intro id events
    refine ⟨?_, rfl, rfl, rfl, rfl⟩
    rcases hmode with rfl | rfl <;> rfl
  refine {
    readOnly := hready _ _, readOnly' := hready _ _, redactor := rfl, matcher := ?_, tools := ?_
    env := ?_, names := ?_, reads := ?_, writes := ?_, outcome := ?_, envCursor := rfl
    readCursor := rfl, writeCursor := rfl }
  · refine ⟨_, (more.filterMap Event.modelCall?).map fun call => (call, false), matchOn, rfl, ?_⟩
    simp only [Session.new, Option.elim_some, Option.map_some, build_calls, List.filterMap_append,
      List.map_append]
  · intro key call hcall
    have hold : key ∈ old.filterMap Event.toolKey? := mem_of_build_toolCalls hcall
    exact (build_toolCalls_append fun hmore => h.tools key hmore hold).trans hcall
  · rintro ⟨source, key⟩
    change (Index.build old).env _ <+: (Index.build (old ++ more)).env _
    rw [build_env, build_env, List.filterMap_append]
    exact List.prefix_append _ _
  · intro key hsome
    change (Index.build (old ++ more)).env _ = (Index.build old).env _
    replace hsome : (Index.build old).env (.env, key) ≠ [] := hsome
    rw [build_env] at hsome
    rw [build_env, build_env, List.filterMap_append]
    obtain ⟨value, hvalue⟩ := List.exists_mem_of_ne_nil _ hsome
    obtain ⟨event, hevent, hpick⟩ := List.mem_filterMap.mp hvalue
    have hslot : event.slot = some (.env .env key) := by
      rw [← picks_env .env key event, hpick]
      rfl
    have hnone : more.filterMap (Event.envAt .env key) = [] := by
      rw [List.filterMap_eq_nil_iff]
      intro other hother
      rw [← Option.not_isSome_iff_eq_none, picks_env .env key other]
      exact fun hsame => h.names other hother key hsame event hevent hslot
    rw [hnone, List.append_nil]
  · rintro ⟨kind, path⟩
    change (Index.build old).reads _ <+: (Index.build (old ++ more)).reads _
    rw [build_reads, build_reads, List.filterMap_append]
    exact List.prefix_append _ _
  · intro path
    change (Index.build old).writes _ <+: (Index.build (old ++ more)).writes _
    rw [build_writes, build_writes, List.filterMap_append]
    exact List.prefix_append _ _
  · intro recorded hrecorded
    change (Index.build old).outcome = some recorded at hrecorded
    change ∃ last, (Index.build (old ++ more)).outcome = some last ∧ _
    rw [build_outcome] at hrecorded
    rw [build_outcome]
    have hlater : lastOutcome (old ++ more) = (lastOutcome more).or (lastOutcome old) := by
      rw [lastOutcome, List.filterMap_append, List.getLast?_append]
      rfl
    rw [hlater, hrecorded]
    cases hmore : lastOutcome more with
    | none => exact ⟨recorded, rfl, rfl⟩
    | some last =>
      exact ⟨last, rfl, h.outcomes recorded hrecorded last (mem_of_lastOutcome hmore)⟩

omit [DecidableEq D] in
/-- A store that holds the rows of one run holds its log. -/
theorem logs_of_rows {store : Store F D} {runId : Text} (h : store.rows = eventRows runId old) :
    store.Logs runId old := by
  rw [Store.Logs, Store.rowsOf, h, List.filter_eq_self]
  intro row hrow
  obtain ⟨seq, hseq, rfl⟩ := List.mem_mapIdx.mp hrow
  exact decide_eq_true rfl

end Logs

/-! ## Replays of an extended run -/

/-- A recording can be extended. When events came in behind those of a run and no blob went
away, a replay that returned returns the same answers, from the same header, in either mode
and for every agent, matcher and redactor. It takes that the events behind record no tool
call and no variable again and no outcome of another status. -/
theorem replay_of_extended (world : World F D W) {store store' : Store F D}
    (hblobs : store.Below store') {header : RunHeader F} {stored stored' : List (StoredEvent F D)}
    (hold : store.events header.runId = some stored)
    (hlong : store'.events header.runId = some stored') {more : List (Event F D)}
    (hmore : (stored'.map fun e => e.event) = (stored.map fun e => e.event) ++ more)
    (hharmless : Harmless (stored.map fun e => e.event) more)
    {fresh : RunHeader F} {mode : RecordMode} (hmode : mode = .none ∨ mode = .once)
    {redactor : Redactor F D} {matchOn : List Matcher} {session : Session F D} {opened : Store F D}
    (hopen : openSession store (some header) fresh mode redactor matchOn = some (session, opened))
    (live : Bool) (outside : W) (agent : Agent F) {answers : List (Answer F)}
    {replayed : Machine F D W}
    (hrun : agent.run world live { session, store := opened, outside } = (.ok answers, replayed)) :
    ∃ session' replayed',
      openSession store' (some header) fresh mode redactor matchOn = some (session', store') ∧
        agent.run world live { session := session', store := store', outside } =
          (.ok answers, replayed') := by
  have hall : mode ≠ .all := by
    rcases hmode with rfl | rfl <;> decide
  simp only [openSession, if_neg hall, hold, Option.bind_eq_bind, Option.bind_some] at hopen
  cases hopen
  let session' : Session F D :=
    .new header.runId mode { redactor with enabled := header.redacted } matchOn
      (some (stored'.map fun e => e.event)) none
  have hextends : Extending
      { session := Session.new header.runId mode { redactor with enabled := header.redacted }
          matchOn (some (stored.map fun e => e.event)) none, store, outside }
      ({ session := session', store := store', outside } : Machine F D W) := by
    constructor
    · have hsessions := hharmless.extends hmode header.runId header.runId
        { redactor with enabled := header.redacted } matchOn
      rwa [← hmore] at hsessions
    · exact hblobs
    · rfl
  obtain ⟨answers', replayed', hsame, -, rfl⟩ :=
    (follows_agent world live agent _ _ hextends).1 answers replayed hrun
  refine ⟨session', replayed', ?_, hsame⟩
  simp only [openSession, if_neg hall, hlong, Option.bind_eq_bind, Option.bind_some]
  rfl

/-! The talking run, to which another session appended a model call, a number and a variable. -/

/-- What came in behind. -/
def furtherEvents : List (Event Decimal HexDigest) := [
  talkingCall "3".toList "no".toList none none (streamReassembles_none _),
  .environment {
    source := .random, key := none, value := sortKeys (.num (.int 7))
    eventMeta := ⟨half, none, none⟩ },
  .environment {
    source := .env, key := some "HOME".toList, value := sortKeys (.num (.int 1))
    eventMeta := ⟨half, none, none⟩ }]

/-- The store before and behind it. -/
def shortStore : Store Decimal HexDigest where
  runs := [talkingRun]
  rows := eventRows "run".toList talkingEvents

def longStore : Store Decimal HexDigest where
  runs := [talkingRun]
  rows := eventRows "run".toList (talkingEvents ++ furtherEvents)

/-- An agent that asks the model twice, draws a number and leaves. -/
def drawingAgent : Agent Decimal :=
  .create demoAsked fun _ => .stream demoAsked fun _ _ _ => .env .random none fun _ => .done

/-- What it is told in the talking run. -/
def drawnAnswers : List (Answer Decimal) := [
  .completion "1".toList { text := "go".toList, finishReason := "stop".toList },
  .streamed "2".toList demoScript.chunks { text := "ab".toList, finishReason := "stop".toList },
  .env (sortKeys (.num (.int 4)))]

/-- In the example the further events repeat no tool call of the recorded ones. -/
theorem furtherEvents_harmless : Harmless talkingEvents furtherEvents where
  tools key hkey := by
    cases hkey
  names event hevent key hslot other hother hsame := by
    have hnone : ∀ other ∈ talkingEvents, ∀ key, other.slot ≠ some (.env .env key) := by
      intro other hother key hsame
      simp only [talkingEvents, List.mem_cons, List.not_mem_nil, or_false] at hother
      rcases hother with rfl | rfl | rfl | rfl | rfl | rfl <;> cases hsame
    exact hnone other hother key hsame
  outcomes last hlast event hevent := by
    simp [furtherEvents, talkingCall] at hevent

/-- The agent is told the same although the run has grown. -/
theorem replay_of_extended_talking : ∃ (session : Session Decimal HexDigest)
    (replayed : Machine Decimal HexDigest Unit),
    openSession longStore (some talkingRun) talkingRun .none .disabled [] =
        some (session, longStore) ∧
      drawingAgent.run silentWorld false { session, store := longStore, outside := () } =
        (.ok drawnAnswers, replayed) := by
  have hshort : shortStore.Logs "run".toList talkingEvents := logs_of_rows rfl
  have hlong : longStore.Logs "run".toList (talkingEvents ++ furtherEvents) := logs_of_rows rfl
  have hblobs : shortStore.Below longStore := fun _ _ h => h
  obtain ⟨stored, hstored, hevents⟩ := hshort.events_eq
  obtain ⟨stored', hstored', hevents'⟩ := hlong.events_eq
  have hopen : openSession shortStore (some talkingRun) talkingRun .none .disabled [] =
      some (Session.new "run".toList .none .disabled [] (some talkingEvents) none, shortStore) := by
    simp only [openSession, if_neg (by decide : RecordMode.none ≠ .all)]
    change (shortStore.events "run".toList >>= _) = _
    rw [hstored, Option.bind_eq_bind, Option.bind_some, hevents]
    rfl
  have hrun : drawingAgent.run silentWorld false
      { session := Session.new "run".toList .none .disabled [] (some talkingEvents) none,
        store := shortStore, outside := () } = (.ok drawnAnswers, _) := rfl
  exact replay_of_extended silentWorld hblobs hstored hstored'
    (hevents'.trans (by rw [hevents])) (hevents ▸ furtherEvents_harmless) (.inl rfl) hopen false ()
    drawingAgent hrun

end Tracewake.Recording
