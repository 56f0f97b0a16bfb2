import Tracewake.Recording.Logs

/-!
# Recording a new run

What each operation of a session appends while a new run is recorded with a redactor that
is off, in a world whose calls return: the event, what the event says about the answer, and
the blob that it refers to.
-/

namespace Tracewake.Recording

open JsonText Effects
open Results (lessCodePoints)

variable {F D W : Type} [Python F]

/-- Every call to the world returns. -/
def World.Normal (world : World F D W) : Prop :=
  ∀ (call : OutsideCall F) (outside : W), ∃ answer, (world.answer call outside).1 = .ok answer

/-- The key of a path in a recording that is not redacted. -/
def World.key (world : World F D W) (root : Option Text) (path : Text) : Option Text :=
  match root with
  | none => some path
  | some root => (world.resolve root path).map fun located => located.2

/-- The blobs of a store are in the other one. -/
def Store.Below (store other : Store F D) : Prop :=
  ∀ digest data, store.blobs digest = some data → other.blobs digest = some data

omit [Python F] in
/-- A store that has grown twice has grown. -/
theorem Store.Below.trans {a b c : Store F D} (hab : a.Below b) (hbc : b.Below c) : a.Below c :=
  fun digest data h => hbc digest data (hab digest data h)

/-- All outcomes of a log have one status. -/
def OutcomesAgree (events : List (Event F D)) : Prop :=
  ∀ a b : OutcomeEvent F D, .outcome a ∈ events → .outcome b ∈ events → a.status = b.status

variable [Sha256 D]

/-- The store has a blob under the digest of these bytes. -/
def Store.Has (store : Store F D) (data : List UInt8) : Prop :=
  (store.blobs (Sha256.hash data)).isSome = true

omit [Python F] in
/-- Data that a store has, every larger store has too. -/
theorem Store.Has.mono {store other : Store F D} {data : List UInt8} (h : store.Has data)
    (hbelow : store.Below other) : other.Has data := by
  obtain ⟨stored, hstored⟩ := Option.isSome_iff_exists.mp h
  rw [Store.Has, hbelow _ _ hstored]
  rfl

variable [Pydantic F D] [DecidableEq D]

section Put

variable (store : Store F D) (data : List UInt8)

omit [Python F] [Pydantic F D] in
/-- Storing a blob writes no event. -/
theorem Store.put_rows : (store.put data).2.rows = store.rows := by
  simp only [Store.put]
  split <;> rfl

omit [Python F] [Pydantic F D] in
/-- Storing a blob writes no run. -/
theorem Store.put_runs : (store.put data).2.runs = store.runs := by
  simp only [Store.put]
  split <;> rfl

omit [Python F] [Pydantic F D] in
/-- Storing a blob makes the store no smaller. -/
theorem Store.below_put : store.Below (store.put data).2 := by
  intro digest stored hstored
  simp only [Store.put]
  split
  · exact hstored
  · next habsent =>
    have hne : digest ≠ Sha256.hash data := by
      rintro rfl
      exact habsent (by rw [hstored]; rfl)
    simpa only [Function.update_of_ne hne] using hstored

omit [Python F] [Pydantic F D] in
/-- What has been stored is there. -/
theorem Store.put_has : (store.put data).2.Has data := by
  simp only [Store.Has, Store.put]
  split
  · next hpresent => exact hpresent
  · simp

omit [Python F] [Pydantic F D] in
/-- A store stays intact when data is stored under its own digest. -/
theorem Store.put_intact {store : Store F D} (h : store.Intact) (data : List UInt8) :
    (store.put data).2.Intact := by
  intro digest stored hstored
  simp only [Store.put] at hstored
  split at hstored
  · exact h digest stored hstored
  · by_cases heq : digest = Sha256.hash data
    · subst heq
      simp only [Function.update_self, Option.some.injEq] at hstored
      rw [← hstored]
    · simp only [Function.update_of_ne heq] at hstored
      exact h digest stored hstored

end Put

/-- The machine records a new run, to which these events were appended so far. -/
structure Taping (runs : List (RunHeader F)) (runId : Text) (events : List (Event F D))
    (machine : Machine F D W) : Prop where
  runId : machine.session.runId = runId
  records : machine.session.canRecord = true
  fresh : machine.session.canReplay = false
  intervention : machine.session.intervention = none
  matcher : machine.session.matcher = none
  off : machine.session.redactor.Off
  toolCalls : machine.session.index.toolCalls = fun _ => none
  outcome : machine.session.index.outcome = lastOutcome events
  agree : OutcomesAgree events
  logs : machine.store.Logs machine.session.runId events
  intact : machine.store.Intact
  runs : machine.store.runs = runs

/-- An operation appended these events to a run and put blobs, and left `tool_scope` as it
was. -/
structure Taped (runs : List (RunHeader F)) (runId : Text) (events : List (Event F D))
    (machine : Machine F D W) (more : List (Event F D)) (machine' : Machine F D W) : Prop where
  taping : Taping runs runId (events ++ more) machine'
  below : machine.store.Below machine'.store
  scope : machine'.scope = machine.scope

section Recording

variable {runs : List (RunHeader F)} {runId : Text} {events : List (Event F D)}
  {machine : Machine F D W} (world : World F D W)

omit [DecidableEq D] in
/-- Neither the world nor the scope matters. -/
theorem Taping.elsewhere (h : Taping runs runId events machine) {machine' : Machine F D W}
    (hsession : machine'.session = machine.session) (hstore : machine'.store = machine.store) :
    Taping runs runId events machine' := by
  obtain ⟨session, store, outside, calls, scope⟩ := machine'
  obtain rfl : session = machine.session := hsession
  obtain rfl : store = machine.store := hstore
  exact { h with }

omit [DecidableEq D] in
/-- What is taped in two parts is taped in their sequence. -/
theorem Taped.trans {more further : List (Event F D)} {machine' machine'' : Machine F D W}
    (h : Taped runs runId events machine more machine')
    (h' : Taped runs runId (events ++ more) machine' further machine'') :
    Taped runs runId events machine (more ++ further) machine'' where
  taping := by
    rw [← List.append_assoc]
    exact h'.taping
  below := h.below.trans h'.below
  scope := h'.scope.trans h.scope

omit [DecidableEq D] in
/-- Calls to the world append nothing. -/
theorem Taping.outside (h : Taping runs runId events machine) {machine' : Machine F D W}
    (hsession : machine'.session = machine.session) (hstore : machine'.store = machine.store)
    (hscope : machine'.scope = machine.scope) :
    Taped runs runId events machine [] machine' where
  taping := by
    rw [List.append_nil]
    exact h.elsewhere hsession hstore
  below := by
    rw [hstore]
    exact fun _ _ hstored => hstored
  scope := hscope

/-- The machine after a call to the world. -/
def Machine.called (machine : Machine F D W) (call : OutsideCall F) (outside : W) :
    Machine F D W :=
  { machine with outside := outside, calls := machine.calls ++ [call] }

omit [DecidableEq D] in
/-- A call to the outside is no event, so the taping goes on. -/
theorem Taping.called (h : Taping runs runId events machine) (call : OutsideCall F) (outside : W) :
    Taping runs runId events (machine.called call outside) :=
  h.elsewhere rfl rfl

omit [Sha256 D] [Pydantic F D] [DecidableEq D] in
/-- In a normal world every call to the outside is answered. -/
theorem perform_normal (hworld : world.Normal) (call : OutsideCall F) (machine : Machine F D W) :
    ∃ answer outside, perform world call machine = (.ok answer, machine.called call outside) := by
  obtain ⟨answer, hanswer⟩ := hworld call machine.outside
  refine ⟨answer, (world.answer call machine.outside).2, ?_⟩
  rw [perform, ← hanswer]
  rfl

/-- Bytes are put as they are. -/
theorem putBlob_taped (h : Taping runs runId events machine) (data : List UInt8) :
    ∃ machine', putBlob data machine = (.ok ⟨Sha256.hash data, data.length⟩, machine') ∧
      Taped runs runId events machine [] machine' ∧ machine'.store.Has data ∧
      machine'.session = machine.session := by
  have hblob : machine.session.redactor.blob data = data := by
    rw [Redactor.blob, h.off.disabled]
    rfl
  refine ⟨{ machine with store := (machine.store.put data).2 }, ?_, ?_, ?_, rfl⟩
  · rw [putBlob, run_modifyGet, hblob]
    rfl
  · refine ⟨?_, machine.store.below_put data, rfl⟩
    rw [List.append_nil]
    refine { h with logs := ?_, intact := Store.put_intact h.intact data, runs := ?_ }
    · rw [Store.Logs, Store.rowsOf, Store.put_rows]
      exact h.logs
    · rw [Store.put_runs]
      exact h.runs
  · exact machine.store.put_has data

omit [Sha256 D] [Pydantic F D] [DecidableEq D] in
/-- An event that is no outcome leaves the last outcome as it is. -/
theorem outcomesAgree_append {event : Event F D} (hevent : event.outcome? = none)
    (h : OutcomesAgree events) : OutcomesAgree (events ++ [event]) := by
  intro a b ha hb
  have hold : ∀ c : OutcomeEvent F D, .outcome c ∈ events ++ [event] → .outcome c ∈ events := by
    intro c hc
    rcases List.mem_append.mp hc with hc | hc
    · exact hc
    · rw [← List.mem_singleton.mp hc] at hevent
      cases hevent
  exact h a b (hold a ha) (hold b hb)

omit [DecidableEq D] in
/-- An event that is no outcome is appended as it is. -/
theorem append_taped (h : Taping runs runId events machine) (event : Event F D)
    (hevent : event.outcome? = none) :
    ∃ machine', append event machine = (.ok ⟨⟩, machine') ∧
      Taped runs runId events machine [event] machine' ∧ machine'.session = machine.session := by
  refine ⟨_, append_off h.off h.records event, ⟨?_, fun _ _ hstored => hstored, rfl⟩, rfl⟩
  refine { h with
    outcome := ?_, agree := outcomesAgree_append hevent h.agree, logs := h.logs.append event }
  rw [lastOutcome, List.filterMap_append, List.filterMap_cons_none hevent, List.filterMap_nil,
    List.append_nil]
  exact h.outcome

/-! ## The environment and the file system -/

omit [DecidableEq D] in
/-- A recorded environment value is answered by the world and appended as an event. -/
theorem envValue_taped (hworld : world.Normal) (h : Taping runs runId events machine)
    (source : EnvironmentSource) (key : Option Text) :
    ∃ (event : EnvironmentEvent F) (machine' : Machine F D W),
      envValue world source key machine = (.ok event.value, machine') ∧
      Taped runs runId events machine [.environment event] machine' ∧
      event.source = source ∧ event.key = key ∧ event.toolCallId = machine.scope.2 := by
  have hrecorded : recordedEnv source key machine = (.ok none, machine) := by
    rw [recordedEnv, getSession]
    simp only [run_bind, run_get, run_pure, h.fresh, Bool.false_and, Bool.false_eq_true, if_false]
  obtain ⟨value, outside, hvalue⟩ : ∃ (value : CanonicalValue F) (outside : W),
      (perform world (.produce source key) : Py F D W (CanonicalValue F)) machine =
        (.ok value, machine.called (.produce source key) outside) :=
    perform_normal world hworld (.produce source key) machine
  have hmid := h.called (.produce source key) outside
  obtain ⟨machine', happend, htaped, -⟩ := append_taped hmid (.environment {
    source, key, value, parentCallId := machine.session.currentCallId
    toolCallId := machine.scope.2, eventMeta := world.eventMeta outside }) rfl
  refine ⟨_, machine', ?_, ⟨htaped.taping, htaped.below, htaped.scope⟩, rfl, rfl, rfl⟩
  rw [envValue, run_bind_ok hrecorded, getSession]
  simp only [run_bind, run_get, run_pure, h.records, Bool.not_true, Bool.false_eq_true, if_false]
  refine (run_bind_ok hvalue).trans ?_
  exact (run_bind_ok (run_get _)).trans ((run_bind_ok happend).trans rfl)

omit [Sha256 D] [Pydantic F D] [DecidableEq D] in
/-- The fields of a scope name the tool that is running. -/
theorem scopeFields_taped (machine : Machine F D W) : ∃ base : EventBase F,
    scopeFields world machine = (.ok base, machine) ∧ base.toolCallId = machine.scope.2 :=
  ⟨_, rfl, rfl⟩

omit [DecidableEq D] in
/-- A session that records has no recorded read to answer with. -/
theorem replayRead_taped (h : Taping runs runId events machine) (kind : ReadKind) (path : Text) :
    replayRead kind path machine = (.ok none, machine) := by
  rw [replayRead, getSession]
  simp only [run_bind, run_get, run_pure, h.fresh, Bool.not_false, Bool.true_or, if_true]

omit [DecidableEq D] in
/-- A session that records has no recorded write to answer with. -/
theorem replayWrite_taped (h : Taping runs runId events machine) (path : Text) :
    replayWrite path machine = (.ok none, machine) := by
  rw [replayWrite, getSession]
  simp only [run_bind, run_get, run_pure, h.fresh, Bool.not_false, Bool.true_or, if_true]

omit [Sha256 D] [Pydantic F D] [DecidableEq D] in
/-- A redactor that is off leaves the key of a path alone. -/
theorem locate_off (hdisabled : machine.session.redactor.enabled = false) (root : Option Text)
    (path : Text) :
    (world.key root path = none ∧
      locate world root path machine = (.error (.outsideRoot path), machine)) ∨
    ∃ key target, world.key root path = some key ∧
      locate world root path machine = (.ok (key, target), machine) := by
  have htext : ∀ value, machine.session.redactor.text value = value := by
    intro value
    rw [Redactor.text, hdisabled]
    rfl
  rw [locate, getSession]
  simp only [run_bind, run_get, run_pure]
  cases root with
  | none => exact .inr ⟨path, path, rfl, by rw [htext]; rfl⟩
  | some root =>
    cases hresolve : world.resolve root path with
    | none => exact .inl ⟨by simp [World.key, hresolve], by simp only [hresolve]; rfl⟩
    | some located =>
      refine .inr ⟨located.2, located.1, by simp [World.key, hresolve], ?_⟩
      simp only [hresolve, htext]
      rfl

/-- What a recorded read says: whether the file was found, and the digest of the bytes. -/
def FsReadEvent.Tells (event : FsReadEvent F D) (store : Store F D) (data : Option (List UInt8)) :
    Prop :=
  match data with
  | none => event.found = false
  | some data => event.found = true ∧ store.Has data ∧
    event.content = some ⟨Sha256.hash data, data.length⟩

/-- A read was recorded under its key. -/
structure ReadTaped (kind : ReadKind) (key : Text) (tool : Option Text) (event : FsReadEvent F D) :
    Prop where
  kind : event.kind = kind
  path : event.path = key
  tool : event.toolCallId = tool

omit [Sha256 D] [Pydantic F D] [DecidableEq D] in
/-- A read that succeeds is an answer. -/
theorem orMissing_ok {α : Type} {read : Py F D W α} {a : α} {machine' : Machine F D W}
    (h : read machine = (.ok a, machine')) : orMissing read machine = (.ok (some a), machine') := by
  rw [orMissing, run_tryCatch, map_eq_pure_bind, run_bind_ok h]
  rfl

omit [Sha256 D] [Pydantic F D] [DecidableEq D] in
/-- A read that raises is no answer if its file is missing, and raises otherwise. -/
theorem orMissing_error {α : Type} {read : Py F D W α} {raised : Raised D}
    {machine' : Machine F D W} (h : read machine = (.error raised, machine')) :
    orMissing read machine = match raised with
      | .fileNotFound _ => (.ok none, machine')
      | raised => (.error raised, machine') := by
  rw [orMissing, run_tryCatch, map_eq_pure_bind, run_bind_error h]
  cases raised <;> rfl

omit [DecidableEq D] in
/-- The event of a read with its blob, which was put before. -/
theorem append_read_taped (h : Taping runs runId events machine) {before : Machine F D W}
    (hbefore : Taped runs runId events before [] machine) (kind : ReadKind) (key : Text)
    (data : Option (List UInt8)) (hdata : ∀ data' ∈ data, machine.store.Has data') :
    ∃ (base : EventBase F) (event : FsReadEvent F D) (machine' : Machine F D W),
      scopeFields world machine = (.ok base, machine) ∧
      append (.fsRead { base with
        path := key, kind, found := data.isSome
        content := data.map fun data => ⟨Sha256.hash data, data.length⟩ }) machine =
          (.ok ⟨⟩, machine') ∧
      Taped runs runId events before [.fsRead event] machine' ∧
      ReadTaped kind key before.scope.2 event ∧ event.Tells machine'.store data := by
  obtain ⟨base, hbase, htool⟩ := scopeFields_taped (D := D) world machine
  obtain ⟨machine', happend, htaped, -⟩ := append_taped h (.fsRead { base with
    path := key, kind, found := data.isSome
    content := data.map fun data => (⟨Sha256.hash data, data.length⟩ : BlobRef D) }) rfl
  refine ⟨base, _, machine', hbase, happend, hbefore.trans (by rwa [List.append_nil]),
    ⟨rfl, rfl, ?_⟩, ?_⟩
  · rw [← hbefore.scope]
    exact htool
  · cases data with
    | none => rfl
    | some data => exact ⟨rfl, (hdata data rfl).mono htaped.below, rfl⟩

/-- A read of a file's bytes. -/
theorem readBytes_taped (hworld : world.Normal) (h : Taping runs runId events machine)
    (root : Option Text) (path : Text) :
    (world.key root path = none ∧
      orMissing (readBytes world root path) machine = (.error (.outsideRoot path), machine)) ∨
    ∃ (key : Text) (event : FsReadEvent F D) (data : Option (List UInt8))
      (machine' : Machine F D W),
      world.key root path = some key ∧
      orMissing (readBytes world root path) machine = (.ok data, machine') ∧
      Taped runs runId events machine [.fsRead event] machine' ∧
      ReadTaped .content key machine.scope.2 event ∧ event.Tells machine'.store data := by
  rcases locate_off world h.off.disabled root path with
    ⟨hkey, hlocate⟩ | ⟨key, target, hkey, hlocate⟩
  · exact .inl ⟨hkey, orMissing_error (run_bind_error hlocate)⟩
  refine .inr ?_
  obtain ⟨found, outside, hfound⟩ : ∃ (found : Bool) (outside : W),
      (perform world (.isFile target) : Py F D W Bool) machine =
        (.ok found, machine.called (.isFile target) outside) :=
    perform_normal world hworld (.isFile target) machine
  cases found with
  | false =>
    have hmid : Taped runs runId events machine [] (machine.called (.isFile target) outside) :=
      h.outside rfl rfl rfl
    obtain ⟨base, event, machine', hbase, happend, htaped, hread, htells⟩ := append_read_taped world
      (by simpa using hmid.taping) hmid .content key none (by simp)
    refine ⟨key, event, none, machine', hkey, ?_, htaped, hread, htells⟩
    have hrun : readBytes world root path machine = (.error (.fileNotFound key), machine') := by
      rw [readBytes, run_bind_ok hlocate]
      refine (run_bind_ok (replayRead_taped h _ _)).trans ?_
      refine (run_bind_ok hfound).trans ?_
      exact (run_bind_ok hbase).trans ((run_bind_ok happend).trans rfl)
    exact orMissing_error hrun
  | true =>
    obtain ⟨data, outside', hdata⟩ : ∃ (data : List UInt8) (outside' : W),
        (perform world (.readBytes target) : Py F D W (List UInt8))
          (machine.called (.isFile target) outside) =
            (.ok data,
              (machine.called (.isFile target) outside).called (.readBytes target) outside') :=
      perform_normal world hworld (.readBytes target) _
    have hmid : Taped runs runId events machine []
        ((machine.called (.isFile target) outside).called (.readBytes target) outside') :=
      h.outside rfl rfl rfl
    have hmid' := (h.called (.isFile target) outside).called (.readBytes target) outside'
    obtain ⟨put, hput, hputTaped, hhas, -⟩ := putBlob_taped hmid' data
    have hbefore := hmid.trans (by rwa [List.append_nil])
    obtain ⟨base, event, machine', hbase, happend, htaped, hread, htells⟩ := append_read_taped world
      (by simpa using hputTaped.taping) hbefore .content key (some data) (by simpa using hhas)
    refine ⟨key, event, some data, machine', hkey, ?_, htaped, hread, htells⟩
    have hrun : readBytes world root path machine = (.ok data, machine') := by
      rw [readBytes, run_bind_ok hlocate]
      refine (run_bind_ok (replayRead_taped h _ _)).trans ?_
      refine (run_bind_ok hfound).trans ?_
      refine (run_bind_ok hdata).trans ((run_bind_ok hput).trans ?_)
      exact (run_bind_ok hbase).trans ((run_bind_ok happend).trans rfl)
    exact orMissing_ok hrun

omit [DecidableEq D] in
/-- A test for a path. -/
theorem fileExists_taped (hworld : world.Normal) (h : Taping runs runId events machine)
    (root : Option Text) (path : Text) :
    (world.key root path = none ∧
      fileExists world root path machine = (.error (.outsideRoot path), machine)) ∨
    ∃ (key : Text) (event : FsReadEvent F D) (machine' : Machine F D W),
      world.key root path = some key ∧
      fileExists world root path machine = (.ok event.found, machine') ∧
      Taped runs runId events machine [.fsRead event] machine' ∧
      ReadTaped .exists key machine.scope.2 event := by
  rcases locate_off world h.off.disabled root path with
    ⟨hkey, hlocate⟩ | ⟨key, target, hkey, hlocate⟩
  · exact .inl ⟨hkey, run_bind_error hlocate⟩
  refine .inr ?_
  obtain ⟨found, outside, hfound⟩ : ∃ (found : Bool) (outside : W),
      (perform world (.pathExists target) : Py F D W Bool) machine =
        (.ok found, machine.called (.pathExists target) outside) :=
    perform_normal world hworld (.pathExists target) machine
  have hmid : Taped runs runId events machine [] (machine.called (.pathExists target) outside) :=
    h.outside rfl rfl rfl
  have hmid' := h.called (.pathExists target) outside
  obtain ⟨base, hbase, htool⟩ := scopeFields_taped (D := D) world
    (machine.called (.pathExists target) outside)
  obtain ⟨machine', happend, htaped, -⟩ := append_taped hmid' (.fsRead { base with
    path := key, kind := .exists, found, content := none }) rfl
  refine ⟨key, _, machine', hkey, ?_, hmid.trans (by rwa [List.append_nil]), ⟨rfl, rfl, htool⟩⟩
  rw [fileExists, run_bind_ok hlocate]
  refine (run_bind_ok (replayRead_taped h _ _)).trans ?_
  refine (run_bind_ok hfound).trans ?_
  exact (run_bind_ok hbase).trans ((run_bind_ok happend).trans rfl)

/-- A listing of a directory. -/
theorem listDir_taped (hworld : world.Normal) (h : Taping runs runId events machine)
    (root : Option Text) (path : Text) :
    (world.key root path = none ∧
      orMissing (listDir world root path) machine = (.error (.outsideRoot path), machine)) ∨
    ∃ (key : Text) (event : FsReadEvent F D) (names : Option (List Text))
      (machine' : Machine F D W),
      world.key root path = some key ∧
      orMissing (listDir world root path) machine = (.ok names, machine') ∧
      Taped runs runId events machine [.fsRead event] machine' ∧
      ReadTaped .listing key machine.scope.2 event ∧
      event.Tells machine'.store (names.map (listingBytes F)) := by
  rcases locate_off world h.off.disabled root path with
    ⟨hkey, hlocate⟩ | ⟨key, target, hkey, hlocate⟩
  · exact .inl ⟨hkey, orMissing_error (run_bind_error hlocate)⟩
  refine .inr ?_
  obtain ⟨found, outside, hfound⟩ : ∃ (found : Bool) (outside : W),
      (perform world (.isDir target) : Py F D W Bool) machine =
        (.ok found, machine.called (.isDir target) outside) :=
    perform_normal world hworld (.isDir target) machine
  cases found with
  | false =>
    have hmid : Taped runs runId events machine [] (machine.called (.isDir target) outside) :=
      h.outside rfl rfl rfl
    obtain ⟨base, event, machine', hbase, happend, htaped, hread, htells⟩ := append_read_taped world
      (by simpa using hmid.taping) hmid .listing key none (by simp)
    refine ⟨key, event, none, machine', hkey, ?_, htaped, hread, htells⟩
    have hrun : listDir world root path machine = (.error (.fileNotFound key), machine') := by
      rw [listDir, run_bind_ok hlocate]
      refine (run_bind_ok (replayRead_taped h _ _)).trans ?_
      refine (run_bind_ok hfound).trans ?_
      exact (run_bind_ok hbase).trans ((run_bind_ok happend).trans rfl)
    exact orMissing_error hrun
  | true =>
    obtain ⟨listed, outside', hlisted⟩ : ∃ (listed : List Text) (outside' : W),
        (perform world (.listdir target) : Py F D W (List Text))
          (machine.called (.isDir target) outside) =
            (.ok listed,
              (machine.called (.isDir target) outside).called (.listdir target) outside') :=
      perform_normal world hworld (.listdir target) _
    have hmid : Taped runs runId events machine []
        ((machine.called (.isDir target) outside).called (.listdir target) outside') :=
      h.outside rfl rfl rfl
    have hmid' := (h.called (.isDir target) outside).called (.listdir target) outside'
    obtain ⟨put, hput, hputTaped, hhas, -⟩ := putBlob_taped hmid'
      (listingBytes F (listed.mergeSort fun a b => !lessCodePoints b a))
    have hbefore := hmid.trans (by rwa [List.append_nil])
    obtain ⟨base, event, machine', hbase, happend, htaped, hread, htells⟩ := append_read_taped world
      (by simpa using hputTaped.taping) hbefore .listing key
      (some (listingBytes F (listed.mergeSort fun a b => !lessCodePoints b a)))
      (by simpa using hhas)
    refine ⟨key, event, some (listed.mergeSort fun a b => !lessCodePoints b a), machine', hkey, ?_,
      htaped, hread, htells⟩
    have hrun : listDir world root path machine =
        (.ok (listed.mergeSort fun a b => !lessCodePoints b a), machine') := by
      rw [listDir, run_bind_ok hlocate]
      refine (run_bind_ok (replayRead_taped h _ _)).trans ?_
      refine (run_bind_ok hfound).trans ?_
      refine (run_bind_ok hlisted).trans ((run_bind_ok hput).trans ?_)
      exact (run_bind_ok hbase).trans ((run_bind_ok happend).trans rfl)
    exact orMissing_ok hrun

/-- A write. -/
theorem writeBytes_taped (hworld : world.Normal) (h : Taping runs runId events machine)
    (root : Option Text) (path : Text) (data : List UInt8) :
    (world.key root path = none ∧
      writeBytes world root path data machine = (.error (.outsideRoot path), machine)) ∨
    ∃ (key : Text) (event : FsWriteEvent F D) (machine' : Machine F D W),
      world.key root path = some key ∧
      writeBytes world root path data machine = (.ok ⟨⟩, machine') ∧
      Taped runs runId events machine [.fsWrite event] machine' ∧ event.path = key ∧
      event.content.digest = Sha256.hash data ∧ event.toolCallId = machine.scope.2 := by
  rcases locate_off world h.off.disabled root path with
    ⟨hkey, hlocate⟩ | ⟨key, target, hkey, hlocate⟩
  · exact .inl ⟨hkey, run_bind_error hlocate⟩
  refine .inr ?_
  obtain ⟨written, outside, hwritten⟩ : ∃ (written : Unit) (outside : W),
      (perform world (.write target data) : Py F D W Unit) machine =
        (.ok written, machine.called (.write target data) outside) :=
    perform_normal world hworld (.write target data) machine
  have hmid : Taped runs runId events machine [] (machine.called (.write target data) outside) :=
    h.outside rfl rfl rfl
  have hmid' := h.called (.write target data) outside
  obtain ⟨put, hput, hputTaped, -, -⟩ := putBlob_taped hmid' data
  have hput' := hputTaped.taping
  rw [List.append_nil] at hput'
  obtain ⟨base, hbase, htool⟩ := scopeFields_taped (D := D) world put
  obtain ⟨machine', happend, htaped, -⟩ := append_taped hput' (.fsWrite { base with
    path := key, content := ⟨Sha256.hash data, data.length⟩ }) rfl
  have hall := (hmid.trans (by rwa [List.append_nil])).trans
    (by rwa [List.append_nil, List.append_nil])
  refine ⟨key, _, machine', hkey, ?_, hall, rfl, rfl, ?_⟩
  · rw [writeBytes, run_bind_ok hlocate]
    refine (run_bind_ok (replayWrite_taped h _)).trans ?_
    refine (run_bind_ok hwritten).trans ((run_bind_ok hput).trans ?_)
    exact (run_bind_ok hbase).trans happend
  · exact htool.trans (congrArg Prod.snd hputTaped.scope)

/-! ## Tools -/

/-- The events that the body of a tool leaves in the log. -/
def OfTool (tool : Option Text) (events : List (Event F D)) : Prop :=
  ∀ event ∈ events, event.slot.isSome = true ∧ event.toolCallId = tool

omit [Sha256 D] [Pydantic F D] [DecidableEq D] in
/-- Events of one tool, with one more of the same tool before them. -/
theorem OfTool.cons {tool : Option Text} {more : List (Event F D)} (hmore : OfTool tool more)
    (event : Event F D) (hslot : event.slot.isSome = true) (htool : event.toolCallId = tool) :
    OfTool tool ([event] ++ more) := by
  intro other hother
  rcases List.mem_append.mp hother with hother | hother
  · rw [List.mem_singleton.mp hother]
    exact ⟨hslot, htool⟩
  · exact hmore other hother

/-- The body of a tool appends what it reads and writes, also when it raises. -/
theorem toolBody_taped (hworld : world.Normal) (h : Taping runs runId events machine)
    (body : ToolBody F D W) :
    ∃ more machine', (body.run world machine).2 = machine' ∧
      Taped runs runId events machine more machine' ∧ OfTool machine.scope.2 more := by
  induction body generalizing events machine with
  | done outcome => exact ⟨[], machine, rfl, h.outside rfl rfl rfl, fun _ h => nomatch h⟩
  | fail raised => exact ⟨[], machine, rfl, h.outside rfl rfl rfl, fun _ h => nomatch h⟩
  | act step next ih =>
    have hmid : Taped runs runId events machine []
      { machine with outside := step machine.outside } := h.outside rfl rfl rfl
    have hmid' := hmid.taping
    rw [List.append_nil] at hmid'
    obtain ⟨more, machine', hrun, htaped, hof⟩ := ih (step machine.outside) hmid'
    exact ⟨more, machine', hrun, hmid.trans (by rwa [List.append_nil]), hof⟩
  | env source key next ih =>
    obtain ⟨event, mid, hmid, htaped, -, -, htool⟩ := envValue_taped world hworld h source key
    obtain ⟨more, machine', hrun, hrest, hof⟩ := ih event.value htaped.taping
    rw [htaped.scope] at hof
    refine ⟨_, machine', ?_, htaped.trans hrest, hof.cons (.environment event) rfl htool⟩
    rw [ToolBody.run, run_bind_ok hmid]
    exact hrun
  | content root path next ih =>
    rcases readBytes_taped world hworld h root path with
      ⟨-, hmid⟩ | ⟨key, event, data, mid, -, hmid, htaped, hread, -⟩
    · refine ⟨[], machine, ?_, h.outside rfl rfl rfl, fun _ h => nomatch h⟩
      rw [ToolBody.run, run_bind_error hmid]
    · obtain ⟨more, machine', hrun, hrest, hof⟩ := ih data htaped.taping
      rw [htaped.scope] at hof
      refine ⟨_, machine', ?_, htaped.trans hrest, hof.cons (.fsRead event) rfl hread.tool⟩
      rw [ToolBody.run, run_bind_ok hmid]
      exact hrun
  | pathExists root path next ih =>
    rcases fileExists_taped world hworld h root path with
      ⟨-, hmid⟩ | ⟨key, event, mid, -, hmid, htaped, hread⟩
    · refine ⟨[], machine, ?_, h.outside rfl rfl rfl, fun _ h => nomatch h⟩
      rw [ToolBody.run, run_bind_error hmid]
    · obtain ⟨more, machine', hrun, hrest, hof⟩ := ih event.found htaped.taping
      rw [htaped.scope] at hof
      refine ⟨_, machine', ?_, htaped.trans hrest, hof.cons (.fsRead event) rfl hread.tool⟩
      rw [ToolBody.run, run_bind_ok hmid]
      exact hrun
  | listing root path next ih =>
    rcases listDir_taped world hworld h root path with
      ⟨-, hmid⟩ | ⟨key, event, names, mid, -, hmid, htaped, hread, -⟩
    · refine ⟨[], machine, ?_, h.outside rfl rfl rfl, fun _ h => nomatch h⟩
      rw [ToolBody.run, run_bind_error hmid]
    · obtain ⟨more, machine', hrun, hrest, hof⟩ := ih names htaped.taping
      rw [htaped.scope] at hof
      refine ⟨_, machine', ?_, htaped.trans hrest, hof.cons (.fsRead event) rfl hread.tool⟩
      rw [ToolBody.run, run_bind_ok hmid]
      exact hrun
  | write root path data next ih =>
    rcases writeBytes_taped world hworld h root path data with
      ⟨-, hmid⟩ | ⟨key, event, mid, -, hmid, htaped, -, -, htool⟩
    · refine ⟨[], machine, ?_, h.outside rfl rfl rfl, fun _ h => nomatch h⟩
      rw [ToolBody.run, run_bind_error hmid]
    · obtain ⟨more, machine', hrun, hrest, hof⟩ := ih htaped.taping
      rw [htaped.scope] at hof
      refine ⟨_, machine', ?_, htaped.trans hrest, hof.cons (.fsWrite event) rfl htool⟩
      rw [ToolBody.run, run_bind_ok hmid]
      exact hrun

end Recording

end Tracewake.Recording
