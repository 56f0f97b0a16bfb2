import Mathlib.Data.List.Perm.Subperm
import Tracewake.Recording.Agent

/-!
# What the methods of a session do

Every method of a session takes a course: it moves cursors, serves a recorded call, touches
the world, puts blobs, and hands events to the log that have the scope of their thread. What
a course does is said once, and the methods are gone through once. A property that no part
of a course breaks then holds of every run of a session.
-/

namespace Tracewake.Recording

open JsonText Effects

variable {F D W : Type} [Python F] {α β : Type} {Q : α → Prop}

/-! ## Sessions -/

/-- A session that serves a recording and cannot add to it. -/
structure Session.ReadOnly (session : Session F D) : Prop where
  canRecord : session.canRecord = false
  canReplay : session.canReplay = true
  forked : session.forked = false
  intervention : session.intervention = none
  matcher : session.matcher.isSome = true

/-- The recorded calls that a session serves, if it has a matcher. -/
def Session.recordedCalls (session : Session F D) : Option (List (ModelCallEvent F)) :=
  session.matcher.map fun matcher => matcher.calls.map fun call => call.1

/-- What a method may change of a session: cursors, reports and the like. -/
structure Session.Steady (session session' : Session F D) : Prop where
  redactor : session'.redactor = session.redactor
  runId : session'.runId = session.runId
  mode : session'.mode = session.mode
  canReplay : session'.canReplay = session.canReplay
  intervention : session'.intervention = session.intervention
  recordedCalls : session'.recordedCalls = session.recordedCalls

/-- What a method may change of a session in one call of the agent. -/
structure Session.Settled (session session' : Session F D) : Prop extends
    session.Steady session' where
  currentCallId : session'.currentCallId = session.currentCallId

/-- A method does not take the matcher away. -/
theorem Session.Steady.matcher {session session' : Session F D} (h : session.Steady session')
    (hnone : session'.matcher = none) : session.matcher = none := by
  have hcalls := h.recordedCalls
  rw [Session.recordedCalls, hnone, Session.recordedCalls] at hcalls
  simpa using hcalls.symm

/-- Nothing has changed. -/
theorem Session.Steady.refl (session : Session F D) : session.Steady session :=
  ⟨rfl, rfl, rfl, rfl, rfl, rfl⟩

/-- What changes in two steps changes in their sequence. -/
theorem Session.Steady.trans {session session' session'' : Session F D}
    (h : session.Steady session') (h' : session'.Steady session'') :
    session.Steady session'' where
  redactor := h'.redactor.trans h.redactor
  runId := h'.runId.trans h.runId
  mode := h'.mode.trans h.mode
  canReplay := h'.canReplay.trans h.canReplay
  intervention := h'.intervention.trans h.intervention
  recordedCalls := h'.recordedCalls.trans h.recordedCalls

/-- Serving a request marks the call that is served. -/
theorem Session.Steady.serve [Sha256 D] {base session session' : Session F D}
    {matcher : CallMatcher F} (h : base.Steady session) (h' : base.Steady session')
    (hmatcher : session.matcher = some matcher) (asked : Request) :
    let served := matcher.serve D asked session.report
    session'.Settled { session' with matcher := some served.2.1, report := served.2.2 } := by
  refine ⟨⟨rfl, rfl, rfl, rfl, rfl, ?_⟩, rfl⟩
  rw [h'.recordedCalls, ← h.recordedCalls, Session.recordedCalls, Session.recordedCalls, hmatcher,
    Option.map_some, Option.map_some, CallMatcher.serve_calls]

/-- A method does not change whether the session can record, which depends on its mode. -/
theorem Session.Steady.canRecord {session session' : Session F D} (h : session.Steady session') :
    session'.canRecord = session.canRecord := by
  rw [Session.canRecord, Session.canRecord, h.mode, h.canReplay]

/-- A session that only serves a recording goes on to do so. -/
theorem Session.Steady.readOnly {session session' : Session F D} (h : session.Steady session')
    (hreadOnly : session.ReadOnly) : session'.ReadOnly where
  canRecord := h.canRecord.trans hreadOnly.canRecord
  canReplay := h.canReplay.trans hreadOnly.canReplay
  forked := by
    rw [Session.forked, h.intervention]
    exact hreadOnly.forked
  intervention := h.intervention.trans hreadOnly.intervention
  matcher := by
    refine Option.isSome_iff_ne_none.mpr fun hnone => ?_
    exact Option.isSome_iff_ne_none.mp hreadOnly.matcher (h.matcher hnone)

/-- What is known of the session of a run. A run that is `live` may have effects, and its
redactor and its identifier are given. Any other run serves a recording only. -/
structure Session.Serves (live : Prop) (redactor : Redactor F D) (runId : Text)
    (session : Session F D) : Prop where
  redactor_eq : live → session.redactor = redactor
  runId_eq : live → session.runId = runId
  readOnly : live ∨ session.ReadOnly

/-! ## Worlds -/

/-- The steps that the body of a tool takes on its own lead from one state of the world to a
later one. -/
def ToolBody.Keeps (later : W → W → Prop) : ToolBody F D W → Prop
  | .done _ | .fail _ => True
  | .act step next =>
    (∀ outside, later outside (step outside)) ∧ ∀ outside, (next outside).Keeps later
  | .env _ _ next => ∀ value, (next value).Keeps later
  | .content _ _ next => ∀ data, (next data).Keeps later
  | .pathExists _ _ next => ∀ found, (next found).Keeps later
  | .listing _ _ next => ∀ names, (next names).Keeps later
  | .write _ _ _ next => next.Keeps later

/-- Whatever the world is asked leads to a later state of it. -/
structure World.Keeps (world : World F D W) (later : W → W → Prop) : Prop where
  answers : ∀ call outside, later outside (world.answer call outside).2
  bodies : ∀ name args outside (body : ToolBody F D W),
    (world.answer (.dispatch name args) outside).1 = .ok body → body.Keeps later
  ids : ∀ outside, later outside (world.uuid4 outside).2

omit [Python F] in
/-- Where any state is a later one there is nothing to keep. -/
theorem World.keeps_anything (world : World F D W) : world.Keeps fun _ _ => True where
  answers _ _ := trivial
  bodies name args outside body hbody := by
    clear hbody
    induction body with
    | done outcome => trivial
    | fail raised => trivial
    | act step next ih => exact ⟨fun _ => trivial, ih⟩
    | env source key next ih => exact ih
    | content root path next ih => exact ih
    | pathExists root path next ih => exact ih
    | listing root path next ih => exact ih
    | write root path data next ih => exact ih
  ids _ := trivial

/-! ## Courses -/

/-- The parent that an event of the machine gets in the scope of a tool. -/
def Machine.parent (machine : Machine F D W) : Option Text :=
  (machine.scope.1.filter fun id => id ≠ []).or machine.session.currentCallId

/-- The event is in the scope of the machine's thread. -/
def Machine.Places (machine : Machine F D W) : Event F D → Prop
  | .environment event =>
    event.parentCallId = machine.session.currentCallId ∧ event.toolCallId = machine.scope.2
  | .fsRead event => event.parentCallId = machine.parent ∧ event.toolCallId = machine.scope.2
  | .fsWrite event => event.parentCallId = machine.parent ∧ event.toolCallId = machine.scope.2
  | .outcome event => event.parentCallId = machine.session.currentCallId ∧ event.toolCallId = none
  | _ => False

/-- The machine in another call of the agent. -/
def Machine.calling (machine : Machine F D W) (callId : Text) : Machine F D W :=
  { machine with session := { machine.session with currentCallId := some callId } }

/-- The machine inside a tool. -/
def Machine.inTool (machine : Machine F D W) (parentCallId id : Text) : Machine F D W :=
  { machine with scope := (some parentCallId, some id) }

/-- The machine after an identifier was drawn. -/
def Machine.drawn (machine : Machine F D W) (world : World F D W) : Machine F D W :=
  { machine with outside := (world.uuid4 machine.outside).2 }

variable [Sha256 D] [Pydantic F D]

/-- The machine after `_append`: the hook keeps the event, or it drops it. -/
def Machine.kept (machine : Machine F D W) (recorded : Option (Event F D)) : Machine F D W :=
  match recorded with
  | none => machine
  | some event => { machine with store := machine.store.append machine.session.runId event }

/-- A model call as it is handed to `_append`: its messages are the redactor's, with their
hash, and its parent is the call that the agent is in. -/
structure Machine.Asks (machine : Machine F D W) (call : ModelCallEvent F) : Prop where
  messages : ∃ messages, machine.session.redactor.messages messages = some call.messages
  messagesHash : call.messagesHash = hashMessages F D call.messages
  parentCallId : call.parentCallId = machine.session.currentCallId
  toolCallId : call.toolCallId = none

/-- A tool call as it is handed to `_append`: its arguments are the redactor's, with their
hash, and it has the place that it was called at. -/
structure Machine.Answers (machine : Machine F D W) (parentCallId : Text)
    (request : ToolCallRequest F) (event : ToolCallEvent F D) : Prop where
  parentCallId : event.parentCallId = parentCallId
  toolCallId : event.toolCallId = request.id
  batchIndex : event.batchIndex = request.batchIndex
  name : event.name = request.name
  args : event.args = machine.session.redactor.args request.args
  argsHash : event.argsHash = hashArgs D event.args

/-- What the methods of a session can make of a machine, with the ids of the streams that are
not consumed. Only a run that is `live` has effects. A tool is run in a scope of its own, and
is left with or without an event. -/
inductive Course (world : World F D W) (later : W → W → Prop) (live : Prop) :
    List Text → Machine F D W → List Text → Machine F D W → Prop where
  | refl (opened machine) : Course world later live opened machine opened machine
  | session {opened machine opened' machine' session}
    (before : Course world later live opened machine opened' machine')
    (settled : machine'.session.Settled session) :
    Course world later live opened machine opened' { machine' with session := session }
  | serve {opened machine opened' machine' call}
    (before : Course world later live opened machine opened' machine')
    (recorded : ∃ calls ∈ machine'.session.recordedCalls, call ∈ calls) :
    Course world later live opened machine opened' (machine'.calling call.callId)
  | outside {opened machine opened' machine' outside calls}
    (before : Course world later live opened machine opened' machine')
    (isLive : live) (isLater : later machine'.outside outside) :
    Course world later live opened machine opened'
      { machine' with outside := outside, calls := calls }
  | blobs {opened machine opened' machine' blobs}
    (before : Course world later live opened machine opened' machine') (isLive : live) :
    Course world later live opened machine opened'
      { machine' with store := { machine'.store with blobs := blobs } }
  | append {opened machine opened' machine' event recorded}
    (before : Course world later live opened machine opened' machine') (isLive : live)
    (places : machine'.Places event)
    (redacted : machine'.session.redactor.event event = some recorded) :
    Course world later live opened machine opened' (machine'.kept recorded)
  | create {opened machine opened' machine' call recorded}
    (before : Course world later live opened machine opened' machine') (isLive : live)
    (drawn : call.callId = (world.uuid4 machine'.outside).1) (asks : machine'.Asks call)
    (redacted : machine'.session.redactor.event (.modelCall call) = some recorded) :
    Course world later live opened machine opened'
      (((machine'.drawn world).kept recorded).calling call.callId)
  | stream {opened machine opened' machine'}
    (before : Course world later live opened machine opened' machine') (isLive : live) :
    Course world later live opened machine ((world.uuid4 machine'.outside).1 :: opened')
      (machine'.drawn world)
  | finalize {opened machine opened' machine' call recorded}
    (before : Course world later live opened machine opened' machine') (isLive : live)
    (unconsumed : call.callId ∈ opened') (asks : machine'.Asks call)
    (redacted : machine'.session.redactor.event (.modelCall call) = some recorded) :
    Course world later live opened machine (opened'.erase call.callId)
      ((machine'.kept recorded).calling call.callId)
  | leave {opened machine opened' machine' parentCallId opened'' machine''}
    {request : ToolCallRequest F}
    (before : Course world later live opened machine opened' machine')
    (body : Course world later live opened' (machine'.inTool parentCallId request.id)
      opened'' machine'') :
    Course world later live opened machine opened'' { machine'' with scope := machine'.scope }
  | finish {opened machine opened' machine' parentCallId opened'' machine'' event recorded}
    {request : ToolCallRequest F}
    (before : Course world later live opened machine opened' machine')
    (body : Course world later live opened' (machine'.inTool parentCallId request.id)
      opened'' machine'') (isLive : live)
    (answers : machine''.Answers parentCallId request event)
    (redacted : machine''.session.redactor.event (.toolCall event) = some recorded) :
    Course world later live opened machine opened''
      { machine''.kept recorded with scope := machine'.scope }

section Machines

variable (machine : Machine F D W) (recorded : Option (Event F D))

/-- `_append` leaves the session. -/
@[simp] theorem Machine.kept_session : (machine.kept recorded).session = machine.session := by
  cases recorded <;> rfl

end Machines

namespace Course

variable {world : World F D W} {later : W → W → Prop} {live : Prop}
  {opened opened' : List Text} {machine machine' : Machine F D W}

/-- A course changes of the session what methods may change. -/
theorem steady (h : Course world later live opened machine opened' machine') :
    machine.session.Steady machine'.session := by
  induction h with
  | refl opened machine => exact .refl _
  | session before settled ih => exact ih.trans settled.toSteady
  | serve before recorded ih => exact ih.trans ⟨rfl, rfl, rfl, rfl, rfl, rfl⟩
  | outside before isLive isLater ih => exact ih
  | blobs before isLive ih => exact ih
  | append before isLive places redacted ih =>
    rw [Machine.kept_session]
    exact ih
  | create before isLive drawn asks redacted ih =>
    refine ih.trans ?_
    rw [Machine.calling, Machine.kept_session]
    exact ⟨rfl, rfl, rfl, rfl, rfl, rfl⟩
  | stream before isLive ih => exact ih
  | finalize before isLive unconsumed asks redacted ih =>
    refine ih.trans ?_
    rw [Machine.calling, Machine.kept_session]
    exact ⟨rfl, rfl, rfl, rfl, rfl, rfl⟩
  | leave before body ih ih' => exact ih.trans ih'
  | finish before body isLive answers redacted ih ih' =>
    refine ih.trans (ih'.trans ?_)
    rw [Machine.kept_session]
    exact .refl _

end Course

/-- Where a run of methods begins: the world with what is later in it, the streams that are
not consumed, and the machine. -/
structure Origin (F D W : Type) [Python F] where
  world : World F D W
  later : W → W → Prop
  live : Prop
  opened : List Text
  machine : Machine F D W
  keeps : world.Keeps later
  served : live ∨ machine.session.ReadOnly

/-- The machine is reached by a course that leaves the given streams unconsumed. -/
def Origin.Reaches (origin : Origin F D W) (pending : List Text) (machine : Machine F D W) :
    Prop :=
  ∃ opened, Course origin.world origin.later origin.live origin.opened origin.machine opened
    machine ∧ pending.Subperm opened

/-! ## Methods without effects -/

section Pure

variable {P : Machine F D W → Prop}

omit [Sha256 D] [Pydantic F D] in
/-- A miss raises. -/
theorem ensures_miss {reason : Miss} : Ensures P (miss reason : Py F D W α) Q :=
  Ensures.raise

omit [Sha256 D] [Pydantic F D] in
/-- What a method has raised is kept for later. -/
theorem triple_attempt {body : Py F D W α} {Q : α → Machine F D W → Prop}
    {E : Machine F D W → Prop} (h : Triple P body Q E) :
    Triple P (attempt body)
      (fun result machine => (∀ a, result = .ok a → Q a machine) ∧
        ∀ raised, result = .error raised → E machine) fun _ => False := by
  refine Triple.handle (E := E) ?_ fun raised => Triple.ret fun machine hmachine => ?_
  · rw [map_eq_pure_bind]
    refine h.bind fun a => Triple.ret fun machine hmachine => ?_
    refine ⟨fun b hb => ?_, fun raised hraised => nomatch hraised⟩
    cases hb
    exact hmachine
  · exact ⟨nofun, fun _ _ => hmachine⟩

omit [Pydantic F D] in
/-- A blob is only read. -/
theorem ensures_getBlob [DecidableEq D] (digest : D) :
    Ensures P (getBlob digest) fun _ => True := by
  refine Ensures.read.seq fun machine => ?_
  split
  · exact .ret trivial
  · exact .raise

omit [Sha256 D] [Pydantic F D] in
/-- A missing file is no error of a tool's body. -/
theorem ensures_orMissing {read : Py F D W α} (h : Ensures P read fun _ => True) :
    Ensures P (orMissing read) fun _ => True := by
  refine Ensures.attempt ?_ fun raised => ?_
  · rw [map_eq_pure_bind]
    exact h.seq fun _ => .ret trivial
  · split
    · exact .ret trivial
    · exact .raise

end Pure

/-- `_append` raises and changes nothing, or it keeps what the redactor made of the event. -/
theorem append_cases (event : Event F D) (machine : Machine F D W) :
    (∃ raised, append event machine = (.error raised, machine)) ∨
      ∃ recorded, machine.session.canRecord = true ∧
        machine.session.redactor.event event = some recorded ∧
        append event machine = (.ok ⟨⟩, machine.kept recorded) := by
  have hsession : (getSession : Py F D W _) machine = (.ok machine.session, machine) := rfl
  rw [append, run_bind_ok hsession]
  cases hrecords : machine.session.canRecord with
  | false =>
    exact .inl ⟨.replayMiss (.readOnly event.type machine.session.runId machine.session.mode), rfl⟩
  | true =>
    cases hredacted : machine.session.redactor.event event with
    | none => exact .inl ⟨.invalid, rfl⟩
    | some recorded =>
      refine .inr ⟨recorded, rfl, rfl, ?_⟩
      cases recorded <;> rfl

omit [Sha256 D] [Pydantic F D] in
/-- An attempt never raises: it returns what its body did. -/
theorem attempt_eq (body : Py F D W α) (machine : Machine F D W) :
    attempt body machine = (.ok (body machine).1, (body machine).2) := by
  rw [attempt, run_tryCatch, map_eq_pure_bind, run_bind]
  rcases body machine with ⟨raised | a, after⟩ <;> rfl

/-- A tool is called in its scope, and the scope that was there is put back. -/
theorem toolsCall_eq [DecidableEq D] (world : World F D W) (machine : Machine F D W)
    (dispatch : Bool) (parentCallId : Text) (request : ToolCallRequest F) :
    toolsCall world dispatch parentCallId request machine =
      let called := callTool world dispatch parentCallId request
        (machine.inTool parentCallId request.id)
      (called.1, { called.2 with scope := machine.scope }) := by
  rw [toolsCall]
  refine (run_bind_ok (run_get _)).trans ((run_bind_ok (run_modify _ _)).trans ?_)
  refine (run_bind_ok (attempt_eq _ _)).trans ((run_bind_ok (run_modify _ _)).trans ?_)
  dsimp only [Machine.inTool]
  rcases callTool world dispatch parentCallId request
    { machine with scope := (some parentCallId, some request.id) } with ⟨raised | outcome, after⟩
  · rfl
  · rfl

namespace Origin

variable {origin : Origin F D W} {pending : List Text} {machine : Machine F D W}

/-! ## The session -/

/-- A machine that is reached has the session of the beginning, up to what methods change. -/
theorem Reaches.steady (h : origin.Reaches pending machine) :
    origin.machine.session.Steady machine.session := by
  obtain ⟨opened, hcourse, -⟩ := h
  exact hcourse.steady

omit [Sha256 D] [Pydantic F D] in
/-- A session that passes the check of `can_record` is that of a live run. -/
theorem live_of_canRecord {session : Session F D} (h : origin.machine.session.Steady session)
    (hcan : ¬ (!session.canRecord) = true) : origin.live :=
  origin.served.resolve_right fun hreadOnly => by
    rw [h.canRecord, hreadOnly.canRecord] at hcan
    exact hcan rfl

omit [Sha256 D] [Pydantic F D] in
/-- A session that does not look into its recording is that of a live run. -/
theorem live_of_skips {session : Session F D} (h : origin.machine.session.Steady session)
    (hskips : (!session.canReplay || session.forked) = true) : origin.live :=
  origin.served.resolve_right fun hreadOnly => by
    have hsession := h.readOnly hreadOnly
    simp [hsession.canReplay, hsession.forked] at hskips

/-- The session that a method looks at is that of the run. -/
theorem ensures_getSession :
    Ensures (origin.Reaches pending) getSession origin.machine.session.Steady :=
  Ensures.read.bind fun _ hmachine => .ret hmachine.steady

/-- Cursors, reports and the like may change. -/
theorem ensures_modifySession {change : Session F D → Session F D}
    (h : ∀ session, origin.machine.session.Steady session → session.Settled (change session)) :
    Ensures (origin.Reaches pending) (modifySession change) fun _ => True := by
  refine Ensures.change fun machine hmachine => ?_
  have hsettled := h machine.session hmachine.steady
  obtain ⟨opened, hcourse, hpending⟩ := hmachine
  exact ⟨opened, hcourse.session hsettled, hpending⟩

/-- The agent goes on in a recorded call that was served. -/
theorem ensures_calling {call : ModelCallEvent F}
    (hcall : ∃ calls ∈ origin.machine.session.recordedCalls, call ∈ calls) :
    Ensures (origin.Reaches pending) (modifySession fun session =>
      { session with currentCallId := some call.callId }) fun _ => True := by
  refine Ensures.change fun machine hmachine => ?_
  rw [← hmachine.steady.recordedCalls] at hcall
  obtain ⟨opened, hcourse, hpending⟩ := hmachine
  exact ⟨opened, hcourse.serve hcall, hpending⟩

/-! ## Effects -/

section Live

variable (hlive : origin.live)

include hlive

/-- A call to the outside changes the world and the list of calls. -/
theorem ensures_perform (call : OutsideCall F) :
    Ensures (origin.Reaches pending) (perform origin.world call)
      fun answer => ∃ outside, (origin.world.answer call outside).1 = .ok answer := by
  intro machine hmachine
  obtain ⟨opened, hcourse, hpending⟩ := hmachine
  refine ⟨⟨opened, hcourse.outside hlive (origin.keeps.answers call _), hpending⟩, ?_⟩
  exact fun answer hanswer => ⟨machine.outside, hanswer⟩

/-- A step of a tool's body changes the world. -/
theorem ensures_outside {step : W → W} (hstep : ∀ outside, origin.later outside (step outside)) :
    Ensures (origin.Reaches pending) (modify fun machine =>
      { machine with outside := step machine.outside } : Py F D W PUnit) fun _ => True := by
  refine Ensures.change fun machine hmachine => ?_
  obtain ⟨opened, hcourse, hpending⟩ := hmachine
  exact ⟨opened, hcourse.outside hlive (hstep _), hpending⟩

/-- Storing a blob changes no row. -/
theorem ensures_putBlob [DecidableEq D] (data : List UInt8) :
    Ensures (origin.Reaches pending) (putBlob data : Py F D W (BlobRef D)) fun _ => True := by
  refine Ensures.update (fun machine hmachine => ?_) fun _ _ => trivial
  simp only [Store.put]
  split
  · exact hmachine
  · obtain ⟨opened, hcourse, hpending⟩ := hmachine
    exact ⟨opened, hcourse.blobs hlive, hpending⟩

/-- A row is added for an event that has the scope of the machine. -/
theorem triple_append (event : Event F D) :
    Triple (fun machine : Machine F D W => machine.Places event ∧ origin.Reaches pending machine)
      (append event) (fun _ => origin.Reaches pending) (origin.Reaches pending) := by
  rintro machine ⟨hplaces, hmachine⟩
  rcases append_cases event machine with ⟨raised, hrun⟩ | ⟨recorded, -, hredacted, hrun⟩
  · rw [hrun]
    constructor
    · intro a machine' hcase
      cases hcase
    · intro e machine' hcase
      cases hcase
      exact hmachine
  · rw [hrun]
    constructor
    · intro a machine' hcase
      cases hcase
      obtain ⟨opened, hcourse, hpending⟩ := hmachine
      exact ⟨opened, hcourse.append hlive hplaces hredacted, hpending⟩
    · intro e machine' hcase
      cases hcase

/-- An event with the fields of the scope is handed to `_append`. -/
theorem ensures_scoped {event : EventBase F → Event F D} {rest : PUnit → Py F D W α}
    (hevent : ∀ (machine : Machine F D W) base, base.parentCallId = machine.parent →
      base.toolCallId = machine.scope.2 → machine.Places (event base))
    (hrest : ∀ u, Ensures (origin.Reaches pending) (rest u) Q) :
    Ensures (origin.Reaches pending)
      (scopeFields origin.world >>= fun base => append (event base) >>= rest) Q := by
  refine Triple.ensures (Triple.bind (Q := fun base machine =>
    machine.Places (event base) ∧ origin.Reaches pending machine) ?_ fun base => ?_)
  · refine Triple.read.bind fun machine => Triple.ret ?_
    rintro _ ⟨rfl, hmachine⟩
    exact ⟨hevent machine _ rfl rfl, hmachine⟩
  · exact (triple_append hlive _).bind fun u => Triple.of_ensures (hrest u)

end Live

/-! ## The environment -/

/-- A turn of the agent is counted, and an intervention drops messages. -/
theorem ensures_turnMessages (messages : List Message) :
    Ensures (origin.Reaches pending) (turnMessages messages) fun _ => True := by
  refine ensures_getSession.seq fun session => ?_
  refine Ensures.seq (ensures_modifySession fun _ _ => ⟨⟨rfl, rfl, rfl, rfl, rfl, rfl⟩, rfl⟩)
    fun _ => ?_
  cases session.intervention with
  | none => exact .ret trivial
  | some intervention =>
    refine Ensures.branch (fun _ => .ret trivial) fun _ => ?_
    exact Ensures.seq (ensures_modifySession fun _ _ => ⟨⟨rfl, rfl, rfl, rfl, rfl, rfl⟩, rfl⟩)
      fun _ => .ret trivial

/-- A recorded value is served by moving a cursor. -/
theorem ensures_popEnv (source : EnvironmentSource) (key : Option Text) :
    Ensures (origin.Reaches pending) (popEnv source key) fun _ => True := by
  refine ensures_getSession.seq fun session => ?_
  dsimp only
  split
  · exact Ensures.seq (ensures_modifySession fun _ _ => ⟨⟨rfl, rfl, rfl, rfl, rfl, rfl⟩, rfl⟩)
      fun _ => .ret trivial
  · exact .ret trivial

/-- A value that was not recorded is only produced by a session that can record. -/
theorem ensures_envValue (source : EnvironmentSource) (key : Option Text) :
    Ensures (origin.Reaches pending) (envValue origin.world source key) fun _ => True := by
  have hrecorded : Ensures (origin.Reaches pending)
      (recordedEnv (W := W) (F := F) (D := D) source key) fun _ => True := by
    refine ensures_getSession.seq fun session => ?_
    exact .branch (fun _ => ensures_popEnv source key) fun _ => .ret trivial
  refine hrecorded.seq fun value => ?_
  cases value with
  | some value => exact ensures_getSession.seq fun _ => .ret trivial
  | none =>
    refine ensures_getSession.bind fun session hsteady => ?_
    refine Ensures.branch (fun _ => ensures_miss.never) fun hcan => ?_
    have hlive := live_of_canRecord hsteady hcan
    refine (ensures_perform hlive _).seq fun value => ?_
    refine Triple.ensures (Triple.read.bind fun machine => ?_)
    refine Triple.bind ((triple_append hlive _).weaken ?_ (fun _ _ h => h) fun _ h => h)
      fun _ => Triple.of_ensures (.ret trivial)
    rintro _ ⟨rfl, hmachine⟩
    exact ⟨⟨rfl, rfl⟩, hmachine⟩

/-! ## The file system -/

/-- Where a recording has run out, only a live run goes on. -/
theorem ensures_missFs (path kind : Text) (recorded : ℕ) :
    Ensures (origin.Reaches pending) (missFs path kind recorded) fun _ => origin.live := by
  refine ensures_getSession.bind fun session hsteady => ?_
  refine Ensures.branch (fun _ => ?_) fun hcan => .ret (live_of_canRecord hsteady hcan)
  exact .branch (fun _ => ensures_miss) fun _ => ensures_miss

/-- A read is served from the recording, unless the run is live. -/
theorem ensures_replayRead (kind : ReadKind) (path : Text) :
    Ensures (origin.Reaches pending) (replayRead kind path)
      fun recorded => recorded = none → origin.live := by
  refine ensures_getSession.bind fun session hsteady => ?_
  refine Ensures.branch (fun hskips => .ret fun _ => live_of_skips hsteady hskips) fun _ => ?_
  dsimp only
  split
  · exact Ensures.seq (ensures_modifySession fun _ _ => ⟨⟨rfl, rfl, rfl, rfl, rfl, rfl⟩, rfl⟩)
      fun _ => .ret nofun
  · exact (ensures_missFs _ _ _).bind fun _ hlive => .ret fun _ => hlive

/-- A write is checked against the recording, unless the run is live. -/
theorem ensures_replayWrite (path : Text) :
    Ensures (origin.Reaches pending) (replayWrite path)
      fun recorded => recorded = none → origin.live := by
  refine ensures_getSession.bind fun session hsteady => ?_
  refine Ensures.branch (fun hskips => .ret fun _ => live_of_skips hsteady hskips) fun _ => ?_
  dsimp only
  split
  · exact Ensures.seq (ensures_modifySession fun _ _ => ⟨⟨rfl, rfl, rfl, rfl, rfl, rfl⟩, rfl⟩)
      fun _ => .ret nofun
  · exact (ensures_missFs _ _ _).bind fun _ hlive => .ret fun _ => hlive

/-- A path is located without any effect. -/
theorem ensures_locate (root : Option Text) (path : Text) :
    Ensures (origin.Reaches pending) (locate origin.world root path) fun _ => True := by
  refine ensures_getSession.seq fun session => ?_
  split
  · exact .ret trivial
  · split
    · exact .raise
    · exact .ret trivial

section Files

variable [DecidableEq D]

/-- A file is read from the recording, or from the world, and then the read is recorded. -/
theorem ensures_readBytes (root : Option Text) (path : Text) :
    Ensures (origin.Reaches pending) (readBytes origin.world root path) fun _ => True := by
  refine (ensures_locate root path).seq fun (key, target) => ?_
  refine (ensures_replayRead _ key).bind fun recorded hrecorded => ?_
  cases recorded with
  | some recorded =>
    dsimp only
    split
    · exact ensures_getBlob _
    · exact .raise
  | none =>
    have hlive := hrecorded rfl
    refine (ensures_perform hlive _).seq fun (found : Bool) => ?_
    refine Ensures.branch (fun _ => ?_) fun _ => ?_
    · refine (ensures_perform hlive _).seq fun data => ?_
      refine (ensures_putBlob hlive _).seq fun content => ?_
      exact ensures_scoped hlive (fun _ _ hparent htool => ⟨hparent, htool⟩) fun _ => .ret trivial
    · exact ensures_scoped hlive (fun _ _ hparent htool => ⟨hparent, htool⟩) fun _ => .raise

omit [DecidableEq D] in
/-- Whether a path exists is read like a file. -/
theorem ensures_fileExists (root : Option Text) (path : Text) :
    Ensures (origin.Reaches pending) (fileExists origin.world root path) fun _ => True := by
  refine (ensures_locate root path).seq fun (key, target) => ?_
  refine (ensures_replayRead _ key).bind fun recorded hrecorded => ?_
  cases recorded with
  | some recorded => exact .ret trivial
  | none =>
    have hlive := hrecorded rfl
    refine (ensures_perform hlive _).seq fun found => ?_
    exact ensures_scoped hlive (fun _ _ hparent htool => ⟨hparent, htool⟩) fun _ => .ret trivial

/-- A listing is read like a file, and is stored sorted. -/
theorem ensures_listDir (root : Option Text) (path : Text) :
    Ensures (origin.Reaches pending) (listDir origin.world root path) fun _ => True := by
  refine (ensures_locate root path).seq fun (key, target) => ?_
  refine (ensures_replayRead _ key).bind fun recorded hrecorded => ?_
  cases recorded with
  | some recorded =>
    dsimp only
    split
    · refine (ensures_getBlob _).seq fun data => ?_
      split
      · exact .ret trivial
      · exact .raise
    · exact .raise
  | none =>
    have hlive := hrecorded rfl
    refine (ensures_perform hlive _).seq fun (found : Bool) => ?_
    refine Ensures.branch (fun _ => ?_) fun _ => ?_
    · refine (ensures_perform hlive _).seq fun names => ?_
      refine (ensures_putBlob hlive _).seq fun content => ?_
      exact ensures_scoped hlive (fun _ _ hparent htool => ⟨hparent, htool⟩) fun _ => .ret trivial
    · exact ensures_scoped hlive (fun _ _ hparent htool => ⟨hparent, htool⟩) fun _ => .raise

/-- A write is compared with the recording, or carried out and recorded. -/
theorem ensures_writeBytes (root : Option Text) (path : Text) (data : List UInt8) :
    Ensures (origin.Reaches pending) (writeBytes origin.world root path data) fun _ => True := by
  refine (ensures_locate root path).seq fun (key, target) => ?_
  refine (ensures_replayWrite key).bind fun recorded hrecorded => ?_
  cases recorded with
  | some recorded =>
    refine ensures_getSession.seq fun session => ?_
    exact .branch (fun _ => ensures_miss) fun _ => .ret trivial
  | none =>
    have hlive := hrecorded rfl
    refine (ensures_perform hlive _).seq fun _ => ?_
    refine (ensures_putBlob hlive _).seq fun content => ?_
    have hscoped : Ensures (origin.Reaches pending) (scopeFields origin.world >>= fun base =>
        append (.fsWrite { base with path := key, content }) >>= pure) fun _ => True :=
      ensures_scoped hlive (fun _ _ hparent htool => ⟨hparent, htool⟩) fun _ => .ret trivial
    simpa only [bind_pure] using hscoped

end Files

/-! ## Tools -/

section Tools

variable [DecidableEq D]

/-- The body of a tool records through the session. It only runs in a live run. -/
theorem ensures_toolBody (hlive : origin.live) {body : ToolBody F D W}
    (hbody : body.Keeps origin.later) :
    Ensures (origin.Reaches pending) (body.run origin.world) fun _ => True := by
  induction body with
  | done outcome => exact .ret trivial
  | fail raised => exact .raise
  | act step next ih =>
    refine (ensures_outside hlive hbody.1).seq fun _ => ?_
    exact Ensures.read.seq fun machine => ih machine.outside (hbody.2 machine.outside)
  | env source key next ih =>
    exact (ensures_envValue source key).seq fun value => ih value (hbody value)
  | content root path next ih =>
    exact (ensures_orMissing (ensures_readBytes root path)).seq fun data => ih data (hbody data)
  | pathExists root path next ih =>
    exact (ensures_fileExists root path).seq fun found => ih found (hbody found)
  | listing root path next ih =>
    exact (ensures_orMissing (ensures_listDir root path)).seq fun names => ih names (hbody names)
  | write root path data next ih =>
    exact (ensures_writeBytes root path data).seq fun _ => ih hbody

/-- A tool that is called leaves the machine where a course leads, or hands its event to
`_append` there. The arguments that are stored are the redactor's, and the hash is theirs. -/
theorem triple_callTool (dispatch : Bool) (parentCallId : Text) (request : ToolCallRequest F)
    {E : Machine F D W → Prop} (hleave : ∀ machine, origin.Reaches pending machine → E machine)
    (hfinish : ∀ machine event recorded, origin.live → origin.Reaches pending machine →
      machine.Answers parentCallId request event →
      machine.session.redactor.event (.toolCall event) = some recorded →
      E (machine.kept recorded)) :
    Triple (origin.Reaches pending) (callTool origin.world dispatch parentCallId request)
      (fun _ => E) E := by
  have hquiet {x : Py F D W ToolOutcome}
      (hx : Ensures (origin.Reaches pending) x fun _ => True) :
      Triple (origin.Reaches pending) x (fun _ => E) E :=
    (Triple.of_ensures hx).weaken (fun _ h => h) (fun _ machine h => hleave machine h.1) hleave
  have hbind {β : Type} {Q : β → Prop} {x : Py F D W β} {f : β → Py F D W ToolOutcome}
      (hx : Ensures (origin.Reaches pending) x Q)
      (hf : ∀ b, Q b → Triple (origin.Reaches pending) (f b) (fun _ => E) E) :
      Triple (origin.Reaches pending) (x >>= f) (fun _ => E) E := by
    refine ((Triple.of_ensures hx).weaken (fun _ h => h) (fun _ _ h => h) hleave).bind fun b => ?_
    rintro machine ⟨hmachine, hb⟩
    exact hf b hb machine hmachine
  refine hbind ensures_getSession fun session hsteady => ?_
  have hrecorded : Ensures (origin.Reaches pending)
      (recordedTool (W := W) (D := D) parentCallId request) fun _ => True :=
    ensures_getSession.seq fun _ => .ret trivial
  refine hbind hrecorded fun recorded _ => ?_
  dsimp only
  split
  · refine hquiet (Ensures.seq (ensures_modifySession fun _ _ =>
      ⟨⟨rfl, rfl, rfl, rfl, rfl, rfl⟩, rfl⟩) fun _ => ?_)
    refine (ensures_getBlob _).seq fun data => ?_
    split
    · exact .ret trivial
    · exact .raise
  refine Triple.branch (fun _ => hquiet ?_) fun hcan => ?_
  · split
    · exact ensures_miss.never
    · exact ensures_miss.never
  have hlive := live_of_canRecord hsteady hcan
  refine Triple.branch (fun _ => hquiet ensures_miss.never) fun _ => ?_
  refine hbind (ensures_perform hlive _) fun (body : ToolBody F D W) hanswer => ?_
  obtain ⟨outside, hanswer⟩ := hanswer
  have hbody := origin.keeps.bodies _ _ outside body hanswer
  refine hbind (ensures_toolBody hlive hbody) fun outcome _ => ?_
  refine hbind (ensures_putBlob hlive _) fun result _ => ?_
  refine Triple.read.bind fun machine => ?_
  rintro _ ⟨rfl, hmachine⟩
  have hredactor : session.redactor = machine.session.redactor :=
    hsteady.redactor.trans hmachine.steady.redactor.symm
  rcases append_cases (.toolCall {
      parentCallId, toolCallId := request.id, batchIndex := request.batchIndex
      name := request.name, args := session.redactor.args request.args
      argsHash := hashArgs D (session.redactor.args request.args), result
      status := outcome.status, error := outcome.error
      eventMeta := origin.world.eventMeta machine.outside }) machine with
    ⟨raised, hrun⟩ | ⟨recorded, -, hredacted, hrun⟩
  · rw [run_bind_error hrun]
    constructor
    · intro a machine' hcase
      cases hcase
    · intro e machine' hcase
      cases hcase
      exact hleave machine hmachine
  · rw [run_bind_ok hrun]
    constructor
    · intro a machine' hcase
      cases hcase
      refine hfinish machine _ recorded hlive hmachine ⟨rfl, rfl, rfl, rfl, ?_, rfl⟩ hredacted
      rw [hredactor]
    · intro e machine' hcase
      cases hcase

/-- The scope of a call is put back, also when the call raises. -/
theorem ensures_toolsCall (dispatch : Bool) (parentCallId : Text)
    (request : ToolCallRequest F) :
    Ensures (origin.Reaches pending) (toolsCall origin.world dispatch parentCallId request)
      fun _ => True := by
  intro before hbefore
  rw [toolsCall_eq]
  refine ⟨?_, fun _ _ => trivial⟩
  have hsteady := hbefore.steady
  obtain ⟨opened, hcourse, hpending⟩ := hbefore
  -- In the scope of the tool another run of methods begins.
  let inner : Origin F D W := {
    origin with
    opened := opened, machine := before.inTool parentCallId request.id
    served := origin.served.imp_right hsteady.readOnly }
  let Left (machine : Machine F D W) : Prop :=
    origin.Reaches pending { machine with scope := before.scope }
  have hcall : Triple (inner.Reaches opened)
      (callTool inner.world dispatch parentCallId request) (fun _ => Left) Left := by
    apply triple_callTool
    · rintro machine ⟨opened', hinside, hsub⟩
      exact ⟨opened', hcourse.leave hinside, hpending.trans hsub⟩
    · rintro machine event recorded hlive ⟨opened', hinside, hsub⟩ hanswers hredacted
      exact ⟨opened', hcourse.finish hinside hlive hanswers hredacted, hpending.trans hsub⟩
  obtain ⟨hreturns, hraises⟩ := hcall (before.inTool parentCallId request.id)
    ⟨opened, .refl _ _, List.Subperm.refl _⟩
  rcases hrun : callTool origin.world dispatch parentCallId request
    (before.inTool parentCallId request.id) with ⟨raised | outcome, machine⟩
  · exact hraises raised machine hrun
  · exact hreturns outcome machine hrun

end Tools

/-! ## Models and streams -/

/-- A request is served from the recording, unless the run is live. -/
theorem ensures_matched (request : ModelRequest F) (messages : List Message) :
    Ensures (origin.Reaches pending) (matched (W := W) (D := D) request messages) fun hit =>
      (hit = none → origin.live) ∧ ∀ call, hit = some call →
        ∃ calls ∈ origin.machine.session.recordedCalls, call ∈ calls := by
  refine ensures_getSession.bind fun session hsteady => ?_
  split
  · next hnone =>
    refine .ret ⟨fun _ => origin.served.resolve_right fun hreadOnly => ?_, fun call hcall => ?_⟩
    · simpa [hnone] using (hsteady.readOnly hreadOnly).matcher
    · cases hcall
  · next matcher hmatcher =>
    have hcalls : (some (matcher.calls.map fun call => call.1)) =
        origin.machine.session.recordedCalls := by
      rw [← hsteady.recordedCalls, Session.recordedCalls, hmatcher, Option.map_some]
    split
    · exact .raise
    · next redacted _ =>
      refine Ensures.seq (ensures_modifySession fun _ hsteady' =>
        hsteady.serve hsteady' hmatcher _) fun _ => ?_
      refine Ensures.branch (fun _ => ensures_miss.never) fun hserved => .ret ⟨fun hhit => ?_, ?_⟩
      · refine live_of_canRecord hsteady fun hcannot => hserved ?_
        rw [hhit, hcannot]
        rfl
      · intro call hhit
        exact ⟨_, hcalls.symm, List.mem_map.mpr (CallMatcher.mem_of_serve hhit)⟩

/-- Handing a model call to `_append` raises and changes nothing, or the call is the one that
the agent is in from then on. -/
theorem appendModelCall_cases (world : World F D W) (callId : Text) (request : ModelRequest F)
    (messages : List Message) (response : ModelResponse F) (stream : Option (StreamRecord F))
    (machine : Machine F D W) :
    (∃ raised, appendModelCall world callId request messages response stream machine =
        (.error raised, machine)) ∨
      ∃ (call : ModelCallEvent F) (recorded : Option (Event F D)) (session : Session F D),
        machine.session.canRecord = true ∧ call.callId = callId ∧ machine.Asks call ∧
        machine.session.redactor.event (.modelCall call) = some recorded ∧
        ((machine.kept recorded).calling call.callId).session.Settled session ∧
        appendModelCall world callId request messages response stream machine =
          (.ok ⟨⟩, { (machine.kept recorded).calling call.callId with session := session }) := by
  rw [appendModelCall, run_bind_ok (run_get machine)]
  cases hstored : machine.session.redactor.messages messages with
  | none => exact .inl ⟨.invalid, rfl⟩
  | some stored =>
    by_cases hreassembles : StreamReassembles stream response
    · simp only [dif_pos hreassembles]
      rcases append_cases _ machine with ⟨raised, hrun⟩ | ⟨recorded, hrecords, hredacted, hrun⟩
      · exact .inl ⟨raised, run_bind_error hrun⟩
      · refine .inr ⟨_, recorded, _, hrecords, rfl, ⟨⟨messages, hstored⟩, rfl, rfl, rfl⟩,
          hredacted, ?_, (run_bind_ok hrun).trans rfl⟩
        exact ⟨⟨rfl, rfl, rfl, rfl, rfl, rfl⟩, rfl⟩
    · simp only [dif_neg hreassembles]
      exact .inl ⟨.invalid, rfl⟩

/-- A model call is served from the recording, or answered by the backend and recorded. -/
theorem ensures_create (request : ModelRequest F) :
    Ensures (origin.Reaches pending) (Model.create origin.world request) fun _ => True := by
  refine (ensures_turnMessages _).seq fun messages => ?_
  refine (ensures_matched request messages).bind fun hit hhit => ?_
  cases hit with
  | some hit =>
    refine Ensures.seq (ensures_calling (hhit.2 hit rfl)) fun _ => ?_
    exact .branch (fun _ => ensures_miss.never) fun _ => .ret trivial
  | none =>
    have hlive := hhit.1 rfl
    refine ensures_getSession.seq fun session => ?_
    refine Ensures.branch (fun _ => ensures_miss.never) fun _ => ?_
    refine (ensures_perform hlive _).seq fun response => ?_
    -- The identifier is drawn for this call, so both are one part of the course.
    intro machine hmachine
    obtain ⟨opened, hcourse, hpending⟩ := hmachine
    have huuid : uuid4 origin.world machine =
        (.ok (origin.world.uuid4 machine.outside).1, machine.drawn origin.world) := rfl
    rw [run_bind_ok huuid]
    rcases appendModelCall_cases origin.world (origin.world.uuid4 machine.outside).1 request
      messages response none (machine.drawn origin.world) with
      ⟨raised, hrun⟩ | ⟨call, recorded, session, -, hid, hasks, hredacted, hsettled, hrun⟩
    · rw [run_bind_error hrun]
      exact ⟨⟨opened, hcourse.outside hlive (origin.keeps.ids _), hpending⟩, fun _ _ => trivial⟩
    · rw [run_bind_ok hrun]
      refine ⟨⟨opened, ?_, hpending⟩, fun _ _ => trivial⟩
      exact (hcourse.create hlive hid ⟨hasks.messages, hasks.messagesHash, hasks.parentCallId,
        hasks.toolCallId⟩ hredacted).session hsettled

end Origin

/-- The stream that a handle has not consumed, if it is a new one. -/
def StreamHandle.pending (handle : StreamHandle F D) : List Text :=
  match handle.response, handle.onFinish with
  | none, .live _ _ => [handle.callId]
  | _, _ => []

namespace Origin

variable {origin : Origin F D W} {pending : List Text}

/-- A stream that is opened is served from the recording, or it is a new one that is not
consumed. -/
theorem triple_stream (request : ModelRequest F) :
    Triple (origin.Reaches pending) (Model.stream origin.world request)
      (fun handle => origin.Reaches (pending ++ handle.pending)) (origin.Reaches pending) := by
  refine (Triple.of_ensures (ensures_turnMessages _)).bind fun messages => ?_
  refine ((Triple.of_ensures (ensures_matched request messages)).weaken (fun _ h => h.1)
    (fun _ _ h => h) fun _ h => h).bind fun hit => ?_
  cases hit with
  | some hit =>
    rintro machine ⟨hmachine, -, hhit⟩
    refine ((Triple.of_ensures (Q := fun handle => handle.pending = []) ?_).weaken (fun _ h => h)
      (fun handle machine h => ?_) fun _ h => h) machine hmachine
    · refine Ensures.seq (ensures_calling (hhit hit rfl)) fun _ => ?_
      split
      · exact ensures_miss
      · exact .ret rfl
    · rw [h.2, List.append_nil]
      exact h.1
  | none =>
    rintro machine ⟨hmachine, hhit, -⟩
    have hlive := hhit rfl
    have hdrawn : Triple (origin.Reaches pending) (uuid4 origin.world)
        (fun callId => origin.Reaches (pending ++ [callId])) (origin.Reaches pending) := by
      refine Triple.update fun machine hmachine => ?_
      obtain ⟨opened, hcourse, hpending⟩ := hmachine
      refine ⟨_, hcourse.stream hlive, ?_⟩
      exact (List.perm_append_singleton _ _).subperm.trans ((List.subperm_cons _).mpr hpending)
    refine (hdrawn.bind fun callId => ?_) machine hmachine
    refine (Triple.of_ensures (Q := fun handle => handle.pending = [callId]) ?_).weaken
      (fun _ h => h) (fun handle machine h => ?_) fun machine h => ?_
    · refine ensures_getSession.seq fun session => ?_
      refine Ensures.branch (fun _ => ensures_miss.never) fun _ => ?_
      exact (ensures_perform hlive _).seq fun _ => .ret rfl
    · rw [h.2]
      exact h.1
    · obtain ⟨opened, hcourse, hpending⟩ := h
      exact ⟨opened, hcourse, (List.sublist_append_left _ _).subperm.trans hpending⟩

/-- A stream that ends is recorded and consumed, unless it was served from the recording. -/
theorem triple_finalize {handle : StreamHandle F D} (h : handle.response = none) :
    Triple (origin.Reaches (handle.pending ++ pending)) (handle.finalize origin.world)
      (fun _ => origin.Reaches pending) (origin.Reaches (handle.pending ++ pending)) := by
  rw [StreamHandle.finalize]
  split
  · next response hfinish =>
    refine Triple.ret fun machine hmachine => ?_
    rwa [StreamHandle.pending, h, hfinish] at hmachine
  · next request messages hfinish =>
    have hhandle : handle.pending = [handle.callId] := by
      rw [StreamHandle.pending, h, hfinish]
    intro machine hmachine
    rw [hhandle] at hmachine ⊢
    rcases appendModelCall_cases origin.world handle.callId request messages
      (handle.returned.getD (partialResponse handle.chunks)) (some ⟨handle.chunks⟩) machine with
      ⟨raised, hrun⟩ | ⟨call, recorded, session, hrecords, hid, hasks, hredacted, hsettled, hrun⟩
    · rw [run_bind_error hrun]
      constructor
      · intro a machine' hcase
        cases hcase
      · intro e machine' hcase
        cases hcase
        exact hmachine
    · rw [run_bind_ok hrun]
      constructor
      · intro a machine' hcase
        cases hcase
        have hlive : origin.live := live_of_canRecord hmachine.steady (by simp [hrecords])
        obtain ⟨opened, hcourse, hpending⟩ := hmachine
        rw [← hid] at hpending
        have hopened : call.callId ∈ opened := hpending.subset List.mem_cons_self
        refine ⟨_, (hcourse.finalize hlive hopened hasks hredacted).session hsettled, ?_⟩
        simpa using hpending.erase call.callId
      · intro e machine' hcase
        cases hcase

/-- A stream that was not left ends with its last step, or with what `finalize` raises. -/
theorem triple_ends (handle : StreamHandle F D) (h : handle.response = none)
    (last : StreamStep F D) :
    Triple (origin.Reaches (handle.pending ++ pending)) (do
      match ← attempt (handle.finalize origin.world) with
      | .ok response => return (last, { handle with response := some response })
      | .error raised => return (.raised raised, handle) :
        Py F D W (StreamStep F D × StreamHandle F D))
      (fun result => origin.Reaches (result.2.pending ++ pending)) fun _ => False := by
  refine (triple_attempt (triple_finalize h)).bind fun result => ?_
  cases result with
  | ok response => exact Triple.ret fun machine hmachine => hmachine.1 response rfl
  | error raised => exact Triple.ret fun machine hmachine => hmachine.2 raised rfl

/-- One chunk is handed out, or the stream ends. -/
theorem triple_next (handle : StreamHandle F D) :
    Triple (origin.Reaches (handle.pending ++ pending)) (handle.next origin.world)
      (fun result => origin.Reaches (result.2.pending ++ pending)) fun _ => False := by
  refine Triple.branch (fun _ => Triple.ret fun _ h => h) fun hopen => ?_
  have hnone : handle.response = none := by simpa using hopen
  split
  · exact Triple.ret fun _ h => h
  · split
    · next returned _ =>
      exact triple_ends { handle with returned := handle.returned.or returned } hnone .stop
    · next raised _ =>
      exact triple_ends { handle with source := { handle.source with finish := .ok none } } hnone
        (.raised raised)

/-- The rest of a stream is handed out chunk by chunk. -/
theorem triple_drainFrom (chunks : List (StreamChunk F)) (handle : StreamHandle F D) :
    Triple (origin.Reaches (handle.pending ++ pending)) (handle.drainFrom origin.world chunks)
      (fun result => origin.Reaches (result.2.pending ++ pending)) fun _ => False := by
  induction chunks generalizing handle with
  | nil => exact triple_next handle
  | cons chunk rest ih => exact (triple_next handle).bind fun result => ih result.2

/-- Reading a stream to its end. -/
theorem triple_drain (handle : StreamHandle F D) :
    Triple (origin.Reaches (handle.pending ++ pending)) (handle.drain origin.world)
      (fun result => origin.Reaches (result.2.pending ++ pending)) fun _ => False :=
  .branch (fun _ => Triple.ret fun _ h => h) fun _ => triple_drainFrom _ handle

/-- Leaving a stream ends it, after an exception without its rest. -/
theorem triple_exit (exception : Bool) (handle : StreamHandle F D) :
    Triple (origin.Reaches (handle.pending ++ pending)) (handle.exit origin.world exception)
      (fun result => origin.Reaches (result.2.pending ++ pending)) fun _ => False := by
  refine Triple.branch (fun _ => Triple.ret fun _ h => h) fun hopen => ?_
  have hnone : handle.response = none := by simpa using hopen
  exact Triple.branch (fun _ => triple_ends handle hnone .stop) fun _ => triple_drain handle

/-! ## The outcome -/

section Runs

variable [DecidableEq D]

/-- Recording the outcome stores its patch and appends one row. -/
theorem ensures_recordOutcome (hlive : origin.live) (args : OutcomeArgs) :
    Ensures (origin.Reaches pending) (recordOutcome origin.world args) fun _ => True := by
  have hpatch : Ensures (origin.Reaches pending) (args.patch.mapM fun patch =>
      (putBlob (Utf8.encode patch) : Py F D W (BlobRef D))) fun _ => True := by
    cases args.patch with
    | none => exact .ret trivial
    | some patch =>
      rw [Option.mapM_some, map_eq_pure_bind]
      exact (ensures_putBlob hlive _).seq fun _ => .ret trivial
  refine hpatch.seq fun patch => ?_
  refine Triple.ensures (Triple.read.bind fun machine => ?_)
  refine ((triple_append hlive _).weaken ?_ (fun _ _ h => h) fun _ h => h).bind fun _ => ?_
  · rintro _ ⟨rfl, hmachine⟩
    exact ⟨⟨rfl, rfl⟩, hmachine⟩
  · exact Triple.of_ensures
      (ensures_modifySession fun _ _ => ⟨⟨rfl, rfl, rfl, rfl, rfl, rfl⟩, rfl⟩)

/-- An outcome is compared with the recorded one, and recorded where the session can. -/
theorem ensures_outcome (args : OutcomeArgs) :
    Ensures (origin.Reaches pending) (Session.outcome origin.world args) fun _ => True := by
  refine ensures_getSession.bind fun session hsteady => ?_
  split
  · refine Ensures.branch (fun _ => ensures_miss.never) fun _ => ?_
    refine .branch (fun hcan => ?_) fun _ => .ret trivial
    exact ensures_recordOutcome (live_of_canRecord hsteady (by simp [hcan])) args
  · refine Ensures.branch (fun _ => ensures_miss.never) fun hcan => ?_
    exact ensures_recordOutcome (live_of_canRecord hsteady hcan) args

/-! ## Runs -/

omit [Sha256 D] [Pydantic F D] [DecidableEq D] in
/-- A machine is reached however the streams that are left are counted. -/
theorem Reaches.perm [Sha256 D] [Pydantic F D] {machine : Machine F D W} {pending' : List Text}
    (h : origin.Reaches pending machine) (hperm : pending'.Perm pending) :
    origin.Reaches pending' machine := by
  obtain ⟨opened, hcourse, hpending⟩ := h
  exact ⟨opened, hcourse, hperm.subperm.trans hpending⟩

omit [DecidableEq D] in
/-- A handle is used in its place among the open ones. -/
theorem triple_useHandle (handles : List (StreamHandle F D)) (index : ℕ)
    {step : StreamHandle F D → Py F D W (StreamStep F D × StreamHandle F D)}
    (hstep : ∀ handle pending, Triple (origin.Reaches (handle.pending ++ pending)) (step handle)
      (fun result => origin.Reaches (result.2.pending ++ pending)) fun _ => False) :
    Triple (origin.Reaches (handles.flatMap StreamHandle.pending)) (useHandle handles index step)
      (fun handles => origin.Reaches (handles.flatMap StreamHandle.pending))
      (origin.Reaches (handles.flatMap StreamHandle.pending)) := by
  rw [useHandle]
  split
  · exact Triple.ret fun _ h => h
  · next handle hhandle =>
    obtain ⟨hindex, hat⟩ := List.getElem?_eq_some_iff.mp hhandle
    have hplace (other : StreamHandle F D) :
        ((handles.set index other).flatMap StreamHandle.pending).Perm (other.pending ++
          ((handles.take index).flatMap StreamHandle.pending ++
            (handles.drop (index + 1)).flatMap StreamHandle.pending)) := by
      rw [List.set_eq_take_append_cons_drop, if_pos hindex, List.flatMap_append, List.flatMap_cons]
      exact List.perm_append_comm_assoc _ _ _
    have hself := hplace handle
    rw [← hat, List.set_getElem_self, hat] at hself
    refine ((hstep handle _).weaken (fun _ h => h.perm hself.symm) (fun _ _ h => h)
      fun _ h => h.elim).bind fun result => Triple.ret fun _ h => h.perm (hplace result.2)

/-- Every operation leads where a course leads, and leaves the handles of streams that are
not consumed. -/
theorem triple_operation (operation : Operation F) (handles : List (StreamHandle F D)) :
    Triple (origin.Reaches (handles.flatMap StreamHandle.pending))
      (operation.run origin.world handles)
      (fun handles => origin.Reaches (handles.flatMap StreamHandle.pending))
      (origin.Reaches (handles.flatMap StreamHandle.pending)) := by
  have hquiet {α : Type} {x : Py F D W α}
      (hx : Ensures (origin.Reaches (handles.flatMap StreamHandle.pending)) x fun _ => True) :
      Triple (origin.Reaches (handles.flatMap StreamHandle.pending)) (x >>= fun _ => pure handles)
        (fun handles => origin.Reaches (handles.flatMap StreamHandle.pending))
        (origin.Reaches (handles.flatMap StreamHandle.pending)) :=
    (Triple.of_ensures hx).bind fun _ => Triple.ret fun _ h => h.1
  cases operation with
  | model identity =>
    exact hquiet (ensures_modifySession fun _ _ => ⟨⟨rfl, rfl, rfl, rfl, rfl, rfl⟩, rfl⟩)
  | create request => exact hquiet (ensures_create request)
  | stream request =>
    refine (triple_stream request).bind fun handle => Triple.ret fun machine hmachine => ?_
    rw [List.flatMap_append, List.flatMap_singleton]
    exact hmachine
  | next index => exact triple_useHandle handles index fun handle _ => triple_next handle
  | drain index => exact triple_useHandle handles index fun handle _ => triple_drain handle
  | exit index exception =>
    exact triple_useHandle handles index fun handle _ => triple_exit exception handle
  | tool dispatch parentCallId request =>
    exact hquiet (ensures_toolsCall dispatch parentCallId request)
  | env source key => exact hquiet (ensures_envValue source key)
  | content root path => exact hquiet (ensures_readBytes root path)
  | pathExists root path => exact hquiet (ensures_fileExists root path)
  | listing root path => exact hquiet (ensures_listDir root path)
  | write root path data => exact hquiet (ensures_writeBytes root path data)
  | outcome args => exact hquiet (ensures_outcome args)

/-- Operations lead where a course leads, also where some of them raise. The induction is on
the operations. -/
theorem reaches_runOperations (operations : List (Operation F)) (handles : List (StreamHandle F D))
    {machine : Machine F D W}
    (h : origin.Reaches (handles.flatMap StreamHandle.pending) machine) :
    ∃ pending, origin.Reaches pending (runOperations origin.world operations handles machine) := by
  induction operations generalizing handles machine with
  | nil => exact ⟨_, h⟩
  | cons operation rest ih =>
    obtain ⟨hreturns, hraises⟩ := triple_operation operation handles machine h
    rw [runOperations]
    rcases hrun : operation.run origin.world handles machine with ⟨raised | next, machine'⟩
    · exact ih handles (hraises raised machine' hrun)
    · exact ih next (hreturns next machine' hrun)

end Runs

end Origin

/-- What operations make of a machine is a course. -/
theorem runOperations_course [DecidableEq D] {world : World F D W} {later : W → W → Prop}
    {live : Prop} (hworld : world.Keeps later) {machine : Machine F D W}
    (hserved : live ∨ machine.session.ReadOnly) (operations : List (Operation F))
    (handles : List (StreamHandle F D)) :
    ∃ opened, Course world later live (handles.flatMap StreamHandle.pending) machine opened
      (runOperations world operations handles machine) := by
  let origin : Origin F D W :=
    ⟨world, later, live, handles.flatMap StreamHandle.pending, machine, hworld, hserved⟩
  obtain ⟨pending, opened, hcourse, -⟩ := origin.reaches_runOperations operations handles
    ⟨_, .refl _ _, List.Subperm.refl _⟩
  exact ⟨opened, hcourse⟩

/-! ## Properties that last -/

/-- An event is handed to `_append` with what the redactor made of its messages or arguments
and with their hash. -/
def Handed (redactor : Redactor F D) : Event F D → Prop
  | .modelCall call =>
    (∃ messages, redactor.messages messages = some call.messages) ∧
      call.messagesHash = hashMessages F D call.messages
  | .toolCall call =>
    (∃ args, redactor.args args = call.args) ∧ call.argsHash = hashArgs D call.args
  | _ => True

/-- The messages that a model call is handed over with are the redactor's. -/
theorem Machine.Asks.handed {machine : Machine F D W} {call : ModelCallEvent F}
    (h : machine.Asks call) : Handed machine.session.redactor (.modelCall call : Event F D) :=
  ⟨h.messages, h.messagesHash⟩

/-- The arguments that a tool call is handed over with are the redactor's. -/
theorem Machine.Answers.handed {machine : Machine F D W} {parentCallId : Text}
    {request : ToolCallRequest F} {event : ToolCallEvent F D}
    (h : machine.Answers parentCallId request event) :
    Handed machine.session.redactor (.toolCall event) :=
  ⟨⟨request.args, h.args.symm⟩, h.argsHash⟩

/-- A property of machines that no method of a session can break: it knows how the session
serves, and it depends neither on cursors nor on the scope of a tool. In a live run it depends
neither on the world nor on the blobs, and appending the row of an event that was handed over
keeps it. -/
structure Lasting (live : Prop) (redactor : Redactor F D) (runId : Text)
    (P : Machine F D W → Prop) : Prop where
  serves : ∀ machine, P machine → machine.session.Serves live redactor runId
  session : ∀ machine session, machine.session.Steady session → P machine →
    P { machine with session := session }
  scope : ∀ machine scope, P machine → P { machine with scope := scope }
  outside : live → ∀ machine outside calls, P machine →
    P { machine with outside := outside, calls := calls }
  blobs : live → ∀ machine blobs, P machine →
    P { machine with store := { machine.store with blobs := blobs } }
  append : live → ∀ machine event recorded, Handed redactor event →
    redactor.event event = some (some recorded) → P machine →
      P { machine with store := machine.store.append runId recorded }

namespace Lasting

variable {live : Prop} {redactor : Redactor F D} {runId : Text} {P : Machine F D W → Prop}

/-- What `_append` keeps or drops does not break the property. -/
theorem kept (hP : Lasting live redactor runId P) (hlive : live) {machine : Machine F D W}
    {event : Event F D} {recorded : Option (Event F D)}
    (hhanded : Handed machine.session.redactor event)
    (hredacted : machine.session.redactor.event event = some recorded) (h : P machine) :
    P (machine.kept recorded) := by
  have hserves := hP.serves machine h
  rw [hserves.redactor_eq hlive] at hhanded hredacted
  cases recorded with
  | none => exact h
  | some recorded =>
    rw [Machine.kept, hserves.runId_eq hlive]
    exact hP.append hlive machine event recorded hhanded hredacted h

/-- The call that the agent is in does not matter. -/
theorem calling (hP : Lasting live redactor runId P) {machine : Machine F D W} (callId : Text)
    (h : P machine) : P (machine.calling callId) :=
  hP.session machine _ ⟨rfl, rfl, rfl, rfl, rfl, rfl⟩ h

/-- No course breaks the property. The induction is on the course. -/
theorem course (hP : Lasting live redactor runId P) {world : World F D W} {later : W → W → Prop}
    {opened opened' : List Text} {machine machine' : Machine F D W}
    (hcourse : Course world later live opened machine opened' machine') (h : P machine) :
    P machine' := by
  induction hcourse with
  | refl => exact h
  | session before settled ih => exact hP.session _ _ settled.toSteady (ih h)
  | serve before recorded ih => exact hP.calling _ (ih h)
  | outside before isLive isLater ih => exact hP.outside isLive _ _ _ (ih h)
  | blobs before isLive ih => exact hP.blobs isLive _ _ (ih h)
  | @append _ _ _ _ event _ before isLive places redacted ih =>
    refine hP.kept isLive ?_ redacted (ih h)
    cases event with
    | modelCall => exact places.elim
    | toolCall => exact places.elim
    | _ => trivial
  | create before isLive drawn asks redacted ih =>
    refine hP.calling _ (hP.kept isLive asks.handed redacted ?_)
    exact hP.outside isLive _ _ _ (ih h)
  | stream before isLive ih => exact hP.outside isLive _ _ _ (ih h)
  | finalize before isLive unconsumed asks redacted ih =>
    exact hP.calling _ (hP.kept isLive asks.handed redacted (ih h))
  | leave before body ih ih' => exact hP.scope _ _ (ih' (hP.scope _ _ (ih h)))
  | finish before body isLive answers redacted ih ih' =>
    refine hP.scope _ _ (hP.kept isLive answers.handed redacted ?_)
    exact ih' (hP.scope _ _ (ih h))

/-- A property that no method breaks holds after any operations. -/
theorem runOperations [DecidableEq D] (hP : Lasting live redactor runId P) (world : World F D W)
    (operations : List (Operation F)) (handles : List (StreamHandle F D))
    {machine : Machine F D W} (h : P machine) :
    P (runOperations world operations handles machine) := by
  obtain ⟨opened, hcourse⟩ := runOperations_course world.keeps_anything
    (hP.serves machine h).readOnly operations handles
  exact hP.course hcourse h

end Lasting

end Tracewake.Recording
