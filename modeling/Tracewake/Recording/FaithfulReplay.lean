import Tracewake.Recording.Conversations
import Tracewake.Recording.PureReplay

/-!
# Replay of a recorded agent

A replay walks through the log beside the agent: the calls that it passed are consumed,
and the cursor of every queue counts what the agent itself took from it. Where the agent
and its tools use different queues, each operation finds its own event next, so the agent
is answered as it was recorded.
-/

namespace Tracewake.Recording

open JsonText Effects
open Results (lessCodePoints)

variable {F D W : Type} [Python F] [Sha256 D] [Pydantic F D] [DecidableEq D]

/-- No blob of the store has the digest of other bytes that an answer was kept in. -/
def NoCollision (store : Store F D) (answers : List (Answer F)) : Prop :=
  ∀ digest blob, store.blobs digest = some blob → ∀ data ∈ answers.flatMap Answer.blobs,
    (Sha256.hash blob : D) = Sha256.hash data → blob = data

omit [Python F] [Pydantic F D] in
/-- A blob that was put is read back. -/
theorem get_of_has {store : Store F D} (hintact : store.Intact) {data : List UInt8}
    (hhas : store.Has data)
    (hunique : ∀ digest blob, store.blobs digest = some blob →
      (Sha256.hash blob : D) = Sha256.hash data → blob = data) :
    store.get (Sha256.hash data) = .ok data := by
  obtain ⟨blob, hblob⟩ := Option.isSome_iff_exists.mp hhas
  have hdigest := hintact _ _ hblob
  obtain rfl := hunique _ _ hblob hdigest
  simp only [Store.get, hblob, if_true]

/-- A listing is read back. -/
theorem listingNames_listingBytes (names : List Text) :
    listingNames F (listingBytes F names) = some names := by
  have hcanon : (list (F := F) .str names).canon lessCodePoints = list .str names := by
    simp [list, Json.canon, Json.canonItems_eq, Function.comp_def]
  simp only [listingNames, listingBytes, Utf8.decode_encode, Option.bind_eq_bind, Option.bind_some,
    loads_canonicalJson, hcanon]
  simp only [list]
  clear hcanon
  induction names with
  | nil => rfl
  | cons name names ih =>
    rw [List.map_cons, List.mapM_cons, ih]
    rfl

/-- The session after it served a value of the environment. -/
def Session.tookEnv (session : Session F D) (key : EnvironmentSource × Option Text) :
    Session F D :=
  { session with envCursor := Function.update session.envCursor key (session.envCursor key + 1) }

/-- The session after it served a read. -/
def Session.tookRead (session : Session F D) (key : ReadKind × Text) : Session F D :=
  { session with readCursor := Function.update session.readCursor key (session.readCursor key + 1) }

/-- The session after it checked a write. -/
def Session.tookWrite (session : Session F D) (path : Text) : Session F D :=
  { session with
    writeCursor := Function.update session.writeCursor path (session.writeCursor path + 1) }

section Served

variable {machine : Machine F D W} (world : World F D W)

omit [DecidableEq D] in
/-- A recorded value that is left is served. -/
theorem envValue_at (h : machine.session.ReadOnly) {source : EnvironmentSource}
    {key : Option Text} {value : CanonicalValue F}
    (hnext : (machine.session.index.env (source, key))[
      machine.session.envCursor (source, key)]? = some value) :
    envValue world source key machine =
      (.ok (if source = .env then machine.session.redactor.restorePath value else value),
        { machine with session := machine.session.tookEnv (source, key) }) := by
  have hrecorded : recordedEnv source key machine = (.ok (some value),
      { machine with session := machine.session.tookEnv (source, key) }) := by
    rw [recordedEnv, getSession]
    simp only [run_bind, run_get, run_pure, h.canReplay, h.forked, Bool.not_false, Bool.and_self,
      if_true]
    rw [popEnv, getSession]
    simp only [run_bind, run_get, run_pure, hnext]
    rfl
  rw [envValue, run_bind_ok hrecorded]
  rfl

omit [Sha256 D] [Pydantic F D] [DecidableEq D] in
/-- A recorded read that is left is served. -/
theorem replayRead_at (h : machine.session.ReadOnly) {kind : ReadKind} {path : Text}
    {event : FsReadEvent F D} (hnext : (machine.session.index.reads (kind, path))[
      machine.session.readCursor (kind, path)]? = some event) :
    replayRead kind path machine =
      (.ok (some event), { machine with session := machine.session.tookRead (kind, path) }) := by
  rw [replayRead, getSession]
  simp only [run_bind, run_get, run_pure, h.canReplay, h.forked, Bool.not_true, Bool.or_self,
    Bool.false_eq_true, if_false, hnext]
  rfl

omit [Sha256 D] [Pydantic F D] [DecidableEq D] in
/-- A recorded write that is left is checked. -/
theorem replayWrite_at (h : machine.session.ReadOnly) {path : Text} {event : FsWriteEvent F D}
    (hnext : (machine.session.index.writes path)[machine.session.writeCursor path]? = some event) :
    replayWrite path machine =
      (.ok (some event), { machine with session := machine.session.tookWrite path }) := by
  rw [replayWrite, getSession]
  simp only [run_bind, run_get, run_pure, h.canReplay, h.forked, Bool.not_true, Bool.or_self,
    Bool.false_eq_true, if_false, hnext]
  rfl

end Served

/-- A replay that has passed the first part of a log. -/
structure Cued (base : Machine F D W) (matchOn : List Matcher) (before after : List (Event F D))
    (machine : Machine F D W) : Prop where
  still : Replaying base machine
  disabled : machine.session.redactor.enabled = false
  index : machine.session.index = Index.build (before ++ after)
  matcher : machine.session.matcher = some ⟨
    (before.filterMap Event.modelCall?).map (fun call => (call, true)) ++
      (after.filterMap Event.modelCall?).map (fun call => (call, false)), matchOn⟩
  env : ∀ key, machine.session.envCursor key = used (.env key.1 key.2) before
  reads : ∀ key, machine.session.readCursor key = used (.read key.1 key.2) before
  writes : ∀ path, machine.session.writeCursor path = used (.write path) before

section Replay

variable {base machine : Machine F D W} {matchOn : List Matcher}
  {before after : List (Event F D)} (world : World F D W)

omit [Sha256 D] [Pydantic F D] [DecidableEq D] in
/-- The cursors of one kind of queue when the agent took a value from one of them. -/
theorem cursor_own {κ : Type} [DecidableEq κ] {slotOf : κ → Slot}
    (hinjective : Function.Injective slotOf) {cursor : κ → ℕ}
    (hcursor : ∀ key, cursor key = used (slotOf key) before) (event : Event F D) {own : κ}
    (hslot : event.slot = some (slotOf own)) (hown : event.toolCallId = none) (key : κ) :
    Function.update cursor own (cursor own + 1) key = used (slotOf key) (before ++ [event]) := by
  rw [used_append]
  by_cases heq : key = own
  · subst heq
    rw [Function.update_self, hcursor, used_own hslot hown]
  · have hother : event.slot ≠ some (slotOf key) := by
      rw [hslot]
      exact fun hsame => heq (hinjective (Option.some.inj hsame)).symm
    rw [Function.update_of_ne heq, hcursor, used_other fun hsame => absurd hsame hother,
      Nat.add_zero]

omit [Sha256 D] [Pydantic F D] [DecidableEq D] in
/-- The cursors of the other kinds stay. -/
theorem cursor_other {κ : Type} {slotOf : κ → Slot} {cursor : κ → ℕ}
    (hcursor : ∀ key, cursor key = used (slotOf key) before) {event : Event F D} {key : κ}
    (hother : event.slot = some (slotOf key) → event.toolCallId ≠ none) :
    cursor key = used (slotOf key) (before ++ [event]) := by
  rw [used_append, used_other hother, hcursor, Nat.add_zero]

omit [Sha256 D] [Pydantic F D] [DecidableEq D] in
/-- Different environment values have different slots. -/
theorem env_injective : Function.Injective fun key : EnvironmentSource × Option Text =>
    Slot.env key.1 key.2 := by
  intro a b hab
  exact Prod.ext (Slot.env.inj hab).1 (Slot.env.inj hab).2

omit [Sha256 D] [Pydantic F D] [DecidableEq D] in
/-- Different reads have different slots. -/
theorem read_injective : Function.Injective fun key : ReadKind × Text => Slot.read key.1 key.2 := by
  intro a b hab
  exact Prod.ext (Slot.read.inj hab).1 (Slot.read.inj hab).2

omit [Sha256 D] [Pydantic F D] [DecidableEq D] in
/-- Different writes have different slots. -/
theorem write_injective : Function.Injective Slot.write := fun _ _ hab => Slot.write.inj hab

omit [Sha256 D] [Pydantic F D] [DecidableEq D] in
/-- Passing an event that is no model call leaves the calls as they are. -/
theorem Cued.pass {event : Event F D} (hcall : event.modelCall? = none)
    (h : Cued base matchOn before (event :: after) machine) {machine' : Machine F D W}
    (hstill : Replaying base machine')
    (hredactor : machine'.session.redactor = machine.session.redactor)
    (hindex : machine'.session.index = machine.session.index)
    (hmatcher : machine'.session.matcher = machine.session.matcher)
    (henv : ∀ key, machine'.session.envCursor key = used (.env key.1 key.2) (before ++ [event]))
    (hreads : ∀ key, machine'.session.readCursor key = used (.read key.1 key.2) (before ++ [event]))
    (hwrites : ∀ path, machine'.session.writeCursor path = used (.write path) (before ++ [event])) :
    Cued base matchOn (before ++ [event]) after machine' where
  still := hstill
  disabled := by rw [hredactor, h.disabled]
  index := by rw [hindex, h.index, List.append_assoc, List.singleton_append]
  matcher := by
    rw [hmatcher, h.matcher, List.filterMap_append, List.filterMap_cons_none hcall,
      List.filterMap_cons_none hcall, List.filterMap_nil, List.append_nil]
  env := henv
  reads := hreads
  writes := hwrites

omit [Sha256 D] [Pydantic F D] [DecidableEq D] in
/-- Events from inside a tool are passed with its result. -/
theorem Cued.skip {events : List (Event F D)} {tool : Text} (hinner : OfTool (some tool) events)
    (h : Cued base matchOn before (events ++ after) machine) :
    Cued base matchOn (before ++ events) after machine := by
  induction events generalizing before with
  | nil => rwa [List.append_nil]
  | cons event events ih =>
    have hevent := hinner event List.mem_cons_self
    have hother : event.slot.isSome = true → event.toolCallId ≠ none := by
      rw [hevent.2]
      exact fun _ => Option.some_ne_none tool
    have hcall : event.modelCall? = none := by
      cases event with
      | modelCall event => cases hevent.1
      | _ => rfl
    have hpassed := Cued.pass hcall h h.still rfl rfl rfl
      (fun key => cursor_other h.env fun hslot => hother (by rw [hslot]; rfl))
      (fun key => cursor_other h.reads fun hslot => hother (by rw [hslot]; rfl))
      (fun key => cursor_other h.writes fun hslot => hother (by rw [hslot]; rfl))
    have hrest := ih (fun other hmem => hinner other (List.mem_cons_of_mem _ hmem)) hpassed
    rwa [List.append_assoc, List.singleton_append] at hrest

/-! ## The environment and the file system -/

omit [DecidableEq D] in
/-- An environment value is answered by its own event: the cue stands before it. -/
theorem envValue_cued {event : EnvironmentEvent F} (hown : event.toolCallId = none)
    (hseparate : Separate (before ++ .environment event :: after))
    (h : Cued base matchOn before (.environment event :: after) machine) :
    ∃ machine', envValue world event.source event.key machine = (.ok event.value, machine') ∧
      Cued base matchOn (before ++ [.environment event]) after machine' := by
  have hnext : (machine.session.index.env (event.source, event.key))[
      machine.session.envCursor (event.source, event.key)]? = some event.value := by
    rw [h.index, build_env, h.env]
    exact queue_next (picks_env event.source event.key) hseparate hown (if_pos rfl)
  have hvalue : machine.session.redactor.restorePath event.value = event.value := by
    rw [Redactor.restorePath, h.disabled]
    cases event.value.value <;> rfl
  refine ⟨{ machine with session := machine.session.tookEnv (event.source, event.key) }, ?_,
    h.pass rfl ?_ rfl rfl rfl (cursor_own env_injective h.env (.environment event) rfl hown)
      (fun key => cursor_other h.reads nofun) (fun key => cursor_other h.writes nofun)⟩
  · rw [envValue_at world h.still.session hnext, hvalue, ite_self]
  · obtain ⟨hsession, hstore, houtside, hcalls⟩ := h.still
    exact ⟨⟨hsession.1, hsession.2, hsession.3, hsession.4, hsession.5⟩, hstore, houtside, hcalls⟩

omit [Sha256 D] [Pydantic F D] [DecidableEq D] in
/-- A read is answered by its own event. -/
theorem replayRead_cued {event : FsReadEvent F D} (hown : event.toolCallId = none)
    (hseparate : Separate (before ++ .fsRead event :: after))
    (h : Cued base matchOn before (.fsRead event :: after) machine) :
    ∃ machine', replayRead event.kind event.path machine = (.ok (some event), machine') ∧
      Cued base matchOn (before ++ [.fsRead event]) after machine' := by
  have hnext : (machine.session.index.reads (event.kind, event.path))[
      machine.session.readCursor (event.kind, event.path)]? = some event := by
    rw [h.index, build_reads, h.reads]
    exact queue_next (picks_read event.kind event.path) hseparate hown (if_pos rfl)
  refine ⟨{ machine with session := machine.session.tookRead (event.kind, event.path) }, ?_,
    h.pass rfl ?_ rfl rfl rfl (fun key => cursor_other h.env nofun)
      (cursor_own read_injective h.reads (.fsRead event) rfl hown)
      (fun key => cursor_other h.writes nofun)⟩
  · exact replayRead_at h.still.session hnext
  · obtain ⟨hsession, hstore, houtside, hcalls⟩ := h.still
    exact ⟨⟨hsession.1, hsession.2, hsession.3, hsession.4, hsession.5⟩, hstore, houtside, hcalls⟩

omit [Sha256 D] [Pydantic F D] [DecidableEq D] in
/-- A write is answered by its own event. -/
theorem replayWrite_cued {event : FsWriteEvent F D} (hown : event.toolCallId = none)
    (hseparate : Separate (before ++ .fsWrite event :: after))
    (h : Cued base matchOn before (.fsWrite event :: after) machine) :
    ∃ machine', replayWrite event.path machine = (.ok (some event), machine') ∧
      Cued base matchOn (before ++ [.fsWrite event]) after machine' := by
  have hnext : (machine.session.index.writes event.path)[
      machine.session.writeCursor event.path]? = some event := by
    rw [h.index, build_writes, h.writes]
    exact queue_next (picks_write event.path) hseparate hown (if_pos rfl)
  refine ⟨{ machine with session := machine.session.tookWrite event.path }, ?_,
    h.pass rfl ?_ rfl rfl rfl (fun key => cursor_other h.env nofun)
      (fun key => cursor_other h.reads nofun)
      (cursor_own write_injective h.writes (.fsWrite event) rfl hown)⟩
  · exact replayWrite_at h.still.session hnext
  · obtain ⟨hsession, hstore, houtside, hcalls⟩ := h.still
    exact ⟨⟨hsession.1, hsession.2, hsession.3, hsession.4, hsession.5⟩, hstore, houtside, hcalls⟩

omit [Pydantic F D] in
/-- A blob that the store has is read. -/
theorem getBlob_ok {digest : D} {data : List UInt8} (h : machine.store.get digest = .ok data) :
    getBlob digest machine = (.ok data, machine) := by
  rw [getBlob, run_bind_ok (run_get _)]
  simp only [h, run_pure]

omit [Sha256 D] [Pydantic F D] [DecidableEq D] in
/-- The place of a path is found again under its key. -/
theorem locate_cued (h : Cued base matchOn before after machine) {root : Option Text}
    {path key : Text} (hkey : world.key root path = some key) :
    ∃ target, locate world root path machine = (.ok (key, target), machine) := by
  rcases locate_off world h.disabled root path with ⟨hnone, -⟩ | ⟨key', target, hkey', hlocate⟩
  · rw [hkey] at hnone
    cases hnone
  · rw [hkey] at hkey'
    cases hkey'
    exact ⟨target, hlocate⟩

/-- The recorded bytes of a read are read back, or its file is missing once more. -/
theorem readBytes_cued {root : Option Text} {path key : Text} {event : FsReadEvent F D}
    {data : Option (List UInt8)} (hkey : world.key root path = some key)
    (hread : ReadTaped .content key none event) (htells : event.Tells base.store data)
    (hblobs : ∀ bytes ∈ data, base.store.get (Sha256.hash bytes) = .ok bytes)
    (hseparate : Separate (before ++ .fsRead event :: after))
    (h : Cued base matchOn before (.fsRead event :: after) machine) :
    ∃ machine', orMissing (readBytes world root path) machine = (.ok data, machine') ∧
      Cued base matchOn (before ++ [.fsRead event]) after machine' := by
  obtain ⟨target, hlocate⟩ := locate_cued world h hkey
  obtain ⟨machine', hreplay, hcued⟩ := replayRead_cued hread.tool hseparate h
  rw [hread.kind, hread.path] at hreplay
  refine ⟨machine', ?_, hcued⟩
  cases data with
  | none =>
    have hfound : event.found = false := htells
    have hrun : readBytes world root path machine = (.error (.fileNotFound key), machine') := by
      rw [readBytes, run_bind_ok hlocate]
      dsimp only
      rw [run_bind_ok hreplay]
      simp only [hfound]
      rfl
    exact orMissing_error hrun
  | some bytes =>
    obtain ⟨hfound, -, hcontent⟩ := htells
    have hget : machine'.store.get (Sha256.hash bytes) = .ok bytes := by
      rw [hcued.still.store]
      exact hblobs bytes rfl
    have hrun : readBytes world root path machine = (.ok bytes, machine') := by
      rw [readBytes, run_bind_ok hlocate]
      dsimp only
      rw [run_bind_ok hreplay]
      simp only [hfound, hcontent]
      exact getBlob_ok hget
    exact orMissing_ok hrun

/-- A recorded listing is read back. -/
theorem listDir_cued {root : Option Text} {path key : Text} {event : FsReadEvent F D}
    {names : Option (List Text)} (hkey : world.key root path = some key)
    (hread : ReadTaped .listing key none event)
    (htells : event.Tells base.store (names.map (listingBytes F)))
    (hblobs : ∀ listed ∈ names, base.store.get (Sha256.hash (listingBytes F listed)) =
      .ok (listingBytes F listed))
    (hseparate : Separate (before ++ .fsRead event :: after))
    (h : Cued base matchOn before (.fsRead event :: after) machine) :
    ∃ machine', orMissing (listDir world root path) machine = (.ok names, machine') ∧
      Cued base matchOn (before ++ [.fsRead event]) after machine' := by
  obtain ⟨target, hlocate⟩ := locate_cued world h hkey
  obtain ⟨machine', hreplay, hcued⟩ := replayRead_cued hread.tool hseparate h
  rw [hread.kind, hread.path] at hreplay
  refine ⟨machine', ?_, hcued⟩
  cases names with
  | none =>
    have hfound : event.found = false := htells
    have hrun : listDir world root path machine = (.error (.fileNotFound key), machine') := by
      rw [listDir, run_bind_ok hlocate]
      dsimp only
      rw [run_bind_ok hreplay]
      simp only [hfound]
      rfl
    exact orMissing_error hrun
  | some listed =>
    obtain ⟨hfound, -, hcontent⟩ := htells
    have hget : machine'.store.get (Sha256.hash (listingBytes F listed)) =
        .ok (listingBytes F listed) := by
      rw [hcued.still.store]
      exact hblobs listed rfl
    have hrun : listDir world root path machine = (.ok listed, machine') := by
      rw [listDir, run_bind_ok hlocate]
      dsimp only
      rw [run_bind_ok hreplay]
      simp only [hfound, hcontent]
      rw [run_bind_ok (getBlob_ok hget), listingNames_listingBytes]
      rfl
    exact orMissing_ok hrun

omit [DecidableEq D] in
/-- A recorded test of a path gives what it gave. -/
theorem fileExists_cued {root : Option Text} {path key : Text} {event : FsReadEvent F D}
    (hkey : world.key root path = some key) (hread : ReadTaped .exists key none event)
    (hseparate : Separate (before ++ .fsRead event :: after))
    (h : Cued base matchOn before (.fsRead event :: after) machine) :
    ∃ machine', fileExists world root path machine = (.ok event.found, machine') ∧
      Cued base matchOn (before ++ [.fsRead event]) after machine' := by
  obtain ⟨target, hlocate⟩ := locate_cued world h hkey
  obtain ⟨machine', hreplay, hcued⟩ := replayRead_cued hread.tool hseparate h
  rw [hread.kind, hread.path] at hreplay
  refine ⟨machine', ?_, hcued⟩
  rw [fileExists, run_bind_ok hlocate]
  dsimp only
  rw [run_bind_ok hreplay]
  rfl

/-- The same bytes are written again. -/
theorem writeBytes_cued {root : Option Text} {path key : Text} {data : List UInt8}
    {event : FsWriteEvent F D} (hkey : world.key root path = some key) (hpath : event.path = key)
    (hdigest : event.content.digest = Sha256.hash data) (htool : event.toolCallId = none)
    (hseparate : Separate (before ++ .fsWrite event :: after))
    (h : Cued base matchOn before (.fsWrite event :: after) machine) :
    ∃ machine', writeBytes world root path data machine = (.ok ⟨⟩, machine') ∧
      Cued base matchOn (before ++ [.fsWrite event]) after machine' := by
  obtain ⟨target, hlocate⟩ := locate_cued world h hkey
  obtain ⟨machine', hreplay, hcued⟩ := replayWrite_cued htool hseparate h
  rw [hpath] at hreplay
  refine ⟨machine', ?_, hcued⟩
  have hsession : getSession machine' = (.ok machine'.session, machine') := rfl
  have hblob : machine'.session.redactor.blob data = data := by
    rw [Redactor.blob, hcued.disabled]
    rfl
  rw [writeBytes, run_bind_ok hlocate]
  dsimp only
  rw [run_bind_ok hreplay]
  dsimp only
  rw [run_bind_ok hsession, hblob, hdigest]
  simp only [ne_eq, not_true_eq_false, if_false, run_pure]

/-! ## Tools, models and the outcome -/

/-- The session after it served the result of a tool. -/
def Session.servedTool (session : Session F D) : Session F D :=
  { session with report :=
      { session.report with toolCallsReplayed := session.report.toolCallsReplayed + 1 } }

/-- The only recorded result of a tool call is given, and the body of the tool stays away. -/
theorem toolsCall_cued (live : Bool) {parentCallId : Text} {request : ToolCallRequest F}
    {outcome : ToolOutcome} {inner : List (Event F D)} {event : ToolCallEvent F D}
    (hinner : OfTool (some request.id) inner) (htool : ToolTaped parentCallId request outcome event)
    (hblob : base.store.get (Sha256.hash (Utf8.encode outcome.content)) =
      .ok (Utf8.encode outcome.content))
    (honce : ToolsOnce (before ++ (inner ++ .toolCall event :: after)))
    (h : Cued base matchOn before (inner ++ .toolCall event :: after) machine) :
    ∃ machine', toolsCall world live parentCallId request machine = (.ok outcome, machine') ∧
      Cued base matchOn (before ++ inner ++ [.toolCall event]) after machine' := by
  have hskipped := h.skip hinner
  refine ⟨{ machine with session := machine.session.servedTool }, ?_,
    hskipped.pass rfl ?_ rfl rfl rfl (fun key => cursor_other hskipped.env nofun)
      (fun key => cursor_other hskipped.reads nofun)
      (fun key => cursor_other hskipped.writes nofun)⟩
  · have hsession : getSession (machine.inTool parentCallId request.id) =
        (.ok machine.session, machine.inTool parentCallId request.id) := rfl
    have hargs : machine.session.redactor.args request.args = request.args := by
      rw [Redactor.args, h.disabled]
      rfl
    have hfound : machine.session.index.toolCalls (parentCallId, request.id) = some event := by
      rw [h.index, ← htool.parent, ← htool.id]
      exact build_toolCalls honce (by simp)
    have hrecorded : recordedTool parentCallId request (machine.inTool parentCallId request.id) =
        (.ok (some event), machine.inTool parentCallId request.id) := by
      rw [recordedTool, run_bind_ok hsession]
      simp only [h.still.session.forked, Bool.false_eq_true, if_false, hfound, run_pure]
    have hkept : (some event).filter (fun recorded => hashArgs D request.args = recorded.argsHash) =
        some event := by
      rw [Option.filter_some, htool.args]
      simp
    have hget : ({ machine.inTool parentCallId request.id with
          session := machine.session.servedTool } : Machine F D W).store.get event.result.digest =
        .ok (Utf8.encode outcome.content) := by
      rw [htool.result, ← hblob, ← h.still.store]
      rfl
    have hcall : callTool world live parentCallId request (machine.inTool parentCallId request.id) =
        (.ok outcome, { machine.inTool parentCallId request.id with
          session := machine.session.servedTool }) := by
      rw [callTool, run_bind_ok hsession, hargs]
      dsimp only
      rw [run_bind_ok hrecorded, hkept]
      dsimp only
      refine (run_bind_ok (run_modify _ _)).trans ((run_bind_ok (getBlob_ok hget)).trans ?_)
      simp only [Utf8.decode_encode, run_pure, htool.status, htool.error]
    rw [toolsCall_eq, hcall]
    rfl
  · obtain ⟨hsession, hstore, houtside, hcalls⟩ := h.still
    exact ⟨⟨hsession.1, hsession.2, hsession.3, hsession.4, hsession.5⟩, hstore, houtside, hcalls⟩

omit [Sha256 D] [Pydantic F D] [DecidableEq D] in
/-- Consumed calls are passed over. -/
theorem serve_next {accepts : ModelCallEvent F → Bool} (passed : List (ModelCallEvent F))
    {call : ModelCallEvent F} (hcall : accepts call = true)
    (rest : List (ModelCallEvent F × Bool)) :
    serve accepts (passed.map (fun call => (call, true)) ++ (call, false) :: rest) =
      some (call, passed.map (fun call => (call, true)) ++ (call, true) :: rest) := by
  induction passed with
  | nil => simp [serve, hcall]
  | cons other passed ih => simp [serve, ih]

omit [Pydantic F D] [DecidableEq D] in
/-- A recorded call is accepted for the request that it was recorded for. -/
theorem accepts_taped {callId : Text} {request : ModelRequest F} {response : ModelResponse F}
    {stream : Option (StreamRecord F)} {call : ModelCallEvent F}
    (calls : List (ModelCallEvent F × Bool))
    (hcall : CallTaped (D := D) callId request response stream call) :
    (⟨calls, matchOn⟩ : CallMatcher F).accepts D
      (buildRequest F D request.identity.modelId request.messages request.tools) call = true := by
  rw [CallMatcher.accepts, List.all_eq_true]
  intro matcher _
  cases matcher with
  | model => simp [Matcher.holds, buildRequest, hcall.modelId]
  | messagesHash => simp [Matcher.holds, buildRequest, hcall.messagesHash]
  | systemPrompt => simp [Matcher.holds, buildRequest, hcall.messages]
  | toolNames => simp [Matcher.holds, buildRequest, hcall.tools]
  | ordinal => rfl

omit [Sha256 D] [Pydantic F D] [DecidableEq D] in
/-- The messages of a turn pass as they are. -/
theorem turnMessages_cued (h : Cued base matchOn before after machine) (messages : List Message) :
    ∃ machine', turnMessages messages machine = (.ok messages, machine') ∧
      Cued base matchOn before after machine' := by
  refine ⟨{ machine with session := { machine.session with turn := machine.session.turn + 1 } }, ?_,
    { h with still := ?_ }⟩
  · rw [turnMessages, getSession]
    simp only [run_bind, run_get, run_pure, modifySession, run_modify, h.still.session.intervention]
  · obtain ⟨hsession, hstore, houtside, hcalls⟩ := h.still
    exact ⟨⟨hsession.1, hsession.2, hsession.3, hsession.4, hsession.5⟩, hstore, houtside, hcalls⟩

omit [DecidableEq D] in
/-- The next request is served with the next call. -/
theorem matched_cued {callId : Text} {request : ModelRequest F} {response : ModelResponse F}
    {stream : Option (StreamRecord F)} {call : ModelCallEvent F}
    (hcall : CallTaped (D := D) callId request response stream call)
    (h : Cued base matchOn before (.modelCall call :: after) machine) :
    ∃ machine', matched request request.messages machine = (.ok (some call), machine') ∧
      Cued base matchOn (before ++ [.modelCall call]) after machine' := by
  have hsession : getSession machine = (.ok machine.session, machine) := rfl
  have hmessages : machine.session.redactor.messages request.messages = some request.messages := by
    rw [Redactor.messages, h.disabled]
    rfl
  have hcons : (Event.modelCall call :: after).filterMap Event.modelCall? =
      call :: after.filterMap Event.modelCall? := rfl
  have hmatcher := h.matcher
  rw [hcons, List.map_cons] at hmatcher
  obtain ⟨report, hserve⟩ : ∃ report, (⟨(before.filterMap Event.modelCall?).map
        (fun call => (call, true)) ++ (call, false) ::
          (after.filterMap Event.modelCall?).map (fun call => (call, false)), matchOn⟩ :
        CallMatcher F).serve D (buildRequest F D request.identity.modelId request.messages
          request.tools) machine.session.report =
      (some call, ⟨(before.filterMap Event.modelCall?).map (fun call => (call, true)) ++
        (call, true) :: (after.filterMap Event.modelCall?).map (fun call => (call, false)),
        matchOn⟩, report) := by
    rw [CallMatcher.serve, serve_next _ (accepts_taped _ hcall)]
    exact ⟨_, rfl⟩
  refine ⟨{ machine with session := { machine.session with
    matcher := some ⟨(before.filterMap Event.modelCall?).map (fun call => (call, true)) ++
      (call, true) :: (after.filterMap Event.modelCall?).map (fun call => (call, false)), matchOn⟩
    report := report } }, ?_, ?_⟩
  · rw [matched, run_bind_ok hsession, hmatcher]
    dsimp only
    rw [hmessages]
    dsimp only
    rw [hserve]
    refine (run_bind_ok (run_modify _ _)).trans ?_
    rfl
  · obtain ⟨hready, hstore, houtside, hcalls⟩ := h.still
    refine ⟨⟨⟨hready.1, hready.2, hready.3, hready.4, rfl⟩, hstore, houtside, hcalls⟩, h.disabled,
      ?_, ?_, ?_, ?_, ?_⟩
    · rw [h.index, List.append_assoc, List.singleton_append]
    · simp [List.filterMap_append, Event.modelCall?]
    · intro key
      apply cursor_other h.env
      intro hslot
      cases hslot
    · intro key
      apply cursor_other h.reads
      intro hslot
      cases hslot
    · intro key
      apply cursor_other h.writes
      intro hslot
      cases hslot

/-- The session after it served a call. -/
def Session.servedCall (session : Session F D) (callId : Text) : Session F D :=
  { session with currentCallId := some callId }

omit [Sha256 D] [Pydantic F D] [DecidableEq D] in
/-- Serving a call moves no cue. -/
theorem Cued.servedCall (h : Cued base matchOn before after machine) (callId : Text) :
    Cued base matchOn before after
      { machine with session := machine.session.servedCall callId } := by
  obtain ⟨hready, hstore, houtside, hcalls⟩ := h.still
  exact { h with still := ⟨⟨hready.1, hready.2, hready.3, hready.4, hready.5⟩, hstore, houtside,
    hcalls⟩ }

omit [DecidableEq D] in
/-- A recorded completion is given again. -/
theorem create_cued {callId : Text} {request : ModelRequest F} {response : ModelResponse F}
    {call : ModelCallEvent F} (hcall : CallTaped (D := D) callId request response none call)
    (h : Cued base matchOn before (.modelCall call :: after) machine) :
    ∃ machine', Model.create world request machine = (.ok ⟨callId, response⟩, machine') ∧
      Cued base matchOn (before ++ [.modelCall call]) after machine' := by
  obtain ⟨turned, hturn, hturned⟩ := turnMessages_cued h request.messages
  obtain ⟨served, hmatched, hserved⟩ := matched_cued hcall hturned
  refine ⟨_, ?_, hserved.servedCall call.callId⟩
  rw [Model.create, run_bind_ok hturn, run_bind_ok hmatched]
  dsimp only
  refine (run_bind_ok (run_modify _ _)).trans ?_
  simp only [hcall.stream, Option.isSome_none, Bool.false_eq_true, if_false, run_pure, hcall.callId,
    hcall.response]
  rfl

omit [DecidableEq D] in
/-- A recorded stream is given again, chunk by chunk. -/
theorem consume_cued {callId : Text} {request : ModelRequest F} {chunks : List (StreamChunk F)}
    {response : ModelResponse F} {call : ModelCallEvent F}
    (hcall : CallTaped (D := D) callId request response (some ⟨chunks⟩) call)
    (h : Cued base matchOn before (.modelCall call :: after) machine) :
    ∃ machine', consume world request machine = (.ok (callId, chunks, response), machine') ∧
      Cued base matchOn (before ++ [.modelCall call]) after machine' := by
  obtain ⟨turned, hturn, hturned⟩ := turnMessages_cued h request.messages
  obtain ⟨served, hmatched, hserved⟩ := matched_cued hcall hturned
  refine ⟨_, ?_, hserved.servedCall call.callId⟩
  have hstream : Model.stream world request machine = (.ok {
      callId, source := ⟨chunks, .ok none⟩, onFinish := .recorded response },
      { served with session := served.session.servedCall call.callId }) := by
    rw [Model.stream, run_bind_ok hturn, run_bind_ok hmatched]
    dsimp only
    refine (run_bind_ok (run_modify _ _)).trans ?_
    simp only [hcall.stream, run_pure, hcall.callId, hcall.response]
    rfl
  have hdrain : ({ callId, source := ⟨chunks, .ok none⟩, onFinish := .recorded response } :
      StreamHandle F D).drain world
        { served with session := served.session.servedCall call.callId } =
      (.ok (.stop, { callId, source := ⟨[], .ok none⟩, onFinish := .recorded response, chunks
                     response := some response }),
        { served with session := served.session.servedCall call.callId }) := by
    rw [drain_eq world _ rfl, next_end world _ rfl rfl]
    rfl
  rw [consume, run_bind_ok hstream, run_bind_ok hdrain]
  rfl

/-- The outcome has the recorded status. -/
theorem outcome_cued {args : OutcomeArgs} {event : OutcomeEvent F D}
    (hstatus : event.status = args.status)
    (hagree : OutcomesAgree (before ++ .outcome event :: after))
    (h : Cued base matchOn before (.outcome event :: after) machine) :
    ∃ machine', Session.outcome world args machine = (.ok ⟨⟩, machine') ∧
      Cued base matchOn (before ++ [.outcome event]) after machine' := by
  have hmem : Event.outcome event ∈ before ++ .outcome event :: after := by simp
  obtain ⟨last, hlast⟩ := exists_lastOutcome hmem
  have hsame : args.status = last.status := by
    rw [← hstatus]
    exact hagree event last hmem (mem_of_lastOutcome hlast)
  refine ⟨machine, ?_, h.pass rfl h.still rfl rfl rfl (fun key => cursor_other h.env nofun)
    (fun key => cursor_other h.reads nofun) (fun key => cursor_other h.writes nofun)⟩
  have hsession : getSession machine = (.ok machine.session, machine) := rfl
  have houtcome : machine.session.index.outcome = some last := by
    rw [h.index, build_outcome, hlast]
  rw [Session.outcome, run_bind_ok hsession, houtcome]
  simp only [hsame, ne_eq, not_true_eq_false, if_false, h.still.session.canRecord,
    Bool.false_eq_true, run_pure]

end Replay

/-! ## Whole runs -/

section Runs

variable {W' : Type} {base : Machine F D W'} {matchOn : List Matcher} {world : World F D W}
  (world' : World F D W')

/-- A transcript gives the agent its answers once more, and nothing is left over. -/
theorem transcript_cued (live : Bool)
    (hkeys : ∀ root path, world'.key root path = world.key root path)
    {agent : Agent F} {answers : List (Answer F)} {events : List (Event F D)}
    (htranscript : Transcript world base.store agent answers events)
    (hblobs : ∀ bytes ∈ answers.flatMap Answer.blobs, base.store.Has bytes →
      base.store.get (Sha256.hash bytes) = .ok bytes)
    {before : List (Event F D)} {machine : Machine F D W'} (hseparate : Separate (before ++ events))
    (honce : ToolsOnce (before ++ events)) (hagree : OutcomesAgree (before ++ events))
    (h : Cued base matchOn before events machine) :
    ∃ machine', agent.run world' live machine = (.ok answers, machine') ∧
      Cued base matchOn (before ++ events) [] machine' := by
  induction htranscript generalizing before machine with
  | done =>
    rw [List.append_nil]
    exact ⟨machine, rfl, h⟩
  | create hcall rest ih =>
    obtain ⟨mid, hcreate, hmid⟩ := create_cued world' (hcall.backend _ live) h
    rw [List.append_cons] at hseparate honce hagree
    obtain ⟨machine', hrest, hend⟩ := ih hblobs hseparate honce hagree hmid
    refine ⟨machine', ?_, by rwa [List.append_cons]⟩
    rw [Agent.run, run_bind_ok hcreate, run_bind_ok hrest, run_pure]
  | stream hcall rest ih =>
    obtain ⟨mid, hconsume, hmid⟩ := consume_cued world' (hcall.backend _ live) h
    rw [List.append_cons] at hseparate honce hagree
    obtain ⟨machine', hrest, hend⟩ := ih hblobs hseparate honce hagree hmid
    refine ⟨machine', ?_, by rwa [List.append_cons]⟩
    rw [Agent.run, run_bind_ok hconsume]
    dsimp only
    rw [run_bind_ok hrest, run_pure]
  | @tool parentCallId request next outcome inner event answers events hinner htool hhas rest ih =>
    have hblob := hblobs _ (List.mem_append_left _ (List.mem_singleton.mpr rfl)) hhas
    obtain ⟨mid, hcall, hmid⟩ := toolsCall_cued world' live hinner htool hblob honce h
    have hlog : before ++ (inner ++ .toolCall event :: events) =
        before ++ inner ++ [.toolCall event] ++ events := by simp
    rw [hlog] at hseparate honce hagree
    obtain ⟨machine', hrest, hend⟩ := ih (fun bytes hbytes => hblobs bytes
      (List.mem_append_right _ hbytes)) hseparate honce hagree hmid
    refine ⟨machine', ?_, by rwa [hlog]⟩
    rw [Agent.run, run_bind_ok hcall, run_bind_ok hrest, run_pure]
  | env hsource hkey htool rest ih =>
    obtain ⟨mid, hvalue, hmid⟩ := envValue_cued world' htool hseparate h
    rw [hsource, hkey] at hvalue
    rw [List.append_cons] at hseparate honce hagree
    obtain ⟨machine', hrest, hend⟩ := ih hblobs hseparate honce hagree hmid
    refine ⟨machine', ?_, by rwa [List.append_cons]⟩
    rw [Agent.run, run_bind_ok hvalue, run_bind_ok hrest, run_pure]
  | @content root path key next event data answers events hkey hread htells rest ih =>
    have hdata : ∀ bytes ∈ data, base.store.get (Sha256.hash bytes) = .ok bytes := by
      rintro bytes rfl
      exact hblobs bytes (List.mem_append_left _ (List.mem_singleton.mpr rfl)) htells.2.1
    obtain ⟨mid, hvalue, hmid⟩ := readBytes_cued world' ((hkeys root path).trans hkey) hread htells
      hdata hseparate h
    rw [List.append_cons] at hseparate honce hagree
    obtain ⟨machine', hrest, hend⟩ := ih (fun bytes hbytes => hblobs bytes
      (List.mem_append_right _ hbytes)) hseparate honce hagree hmid
    refine ⟨machine', ?_, by rwa [List.append_cons]⟩
    rw [Agent.run, run_bind_ok hvalue, run_bind_ok hrest, run_pure]
  | @pathExists root path key next event answers events hkey hread rest ih =>
    obtain ⟨mid, hvalue, hmid⟩ := fileExists_cued world' ((hkeys root path).trans hkey) hread
      hseparate h
    rw [List.append_cons] at hseparate honce hagree
    obtain ⟨machine', hrest, hend⟩ := ih hblobs hseparate honce hagree hmid
    refine ⟨machine', ?_, by rwa [List.append_cons]⟩
    rw [Agent.run, run_bind_ok hvalue, run_bind_ok hrest, run_pure]
  | @listing root path key next event names answers events hkey hread htells rest ih =>
    have hnames : ∀ listed ∈ names, base.store.get (Sha256.hash (listingBytes F listed)) =
        .ok (listingBytes F listed) := by
      rintro listed rfl
      exact hblobs _ (List.mem_append_left _ (List.mem_singleton.mpr rfl)) htells.2.1
    obtain ⟨mid, hvalue, hmid⟩ := listDir_cued world' ((hkeys root path).trans hkey) hread htells
      hnames hseparate h
    rw [List.append_cons] at hseparate honce hagree
    obtain ⟨machine', hrest, hend⟩ := ih (fun bytes hbytes => hblobs bytes
      (List.mem_append_right _ hbytes)) hseparate honce hagree hmid
    refine ⟨machine', ?_, by rwa [List.append_cons]⟩
    rw [Agent.run, run_bind_ok hvalue, run_bind_ok hrest, run_pure]
  | @write root path key data next event answers events hkey hpath hdigest htool rest ih =>
    obtain ⟨mid, hvalue, hmid⟩ := writeBytes_cued world' ((hkeys root path).trans hkey) hpath
      hdigest htool hseparate h
    rw [List.append_cons] at hseparate honce hagree
    obtain ⟨machine', hrest, hend⟩ := ih hblobs hseparate honce hagree hmid
    refine ⟨machine', ?_, by rwa [List.append_cons]⟩
    rw [Agent.run, run_bind_ok hvalue, run_bind_ok hrest, run_pure]
  | outcome hstatus rest ih =>
    obtain ⟨mid, hvalue, hmid⟩ := outcome_cued world' hstatus hagree h
    rw [List.append_cons] at hseparate honce hagree
    obtain ⟨machine', hrest, hend⟩ := ih hblobs hseparate honce hagree hmid
    refine ⟨machine', ?_, by rwa [List.append_cons]⟩
    rw [Agent.run, run_bind_ok hvalue, run_bind_ok hrest, run_pure]

end Runs

/-- The store knows no run of this id and no event of it. -/
structure Store.Vacant (store : Store F D) (runId : Text) : Prop where
  runs : ∀ run ∈ store.runs, run.runId ≠ runId
  rows : store.rowsOf runId = []

omit [DecidableEq D] in
/-- A session that was opened to record a new run begins with an empty log. -/
theorem openSession_taping {store opened : Store F D} (hintact : store.Intact)
    {fresh : RunHeader F} (hnew : store.Vacant fresh.runId) {found : Option (RunHeader F)}
    {mode : RecordMode} (hfresh : found = none ∨ mode = .all) {redactor : Redactor F D}
    (hoff : redactor.Off) {matchOn : List Matcher} {session : Session F D}
    (hopen : openSession store found fresh mode redactor matchOn = some (session, opened))
    (outside : W) :
    Taping (store.runs ++ [fresh]) fresh.runId []
      ({ session, store := opened, outside } : Machine F D W) := by
  have hfound : (if mode = .all then none else found) = none := by
    rcases hfresh with rfl | rfl
    · exact ite_self none
    · rfl
  rw [openSession, hfound] at hopen
  dsimp only at hopen
  split at hopen
  · cases hopen
  · next hmode =>
    cases hopen
    refine {
      runId := rfl, records := ?_, fresh := rfl, intervention := rfl, matcher := rfl, off := hoff
      toolCalls := rfl, outcome := rfl, agree := fun a _ ha => absurd ha List.not_mem_nil
      logs := hnew.rows, intact := hintact, runs := rfl }
    cases mode with
    | none => exact absurd rfl hmode
    | _ => rfl

omit [Sha256 D] [Pydantic F D] [DecidableEq D] in
/-- Closing a session writes no event. -/
theorem closeSession_rows (world : World F D W) (exceptional : Bool) (machine : Machine F D W) :
    (closeSession world exceptional machine).store.rows = machine.store.rows := by
  rw [closeSession]
  split <;> rfl

omit [Sha256 D] [Pydantic F D] [DecidableEq D] in
/-- Closing a session writes no blob. -/
theorem closeSession_blobs (world : World F D W) (exceptional : Bool) (machine : Machine F D W) :
    (closeSession world exceptional machine).store.blobs = machine.store.blobs := by
  rw [closeSession]
  split <;> rfl

omit [DecidableEq D] in
/-- Closing the session keeps the events, and the header stays unredacted. -/
theorem closeSession_taping (world : World F D W) {runs : List (RunHeader F)} {runId : Text}
    {events : List (Event F D)} {machine : Machine F D W}
    (h : Taping runs runId events machine) (exceptional : Bool) :
    (closeSession world exceptional machine).store.Logs runId events ∧
      ∃ finish : RunHeader F → RunHeader F,
        (closeSession world exceptional machine).store.runs = runs.map finish ∧
          ∀ run, (finish run).runId = run.runId ∧ (finish run).redacted = run.redacted := by
  have hlogs := h.logs
  rw [h.runId] at hlogs
  constructor
  · rw [Store.Logs, Store.rowsOf, closeSession_rows]
    exact hlogs
  · rw [closeSession, h.records, if_pos rfl, ← h.runs]
    refine ⟨_, rfl, fun run => ?_⟩
    split <;> exact ⟨rfl, rfl⟩

omit [DecidableEq D] in
/-- A session over a finished log begins at its first event. -/
theorem openSession_cued {store : Store F D} {header : RunHeader F} (fresh : RunHeader F)
    {stored : List (StoredEvent F D)} (hevents : store.events header.runId = some stored)
    (hredacted : header.redacted = false) {mode : RecordMode} (hmode : mode = .none ∨ mode = .once)
    (redactor : Redactor F D) (matchOn : List Matcher) (outside : W) :
    ∃ session, openSession store (some header) fresh mode redactor matchOn = some (session, store) ∧
      Cued { session, store, outside } matchOn [] (stored.map fun e => e.event)
        ({ session, store, outside } : Machine F D W) := by
  have hall : mode ≠ .all := by
    rcases hmode with rfl | rfl <;> decide
  refine ⟨Session.new header.runId mode { redactor with enabled := header.redacted } matchOn
    (some (stored.map fun e => e.event)) none, ?_, ?_⟩
  · simp only [openSession, if_neg hall, hevents, Option.bind_eq_bind, Option.bind_some]
    rfl
  · refine {
      still := ⟨⟨?_, rfl, rfl, rfl, rfl⟩, rfl, rfl, rfl⟩, disabled := hredacted, index := rfl
      matcher := ?_, env := fun _ => rfl, reads := fun _ => rfl, writes := fun _ => rfl }
    · rcases hmode with rfl | rfl <;> rfl
    · simp only [Session.new, Option.elim_some, Option.map_some, build_calls, List.filterMap_nil,
        List.map_nil, List.nil_append]

/-- A recorded agent is replayed faithfully. When a new run of an agent was recorded without
redaction and returned, the run is read back, and in every session that only replays it the
agent is given the same answers, whatever is matched on and whether or not backends are
there. Nothing is called and nothing is written. It takes that no queue is used by the agent
and by its tools, that no tool call is recorded twice and that no digests collide. -/
theorem replay_faithful {world : World F D W} (hworld : world.Normal) {store opened : Store F D}
    (hintact : store.Intact) {fresh : RunHeader F} (hnew : store.Vacant fresh.runId)
    {found : Option (RunHeader F)} {mode : RecordMode} (hfresh : found = none ∨ mode = .all)
    {redactor : Redactor F D} (hoff : redactor.Off) (hredacted : fresh.redacted = redactor.enabled)
    {matchOn : List Matcher} {session : Session F D}
    (hopen : openSession store found fresh mode redactor matchOn = some (session, opened))
    (outside : W) (agent : Agent F) {answers : List (Answer F)} {recorded : Machine F D W}
    (hrun : agent.run world true { session, store := opened, outside } = (.ok answers, recorded))
    (exceptional : Bool) :
    let saved := (closeSession world exceptional recorded).store
    ∃ stored, saved.events fresh.runId = some stored ∧
      (∃ header ∈ saved.runs, header.runId = fresh.runId) ∧
      (Separate (stored.map fun e => e.event) → ToolsOnce (stored.map fun e => e.event) →
        NoCollision saved answers →
        ∀ header ∈ saved.runs, header.runId = fresh.runId → ∀ {W' : Type} (world' : World F D W'),
          (∀ root path, world'.key root path = world.key root path) →
          ∀ (fresh' : RunHeader F) (mode' : RecordMode), mode' = .none ∨ mode' = .once →
          ∀ (redactor' : Redactor F D) (matchOn' : List Matcher) (live : Bool) (outside' : W'),
            ∃ session' replayed,
              openSession saved (some header) fresh' mode' redactor' matchOn' =
                some (session', saved) ∧
              agent.run world' live { session := session', store := saved, outside := outside' } =
                (.ok answers, replayed) ∧
              replayed.store = saved ∧ replayed.outside = outside' ∧ replayed.calls = []) := by
  intro saved
  have hstart := openSession_taping hintact hnew hfresh hoff hopen outside
  obtain ⟨events, htaped, htranscript⟩ := run_taped world hworld agent hstart rfl hrun
  obtain ⟨hlogs, finish, hruns, hfinish⟩ := closeSession_taping world htaped.taping exceptional
  have hblobs : saved.blobs = recorded.store.blobs := closeSession_blobs world exceptional recorded
  obtain ⟨stored, hstored, rfl⟩ := hlogs.events_eq
  have hkeep : saved.runs = (store.runs ++ [fresh]).map finish := hruns
  refine ⟨stored, hstored, ⟨finish fresh, ?_, (hfinish fresh).1⟩, ?_⟩
  · rw [hkeep]
    exact List.mem_map_of_mem (List.mem_append_right _ List.mem_cons_self)
  intro hseparate honce hcollision header hheader hid W' world' hkeys fresh' mode' hmode' redactor'
    matchOn' live outside'
  have hunredacted : header.redacted = false := by
    rw [hkeep] at hheader
    obtain ⟨run, hrun', rfl⟩ := List.mem_map.mp hheader
    rw [(hfinish run).1] at hid
    rw [(hfinish run).2]
    rcases List.mem_append.mp hrun' with hold | hlast
    · exact absurd hid (hnew.runs run hold)
    · rw [List.mem_singleton.mp hlast, hredacted, hoff.disabled]
  rw [← hid] at hstored
  obtain ⟨session', hopened, hcued⟩ := openSession_cued (W := W') fresh' hstored
    hunredacted hmode' redactor' matchOn' outside'
  have hbelow : recorded.store.Below saved := by
    intro digest data hdata
    rw [hblobs]
    exact hdata
  have hintact' : saved.Intact := by
    intro digest data hdata
    rw [hblobs] at hdata
    exact htaped.taping.intact digest data hdata
  have hread : ∀ bytes ∈ answers.flatMap Answer.blobs, saved.Has bytes →
      saved.get (Sha256.hash bytes) = .ok bytes := fun bytes hbytes hhas =>
    get_of_has hintact' hhas fun digest blob hblob => hcollision digest blob hblob bytes hbytes
  obtain ⟨replayed, hreplay, hend⟩ := transcript_cued world' live hkeys
    (htranscript.mono world hbelow) hread hseparate honce htaped.taping.agree hcued
  exact ⟨session', replayed, hopened, hreplay, hend.still.store, hend.still.outside,
    hend.still.calls⟩

/-! A run with two model calls, one of them streamed, and with a tool that reads the clock,
which the agent does not. -/

/-- A world that answers everything and counts what it is asked for. -/
def talkingWorld : World Decimal HexDigest ℕ where
  answer call outside := match call with
    | .create _ _ _ => (.ok { text := "go".toList, finishReason := "stop".toList }, outside + 1)
    | .stream _ _ _ => (.ok demoScript, outside + 1)
    | .dispatch _ _ =>
      (.ok (.env .clock none fun _ => .done { content := "done".toList }), outside + 1)
    | .produce _ _ => (.ok (sortKeys (.num (.int outside))), outside + 1)
    | .isFile _ => (.ok true, outside + 1)
    | .pathExists _ => (.ok true, outside + 1)
    | .isDir _ => (.ok true, outside + 1)
    | .readBytes _ => (.ok [104, 105], outside + 1)
    | .listdir _ => (.ok ["a".toList], outside + 1)
    | .write _ _ => (.ok (), outside + 1)
  eventMeta _ := ⟨half, none, none⟩
  uuid4 outside := ([Nat.digitChar outside], outside + 1)
  resolve _ _ := none

/-- The world of the example is normal. -/
theorem talkingWorld_normal : talkingWorld.Normal := by
  intro call outside
  cases call <;> exact ⟨_, rfl⟩

/-- An agent that asks a model twice, draws a number and calls a tool. -/
def talkingAgent : Agent Decimal :=
  .create demoAsked fun _ => .stream demoAsked fun callId _ _ =>
    .env .random none fun _ =>
      .tool callId ⟨"t".toList, "f".toList, .empty, 0⟩ fun _ =>
        .outcome { status := .ok } .done

/-- The header of its run. -/
def talkingRun : RunHeader Decimal where
  runId := "run".toList
  name := "talk".toList
  startedAt := half
  status := .running
  redacted := false

/-- The beginning and the end of its recording. -/
def talkingStart : Machine Decimal HexDigest ℕ where
  session := Session.new "run".toList .once .disabled [] none none
  store := { runs := [talkingRun] }
  outside := 0

def talkingEnd : Machine Decimal HexDigest ℕ :=
  (talkingAgent.run talkingWorld true talkingStart).2

/-- A model call of the run. -/
def talkingCall (callId text : Text) (parentCallId : Option Text)
    (stream : Option (StreamRecord Decimal))
    (reassembles : StreamReassembles stream { text, finishReason := "stop".toList }) :
    Event Decimal HexDigest :=
  .modelCall {
    callId, provider := "p".toList, modelId := "m".toList, modelVersion := none, params := {}
    tools := none, messages := [], messagesHash := hashMessages Decimal HexDigest []
    response := { text, finishReason := "stop".toList }, stream, reassembles, parentCallId
    eventMeta := ⟨half, none, none⟩ }

/-- What was recorded: the clock was read by the tool. -/
def talkingEvents : List (Event Decimal HexDigest) := [
  talkingCall "1".toList "go".toList none none (streamReassembles_none _),
  talkingCall "2".toList "ab".toList (some "1".toList) (some ⟨demoScript.chunks⟩) (by decide),
  .environment {
    source := .random, key := none, value := sortKeys (.num (.int 4))
    parentCallId := some "2".toList, eventMeta := ⟨half, none, none⟩ },
  .environment {
    source := .clock, key := none, value := sortKeys (.num (.int 6))
    parentCallId := some "2".toList, toolCallId := some "t".toList
    eventMeta := ⟨half, none, none⟩ },
  .toolCall {
    parentCallId := "2".toList, toolCallId := "t".toList, batchIndex := 0, name := "f".toList
    args := .empty, argsHash := hashArgs HexDigest (.empty : CanonicalMapping Decimal)
    result := ⟨Sha256.hash (Utf8.encode "done".toList), 4⟩, status := .ok, error := none
    eventMeta := ⟨half, none, none⟩ },
  .outcome {
    status := .ok, error := none, usage := {}, coverage := none, resolve := none, patch := none
    testSummary := none, parentCallId := some "2".toList, eventMeta := ⟨half, none, none⟩ }]

/-- The recorded rows of the example are those of its events. -/
theorem talkingEnd_rows : talkingEnd.store.rows = eventRows "run".toList talkingEvents := by
  decide +kernel

/-- The agent of the example runs to its end, with a model call and a stream. -/
theorem talkingAgent_run : ∃ answers,
    talkingAgent.run talkingWorld true talkingStart = (.ok answers, talkingEnd) ∧
      answers.flatMap Answer.blobs = [Utf8.encode "done".toList] := by
  have hreturns : (talkingAgent.run talkingWorld true talkingStart).1.toOption.map
      (fun answers => answers.flatMap Answer.blobs) = some [Utf8.encode "done".toList] := by
    decide +kernel
  obtain ⟨answers, hanswers, hblobs⟩ := Option.map_eq_some_iff.mp hreturns
  refine ⟨answers, ?_, hblobs⟩
  rw [talkingEnd]
  generalize talkingAgent.run talkingWorld true talkingStart = result at hanswers ⊢
  obtain ⟨raised | returned, ended⟩ := result
  · cases hanswers
  · cases hanswers
    rfl

/-- The store of the example has no events of the run yet. -/
theorem talkingStart_vacant : ({} : Store Decimal HexDigest).Vacant talkingRun.runId := by
  refine ⟨?_, rfl⟩
  intro _ h
  cases h

/-- The store of the example is intact. -/
theorem talkingStart_intact : ({} : Store Decimal HexDigest).Intact := by
  intro _ _ h
  cases h

/-- The tool's clock does not come between the agent and its number. -/
theorem replay_faithful_talking : ∃ (answers : List (Answer Decimal))
    (session : Session Decimal HexDigest) (replayed : Machine Decimal HexDigest Unit),
    let saved := (closeSession talkingWorld false talkingEnd).store
    talkingAgent.run talkingWorld true talkingStart = (.ok answers, talkingEnd) ∧
      talkingAgent.run silentWorld false { session, store := saved, outside := () } =
        (.ok answers, replayed) ∧ replayed.store = saved ∧ replayed.calls = [] := by
  obtain ⟨answers, hrun, hblobs⟩ := talkingAgent_run
  have hlogs : (closeSession talkingWorld false talkingEnd).store.Logs "run".toList
      talkingEvents := by
    rw [Store.Logs, Store.rowsOf, closeSession_rows, talkingEnd_rows, List.filter_eq_self]
    decide
  have hoff : (Redactor.disabled : Redactor Decimal HexDigest).Off := ⟨rfl, rfl⟩
  have hopen : openSession ({} : Store Decimal HexDigest) none talkingRun .once .disabled [] =
    some (talkingStart.session, talkingStart.store) := rfl
  obtain ⟨stored, hstored, ⟨header, hheader, hid⟩, hreplay⟩ := replay_faithful talkingWorld_normal
    talkingStart_intact talkingStart_vacant (.inl rfl) hoff rfl hopen 0 talkingAgent hrun false
  obtain ⟨stored', hstored', hevents⟩ := hlogs.events_eq
  obtain rfl : stored = stored' := Option.some.inj (hstored.symm.trans hstored')
  rw [hevents] at hreplay
  have hcollision : NoCollision (closeSession talkingWorld false talkingEnd).store answers := by
    obtain ⟨more, htaped, -⟩ := run_taped talkingWorld talkingWorld_normal talkingAgent
      (openSession_taping talkingStart_intact talkingStart_vacant (.inl rfl) hoff hopen 0) rfl hrun
    have hdone : talkingEnd.store.blobs (Sha256.hash (Utf8.encode "done".toList)) =
        some (Utf8.encode "done".toList) := by decide +kernel
    intro digest blob hblob data hdata hhash
    rw [hblobs, List.mem_singleton] at hdata
    subst hdata
    rw [closeSession_blobs] at hblob
    rw [← htaped.taping.intact digest blob hblob, hhash, hdone] at hblob
    exact (Option.some.inj hblob).symm
  obtain ⟨session, replayed, -, hreplayed, hstore, -, hcalls⟩ := hreplay (by decide) (by decide)
    hcollision header hheader hid silentWorld (fun _ _ => rfl) talkingRun .none (.inl rfl) .disabled
    [] false ()
  exact ⟨answers, session, replayed, hrun, hreplayed, hstore, hcalls⟩

end Tracewake.Recording
