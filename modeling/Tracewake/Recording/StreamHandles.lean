import Tracewake.Recording.RecordedRuns
import Tracewake.Recording.PureReplay

/-!
# Streams are recorded once

A stream that a backend answers is recorded when the agent has left it: when it has seen the
end or an exception, or has drained it or left its context. Then exactly one model call was
appended, its chunks are those that the agent was handed, and nothing that is done with the
handle later changes anything.
-/

namespace Tracewake.Recording

open JsonText Effects

variable {F D W : Type} [Python F] [Sha256 D] [Pydantic F D]

/-! ## Using a stream -/

/-- What an agent does with the handle of a stream. -/
inductive StreamUse where
  | next
  | drain
  | exit (exception : Bool)
  deriving DecidableEq

/-- The chunk that a step hands to the agent. -/
def StreamStep.handed : StreamStep F D → List (StreamChunk F)
  | .chunk item => [item]
  | _ => []

/-- The chunks that the loop of `drain` gets from `__next__`. -/
def StreamHandle.loop (world : World F D W) :
    List (StreamChunk F) → StreamHandle F D →
      Py F D W (List (StreamChunk F) × StreamHandle F D)
  | [], handle => do
    let (step, handle) ← handle.next world
    return (step.handed, handle)
  | _ :: rest, handle => do
    let (step, handle) ← handle.next world
    let (chunks, handle) ← loop world rest handle
    return (step.handed ++ chunks, handle)

/-- A use of a stream, with the chunks that are handed over and whether the agent has left
the stream. -/
def StreamUse.run (world : World F D W) (handle : StreamHandle F D) :
    StreamUse → Py F D W ((List (StreamChunk F) × Bool) × StreamHandle F D)
  | .next => do
    let (step, handle) ← handle.next world
    return ((step.handed, step.handed.isEmpty), handle)
  | .drain => do
    if handle.response.isSome then return (([], true), handle)
    let (chunks, handle) ← handle.loop world handle.source.chunks
    return ((chunks, true), handle)
  | .exit exception => do
    if handle.response.isSome || exception then
      let (_, handle) ← handle.exit world exception
      return (([], true), handle)
    else
      let (chunks, handle) ← handle.loop world handle.source.chunks
      return ((chunks, true), handle)

/-- A stream in use: the chunks that were handed over, whether the agent has left it, the
handle and the machine. -/
structure StreamInUse (F D W : Type) [Python F] where
  handed : List (StreamChunk F) := []
  left : Bool := false
  handle : StreamHandle F D
  machine : Machine F D W

/-- Use a stream once more. -/
def StreamInUse.step (world : World F D W) (stream : StreamInUse F D W) (use : StreamUse) :
    StreamInUse F D W :=
  match use.run world stream.handle stream.machine with
  | (.ok ((chunks, left), handle), machine) =>
    { handed := stream.handed ++ chunks, left := stream.left || left, handle, machine }
  | (.error _, machine) => { stream with machine }

/-- Use a stream again and again. -/
def StreamInUse.run (world : World F D W) (stream : StreamInUse F D W) (uses : List StreamUse) :
    StreamInUse F D W :=
  uses.foldl (StreamInUse.step world) stream

/-- The method of the handle that a use calls. -/
def StreamUse.method (world : World F D W) (handle : StreamHandle F D) :
    StreamUse → Py F D W (StreamStep F D × StreamHandle F D)
  | .next => handle.next world
  | .drain => handle.drain world
  | .exit exception => handle.exit world exception

section Methods

variable (world : World F D W)

omit [Sha256 D] [Pydantic F D] in
/-- An attempt returns. -/
theorem attempt_returns {α : Type} (body : Py F D W α) (machine : Machine F D W) :
    ∃ result machine', attempt body machine = (.ok result, machine') := by
  rw [attempt, run_tryCatch, map_eq_pure_bind, run_bind]
  rcases body machine with ⟨raised | a, machine'⟩
  · exact ⟨_, _, rfl⟩
  · exact ⟨_, _, rfl⟩

/-- `__next__` comes to a step. -/
theorem next_returns (handle : StreamHandle F D) (machine : Machine F D W) :
    ∃ step handle' machine', handle.next world machine = (.ok (step, handle'), machine') := by
  rw [StreamHandle.next]
  by_cases hresponse : handle.response.isSome = true
  · rw [if_pos hresponse]
    exact ⟨_, _, _, rfl⟩
  rw [if_neg hresponse]
  cases handle.source.chunks with
  | cons chunk rest => exact ⟨_, _, _, rfl⟩
  | nil =>
    cases handle.source.finish with
    | ok returned =>
      obtain ⟨result, machine', hrun⟩ := attempt_returns
        (({ handle with returned := handle.returned.or returned }).finalize world) machine
      dsimp only
      rw [run_bind_ok hrun]
      cases result with
      | ok response => exact ⟨_, _, _, rfl⟩
      | error raised => exact ⟨_, _, _, rfl⟩
    | error raised =>
      obtain ⟨result, machine', hrun⟩ := attempt_returns
        (({ handle with source := { handle.source with finish := .ok none } }).finalize world)
          machine
      dsimp only
      rw [run_bind_ok hrun]
      cases result with
      | ok response => exact ⟨_, _, _, rfl⟩
      | error raised => exact ⟨_, _, _, rfl⟩

/-- The loop is the one of `drain`. -/
theorem loop_drainFrom (chunks : List (StreamChunk F)) (handle : StreamHandle F D)
    (machine : Machine F D W) :
    ∃ step handed handle' machine',
      handle.drainFrom world chunks machine = (.ok (step, handle'), machine') ∧
      handle.loop world chunks machine = (.ok (handed, handle'), machine') := by
  induction chunks generalizing handle machine with
  | nil =>
    obtain ⟨step, handle', machine', hnext⟩ := next_returns world handle machine
    refine ⟨step, step.handed, handle', machine', hnext, ?_⟩
    rw [StreamHandle.loop, run_bind_ok hnext]
    rfl
  | cons chunk rest ih =>
    obtain ⟨step, handle', machine', hnext⟩ := next_returns world handle machine
    obtain ⟨last, handed, handle'', machine'', hdrain, hloop⟩ := ih handle' machine'
    refine ⟨last, step.handed ++ handed, handle'', machine'', ?_, ?_⟩
    · rw [StreamHandle.drainFrom, run_bind_ok hnext]
      exact hdrain
    · rw [StreamHandle.loop, run_bind_ok hnext]
      dsimp only
      rw [run_bind_ok hloop]
      rfl

/-- A use is a call of the handle's method. -/
theorem run_method (handle : StreamHandle F D) (machine : Machine F D W) (use : StreamUse) :
    ∃ step result handle' machine',
      use.method world handle machine = (.ok (step, handle'), machine') ∧
      use.run world handle machine = (.ok (result, handle'), machine') := by
  have hloop := loop_drainFrom world handle.source.chunks handle machine
  cases use with
  | next =>
    obtain ⟨step, handle', machine', hnext⟩ := next_returns world handle machine
    refine ⟨step, (step.handed, step.handed.isEmpty), handle', machine', hnext, ?_⟩
    rw [StreamUse.run, run_bind_ok hnext]
    rfl
  | drain =>
    rw [StreamUse.method, StreamHandle.drain, StreamUse.run]
    split
    · exact ⟨_, _, _, _, rfl, rfl⟩
    · obtain ⟨step, handed, handle', machine', hdrain, hloop⟩ := hloop
      exact ⟨step, (handed, true), handle', machine', hdrain, run_bind_ok hloop⟩
  | exit exception =>
    by_cases hresponse : handle.response.isSome = true
    · rw [StreamUse.method, StreamUse.run, StreamHandle.exit, hresponse]
      exact ⟨_, _, _, _, rfl, rfl⟩
    rw [Bool.not_eq_true] at hresponse
    cases exception with
    | true =>
      obtain ⟨result, machine', hrun⟩ := attempt_returns (handle.finalize world) machine
      rw [StreamUse.method, StreamUse.run, StreamHandle.exit, hresponse]
      simp only [Bool.false_or, if_true, Bool.false_eq_true, if_false]
      rw [run_bind_ok hrun]
      cases result with
      | ok response =>
        refine ⟨_, ([], true), _, _, rfl, ?_⟩
        rw [run_bind, run_bind_ok hrun]
        rfl
      | error raised =>
        refine ⟨_, ([], true), _, _, rfl, ?_⟩
        rw [run_bind, run_bind_ok hrun]
        rfl
    | false =>
      obtain ⟨step, handed, handle', machine', hdrain, hloop⟩ := hloop
      rw [StreamUse.method, StreamUse.run, StreamHandle.exit, hresponse]
      refine ⟨step, (handed, true), handle', machine', ?_, run_bind_ok hloop⟩
      rw [← hdrain]
      simp only [Bool.false_eq_true, if_false, StreamHandle.drain, hresponse]

end Methods

/-! ## Finalizing -/

/-- The redactor passes on every event as it is. -/
structure Redactor.Off (redactor : Redactor F D) : Prop where
  disabled : redactor.enabled = false
  unhooked : redactor.beforeRecord = none

section Finalizing

variable (world : World F D W) {machine : Machine F D W}

/-- Without redaction the messages stay as they are. -/
theorem Redactor.Off.messages {redactor : Redactor F D} (h : redactor.Off)
    (messages : List Message) : redactor.messages messages = some messages := by
  rw [Redactor.messages, h.disabled]
  rfl

/-- Without redaction an event stays as it is. -/
theorem Redactor.Off.event {redactor : Redactor F D} (h : redactor.Off) (event : Event F D) :
    redactor.event event = some (some event) := by
  simp [Redactor.event, h.disabled, h.unhooked]

/-- An event is appended as it is. -/
theorem append_off (hoff : machine.session.redactor.Off)
    (hrecords : machine.session.canRecord = true) (event : Event F D) :
    append event machine =
      (.ok ⟨⟩, { machine with store := machine.store.append machine.session.runId event }) := by
  rw [append, getSession]
  simp only [run_bind, run_get, run_pure]
  rw [hrecords]
  simp only [Bool.not_true, Bool.false_eq_true, if_false]
  rw [hoff.event]
  rfl

/-- A call whose stream reassembles is appended. -/
theorem appendModelCall_off (hoff : machine.session.redactor.Off)
    (hrecords : machine.session.canRecord = true) (callId : Text) (request : ModelRequest F)
    (messages : List Message) {response : ModelResponse F} {stream : Option (StreamRecord F)}
    (hreassembles : StreamReassembles stream response) :
    ∃ (call : ModelCallEvent F) (machine' : Machine F D W),
      appendModelCall world callId request messages response stream machine =
        (.ok ⟨⟩, machine') ∧ call.callId = callId ∧ call.response = response ∧
      call.stream = stream ∧ call.messages = messages ∧
      machine'.store = machine.store.append machine.session.runId (.modelCall call) := by
  rw [appendModelCall]
  simp only [run_bind, run_get]
  rw [hoff.messages]
  dsimp only
  rw [dif_pos hreassembles, run_bind, append_off hoff hrecords]
  exact ⟨_, _, rfl, rfl, rfl, rfl, rfl, rfl⟩

omit [Python F] [Sha256 D] [Pydantic F D] in
/-- Where the index does not matter. -/
theorem map_mapIdx_of {α β γ : Type} {f : ℕ → α → β} {g : β → γ} {h : α → γ}
    (hfg : ∀ i a, g (f i a) = h a) (l : List α) : (l.mapIdx f).map g = l.map h := by
  refine List.ext_getElem? fun i => ?_
  simp only [List.getElem?_map, List.getElem?_mapIdx, Option.map_map]
  cases l[i]? with
  | none => rfl
  | some a => exact congrArg some (hfg i a)

omit [Sha256 D] [Pydantic F D] in
/-- The response that stands for a missing one reassembles from the chunks. -/
theorem partialResponse_reassembles (chunks : List (StreamChunk F)) :
    StreamReassembles (some ⟨chunks⟩) (partialResponse chunks) := by
  intro record hrecord
  obtain rfl := Option.mem_some.mp hrecord
  refine ⟨rfl, fun _ => ?_⟩
  have hids : (deltaCalls chunks).map (fun call => call.id) = deltaIds chunks := by
    rw [deltaCalls, deltaIds, map_mapIdx_of (h := fun found => Python.str found.1) fun _ _ => rfl,
      List.map_filterMap]
    refine List.filterMap_congr fun chunk _ => ?_
    cases chunk.toolCallDelta with
    | none => rfl
    | some delta => simp [Function.comp_def]
  exact hids ▸ List.Perm.refl _

omit [Sha256 D] [Pydantic F D] in
/-- A body that succeeds is caught with its value. -/
theorem attempt_ok {α : Type} {body : Py F D W α} {machine' : Machine F D W} {a : α}
    (h : body machine = (.ok a, machine')) : attempt body machine = (.ok (.ok a), machine') := by
  rw [attempt, run_tryCatch, map_eq_pure_bind, run_bind_ok h]
  rfl

end Finalizing

/-! ## A stream of a backend -/

/-- A handle of a stream that a backend answers, with the chunks that were handed over and
those that are left. -/
def StreamHandle.opened (start : StreamHandle F D) (handed rest : List (StreamChunk F)) :
    StreamHandle F D :=
  { start with source := { start.source with chunks := rest }, chunks := handed }

/-- A new handle of a stream that a backend answers with a response that reassembles, with
none or with an exception. -/
structure StreamHandle.Fresh (start : StreamHandle F D) : Prop where
  live : ∃ request messages, start.onFinish = .live request messages
  returned : start.returned = none
  chunks : start.chunks = []
  response : start.response = none
  reassembles : ∀ response, start.source.finish = .ok (some response) →
    StreamReassembles (some ⟨start.source.chunks⟩) response

/-- The stream was recorded with the chunks that were handed over. -/
structure RecordedAs (start : StreamHandle F D) (machine : Machine F D W)
    (handed : List (StreamChunk F)) (handle : StreamHandle F D) (machine' : Machine F D W)
    (call : ModelCallEvent F) : Prop where
  callId : call.callId = start.callId
  stream : call.stream = some ⟨handed⟩
  response : handle.response = some call.response
  store : machine'.store = machine.store.append machine.session.runId (.modelCall call)

section Stream

variable (world : World F D W) {machine : Machine F D W} {start : StreamHandle F D}
variable (hoff : machine.session.redactor.Off) (hrecords : machine.session.canRecord = true)
variable (hfresh : start.Fresh)
include hoff hrecords hfresh

/-- Finalizing records the chunks of the handle, if they reassemble to what it records. -/
theorem finalize_recorded (handle : StreamHandle F D) (hid : handle.callId = start.callId)
    (honFinish : handle.onFinish = start.onFinish)
    (hreassembles : StreamReassembles (some ⟨handle.chunks⟩)
      (handle.returned.getD (partialResponse handle.chunks))) :
    ∃ (call : ModelCallEvent F) (machine' : Machine F D W),
      attempt (handle.finalize world) machine = (.ok (.ok call.response), machine') ∧
      ∀ handle' : StreamHandle F D, handle'.response = some call.response →
        RecordedAs start machine handle.chunks handle' machine' call := by
  obtain ⟨request, messages, hlive⟩ := hfresh.live
  obtain ⟨call, machine', hrun, hcallId, hresponse, hstream, -, hstore⟩ :=
    appendModelCall_off world hoff hrecords handle.callId request messages hreassembles
  refine ⟨call, machine', attempt_ok ?_, fun handle' hhandle' => {
    callId := hcallId.trans hid, stream := hstream, response := hhandle', store := hstore }⟩
  rw [StreamHandle.finalize, honFinish, hlive]
  dsimp only
  rw [run_bind_ok hrun, run_pure, hresponse]

omit [Sha256 D] [Pydantic F D] hoff hrecords in
/-- A stream that has just been opened has no response. -/
theorem opened_response (handed rest : List (StreamChunk F)) :
    (start.opened handed rest).response.isSome = false := by
  rw [show (start.opened handed rest).response = none from hfresh.response]
  rfl

omit hoff hrecords in
/-- A chunk that is left is handed over. -/
theorem next_opened (handed rest : List (StreamChunk F)) (chunk : StreamChunk F) :
    (start.opened handed (chunk :: rest)).next world machine =
      (.ok (.chunk chunk, start.opened (handed ++ [chunk]) rest), machine) := by
  rw [StreamHandle.next, opened_response hfresh]
  rfl

/-- At the end the stream is recorded, whatever its backend did. -/
theorem next_ended {handed : List (StreamChunk F)} (hall : start.source.chunks = handed) :
    ∃ (step : StreamStep F D) (handle : StreamHandle F D) (machine' : Machine F D W)
      (call : ModelCallEvent F),
      (start.opened handed []).next world machine = (.ok (step, handle), machine') ∧
      step.handed = [] ∧ RecordedAs start machine handed handle machine' call := by
  rw [StreamHandle.next, opened_response hfresh]
  simp only [StreamHandle.opened, Bool.false_eq_true, if_false]
  cases hfinish : start.source.finish with
  | ok returned =>
    dsimp only
    obtain ⟨call, machine', hrun, hrecorded⟩ := finalize_recorded world hoff hrecords
      hfresh { start.opened handed [] with returned := start.returned.or returned } rfl rfl (by
        rw [hfresh.returned, Option.none_or]
        cases returned with
        | none => exact partialResponse_reassembles handed
        | some response => exact hall ▸ hfresh.reassembles response hfinish)
    refine ⟨.stop, { start.opened handed [] with
      returned := start.returned.or returned, response := some call.response }, machine', call, ?_,
      rfl, hrecorded _ rfl⟩
    simp only [StreamHandle.opened, hfinish] at hrun ⊢
    rw [run_bind_ok hrun]
    rfl
  | error raised =>
    dsimp only
    obtain ⟨call, machine', hrun, hrecorded⟩ := finalize_recorded world hoff hrecords
      hfresh { start.opened handed [] with
        source := { start.source with chunks := [], finish := .ok none } } rfl rfl (by
        rw [show (start.opened handed []).returned = none from hfresh.returned]
        exact partialResponse_reassembles handed)
    refine ⟨.raised raised, { start.opened handed [] with
      source := { start.source with chunks := [], finish := .ok none }
      response := some call.response }, machine', call, ?_, rfl, hrecorded _ rfl⟩
    simp only [StreamHandle.opened] at hrun ⊢
    rw [run_bind_ok hrun]
    rfl

/-- The loop of `drain` is handed all chunks that are left. -/
theorem loop_opened {handed rest : List (StreamChunk F)}
    (hall : start.source.chunks = handed ++ rest) :
    ∃ (handle : StreamHandle F D) (machine' : Machine F D W) (call : ModelCallEvent F),
      (start.opened handed rest).loop world rest machine = (.ok (rest, handle), machine') ∧
      RecordedAs start machine (handed ++ rest) handle machine' call := by
  induction rest generalizing handed with
  | nil =>
    rw [List.append_nil] at hall ⊢
    obtain ⟨step, handle, machine', call, hnext, hstep, hrecorded⟩ :=
      next_ended world hoff hrecords hfresh hall
    refine ⟨handle, machine', call, ?_, hrecorded⟩
    rw [StreamHandle.loop, run_bind_ok hnext, ← hstep]
    rfl
  | cons chunk rest ih =>
    have hsplit : handed ++ chunk :: rest = (handed ++ [chunk]) ++ rest := by simp
    rw [hsplit] at hall ⊢
    obtain ⟨handle, machine', call, hloop, hrecorded⟩ := ih hall
    refine ⟨handle, machine', call, ?_, hrecorded⟩
    rw [StreamHandle.loop, run_bind_ok (next_opened world hfresh handed rest chunk)]
    dsimp only
    rw [run_bind_ok hloop]
    rfl

/-- Nothing was recorded of the stream as yet. -/
structure StreamInUse.Open (start : StreamHandle F D) (machine : Machine F D W)
    (stream : StreamInUse F D W) (rest : List (StreamChunk F)) : Prop where
  left : stream.left = false
  all : start.source.chunks = stream.handed ++ rest
  handle : stream.handle = start.opened stream.handed rest
  machine : stream.machine = machine

/-- The agent has left the stream, and it was recorded. -/
structure StreamInUse.Closed (start : StreamHandle F D) (machine : Machine F D W)
    (stream : StreamInUse F D W) (call : ModelCallEvent F) : Prop where
  left : stream.left = true
  recorded : RecordedAs start machine stream.handed stream.handle stream.machine call

/-- What a use makes of a stream that is open. -/
theorem use_opened {handed rest : List (StreamChunk F)}
    (hall : start.source.chunks = handed ++ rest) (use : StreamUse) :
    (∃ chunk others, rest = chunk :: others ∧
      use.run world (start.opened handed rest) machine =
        (.ok (([chunk], false), start.opened (handed ++ [chunk]) others), machine)) ∨
    ∃ (chunks : List (StreamChunk F)) (handle : StreamHandle F D) (machine' : Machine F D W)
      (call : ModelCallEvent F),
      use.run world (start.opened handed rest) machine = (.ok ((chunks, true), handle), machine') ∧
      RecordedAs start machine (handed ++ chunks) handle machine' call := by
  obtain ⟨handle, machine', call, hloop, hrecorded⟩ :=
    loop_opened world hoff hrecords hfresh hall
  cases use with
  | next =>
    cases rest with
    | nil =>
      right
      rw [List.append_nil] at hall
      obtain ⟨step, handle, machine', call, hnext, hstep, hrecorded⟩ :=
        next_ended world hoff hrecords hfresh hall
      refine ⟨[], handle, machine', call, ?_, by rwa [List.append_nil]⟩
      rw [StreamUse.run, run_bind_ok hnext]
      dsimp only
      rw [hstep]
      rfl
    | cons chunk others =>
      left
      refine ⟨chunk, others, rfl, ?_⟩
      rw [StreamUse.run, run_bind_ok (next_opened world hfresh handed others chunk)]
      rfl
  | drain =>
    refine Or.inr ⟨rest, handle, machine', call, ?_, hrecorded⟩
    rw [StreamUse.run, opened_response hfresh]
    exact run_bind_ok hloop
  | exit exception =>
    right
    cases exception with
    | false =>
      refine ⟨rest, handle, machine', call, ?_, hrecorded⟩
      rw [StreamUse.run, opened_response hfresh]
      exact run_bind_ok hloop
    | true =>
      obtain ⟨call, machine', hrun, hrecorded⟩ := finalize_recorded world hoff hrecords
        hfresh (start.opened handed rest) rfl rfl (by
          rw [show (start.opened handed rest).returned = none from hfresh.returned]
          exact partialResponse_reassembles handed)
      refine ⟨[], { start.opened handed rest with response := some call.response }, machine', call,
        ?_, by rw [List.append_nil]; exact hrecorded _ rfl⟩
      rw [StreamUse.run, opened_response hfresh, StreamHandle.exit, opened_response hfresh]
      simp only [Bool.false_or, if_true, Bool.false_eq_true, if_false]
      rw [run_bind, run_bind_ok hrun]
      rfl

omit hoff hrecords hfresh in
/-- Nothing that is done with a handle that has a response changes anything. -/
theorem use_left {handle : StreamHandle F D} (h : handle.response.isSome = true)
    (use : StreamUse) :
    use.run world handle machine = (.ok (([], true), handle), machine) := by
  cases use with
  | next =>
    rw [StreamUse.run, StreamHandle.next, h]
    rfl
  | drain =>
    rw [StreamUse.run, h]
    rfl
  | exit exception =>
    rw [StreamUse.run, StreamHandle.exit, h]
    rfl

omit hoff hrecords hfresh in
/-- A stream that was closed cannot be used any more. -/
theorem step_left {stream : StreamInUse F D W} {call : ModelCallEvent F}
    (h : stream.Closed start machine call) (use : StreamUse) : stream.step world use = stream := by
  have hresponse : stream.handle.response.isSome = true := by
    rw [h.recorded.response]
    rfl
  rw [StreamInUse.step, use_left world hresponse]
  dsimp only
  rw [List.append_nil, h.left]
  obtain ⟨handed, left, handle, machine⟩ := stream
  obtain rfl : left = true := h.left
  rfl

omit hoff hrecords hfresh in
/-- A stream that was closed cannot be used any more, however often it is tried. -/
theorem run_left {stream : StreamInUse F D W} {call : ModelCallEvent F}
    (h : stream.Closed start machine call) (uses : List StreamUse) :
    stream.run world uses = stream := by
  induction uses with
  | nil => rfl
  | cons use rest ih =>
    rw [StreamInUse.run, List.foldl_cons, step_left world h use]
    exact ih

/-- A use leaves a stream open, or it records it. -/
theorem step_open {stream : StreamInUse F D W} {rest : List (StreamChunk F)}
    (h : stream.Open start machine rest) (use : StreamUse) :
    (∃ others, (stream.step world use).Open start machine others) ∨
      ∃ call, (stream.step world use).Closed start machine call := by
  obtain ⟨handed, left, handle, machine'⟩ := stream
  obtain ⟨hleft, hall, hhandle, hmachine⟩ := h
  dsimp only at hleft hall hhandle hmachine
  subst hleft hhandle hmachine
  rcases use_opened world hoff hrecords hfresh hall use with
    ⟨chunk, others, rfl, hrun⟩ | ⟨chunks, handle, machine', call, hrun, hrecorded⟩
  · left
    refine ⟨others, ?_⟩
    rw [StreamInUse.step, hrun]
    exact { left := rfl, all := by simpa using hall, handle := rfl, machine := rfl }
  · right
    refine ⟨call, ?_⟩
    rw [StreamInUse.step, hrun]
    exact { left := rfl, recorded := hrecorded }

/-- However a stream is used, it is open or it was recorded. -/
theorem run_open {stream : StreamInUse F D W} {rest : List (StreamChunk F)}
    (h : stream.Open start machine rest) (uses : List StreamUse) :
    (∃ others, (stream.run world uses).Open start machine others) ∨
      ∃ call, (stream.run world uses).Closed start machine call := by
  induction uses generalizing stream rest with
  | nil => exact Or.inl ⟨rest, h⟩
  | cons use uses ih =>
    rw [StreamInUse.run, List.foldl_cons]
    rcases step_open world hoff hrecords hfresh h use with
      ⟨others, hopen⟩ | ⟨call, hclosed⟩
    · exact ih hopen
    · have hrun := run_left world hclosed uses
      rw [StreamInUse.run] at hrun
      rw [hrun]
      exact Or.inr ⟨call, hclosed⟩

end Stream

/-! ## Opening a stream -/

section Opening

variable [DecidableEq D] {base : Machine F D W}

/-- Nothing was recorded since `base`. -/
structure Still (base machine : Machine F D W) : Prop where
  store : machine.store = base.store
  steady : base.session.Steady machine.session

omit [Sha256 D] [Pydantic F D] [DecidableEq D] in
/-- Reading the session leaves the stream's machine still. -/
theorem still_getSession : Ensures (Still base) getSession base.session.Steady :=
  Ensures.read.bind fun _ h => .ret h.steady

omit [Sha256 D] [Pydantic F D] [DecidableEq D] in
/-- A steady change leaves the stream's machine still. -/
theorem still_modifySession {change : Session F D → Session F D}
    (h : ∀ session, base.session.Steady session → session.Steady (change session)) :
    Ensures (Still base) (modifySession change) fun _ => True :=
  Ensures.change fun machine hmachine =>
    ⟨hmachine.store, hmachine.steady.trans (h machine.session hmachine.steady)⟩

omit [Sha256 D] [Pydantic F D] [DecidableEq D] in
/-- Looking at the messages of a turn leaves the stream's machine still. -/
theorem still_turnMessages (messages : List Message) :
    Ensures (Still base) (turnMessages messages) fun _ => True := by
  refine still_getSession.seq fun session => ?_
  refine Ensures.seq (still_modifySession fun _ _ => ⟨rfl, rfl, rfl, rfl, rfl, rfl⟩) fun _ => ?_
  cases session.intervention with
  | none => exact .ret trivial
  | some intervention =>
    refine Ensures.branch (fun _ => .ret trivial) fun _ => ?_
    exact Ensures.seq (still_modifySession fun _ _ => ⟨rfl, rfl, rfl, rfl, rfl, rfl⟩) fun _ =>
      .ret trivial

omit [DecidableEq D] in
/-- A request without a recorded response is one of a session that can record. -/
theorem still_matched (request : ModelRequest F) (messages : List Message)
    (hopened : base.session.matcher = none → base.session.canRecord = true) :
    Ensures (Still base) (matched request messages)
      fun hit => hit = none → base.session.canRecord = true := by
  refine still_getSession.bind fun session hsteady => ?_
  split
  · next hnone => exact .ret fun _ => hopened (hsteady.matcher hnone)
  · next matcher hmatcher =>
    split
    · exact .raise
    · refine Ensures.seq (still_modifySession fun _ hsteady' =>
        (hsteady.serve hsteady' hmatcher _).toSteady) fun _ => ?_
      refine Ensures.branch (fun _ => Ensures.raise.never) fun hrecords => .ret fun hhit => ?_
      rw [hhit] at hrecords
      rw [← hsteady.canRecord]
      simpa using hrecords

omit [DecidableEq D] in
/-- A stream that is opened is served from the recording, or it is new and of a session that
can record. -/
theorem still_stream (world : World F D W) (request : ModelRequest F)
    (hopened : base.session.matcher = none → base.session.canRecord = true) :
    Ensures (Still base) (Model.stream world request) fun handle =>
      (∃ response, handle.onFinish = .recorded response) ∨
        ((∃ messages, handle.onFinish = .live request messages) ∧ handle.returned = none ∧
          handle.chunks = [] ∧ handle.response = none ∧ base.session.canRecord = true) := by
  refine (still_turnMessages _).seq fun messages => ?_
  refine (still_matched request messages hopened).bind fun hit hhit => ?_
  cases hit with
  | some hit =>
    refine Ensures.seq (still_modifySession fun _ _ => ⟨rfl, rfl, rfl, rfl, rfl, rfl⟩) fun _ => ?_
    split
    · exact .raise
    · exact .ret (Or.inl ⟨hit.response, rfl⟩)
  | none =>
    have hrecords := hhit rfl
    have huuid : Ensures (Still base) (uuid4 world) fun _ => True :=
      Ensures.update (fun _ h => ⟨h.store, h.steady⟩) fun _ _ => trivial
    refine huuid.seq fun callId => ?_
    refine still_getSession.seq fun session => ?_
    refine Ensures.branch (fun _ => Ensures.raise.never) fun _ => ?_
    have hperform : Ensures (Still base)
        (perform world (.stream request.identity.modelId messages request.params))
        fun _ => True := fun machine h => ⟨⟨h.store, h.steady⟩, fun _ _ => trivial⟩
    refine hperform.seq fun source => .ret (Or.inr ?_)
    exact ⟨⟨messages, rfl⟩, rfl, rfl, rfl, hrecords⟩

/-- The sessions that were opened on a recording or to record one, with a redactor that is
off. -/
structure Recordable (redactor : Redactor F D) (runId : Text) (machine : Machine F D W) :
    Prop where
  redactor : machine.session.redactor = redactor
  runId : machine.session.runId = runId
  opened : machine.session.matcher = none → machine.session.canRecord = true

omit [DecidableEq D] in
/-- A machine that can record goes on to be one: the family of operations applies with this
predicate. -/
theorem recordable_lasting (redactor : Redactor F D) (runId : Text) :
    Lasting True redactor runId (Recordable (W := W) redactor runId) where
  serves _ h := ⟨fun _ => h.redactor, fun _ => h.runId, .inl trivial⟩
  session _ _ hsteady h := {
    redactor := hsteady.redactor.trans h.redactor
    runId := hsteady.runId.trans h.runId
    opened := fun hnone => by
      rw [hsteady.canRecord]
      exact h.opened (hsteady.matcher hnone) }
  scope _ _ h := ⟨h.redactor, h.runId, h.opened⟩
  outside _ _ _ _ h := ⟨h.redactor, h.runId, h.opened⟩
  blobs _ _ _ h := ⟨h.redactor, h.runId, h.opened⟩
  append _ _ _ _ _ _ h := ⟨h.redactor, h.runId, h.opened⟩

end Opening

/-! A stream of two chunks that is left after the first one. -/

/-- A chunk. -/
def demoChunk (index : ℤ) (text : String) : StreamChunk Decimal where
  index := index
  textDelta := text.toList

/-- A backend that streams two chunks and returns what they make up. -/
def demoScript : StreamScript Decimal HexDigest where
  chunks := [demoChunk 0 "a", demoChunk 1 "b"]
  finish := .ok (some { text := "ab".toList, finishReason := "stop".toList })

/-- A world whose backend streams two chunks. -/
def streamingWorld : World Decimal HexDigest Unit :=
  { silentWorld with
    answer := fun call outside => match call with
      | .stream _ _ _ => (.ok demoScript, outside)
      | call => silentWorld.answer call outside }

/-- A request with no messages. -/
def demoAsked : ModelRequest Decimal where
  identity := ⟨"p".toList, "m".toList, none⟩
  hasBackend := true
  messages := []
  tools := none
  params := {}

/-- The beginning of a run that is recorded. -/
def demoRecording : Machine Decimal HexDigest Unit where
  session := Session.new "run".toList .once .disabled [] none none
  store := {}
  outside := ()

/-- The handle of the stream. -/
def demoHandle : StreamHandle Decimal HexDigest where
  callId := "00".toList
  source := demoScript
  onFinish := .live demoAsked []

end Tracewake.Recording
