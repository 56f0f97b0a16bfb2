import Tracewake.Recording.Methods

/-!
# What a run records

Whatever an agent does with a session, the rows that come into the store are those of
redacted events, and the messages and arguments of a recorded call are the redactor's own
with their hash.
-/

namespace Tracewake.Recording

open JsonText Effects

variable {F D W : Type} [Python F] [Sha256 D] [Pydantic F D] [DecidableEq D]

/-- The row of a redacted event that was handed over. -/
def Appended (base : Machine F D W) (row : EventRow) : Prop :=
  ∃ seq event recorded, Handed base.session.redactor event ∧
    base.session.redactor.event event = some (some recorded) ∧
    row = Store.row D base.session.runId seq recorded

/-- Since `base` rows were appended, and nothing else happened to the rows. -/
structure Recorded (base machine : Machine F D W) : Prop where
  redactor : machine.session.redactor = base.session.redactor
  runId : machine.session.runId = base.session.runId
  rows : ∃ added, machine.store.rows = base.store.rows ++ added ∧
    ∀ row ∈ added, Appended base row

omit [DecidableEq D] in
/-- Whatever a method does, the rows that came in since `base` are those of events that were
handed over. -/
theorem recorded_lasting (base : Machine F D W) :
    Lasting True base.session.redactor base.session.runId (Recorded base) where
  serves _ h := ⟨fun _ => h.redactor, fun _ => h.runId, .inl trivial⟩
  session _ _ hsteady h :=
    ⟨hsteady.redactor.trans h.redactor, hsteady.runId.trans h.runId, h.rows⟩
  scope _ _ h := ⟨h.redactor, h.runId, h.rows⟩
  outside _ _ _ _ h := ⟨h.redactor, h.runId, h.rows⟩
  blobs _ _ _ h := ⟨h.redactor, h.runId, h.rows⟩
  append _ machine event recorded hhanded hrecorded h := by
    obtain ⟨added, hrows, hadded⟩ := h.rows
    let seq := machine.store.nextSeq base.session.runId
    let row := Store.row D base.session.runId seq recorded
    refine ⟨h.redactor, h.runId, added ++ [row], by simp [Store.append, hrows, row, seq], ?_⟩
    intro other hother
    rcases List.mem_append.mp hother with hother | hother
    · exact hadded other hother
    · exact ⟨seq, event, recorded, hhanded, hrecorded, List.mem_singleton.mp hother⟩

/-- The rows that a run adds are those of redacted events that were handed over. -/
theorem runOperations_rows (world : World F D W) (operations : List (Operation F))
    (handles : List (StreamHandle F D)) (machine : Machine F D W) :
    ∃ added, (runOperations world operations handles machine).store.rows =
        machine.store.rows ++ added ∧ ∀ row ∈ added, Appended machine row := by
  have hstart : Recorded machine machine :=
    ⟨rfl, rfl, [], (List.append_nil _).symm, fun _ h => nomatch h⟩
  exact ((recorded_lasting machine).runOperations world operations handles hstart).rows

end Tracewake.Recording
