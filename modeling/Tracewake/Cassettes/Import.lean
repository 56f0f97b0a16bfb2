import Tracewake.Cassettes.Export
import Tracewake.Effects.Iteration

/-!
# Imported cassettes

`import_cassette` takes a validated cassette into a store: in one transaction the run and its
events come into the database, and blobs that are missing are linked from a staging directory
into the blob directory. Every operation of the system can fail; one that fails has no effect
of its own. Behind the first failure the links that were made are removed and the transaction
is rolled back. An operation of this undoing can fail as well: then the links behind it stay.
What a transaction did not commit is never in the database, whether rolling it back raises or
not.
-/

namespace Tracewake.Cassettes

open JsonText Recording Effects

variable {F D : Type}

/-- A file of the blob directory. Links to one file have one inode. -/
structure BlobFile where
  inode : ℕ
  data : List UInt8
  deriving DecidableEq

/-- The directory of a store: the database and the blob files. -/
structure Disk (F D : Type) where
  runs : List (RunHeader F)
  rows : List EventRow
  files : D → Option BlobFile

/-- The store in the directory. -/
def Disk.store (disk : Disk F D) : Store F D where
  runs := disk.runs
  rows := disk.rows
  blobs digest := (disk.files digest).map fun file => file.data

/-- Why an import fails. -/
inductive ImportError (D : Type) where
  | refused (refusal : Refusal D)
  | failed (operation : ℕ)
  | notUndone (operation : ℕ)
  | known (runId : Text)
  | corrupted (digest : D)
  | conflict (seq : ℤ)
  | digest
  | stored (error : ExportError D)

/-- An import on its way. -/
structure Importing (F D : Type) where
  disk : Disk F D
  created : List D := []
  operations : ℕ := 0

/-- A blob that was missing is linked to a file of the staging directory. -/
def Importing.link [DecidableEq D] (state : Importing F D) (digest : D) (file : BlobFile) :
    Importing F D where
  disk := { state.disk with files := Function.update state.disk.files digest (some file) }
  created := digest :: state.created
  operations := state.operations

/-- A computation of an import. -/
abbrev Import (F D α : Type) := Computation (Importing F D) (ImportError D) α

variable [Python F] [Sha256 D] [DecidableEq D]

section Steps

variable (fails : ℕ → Bool) (inode : D → ℕ)

/-- An operation of the system, which changes the disk unless it fails. -/
def attempt (raised : ℕ → ImportError D) (change : Importing F D → Importing F D) :
    Import F D Unit := do
  let state ← get
  modify fun state => { state with operations := state.operations + 1 }
  if fails state.operations then throw (raised state.operations) else modify change

/-- An operation of the import. -/
def operate (change : Importing F D → Importing F D) : Import F D Unit :=
  attempt fails .failed change

/-- `_promote_blob`, which notes what it linked. -/
def promoteBlob (digest : D) (expected : List UInt8) : Import F D Unit := do
  let state ← get
  match state.disk.files digest with
  | some file =>
    operate fails id
    raiseIf (Sha256.hash file.data ≠ digest ∨ file.data.length ≠ expected.length)
      (.corrupted digest)
  | none =>
    operate fails fun state => state.link digest ⟨inode digest, expected⟩

/-- `_insert_import_event`. A run has one event of each number. -/
def insertImportEvent (stored : StoredEvent F D) [Pydantic F D] : Import F D Unit := do
  let state ← get
  raiseIf (∃ row ∈ state.disk.rows, row.runId = stored.runId ∧ row.seq = stored.seq)
    (.conflict stored.seq)
  operate fails fun state =>
    { state with
      disk := { state.disk with
        rows := state.disk.rows ++ [Store.row D stored.runId stored.seq stored.event] } }

/-- The header of the imported run. -/
def runHeader (cassette : CassetteHeader F D) : RunHeader F where
  runId := cassette.runId
  name := cassette.name
  startedAt := cassette.recordedAt
  finishedAt := cassette.finishedAt
  status := cassette.status
  schemaVersion := cassette.schemaVersion
  models := cassette.models
  command := cassette.command
  redacted := cassette.redacted
  taskId := cassette.taskId

/-- Before the commit, the run is read back from the store. -/
def checkStored [Pydantic F D] (cassette : CassetteHeader F D) : Import F D Unit := do
  let state ← get
  match state.disk.store.events cassette.runId with
  | none => throw (.stored .unreadable)
  | some stored =>
    raiseIf (runDigest stored ≠ Sha256.hex cassette.digest) .digest
    match checkedStoreBlobs state.disk.store (blobRefs stored) (blobDigests stored) with
    | .error error => throw (.stored error)
    | .ok _ => return

/-- What runs inside the transaction. -/
def importInside [Pydantic F D] (cassette : ValidatedCassette F D) : Import F D Unit := do
  let header := runHeader cassette.header
  let state ← get
  raiseIf (∃ run ∈ state.disk.runs, run.runId = header.runId) (.known header.runId)
  cassette.blobs.forM fun blob => promoteBlob fails inode blob.digest blob.data
  operate fails fun state =>
    { state with disk := { state.disk with runs := state.disk.runs ++ [header] } }
  cassette.events.forM fun stored => insertImportEvent fails stored
  checkStored cassette.header
  operate fails id

/-- Remove a link that was made, if it is still the file that was staged. -/
def unlinkStaged (disk : Disk F D) (digest : D) : Disk F D :=
  match disk.files digest with
  | some file =>
    if file.inode = inode digest then
      { disk with files := Function.update disk.files digest none }
    else disk
  | none => disk

/-- Nothing that the transaction wrote is in the database, although rolling it back may
raise. -/
def rollback (start : Disk F D) : Import F D Unit := do
  modify fun state =>
    { state with disk := { state.disk with runs := start.runs, rows := start.rows } }
  attempt fails .notUndone id

/-- The links are removed, the last one first, until one cannot be removed. In any case the
transaction is rolled back. -/
def undo (start : Disk F D) : Import F D Unit := do
  let state ← get
  tryCatch
    (state.created.forM fun digest => attempt fails .notUndone fun state =>
      { state with disk := unlinkStaged inode state.disk digest })
    fun error => do
      rollback fails start
      throw error
  rollback fails start

/-- `_stage_blobs`, into a directory of its own. -/
def stageBlobs (blobs : List D) : Import F D Unit :=
  blobs.forM fun _ => operate fails id

/-- The transaction, which is undone behind a failure. -/
def transaction [Pydantic F D] (cassette : ValidatedCassette F D) : Import F D Unit := do
  let start ← get
  tryCatch (importInside fails inode cassette) fun error => do
    undo fails inode start.disk
    throw error

/-- `import_cassette`. To begin the transaction is an operation as well. -/
def importCassette [Pydantic F D] [HeaderJson F D] (source : Source) :
    Import F D (RunHeader F) := do
  match validateCassette (F := F) (D := D) source with
  | .error refusal => throw (.refused refusal)
  | .ok cassette =>
    stageBlobs fails (cassette.blobs.map fun blob => blob.digest)
    operate fails id
    transaction fails inode cassette
    return runHeader cassette.header

omit [Python F] [Sha256 D] [DecidableEq D] in
/-- What an operation does in a run. -/
theorem run_attempt (raised : ℕ → ImportError D) (change : Importing F D → Importing F D)
    (state : Importing F D) :
    attempt fails raised change state =
      if fails state.operations then
        (.error (raised state.operations), { state with operations := state.operations + 1 })
      else (.ok (), change { state with operations := state.operations + 1 }) := by
  rw [attempt, run_bind, run_get]
  dsimp only
  rw [run_bind, run_modify]
  dsimp only
  split
  · rfl
  · rfl

omit [Python F] [Sha256 D] [DecidableEq D] in
/-- An operation of the system fails or makes its change. It is counted in both cases. -/
theorem run_operate (change : Importing F D → Importing F D) (state : Importing F D) :
    operate fails change state =
      if fails state.operations then
        (.error (.failed state.operations), { state with operations := state.operations + 1 })
      else (.ok (), change { state with operations := state.operations + 1 }) :=
  run_attempt fails .failed change state

omit [Python F] [Sha256 D] [DecidableEq D] in
/-- An operation passes if the system does not fail there. -/
theorem attempt_eq_ok {raised : ℕ → ImportError D} {change : Importing F D → Importing F D}
    {state state' : Importing F D} :
    attempt fails raised change state = (.ok (), state') ↔ fails state.operations = false ∧
      state' = change { state with operations := state.operations + 1 } := by
  rw [run_attempt]
  split
  · next hfails =>
    constructor
    · intro h
      cases h
    · rintro ⟨h, -⟩
      rw [hfails] at h
      cases h
  · next hfails =>
    constructor
    · intro h
      cases h
      exact ⟨Bool.eq_false_of_not_eq_true hfails, rfl⟩
    · rintro ⟨-, rfl⟩
      rfl

omit [Python F] [Sha256 D] [DecidableEq D] in
/-- An operation that raises changes nothing. -/
theorem attempt_eq_error {raised : ℕ → ImportError D} {change : Importing F D → Importing F D}
    {state state' : Importing F D} {error : ImportError D}
    (h : attempt fails raised change state = (.error error, state')) :
    ∃ operation, error = raised operation ∧ fails operation = true ∧
      state'.disk = state.disk := by
  rw [run_attempt] at h
  split at h
  · next hfails =>
    cases h
    exact ⟨_, rfl, hfails, rfl⟩
  · cases h

/-- The disk with a cassette in it: blobs that were there before stay. -/
def Disk.imported [Pydantic F D] (disk : Disk F D) (cassette : ValidatedCassette F D) :
    Disk F D where
  runs := disk.runs ++ [runHeader cassette.header]
  rows := disk.rows ++ cassette.events.map fun stored =>
    Store.row D stored.runId stored.seq stored.event
  files digest := (disk.files digest).or
    ((cassette.blobs.find? fun blob => blob.digest = digest).map fun blob =>
      ⟨inode digest, blob.data⟩)

/-! ## Nothing -/

variable {inode} {start : Disk F D}

/-- A file that is linked to the staged blob of a cassette. -/
def Staged (inode : D → ℕ) {refs : List (BlobRef D)} (blobs : List (CheckedBlob refs))
    (digest : D) (file : Option BlobFile) : Prop :=
  ∃ blob ∈ blobs, blob.digest = digest ∧ file = some ⟨inode digest, blob.data⟩

variable {refs : List (BlobRef D)} {blobs : List (CheckedBlob refs)}

/-- The files of a transaction on its way: those that it linked were missing before. -/
structure Underway (inode : D → ℕ) (start : Disk F D) {refs : List (BlobRef D)}
    (blobs : List (CheckedBlob refs)) (state : Importing F D) : Prop where
  missing : ∀ digest ∈ state.created, start.files digest = none
  staged : ∀ digest ∈ state.created, Staged inode blobs digest (state.disk.files digest)
  others : ∀ digest, digest ∉ state.created → state.disk.files digest = start.files digest

namespace Underway

omit [Python F] [DecidableEq D] in
/-- What keeps the files and the notes keeps the transaction. -/
theorem kept {state state' : Importing F D} (h : Underway inode start blobs state)
    (hfiles : state'.disk.files = state.disk.files) (hcreated : state'.created = state.created) :
    Underway inode start blobs state' := by
  constructor
  · rw [hcreated]
    exact h.missing
  · rw [hcreated, hfiles]
    exact h.staged
  · rw [hcreated, hfiles]
    exact h.others

omit [Python F] in
/-- A blob that is missing on the way was missing from the beginning. -/
theorem link {state : Importing F D} (h : Underway inode start blobs state)
    {blob : CheckedBlob refs} (hblob : blob ∈ blobs)
    (hmissing : state.disk.files blob.digest = none) :
    Underway inode start blobs (state.link blob.digest ⟨inode blob.digest, blob.data⟩) := by
  have hnot : blob.digest ∉ state.created := by
    intro hmem
    obtain ⟨_, -, -, hfile⟩ := h.staged blob.digest hmem
    rw [hmissing] at hfile
    cases hfile
  constructor
  · intro other hother
    rcases List.mem_cons.mp hother with rfl | hother
    · rw [← h.others _ hnot]
      exact hmissing
    · exact h.missing other hother
  · intro other hother
    rcases List.mem_cons.mp hother with rfl | hother
    · exact ⟨blob, hblob, rfl, Function.update_self ..⟩
    · have hne : other ≠ blob.digest := fun heq => hnot (heq ▸ hother)
      obtain ⟨staged, hstaged, hdigest, hfile⟩ := h.staged other hother
      exact ⟨staged, hstaged, hdigest, (Function.update_of_ne hne ..).trans hfile⟩
  · intro other hother
    have hne : other ≠ blob.digest := fun heq => hother (heq ▸ List.mem_cons_self)
    have hother : other ∉ state.created := fun hmem => hother (List.mem_cons_of_mem _ hmem)
    exact (Function.update_of_ne hne ..).trans (h.others other hother)

omit [Python F] [DecidableEq D] in
/-- An operation that leaves the files alone. -/
theorem operate {change : Importing F D → Importing F D}
    (hfiles : ∀ state, (change state).disk.files = state.disk.files)
    (hcreated : ∀ state, (change state).created = state.created) :
    Ensures (Underway inode start blobs) (operate fails change) fun _ => True := by
  intro state h
  refine ⟨?_, fun _ _ => trivial⟩
  rw [run_operate]
  split
  · exact h.kept rfl rfl
  · exact h.kept (hfiles _) (hcreated _)

omit [Python F] in
/-- Promoting a blob stays within what an import may have done so far. -/
theorem promoteBlob {blob : CheckedBlob refs} (hblob : blob ∈ blobs) :
    Ensures (Underway inode start blobs) (promoteBlob fails inode blob.digest blob.data)
      fun _ => True := by
  intro state h
  rw [Cassettes.promoteBlob, run_bind, run_get]
  dsimp only
  cases hfile : state.disk.files blob.digest with
  | some file =>
    have hread : Ensures (Underway inode start blobs) (Cassettes.operate fails id) fun _ => True :=
      operate fails (fun _ => rfl) fun _ => rfl
    exact (hread.seq fun _ => .raiseIf) state h
  | none =>
    refine ⟨?_, fun _ _ => trivial⟩
    dsimp only
    rw [run_operate]
    split
    · exact h.kept rfl rfl
    · have hcounted : Underway inode start blobs
          { state with operations := state.operations + 1 } := h.kept rfl rfl
      exact hcounted.link hblob hfile

omit [DecidableEq D] in
/-- Inserting an event stays within what an import may have done so far. -/
theorem insertImportEvent [Pydantic F D] (stored : StoredEvent F D) :
    Ensures (Underway inode start blobs) (insertImportEvent fails stored) fun _ => True := by
  refine Ensures.read.seq fun state => Ensures.raiseIf.seq fun _ => ?_
  exact operate fails (fun _ => rfl) fun _ => rfl

/-- The check of what is stored changes nothing. -/
theorem checkStored [Pydantic F D] (cassette : CassetteHeader F D) :
    Ensures (Underway inode start blobs) (checkStored cassette) fun _ => True := by
  refine Ensures.read.seq fun state => ?_
  cases state.disk.store.events cassette.runId with
  | none => exact .raise
  | some stored =>
    refine Ensures.raiseIf.seq fun _ => ?_
    cases checkedStoreBlobs state.disk.store (blobRefs stored) (blobDigests stored) with
    | error error => exact .raise
    | ok checked => exact .ret trivial

/-- Everything inside the transaction. -/
theorem importInside [Pydantic F D] (cassette : ValidatedCassette F D) :
    Ensures (Underway inode start cassette.blobs) (importInside fails inode cassette)
      fun _ => True := by
  refine Ensures.read.seq fun state => Ensures.raiseIf.seq fun _ => ?_
  have hblobs : Ensures (Underway inode start cassette.blobs) (cassette.blobs.forM fun blob =>
      Cassettes.promoteBlob fails inode blob.digest blob.data) fun _ => True :=
    .forM fun blob hblob => promoteBlob fails hblob
  refine hblobs.seq fun _ => .seq (operate fails (fun _ => rfl) fun _ => rfl) fun _ => ?_
  refine (Ensures.forM fun stored _ => insertImportEvent fails stored).seq fun _ => ?_
  exact (checkStored cassette.header).seq fun _ => operate fails (fun _ => rfl) fun _ => rfl

end Underway

/-! ## Undoing -/

omit [Python F] [Sha256 D] in
/-- Removing a staged blob leaves the files of the others. -/
theorem unlinkStaged_other {digest other : D} (hne : digest ≠ other) (disk : Disk F D) :
    (unlinkStaged inode disk other).files digest = disk.files digest := by
  rw [unlinkStaged]
  split
  · split
    · exact Function.update_of_ne hne ..
    · rfl
  · rfl

omit [Python F] [Sha256 D] in
/-- What was staged is removed. -/
theorem unlinkStaged_self {digest : D} {disk : Disk F D}
    (hfile : ∀ file, disk.files digest = some file → file.inode = inode digest) :
    (unlinkStaged inode disk digest).files digest = none := by
  rw [unlinkStaged]
  split
  · next file hsome =>
    rw [if_pos (hfile file hsome)]
    exact Function.update_self ..
  · assumption

omit [Python F] [Sha256 D] in
/-- Another file stays. -/
theorem foldl_unlinkStaged_of_notMem {digest : D} {created : List D} (hnot : digest ∉ created)
    (disk : Disk F D) :
    (created.foldl (unlinkStaged inode) disk).files digest = disk.files digest := by
  induction created generalizing disk with
  | nil => rfl
  | cons other rest ih =>
    obtain ⟨hne, hrest⟩ := not_or.mp (List.mem_cons.not.mp hnot)
    rw [List.foldl_cons, ih hrest, unlinkStaged_other hne]

omit [Python F] [Sha256 D] in
/-- A link that was made is removed, and it stays removed. -/
theorem foldl_unlinkStaged_of_mem {digest : D} {created : List D} {disk : Disk F D}
    (hmem : digest ∈ created) (hfile : ∀ file, disk.files digest = some file →
      file.inode = inode digest) :
    (created.foldl (unlinkStaged inode) disk).files digest = none := by
  induction created generalizing disk with
  | nil => cases hmem
  | cons other rest ih =>
    rw [List.foldl_cons]
    by_cases heq : digest = other
    · subst heq
      have hnone := unlinkStaged_self hfile
      by_cases hrest : digest ∈ rest
      · apply ih hrest
        intro file hsome
        rw [hnone] at hsome
        cases hsome
      · rw [foldl_unlinkStaged_of_notMem hrest]
        exact hnone
    · apply ih ((List.mem_cons.mp hmem).resolve_left heq)
      rw [unlinkStaged_other heq]
      exact hfile

omit [Python F] in
/-- When all links are removed, the files are those of the beginning. -/
theorem foldl_unlinkStaged {state : Importing F D} (h : Underway inode start blobs state) :
    (state.created.foldl (unlinkStaged inode) state.disk).files = start.files := by
  funext digest
  by_cases hmem : digest ∈ state.created
  · rw [h.missing digest hmem]
    apply foldl_unlinkStaged_of_mem hmem
    intro file hfile
    obtain ⟨_, -, -, hstaged⟩ := h.staged digest hmem
    rw [hstaged] at hfile
    cases hfile
    rfl
  · rw [foldl_unlinkStaged_of_notMem hmem, h.others digest hmem]

/-- What is left when not all links could be removed: the database as it was, and files as they
were or linked to a blob of the cassette. -/
structure Leftover (inode : D → ℕ) (start : Disk F D) {refs : List (BlobRef D)}
    (blobs : List (CheckedBlob refs)) (disk : Disk F D) : Prop where
  runs : disk.runs = start.runs
  rows : disk.rows = start.rows
  files : ∀ digest, disk.files digest = start.files digest ∨
    start.files digest = none ∧ Staged inode blobs digest (disk.files digest)

/-- The files of a transaction that is being undone. -/
def Remaining (inode : D → ℕ) (start : Disk F D) {refs : List (BlobRef D)}
    (blobs : List (CheckedBlob refs)) (state : Importing F D) : Prop :=
  ∀ digest, state.disk.files digest = start.files digest ∨
    start.files digest = none ∧ Staged inode blobs digest (state.disk.files digest)

omit [Python F] in
/-- Where a rollback begins everything that was added remains to be removed. -/
theorem Underway.remaining {state : Importing F D} (h : Underway inode start blobs state) :
    Remaining inode start blobs state := by
  intro digest
  by_cases hmem : digest ∈ state.created
  · exact .inr ⟨h.missing digest hmem, h.staged digest hmem⟩
  · exact .inl (h.others digest hmem)

omit [Python F] in
/-- A link that was made is removed, or stays as it is. -/
theorem remaining_unlink {digest : D} (hmissing : start.files digest = none) :
    Ensures (Remaining inode start blobs)
      (attempt fails .notUndone (fun state =>
        { state with disk := unlinkStaged inode state.disk digest }) : Import F D Unit)
      fun _ => True := by
  intro state h
  refine ⟨?_, fun _ _ => trivial⟩
  rw [run_attempt]
  split
  · exact h
  · intro other
    by_cases heq : other = digest
    · subst heq
      left
      rw [hmissing]
      apply unlinkStaged_self
      intro file hfile
      rcases h other with hsame | ⟨-, _, -, -, hstaged⟩
      · rw [hsame, hmissing] at hfile
        cases hfile
      · rw [hstaged] at hfile
        cases hfile
        rfl
    · have hother : (unlinkStaged inode state.disk digest).files other =
          state.disk.files other := unlinkStaged_other heq state.disk
      dsimp only
      rw [hother]
      exact h other

omit [Python F] [Sha256 D] in
/-- Removing links that are all removed is to remove them one after the other. -/
theorem forM_unlink_disk {created : List D} {state state' : Importing F D}
    (h : (created.forM fun digest => (attempt fails .notUndone fun state =>
      { state with disk := unlinkStaged inode state.disk digest } : Import F D Unit)) state =
        (.ok (), state')) :
    state'.disk = created.foldl (unlinkStaged inode) state.disk := by
  induction created generalizing state with
  | nil =>
    rw [run_forM_nil] at h
    cases h
    rfl
  | cons digest rest ih =>
    obtain ⟨between, hhead, hrest⟩ := forM_cons_eq_ok.mp h
    obtain ⟨-, rfl⟩ := (attempt_eq_ok fails).mp hhead
    exact ih hrest

omit [Python F] [Sha256 D] [DecidableEq D] in
/-- Rolling back leaves the files alone, whether it raises or not. -/
theorem run_rollback (start : Disk F D) (state : Importing F D) : ∃ result state',
    rollback fails start state = (result, state') ∧
      state'.disk = { state.disk with runs := start.runs, rows := start.rows } ∧
      ∀ error, result = .error error →
        ∃ operation, error = .notUndone operation ∧ fails operation = true := by
  rw [rollback, run_bind, run_modify]
  dsimp only
  rw [run_attempt]
  split
  · next hfails =>
    refine ⟨_, _, rfl, rfl, ?_⟩
    rintro error heq
    cases heq
    exact ⟨_, rfl, hfails⟩
  · refine ⟨_, _, rfl, rfl, ?_⟩
    rintro error heq
    cases heq

omit [Python F] in
/-- Undoing leaves the disk as it was at the beginning, unless one of its operations fails. -/
theorem run_undo {state : Importing F D} (h : Underway inode start blobs state) :
    (∃ state', undo fails inode start state = (.ok (), state') ∧ state'.disk = start) ∨
      ∃ operation state', undo fails inode start state = (.error (.notUndone operation), state') ∧
        fails operation = true ∧ Leftover inode start blobs state'.disk := by
  have hremaining : Ensures (Remaining inode start blobs)
      (state.created.forM fun digest => (attempt fails .notUndone fun state =>
        { state with disk := unlinkStaged inode state.disk digest } : Import F D Unit))
      fun _ => True := .forM fun digest hmem => remaining_unlink fails (h.missing digest hmem)
  have hleft := (hremaining state h.remaining).1
  rw [undo, run_bind, run_get]
  dsimp only
  rw [run_bind, run_tryCatch]
  rcases hloop : (state.created.forM fun digest => (attempt fails .notUndone fun state =>
    { state with disk := unlinkStaged inode state.disk digest } : Import F D Unit)) state with
    ⟨error | _, removed⟩
  · -- a link could not be removed
    rw [hloop] at hleft
    obtain ⟨digest, -, before, hround⟩ := forM_eq_error hloop
    obtain ⟨operation, rfl, hfails, -⟩ := attempt_eq_error fails hround
    obtain ⟨result, state', hrollback, hdisk, hraised⟩ := run_rollback fails start removed
    have hleftover : Leftover inode start blobs state'.disk := by
      rw [hdisk]
      exact ⟨rfl, rfl, hleft⟩
    right
    dsimp only
    cases result with
    | ok _ => exact ⟨operation, state', by rw [run_bind_ok hrollback]; rfl, hfails, hleftover⟩
    | error error =>
      obtain ⟨operation', rfl, hfails'⟩ := hraised error rfl
      exact ⟨operation', state', by rw [run_bind_error hrollback], hfails', hleftover⟩
  · -- the links are removed
    have hfiles := forM_unlink_disk fails hloop
    obtain ⟨result, state', hrollback, hdisk, hraised⟩ := run_rollback fails start removed
    have hstart : state'.disk = start := by
      rw [hdisk, hfiles]
      dsimp only
      rw [foldl_unlinkStaged h]
    dsimp only
    cases result with
    | ok _ => exact .inl ⟨state', hrollback, hstart⟩
    | error error =>
      obtain ⟨operation, rfl, hfails⟩ := hraised error rfl
      refine .inr ⟨operation, state', hrollback, hfails, ?_⟩
      rw [hstart]
      exact ⟨rfl, rfl, fun _ => .inl rfl⟩

/-! ## Everything -/

omit [Python F] [Sha256 D] [DecidableEq D] in
/-- An operation passes if the system does not fail there. -/
theorem operate_eq_ok {change : Importing F D → Importing F D} {state state' : Importing F D} :
    operate fails change state = (.ok (), state') ↔ fails state.operations = false ∧
      state' = change { state with operations := state.operations + 1 } :=
  attempt_eq_ok fails

omit [Python F] in
/-- A blob that was promoted was there, or is linked. -/
theorem promoteBlob_disk {digest : D} {expected : List UInt8} {state state' : Importing F D}
    (h : promoteBlob fails inode digest expected state = (.ok (), state')) :
    state'.disk = ⟨state.disk.runs, state.disk.rows, fun other => (state.disk.files other).or
      (if digest = other then some ⟨inode other, expected⟩ else none)⟩ := by
  rw [promoteBlob, run_bind, run_get] at h
  dsimp only at h
  cases hfile : state.disk.files digest with
  | some file =>
    rw [hfile] at h
    dsimp only at h
    obtain ⟨_, counted, hread, h⟩ := bind_eq_ok.mp h
    obtain ⟨-, rfl⟩ := (operate_eq_ok fails).mp hread
    obtain ⟨-, rfl⟩ := raiseIf_eq_ok.mp h
    have hfiles : (fun other => (state.disk.files other).or
        (if digest = other then some (⟨inode other, expected⟩ : BlobFile) else none)) =
          state.disk.files := by
      funext other
      split
      · next heq =>
        rw [← heq, hfile]
        rfl
      · exact Option.or_none
    rw [hfiles]
    rfl
  | none =>
    rw [hfile] at h
    obtain ⟨-, rfl⟩ := (operate_eq_ok fails).mp h
    simp only [Importing.link]
    congr 1
    funext other
    by_cases heq : digest = other
    · subst heq
      rw [Function.update_self, hfile, if_pos rfl]
      rfl
    · rw [Function.update_of_ne (Ne.symm heq), if_neg heq, Option.or_none]

omit [Python F] in
/-- Promoting the blobs adds the files of those that were not there. -/
theorem forM_promoteBlob_disk {refs : List (BlobRef D)} {blobs : List (CheckedBlob refs)}
    {state state' : Importing F D}
    (h : (blobs.forM fun blob => promoteBlob fails inode blob.digest blob.data) state =
      (.ok (), state')) :
    state'.disk = ⟨state.disk.runs, state.disk.rows, fun digest => (state.disk.files digest).or
      ((blobs.find? fun blob => blob.digest = digest).map fun blob =>
        ⟨inode digest, blob.data⟩)⟩ := by
  induction blobs generalizing state with
  | nil =>
    rw [run_forM_nil] at h
    cases h
    simp
  | cons blob rest ih =>
    obtain ⟨between, hhead, hrest⟩ := forM_cons_eq_ok.mp h
    rw [ih hrest, promoteBlob_disk fails hhead]
    congr 1
    funext digest
    by_cases heq : blob.digest = digest
    · simp [heq]
    · simp [heq]

omit [DecidableEq D] in
/-- Inserting the events adds their rows in order. -/
theorem forM_insertImportEvent_disk [Pydantic F D] {events : List (StoredEvent F D)}
    {state state' : Importing F D}
    (h : (events.forM fun stored => insertImportEvent fails stored) state = (.ok (), state')) :
    state'.disk = ⟨state.disk.runs, state.disk.rows ++ events.map fun stored =>
      Store.row D stored.runId stored.seq stored.event, state.disk.files⟩ := by
  induction events generalizing state with
  | nil =>
    rw [run_forM_nil] at h
    cases h
    simp
  | cons stored rest ih =>
    obtain ⟨between, hhead, hrest⟩ := forM_cons_eq_ok.mp h
    rw [ih hrest]
    rw [insertImportEvent, run_bind, run_get] at hhead
    obtain ⟨_, guarded, hguard, hinsert⟩ := bind_eq_ok.mp hhead
    obtain ⟨-, rfl⟩ := raiseIf_eq_ok.mp hguard
    obtain ⟨-, rfl⟩ := (operate_eq_ok fails).mp hinsert
    simp

/-- What a run that is read back from the store has been checked for. -/
theorem checkStored_eq_ok [Pydantic F D] {cassette : CassetteHeader F D}
    {state state' : Importing F D} :
    checkStored cassette state = (.ok (), state') ↔ state' = state ∧
      ∃ stored checked, state.disk.store.events cassette.runId = some stored ∧
        runDigest stored = Sha256.hex cassette.digest ∧
        checkedStoreBlobs state.disk.store (blobRefs stored) (blobDigests stored) =
          .ok checked := by
  rw [checkStored, run_bind, run_get]
  dsimp only
  cases hevents : state.disk.store.events cassette.runId with
  | none =>
    constructor
    · intro h
      cases h
    · rintro ⟨-, stored, checked, h, -⟩
      cases h
  | some stored =>
    dsimp only
    rw [bind_eq_ok]
    constructor
    · rintro ⟨_, guarded, hguard, h⟩
      obtain ⟨hdigest, rfl⟩ := raiseIf_eq_ok.mp hguard
      cases hblobs : checkedStoreBlobs guarded.disk.store (blobRefs stored)
          (blobDigests stored) with
      | error error =>
        rw [hblobs] at h
        cases h
      | ok checked =>
        rw [hblobs] at h
        cases h
        exact ⟨rfl, stored, checked, rfl, not_not.mp hdigest, hblobs⟩
    · rintro ⟨rfl, _, checked, hstored, hdigest, hblobs⟩
      cases hstored
      refine ⟨(), state', raiseIf_eq_ok.mpr ⟨not_not.mpr hdigest, rfl⟩, ?_⟩
      rw [hblobs]
      rfl

/-- A transaction that is committed has put the cassette on the disk. -/
theorem importInside_ok [Pydantic F D] {cassette : ValidatedCassette F D}
    {state state' : Importing F D}
    (h : importInside fails inode cassette state = (.ok (), state')) :
    (∀ run ∈ state.disk.runs, run.runId ≠ cassette.header.runId) ∧
      state'.disk = state.disk.imported inode cassette ∧
      ∃ stored checked, state'.disk.store.events cassette.header.runId = some stored ∧
        runDigest stored = Sha256.hex cassette.header.digest ∧
        checkedStoreBlobs state'.disk.store (blobRefs stored) (blobDigests stored) =
          .ok checked := by
  rw [importInside, run_bind, run_get] at h
  dsimp only at h
  obtain ⟨_, guarded, hguard, hpromotes⟩ := bind_eq_ok.mp h
  obtain ⟨hknown, rfl⟩ := raiseIf_eq_ok.mp hguard
  obtain ⟨_, promoted, hpromote, hinserts⟩ := bind_eq_ok.mp hpromotes
  obtain ⟨_, inserted, hinsert, hlogs⟩ := bind_eq_ok.mp hinserts
  obtain ⟨-, rfl⟩ := (operate_eq_ok fails).mp hinsert
  obtain ⟨_, logged, hlog, hchecks⟩ := bind_eq_ok.mp hlogs
  obtain ⟨_, checked, hcheck, hcommit⟩ := bind_eq_ok.mp hchecks
  obtain ⟨rfl, hstored⟩ := checkStored_eq_ok.mp hcheck
  obtain ⟨-, rfl⟩ := (operate_eq_ok fails).mp hcommit
  refine ⟨fun run hrun heq => hknown ⟨run, hrun, heq⟩, ?_, hstored⟩
  dsimp only [id]
  rw [forM_insertImportEvent_disk fails hlog]
  dsimp only
  rw [forM_promoteBlob_disk fails hpromote]
  rfl

omit [Python F] [Sha256 D] [DecidableEq D] in
/-- An operation that changes nothing. -/
theorem operate_keeps {disk : Disk F D} :
    Ensures (fun state => state.disk = disk ∧ state.created = [])
      (operate fails id : Import F D Unit) fun _ => True := by
  intro state h
  refine ⟨?_, fun _ _ => trivial⟩
  rw [run_operate]
  split
  · exact h
  · exact h

/-- A transaction that fails leaves the disk as it was at its beginning, unless an operation of
its undoing fails. -/
theorem transaction_error [Pydantic F D] {cassette : ValidatedCassette F D}
    {state state' : Importing F D} {error : ImportError D} (hcreated : state.created = [])
    (h : transaction fails inode cassette state = (.error error, state')) :
    state'.disk = state.disk ∨ ∃ operation, error = .notUndone operation ∧
      fails operation = true ∧ Leftover inode state.disk cassette.blobs state'.disk := by
  have hunderway : Underway inode state.disk cassette.blobs state := by
    constructor
    · rw [hcreated]
      exact fun _ hmem => absurd hmem List.not_mem_nil
    · rw [hcreated]
      exact fun _ hmem => absurd hmem List.not_mem_nil
    · exact fun _ _ => rfl
  have hinside := (Underway.importInside fails cassette state hunderway).1
  rw [transaction, run_bind, run_get] at h
  dsimp only at h
  rw [run_tryCatch] at h
  rcases hrun : importInside fails inode cassette state with ⟨_ | _, between⟩
  · rw [hrun] at h hinside
    dsimp only at h
    rcases run_undo fails hinside with ⟨undone, hundo, hdisk⟩ | ⟨operation, undone, hundo, hleft⟩
    · rw [run_bind_ok hundo] at h
      cases h
      exact .inl hdisk
    · rw [run_bind_error hundo] at h
      cases h
      exact .inr ⟨operation, rfl, hleft⟩
  · rw [hrun] at h
    cases h

/-- A transaction passes exactly if the steps inside it do. -/
theorem transaction_ok [Pydantic F D] {cassette : ValidatedCassette F D}
    {state state' : Importing F D} :
    transaction fails inode cassette state = (.ok (), state') ↔
      importInside fails inode cassette state = (.ok (), state') := by
  rw [transaction, run_bind, run_get]
  dsimp only
  rw [run_tryCatch]
  rcases importInside fails inode cassette state with ⟨_ | _, between⟩
  · constructor
    · intro h
      obtain ⟨_, _, -, hraise⟩ := bind_eq_ok.mp h
      cases hraise
    · intro h
      cases h
  · rfl

variable (inode) in
/-- An import fails and leaves the disk as it was, unless an operation of its undoing fails, or
has done all of it. -/
theorem importCassette_cases [Pydantic F D] [HeaderJson F D] (source : Source)
    (disk : Disk F D) :
    (∃ error state, importCassette fails inode source ⟨disk, [], 0⟩ = (.error error, state) ∧
        (state.disk = disk ∨ ∃ (cassette : ValidatedCassette F D) (operation : ℕ),
          validateCassette source = .ok cassette ∧ error = .notUndone operation ∧
            fails operation = true ∧ Leftover inode disk cassette.blobs state.disk)) ∨
      ∃ cassette state, validateCassette source = .ok cassette ∧
        importCassette fails inode source ⟨disk, [], 0⟩ =
          (.ok (runHeader cassette.header), state) ∧
        (∀ run ∈ disk.runs, run.runId ≠ cassette.header.runId) ∧
        state.disk = disk.imported inode cassette ∧
        ∃ stored checked, state.disk.store.events cassette.header.runId = some stored ∧
          runDigest stored = Sha256.hex cassette.header.digest ∧
          checkedStoreBlobs state.disk.store (blobRefs stored) (blobDigests stored) =
            .ok checked := by
  rw [importCassette]
  cases hvalid : validateCassette (F := F) (D := D) source with
  | error refusal => exact .inl ⟨.refused refusal, ⟨disk, [], 0⟩, rfl, .inl rfl⟩
  | ok cassette =>
    dsimp only
    -- The disk is the same until the transaction begins.
    have hstage : Ensures (fun state => state.disk = disk ∧ state.created = [])
        (stageBlobs fails (cassette.blobs.map fun blob => blob.digest) : Import F D Unit)
        fun _ => True := .forM fun _ _ => operate_keeps fails
    obtain ⟨hstaged, -⟩ := hstage ⟨disk, [], 0⟩ ⟨rfl, rfl⟩
    rcases hrun : (stageBlobs fails (cassette.blobs.map fun blob => blob.digest) : Import F D Unit)
      ⟨disk, [], 0⟩ with ⟨error | _, staged⟩ <;> rw [hrun] at hstaged
    · exact .inl ⟨error, staged, run_bind_error hrun, .inl hstaged.1⟩
    rw [run_bind_ok hrun]
    obtain ⟨hbegun, -⟩ := operate_keeps fails staged hstaged
    rcases hrun : (operate fails id : Import F D Unit) staged with ⟨error | _, begun⟩ <;>
      rw [hrun] at hbegun
    · exact .inl ⟨error, begun, run_bind_error hrun, .inl hbegun.1⟩
    rw [run_bind_ok hrun]
    dsimp only at hbegun
    rcases hrun : transaction fails inode cassette begun with ⟨error | _, state⟩
    · refine .inl ⟨error, state, run_bind_error hrun, ?_⟩
      have hfailed := transaction_error fails hbegun.2 hrun
      rw [hbegun.1] at hfailed
      exact hfailed.imp_right fun ⟨operation, hleft⟩ => ⟨cassette, operation, rfl, hleft⟩
    · obtain ⟨hknown, hdisk, hstored⟩ := importInside_ok fails ((transaction_ok fails).mp hrun)
      rw [hbegun.1] at hknown hdisk
      exact .inr ⟨cassette, state, rfl, run_bind_ok hrun, hknown, hdisk, hstored⟩

end Steps

end Tracewake.Cassettes
