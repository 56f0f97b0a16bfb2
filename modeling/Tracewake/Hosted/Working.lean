import Tracewake.Hosted.Interference

/-!
# Following a transaction

A transaction is followed through its statements by what it has done so far. Most
transactions lock one job and then change its rows; since nobody else changes them
meanwhile, their work is a sequence of changes of one `JobView`.
-/

namespace Tracewake.Hosted

open ReadCommitted

/-- Nothing may be changed. -/
def nothing : Footprint Row where
  Allows _ old new := new = old
  refl _ _ := rfl

/-- Where a transaction that began as `σ₀` stands: it serves the same call at the
same database time, and it has kept to a footprint. -/
structure Working (F : Footprint Row) (σ₀ σ : Session) (w : World) : Prop where
  call : σ.call = σ₀.call
  now : σ.now = σ₀.now
  before : σ.origin = σ₀.origin
  time : σ₀.now ≤ w.clock
  keeps : Contract.Keeps F σ w

/-- A row that the transaction has locked and changed. -/
structure Wrote (σ : Session) (w : World) (key : Key) (old new : Option (Row key)) : Prop where
  locked : σ.locks key = some .exclusive
  base : w.rows.lookup key = old
  written : σ.writes.lookup key = some new

/-- A job that the transaction has locked before it was over: its committed rows,
and its rows as the transaction has changed them so far. -/
structure Held (σ : Session) (w : World) (job : Uuid) (v₀ v : JobView) : Prop where
  locked : σ.locks (.job job) = some .exclusive
  live : w.rows.Live job
  base : jobView w.rows job = v₀
  view : jobView (σ.after w) job = v

/-- A transaction at work on one job. -/
structure Handling (F : Footprint Row) (σ₀ σ : Session) (w : World) (job : Uuid)
    (v₀ v : JobView) : Prop extends Working F σ₀ σ w, Held σ w job v₀ v

section Views

variable (σ : Session) (store : Store) (job : Uuid)

/-- A job's rows after a change elsewhere. -/
theorem jobView_write_other {key : Key} (hkey : key.owner ≠ some job) (row : Option (Row key)) :
    jobView ((σ.write key row).view store) job = jobView (σ.view store) job := by
  have hne : ∀ key' : Key, key'.owner = some job → key' ≠ key := by
    rintro key' howner rfl
    exact hkey howner
  ext1
  · exact Session.view_write_ne σ row store (hne _ rfl)
  · exact funext fun n => Session.view_write_ne σ row store (hne (.attempt job n) rfl)
  · exact funext fun kind => Session.view_write_ne σ row store (hne (.artifact job kind) rfl)
  · exact Session.view_write_ne σ row store (hne _ rfl)

/-- A job's rows after the job row is written. -/
theorem jobView_write_job (row : JobRow) :
    jobView ((σ.write (.job job) (some row)).view store) job =
      { jobView (σ.view store) job with job := some row } := by
  ext1
  · exact Session.view_write_self σ (.job job) (some row) store
  · exact funext fun n => Session.view_write_ne σ _ store (by simp)
  · exact funext fun kind => Session.view_write_ne σ _ store (by simp)
  · exact Session.view_write_ne σ _ store (by simp)

/-- A job's rows after one of its attempts is written. -/
theorem jobView_write_attempt (n : ℤ) (attempt : AttemptRow) :
    jobView ((σ.write (.attempt job n) (some attempt)).view store) job =
      { jobView (σ.view store) job with
        attempts := Function.update (jobView (σ.view store) job).attempts n (some attempt) } := by
  ext1
  · exact Session.view_write_ne σ _ store (by simp)
  · funext m
    by_cases hm : m = n
    · subst hm
      simp only [Function.update_self]
      exact Session.view_write_self σ (.attempt job m) _ store
    · simp only [Function.update_of_ne hm]
      exact Session.view_write_ne σ _ store (by simpa using hm)
  · exact funext fun kind => Session.view_write_ne σ _ store (by simp)
  · exact Session.view_write_ne σ _ store (by simp)

/-- A job's rows after one of its artifacts is written. -/
theorem jobView_write_artifact (kind : ArtifactKind) (artifact : ArtifactRow) :
    jobView ((σ.write (.artifact job kind) (some artifact)).view store) job =
      { jobView (σ.view store) job with
        artifacts :=
          Function.update (jobView (σ.view store) job).artifacts kind (some artifact) } := by
  ext1
  · exact Session.view_write_ne σ _ store (by simp)
  · exact funext fun n => Session.view_write_ne σ _ store (by simp)
  · funext other
    by_cases hother : other = kind
    · subst hother
      simp only [Function.update_self]
      exact Session.view_write_self σ (.artifact job other) _ store
    · simp only [Function.update_of_ne hother]
      exact Session.view_write_ne σ _ store (by simpa using hother)
  · exact Session.view_write_ne σ _ store (by simp)

/-- A job's rows after its progress is written. -/
theorem jobView_write_progress (row : ProgressRow) :
    jobView ((σ.write (.progress job) (some row)).view store) job =
      { jobView (σ.view store) job with progress := some row } := by
  ext1
  · exact Session.view_write_ne σ _ store (by simp)
  · exact funext fun n => Session.view_write_ne σ _ store (by simp)
  · exact funext fun kind => Session.view_write_ne σ _ store (by simp)
  · exact Session.view_write_self σ (.progress job) (some row) store

variable {σ store job}

/-- The rows of a job that two transactions with the same writes see. -/
theorem jobView_congr {σ' : Session} {store' : Store} (hwrites : σ'.writes = σ.writes)
    (hbase : jobView store' job = jobView store job) :
    jobView (σ'.view store') job = jobView (σ.view store) job := by
  have hview : ∀ key : Key, store'.lookup key = store.lookup key →
      (σ'.view store').lookup key = (σ.view store).lookup key := by
    intro key hkey
    simp only [Session.view, Writes.lookup_apply, hwrites, hkey]
  ext1
  · exact hview _ (congrArg JobView.job hbase)
  · exact funext fun n => hview (.attempt job n) (congrFun (congrArg JobView.attempts hbase) n)
  · exact funext fun kind =>
      hview (.artifact job kind) (congrFun (congrArg JobView.artifacts hbase) kind)
  · exact hview _ (congrArg JobView.progress hbase)

end Views

/-- A scan finds exactly the rows that exist. -/
theorem Store.mem_scan {ι : Type} {store : Store} {table : Key → Option ι} (key : ι → Key)
    (htable : ∀ k i, table k = some i ↔ key i = k) {i : ι} :
    i ∈ store.scan table ↔ store.lookup (key i) ≠ none := by
  rw [ne_eq, AList.lookup_eq_none, not_not, AList.mem_keys, Store.scan, List.mem_filterMap]
  constructor
  · rintro ⟨k, hk, hkey⟩
    rw [(htable k i).mp hkey]
    exact hk
  · exact fun hmem => ⟨key i, hmem, (htable (key i) i).mpr rfl⟩

/-- The attempts of a scan are those that have a row. -/
theorem Store.mem_attempts {store : Store} {key : Uuid × ℤ} :
    key ∈ store.attempts ↔ store.attempt key.1 key.2 ≠ none :=
  Store.mem_scan (fun key : Uuid × ℤ => .attempt key.1 key.2) fun k i => by
    cases k <;> simp [Prod.ext_iff, eq_comm]

/-- The runs of a scan are those that have a row. -/
theorem Store.mem_runs {store : Store} {run : Uuid} : run ∈ store.runs ↔ store.run run ≠ none :=
  Store.mem_scan .run fun k i => by cases k <;> simp [eq_comm]

/-- The jobs of a scan are those that have a row. -/
theorem Store.mem_jobs {store : Store} {job : Uuid} : job ∈ store.jobs ↔ store.job job ≠ none :=
  Store.mem_scan .job fun k i => by cases k <;> simp [eq_comm]

/-- The artifacts of a scan are those that have a row. -/
theorem Store.mem_artifacts {store : Store} {key : Uuid × ArtifactKind} :
    key ∈ store.artifacts ↔ store.artifact key.1 key.2 ≠ none :=
  Store.mem_scan (fun key : Uuid × ArtifactKind => .artifact key.1 key.2) fun k i => by
    cases k <;> simp [Prod.ext_iff, eq_comm]

/-- An artifact that has expired is not retained. -/
theorem not_retained {now : Timestamp} {row : ArtifactRow} (h : row.retentionExpiresAt ≤ now) :
    row.retained now = false := by
  have hnot : ¬ now < row.retentionExpiresAt := not_lt.mpr h
  simp [ArtifactRow.retained, hnot]

/-- The bundles that are retained are those of undeleted runs within their retention. -/
theorem mem_retainedBundles {now : Timestamp} {store : Store} {object : ObjectIdentity} :
    object ∈ retainedBundles now store ↔ ∃ run row, store.run run = some row ∧
      row.state ≠ .deleted ∧ now < row.retentionExpiresAt ∧
        row.bundleObjectKey = object.key ∧ row.bundleObjectVersion = some object.version := by
  rw [retainedBundles, List.mem_filterMap]
  constructor
  · rintro ⟨run, _, hrow⟩
    obtain ⟨row, hfilter, hversion⟩ := Option.bind_eq_some_iff.mp hrow
    obtain ⟨version, hfound, rfl⟩ := Option.map_eq_some_iff.mp hversion
    obtain ⟨hstored, hqualifies⟩ := Option.filter_eq_some_iff.mp hfilter
    simp only [Bool.and_eq_true, decide_eq_true_eq] at hqualifies
    exact ⟨run, row, hstored, hqualifies.1, hqualifies.2, rfl, hfound⟩
  · rintro ⟨run, row, hstored, hstate, hnow, hkey, hversion⟩
    refine ⟨run, Store.mem_runs.mpr (by simp [hstored]), ?_⟩
    simp [hstored, Option.filter_some, hstate, hnow, hkey, hversion]

/-- The artifacts that are retained are the authoritative ones within their retention. -/
theorem mem_retainedArtifacts {now : Timestamp} {store : Store} {object : ObjectIdentity} :
    object ∈ retainedArtifacts now store ↔ ∃ job kind row, store.artifact job kind = some row ∧
      row.retained now = true ∧ object = ⟨row.objectKey, row.objectVersion⟩ := by
  rw [retainedArtifacts, List.mem_filterMap]
  constructor
  · rintro ⟨⟨job, kind⟩, _, hrow⟩
    obtain ⟨row, hfilter, rfl⟩ := Option.map_eq_some_iff.mp hrow
    obtain ⟨hstored, hretained⟩ := Option.filter_eq_some_iff.mp hfilter
    exact ⟨job, kind, row, hstored, hretained, rfl⟩
  · rintro ⟨job, kind, row, hstored, hretained, rfl⟩
    refine ⟨(job, kind), Store.mem_artifacts.mpr (by simp [hstored]), ?_⟩
    simp [hstored, Option.filter_some, hretained]

/-- What is retained was retained earlier, as long as no row changes. -/
theorem retainedObjects_of_le {now now' : Timestamp} {store : Store} (hnow : now ≤ now')
    {object : ObjectIdentity} (h : object ∈ retainedObjects now' store) :
    object ∈ retainedObjects now store := by
  rcases List.mem_append.mp h with hbundle | hartifact
  · obtain ⟨run, row, hstored, hstate, hlater, hobject⟩ := mem_retainedBundles.mp hbundle
    refine List.mem_append_left _ (mem_retainedBundles.mpr ⟨run, row, hstored, hstate, ?_, hobject⟩)
    exact hnow.trans_lt hlater
  · obtain ⟨job, kind, row, hstored, hretained, hobject⟩ := mem_retainedArtifacts.mp hartifact
    refine List.mem_append_right _
      (mem_retainedArtifacts.mpr ⟨job, kind, row, hstored, ?_, hobject⟩)
    simp only [ArtifactRow.retained, Bool.and_eq_true, decide_eq_true_eq] at hretained ⊢
    exact ⟨hretained.1, hnow.trans_lt hretained.2⟩

variable {p : Policy} {s : Service} {F F' : Footprint Row} {σ₀ σ σ' : Session} {w w' : World}
  {job : Uuid} {v₀ v : JobView}

/-- A job that is alive is not over. -/
theorem Store.Live.not_terminal {store : Store} (h : store.Live job) : ¬ store.Terminal job := by
  rintro ⟨row, hrow, hterminal⟩
  obtain ⟨row', hrow', hlive⟩ := h
  obtain rfl := Option.some.inj (hrow.symm.trans hrow')
  simp [hlive] at hterminal

namespace Working

/-- A transaction begins having done nothing. -/
theorem start (call : Call) (w : World) :
    Working F (.start call w.clock w.store) (.start call w.clock w.store) w :=
  ⟨rfl, rfl, rfl, le_rfl, .of_writes_empty rfl⟩

/-- Work goes on while the others commit. -/
theorem later (h : Working F σ₀ σ w) (hlater : (contract p s).Later σ w σ' w') :
    Working F σ₀ σ' w' where
  call := hlater.call.trans h.call
  now := hlater.now.trans h.now
  before := hlater.origin.trans h.before
  time := h.time.trans hlater.clock_le
  keeps := h.keeps.later hlater

/-- Work goes on while the session waits. -/
theorem rely (h : Working F σ₀ σ w) (hrely : (contract p s).Rely σ w w') : Working F σ₀ σ w' :=
  h.later (.of_rely hrely)

/-- A row that is locked may be written if the footprint allows the change. -/
theorem write (h : Working F σ₀ σ w) {key : Key} (hlocked : σ.locks key = some .exclusive)
    {row : Option (Row key)} (hallows : F.Allows key (w.rows.lookup key) row) :
    Working F σ₀ (σ.write key row) w :=
  ⟨h.call, h.now, h.before, h.time, h.keeps.write hlocked hallows⟩

/-- Work within one footprint is work within a wider one. -/
theorem mono (h : Working F σ₀ σ w)
    (hmono : ∀ key old new, F.Allows key old new → F'.Allows key old new) : Working F' σ₀ σ w :=
  ⟨h.call, h.now, h.before, h.time, h.keeps.owned, fun key => hmono key _ _ (h.keeps.allows key)⟩

/-- A transaction that has changed nothing keeps to every footprint. -/
theorem of_nothing (h : Working nothing σ₀ σ w) : Working F σ₀ σ w := by
  refine h.mono fun key old new hsame => ?_
  rw [show new = old from hsame]
  exact F.refl key old

/-- A transaction that has changed nothing sees the committed rows. -/
theorem after_lookup (h : Working nothing σ₀ σ w) (key : Key) :
    (σ.after w).lookup key = w.rows.lookup key :=
  h.keeps.allows key

/-- A row that was locked while nothing was changed is still committed as it was seen. -/
theorem lookup_later (h : Working nothing σ₀ σ w) (hlater : (contract p s).Later σ w σ' w')
    {key : Key} (hlocked : σ.locks key ≠ none) :
    w'.rows.lookup key = (σ.after w).lookup key :=
  (hlater.lookup_eq hlocked).trans (h.after_lookup key).symm

/-- Work that may change nothing leaves every job as it was. -/
theorem after_jobView (h : Working nothing σ₀ σ w) (job : Uuid) :
    jobView (σ.after w) job = jobView w.rows job := by
  ext1
  · exact h.after_lookup (.job job)
  · exact funext fun n => h.after_lookup (.attempt job n)
  · exact funext fun kind => h.after_lookup (.artifact job kind)
  · exact h.after_lookup (.progress job)

end Working

namespace Wrote

variable {key : Key} {old new : Option (Row key)}

/-- A row that is locked has been written in place of the one that was committed. -/
theorem of_write (hlocked : σ.locks key = some .exclusive) (hbase : w.rows.lookup key = old)
    (new : Option (Row key)) :
    Wrote (σ.write key new) w key old new :=
  ⟨hlocked, hbase, AList.lookup_insert _⟩

/-- What has been written stays so, and its base too, while the others commit. -/
theorem later (h : Wrote σ w key old new) (hlater : (contract p s).Later σ w σ' w') :
    Wrote σ' w' key old new where
  locked := hlater.exclusive key h.locked
  base := (hlater.lookup_eq (by simp [h.locked])).trans h.base
  written := by
    rw [hlater.writes]
    exact h.written

/-- Writing another row leaves what has been written. -/
theorem write (h : Wrote σ w key old new) {other : Key} (hne : key ≠ other)
    (row : Option (Row other)) : Wrote (σ.write other row) w key old new :=
  ⟨h.locked, h.base, (AList.lookup_insert_ne hne).trans h.written⟩

/-- When the session commits, the row is the one that was written. -/
theorem after (h : Wrote σ w key old new) : (σ.after w).lookup key = new := by
  simp [Session.view, h.written]

end Wrote

namespace Held

/-- The rows of a job that is held stay as they are while the others commit. -/
theorem later (h : Held σ w job v₀ v) (hlater : (contract p s).Later σ w σ' w') :
    Held σ' w' job v₀ v := by
  have hlocked : σ.locks (.job job) ≠ none := by simp [h.locked]
  have hbase := rely_jobView hlater.rely hlocked h.live.not_terminal
  refine ⟨hlater.exclusive _ h.locked, ?_, hbase.trans h.base, ?_⟩
  · obtain ⟨row, hrow, hstate⟩ := h.live
    exact ⟨row, (congrArg JobView.job hbase).trans hrow, hstate⟩
  · exact (jobView_congr hlater.writes hbase).trans h.view

/-- Writing rows of another owner leaves the job as it is held. -/
theorem writeOther (h : Held σ w job v₀ v) (key : Key) (hkey : key.owner ≠ some job)
    (row : Option (Row key)) : Held (σ.write key row) w job v₀ v :=
  ⟨h.locked, h.live, h.base, (jobView_write_other σ w.rows job hkey row).trans h.view⟩

/-- Writing the job's row changes what is held of it. -/
theorem writeJob (h : Held σ w job v₀ v) (row : JobRow) :
    Held (σ.write (.job job) (some row)) w job v₀ { v with job := some row } := by
  refine ⟨h.locked, h.live, h.base, (jobView_write_job σ w.rows job row).trans ?_⟩
  rw [h.view]

/-- Writing an attempt changes what is held of the job. -/
theorem writeAttempt (h : Held σ w job v₀ v) (n : ℤ) (attempt : AttemptRow) :
    Held (σ.write (.attempt job n) (some attempt)) w job v₀
      { v with attempts := Function.update v.attempts n (some attempt) } := by
  refine ⟨h.locked, h.live, h.base, (jobView_write_attempt σ w.rows job n attempt).trans ?_⟩
  rw [h.view]

/-- Writing an artifact changes what is held of the job. -/
theorem writeArtifact (h : Held σ w job v₀ v) (kind : ArtifactKind) (artifact : ArtifactRow) :
    Held (σ.write (.artifact job kind) (some artifact)) w job v₀
      { v with artifacts := Function.update v.artifacts kind (some artifact) } := by
  refine ⟨h.locked, h.live, h.base, (jobView_write_artifact σ w.rows job kind artifact).trans ?_⟩
  rw [h.view]

/-- Writing the progress changes what is held of the job. -/
theorem writeProgress (h : Held σ w job v₀ v) (row : ProgressRow) :
    Held (σ.write (.progress job) (some row)) w job v₀ { v with progress := some row } := by
  refine ⟨h.locked, h.live, h.base, (jobView_write_progress σ w.rows job row).trans ?_⟩
  rw [h.view]

end Held

end Tracewake.Hosted
