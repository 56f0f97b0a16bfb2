import Tracewake.Cassettes.RoundTrip

/-!
# Recorded here, replayed there

What a replay needs of a store is the log of the run and the blobs that its events refer to,
and this is what a cassette carries. So the run of an agent that was recorded in one store can
be replayed in another one behind an export and an import.
-/

namespace Tracewake.Cassettes

open JsonText Recording Effects

variable {F D W : Type} [Python F] [Sha256 D] [Pydantic F D] [DecidableEq D]
  {world : World F D W} {store other : Store F D} {agent : Agent F} {answers : List (Answer F)}
  {events : List (Event F D)}

/-! ## What a transcript needs -/

omit [Pydantic F D] [DecidableEq D] in
/-- The recorder hashes the messages and the arguments that it writes. -/
theorem consistent_of_transcript (h : Transcript world store agent answers events) :
    ∀ event ∈ events, Event.Consistent D event := by
  induction h with
  | done => exact fun _ hmem => absurd hmem List.not_mem_nil
  | create hcall _ ih =>
    refine List.forall_mem_cons.mpr ⟨?_, ih⟩
    rw [Event.Consistent, hcall.messagesHash, hcall.messages]
  | stream hcall _ ih =>
    refine List.forall_mem_cons.mpr ⟨?_, ih⟩
    rw [Event.Consistent, hcall.messagesHash, hcall.messages]
  | tool hinner htool _ _ ih =>
    intro event hevent
    rcases List.mem_append.mp hevent with hevent | hevent
    · have hslot := (hinner event hevent).1
      cases event with
      | environment | fsRead | fsWrite => trivial
      | modelCall | toolCall | outcome | intervention => cases hslot
    · rcases List.mem_cons.mp hevent with rfl | hevent
      · rw [Event.Consistent, htool.args, htool.arguments]
      · exact ih event hevent
  | env _ _ _ _ ih | content _ _ _ _ ih | pathExists _ _ _ ih | listing _ _ _ _ ih
  | write _ _ _ _ _ ih | outcome _ _ ih =>
    exact List.forall_mem_cons.mpr ⟨trivial, ih⟩

omit [Pydantic F D] [DecidableEq D] in
/-- The bytes of every answer are those of a reference in the log. -/
theorem referenced_of_transcript (h : Transcript world store agent answers events) :
    ∀ bytes ∈ answers.flatMap Answer.blobs,
      ∃ ref ∈ events.flatMap Event.blobRefs, ref.digest = Sha256.hash bytes := by
  have hmore : ∀ {bytes : List UInt8} {event : Event F D} {rest : List (Event F D)},
      (∃ ref ∈ rest.flatMap Event.blobRefs, ref.digest = (Sha256.hash bytes : D)) →
        ∃ ref ∈ (event :: rest).flatMap Event.blobRefs, ref.digest = (Sha256.hash bytes : D) := by
    rintro bytes event rest ⟨ref, href, heq⟩
    exact ⟨ref, List.mem_append_right _ href, heq⟩
  induction h with
  | done => exact fun _ hmem => absurd hmem List.not_mem_nil
  | create _ _ ih | stream _ _ ih | env _ _ _ _ ih | pathExists _ _ _ ih | write _ _ _ _ _ ih
  | outcome _ _ ih => exact fun bytes hbytes => hmore (ih bytes hbytes)
  | tool _ htool _ _ ih =>
    intro bytes hbytes
    rw [List.flatMap_append]
    rcases List.mem_append.mp hbytes with hbytes | hbytes
    · rw [List.mem_singleton.mp hbytes]
      exact ⟨_, List.mem_append_right _ (List.mem_append_left _ (List.mem_singleton_self _)),
        htool.result⟩
    · obtain ⟨ref, href, heq⟩ := hmore (ih bytes hbytes)
      exact ⟨ref, List.mem_append_right _ href, heq⟩
  | @content root path key next event data _ _ _ _ htells _ ih =>
    intro bytes hbytes
    rcases List.mem_append.mp hbytes with hbytes | hbytes
    · obtain rfl : data = some bytes := Option.mem_toList.mp hbytes
      obtain ⟨-, -, hcontent⟩ := htells
      refine ⟨⟨Sha256.hash bytes, bytes.length⟩, List.mem_append_left _ ?_, rfl⟩
      rw [Event.blobRefs, hcontent]
      exact List.mem_singleton_self _
    · exact hmore (ih bytes hbytes)
  | @listing root path key next event names _ _ _ _ htells _ ih =>
    intro bytes hbytes
    rcases List.mem_append.mp hbytes with hbytes | hbytes
    · obtain ⟨listed, hlisted, rfl⟩ := List.mem_map.mp hbytes
      obtain rfl : names = some listed := Option.mem_toList.mp hlisted
      obtain ⟨-, -, hcontent⟩ := htells
      refine ⟨⟨Sha256.hash (listingBytes F listed), (listingBytes F listed).length⟩,
        List.mem_append_left _ ?_, rfl⟩
      rw [Event.blobRefs, hcontent]
      exact List.mem_singleton_self _
    · exact hmore (ih bytes hbytes)

omit [Pydantic F D] [DecidableEq D] in
/-- A transcript is one over every store that has the blobs of its log. -/
theorem transcript_carried (h : Transcript world store agent answers events)
    (hblobs : ∀ ref ∈ events.flatMap Event.blobRefs, (other.blobs ref.digest).isSome) :
    Transcript world other agent answers events := by
  induction h with
  | done => exact .done
  | create hcall _ ih => exact .create hcall (ih hblobs)
  | stream hcall _ ih => exact .stream hcall (ih hblobs)
  | tool hinner htool _ _ ih =>
    rw [List.flatMap_append] at hblobs
    have hrest := fun ref href => hblobs ref (List.mem_append_right _ href)
    have hhas := hrest _ (List.mem_append_left _ (List.mem_singleton_self _))
    rw [htool.result] at hhas
    exact .tool hinner htool hhas (ih fun ref href => hrest ref (List.mem_append_right _ href))
  | env hsource hkey htool _ ih => exact .env hsource hkey htool (ih hblobs)
  | @content root path key next event data _ _ hkey hread htells _ ih =>
    have hrest := ih fun ref href => hblobs ref (List.mem_append_right _ href)
    refine .content hkey hread ?_ hrest
    cases data with
    | none => exact htells
    | some bytes =>
      refine ⟨htells.1, hblobs ⟨Sha256.hash bytes, bytes.length⟩ (List.mem_append_left _ ?_),
        htells.2.2⟩
      rw [Event.blobRefs, htells.2.2]
      exact List.mem_singleton_self _
  | pathExists hkey hread _ ih =>
    exact .pathExists hkey hread (ih fun ref href => hblobs ref (List.mem_append_right _ href))
  | @listing root path key next event names _ _ hkey hread htells _ ih =>
    have hrest := ih fun ref href => hblobs ref (List.mem_append_right _ href)
    refine .listing hkey hread ?_ hrest
    cases names with
    | none => exact htells
    | some listed =>
      refine ⟨htells.1, hblobs ⟨Sha256.hash (listingBytes F listed),
        (listingBytes F listed).length⟩ (List.mem_append_left _ ?_), htells.2.2⟩
      rw [Event.blobRefs, htells.2.2]
      exact List.mem_singleton_self _
  | write hkey hpath hdigest htool _ ih =>
    exact .write hkey hpath hdigest htool
      (ih fun ref href => hblobs ref (List.mem_append_right _ href))
  | outcome hstatus _ ih =>
    exact .outcome hstatus (ih fun ref href => hblobs ref (List.mem_append_right _ href))

/-! ## What an import leaves -/

omit [Python F] [Pydantic F D] in
/-- Blobs that passed the check are there with their digests. -/
theorem blob_of_checked {store : Store F D} {refs : List (BlobRef D)} {digests : List D}
    {checked : {blobs : List (CheckedBlob refs) //
      (blobs.map fun blob => blob.digest) = digests}}
    (h : checkedStoreBlobs store refs digests = .ok checked) :
    ∀ digest ∈ digests, ∃ data, store.blobs digest = some data ∧ Sha256.hash data = digest := by
  induction digests with
  | nil => exact fun _ hmem => absurd hmem List.not_mem_nil
  | cons digest rest ih =>
    rw [checkedStoreBlobs] at h
    cases hget : store.get digest with
    | error error =>
      rw [hget] at h
      cases h
    | ok data =>
      rw [hget] at h
      obtain ⟨⟨hhash⟩, -, hsized⟩ := accepts_bind.mp h
      obtain ⟨_, -, htail⟩ := accepts_bind.mp hsized
      obtain ⟨tail, hrest, -⟩ := accepts_bind.mp htail
      refine List.forall_mem_cons.mpr ⟨⟨data, ?_, hhash⟩, ih hrest⟩
      rw [Store.get] at hget
      split at hget
      · cases hget
      · next hblob =>
        dsimp only at hget
        split at hget
        · cases hget
          exact hblob
        · cases hget

omit [DecidableEq D] in
/-- The events of a finished log are in sequence. -/
theorem inSequence_of_logs {store : Store F D} {runId : Text} {events : List (Event F D)}
    (h : store.Logs runId events) : ∃ stored, store.events runId = some stored ∧
      (stored.map fun e => e.event) = events ∧ InSequence stored := by
  have hsequence : InSequence (events.mapIdx fun seq event =>
      (⟨runId, seq, event⟩ : StoredEvent F D)) := by
    rw [InSequence, List.length_mapIdx]
    apply List.ext_getElem
    · simp
    · intro i _ _
      simp
  refine ⟨_, events_of_rows hsequence ?_, ?_, hsequence⟩
  · rw [h, eventRows]
    apply List.ext_getElem
    · simp
    · intro i _ _
      simp
  · apply List.ext_getElem
    · simp
    · intro i _ _
      simp

variable [HeaderJson F D] [Spelled D]

/-- A run that was recorded in one store, exported, and imported into another one is replayed
there faithfully: the agent is given the answers that it was given when it was recorded,
nothing is called and nothing is written. -/
theorem replay_imported {world : World F D W} (hworld : world.Normal) {store opened : Store F D}
    (hintact : store.Intact) {fresh : RunHeader F} (hnew : store.Vacant fresh.runId)
    {found : Option (RunHeader F)} {mode : RecordMode} (hfresh : found = none ∨ mode = .all)
    {redactor : Redactor F D} (hoff : redactor.Off) (hredacted : fresh.redacted = redactor.enabled)
    {matchOn : List Matcher} {session : Session F D}
    (hopen : openSession store found fresh mode redactor matchOn = some (session, opened))
    (outside : W) (agent : Agent F) {recordedAnswers : List (Answer F)}
    {recorded : Machine F D W}
    (hrun : agent.run world true { session, store := opened, outside } =
      (.ok recordedAnswers, recorded))
    (exceptional : Bool) :
    let saved := (closeSession world exceptional recorded).store
    ∀ header ∈ saved.runs, header.runId = fresh.runId → ∀ version source,
      exportCassette version saved header = .ok source →
      ∀ fails inode (disk : Disk F D), (∀ row ∈ disk.rows, row.runId ≠ fresh.runId) →
      ∀ header' state, importCassette fails inode source ⟨disk, [], 0⟩ = (.ok header', state) →
      ∃ stored, state.disk.store.events fresh.runId = some stored ∧
        (Separate (stored.map fun e => e.event) → ToolsOnce (stored.map fun e => e.event) →
          NoCollision state.disk.store recordedAnswers →
          ∀ {W' : Type} (world' : World F D W'),
            (∀ root path, world'.key root path = world.key root path) →
            ∀ (fresh' : RunHeader F) (mode' : RecordMode), mode' = .none ∨ mode' = .once →
            ∀ (redactor' : Redactor F D) (matchOn' : List Matcher) (live : Bool) (outside' : W'),
              ∃ session' replayed,
                openSession state.disk.store (some header') fresh' mode' redactor' matchOn' =
                  some (session', state.disk.store) ∧
                agent.run world' live
                  { session := session', store := state.disk.store, outside := outside' } =
                    (.ok recordedAnswers, replayed) ∧
                replayed.store = state.disk.store ∧ replayed.outside = outside' ∧
                replayed.calls = []) := by
  intro saved header hheader hid version source hexport fails inode disk hrows header' state himport
  have hstart := openSession_taping hintact hnew hfresh hoff hopen outside
  obtain ⟨events, htaped, htranscript⟩ := run_taped world hworld agent hstart rfl hrun
  obtain ⟨hlogs, finish, hruns, hfinish⟩ := closeSession_taping world htaped.taping exceptional
  obtain ⟨stored, hstored, rfl, hsequence⟩ := inSequence_of_logs hlogs
  have hunredacted : header.redacted = false := by
    have hkeep : saved.runs = (store.runs ++ [fresh]).map finish := hruns
    rw [hkeep] at hheader
    obtain ⟨run, hrun', rfl⟩ := List.mem_map.mp hheader
    rw [(hfinish run).1] at hid
    rw [(hfinish run).2]
    rcases List.mem_append.mp hrun' with hold | hlast
    · exact absurd hid (hnew.runs run hold)
    · rw [List.mem_singleton.mp hlast, hredacted, hoff.disabled]
  rw [← hid] at hstored hrows ⊢
  -- What was exported is what was imported.
  have hconsistent : ∀ event ∈ stored, Event.Consistent D event.event := fun event hevent =>
    consistent_of_transcript htranscript _ (List.mem_map_of_mem hevent)
  obtain ⟨cassette, hvalid, hcassette, hevents⟩ :=
    exportCassette_accepted hstored hsequence hconsistent hexport
  rcases importCassette_cases fails inode source disk with
    ⟨error, state', hfailed, -⟩ | ⟨cassette', state', hvalid', hdone, -, hdisk, checkedEvents,
      checked, hread, -, hblobs⟩
  · rw [hfailed] at himport
    cases himport
  obtain rfl : cassette' = cassette := Except.ok.inj (hvalid'.symm.trans hvalid)
  obtain ⟨rfl, rfl⟩ : runHeader cassette'.header = header' ∧ state' = state := by
    rw [hdone] at himport
    cases himport
    exact ⟨rfl, rfl⟩
  have hrun' : cassette'.header.runId = header.runId := by rw [hcassette]; rfl
  have hback : state'.disk.store.events header.runId = some stored := by
    rw [← hrun'] at hrows ⊢
    rw [hdisk, ← hevents]
    exact events_of_rows cassette'.inSequence (rowsOf_imported hrows)
  obtain rfl : checkedEvents = stored := by
    rw [hrun', hback] at hread
    exact (Option.some.inj hread).symm
  refine ⟨checkedEvents, hback, ?_⟩
  intro hseparate honce hcollision W' world' hkeys fresh' mode' hmode' redactor' matchOn' live
    outside'
  have hthere : ∀ ref ∈ (checkedEvents.map fun e => e.event).flatMap Event.blobRefs,
      ∃ data, state'.disk.store.blobs ref.digest = some data ∧ Sha256.hash data = ref.digest := by
    intro ref href
    rw [List.flatMap_map] at href
    exact blob_of_checked hblobs _ (mem_blobDigests.mpr ⟨ref, href, rfl⟩)
  have hget : ∀ bytes ∈ recordedAnswers.flatMap Answer.blobs, state'.disk.store.Has bytes →
      state'.disk.store.get (Sha256.hash bytes) = .ok bytes := by
    intro bytes hbytes _
    obtain ⟨ref, href, hdigest⟩ := referenced_of_transcript htranscript bytes hbytes
    obtain ⟨data, hdata, hhash⟩ := hthere ref href
    rw [hdigest] at hdata hhash
    obtain rfl : data = bytes := hcollision _ data hdata bytes hbytes hhash
    rw [Store.get, hdata]
    exact if_pos rfl
  have hredacted' : (runHeader cassette'.header).redacted = false := by
    rw [hcassette]
    exact hunredacted
  have hread' : state'.disk.store.events (runHeader cassette'.header).runId =
      some checkedEvents := hread
  obtain ⟨session', hopened, hcued⟩ := openSession_cued (W := W') fresh' hread' hredacted' hmode'
    redactor' matchOn' outside'
  have hcarried := transcript_carried htranscript fun ref href => by
    obtain ⟨data, hdata, -⟩ := hthere ref href
    exact Option.isSome_of_eq_some hdata
  obtain ⟨replayed, hreplay, hend⟩ := transcript_cued world' live hkeys hcarried hget hseparate
    honce htaped.taping.agree hcued
  exact ⟨session', replayed, hopened, hreplay, hend.still.store, hend.still.outside,
    hend.still.calls⟩

/-! The run of the agent that talks, replayed in the other store. -/

/-- Its finished header. -/
def closedRun : RunHeader Decimal := { talkingRun with status := .ok, finishedAt := some half }

/-- The store behind its recording. -/
def talkingSaved : Store Decimal HexDigest := (closeSession talkingWorld false talkingEnd).store

/-- Its header is that of the finished run. -/
theorem talkingSaved_runs : talkingSaved.runs = [closedRun] := by
  decide +kernel

/-- The log of the example can be exported from the store in which it was saved. -/
theorem talkingSaved_exportable : Exportable talkingSaved closedRun.runId talkingLog where
  stored := by
    rw [Store.events, Store.rowsOf, talkingSaved, closeSession_rows]
    exact talkingLog_exportable.stored
  inSequence := talkingLog_exportable.inSequence
  consistent := talkingLog_exportable.consistent
  blobs := by
    rw [talkingSaved, closeSession_blobs]
    exact talkingLog_exportable.blobs

/-- The answers come over. -/
theorem replay_imported_talking : ∃ (answers : List (Answer Decimal)) (source : Source)
    (state : Importing Decimal HexDigest) (session : Session Decimal HexDigest)
    (replayed : Machine Decimal HexDigest Unit),
    talkingAgent.run talkingWorld true talkingStart = (.ok answers, talkingEnd) ∧
      exportCassette "1".toList talkingSaved closedRun = .ok source ∧
      importCassette (fun _ => false) (fun _ : HexDigest => 7) source
        ⟨⟨[otherRun], [], fun _ => none⟩, [], 0⟩ = (.ok closedRun, state) ∧
      talkingAgent.run silentWorld false { session, store := state.disk.store, outside := () } =
        (.ok answers, replayed) ∧ replayed.calls = [] := by
  obtain ⟨answers, hrun, hanswers⟩ := talkingAgent_run
  obtain ⟨source, cassette, hexport, hvalid, hheader, hevents, hblobs⟩ :=
    talkingSaved_exportable.exported "1".toList
  have hid : runHeader cassette.header = closedRun := by rw [hheader]; rfl
  have himports : ∃ state : Importing Decimal HexDigest,
      importCassette (fun _ => false) (fun _ => 7) source
        ⟨⟨[otherRun], [], fun _ => none⟩, [], 0⟩ = (.ok (runHeader cassette.header), state) ∧
      state.disk = Disk.imported (fun _ => 7) ⟨[otherRun], [], fun _ => none⟩ cassette := by
    apply importCassette_returns
    · intro run hrun
      rw [List.mem_singleton.mp hrun, hheader]
      decide
    · intro row hrow
      cases hrow
    · intro blob _ file hfile
      cases hfile
    · exact fun _ => rfl
    · exact hvalid
  obtain ⟨state, himport, hdisk⟩ := himports
  rw [hid] at himport
  have hopen : openSession ({} : Store Decimal HexDigest) none talkingRun .once .disabled [] =
    some (talkingStart.session, talkingStart.store) := rfl
  have hclosed : closedRun ∈ (closeSession talkingWorld false talkingEnd).store.runs := by
    rw [← talkingSaved, talkingSaved_runs]
    exact List.mem_singleton_self _
  obtain ⟨stored, hstored, hreplay⟩ := replay_imported talkingWorld_normal talkingStart_intact
    talkingStart_vacant (.inl rfl) ⟨rfl, rfl⟩ rfl hopen 0 talkingAgent hrun false closedRun
    hclosed rfl "1".toList source hexport (fun _ => false) (fun _ => 7)
    ⟨[otherRun], [], fun _ => none⟩ (by intro row hrow; cases hrow) closedRun state himport
  have hrunId : cassette.header.runId = talkingRun.runId := by rw [hheader]; rfl
  have hlog : stored = talkingLog := by
    have hback : state.disk.store.events cassette.header.runId = some cassette.events := by
      rw [hdisk]
      exact events_of_rows cassette.inSequence
        (rowsOf_imported (by intro row hrow; cases hrow))
    rw [hrunId, hstored, hevents] at hback
    exact Option.some.inj hback
  subst hlog
  have hdone : talkingSaved.blobs (Sha256.hash (Utf8.encode "done".toList)) =
      some (Utf8.encode "done".toList) := by decide +kernel
  have hcollision : NoCollision state.disk.store answers := by
    intro digest blob hblob data hdata hhash
    rw [hanswers, List.mem_singleton] at hdata
    subst hdata
    rw [hdisk] at hblob
    obtain ⟨file, hfile, rfl⟩ := Option.map_eq_some_iff.mp hblob
    obtain ⟨checked, hchecked, rfl⟩ := Option.map_eq_some_iff.mp hfile
    have hsaved := hblobs checked (List.mem_of_find?_eq_some hchecked)
    have hdigest : checked.digest = Sha256.hash (Utf8.encode "done".toList) := by
      rw [← checked.hash]
      exact hhash
    rw [hdigest, hdone] at hsaved
    exact (Option.some.inj hsaved).symm
  obtain ⟨session, replayed, -, hreplayed, -, -, hcalls⟩ := hreplay (by decide) (by decide)
    hcollision silentWorld (fun _ _ => rfl) talkingRun .none (.inl rfl) .disabled [] false ()
  exact ⟨answers, source, state, session, replayed, hrun, hexport, himport, hreplayed, hcalls⟩

end Tracewake.Cassettes
