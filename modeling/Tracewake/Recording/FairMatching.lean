import Tracewake.Assignments.FirstFit
import Tracewake.Recording.Matching

/-!
# Fair matching

A matcher serves a sequence of requests first fit. Every set of predicates compares a key
of the request with the same key of the recorded call, so that first fit is not only fair
but also misses as few requests as any assignment of the recorded calls.
-/

namespace Tracewake.Recording

open JsonText Assignments

variable {F D : Type} [Python F] [Sha256 D]

/-- `unconsumed`. -/
def ReplayReport.unconsumed (report : ReplayReport) : ℤ :=
  report.recordedCalls - report.matched - report.degraded

/-- `CallMatcher.__init__`. -/
def CallMatcher.new (calls : List (ModelCallEvent F)) (matchOn : List Matcher) : CallMatcher F :=
  ⟨calls.map fun call => (call, false), matchOn⟩

/-- The report of a session that has served nothing, as `CallMatcher.__init__` leaves it. -/
def ReplayReport.new (calls : List (ModelCallEvent F)) (canRecord : Bool) : ReplayReport :=
  { recordedCalls := calls.length, canRecord }

/-- Serve one request after the other. -/
def CallMatcher.serveAll (D : Type) [Sha256 D] (matcher : CallMatcher F) (report : ReplayReport) :
    List Request → List (Option (ModelCallEvent F)) × CallMatcher F × ReplayReport
  | [] => ([], matcher, report)
  | request :: rest =>
    let (answer, matcher, report) := matcher.serve D request report
    let (answers, matcher, report) := matcher.serveAll D report rest
    (answer :: answers, matcher, report)

/-- Two requests are equal in the field that a predicate compares. -/
def Matcher.Agrees (request other : Request) : Matcher → Prop
  | .model => request.modelId = other.modelId
  | .messagesHash => request.messagesHash = other.messagesHash
  | .systemPrompt => request.systemHash = other.systemHash
  | .toolNames => request.toolNames = other.toolNames
  | .ordinal => True

/-- Two requests are equal on the matched fields. -/
def AgreeOn (matchOn : List Matcher) (request other : Request) : Prop :=
  ∀ m ∈ matchOn, m.Agrees request other

/-- All the predicates hold. -/
def accepted (D : Type) [Sha256 D] (matchOn : List Matcher) (request : Request)
    (recorded : ModelCallEvent F) : Bool :=
  matchOn.all fun m => m.holds D recorded request

section Predicates

variable {recorded : ModelCallEvent F} {request other : Request} {matchOn : List Matcher}

/-- Requests that agree satisfy a predicate alike. -/
theorem Matcher.Agrees.holds {m : Matcher} (h : m.Agrees request other) :
    m.holds D recorded request = m.holds D recorded other := by
  cases m <;> simp only [Matcher.Agrees, Matcher.holds] at h ⊢ <;> rw [h]

/-- Requests that satisfy a predicate on one recorded call agree. -/
theorem Matcher.agrees_of_holds {m : Matcher} (h : m.holds D recorded request = true)
    (h' : m.holds D recorded other = true) : m.Agrees request other := by
  cases m <;> simp only [Matcher.Agrees, Matcher.holds, decide_eq_true_eq] at h h' ⊢
  all_goals exact h.symm.trans h'

/-- Requests that agree accept the same recorded calls. -/
theorem AgreeOn.accepted (h : AgreeOn matchOn request other) :
    accepted D matchOn request recorded = accepted D matchOn other recorded := by
  unfold Recording.accepted
  induction matchOn with
  | nil => rfl
  | cons m rest ih =>
    rw [List.all_cons, List.all_cons, (h m List.mem_cons_self).holds,
      ih fun m hm => h m (List.mem_cons_of_mem _ hm)]

/-- Every set of predicates is equality of a key. -/
theorem accepted_rectangular (matchOn : List Matcher) :
    Rectangular (accepted (F := F) D matchOn) := by
  refine .of_keys (AgreeOn matchOn) ?_ ?_
  · intro request other recorded h h' m hm
    exact Matcher.agrees_of_holds (List.all_eq_true.mp h m hm) (List.all_eq_true.mp h' m hm)
  · intro request other recorded hagree h
    rw [← hagree.accepted]
    exact h

end Predicates

section Serving

variable {matcher : CallMatcher F} {report : ReplayReport} {request : Request}

/-- The scan consumes the slot that first fit finds. -/
theorem serve_eq (accepts : ModelCallEvent F → Bool) (slots : List (ModelCallEvent F × Bool)) :
    serve accepts slots = (firstFit accepts slots).bind fun i =>
      slots[i]?.map fun slot => (slot.1, consume i slots) := by
  induction slots with
  | nil => rfl
  | cons slot rest ih =>
    obtain ⟨recorded, consumed⟩ := slot
    unfold serve firstFit
    rw [List.findIdx?_cons]
    by_cases hfree : consumed = false ∧ accepts recorded = true
    · rw [if_pos hfree]
      simp [hfree.1, hfree.2, consume]
    · have hskip : (!consumed && accepts recorded) = false := by
        cases consumed <;> simp_all
      rw [if_neg hfree, hskip, ih]
      cases hfirst : firstFit accepts rest with
      | none =>
        unfold firstFit at hfirst
        simp [hfirst]
      | some i =>
        unfold firstFit at hfirst
        cases hslot : rest[i]? with
        | none => simp [hfirst, hslot]
        | some slot => simp [hfirst, hslot, consume]

/-- The calls that are not consumed. -/
theorem remaining_consume {slots : List (ModelCallEvent F × Bool)} {i : ℕ}
    {recorded : ModelCallEvent F} (h : slots[i]? = some (recorded, false)) :
    (slots.filter fun call => call.2 = false).length =
      ((consume i slots).filter fun call => call.2 = false).length + 1 := by
  induction slots generalizing i with
  | nil => cases h
  | cons slot rest ih =>
    cases i with
    | zero =>
      obtain rfl : slot = (recorded, false) := by simpa using h
      simp [consume]
    | succ i =>
      have hrest := ih (by simpa using h)
      have hstep : consume (i + 1) (slot :: rest) = slot :: consume i rest := by simp [consume]
      rw [hstep]
      by_cases hfree : slot.2 = false
      · simpa [hfree] using hrest
      · simpa [hfree] using hrest

/-- What the report counts agrees with what is consumed. -/
def Accounted (matcher : CallMatcher F) (report : ReplayReport) : Prop :=
  report.recordedCalls = matcher.calls.length ∧
    report.matched + report.degraded + matcher.remaining = matcher.calls.length

/-- What serving a request does to the matcher and the report. -/
inductive Serves (matcher : CallMatcher F) (report : ReplayReport) (place : Option ℕ) :
    Option (ModelCallEvent F) × CallMatcher F × ReplayReport → Prop
  | hit (i : ℕ) (recorded : ModelCallEvent F) (report' : ReplayReport) :
    place = some i → matcher.calls[i]? = some (recorded, false) →
    report'.matched + report'.degraded = report.matched + report.degraded + 1 →
    report'.recordedCalls = report.recordedCalls → report'.missed = report.missed →
    Serves matcher report place
      (some recorded, { matcher with calls := consume i matcher.calls }, report')
  | miss (report' : ReplayReport) : place = none →
    report'.matched + report'.degraded = report.matched + report.degraded →
    report'.recordedCalls = report.recordedCalls → report'.missed = report.missed + 1 →
    Serves matcher report place (none, matcher, report')

/-- The matcher serves the first call that is accepted. -/
theorem CallMatcher.serve_serves (matcher : CallMatcher F) (report : ReplayReport)
    (request : Request) :
    Serves matcher report (firstFit (accepted D matcher.matchOn request) matcher.calls)
      (matcher.serve D request report) := by
  have hscan : Recording.serve (matcher.accepts D request) matcher.calls = _ := serve_eq _ _
  unfold CallMatcher.serve
  rw [hscan]
  change Serves _ _ (firstFit (matcher.accepts D request) matcher.calls) _
  cases hfirst : firstFit (matcher.accepts D request) matcher.calls with
  | none => exact .miss _ rfl rfl rfl rfl
  | some i =>
    obtain ⟨recorded, hslot, _⟩ := firstFit_free hfirst
    simp only [Option.bind_some, hslot, Option.map_some]
    refine .hit i recorded _ rfl hslot ?_ ?_ ?_
    · split
      · simp only
        omega
      · simp only
        omega
    · split <;> rfl
    · split <;> rfl

/-- Serving keeps the account. -/
theorem Serves.accounted {place : Option ℕ}
    {result : Option (ModelCallEvent F) × CallMatcher F × ReplayReport}
    (h : Serves matcher report place result) (haccount : Accounted matcher report) :
    Accounted result.2.1 result.2.2 := by
  obtain ⟨hrecorded, htotal⟩ := haccount
  cases h with
  | hit i recorded report' _ hslot hcount hcalls _ =>
    have hremaining := remaining_consume hslot
    refine ⟨?_, ?_⟩
    · simp only [hcalls, hrecorded, consume, List.length_modify]
    · simp only [CallMatcher.remaining, consume, List.length_modify] at htotal hremaining ⊢
      omega
  | miss report' _ hcount hcalls _ =>
    refine ⟨hcalls.trans hrecorded, ?_⟩
    simp only
    omega

/-- A slot keeps its call. -/
theorem consume_fst (i j : ℕ) (slots : List (ModelCallEvent F × Bool)) :
    (consume i slots)[j]?.map Prod.fst = slots[j]?.map Prod.fst := by
  by_cases h : i = j
  · cases hslot : slots[j]? <;> simp [consume, h, hslot]
  · cases hslot : slots[j]? <;> simp [consume, h, hslot]

/-- A run answers each request with the call at its place, keeps the account and counts
the misses. -/
theorem serveAll_places (matcher : CallMatcher F) (report : ReplayReport)
    (requests : List Request) :
    (matcher.serveAll D report requests).1 =
        (places (accepted D matcher.matchOn) matcher.calls requests).map
          (fun place => place.bind fun i => matcher.calls[i]?.map Prod.fst) ∧
      (Accounted matcher report → Accounted (matcher.serveAll D report requests).2.1
        (matcher.serveAll D report requests).2.2) ∧
      (matcher.serveAll D report requests).2.2.recordedCalls = report.recordedCalls ∧
      (matcher.serveAll D report requests).2.2.missed = report.missed +
        (places (accepted D matcher.matchOn) matcher.calls requests).count none := by
  induction requests generalizing matcher report with
  | nil => exact ⟨rfl, id, rfl, rfl⟩
  | cons request rest ih =>
    have hserves := matcher.serve_serves (D := D) report request
    have haccount := hserves.accounted
    unfold CallMatcher.serveAll places
    generalize matcher.serve D request report = result at hserves haccount
    obtain ⟨answer, matcher', report'⟩ := result
    obtain ⟨hanswers, haccounted, hrecorded, hmissed⟩ := ih matcher' report'
    cases hserves with
    | hit i recorded _ hplace hslot _ hcalls hsame =>
      simp only [hplace]
      refine ⟨?_, fun h => haccounted (haccount h), hrecorded.trans hcalls, ?_⟩
      · rw [hanswers, List.map_cons]
        simp only [Option.bind_some, hslot, Option.map_some, consume_fst]
      · rw [hmissed, hsame]
        simp
    | miss _ hplace _ hcalls hsame =>
      simp only [hplace]
      refine ⟨?_, fun h => haccounted (haccount h), hrecorded.trans hcalls, ?_⟩
      · rw [hanswers, List.map_cons]
        rfl
      · rw [hmissed, hsame, List.count_cons_self]
        omega

end Serving

/-- The misses of an assignment are the requests that it does not serve. -/
theorem count_none_eq (placed : List (Option ℕ)) : placed.count none = placed.length - hits placed := by
  induction placed with
  | nil => rfl
  | cons place rest ih =>
    have hle : hits rest ≤ rest.length := List.reduceOption_length_le rest
    unfold hits at ih hle ⊢
    cases place with
    | none =>
      rw [List.count_cons_self, List.reduceOption_cons_of_none, List.length_cons]
      omega
    | some i =>
      rw [List.reduceOption_cons_of_some, List.length_cons, List.length_cons]
      simp only [List.count_cons, beq_iff_eq, reduceCtorEq, if_false]
      omega

/-- A sequence of requests is served fairly and as far as it can be served at all. `placed`
says which recorded call each request has received. -/
theorem matcher_fair_maximal (calls : List (ModelCallEvent F)) (matchOn : List Matcher)
    (canRecord : Bool) (requests : List Request) :
    let result := (CallMatcher.new calls matchOn).serveAll D (.new calls canRecord) requests
    ∃ placed : List (Option ℕ),
      -- The answers are the calls at these places, no call is served twice, and each call
      -- that is served satisfies all predicates.
      result.1 = placed.map (fun place => place.bind fun i => calls[i]?) ∧
      Assignment (accepted D matchOn) (calls.map fun call => (call, false)) requests placed ∧
      -- A request misses only if every call that it accepts has been consumed before.
      (∀ n request, requests[n]? = some request → placed[n]? = some none →
        ∀ i recorded, calls[i]? = some recorded → accepted D matchOn request recorded = true →
          some i ∈ placed.take n) ∧
      -- Requests that are equal on the matched fields are served in recorded order.
      (∀ (n m : ℕ) request other i j, n < m → requests[n]? = some request → requests[m]? = some other →
        AgreeOn matchOn request other → placed[n]? = some (some i) → placed[m]? = some (some j) →
        i < j) ∧
      -- The report accounts for every recorded call.
      ((result.2.2.matched : ℤ) + result.2.2.degraded + result.2.2.unconsumed =
          result.2.2.recordedCalls ∧
        result.2.2.recordedCalls = calls.length ∧
        result.2.2.unconsumed = result.2.1.remaining) ∧
      -- No assignment of the recorded calls misses fewer requests.
      result.2.2.missed = placed.count none ∧
      ∀ other, Assignment (accepted D matchOn) (calls.map fun call => (call, false)) requests other →
        placed.count none ≤ other.count none := by
  intro result
  set matcher := CallMatcher.new calls matchOn with hmatcher
  have hslot : ∀ (i : ℕ) recorded, calls[i]? = some recorded →
      matcher.calls[i]? = some (recorded, false) := by
    intro i recorded hi
    simp [hmatcher, CallMatcher.new, hi]
  have hinit : Accounted matcher (.new calls canRecord) := by
    refine ⟨by simp [hmatcher, CallMatcher.new, ReplayReport.new], ?_⟩
    simp [hmatcher, CallMatcher.new, ReplayReport.new, CallMatcher.remaining, List.filter_map,
      Function.comp_def]
  obtain ⟨hanswers, haccounted, hrecorded, hmissed⟩ :=
    serveAll_places (D := D) matcher (.new calls canRecord) requests
  obtain ⟨hcalls, htotal⟩ := haccounted hinit
  have hassigned : Assignment (accepted D matchOn) matcher.calls requests
      (places (accepted D matchOn) matcher.calls requests) := places_assignment
  refine ⟨places (accepted D matchOn) matcher.calls requests, ?_, hassigned, ?_, ?_, ?_, ?_, ?_⟩
  · rw [hanswers]
    refine List.map_congr_left fun place _ => ?_
    cases place with
    | none => rfl
    | some i => simp [hmatcher, CallMatcher.new, Function.comp_def]
  · intro n request hn hmiss i recorded hi haccepts
    exact places_missed hn hmiss (hslot i recorded hi) haccepts
  · intro n m request other i j hlt hn hm hagree hi hj
    exact places_ordered hlt hn hm (fun recorded => hagree.accepted) hi hj
  · have hunconsumed : result.2.2.unconsumed = result.2.1.remaining := by
      unfold ReplayReport.unconsumed
      have hsum := htotal.trans hcalls.symm
      change result.2.2.matched + result.2.2.degraded + result.2.1.remaining =
        result.2.2.recordedCalls at hsum
      omega
    refine ⟨?_, hrecorded, hunconsumed⟩
    unfold ReplayReport.unconsumed
    omega
  · rw [hmissed]
    simp [ReplayReport.new, hmatcher, CallMatcher.new]
  · intro other hother
    have hbest := hits_le_places (accepted_rectangular matchOn) hother
    have hlength := hother.fits.length_eq
    have hlength' := hassigned.fits.length_eq
    have hsame : matcher.calls = calls.map fun call => (call, false) := rfl
    rw [← hsame] at hbest
    rw [count_none_eq, count_none_eq]
    omega

end Tracewake.Recording
