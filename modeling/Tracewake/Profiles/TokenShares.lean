import Tracewake.Apportionment.LargestRemainder
import Tracewake.Recording.PureReplay

/-!
# Token shares

The measured usage of every model call is split over its messages in proportion to their
length. The shares of a run make up its usage exactly, and no two of them have the same
stack.
-/

namespace Tracewake.Profiles

open JsonText Recording Apportionment

variable {F D : Type}

/-- `RESPONSE_LEAF`. -/
def responseLeaf : Text := "response".toList

/-- `UNTAGGED`. -/
def untagged : Text := "untagged".toList

/-- The errors of `proportional`. -/
inductive ProportionError
  /-- `token total cannot be negative`. -/
  | negativeTotal (total : ℤ)
  /-- `weights must be non-negative`. -/
  | negativeWeights (weights : List ℤ)
  deriving DecidableEq

/-- `proportional`. -/
def proportional (total : ℤ) (weights : List ℤ) : Except ProportionError (List ℤ) :=
  if total < 0 then .error (.negativeTotal total)
  else if weights = [] then .ok []
  else if weights.any (· < 0) then .error (.negativeWeights weights)
  else if weights.sum = 0 then .ok ((List.replicate weights.length 0).set 0 total)
  else .ok (largestRemainder total weights)

/-- `TokenShare`. -/
structure TokenShare where
  runId : Text
  runName : Text
  taskId : Option Text
  modelId : Text
  turn : ℕ
  leaf : Text
  inputTokens : ℤ
  outputTokens : ℤ
  deriving DecidableEq

/-- `key` of `_merge_shares`. -/
def TokenShare.key (share : TokenShare) : Text × Text × Option Text × Text × ℕ × Text :=
  (share.runId, share.runName, share.taskId, share.modelId, share.turn, share.leaf)

/-- A truthy text, or the alternative. -/
def orElse (text : Option Text) (alternative : Text) : Text :=
  match text with
  | some text => if text = [] then alternative else text
  | none => alternative

section Attribution

variable [Python F]

/-- A share of a call. -/
def callShare (header : RunHeader F) (event : ModelCallEvent F) (turn : ℕ) (leaf : Text)
    (input output : ℤ) : TokenShare where
  runId := header.runId
  runName := header.name
  taskId := header.taskId
  modelId := event.modelId
  turn := turn
  leaf := leaf
  inputTokens := input
  outputTokens := output

/-- The leaves of a call with the weights of its messages. A call with no messages still
has a measured total. -/
def weighted (event : ModelCallEvent F) : List (Text × ℤ) :=
  match event.messages with
  | [] => [(untagged, 0)]
  | messages => messages.map fun message =>
      (orElse message.provenance untagged, (message.content.length : ℤ))

/-- The shares of a call whose input is split into these parts. -/
def callShares (header : RunHeader F) (turn : ℕ) (event : ModelCallEvent F) (parts : List ℤ) :
    List TokenShare :=
  let output := event.response.usage.outputTokens
  ((((weighted event).map Prod.fst).zip parts).filter fun part => part.2 ≠ 0).map
      (fun part => callShare header event turn part.1 part.2 0) ++
    if output ≠ 0 then [callShare header event turn responseLeaf 0 output] else []

/-- One round of the loop of `attribute_tokens`. -/
def attributeCall (header : RunHeader F) (turn : ℕ) (event : ModelCallEvent F) :
    Except ProportionError (List TokenShare) :=
  (proportional event.response.usage.inputTokens ((weighted event).map Prod.snd)).map
    (callShares header turn event)

/-- The loop of `attribute_tokens`, from a turn on. -/
def attributeCalls (header : RunHeader F) :
    ℕ → List (ModelCallEvent F) → Except ProportionError (List TokenShare)
  | _, [] => .ok []
  | turn, event :: rest => do
    let shares ← attributeCall header turn event
    let others ← attributeCalls header (turn + 1) rest
    .ok (shares ++ others)

/-- Add a share to the bucket with its key, or open a new one. -/
def addShare : List TokenShare → TokenShare → List TokenShare
  | [], share => [share]
  | found :: rest, share =>
    if found.key = share.key then
      { found with
        inputTokens := found.inputTokens + share.inputTokens
        outputTokens := found.outputTokens + share.outputTokens } :: rest
    else found :: addShare rest share

/-- `_merge_shares`. -/
def mergeShares (shares : List TokenShare) : List TokenShare :=
  (shares.foldl addShare []).filter fun share => share.inputTokens ≠ 0 || share.outputTokens ≠ 0

/-- The model calls of a run. -/
def modelCalls (events : List (StoredEvent F D)) : List (ModelCallEvent F) :=
  events.filterMap fun stored =>
    match stored.event with
    | .modelCall event => some event
    | _ => none

/-- `attribute_tokens`. -/
def attributeTokens (header : RunHeader F) (events : List (StoredEvent F D)) :
    Except ProportionError (List TokenShare) := do
  let shares ← attributeCalls header 0 (modelCalls events)
  .ok (mergeShares shares)

/-- `usage_totals`. -/
def usageTotals (events : List (StoredEvent F D)) : ℤ × ℤ :=
  (modelCalls events).foldl (fun totals event =>
    (totals.1 + event.response.usage.inputTokens, totals.2 + event.response.usage.outputTokens))
    (0, 0)

/-- `_stack`. -/
def TokenShare.stack (share : TokenShare) : List Text :=
  let runLabel := orElse share.taskId (orElse (some share.runName) (share.runId.take 12))
  ["run:".toList ++ runLabel, "model:".toList ++ share.modelId,
    "turn:".toList ++ printInt (share.turn + 1), share.leaf]

end Attribution

section Proportions

variable {total : ℤ} {weights : List ℤ}

/-- Nonnegative weights are split into nonnegative parts that make up the total, each of
them its exact share rounded down or up. -/
theorem proportional_exact (htotal : 0 ≤ total) (hweights : ∀ w ∈ weights, 0 ≤ w) :
    ∃ parts, proportional total weights = .ok parts ∧ parts.length = weights.length ∧
      (∀ part ∈ parts, 0 ≤ part) ∧ (weights ≠ [] → parts.sum = total) ∧
      (0 < weights.sum → ∀ (i : ℕ) (part w : ℤ), parts[i]? = some part → weights[i]? = some w →
        part = ⌊(total * w : ℚ) / weights.sum⌋ ∨ part = ⌈(total * w : ℚ) / weights.sum⌉) := by
  have hany : weights.any (· < 0) = false := by
    simp only [List.any_eq_false, decide_eq_true_eq, not_lt]
    exact hweights
  unfold proportional
  rw [if_neg (by omega)]
  by_cases hempty : weights = []
  · rw [if_pos hempty]
    exact ⟨[], rfl, by simp [hempty], by simp, fun h => absurd hempty h, by simp⟩
  rw [if_neg hempty, hany]
  simp only [Bool.false_eq_true, if_false]
  by_cases hmass : weights.sum = 0
  · rw [if_pos hmass]
    obtain ⟨n, hn⟩ : ∃ n, weights.length = n + 1 :=
      Nat.exists_eq_add_one_of_ne_zero (by simpa using hempty)
    refine ⟨_, rfl, by simp, ?_, fun _ => ?_, fun hpos => by omega⟩
    · intro part hpart
      rcases List.mem_or_eq_of_mem_set hpart with hmem | rfl
      · rw [List.eq_of_mem_replicate hmem]
      · exact htotal
    · rw [hn, List.replicate_succ, List.set_cons_zero, List.sum_cons, List.sum_replicate]
      simp
  · rw [if_neg hmass]
    have hpos : 0 < weights.sum := by
      have := List.sum_nonneg hweights
      omega
    refine ⟨_, rfl, ?_, ?_, fun _ => sum_largestRemainder hpos total, ?_⟩
    · rw [largestRemainder, length_bumps, floors, List.length_map]
    · exact fun part hpart => largestRemainder_nonneg hpos htotal hweights hpart
    · exact fun _ i part w hpart hw => floor_or_ceil hpos hpart hw

end Proportions

section Sums

variable [Python F] {header : RunHeader F}

/-- The input tokens of shares. -/
def inputs (shares : List TokenShare) : ℤ := (shares.map (·.inputTokens)).sum

/-- The output tokens of shares. -/
def outputs (shares : List TokenShare) : ℤ := (shares.map (·.outputTokens)).sum

/-- No share is negative. -/
def Nonnegative (shares : List TokenShare) : Prop :=
  ∀ share ∈ shares, 0 ≤ share.inputTokens ∧ 0 ≤ share.outputTokens

/-- The inputs of two lists of shares add up. -/
theorem inputs_append (a b : List TokenShare) : inputs (a ++ b) = inputs a + inputs b := by
  simp [inputs]

/-- The outputs of two lists of shares add up. -/
theorem outputs_append (a b : List TokenShare) : outputs (a ++ b) = outputs a + outputs b := by
  simp [outputs]

/-- Leaving out what is zero does not change a sum. -/
theorem sum_filter_ne_zero {ι : Type} (f : ι → ℤ) (items : List ι) :
    ((items.filter fun item => f item ≠ 0).map f).sum = (items.map f).sum := by
  induction items with
  | nil => rfl
  | cons item rest ih =>
    by_cases h : f item = 0
    · simpa [h] using ih
    · simpa [h] using ih

/-- No part of a call has a negative weight. -/
theorem weights_nonneg (event : ModelCallEvent F) : ∀ w ∈ (weighted event).map Prod.snd, 0 ≤ w := by
  unfold weighted
  split
  · simp
  · simp

/-- A call has at least one part. -/
theorem weighted_ne_nil (event : ModelCallEvent F) : (weighted event).map Prod.snd ≠ [] := by
  unfold weighted
  split
  · simp
  · next hmessages =>
    intro h
    simp only [List.map_map, List.map_eq_nil_iff] at h
    exact hmessages h

/-- The shares of a call make up its usage. -/
theorem attributeCall_exact (header : RunHeader F) (turn : ℕ) {event : ModelCallEvent F}
    (hinput : 0 ≤ event.response.usage.inputTokens)
    (houtput : 0 ≤ event.response.usage.outputTokens) :
    ∃ shares, attributeCall header turn event = .ok shares ∧
      inputs shares = event.response.usage.inputTokens ∧
      outputs shares = event.response.usage.outputTokens ∧ Nonnegative shares ∧
      ∀ share ∈ shares, share.runId = header.runId ∧ share.runName = header.name ∧
        share.taskId = header.taskId := by
  obtain ⟨parts, hparts, hlength, hnonneg, hsum, _⟩ :=
    proportional_exact hinput (weights_nonneg event)
  unfold attributeCall
  rw [hparts]
  refine ⟨callShares header turn event parts, rfl, ?_, ?_, ?_, ?_⟩
  · have hzip : ((((weighted event).map Prod.fst).zip parts).map Prod.snd) = parts := by
      apply List.map_snd_zip
      rw [hlength]
      simp
    rw [callShares, inputs_append]
    have hfirst : inputs (((((weighted event).map Prod.fst).zip parts).filter
        fun part => part.2 ≠ 0).map fun part => callShare header event turn part.1 part.2 0) =
        parts.sum := by
      unfold inputs
      rw [List.map_map]
      have hkept := sum_filter_ne_zero Prod.snd (((weighted event).map Prod.fst).zip parts)
      rw [hzip] at hkept
      exact hkept
    rw [hfirst, hsum (weighted_ne_nil event)]
    split <;> simp [inputs, callShare]
  · rw [callShares, outputs_append]
    have hfirst : outputs (((((weighted event).map Prod.fst).zip parts).filter
        fun part => part.2 ≠ 0).map fun part => callShare header event turn part.1 part.2 0) =
        0 := by
      unfold outputs
      rw [List.map_map]
      exact List.sum_eq_zero fun x hx => by
        obtain ⟨_, _, rfl⟩ := List.mem_map.mp hx
        rfl
    rw [hfirst]
    split
    · simp [outputs, callShare]
    · next hzero => simpa [outputs] using (not_not.mp hzero).symm
  · intro share hshare
    rcases List.mem_append.mp hshare with hmem | hmem
    · obtain ⟨part, hpart, rfl⟩ := List.mem_map.mp hmem
      exact ⟨hnonneg _ (List.of_mem_zip (List.mem_filter.mp hpart).1).2, le_rfl⟩
    · split at hmem
      · rw [List.mem_singleton.mp hmem]
        exact ⟨le_rfl, houtput⟩
      · cases hmem
  · intro share hshare
    rcases List.mem_append.mp hshare with hmem | hmem
    · obtain ⟨part, _, rfl⟩ := List.mem_map.mp hmem
      exact ⟨rfl, rfl, rfl⟩
    · split at hmem
      · rw [List.mem_singleton.mp hmem]
        exact ⟨rfl, rfl, rfl⟩
      · cases hmem

/-- The input tokens that calls have used. -/
def usageInputs (calls : List (ModelCallEvent F)) : ℤ :=
  (calls.map (·.response.usage.inputTokens)).sum

/-- The output tokens that calls have used. -/
def usageOutputs (calls : List (ModelCallEvent F)) : ℤ :=
  (calls.map (·.response.usage.outputTokens)).sum

/-- The shares of calls make up their usage. -/
theorem attributeCalls_exact (header : RunHeader F) (turn : ℕ) {calls : List (ModelCallEvent F)}
    (hnonneg : ∀ event ∈ calls, 0 ≤ event.response.usage.inputTokens ∧
      0 ≤ event.response.usage.outputTokens) :
    ∃ shares, attributeCalls header turn calls = .ok shares ∧ inputs shares = usageInputs calls ∧
      outputs shares = usageOutputs calls ∧ Nonnegative shares ∧
      ∀ share ∈ shares, share.runId = header.runId ∧ share.runName = header.name ∧
        share.taskId = header.taskId := by
  induction calls generalizing turn with
  | nil => exact ⟨[], rfl, rfl, rfl, by simp [Nonnegative], by simp⟩
  | cons event rest ih =>
    obtain ⟨hinput, houtput⟩ := hnonneg event List.mem_cons_self
    obtain ⟨shares, hshares, hin, hout, hpos, hrun⟩ :=
      attributeCall_exact header turn hinput houtput
    obtain ⟨others, hothers, hin', hout', hpos', hrun'⟩ :=
      ih (turn + 1) fun event' hevent => hnonneg event' (List.mem_cons_of_mem event hevent)
    refine ⟨shares ++ others, ?_, ?_, ?_, ?_, ?_⟩
    · unfold attributeCalls
      rw [hshares, hothers]
      rfl
    · rw [inputs_append, hin, hin']
      simp [usageInputs]
    · rw [outputs_append, hout, hout']
      simp [usageOutputs]
    · intro share hshare
      exact (List.mem_append.mp hshare).elim (hpos share) (hpos' share)
    · intro share hshare
      exact (List.mem_append.mp hshare).elim (hrun share) (hrun' share)

/-- The totals are the sums over all model calls. -/
theorem usageTotals_eq (events : List (StoredEvent F D)) :
    usageTotals events = (usageInputs (modelCalls events), usageOutputs (modelCalls events)) := by
  have hfold : ∀ (calls : List (ModelCallEvent F)) (totals : ℤ × ℤ),
      calls.foldl (fun totals event => (totals.1 + event.response.usage.inputTokens,
        totals.2 + event.response.usage.outputTokens)) totals =
        (totals.1 + usageInputs calls, totals.2 + usageOutputs calls) := by
    intro calls
    induction calls with
    | nil => simp [usageInputs, usageOutputs]
    | cons event rest ih =>
      intro totals
      rw [List.foldl_cons, ih]
      simp only [usageInputs, usageOutputs, List.map_cons, List.sum_cons]
      exact Prod.ext (by ring) (by ring)
  unfold usageTotals
  rw [hfold]
  simp

end Sums

section Merging

variable {shares buckets : List TokenShare} {share : TokenShare}

/-- A share that is added to its bucket adds its inputs to the whole. -/
theorem inputs_addShare (buckets : List TokenShare) (share : TokenShare) :
    inputs (addShare buckets share) = inputs buckets + share.inputTokens := by
  induction buckets with
  | nil => simp [addShare, inputs]
  | cons found rest ih =>
    unfold addShare
    split
    · simp only [inputs, List.map_cons, List.sum_cons]
      ring
    · simp only [inputs, List.map_cons, List.sum_cons] at ih ⊢
      rw [ih]
      ring

/-- A share that is added to its bucket adds its outputs to the whole. -/
theorem outputs_addShare (buckets : List TokenShare) (share : TokenShare) :
    outputs (addShare buckets share) = outputs buckets + share.outputTokens := by
  induction buckets with
  | nil => simp [addShare, outputs]
  | cons found rest ih =>
    unfold addShare
    split
    · simp only [outputs, List.map_cons, List.sum_cons]
      ring
    · simp only [outputs, List.map_cons, List.sum_cons] at ih ⊢
      rw [ih]
      ring

/-- The keys of the buckets. -/
theorem keys_addShare (buckets : List TokenShare) (share : TokenShare) :
    (addShare buckets share).map (·.key) = buckets.map (·.key) ∨
      share.key ∉ buckets.map (·.key) ∧
        (addShare buckets share).map (·.key) = buckets.map (·.key) ++ [share.key] := by
  induction buckets with
  | nil => exact .inr ⟨by simp, rfl⟩
  | cons found rest ih =>
    unfold addShare
    split
    · exact .inl rfl
    · next hne =>
      rcases ih with hsame | ⟨hnew, hsnoc⟩
      · left
        rw [List.map_cons, List.map_cons, hsame]
      · right
        refine ⟨?_, ?_⟩
        · rw [List.map_cons, List.mem_cons]
          rintro (hkey | hmem)
          · exact hne hkey.symm
          · exact hnew hmem
        · rw [List.map_cons, List.map_cons, hsnoc, List.cons_append]

/-- Shares that are not negative leave no bucket negative. -/
theorem Nonnegative.addShare (h : Nonnegative buckets) (hinput : 0 ≤ share.inputTokens)
    (houtput : 0 ≤ share.outputTokens) : Nonnegative (addShare buckets share) := by
  induction buckets with
  | nil =>
    intro found hfound
    rw [List.mem_singleton.mp hfound]
    exact ⟨hinput, houtput⟩
  | cons first rest ih =>
    obtain ⟨hfirst, hfirst'⟩ := h first List.mem_cons_self
    have hrest : Nonnegative rest := fun found hfound => h found (List.mem_cons_of_mem first hfound)
    intro found hfound
    unfold Profiles.addShare at hfound
    split at hfound
    · rcases List.mem_cons.mp hfound with rfl | hmem
      · exact ⟨add_nonneg hfirst hinput, add_nonneg hfirst' houtput⟩
      · exact hrest found hmem
    · rcases List.mem_cons.mp hfound with rfl | hmem
      · exact ⟨hfirst, hfirst'⟩
      · exact ih hrest found hmem

/-- What merging keeps: the sums, the signs and the keys, none of them twice. -/
theorem foldl_addShare (hnonneg : Nonnegative shares) (hbuckets : Nonnegative buckets)
    (hnodup : (buckets.map (·.key)).Nodup) :
    inputs (shares.foldl addShare buckets) = inputs buckets + inputs shares ∧
      outputs (shares.foldl addShare buckets) = outputs buckets + outputs shares ∧
      Nonnegative (shares.foldl addShare buckets) ∧
      ((shares.foldl addShare buckets).map (·.key)).Nodup ∧
      ∀ key ∈ (shares.foldl addShare buckets).map (·.key),
        key ∈ buckets.map (·.key) ∨ key ∈ shares.map (·.key) := by
  induction shares generalizing buckets with
  | nil => exact ⟨by simp [inputs], by simp [outputs], hbuckets, hnodup, fun key hkey => .inl hkey⟩
  | cons share rest ih =>
    obtain ⟨hinput, houtput⟩ := hnonneg share List.mem_cons_self
    have hrest : Nonnegative rest := fun s hs => hnonneg s (List.mem_cons_of_mem share hs)
    have hkeys : ((addShare buckets share).map (·.key)).Nodup := by
      rcases keys_addShare buckets share with hsame | ⟨hnew, hsnoc⟩
      · rw [hsame]
        exact hnodup
      · rw [hsnoc, List.nodup_append]
        refine ⟨hnodup, List.nodup_singleton _, fun a ha b hb hab => ?_⟩
        rw [List.mem_singleton.mp hb] at hab
        exact hnew (hab ▸ ha)
    obtain ⟨hin, hout, hpos, hdistinct, hfrom⟩ :=
      ih hrest (hbuckets.addShare hinput houtput) hkeys
    rw [List.foldl_cons]
    refine ⟨?_, ?_, hpos, hdistinct, ?_⟩
    · rw [hin, inputs_addShare]
      simp only [inputs, List.map_cons, List.sum_cons]
      ring
    · rw [hout, outputs_addShare]
      simp only [outputs, List.map_cons, List.sum_cons]
      ring
    · intro key hkey
      rcases hfrom key hkey with hold | hnew
      · rcases keys_addShare buckets share with hsame | ⟨_, hsnoc⟩
        · rw [hsame] at hold
          exact .inl hold
        · rw [hsnoc, List.mem_append, List.mem_singleton] at hold
          rcases hold with hold | rfl
          · exact .inl hold
          · exact .inr (by simp)
      · exact .inr (by simp [List.mem_map.mp hnew])

/-- Dropping the shares that are zero keeps the sums. -/
theorem inputs_filter (shares : List TokenShare) :
    inputs (shares.filter fun share => share.inputTokens ≠ 0 || share.outputTokens ≠ 0) =
        inputs shares ∧
      outputs (shares.filter fun share => share.inputTokens ≠ 0 || share.outputTokens ≠ 0) =
        outputs shares := by
  induction shares with
  | nil => exact ⟨rfl, rfl⟩
  | cons share rest ih =>
    simp only [inputs, outputs, List.map_cons, List.sum_cons, List.filter_cons] at ih ⊢
    split
    · simp only [List.map_cons, List.sum_cons]
      exact ⟨congrArg _ ih.1, congrArg _ ih.2⟩
    · next hzero =>
      simp only [Bool.or_eq_true, decide_eq_true_eq, not_or, not_not] at hzero
      rw [hzero.1, hzero.2, zero_add, zero_add]
      exact ih

/-- Shares of one run with one stack have one key. -/
theorem key_of_stack {a b : TokenShare} (hrun : a.runId = b.runId) (hname : a.runName = b.runName)
    (htask : a.taskId = b.taskId) (h : a.stack = b.stack) : a.key = b.key := by
  simp only [TokenShare.stack, List.cons.injEq, List.append_cancel_left_eq, and_true] at h
  obtain ⟨_, hmodel, hturn, hleaf⟩ := h
  have hsame : ((a.turn : ℤ) + 1) = (b.turn : ℤ) + 1 := by
    rw [← readInt_printInt (a.turn + 1), hturn, readInt_printInt]
  have hturns : a.turn = b.turn := by omega
  simp only [TokenShare.key, hrun, hname, htask, hmodel, hturns, hleaf]

end Merging

/-- Attribution conserves the usage of a run. Within a call, each message gets its exact
share rounded down or up. -/
theorem attribution_conserves [Python F] (header : RunHeader F) (events : List (StoredEvent F D))
    (hnonneg : ∀ event ∈ modelCalls events, 0 ≤ event.response.usage.inputTokens ∧
      0 ≤ event.response.usage.outputTokens) :
    (∃ shares, attributeTokens header events = .ok shares ∧
      (inputs shares, outputs shares) = usageTotals events ∧ Nonnegative shares ∧
      (shares.map (·.stack)).Nodup) ∧
    ∀ event ∈ modelCalls events, ∃ parts,
      proportional event.response.usage.inputTokens ((weighted event).map Prod.snd) = .ok parts ∧
      parts.length = (weighted event).length ∧
      parts.sum = event.response.usage.inputTokens ∧
      (0 < ((weighted event).map Prod.snd).sum → ∀ (i : ℕ) (part w : ℤ), parts[i]? = some part →
        ((weighted event).map Prod.snd)[i]? = some w →
        part = ⌊(event.response.usage.inputTokens * w : ℚ) / ((weighted event).map Prod.snd).sum⌋ ∨
        part = ⌈(event.response.usage.inputTokens * w : ℚ) /
          ((weighted event).map Prod.snd).sum⌉) := by
  constructor
  · obtain ⟨shares, hshares, hin, hout, hpos, hrun⟩ := attributeCalls_exact header 0 hnonneg
    have hempty : Nonnegative [] := by simp [Nonnegative]
    obtain ⟨hin', hout', hpos', hdistinct, hfrom⟩ := foldl_addShare hpos hempty List.nodup_nil
    obtain ⟨hkeptIn, hkeptOut⟩ := inputs_filter (shares.foldl addShare [])
    refine ⟨mergeShares shares, ?_, ?_, ?_, ?_⟩
    · unfold attributeTokens
      rw [hshares]
      rfl
    · rw [usageTotals_eq, ← hin, ← hout]
      refine Prod.ext ?_ ?_
      · exact hkeptIn.trans (hin'.trans (by simp [inputs]))
      · exact hkeptOut.trans (hout'.trans (by simp [outputs]))
    · exact fun share hshare => hpos' share (List.mem_filter.mp hshare).1
    · have hkeys : ((mergeShares shares).map (·.key)).Nodup :=
        (List.filter_sublist.map _).nodup hdistinct
      -- All shares are of one run, so that their stacks tell them apart as their keys do.
      have hone : ∀ share ∈ mergeShares shares, share.runId = header.runId ∧
          share.runName = header.name ∧ share.taskId = header.taskId := by
        intro share hshare
        have hkey : share.key ∈ (shares.foldl addShare []).map (·.key) :=
          List.mem_map_of_mem (List.mem_filter.mp hshare).1
        rcases hfrom share.key hkey with hnil | hmem
        · cases hnil
        · obtain ⟨other, hother, hsame⟩ := List.mem_map.mp hmem
          simp only [TokenShare.key, Prod.mk.injEq] at hsame
          obtain ⟨hid, hname, htask⟩ := hrun other hother
          exact ⟨hsame.1 ▸ hid, hsame.2.1 ▸ hname, hsame.2.2.1 ▸ htask⟩
      refine List.Nodup.map_on ?_ hkeys.of_map
      intro a ha b hb hstack
      obtain ⟨hid, hname, htask⟩ := hone a ha
      obtain ⟨hid', hname', htask'⟩ := hone b hb
      exact List.inj_on_of_nodup_map hkeys ha hb
        (key_of_stack (hid.trans hid'.symm) (hname.trans hname'.symm) (htask.trans htask'.symm)
          hstack)
  · intro event hevent
    obtain ⟨parts, hparts, hlength, _, hsum, hround⟩ :=
      proportional_exact (hnonneg event hevent).1 (weights_nonneg event)
    exact ⟨parts, hparts, by simpa using hlength, hsum (weighted_ne_nil event), hround⟩

/-- A call with two messages that has used ten input tokens and three output tokens. -/
def demoCall : ModelCallEvent Decimal where
  eventMeta := ⟨half, none, none⟩
  callId := "c0".toList
  provider := "p".toList
  modelId := "m".toList
  modelVersion := none
  params := {}
  tools := none
  messages := [{ role := .system, content := "abc".toList, provenance := some "task".toList },
    { role := .user, content := "defg".toList }]
  messagesHash := "00".toList
  response := { finishReason := "stop".toList, usage := { inputTokens := 10, outputTokens := 3 } }
  stream := none
  reassembles := by decide

/-- A run of one call. -/
def demoRun : List (StoredEvent Decimal HexDigest) := [⟨"r".toList, 0, .modelCall demoCall⟩]

/-- The shares of a call make up what it has used. -/
theorem attribution_conserves_demo : ∃ shares,
    attributeTokens { runId := "r".toList, name := "run".toList, startedAt := half, status := .ok }
      demoRun = .ok shares ∧ inputs shares = 10 ∧ outputs shares = 3 := by
  obtain ⟨⟨shares, hshares, htotals, _⟩, _⟩ := attribution_conserves
    { runId := "r".toList, name := "run".toList, startedAt := half, status := .ok } demoRun
    (by
      intro event hevent
      obtain rfl : event = demoCall := List.mem_singleton.mp hevent
      decide)
  exact ⟨shares, hshares, congrArg Prod.fst htotals, congrArg Prod.snd htotals⟩

end Tracewake.Profiles
