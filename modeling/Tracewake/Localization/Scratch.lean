import Mathlib.Data.Finset.Max
import Mathlib.Data.List.Basic

/-!
# Scratch files

What a run does to files, without its tools: every step writes some paths, refers to some,
and may create what it writes. The loops that look for the commitment of a run are compared
here with what they are documented to find.
-/

namespace Tracewake.Localization

variable {P : Type} [LinearOrder P] [DecidableEq P]

/-- A step of a run: the paths that it writes, those that it refers to, and whether its
action brings files into existence. -/
structure Move (P : Type) where
  writes : Finset P
  targets : Finset P
  made : Bool
  deriving DecidableEq

/-- The paths that a step reads: it refers to them and does not write them. -/
def Move.reads (m : Move P) : Finset P :=
  m.targets \ m.writes

/-- The paths that some step has read. -/
def readIn : List (Move P) → Finset P
  | [] => ∅
  | m :: rest => m.reads ∪ readIn rest

/-- The least of some paths. -/
def least (paths : Finset P) : Option P :=
  if h : paths.Nonempty then some (paths.min' h) else none

/-! ## The rule and its loop -/

/-- The scratch file: the first path that is written and that no earlier step has read, the
least one if a step writes several of them. -/
def scratchFile (read : Finset P) : List (Move P) → Option P
  | [] => none
  | m :: rest => (least (m.writes \ read)).or (scratchFile (read ∪ m.reads) rest)

/-- The first step that writes a path other than the scratch file. -/
def firstOther (scratch : Option P) (index : ℕ) : List (Move P) → Option ℕ
  | [] => none
  | m :: rest =>
    if ∃ p ∈ m.writes, some p ≠ scratch then some index else firstOther scratch (index + 1) rest

/-- What the rule is documented to report. -/
def documentedStep (fallback : ℕ) (moves : List (Move P)) : ℕ :=
  (firstOther (scratchFile ∅ moves) 1 moves).getD fallback

/-- The loop: the first step that writes a path which was read, or another path than the one
chosen as scratch file. -/
def search (read : Finset P) (scratch : Option P) (index : ℕ) : List (Move P) → Option ℕ
  | [] => none
  | m :: rest =>
    if ∃ p ∈ m.writes, p ∈ read ∨ ∃ s ∈ scratch, p ≠ s then some index
    else search (read ∪ m.reads) (scratch.or (least m.writes)) (index + 1) rest

/-- What the loop reports. -/
def reportedStep (fallback : ℕ) (moves : List (Move P)) : ℕ :=
  (search ∅ none 1 moves).getD fallback

/-! ## Where they differ -/

/-- No step writes. -/
def Idle (moves : List (Move P)) : Prop :=
  ∀ m ∈ moves, m.writes = ∅

/-- Only the scratch file is written. -/
def Only (s : P) (moves : List (Move P)) : Prop :=
  ∀ m ∈ moves, ∀ p ∈ m.writes, p = s

/-- Only the scratch file is written, and never after a step has read it. -/
def Within (s : P) (read : Finset P) : List (Move P) → Prop
  | [] => True
  | m :: rest => (∀ p ∈ m.writes, p = s ∧ p ∉ read) ∧ Within s (read ∪ m.reads) rest

/-- The first step that writes, when no step has read what it writes. -/
structure Begins (moves before : List (Move P)) (m : Move P) (after : List (Move P)) (s : P) :
    Prop where
  split : moves = before ++ m :: after
  idle : Idle before
  unread : ∀ p ∈ m.writes, p ∉ readIn before
  scratch : least m.writes = some s

/-- The first step of those after the beginning that writes the scratch file, and nothing
else, after a step has read it. -/
structure Rewrites (read : Finset P) (s : P) (moves between : List (Move P)) (m : Move P)
    (after : List (Move P)) : Prop where
  split : moves = between ++ m :: after
  within : Within s read between
  writes : m.writes = {s}
  read : s ∈ read ∪ readIn between

/-- The runs on which the loop does what is documented. A run does not begin to write with
several new files at once, and does not write its scratch file again after reading it, unless
this happens at the step that is reported in default of another one, and no other step is
reported by the loop, or by the rule. -/
structure Conforms (fallback : ℕ) (moves : List (Move P)) : Prop where
  batch : ∀ before m after s, Begins moves before m after s → m.writes ≠ {s} →
    before.length + 1 = fallback ∧ Within s (readIn before ∪ m.reads) after
  rewrite : ∀ before m after s, Begins moves before m after s → m.writes = {s} →
    ∀ between m' rest, Rewrites (readIn before ∪ m.reads) s after between m' rest →
      before.length + 1 + between.length + 1 = fallback ∧ Only s rest

section Reads

omit [DecidableEq P] in
/-- Only the empty set has no least path. -/
theorem least_eq_none {paths : Finset P} : least paths = none ↔ paths = ∅ := by
  unfold least
  split
  · next h => simp [h.ne_empty]
  · next h => simpa using h

omit [DecidableEq P] in
/-- The least path is one of the paths. -/
theorem least_mem {paths : Finset P} {p : P} (h : least paths = some p) : p ∈ paths := by
  unfold least at h
  split at h
  · obtain rfl := Option.some.inj h
    exact Finset.min'_mem _ _
  · cases h

omit [LinearOrder P] in
/-- What is written within the scratch file is the scratch file. -/
theorem Within.only {s : P} {read : Finset P} {moves : List (Move P)} (h : Within s read moves) :
    Only s moves := by
  induction moves generalizing read with
  | nil => exact fun m hm => nomatch hm
  | cons m rest ih =>
    exact List.forall_mem_cons.mpr ⟨fun p hp => (h.1 p hp).1, ih h.2⟩

/-- The scratch file was not read before it was written. -/
theorem scratchFile_unread {read : Finset P} {moves : List (Move P)} {s : P}
    (h : scratchFile read moves = some s) : s ∉ read := by
  induction moves generalizing read with
  | nil => cases h
  | cons m rest ih =>
    simp only [scratchFile, Option.or_eq_some_iff] at h
    rcases h with hleast | ⟨_, hrest⟩
    · exact (Finset.mem_sdiff.mp (least_mem hleast)).2
    · exact fun hread => ih hrest (Finset.mem_union_left _ hread)

end Reads

section Scans

omit [LinearOrder P] in
/-- A step that is found comes no earlier than the search begins. -/
theorem firstOther_ge {scratch : Option P} {index i : ℕ} {moves : List (Move P)}
    (h : firstOther scratch index moves = some i) : index ≤ i := by
  induction moves generalizing index with
  | nil => cases h
  | cons m rest ih =>
    simp only [firstOther] at h
    split at h
    · obtain rfl := Option.some.inj h
      exact le_refl index
    · have := ih h
      omega

/-- A step that is found comes no earlier than the search begins. -/
theorem search_ge {read : Finset P} {scratch : Option P} {index i : ℕ} {moves : List (Move P)}
    (h : search read scratch index moves = some i) : index ≤ i := by
  induction moves generalizing read scratch index with
  | nil => cases h
  | cons m rest ih =>
    simp only [search] at h
    split at h
    · obtain rfl := Option.some.inj h
      exact le_refl index
    · have := ih h
      omega

/-- A step that is found is one of the steps. -/
theorem search_le {read : Finset P} {scratch : Option P} {index i : ℕ} {moves : List (Move P)}
    (h : search read scratch index moves = some i) : i < index + moves.length := by
  induction moves generalizing read scratch index with
  | nil => cases h
  | cons m rest ih =>
    simp only [search] at h
    split at h
    · obtain rfl := Option.some.inj h
      simp
    · have := ih h
      simp only [List.length_cons]
      omega

omit [LinearOrder P] in
/-- No step writes another file exactly if all writes are to the one file. -/
theorem firstOther_eq_none {s : P} {index : ℕ} {moves : List (Move P)} :
    firstOther (some s) index moves = none ↔ Only s moves := by
  induction moves generalizing index with
  | nil => simp [firstOther, Only]
  | cons m rest ih =>
    simp only [firstOther, Only, List.forall_mem_cons]
    split
    · next hother =>
      obtain ⟨p, hp, hne⟩ := hother
      constructor
      · intro h
        cases h
      · intro h
        exact absurd (congrArg some (h.1 p hp)) hne
    · next hsame =>
      rw [ih]
      have hall : ∀ p ∈ m.writes, p = s := by
        intro p hp
        by_contra hne
        exact hsame ⟨p, hp, fun heq => hne (Option.some.inj heq)⟩
      exact ⟨fun h => ⟨hall, h⟩, fun h => h.2⟩

/-- No step is found exactly if every step stays within the scratch file. -/
theorem search_eq_none {s : P} {read : Finset P} {index : ℕ} {moves : List (Move P)} :
    search read (some s) index moves = none ↔ Within s read moves := by
  induction moves generalizing read index with
  | nil => simp [search, Within]
  | cons m rest ih =>
    simp only [search, Within, Option.some_or]
    split
    · next hfound =>
      obtain ⟨p, hp, hflag⟩ := hfound
      constructor
      · intro h
        cases h
      · intro h
        obtain ⟨rfl, hunread⟩ := h.1 p hp
        rcases hflag with hread | ⟨s', hs', hne⟩
        · exact absurd hread hunread
        · cases hs'
          exact absurd rfl hne
    · next hnone =>
      rw [ih]
      have hall : ∀ p ∈ m.writes, p = s ∧ p ∉ read := by
        intro p hp
        constructor
        · by_contra hne
          exact hnone ⟨p, hp, .inr ⟨s, rfl, hne⟩⟩
        · exact fun hread => hnone ⟨p, hp, .inl hread⟩
      exact ⟨fun h => ⟨hall, h⟩, fun h => h.2⟩

/-- Steps that write nothing are passed over. -/
theorem search_idle {read : Finset P} {scratch : Option P} {index : ℕ}
    {before rest : List (Move P)} (h : Idle before) :
    search read scratch index (before ++ rest) =
      search (read ∪ readIn before) scratch (index + before.length) rest := by
  induction before generalizing read index with
  | nil => simp [readIn]
  | cons m before ih =>
    have hm : m.writes = ∅ := h m (List.mem_cons_self ..)
    have hrest : Idle before := fun m' hm' => h m' (List.mem_cons_of_mem _ hm')
    have hnext := @ih (read ∪ m.reads) (index + 1) hrest
    simp only [List.cons_append, search, hm, Finset.notMem_empty, false_and, exists_false,
      if_false, least_eq_none.mpr, Option.or_none, hnext, readIn, Finset.union_assoc,
      List.length_cons]
    congr 1
    omega

omit [LinearOrder P] in
/-- Idle steps are passed over. -/
theorem firstOther_idle {scratch : Option P} {index : ℕ} {before rest : List (Move P)}
    (h : Idle before) : firstOther scratch index (before ++ rest) =
      firstOther scratch (index + before.length) rest := by
  induction before generalizing index with
  | nil => simp
  | cons m before ih =>
    have hm : m.writes = ∅ := h m (List.mem_cons_self ..)
    have hrest : Idle before := fun m' hm' => h m' (List.mem_cons_of_mem _ hm')
    have hnext := @ih (index + 1) hrest
    simp only [List.cons_append, firstOther, hm, Finset.notMem_empty, false_and, exists_false,
      if_false, hnext, List.length_cons]
    congr 1
    omega

/-- Idle steps add only what they read. -/
theorem scratchFile_idle {read : Finset P} {before rest : List (Move P)} (h : Idle before) :
    scratchFile read (before ++ rest) = scratchFile (read ∪ readIn before) rest := by
  induction before generalizing read with
  | nil => simp [readIn]
  | cons m before ih =>
    have hm : m.writes = ∅ := h m (List.mem_cons_self ..)
    have hrest : Idle before := fun m' hm' => h m' (List.mem_cons_of_mem _ hm')
    have hnext := @ih (read ∪ m.reads) hrest
    have hleast : least (m.writes \ read) = none := by simp [least_eq_none, hm]
    simp only [List.cons_append, scratchFile, hleast, Option.none_or, hnext, readIn,
      Finset.union_assoc]

omit [LinearOrder P] in
/-- A run writes nothing, or there is a first step that writes. -/
theorem idle_or_writes (moves : List (Move P)) : Idle moves ∨
    ∃ before m after, moves = before ++ m :: after ∧ Idle before ∧ m.writes ≠ ∅ := by
  induction moves with
  | nil => exact .inl fun m hm => nomatch hm
  | cons m rest ih =>
    by_cases hm : m.writes = ∅
    · rcases ih with hidle | ⟨before, m', after, rfl, hidle, hm'⟩
      · exact .inl (List.forall_mem_cons.mpr ⟨hm, hidle⟩)
      · exact .inr ⟨m :: before, m', after, rfl, List.forall_mem_cons.mpr ⟨hm, hidle⟩, hm'⟩
    · refine .inr ⟨[], m, rest, rfl, ?_, hm⟩
      exact fun m' hm' => nomatch hm'

omit [LinearOrder P] [DecidableEq P] in
/-- There is only one first step that writes. -/
theorem firstWrite_unique {before before' after after' : List (Move P)} {m m' : Move P}
    (h : before ++ m :: after = before' ++ m' :: after') (hidle : Idle before)
    (hidle' : Idle before') (hm : m.writes ≠ ∅) (hm' : m'.writes ≠ ∅) :
    before = before' ∧ m = m' ∧ after = after' := by
  induction before generalizing before' with
  | nil =>
    cases before' with
    | nil =>
      obtain ⟨rfl, rfl⟩ := List.cons.inj h
      exact ⟨rfl, rfl, rfl⟩
    | cons m'' before' =>
      obtain ⟨rfl, _⟩ := List.cons.inj h
      exact absurd (hidle' m (List.mem_cons_self ..)) hm
  | cons m'' before ih =>
    cases before' with
    | nil =>
      obtain ⟨rfl, _⟩ := List.cons.inj h
      exact absurd (hidle m'' (List.mem_cons_self ..)) hm'
    | cons m₃ before' =>
      obtain ⟨rfl, hrest⟩ := List.cons.inj h
      obtain ⟨rfl, hsame, hafter⟩ := ih hrest
        (fun m hm => hidle m (List.mem_cons_of_mem _ hm))
        (fun m hm => hidle' m (List.mem_cons_of_mem _ hm))
      exact ⟨rfl, hsame, hafter⟩

end Scans

section Beginnings

/-- A run that begins to write writes something at its beginning. -/
theorem Begins.writes {moves before after : List (Move P)} {m : Move P} {s : P}
    (h : Begins moves before m after s) : m.writes ≠ ∅ := by
  intro hempty
  have hscratch := h.scratch
  rw [hempty, least_eq_none.mpr rfl] at hscratch
  cases hscratch

/-- An idle run does not begin to write. -/
theorem Idle.not_begins {moves before after : List (Move P)} {m : Move P} {s : P}
    (h : Idle moves) : ¬ Begins moves before m after s := by
  intro hbegins
  apply hbegins.writes
  apply h
  simp [hbegins.split]

/-- A run does not begin with files that no step has read if it writes one that was read. -/
theorem not_begins_of_read {before before' after after' : List (Move P)} {m m' : Move P} {p s : P}
    (hidle : Idle before) (hp : p ∈ m.writes) (hmem : p ∈ readIn before) :
    ¬ Begins (before ++ m :: after) before' m' after' s := by
  intro hbegins
  have hm : m.writes ≠ ∅ := Finset.ne_empty_of_mem hp
  obtain ⟨rfl, rfl, rfl⟩ :=
    firstWrite_unique hbegins.split hidle hbegins.idle hm hbegins.writes
  exact hbegins.unread p hp hmem

/-- A run begins to write once. -/
theorem Begins.unique {moves before before' after after' : List (Move P)} {m m' : Move P}
    {s s' : P} (h : Begins moves before m after s) (h' : Begins moves before' m' after' s') :
    before = before' ∧ m = m' ∧ after = after' ∧ s = s' := by
  have hsplit := h.split.symm.trans h'.split
  obtain ⟨rfl, rfl, rfl⟩ := firstWrite_unique hsplit h.idle h'.idle h.writes h'.writes
  have hscratch := h.scratch.symm.trans h'.scratch
  exact ⟨rfl, rfl, rfl, Option.some.inj hscratch⟩

/-- A run is idle, or the first file that it writes was read by a step before, or it begins
with files that no step has read. -/
theorem beginning (moves : List (Move P)) : Idle moves ∨
    (∃ before m after, moves = before ++ m :: after ∧ Idle before ∧
      ∃ p ∈ m.writes, p ∈ readIn before) ∨
    ∃ before m after s, Begins moves before m after s := by
  rcases idle_or_writes moves with hidle | ⟨before, m, after, rfl, hidle, hm⟩
  · exact .inl hidle
  right
  by_cases hread : ∃ p ∈ m.writes, p ∈ readIn before
  · exact .inl ⟨before, m, after, rfl, hidle, hread⟩
  · right
    obtain ⟨s, hs⟩ := Option.ne_none_iff_exists'.mp (mt least_eq_none.mp hm)
    have hunread : ∀ p ∈ m.writes, p ∉ readIn before := fun p hp hmem => hread ⟨p, hp, hmem⟩
    exact ⟨before, m, after, s, rfl, hidle, hunread, hs⟩

/-- Another path is written than the least one exactly if several are written. -/
theorem Begins.writes_other {moves before after : List (Move P)} {m : Move P} {s : P}
    (h : Begins moves before m after s) : (∃ p ∈ m.writes, p ≠ s) ↔ m.writes ≠ {s} := by
  constructor
  · rintro ⟨p, hp, hne⟩ hsingle
    rw [hsingle, Finset.mem_singleton] at hp
    exact hne hp
  · intro hmany
    by_contra hnone
    apply hmany
    ext p
    rw [Finset.mem_singleton]
    constructor
    · intro hp
      by_contra hne
      exact hnone ⟨p, hp, hne⟩
    · rintro rfl
      exact least_mem h.scratch

/-- The loop finds nothing in an idle run. -/
theorem search_of_idle {moves : List (Move P)} (h : Idle moves) : search ∅ none 1 moves = none := by
  rw [← List.append_nil moves, search_idle h]
  rfl

/-- The loop stops at a run's first write if it is to a file that was read. -/
theorem search_of_read {before after : List (Move P)} {m : Move P} {p : P} (hidle : Idle before)
    (hp : p ∈ m.writes) (hmem : p ∈ readIn before) :
    search ∅ none 1 (before ++ m :: after) = some (before.length + 1) := by
  rw [search_idle hidle, Finset.empty_union, search, if_pos ⟨p, hp, .inl hmem⟩]
  congr 1
  omega

/-- A file that was read before the first write is not the scratch file. -/
theorem scratchFile_ne {before after : List (Move P)} {m : Move P} {p : P} (hidle : Idle before)
    (hmem : p ∈ readIn before) : some p ≠ scratchFile ∅ (before ++ m :: after) := by
  rw [scratchFile_idle hidle, Finset.empty_union]
  intro heq
  exact scratchFile_unread heq.symm hmem

/-- The path that a run begins with is the scratch file, for the rule and for the loop. -/
theorem Begins.chosen {moves before after : List (Move P)} {m : Move P} {s : P}
    (h : Begins moves before m after s) : scratchFile ∅ moves = some s ∧
      search ∅ none 1 moves =
        search (readIn before ∪ m.reads) (some s) (before.length + 2) after := by
  obtain ⟨rfl, hidle, hunread, hs⟩ := h
  constructor
  · rw [scratchFile_idle hidle, Finset.empty_union, scratchFile,
      Finset.sdiff_eq_self_of_disjoint (Finset.disjoint_left.mpr hunread), hs]
    rfl
  · rw [search_idle hidle, Finset.empty_union, search, if_neg, Option.none_or, hs]
    · congr 1
      omega
    · rintro ⟨p, hp, hmem | ⟨s', hs', -⟩⟩
      · exact hunread p hp hmem
      · cases hs'

end Beginnings

section Rewriting

/-- Steps that write the unread scratch file at most are passed over. -/
theorem search_within {s : P} {read : Finset P} {index : ℕ} {between rest : List (Move P)}
    (h : Within s read between) : search read (some s) index (between ++ rest) =
      search (read ∪ readIn between) (some s) (index + between.length) rest := by
  induction between generalizing read index with
  | nil => simp [readIn]
  | cons m between ih =>
    obtain ⟨hm, hrest⟩ := h
    have hpassed : ¬ ∃ p ∈ m.writes, p ∈ read ∨ ∃ s' ∈ some s, p ≠ s' := by
      rintro ⟨p, hp, hread | ⟨s', hs', hne⟩⟩
      · exact (hm p hp).2 hread
      · cases hs'
        exact hne (hm p hp).1
    rw [List.cons_append, search, if_neg hpassed, Option.some_or, ih hrest, readIn,
      Finset.union_assoc, List.length_cons]
    congr 1
    omega

omit [LinearOrder P] in
/-- Steps that write the scratch file at most are passed over by the rule. -/
theorem firstOther_only {s : P} {index : ℕ} {between rest : List (Move P)} (h : Only s between) :
    firstOther (some s) index (between ++ rest) =
      firstOther (some s) (index + between.length) rest := by
  induction between generalizing index with
  | nil => simp
  | cons m between ih =>
    obtain ⟨hm, hrest⟩ := List.forall_mem_cons.mp h
    have hpassed : ¬ ∃ p ∈ m.writes, some p ≠ some s := by
      rintro ⟨p, hp, hne⟩
      exact hne (congrArg some (hm p hp))
    rw [List.cons_append, firstOther, if_neg hpassed, ih hrest, List.length_cons]
    congr 1
    omega

/-- What the loop finds once the scratch file is chosen writes another path, or the scratch
file after it was read; no step before does. -/
theorem search_eq_some {s : P} {read : Finset P} {index i : ℕ} {moves : List (Move P)}
    (h : search read (some s) index moves = some i) :
    ∃ between m rest, moves = between ++ m :: rest ∧ i = index + between.length ∧
      Within s read between ∧
        ((∃ p ∈ m.writes, p ≠ s) ∨ Rewrites read s moves between m rest) := by
  induction moves generalizing read index with
  | nil => cases h
  | cons m rest ih =>
    by_cases hother : ∃ p ∈ m.writes, p ≠ s
    · obtain ⟨p, hp, hne⟩ := hother
      rw [search, if_pos ⟨p, hp, .inr ⟨s, rfl, hne⟩⟩] at h
      exact ⟨[], m, rest, rfl, (Option.some.inj h).symm, trivial, .inl ⟨p, hp, hne⟩⟩
    have honly : ∀ p ∈ m.writes, p = s := by
      intro p hp
      by_contra hne
      exact hother ⟨p, hp, hne⟩
    by_cases hread : s ∈ m.writes ∧ s ∈ read
    · -- the scratch file was read
      have hwrites : m.writes = {s} := by
        ext p
        rw [Finset.mem_singleton]
        exact ⟨honly p, fun hp => hp ▸ hread.1⟩
      rw [search, if_pos ⟨s, hread.1, .inl hread.2⟩] at h
      refine ⟨[], m, rest, rfl, (Option.some.inj h).symm, trivial, .inr ?_⟩
      exact ⟨rfl, trivial, hwrites, Finset.mem_union_left _ hread.2⟩
    · have hwithin : ∀ p ∈ m.writes, p = s ∧ p ∉ read := by
        intro p hp
        obtain rfl := honly p hp
        exact ⟨rfl, fun hmem => hread ⟨hp, hmem⟩⟩
      have hpassed : ¬ ∃ p ∈ m.writes, p ∈ read ∨ ∃ s' ∈ some s, p ≠ s' := by
        rintro ⟨p, hp, hmem | ⟨s', hs', hne⟩⟩
        · exact (hwithin p hp).2 hmem
        · cases hs'
          exact hne (honly p hp)
      rw [search, if_neg hpassed] at h
      obtain ⟨between, m', rest', rfl, rfl, hbetween, hfound⟩ := ih h
      refine ⟨m :: between, m', rest', rfl, ?_, ⟨hwithin, hbetween⟩, ?_⟩
      · rw [List.length_cons]
        omega
      · refine hfound.imp_right fun hrewrites => ?_
        exact ⟨rfl, ⟨hwithin, hbetween⟩, hrewrites.writes, by
          simpa [readIn, Finset.union_assoc] using hrewrites.read⟩

/-- The loop stops at a step that writes the scratch file after it was read. -/
theorem Rewrites.search_eq {s : P} {read : Finset P} {index : ℕ}
    {moves between rest : List (Move P)} {m : Move P} (h : Rewrites read s moves between m rest) :
    search read (some s) index moves = some (index + between.length) := by
  obtain ⟨rfl, hwithin, hwrites, hread⟩ := h
  rw [search_within hwithin, search, if_pos]
  exact ⟨s, by simp [hwrites], .inl hread⟩

omit [LinearOrder P] in
/-- The rule passes over that step, and reports it only if this is the fallback and only the
scratch file is written later. -/
theorem Rewrites.firstOther_eq_iff {s : P} {read : Finset P} {index fallback : ℕ}
    {moves between rest : List (Move P)} {m : Move P} (h : Rewrites read s moves between m rest) :
    index + between.length = (firstOther (some s) index moves).getD fallback ↔
      index + between.length = fallback ∧ Only s rest := by
  obtain ⟨rfl, hwithin, hwrites, -⟩ := h
  have hpassed : ¬ ∃ p ∈ m.writes, some p ≠ some s := by
    simp [hwrites]
  rw [firstOther_only hwithin.only, firstOther, if_neg hpassed, ← firstOther_eq_none]
  cases hlater : firstOther (some s) (index + between.length + 1) rest with
  | none => simp
  | some i =>
    have := firstOther_ge hlater
    rw [Option.getD_some]
    refine iff_of_false (by omega) ?_
    rintro ⟨-, hnone⟩
    cases hnone

/-- The loop stops there and nowhere else. -/
theorem Rewrites.of_search {s : P} {read : Finset P} {index : ℕ}
    {between between' rest rest' : List (Move P)} {m m' : Move P}
    (h : Rewrites read s (between ++ m :: rest) between' m' rest')
    (hfound : search read (some s) index (between ++ m :: rest) = some (index + between.length)) :
    between = between' ∧ m = m' ∧ rest = rest' := by
  have hlength := Option.some.inj (hfound.symm.trans h.search_eq)
  obtain ⟨rfl, hrest⟩ := List.append_inj h.split (by omega)
  obtain ⟨rfl, rfl⟩ := List.cons.inj hrest
  exact ⟨rfl, rfl, rfl⟩

end Rewriting

section Agreement

/-- After the scratch file is chosen the loop finds the documented step unless the scratch
file is written again after it was read. -/
theorem search_eq_firstOther_iff {s : P} {read : Finset P} {index fallback : ℕ}
    {moves : List (Move P)} :
    (search read (some s) index moves).getD fallback =
        (firstOther (some s) index moves).getD fallback ↔
      ∀ between m rest, Rewrites read s moves between m rest →
        index + between.length = fallback ∧ Only s rest := by
  cases hfound : search read (some s) index moves with
  | none =>
    have honly : Only s moves := (search_eq_none.mp hfound).only
    rw [firstOther_eq_none.mpr honly]
    refine iff_of_true rfl ?_
    intro between m rest hrewrites
    rw [hrewrites.search_eq] at hfound
    cases hfound
  | some i =>
    obtain ⟨between, m, rest, rfl, rfl, hwithin, hstep⟩ := search_eq_some hfound
    rw [Option.getD_some]
    rcases hstep with ⟨p, hp, hne⟩ | hrewrites
    · -- both find this step
      have hother : ∃ p ∈ m.writes, some p ≠ some s := ⟨p, hp, fun heq => hne (Option.some.inj heq)⟩
      rw [firstOther_only hwithin.only, firstOther, if_pos hother]
      refine iff_of_true rfl ?_
      intro between' m' rest' hrewrites
      obtain ⟨rfl, rfl, rfl⟩ := hrewrites.of_search hfound
      rw [hrewrites.writes, Finset.mem_singleton] at hp
      exact absurd hp hne
    · -- only the loop finds this step
      rw [hrewrites.firstOther_eq_iff]
      constructor
      · intro h between' m' rest' hrewrites'
        obtain ⟨rfl, rfl, rfl⟩ := hrewrites'.of_search hfound
        exact h
      · exact fun h => h between m rest hrewrites

/-- What the loop reports is a step of the run. -/
theorem reportedStep_range {fallback : ℕ} {moves : List (Move P)} (hpos : 1 ≤ fallback)
    (hle : fallback ≤ moves.length) :
    1 ≤ reportedStep fallback moves ∧ reportedStep fallback moves ≤ moves.length := by
  rw [reportedStep]
  cases hfound : search ∅ none 1 moves with
  | none => exact ⟨hpos, hle⟩
  | some i =>
    have := search_ge hfound
    have := search_le hfound
    rw [Option.getD_some]
    omega

/-- The loop and the rule agree on a run that does not begin to write. -/
theorem reportedStep_of_idle {fallback : ℕ} {moves : List (Move P)} (h : Idle moves) :
    reportedStep fallback moves = documentedStep fallback moves := by
  have hfirst : firstOther (scratchFile ∅ moves) 1 (moves ++ []) = none := firstOther_idle h
  rw [List.append_nil] at hfirst
  rw [reportedStep, documentedStep, search_of_idle h, hfirst]

/-- For a run that begins with unread files there is one beginning to look at. -/
theorem Begins.conforms_iff {fallback : ℕ} {moves before after : List (Move P)} {m : Move P}
    {s : P} (h : Begins moves before m after s) : Conforms fallback moves ↔
      (m.writes ≠ {s} → before.length + 1 = fallback ∧ Within s (readIn before ∪ m.reads) after) ∧
        (m.writes = {s} → ∀ between m' rest,
          Rewrites (readIn before ∪ m.reads) s after between m' rest →
            before.length + 1 + between.length + 1 = fallback ∧ Only s rest) := by
  constructor
  · intro hconforms
    exact ⟨hconforms.batch before m after s h, hconforms.rewrite before m after s h⟩
  · rintro ⟨hbatch, hrewrite⟩
    constructor
    · intro before' m' after' s' h'
      obtain ⟨rfl, rfl, rfl, rfl⟩ := h.unique h'
      exact hbatch
    · intro before' m' after' s' h'
      obtain ⟨rfl, rfl, rfl, rfl⟩ := h.unique h'
      exact hrewrite

/-- A run that does not begin with unread files conforms. -/
theorem Conforms.of_not_begins {fallback : ℕ} {moves : List (Move P)}
    (h : ∀ {before m after s}, ¬ Begins moves before m after s) : Conforms fallback moves := by
  constructor
  · intro before m after s hbegins
    exact absurd hbegins h
  · intro before m after s hbegins
    exact absurd hbegins h

/-- The loop reports the documented step exactly on the runs that conform. -/
theorem reportedStep_eq_iff {fallback : ℕ} {moves : List (Move P)} :
    reportedStep fallback moves = documentedStep fallback moves ↔ Conforms fallback moves := by
  rcases beginning moves with
    hidle | ⟨before, m, after, rfl, hidle, p, hp, hmem⟩ | ⟨before, m, after, s, hbegins⟩
  · exact iff_of_true (reportedStep_of_idle hidle) (.of_not_begins hidle.not_begins)
  · -- the run begins with a file that it has read
    refine iff_of_true ?_ (.of_not_begins (not_begins_of_read hidle hp hmem))
    have hother := @scratchFile_ne P _ _ before after m p hidle hmem
    rw [reportedStep, documentedStep, search_of_read hidle hp hmem, firstOther_idle hidle,
      firstOther, if_pos ⟨p, hp, hother⟩, Option.getD_some, Option.getD_some]
    omega
  -- the run begins with files that no step has read
  obtain ⟨hscratch, hsearch⟩ := hbegins.chosen
  have hfirst : firstOther (some s) 1 moves =
      firstOther (some s) (1 + before.length) (m :: after) := by
    rw [hbegins.split, firstOther_idle hbegins.idle]
  rw [reportedStep, documentedStep, hscratch, hsearch, hfirst, hbegins.conforms_iff, firstOther]
  by_cases hsingle : m.writes = {s}
  · have hpassed : ¬ ∃ p ∈ m.writes, some p ≠ some s := by
      simp [hsingle]
    have hnext : 1 + before.length + 1 = before.length + 2 := by omega
    rw [if_neg hpassed, hnext, search_eq_firstOther_iff]
    constructor
    · intro h
      refine ⟨fun hmany => absurd hsingle hmany, fun _ between m' rest hrewrites => ?_⟩
      obtain ⟨heq, honly⟩ := h between m' rest hrewrites
      exact ⟨by omega, honly⟩
    · rintro ⟨-, h⟩ between m' rest hrewrites
      obtain ⟨heq, honly⟩ := h hsingle between m' rest hrewrites
      exact ⟨by omega, honly⟩
  · -- the run begins with several files at once
    obtain ⟨p, hp, hne⟩ := hbegins.writes_other.mpr hsingle
    have hother : some p ≠ some s := fun heq => hne (Option.some.inj heq)
    rw [if_pos ⟨p, hp, hother⟩, Option.getD_some]
    cases hfound : search (readIn before ∪ m.reads) (some s) (before.length + 2) after with
    | none =>
      rw [Option.getD_none]
      constructor
      · intro heq
        exact ⟨fun _ => ⟨by omega, search_eq_none.mp hfound⟩, fun h => absurd h hsingle⟩
      · rintro ⟨hbatch, -⟩
        have := (hbatch hsingle).1
        omega
    | some i =>
      have := search_ge hfound
      rw [Option.getD_some]
      refine iff_of_false (by omega) ?_
      rintro ⟨hbatch, -⟩
      have hwithin := (hbatch hsingle).2
      rw [search_eq_none.mpr hwithin] at hfound
      cases hfound

/-- The writes of a run stay within files that it created first, and that no step has read
before writing them. -/
def Confined (moves : List (Move P)) : Prop :=
  Idle moves ∨ ∃ before m after s, Begins moves before m after s ∧
    Within s (readIn before ∪ m.reads) after

/-- The loop finds nothing exactly in the runs that are confined. -/
theorem search_eq_none_iff_confined {moves : List (Move P)} :
    search ∅ none 1 moves = none ↔ Confined moves := by
  constructor
  · intro hnone
    rcases beginning moves with
      hidle | ⟨before, m, after, rfl, hidle, p, hp, hmem⟩ | ⟨before, m, after, s, hbegins⟩
    · exact .inl hidle
    · rw [search_of_read hidle hp hmem] at hnone
      cases hnone
    · rw [hbegins.chosen.2, search_eq_none] at hnone
      exact .inr ⟨before, m, after, s, hbegins, hnone⟩
  · rintro (hidle | ⟨before, m, after, s, hbegins, hwithin⟩)
    · exact search_of_idle hidle
    · rw [hbegins.chosen.2]
      exact search_eq_none.mpr hwithin

end Agreement

/-! ## What the reported step writes -/

/-- The step with that number writes another path than the scratch file. -/
def WritesOther (scratch : Option P) (step : ℕ) (moves : List (Move P)) : Prop :=
  ∃ before m after, moves = before ++ m :: after ∧ before.length + 1 = step ∧
    ∃ p ∈ m.writes, some p ≠ scratch

/-- The runs in which the loop finds a step exactly when the step that is reported writes
another path than the scratch file. The step reported by default is not the one that begins to
write, with several new files, and the scratch file is not written again after it was read. -/
structure Names (fallback : ℕ) (moves : List (Move P)) : Prop where
  batch : ∀ before m after s, Begins moves before m after s → m.writes ≠ {s} →
    before.length + 1 = fallback → ¬ Within s (readIn before ∪ m.reads) after
  rewrite : ∀ before m after s, Begins moves before m after s → ∀ between m' rest,
    ¬ Rewrites (readIn before ∪ m.reads) s after between m' rest

section Reported

omit [LinearOrder P] [DecidableEq P] in
/-- The step at a known place. -/
theorem writesOther_iff {scratch : Option P} {before after : List (Move P)} {m : Move P} :
    WritesOther scratch (before.length + 1) (before ++ m :: after) ↔
      ∃ p ∈ m.writes, some p ≠ scratch := by
  constructor
  · rintro ⟨before', m', after', hsplit, hlength, hp⟩
    obtain ⟨rfl, hrest⟩ := List.append_inj hsplit (by omega)
    obtain ⟨rfl, rfl⟩ := List.cons.inj hrest
    exact hp
  · exact fun hp => ⟨before, m, after, rfl, rfl, hp⟩

omit [LinearOrder P] in
/-- Of the steps around the first one that writes none writes another path. -/
theorem writesOther_first {s : P} {step : ℕ} {read : Finset P} {before after : List (Move P)}
    {m : Move P} (hidle : Idle before) (hwithin : Within s read after) :
    WritesOther (some s) step (before ++ m :: after) ↔
      before.length + 1 = step ∧ ∃ p ∈ m.writes, p ≠ s := by
  constructor
  · rintro ⟨before', m', after', hsplit, rfl, p, hp, hne⟩
    rcases List.append_eq_append_iff.mp hsplit with ⟨middle, rfl, hrest⟩ | ⟨middle, rfl, hrest⟩
    · cases middle with
      | nil =>
        obtain ⟨rfl, rfl⟩ := List.cons.inj hrest
        exact ⟨by simp, p, hp, fun heq => hne (congrArg some heq)⟩
      | cons _ middle =>
        obtain ⟨rfl, rfl⟩ := List.cons.inj hrest
        exact absurd (congrArg some (hwithin.only m' (by simp) p hp)) hne
    · cases middle with
      | nil =>
        obtain ⟨rfl, rfl⟩ := List.cons.inj hrest
        exact ⟨by simp, p, hp, fun heq => hne (congrArg some heq)⟩
      | cons _ middle =>
        obtain ⟨rfl, rfl⟩ := List.cons.inj hrest
        rw [hidle m' (by simp)] at hp
        cases hp
  · rintro ⟨rfl, p, hp, hne⟩
    exact writesOther_iff.mpr ⟨p, hp, fun heq => hne (Option.some.inj heq)⟩

/-- For a run that begins with unread files there is one beginning to look at. -/
theorem Begins.names_iff {fallback : ℕ} {moves before after : List (Move P)} {m : Move P} {s : P}
    (h : Begins moves before m after s) : Names fallback moves ↔
      (m.writes ≠ {s} → before.length + 1 = fallback → ¬ Within s (readIn before ∪ m.reads) after) ∧
        ∀ between m' rest, ¬ Rewrites (readIn before ∪ m.reads) s after between m' rest := by
  constructor
  · exact fun hnames => ⟨hnames.batch before m after s h, hnames.rewrite before m after s h⟩
  · rintro ⟨hbatch, hrewrite⟩
    constructor
    · intro before' m' after' s' h'
      obtain ⟨rfl, rfl, rfl, rfl⟩ := h.unique h'
      exact hbatch
    · intro before' m' after' s' h'
      obtain ⟨rfl, rfl, rfl, rfl⟩ := h.unique h'
      exact hrewrite

/-- A run that does not begin with unread files names its step for what it does. -/
theorem Names.of_not_begins {fallback : ℕ} {moves : List (Move P)}
    (h : ∀ {before m after s}, ¬ Begins moves before m after s) : Names fallback moves := by
  constructor
  · intro before m after s hbegins
    exact absurd hbegins h
  · intro before m after s hbegins
    exact absurd hbegins h

omit [LinearOrder P] [DecidableEq P] in
/-- No step of an idle run writes another path. -/
theorem Idle.not_writesOther {scratch : Option P} {step : ℕ} {moves : List (Move P)}
    (h : Idle moves) : ¬ WritesOther scratch step moves := by
  rintro ⟨before, m, after, rfl, -, p, hp, -⟩
  rw [h m (by simp)] at hp
  cases hp

/-- The loop finds a step exactly when the reported step writes another path than the scratch
file, in the runs whose reported step is named for what it does. -/
theorem search_writesOther_iff {fallback : ℕ} {moves : List (Move P)} :
    (search ∅ none 1 moves ≠ none ↔
      WritesOther (scratchFile ∅ moves) (reportedStep fallback moves) moves) ↔
        Names fallback moves := by
  rw [reportedStep]
  rcases beginning moves with
    hidle | ⟨before, m, after, rfl, hidle, p, hp, hmem⟩ | ⟨before, m, after, s, hbegins⟩
  · have hnone : ¬ search ∅ none 1 moves ≠ none := not_not.mpr (search_of_idle hidle)
    exact iff_of_true (iff_of_false hnone hidle.not_writesOther) (.of_not_begins hidle.not_begins)
  · -- the run begins with a file that it has read
    refine iff_of_true ?_ (.of_not_begins (not_begins_of_read hidle hp hmem))
    rw [search_of_read hidle hp hmem, Option.getD_some, writesOther_iff]
    exact iff_of_true (by simp) ⟨p, hp, scratchFile_ne hidle hmem⟩
  -- the run begins with files that no step has read
  obtain ⟨hscratch, hsearch⟩ := hbegins.chosen
  rw [hscratch, hsearch, hbegins.names_iff, ← hbegins.writes_other]
  obtain ⟨rfl, hidle, -, -⟩ := hbegins
  cases hfound : search (readIn before ∪ m.reads) (some s) (before.length + 2) after with
  | none =>
    have hwithin := search_eq_none.mp hfound
    have hrewrite : ∀ between m' rest,
        ¬ Rewrites (readIn before ∪ m.reads) s after between m' rest := by
      intro between m' rest hrewrites
      rw [hrewrites.search_eq] at hfound
      cases hfound
    rw [Option.getD_none, writesOther_first hidle hwithin]
    constructor
    · intro hnames
      refine ⟨fun hmany heq _ => ?_, hrewrite⟩
      exact hnames.mpr ⟨heq, hmany⟩ rfl
    · rintro ⟨hbatch, -⟩
      refine iff_of_false (fun hsome => hsome rfl) ?_
      exact fun ⟨heq, hmany⟩ => hbatch hmany heq hwithin
  | some i =>
    have hwithin : ¬ Within s (readIn before ∪ m.reads) after := by
      intro hwithin
      rw [search_eq_none.mpr hwithin] at hfound
      cases hfound
    obtain ⟨between, m', rest, rfl, rfl, -, hstep⟩ := search_eq_some hfound
    have hplace : before ++ m :: (between ++ m' :: rest) =
        (before ++ m :: between) ++ m' :: rest := by simp
    have hnumber : before.length + 2 + between.length = (before ++ m :: between).length + 1 := by
      simp only [List.length_append, List.length_cons]
      omega
    rw [Option.getD_some, hplace, hnumber, writesOther_iff]
    constructor
    · intro hnames
      refine ⟨fun _ _ => hwithin, fun between' m'' rest' hrewrites => ?_⟩
      obtain ⟨p, hp, hne⟩ := hnames.mp (by simp)
      obtain ⟨rfl, rfl, rfl⟩ := hrewrites.of_search hfound
      rw [hrewrites.writes, Finset.mem_singleton] at hp
      exact hne (congrArg some hp)
    · rintro ⟨-, hrewrite⟩
      obtain ⟨p, hp, hne⟩ := hstep.resolve_right (hrewrite between m' rest)
      exact iff_of_true (by simp) ⟨p, hp, fun heq => hne (Option.some.inj heq)⟩

end Reported

/-! ## Ownership -/

/-- The loop over the steps that change files the run did not create: `seen` is what the run
has referred to, and `owned` what it has created. -/
def commitmentsFrom (seen owned : Finset P) (index : ℕ) : List (Move P) → List (ℕ × Finset P)
  | [] => []
  | m :: rest =>
    let changed := m.writes.filter fun p => p ∉ owned ∧ (p ∈ seen ∨ m.made = false)
    let created := if m.made then m.writes \ seen else ∅
    let later := commitmentsFrom (seen ∪ m.writes ∪ m.targets) (owned ∪ created) (index + 1) rest
    if changed = ∅ then later else (index, changed) :: later

/-- The first step that mentions a path creates it. -/
def Created (moves : List (Move P)) (p : P) : Prop :=
  ∃ before m after, moves = before ++ m :: after ∧ m.made = true ∧ p ∈ m.writes ∧
    ∀ m' ∈ before, p ∉ m'.writes ∧ p ∉ m'.targets

/-- Whatever a run writes it has created. -/
def Owned (moves : List (Move P)) : Prop :=
  ∀ m ∈ moves, ∀ p ∈ m.writes, Created moves p

section Ownership

omit [LinearOrder P] [DecidableEq P] in
/-- A path is created by the first step, or that step does not mention it. -/
theorem created_cons {m : Move P} {rest : List (Move P)} {p : P} : Created (m :: rest) p ↔
    (m.made = true ∧ p ∈ m.writes) ∨ (p ∉ m.writes ∧ p ∉ m.targets ∧ Created rest p) := by
  constructor
  · rintro ⟨before, m', after, hsplit, hmade, hp, hfresh⟩
    cases before with
    | nil =>
      obtain ⟨rfl, rfl⟩ := List.cons.inj hsplit
      exact .inl ⟨hmade, hp⟩
    | cons m'' before =>
      obtain ⟨rfl, rfl⟩ := List.cons.inj hsplit
      obtain ⟨hhead, hfresh⟩ := List.forall_mem_cons.mp hfresh
      exact .inr ⟨hhead.1, hhead.2, before, m', after, rfl, hmade, hp, hfresh⟩
  · rintro (⟨hmade, hp⟩ | ⟨hwrites, htargets, before, m', after, rfl, hmade, hp, hfresh⟩)
    · exact ⟨[], m, rest, rfl, hmade, hp, fun m' hm' => nomatch hm'⟩
    · exact ⟨m :: before, m', after, rfl, hmade, hp,
        List.forall_mem_cons.mpr ⟨⟨hwrites, htargets⟩, hfresh⟩⟩

omit [LinearOrder P] in
/-- The loop finds nothing exactly when every path written is owned already, or is created
by the step that mentions it first. -/
theorem commitmentsFrom_eq_nil {seen owned : Finset P} {index : ℕ} {moves : List (Move P)} :
    commitmentsFrom seen owned index moves = [] ↔
      ∀ m ∈ moves, ∀ p ∈ m.writes, p ∈ owned ∨ p ∉ seen ∧ Created moves p := by
  induction moves generalizing seen owned index with
  | nil => simp [commitmentsFrom]
  | cons m rest ih =>
    have hchanged : (m.writes.filter fun p => p ∉ owned ∧ (p ∈ seen ∨ m.made = false)) = ∅ ↔
        ∀ p ∈ m.writes, p ∈ owned ∨ p ∉ seen ∧ m.made = true := by
      simp only [Finset.filter_eq_empty_iff, not_and_or, not_not, not_or, Bool.not_eq_false]
    have hfirst : ∀ p ∈ m.writes, (Created (m :: rest) p ↔ m.made = true) := by
      intro p hp
      simp [created_cons, hp]
    have hlater : ∀ p, (p ∈ owned ∪ (if m.made then m.writes \ seen else ∅) ∨
          p ∉ seen ∪ m.writes ∪ m.targets ∧ Created rest p) ↔
        p ∈ owned ∨ p ∉ seen ∧ Created (m :: rest) p := by
      intro p
      rw [created_cons]
      cases m.made with
      | false =>
        simp only [Finset.mem_union, Bool.false_eq_true, if_false, Finset.notMem_empty]
        tauto
      | true =>
        simp only [Finset.mem_union, if_true, Finset.mem_sdiff]
        tauto
    simp only [commitmentsFrom, List.forall_mem_cons]
    split
    · next hempty =>
      rw [ih]
      simp only [hlater]
      constructor
      · intro h
        refine ⟨fun p hp => ?_, h⟩
        rw [hfirst p hp]
        exact hchanged.mp hempty p hp
      · exact fun h => h.2
    · next hsome =>
      refine iff_of_false (List.cons_ne_nil _ _) fun h => hsome (hchanged.mpr fun p hp => ?_)
      rw [← hfirst p hp]
      exact h.1 p hp

omit [LinearOrder P] in
/-- The loop finds nothing exactly in the runs that have created whatever they write. -/
theorem commitments_eq_nil {moves : List (Move P)} :
    commitmentsFrom ∅ ∅ 1 moves = [] ↔ Owned moves := by
  rw [commitmentsFrom_eq_nil]
  simp [Owned]

end Ownership

end Tracewake.Localization
