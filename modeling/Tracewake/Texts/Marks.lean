import Mathlib.Data.Nat.Notation
import Tracewake.Texts.Replacement

/-!
# Marks on what was inserted

A text in which every character remembers whether a replacement has inserted it. Replacing
ignores the marks of what it removes and marks what it inserts. A text that was replaced can
come back only with inserted characters in it, so its occurrences in the result are those that
an inserted text completes.
-/

namespace Tracewake.Texts

variable {α : Type*}

/-! ## Marked texts -/

/-- The text without its marks. -/
def plain (m : List (α × Bool)) : List α :=
  m.map Prod.fst

/-- A text of which nothing was inserted. -/
def kept (w : List α) : List (α × Bool) :=
  w.map fun c => (c, false)

/-- A text that was inserted as a whole. -/
def inserted (w : List α) : List (α × Bool) :=
  w.map fun c => (c, true)

/-- An occurrence of `s` with inserted characters in it. -/
def Completed (s : List α) (m : List (α × Bool)) : Prop :=
  ∃ u o v, m = u ++ (o ++ v) ∧ plain o = s ∧ ∃ c ∈ o, c.2 = true

/-- Without the marks two texts are joined as they are. -/
@[simp] theorem plain_append (m m' : List (α × Bool)) : plain (m ++ m') = plain m ++ plain m' :=
  List.map_append

/-- Without the marks the first character is the first one. -/
@[simp] theorem plain_cons (c : α × Bool) (m : List (α × Bool)) :
    plain (c :: m) = c.1 :: plain m := rfl

/-- The marks add no character. -/
@[simp] theorem plain_length (m : List (α × Bool)) : (plain m).length = m.length :=
  List.length_map _

/-- A kept text is that text without its marks. -/
@[simp] theorem plain_kept (w : List α) : plain (kept w) = w := by
  simp [plain, kept, Function.comp_def]

/-- An inserted text is that text without its marks. -/
@[simp] theorem plain_inserted (w : List α) : plain (inserted w) = w := by
  simp [plain, inserted, Function.comp_def]

/-- Without marks there is nothing but what was kept. -/
theorem eq_kept_plain {m : List (α × Bool)} (h : ∀ c ∈ m, c.2 = false) : m = kept (plain m) := by
  induction m with
  | nil => rfl
  | cons c m ih =>
    obtain ⟨hc, hm⟩ := List.forall_mem_cons.mp h
    obtain ⟨c, mark⟩ := c
    obtain rfl : mark = false := hc
    rw [plain_cons, kept, List.map_cons, ← kept, ← ih hm]

/-- An occurrence is kept as a whole, or an inserted character is in it. -/
theorem infix_plain_iff {s : List α} {m : List (α × Bool)} :
    s <:+: plain m ↔ kept s <:+: m ∨ Completed s m := by
  constructor
  · rintro ⟨u, v, hm⟩
    obtain ⟨front, rest, rfl, hfront, -⟩ := List.map_eq_append_iff.mp hm.symm
    obtain ⟨before, o, rfl, -, ho⟩ := List.map_eq_append_iff.mp hfront
    by_cases hmarks : ∃ c ∈ o, c.2 = true
    · exact .inr ⟨before, o, rest, by rw [List.append_assoc], ho, hmarks⟩
    · left
      have hkept : o = kept s := by
        rw [← ho]
        refine eq_kept_plain fun c hc => ?_
        by_contra hmark
        exact hmarks ⟨c, hc, by simpa using hmark⟩
      exact ⟨before, rest, by rw [hkept]⟩
  · rintro (⟨u, v, rfl⟩ | ⟨u, o, v, rfl, rfl, -⟩)
    · exact ⟨plain u, plain v, by simp⟩
    · exact ⟨plain u, plain v, by simp⟩

/-- What was kept and what was inserted never overlap. -/
theorem apart_kept_inserted {s p : List α} (hs : s ≠ []) (hp : p ≠ []) :
    Apart (kept s) (inserted p) := by
  have hfirst {a b : List (α × Bool)} (ha : a ≠ []) (hb : b ≠ []) (h : Comparable a b) :
      a.head ha = b.head hb := by
    rcases h with ⟨t, rfl⟩ | ⟨t, rfl⟩
    · rw [List.head_append_of_ne_nil]
    · rw [List.head_append_of_ne_nil]
  have hkept {i : ℕ} (h : (kept s).drop i ≠ []) : (((kept s).drop i).head h).2 = false := by
    obtain ⟨c, -, heq⟩ := List.mem_map.mp (List.mem_of_mem_drop (List.head_mem h))
    rw [← heq]
  have hinserted {j : ℕ} (h : (inserted p).drop j ≠ []) :
      (((inserted p).drop j).head h).2 = true := by
    obtain ⟨c, -, heq⟩ := List.mem_map.mp (List.mem_of_mem_drop (List.head_mem h))
    rw [← heq]
  constructor
  · intro i hi hcomparable
    have hdrop : (kept s).drop i ≠ [] := by simpa using hi
    have hwhole : (inserted p).drop 0 ≠ [] := by simpa [inserted] using hp
    have hsame := congrArg Prod.snd (hfirst hdrop hwhole hcomparable)
    rw [hkept hdrop, hinserted hwhole] at hsame
    cases hsame
  · intro j hj hcomparable
    have hdrop : (inserted p).drop j ≠ [] := by simpa using hj
    have hwhole : (kept s).drop 0 ≠ [] := by simpa [kept] using hs
    have hsame := congrArg Prod.snd (hfirst hdrop hwhole hcomparable)
    rw [hinserted hdrop, hkept hwhole] at hsame
    cases hsame

/-! ## Replacing with marks -/

/-- The second text is the first with the occurrences of `old` replaced by `new`, from the left,
where `new` is marked. -/
inductive Marks (old new : List α) : List (α × Bool) → List (α × Bool) → Prop
  | nil : Marks old new [] []
  | found {part rest out : List (α × Bool)} : plain part = old → Marks old new rest out →
      Marks old new (part ++ rest) (inserted new ++ out)
  | skip {c : α × Bool} {rest out : List (α × Bool)} : ¬ old <+: plain (c :: rest) →
      Marks old new rest out → Marks old new (c :: rest) (c :: out)

namespace Marks

variable {old new s : List α} {m out : List (α × Bool)}

/-- Without the marks it is replacing. -/
theorem replaces (h : Marks old new m out) : Replaces old new (plain m) (plain out) := by
  induction h with
  | nil => exact .nil
  | found hpart _ ih =>
    rw [plain_append, plain_append, plain_inserted, hpart]
    exact .found ih
  | skip hnot _ ih => exact .skip hnot ih

/-- No kept text appears. -/
theorem not_infix_append (hs : s ≠ []) (hnew : new ≠ []) (h : Marks old new m out)
    {x : List (α × Bool)} (hfree : ¬ kept s <:+: x ++ m) : ¬ kept s <:+: x ++ out := by
  induction h generalizing x with
  | nil => exact hfree
  | @found part rest out _ _ ih =>
    apply (apart_kept_inserted hs hnew).absent
    · exact fun hx => hfree (hx.trans (List.prefix_append x _).isInfix)
    · have hrest : ¬ kept s <:+: [] ++ rest := fun hin =>
        hfree (hin.trans ((List.suffix_append part rest).trans (List.suffix_append x _)).isInfix)
      exact ih hrest
  | @skip c rest out _ _ ih =>
    have hnext := ih (x := x ++ [c])
    simp only [List.append_assoc, List.singleton_append] at hnext
    exact hnext hfree

/-- What does not occur among the kept characters does not come to occur there. -/
theorem absent (hs : s ≠ []) (hnew : new ≠ []) (h : Marks old new m out)
    (hfree : ¬ kept s <:+: m) : ¬ kept s <:+: out :=
  h.not_infix_append hs hnew (x := []) hfree

/-- What has been replaced is not kept anywhere. -/
theorem not_infix_old_append (hold : old ≠ []) (hnew : new ≠ []) (h : Marks old new m out)
    {x : List (α × Bool)} (hfree : Replaces.Unstarted (kept old) x m) :
    ¬ kept old <:+: x ++ out := by
  have hkept : kept old ≠ [] := by simpa [kept] using hold
  induction h generalizing x with
  | nil =>
    rw [List.append_nil]
    exact hfree.absent hkept
  | @found part rest out _ _ ih =>
    have hrest : Replaces.Unstarted (kept old) [] rest := by
      intro u v hnil hv
      exact absurd (List.append_eq_nil_iff.mp hnil.symm).2 hv
    exact (apart_kept_inserted hold hnew).absent (hfree.absent hkept) (ih hrest)
  | @skip c rest out hnot _ ih =>
    have hnext : Replaces.Unstarted (kept old) (x ++ [c]) rest := by
      intro u v hsplit hv
      rcases List.eq_nil_or_concat v with rfl | ⟨v', d, rfl⟩
      · exact absurd rfl hv
      rw [List.concat_eq_append, ← List.append_assoc] at hsplit
      obtain ⟨rfl, hlast⟩ := List.append_inj' hsplit rfl
      obtain rfl : c = d := by simpa using hlast
      by_cases hempty : v' = []
      · subst hempty
        rintro ⟨t, ht⟩
        have hplain := congrArg plain ht
        rw [plain_append, plain_kept] at hplain
        exact hnot ⟨plain t, by simpa using hplain⟩
      · have hbefore := hfree u v' rfl hempty
        simpa using hbefore
    have hend := ih hnext
    simpa using hend

/-- After the replacement no occurrence is left that consists of kept characters. -/
theorem not_infix_old (hold : old ≠ []) (hnew : new ≠ []) (h : Marks old new m out) :
    ¬ kept old <:+: out := by
  refine h.not_infix_old_append hold hnew (x := []) ?_
  intro u v hnil hv
  exact absurd (List.append_eq_nil_iff.mp hnil.symm).2 hv

end Marks

/-! ## Several replacements -/

section Decided

variable [DecidableEq α]

instance (s : List α) (m : List (α × Bool)) : Decidable (Completed s m) :=
  decidable_of_iff (∃ t ∈ m.tails, plain (t.take s.length) = s ∧
      ∃ c ∈ t.take s.length, c.2 = true) <| by
    constructor
    · rintro ⟨t, ht, hs, hmark⟩
      obtain ⟨u, rfl⟩ := (List.mem_tails _ _).mp ht
      exact ⟨u, t.take s.length, t.drop s.length, by rw [List.take_append_drop], hs, hmark⟩
    · rintro ⟨u, o, v, rfl, rfl, hmark⟩
      refine ⟨o ++ v, (List.mem_tails _ _).mpr (List.suffix_append u _), ?_⟩
      rw [plain_length, List.take_left]
      exact ⟨rfl, hmark⟩

/-- Replace from the left, where `skip` characters of the last match are still ahead. -/
def replaceMarks (old new : List α) : ℕ → List (α × Bool) → List (α × Bool)
  | _, [] => []
  | skip + 1, _ :: rest => replaceMarks old new skip rest
  | 0, c :: rest =>
    if old.isPrefixOf (plain (c :: rest)) then
      inserted new ++ replaceMarks old new (old.length - 1) rest
    else c :: replaceMarks old new 0 rest

/-- The texts are replaced one after the other, each by its own. -/
def markAll : List (List α × List α) → List (α × Bool) → List (α × Bool)
  | [], m => m
  | r :: rs, m => markAll rs (replaceMarks r.1 r.2 0 m)

/-- Nothing that was replaced has come back: no text that was inserted completes it. -/
def Stays (rs : List (List α × List α)) (w : List α) : Prop :=
  ∀ r ∈ rs, r.1 = r.2 ∨ ¬ Completed r.1 (markAll rs (kept w))

instance (rs : List (List α × List α)) (w : List α) : Decidable (Stays rs w) :=
  inferInstanceAs (Decidable (∀ r ∈ rs, r.1 = r.2 ∨ ¬ Completed r.1 (markAll rs (kept w))))

/-- Characters of a match that are still ahead are dropped. -/
theorem replaceMarks_eq (old new : List α) (skip : ℕ) (m : List (α × Bool)) :
    replaceMarks old new skip m = replaceMarks old new 0 (m.drop skip) := by
  induction m generalizing skip with
  | nil =>
    rw [List.drop_nil]
    cases skip <;> rfl
  | cons c rest ih =>
    cases skip with
    | zero => rfl
    | succ skip => exact ih skip

/-- Replacing with marks is the replacement of a marked text. -/
theorem marks_replaceMarks {old : List α} (hold : old ≠ []) (new : List α)
    (m : List (α × Bool)) : Marks old new m (replaceMarks old new 0 m) := by
  induction hlength : m.length using Nat.strong_induction_on generalizing m with
  | _ n ih =>
    subst hlength
    cases m with
    | nil => exact .nil
    | cons c rest =>
      by_cases hfound : old <+: plain (c :: rest)
      · have hpos := List.length_pos_of_ne_nil hold
        have hlength := hfound.length_le
        have hpart : plain ((c :: rest).take old.length) = old := by
          rw [plain, List.map_take, ← plain]
          exact (List.prefix_iff_eq_take.mp hfound).symm
        have hdrop : (c :: rest).drop old.length = rest.drop (old.length - 1) := by
          rw [show old.length = old.length - 1 + 1 by omega, List.drop_succ_cons,
            Nat.add_sub_cancel]
        have hout : replaceMarks old new 0 (c :: rest) =
            inserted new ++ replaceMarks old new 0 ((c :: rest).drop old.length) := by
          rw [replaceMarks, if_pos (List.isPrefixOf_iff_prefix.mpr hfound), replaceMarks_eq, hdrop]
        have hnext := ih ((c :: rest).drop old.length).length (by
          rw [List.length_drop, List.length_cons]
          omega) _ rfl
        have hmarks := Marks.found hpart hnext
        rwa [List.take_append_drop, ← hout] at hmarks
      · have hout : replaceMarks old new 0 (c :: rest) = c :: replaceMarks old new 0 rest := by
          rw [replaceMarks, if_neg fun hbegins => hfound (List.isPrefixOf_iff_prefix.mp hbegins)]
        rw [hout]
        exact .skip hfound (ih rest.length (by simp) rest rfl)

variable {rs : List (List α × List α)} {s w out : List α}

/-- Without the marks it is replacing one text after the other. -/
theorem replacesAll_markAll (hold : ∀ r ∈ rs, r.1 ≠ []) (m : List (α × Bool)) :
    ReplacesAll rs (plain m) (plain (markAll rs m)) := by
  induction rs generalizing m with
  | nil => exact .nil
  | cons r rs ih =>
    obtain ⟨hr, hrs⟩ := List.forall_mem_cons.mp hold
    exact .cons (marks_replaceMarks hr r.2 m).replaces (ih hrs _)

/-- What does not occur among the kept characters does not come to occur there, however many
replacements follow. -/
theorem markAll_absent (hold : ∀ r ∈ rs, r.1 ≠ []) (hnew : ∀ r ∈ rs, r.2 ≠ []) (hs : s ≠ [])
    {m : List (α × Bool)} (hfree : ¬ kept s <:+: m) : ¬ kept s <:+: markAll rs m := by
  induction rs generalizing m with
  | nil => exact hfree
  | cons r rs ih =>
    obtain ⟨hold, holds⟩ := List.forall_mem_cons.mp hold
    obtain ⟨hnew, hnews⟩ := List.forall_mem_cons.mp hnew
    exact ih holds hnews ((marks_replaceMarks hold r.2 m).absent hs hnew hfree)

/-- What is replaced is not kept anywhere, whatever else is replaced. -/
theorem not_kept_markAll {new : List α} (hold : ∀ r ∈ rs, r.1 ≠ [])
    (hnew : ∀ r ∈ rs, r.2 ≠ []) (hmem : (s, new) ∈ rs) (m : List (α × Bool)) :
    ¬ kept s <:+: markAll rs m := by
  induction rs generalizing m with
  | nil => cases hmem
  | cons r rs ih =>
    obtain ⟨hr, holds⟩ := List.forall_mem_cons.mp hold
    obtain ⟨hr', hnews⟩ := List.forall_mem_cons.mp hnew
    rcases List.mem_cons.mp hmem with rfl | hmem
    · exact markAll_absent holds hnews hr ((marks_replaceMarks hr new m).not_infix_old hr hr')
    · exact ih holds hnews hmem _

/-- A text that was replaced occurs exactly where inserted characters complete it. -/
theorem infix_iff_completed {new : List α} (hold : ∀ r ∈ rs, r.1 ≠ [])
    (hnew : ∀ r ∈ rs, r.2 ≠ []) (hmem : (s, new) ∈ rs) (h : ReplacesAll rs w out) :
    s <:+: out ↔ Completed s (markAll rs (kept w)) := by
  have hchain := replacesAll_markAll hold (kept w)
  rw [plain_kept] at hchain
  rw [h.unique hold hchain, infix_plain_iff, or_iff_right (not_kept_markAll hold hnew hmem _)]

/-- Nothing has come back exactly when there is nothing to replace again. -/
theorem stays_iff (hold : ∀ r ∈ rs, r.1 ≠ []) (hnew : ∀ r ∈ rs, r.2 ≠ [])
    (h : ReplacesAll rs w out) : Stays rs w ↔ ∀ r ∈ rs, r.1 = r.2 ∨ ¬ r.1 <:+: out :=
  forall₂_congr fun _ hr => or_congr_right (infix_iff_completed hold hnew hr h).not.symm

/-- Nothing comes back where what is removed can overlap nothing that is inserted later. -/
theorem Settled.stays (hold : ∀ r ∈ rs, r.1 ≠ []) (hnew : ∀ r ∈ rs, r.2 ≠ [])
    (hsettled : Settled rs) (h : ReplacesAll rs w out) : Stays rs w :=
  (stays_iff hold hnew h).mpr (h.gone hold hsettled)

end Decided

/-! ## Replacing again -/

namespace Replaces

variable {old new w out : List α}

/-- A replacement by something no longer makes the text no longer. -/
theorem length_le (hle : new.length ≤ old.length) (h : Replaces old new w out) :
    out.length ≤ w.length := by
  induction h with
  | nil => exact le_rfl
  | found _ ih => simp only [List.length_append]; omega
  | skip _ _ ih => simp only [List.length_cons]; omega

/-- A replacement by something no shorter makes the text no shorter. -/
theorem length_ge (hle : old.length ≤ new.length) (h : Replaces old new w out) :
    w.length ≤ out.length := by
  induction h with
  | nil => exact le_rfl
  | found _ ih => simp only [List.length_append]; omega
  | skip _ _ ih => simp only [List.length_cons]; omega

/-- A text that holds what is replaced is changed. -/
theorem out_ne (hne : old ≠ new) (hold : old ≠ []) (h : Replaces old new w out)
    (hin : old <:+: w) : out ≠ w := by
  induction h with
  | nil => exact absurd (List.infix_nil.mp hin) hold
  | @found rest out hrest _ =>
    intro heq
    have hlengths := congrArg List.length heq
    simp only [List.length_append] at hlengths
    rcases lt_trichotomy new.length old.length with hlt | hsame | hlt
    · have := hrest.length_le hlt.le
      omega
    · exact hne (List.append_inj_left heq hsame).symm
    · have := hrest.length_ge hlt.le
      omega
  | @skip c rest out hnot _ ih =>
    intro heq
    refine ih ?_ (List.cons.inj heq).2
    rcases List.infix_cons_iff.mp hin with hbegins | hrest
    · exact absurd hbegins hnot
    · exact hrest

end Replaces

section Again

variable [DecidableEq α] {rs : List (List α × List α)} {w out out' : List α}

/-- Replacing again changes nothing where nothing has come back. -/
theorem Stays.idempotent (hold : ∀ r ∈ rs, r.1 ≠ []) (hnew : ∀ r ∈ rs, r.2 ≠ [])
    (hstays : Stays rs w) (h : ReplacesAll rs w out) (h' : ReplacesAll rs out out') :
    out' = out :=
  h'.unchanged ((stays_iff hold hnew h).mp hstays)

/-- A replacement that changes the result of all of them at a text which was completed by what
they inserted. Those before it leave the result as it is. -/
structure Disturbs (rs : List (List α × List α)) (w out : List α)
    (before : List (List α × List α)) (r : List α × List α) (after : List (List α × List α)) :
    Prop where
  split : rs = before ++ r :: after
  completed : Completed r.1 (markAll rs (kept w))
  unchanged : ∀ out', ReplacesAll before out out' → out' = out
  changes : ∀ out', Replaces r.1 r.2 out out' → out' ≠ out

/-- Where something has come back, replacing again changes the text there. -/
theorem exists_disturbs (hold : ∀ r ∈ rs, r.1 ≠ []) (hnew : ∀ r ∈ rs, r.2 ≠ [])
    (h : ReplacesAll rs w out) (hstays : ¬ Stays rs w) :
    ∃ before r after, Disturbs rs w out before r after := by
  have hnot : ¬ ∀ r ∈ rs, r.1 = r.2 ∨ ¬ r.1 <:+: out := (stays_iff hold hnew h).not.mp hstays
  -- the first text that is still there
  have hfirst : ∀ rs' : List (List α × List α), (¬ ∀ r ∈ rs', r.1 = r.2 ∨ ¬ r.1 <:+: out) →
      ∃ before r after, rs' = before ++ r :: after ∧ (r.1 ≠ r.2 ∧ r.1 <:+: out) ∧
        ∀ r' ∈ before, r'.1 = r'.2 ∨ ¬ r'.1 <:+: out := by
    intro rs' hnot
    induction rs' with
    | nil => exact absurd (fun r hr => nomatch hr) hnot
    | cons r rs' ih =>
      by_cases hr : r.1 = r.2 ∨ ¬ r.1 <:+: out
      · obtain ⟨before, r', after, rfl, hr', hbefore⟩ :=
          ih fun hall => hnot (List.forall_mem_cons.mpr ⟨hr, hall⟩)
        exact ⟨r :: before, r', after, rfl, hr', List.forall_mem_cons.mpr ⟨hr, hbefore⟩⟩
      · obtain ⟨hne, hin⟩ := not_or.mp hr
        exact ⟨[], r, rs', rfl, ⟨hne, not_not.mp hin⟩, fun r' hr' => nomatch hr'⟩
  obtain ⟨before, r, after, rfl, ⟨hne, hin⟩, hbefore⟩ := hfirst rs hnot
  have hmem : r ∈ before ++ r :: after := by simp
  exact ⟨before, r, after, {
    split := rfl
    completed := (infix_iff_completed hold hnew hmem h).mp hin
    unchanged := fun out' hout' => hout'.unchanged hbefore
    changes := fun out' hout' => hout'.out_ne hne (hold r hmem) hin }⟩

/-- What is changed first where something has come back, the replacements after it put back. -/
def Restored (rs : List (List α × List α)) (w out : List α) : Prop :=
  ∃ before r after, Disturbs rs w out before r after ∧
    ∀ u, Replaces r.1 r.2 out u → ReplacesAll after u out

/-- Replacing again changes nothing exactly where nothing has come back, or where the later
replacements put back what the first of them changes. -/
theorem idempotent_iff (hold : ∀ r ∈ rs, r.1 ≠ []) (hnew : ∀ r ∈ rs, r.2 ≠ [])
    (h : ReplacesAll rs w out) (h' : ReplacesAll rs out out') :
    out' = out ↔ Stays rs w ∨ Restored rs w out := by
  constructor
  · rintro rfl
    refine or_iff_not_imp_left.mpr fun hstays => ?_
    obtain ⟨before, r, after, hdisturbs⟩ := exists_disturbs hold hnew h hstays
    have hmem : r ∈ rs := by
      rw [hdisturbs.split]
      simp
    obtain ⟨u, hbefore, hrest⟩ := ReplacesAll.of_append (hdisturbs.split ▸ h')
    obtain rfl := hdisturbs.unchanged u hbefore
    cases hrest with
    | cons hreplaces hafter =>
      refine ⟨before, r, after, hdisturbs, fun v hv => ?_⟩
      rwa [hv.unique (hold r hmem) hreplaces]
  · rintro (hstays | ⟨before, r, after, hdisturbs, hback⟩)
    · exact hstays.idempotent hold hnew h h'
    · obtain ⟨u, hbefore, hrest⟩ := ReplacesAll.of_append (hdisturbs.split ▸ h')
      obtain rfl := hdisturbs.unchanged u hbefore
      cases hrest with
      | cons hreplaces hafter =>
        refine hafter.unique (fun r' hr' => hold r' ?_) (hback _ hreplaces)
        rw [hdisturbs.split]
        simp [hr']

end Again

end Tracewake.Texts
