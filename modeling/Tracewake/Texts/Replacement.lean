import Mathlib.Data.List.Infix
import Mathlib.Tactic.Common

/-!
# Replacing parts of a text

Replacement from the left of all occurrences of one text by another, as a relation. What is
replaced can come back when its occurrences overlap the inserted text. When no overlap is
possible it is gone, and nothing else that cannot overlap the inserted text appears.
-/

namespace Tracewake.Texts

variable {α : Type*}

/-! ## Overlaps -/

/-- Of two texts one begins with the other. -/
def Comparable (a b : List α) : Prop :=
  a <+: b ∨ b <+: a

/-- Occurrences of the two texts in one text never overlap. -/
def Apart (s p : List α) : Prop :=
  (∀ i < s.length, ¬ Comparable (s.drop i) p) ∧ ∀ j < p.length, ¬ Comparable (p.drop j) s

instance [DecidableEq α] (a b : List α) : Decidable (Comparable a b) :=
  inferInstanceAs (Decidable (_ ∨ _))

instance [DecidableEq α] (s p : List α) : Decidable (Apart s p) :=
  inferInstanceAs (Decidable (_ ∧ _))

/-- Two beginnings of one text are comparable. -/
theorem comparable_of_append {a b t t' : List α} (h : a ++ t = b ++ t') : Comparable a b :=
  List.prefix_or_prefix_of_prefix (List.prefix_append a t) (h ▸ List.prefix_append b t')

/-- A part of `s` at its end is not where `p` begins. -/
theorem Apart.not_prefix_drop {s p b : List α} (h : Apart s p) (hb : b ≠ []) (hends : b <:+ s) :
    ¬ Comparable b p := by
  obtain ⟨a, rfl⟩ := hends
  have hlength : a.length < (a ++ b).length := by
    rw [List.length_append]
    have := List.length_pos_of_ne_nil hb
    omega
  have hdrop := h.1 a.length hlength
  rwa [List.drop_left] at hdrop

/-- A part of `p` at its end is not where `s` begins. -/
theorem Apart.not_comparable_suffix {s p b : List α} (h : Apart s p) (hb : b ≠ [])
    (hends : b <:+ p) : ¬ Comparable b s := by
  obtain ⟨a, rfl⟩ := hends
  have hlength : a.length < (a ++ b).length := by
    rw [List.length_append]
    have := List.length_pos_of_ne_nil hb
    omega
  have hdrop := h.2 a.length hlength
  rwa [List.drop_left] at hdrop

/-- An inserted text completes no occurrence. -/
theorem Apart.absent {s p x y : List α} (h : Apart s p) (hx : ¬ s <:+: x) (hy : ¬ s <:+: y) :
    ¬ s <:+: x ++ (p ++ y) := by
  rintro ⟨u, t, hocc⟩
  rw [List.append_assoc] at hocc
  rcases List.append_eq_append_iff.mp hocc with ⟨x', rfl, hrest⟩ | ⟨u', rfl, hrest⟩
  · -- the occurrence begins in `x`
    rcases List.append_eq_append_iff.mp hrest with ⟨t', rfl, -⟩ | ⟨s', rfl, hover⟩
    · exact hx ⟨u, t', by rw [List.append_assoc]⟩
    · by_cases hs' : s' = []
      · subst hs'
        exact hx ⟨u, [], by simp⟩
      · exact h.not_prefix_drop hs' (List.suffix_append _ _) (comparable_of_append hover.symm)
  · -- the occurrence begins after `x`
    rcases List.append_eq_append_iff.mp hrest with ⟨u'', rfl, hover⟩ | ⟨p', rfl, hover⟩
    · exact hy ⟨u'', t, by rw [List.append_assoc, hover]⟩
    · by_cases hp' : p' = []
      · subst hp'
        exact hy ⟨[], t, by simpa using hover⟩
      · exact h.not_comparable_suffix hp' (List.suffix_append _ _) (comparable_of_append hover.symm)

/-! ## Replacement -/

/-- The second text is the first with the occurrences of `old` replaced by `new`, from the
left. -/
inductive Replaces (old new : List α) : List α → List α → Prop
  | nil : Replaces old new [] []
  | found {rest out : List α} : Replaces old new rest out →
      Replaces old new (old ++ rest) (new ++ out)
  | skip {c : α} {rest out : List α} : ¬ old <+: c :: rest → Replaces old new rest out →
      Replaces old new (c :: rest) (c :: out)

namespace Replaces

variable {old new s w out w' out' : List α}

/-- Nothing else that cannot overlap the inserted text appears. -/
theorem not_infix_append (hapart : Apart s new) (h : Replaces old new w out) {x : List α}
    (hfree : ¬ s <:+: x ++ w) : ¬ s <:+: x ++ out := by
  induction h generalizing x with
  | nil => exact hfree
  | @found rest out _ ih =>
    apply hapart.absent
    · exact fun hx => hfree (hx.trans (List.prefix_append x _).isInfix)
    · have hrest : ¬ s <:+: [] ++ rest := fun hin =>
        hfree (hin.trans ((List.suffix_append old rest).trans (List.suffix_append x _)).isInfix)
      exact ih hrest
  | @skip c rest out _ _ ih =>
    have hnext := ih (x := x ++ [c])
    simp only [List.append_assoc, List.singleton_append] at hnext
    exact hnext hfree

/-- A text that the inserted one keeps apart from does not come to occur. -/
theorem absent (hapart : Apart s new) (h : Replaces old new w out) (hfree : ¬ s <:+: w) :
    ¬ s <:+: out :=
  h.not_infix_append hapart (x := []) hfree

/-- No occurrence begins in `x` when `w` follows it. -/
def Unstarted (old x w : List α) : Prop :=
  ∀ u v, x = u ++ v → v ≠ [] → ¬ old <+: v ++ w

/-- A text that nothing of it begins in does not occur. -/
theorem Unstarted.absent {x : List α} (h : Unstarted old x w) (hold : old ≠ []) :
    ¬ old <:+: x := by
  rintro ⟨u, t, rfl⟩
  refine h u (old ++ t) (by simp) (by simp [hold]) ?_
  rw [List.append_assoc]
  exact List.prefix_append old _

/-- What has been replaced is gone. -/
theorem not_infix_old_append (hapart : Apart old new) (hold : old ≠ [])
    (h : Replaces old new w out) {x : List α} (hfree : Unstarted old x w) :
    ¬ old <:+: x ++ out := by
  induction h generalizing x with
  | nil =>
    rw [List.append_nil]
    exact hfree.absent hold
  | @found rest out _ ih =>
    have hrest : Unstarted old [] rest := by
      intro u v hnil hv
      exact absurd (List.append_eq_nil_iff.mp hnil.symm).2 hv
    exact hapart.absent (hfree.absent hold) (ih hrest)
  | @skip c rest out hnot _ ih =>
    have hnext : Unstarted old (x ++ [c]) rest := by
      intro u v hsplit hv
      rcases List.eq_nil_or_concat v with rfl | ⟨v', d, rfl⟩
      · exact absurd rfl hv
      · rw [List.concat_eq_append, ← List.append_assoc] at hsplit
        obtain ⟨rfl, hlast⟩ := List.append_inj' hsplit rfl
        obtain rfl : c = d := by simpa using hlast
        by_cases hempty : v' = []
        · subst hempty
          simpa using hnot
        · have hbefore := hfree u v' rfl hempty
          simpa using hbefore
    have hend := ih hnext
    simpa using hend

/-- After the replacement nothing of the old text is left, if the new one keeps apart from
it. -/
theorem not_infix_old (hapart : Apart old new) (hold : old ≠ []) (h : Replaces old new w out) :
    ¬ old <:+: out := by
  refine h.not_infix_old_append hapart hold (x := []) ?_
  intro u v hnil hv
  exact absurd (List.append_eq_nil_iff.mp hnil.symm).2 hv

/-- A text is not changed when there is nothing to replace. -/
theorem eq_of_not_infix (h : Replaces old new w out) (hfree : ¬ old <:+: w) : out = w := by
  induction h with
  | nil => rfl
  | found _ _ => exact absurd (List.prefix_append _ _).isInfix hfree
  | skip _ _ ih => rw [ih fun hin => hfree (hin.trans (List.suffix_cons _ _).isInfix)]

/-- Replacing a text by itself changes nothing. -/
theorem eq_of_eq (h : Replaces old old w out) : out = w := by
  induction h with
  | nil => rfl
  | found _ ih => rw [ih]
  | skip _ _ ih => rw [ih]

/-- A text that is changed holds what was inserted. -/
theorem eq_or_inserted (h : Replaces old new w out) : out = w ∨ new <:+: out := by
  induction h with
  | nil => exact .inl rfl
  | found _ _ => exact .inr (List.prefix_append _ _).isInfix
  | skip _ _ ih =>
    rcases ih with rfl | hin
    · exact .inl rfl
    · exact .inr (hin.trans (List.suffix_cons _ _).isInfix)

/-- A text has one replacement. -/
theorem unique (hold : old ≠ []) (h : Replaces old new w out) (h' : Replaces old new w out') :
    out = out' := by
  induction h generalizing out' with
  | nil =>
    generalize hw : ([] : List α) = w at h'
    cases h' with
    | nil => rfl
    | found _ => exact absurd (List.append_eq_nil_iff.mp hw.symm).1 hold
    | skip _ _ => cases hw
  | @found rest out _ ih =>
    generalize hw : old ++ rest = w at h'
    cases h' with
    | nil => exact absurd (List.append_eq_nil_iff.mp hw).1 hold
    | found hrest =>
      obtain rfl := List.append_cancel_left hw
      rw [ih hrest]
    | skip hnot _ => exact absurd (hw ▸ List.prefix_append old rest) hnot
  | @skip c rest out hnot _ ih =>
    generalize hw : c :: rest = w at h'
    cases h' with
    | nil => cases hw
    | found _ => exact absurd (hw ▸ List.prefix_append old _) hnot
    | skip _ hrest =>
      obtain ⟨rfl, rfl⟩ := List.cons.inj hw
      rw [ih hrest]

/-- Every text can be replaced in. -/
theorem exists_out (hold : old ≠ []) (new w : List α) : ∃ out, Replaces old new w out := by
  induction hlength : w.length using Nat.strong_induction_on generalizing w with
  | _ n ih =>
    subst hlength
    by_cases hfound : old <+: w
    · obtain ⟨rest, rfl⟩ := hfound
      have hshorter : rest.length < (old ++ rest).length := by
        have := List.length_pos_of_ne_nil hold
        rw [List.length_append]
        omega
      obtain ⟨out, hout⟩ := ih _ hshorter rest rfl
      exact ⟨_, .found hout⟩
    · cases w with
      | nil => exact ⟨_, .nil⟩
      | cons c rest =>
        obtain ⟨out, hout⟩ := ih rest.length (by simp) rest rfl
        exact ⟨_, .skip hfound hout⟩

/-- Replacing a text by itself changes nothing. -/
theorem refl (hold : old ≠ []) (w : List α) : Replaces old old w w := by
  obtain ⟨out, hout⟩ := exists_out hold old w
  have hsame := hout.eq_of_eq
  rwa [hsame] at hout

end Replaces

/-! ## Several replacements -/

/-- The texts are replaced one after the other, each by its own. -/
inductive ReplacesAll : List (List α × List α) → List α → List α → Prop
  | nil {w : List α} : ReplacesAll [] w w
  | cons {r : List α × List α} {rs : List (List α × List α)} {w u out : List α} :
      Replaces r.1 r.2 w u → ReplacesAll rs u out → ReplacesAll (r :: rs) w out

/-- What a replacement removes can overlap neither the text that it inserts nor one that is
inserted later. -/
def Settled : List (List α × List α) → Prop
  | [] => True
  | r :: rs => (r.1 = r.2 ∨ ∀ r' ∈ r :: rs, Apart r.1 r'.2) ∧ Settled rs

/-- What is removed can overlap nothing that is inserted. -/
def Separate (rs : List (List α × List α)) : Prop :=
  ∀ r ∈ rs, r.1 = r.2 ∨ ∀ r' ∈ rs, Apart r.1 r'.2

instance decidableSettled [DecidableEq α] :
    (rs : List (List α × List α)) → Decidable (Settled rs)
  | [] => isTrue trivial
  | r :: rs =>
    have : Decidable (Settled rs) := decidableSettled rs
    inferInstanceAs (Decidable ((r.1 = r.2 ∨ ∀ r' ∈ r :: rs, Apart r.1 r'.2) ∧ Settled rs))

instance [DecidableEq α] (rs : List (List α × List α)) : Decidable (Separate rs) :=
  inferInstanceAs (Decidable (∀ r ∈ rs, r.1 = r.2 ∨ ∀ r' ∈ rs, Apart r.1 r'.2))

/-- Separate replacements stay separate without the first. -/
theorem Separate.tail {r : List α × List α} {rs : List (List α × List α)}
    (h : Separate (r :: rs)) : Separate rs := fun r' hr' =>
  (h r' (List.mem_cons_of_mem r hr')).imp_right fun hapart r'' hr'' =>
    hapart r'' (List.mem_cons_of_mem r hr'')

namespace ReplacesAll

variable {rs : List (List α × List α)} {s w out w' out' : List α}

/-- A text has one result of all replacements. -/
theorem unique (hold : ∀ r ∈ rs, r.1 ≠ []) (h : ReplacesAll rs w out)
    (h' : ReplacesAll rs w out') : out = out' := by
  induction h with
  | nil =>
    cases h'
    rfl
  | @cons r rs w u out hreplaces _ ih =>
    cases h' with
    | cons hreplaces' hrest' =>
      have hsame := hreplaces.unique (hold r List.mem_cons_self) hreplaces'
      subst hsame
      exact ih (fun r' hr' => hold r' (List.mem_cons_of_mem r hr')) hrest'

/-- A text that is changed holds one of those that were inserted. -/
theorem eq_or_inserted (h : ReplacesAll rs w out) : out = w ∨ ∃ r ∈ rs, r.2 <:+: out := by
  induction h with
  | nil => exact .inl rfl
  | @cons r rs w u out hreplaces _ ih =>
    rcases ih with rfl | ⟨r', hr', hin⟩
    · exact hreplaces.eq_or_inserted.imp_right fun hin => ⟨r, List.mem_cons_self, hin⟩
    · exact .inr ⟨r', List.mem_cons_of_mem r hr', hin⟩

/-- What is replaced first leaves the rest to be replaced. -/
theorem of_append {front rest : List (List α × List α)} (h : ReplacesAll (front ++ rest) w out) :
    ∃ u, ReplacesAll front w u ∧ ReplacesAll rest u out := by
  induction front generalizing w with
  | nil => exact ⟨w, .nil, h⟩
  | cons r front ih =>
    cases h with
    | cons hreplaces hrest =>
      obtain ⟨u, hfront, hrest⟩ := ih hrest
      exact ⟨u, .cons hreplaces hfront, hrest⟩

/-- Nothing that cannot overlap the inserted texts appears. -/
theorem absent (hapart : ∀ r ∈ rs, Apart s r.2) (h : ReplacesAll rs w out)
    (hfree : ¬ s <:+: w) : ¬ s <:+: out := by
  induction h with
  | nil => exact hfree
  | @cons r rs w u out hreplaces _ ih =>
    have hnext := hreplaces.absent (hapart r List.mem_cons_self) hfree
    exact ih (fun r' hr' => hapart r' (List.mem_cons_of_mem r hr')) hnext

/-- Everything that was to be removed is gone. -/
theorem gone (hold : ∀ r ∈ rs, r.1 ≠ []) (hsettled : Settled rs) (h : ReplacesAll rs w out) :
    ∀ r ∈ rs, r.1 = r.2 ∨ ¬ r.1 <:+: out := by
  induction h with
  | nil => exact fun r hr => nomatch hr
  | @cons r rs w u out hreplaces hrest ih =>
    obtain ⟨hfirst, hsettled⟩ := hsettled
    intro r' hr'
    rcases List.mem_cons.mp hr' with rfl | hr'
    · refine hfirst.imp_right fun hapart => ?_
      have hremoved := hreplaces.not_infix_old (hapart _ List.mem_cons_self)
        (hold _ List.mem_cons_self)
      exact hrest.absent (fun r'' hr'' => hapart r'' (List.mem_cons_of_mem _ hr'')) hremoved
    · exact ih (fun r'' hr'' => hold r'' (List.mem_cons_of_mem r hr'')) hsettled r' hr'

/-- A text that holds nothing to remove stays. -/
theorem unchanged (h : ReplacesAll rs w out) (hnothing : ∀ r ∈ rs, r.1 = r.2 ∨ ¬ r.1 <:+: w) :
    out = w := by
  induction h with
  | nil => rfl
  | @cons r rs w u out hreplaces _ ih =>
    have hsame : u = w := by
      rcases hnothing r List.mem_cons_self with heq | hfree
      · rw [← heq] at hreplaces
        exact hreplaces.eq_of_eq
      · exact hreplaces.eq_of_not_infix hfree
    subst hsame
    exact ih fun r' hr' => hnothing r' (List.mem_cons_of_mem r hr')

end ReplacesAll

end Tracewake.Texts
