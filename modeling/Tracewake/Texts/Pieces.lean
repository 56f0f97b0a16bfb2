import Mathlib.Data.List.Forall2
import Tracewake.Texts.Replacement

/-!
# Replacing in pieces

A text that is cut in pieces can be replaced piece by piece if every occurrence that is
replaced lies within one of them. It is enough that no occurrence straddles the pieces,
where the replaced texts cannot overlap those that are inserted.
-/

namespace Tracewake.Texts

variable {α : Type*}

/-! ## Occurrences across a cut -/

/-- An occurrence that crosses from one text to the next. -/
def Crosses (s x y : List α) : Prop :=
  ∃ a b, s = a ++ b ∧ a ≠ [] ∧ b ≠ [] ∧ a <:+ x ∧ b <+: y

/-- A text crosses a boundary if one part of it ends the left side and the other begins the
right. -/
theorem crosses_iff {s x y : List α} :
    Crosses s x y ↔ ∃ i < s.length, 0 < i ∧ s.take i <:+ x ∧ s.drop i <+: y := by
  constructor
  · rintro ⟨a, b, rfl, ha, hb, hends, hbegins⟩
    have ha := List.length_pos_of_ne_nil ha
    have hb := List.length_pos_of_ne_nil hb
    refine ⟨a.length, ?_, ha, ?_, ?_⟩
    · rw [List.length_append]
      omega
    · rwa [List.take_left]
    · rwa [List.drop_left]
  · rintro ⟨i, hi, hpos, hends, hbegins⟩
    refine ⟨s.take i, s.drop i, (List.take_append_drop i s).symm, ?_, ?_, hends, hbegins⟩
    · rw [← List.length_pos_iff, List.length_take]
      omega
    · rw [← List.length_pos_iff, List.length_drop]
      omega

instance [DecidableEq α] (s x y : List α) : Decidable (Crosses s x y) :=
  decidable_of_iff' _ crosses_iff

/-- The occurrences that are replaced in `x` followed by `y` lie in one of the two. -/
inductive Splits (old y : List α) : List α → Prop
  | nil : Splits old y []
  | found {rest : List α} : Splits old y rest → Splits old y (old ++ rest)
  | skip {c : α} {rest : List α} : ¬ old <+: c :: (rest ++ y) → Splits old y rest →
      Splits old y (c :: rest)

/-- An occurrence of the text followed by another one is one of the text, if none crosses. -/
theorem prefix_of_not_crosses {old x y : List α} (hx : x ≠ []) (hcross : ¬ Crosses old x y)
    (hfound : old <+: x ++ y) : old <+: x := by
  obtain ⟨t, ht⟩ := hfound
  rcases List.append_eq_append_iff.mp ht with ⟨t', hin, -⟩ | ⟨b, rfl, hb⟩
  · exact ⟨t', hin.symm⟩
  · by_cases hempty : b = []
    · subst hempty
      rw [List.append_nil]
    · exact absurd ⟨x, b, rfl, hx, hempty, List.suffix_refl _, ⟨t, hb.symm⟩⟩ hcross

/-- A text that begins later is crossed by fewer occurrences. -/
theorem Crosses.of_suffix {old x x' y : List α} (hsuffix : x' <:+ x) (h : Crosses old x' y) :
    Crosses old x y := by
  obtain ⟨a, b, hsplit, ha, hb, hends, hbegins⟩ := h
  exact ⟨a, b, hsplit, ha, hb, hends.trans hsuffix, hbegins⟩

/-- Where no occurrence crosses, those that are replaced do not. -/
theorem Splits.of_not_crosses {old : List α} (hold : old ≠ []) {x y : List α}
    (hcross : ¬ Crosses old x y) : Splits old y x := by
  obtain ⟨out, hout⟩ := Replaces.exists_out hold old x
  induction hout with
  | nil => exact .nil
  | @found rest _ _ ih =>
    exact .found (ih fun h => hcross (h.of_suffix (List.suffix_append old rest)))
  | @skip c rest _ hnot _ ih =>
    refine .skip (fun hfound => hnot ?_)
      (ih fun h => hcross (h.of_suffix (List.suffix_cons c rest)))
    exact prefix_of_not_crosses (List.cons_ne_nil c rest) hcross hfound

/-- The occurrences that are replaced in the pieces one after the other lie within them. -/
def Within (old : List α) : List (List α) → Prop
  | [] => True
  | piece :: rest => Splits old rest.flatten piece ∧ Within old rest

/-- What follows an occurrence does not matter. -/
theorem Splits.of_append {old x y z : List α} (h : Splits old (y ++ z) x) : Splits old y x := by
  induction h with
  | nil => exact .nil
  | found _ ih => exact .found ih
  | @skip c rest hnot _ ih =>
    refine .skip (fun hfound => hnot (hfound.trans ?_)) ih
    exact ⟨z, by simp⟩

/-- What occurs within one piece of some occurs so in the pieces before a boundary. -/
theorem Within.left {old : List α} {before after : List (List α)}
    (h : Within old (before ++ after)) : Within old before := by
  induction before with
  | nil => trivial
  | cons piece rest ih =>
    obtain ⟨hsplits, hrest⟩ := h
    have hflatten : (rest ++ after).flatten = rest.flatten ++ after.flatten := List.flatten_append
    rw [List.append_eq, hflatten] at hsplits
    exact ⟨hsplits.of_append, ih hrest⟩

/-- What occurs within one piece of some occurs so in the pieces after a boundary. -/
theorem Within.right {old : List α} {before after : List (List α)}
    (h : Within old (before ++ after)) : Within old after := by
  induction before with
  | nil => exact h
  | cons _ _ ih => exact ih h.2

/-- An occurrence of `s` does not lie within one of the pieces of a text. -/
def Straddles (s : List α) (pieces : List (List α)) : Prop :=
  ∃ before after, pieces = before ++ after ∧ Crosses s before.flatten after.flatten

/-- A text straddles pieces if it crosses one of their boundaries. -/
theorem straddles_iff {s : List α} {pieces : List (List α)} : Straddles s pieces ↔
    ∃ i < pieces.length + 1, Crosses s (pieces.take i).flatten (pieces.drop i).flatten := by
  constructor
  · rintro ⟨before, after, rfl, hcross⟩
    refine ⟨before.length, ?_, ?_⟩
    · rw [List.length_append]
      omega
    · rwa [List.take_left, List.drop_left]
  · rintro ⟨i, -, hcross⟩
    exact ⟨pieces.take i, pieces.drop i, (List.take_append_drop i pieces).symm, hcross⟩

instance [DecidableEq α] (s : List α) (pieces : List (List α)) : Decidable (Straddles s pieces) :=
  decidable_of_iff' _ straddles_iff

/-- Where no occurrence straddles the pieces, those that are replaced lie within them. -/
theorem Within.of_not_straddles {old : List α} (hold : old ≠ []) {pieces : List (List α)}
    (h : ¬ Straddles old pieces) : Within old pieces := by
  induction pieces with
  | nil => trivial
  | cons piece rest ih =>
    refine ⟨.of_not_crosses hold fun hcross => h ?_, ih ?_⟩
    · exact ⟨[piece], rest, rfl, by simpa using hcross⟩
    · rintro ⟨before, after, rfl, hcross⟩
      refine h ⟨piece :: before, after, rfl, hcross.of_suffix ?_⟩
      exact List.suffix_append piece before.flatten

/-- An occurrence does not begin where the inserted text ends or before it. -/
theorem Apart.not_overlap_append {p x t c y b : List α} (h : Apart (c ++ y ++ b) p) (hc : c ≠ []) :
    t ++ c ≠ x ++ p := by
  intro hover
  rcases List.append_eq_append_iff.mp hover with ⟨c', -, rfl⟩ | ⟨c', -, rfl⟩
  · -- the inserted text is part of the occurrence
    by_cases hempty : p ++ (y ++ b) = []
    · obtain ⟨rfl, -⟩ := List.append_eq_nil_iff.mp hempty
      have hpos : 0 < (c' ++ [] ++ y ++ b).length := by
        have := List.length_pos_of_ne_nil hc
        simp only [List.length_append] at this ⊢
        omega
      exact h.1 0 hpos (Or.inr List.nil_prefix)
    · have hsplit : c' ++ p ++ y ++ b = c' ++ (p ++ (y ++ b)) := by simp
      rw [hsplit] at h
      exact h.not_prefix_drop hempty (List.suffix_append c' _) (Or.inr (List.prefix_append p _))
  · -- the occurrence begins inside the inserted text
    refine h.not_comparable_suffix hc (List.suffix_append c' c) (Or.inl ?_)
    rw [List.append_assoc]
    exact List.prefix_append c _

/-! ## Replacing one text -/

namespace Replaces

variable {old new s w out w' out' : List α}

/-- Texts are replaced one by one if no occurrence that is replaced crosses. -/
theorem append (hold : old ≠ []) (hsplits : Splits old w' w) (h : Replaces old new w out)
    (h' : Replaces old new w' out') : Replaces old new (w ++ w') (out ++ out') := by
  induction hsplits generalizing out with
  | nil =>
    obtain rfl := h.unique hold .nil
    exact h'
  | @found rest _ ih =>
    obtain ⟨u, hu⟩ := exists_out hold new rest
    obtain rfl := h.unique hold (.found hu)
    rw [List.append_assoc, List.append_assoc]
    exact .found (ih hu)
  | @skip c rest hnot _ ih =>
    obtain ⟨u, hu⟩ := exists_out hold new rest
    have hshort : ¬ old <+: c :: rest := fun hfound =>
      hnot (hfound.trans (List.prefix_append (c :: rest) w'))
    obtain rfl := h.unique hold (.skip hshort hu)
    exact .skip hnot (ih hu)

/-- A text is replaced in its pieces if every occurrence that is replaced lies within one. -/
theorem flatten (hold : old ≠ []) {pieces outs : List (List α)} (hwithin : Within old pieces)
    (h : List.Forall₂ (Replaces old new) pieces outs) :
    Replaces old new pieces.flatten outs.flatten := by
  induction h with
  | nil => exact .nil
  | cons hfirst _ ih => exact hfirst.append hold hwithin.1 (ih hwithin.2)

/-- What an occurrence begins with at the end of the new text ended the old one. -/
theorem suffix_of_suffix {a b : List α} (hapart : Apart (a ++ b) new) (ha : a ≠ [])
    (h : Replaces old new w out) {x : List α} (hends : a <:+ x ++ out) : a <:+ x ++ w := by
  induction h generalizing x with
  | nil => exact hends
  | @found rest out _ ih =>
    have hshort (hout : a <:+ out) : a <:+ x ++ (old ++ rest) := by
      have hrest := ih (x := []) hout
      exact hrest.trans ((List.suffix_append old rest).trans (List.suffix_append x _))
    obtain ⟨t, ht⟩ := hends
    rw [← List.append_assoc] at ht
    rcases List.append_eq_append_iff.mp ht with ⟨c, hc, rfl⟩ | ⟨c, -, rfl⟩
    · by_cases hempty : c = []
      · subst hempty
        exact hshort (List.suffix_refl _)
      · exact absurd hc.symm (hapart.not_overlap_append hempty)
    · exact hshort (List.suffix_append c a)
  | @skip c rest out _ _ ih =>
    have hnext := ih (x := x ++ [c])
    simp only [List.append_assoc, List.singleton_append] at hnext
    exact hnext hends

/-- What an occurrence ends with at the beginning of the new text began the old one. -/
theorem prefix_of_prefix {a b : List α} (hapart : Apart (a ++ b) new) (hb : b ≠ [])
    (h : Replaces old new w out) (hbegins : b <+: out) : b <+: w := by
  induction h generalizing a b with
  | nil => exact hbegins
  | @found rest out _ _ =>
    obtain ⟨t, ht⟩ := hbegins
    exact absurd (comparable_of_append ht) (hapart.not_prefix_drop hb (List.suffix_append a b))
  | @skip c rest out _ _ ih =>
    cases b with
    | nil => exact absurd rfl hb
    | cons d b =>
      obtain ⟨rfl, hrest⟩ := List.cons_prefix_cons.mp hbegins
      refine List.cons_prefix_cons.mpr ⟨rfl, ?_⟩
      by_cases hempty : b = []
      · subst hempty
        exact List.nil_prefix
      · have hapart' : Apart ((a ++ [d]) ++ b) new := by simpa using hapart
        exact ih hapart' hempty hrest

/-- No occurrence crosses in the new texts that did not cross in the old ones. -/
theorem crosses (hapart : Apart s new) (h : Replaces old new w out) (h' : Replaces old new w' out')
    (hcross : Crosses s out out') : Crosses s w w' := by
  obtain ⟨a, b, rfl, ha, hb, hends, hbegins⟩ := hcross
  refine ⟨a, b, rfl, ha, hb, ?_, h'.prefix_of_prefix hapart hb hbegins⟩
  exact h.suffix_of_suffix hapart ha (x := []) hends

end Replaces

/-! ## Several replacements -/

/-- Each replacement finds what it replaces within the pieces that the ones before it left. -/
inductive WithinAll : List (List α × List α) → List (List α) → Prop
  | nil {pieces : List (List α)} : WithinAll [] pieces
  | cons {r : List α × List α} {rs : List (List α × List α)} {pieces outs : List (List α)} :
      r.1 = r.2 ∨ Within r.1 pieces → List.Forall₂ (Replaces r.1 r.2) pieces outs →
        WithinAll rs outs → WithinAll (r :: rs) pieces

/-- Pieces can be replaced in one by one. -/
theorem exists_pieces {old : List α} (hold : old ≠ []) (new : List α) (pieces : List (List α)) :
    ∃ outs, List.Forall₂ (Replaces old new) pieces outs := by
  induction pieces with
  | nil => exact ⟨[], .nil⟩
  | cons piece rest ih =>
    obtain ⟨out, hout⟩ := Replaces.exists_out hold new piece
    obtain ⟨outs, houts⟩ := ih
    exact ⟨out :: outs, .cons hout houts⟩

/-- Replacing a text by itself leaves the pieces as they are. -/
theorem pieces_eq_of_eq {old : List α} {pieces outs : List (List α)}
    (h : List.Forall₂ (Replaces old old) pieces outs) : outs = pieces := by
  induction h with
  | nil => rfl
  | cons hfirst _ ih => rw [hfirst.eq_of_eq, ih]

/-- In pieces that were replaced nothing straddles that did not before. -/
theorem Straddles.of_replaces {old new s : List α} (hold : old ≠ []) (hapart : Apart s new)
    {pieces outs : List (List α)} (hwithin : Within old pieces)
    (h : List.Forall₂ (Replaces old new) pieces outs) (hstraddles : Straddles s outs) :
    Straddles s pieces := by
  obtain ⟨front, back, rfl, hcross⟩ := hstraddles
  have hfront := List.forall₂_take_append pieces front back h
  have hback := List.forall₂_drop_append pieces front back h
  have hsplit : pieces.take front.length ++ pieces.drop front.length = pieces :=
    List.take_append_drop _ pieces
  rw [← hsplit] at hwithin
  exact ⟨_, _, hsplit.symm, (Replaces.flatten hold hwithin.left hfront).crosses hapart
    (Replaces.flatten hold hwithin.right hback) hcross⟩

/-- What cannot overlap the inserted texts is replaced within the pieces unless it straddles
them at the start. -/
theorem WithinAll.of_separate {rs : List (List α × List α)} (hold : ∀ r ∈ rs, r.1 ≠ [])
    (hseparate : Separate rs) {pieces : List (List α)}
    (hstraddle : ∀ r ∈ rs, r.1 = r.2 ∨ ¬ Straddles r.1 pieces) : WithinAll rs pieces := by
  induction rs generalizing pieces with
  | nil => exact .nil
  | cons r rs ih =>
    obtain ⟨hr, holds⟩ := List.forall_mem_cons.mp hold
    obtain ⟨hfirst, hrest⟩ := List.forall_mem_cons.mp hstraddle
    obtain ⟨outs, houts⟩ := exists_pieces hr r.2 pieces
    refine .cons (hfirst.imp_right (Within.of_not_straddles hr)) houts
      (ih holds hseparate.tail fun r' hr' => ?_)
    rcases hseparate r' (List.mem_cons_of_mem r hr') with heq | hapart
    · exact .inl heq
    refine (hrest r' hr').imp_right fun hfree hstraddles => hfree ?_
    rcases hfirst with heq | hwhole
    · rw [← heq] at houts
      rwa [pieces_eq_of_eq houts] at hstraddles
    · exact hstraddles.of_replaces hr (hapart r List.mem_cons_self)
        (Within.of_not_straddles hr hwhole) houts

namespace ReplacesAll

variable {rs : List (List α × List α)}

/-- After the first replacement the others are left for each piece. -/
theorem pieces_tail {r : List α × List α} (hr : r.1 ≠ []) {pieces mids outs : List (List α)}
    (h : List.Forall₂ (ReplacesAll (r :: rs)) pieces outs)
    (hfirst : List.Forall₂ (Replaces r.1 r.2) pieces mids) :
    List.Forall₂ (ReplacesAll rs) mids outs := by
  induction h generalizing mids with
  | nil =>
    cases hfirst
    exact .nil
  | cons hpiece _ ih =>
    cases hfirst with
    | cons hmid hmids =>
      cases hpiece with
      | cons hreplaces hlater =>
        obtain rfl := hreplaces.unique hr hmid
        exact .cons hlater (ih hmids)

/-- Where nothing is replaced each piece stays as it is. -/
theorem eq_of_nil {pieces outs : List (List α)}
    (h : List.Forall₂ (ReplacesAll []) pieces outs) : outs = pieces := by
  induction h with
  | nil => rfl
  | cons hfirst _ ih =>
    cases hfirst
    rw [ih]

/-- A text is replaced in its pieces if all that is replaced lies within them. -/
theorem flatten (hold : ∀ r ∈ rs, r.1 ≠ []) {pieces outs : List (List α)}
    (hwithin : WithinAll rs pieces) (h : List.Forall₂ (ReplacesAll rs) pieces outs) :
    ReplacesAll rs pieces.flatten outs.flatten := by
  induction hwithin generalizing outs with
  | nil =>
    obtain rfl := eq_of_nil h
    exact .nil
  | @cons r rs pieces mids hfirst hmids _ ih =>
    obtain ⟨hr, holds⟩ := List.forall_mem_cons.mp hold
    refine .cons ?_ (ih holds (pieces_tail hr h hmids))
    rcases hfirst with heq | hwithin
    · rw [← heq] at hmids ⊢
      rw [pieces_eq_of_eq hmids]
      exact .refl hr _
    · exact Replaces.flatten hr hwithin hmids

end ReplacesAll

end Tracewake.Texts
