import Mathlib.Data.List.Sort
import Mathlib.Data.List.Perm.Basic

/-!
# Reorderings of a list

Two lists of the same elements in which only independent elements change places. What is
read off such a list does not change when elements that are read differently are dependent,
and neither does a list that is sorted by keys that are compared alike in both orders.
-/

namespace Tracewake.Traces

variable {α β γ : Type*}

/-- The second list holds the elements of the first. It is ordered by `before`, and so are
the dependent elements of the first. -/
structure Reordering (dependent before : α → α → Prop) (l l' : List α) : Prop where
  perm : l.Perm l'
  kept : l.Pairwise fun a b => dependent a b → before a b
  sorted : l'.Pairwise before

/-- Elements that are equal under `f` or in the same order in both lists give equal images. -/
theorem map_eq_map_of_perm {before : α → α → Prop} (hasymm : ∀ a b, before a b → ¬ before b a)
    (f : α → β) {l l' : List α} (hperm : l.Perm l')
    (hkept : l.Pairwise fun a b => f a ≠ f b → before a b) (hsorted : l'.Pairwise before) :
    l.map f = l'.map f := by
  induction l generalizing l' with
  | nil => rw [hperm.nil_eq]
  | cons x rest ih =>
    obtain ⟨hfirst, hrest⟩ := List.pairwise_cons.mp hkept
    obtain ⟨s, t, rfl⟩ := List.append_of_mem (hperm.subset List.mem_cons_self)
    have htail : rest.Perm (s ++ t) := (hperm.trans List.perm_middle).cons_inv
    obtain ⟨hs, ht, hst⟩ := List.pairwise_append.mp hsorted
    -- what stands before `x` in the second list follows it in the first
    have hsame : ∀ z ∈ s, f z = f x := by
      intro z hz
      by_contra hne
      have hafter := hfirst z (htail.mem_iff.mpr (List.mem_append_left t hz)) (Ne.symm hne)
      exact hasymm _ _ hafter (hst z hz x List.mem_cons_self)
    have hmove : ∀ u : List α, (∀ z ∈ u, f z = f x) → u.map f ++ [f x] = f x :: u.map f := by
      intro u hu
      induction u with
      | nil => rfl
      | cons z u ihu =>
        rw [List.map_cons, List.cons_append, ihu fun y hy => hu y (List.mem_cons_of_mem z hy),
          hu z List.mem_cons_self]
    have hsub : (s ++ t).Pairwise before := by
      refine List.pairwise_append.mpr ⟨hs, (List.pairwise_cons.mp ht).2, ?_⟩
      intro a ha b hb
      exact hst a ha b (List.mem_cons_of_mem x hb)
    calc (x :: rest).map f = f x :: (s ++ t).map f := by rw [List.map_cons, ih htail hrest hsub]
      _ = (f x :: s.map f) ++ t.map f := by rw [List.map_append, List.cons_append]
      _ = (s.map f ++ [f x]) ++ t.map f := by rw [hmove s hsame]
      _ = (s ++ x :: t).map f := by simp

/-- Sorting by keys that are compared alike in both orders, and that tell elements apart. -/
theorem mergeSort_eq_of_perm [LinearOrder γ] {l l' : List α} (h : l.Perm l') {key key' : α → γ}
    (hmono : ∀ a ∈ l, ∀ b ∈ l, key a ≤ key b → key' a ≤ key' b)
    (hinj : ∀ a ∈ l, ∀ b ∈ l, key' a = key' b → a = b) :
    l.mergeSort (fun a b => decide (key a ≤ key b)) =
      l'.mergeSort fun a b => decide (key' a ≤ key' b) := by
  have hsorted : ∀ (k : α → γ) (u : List α),
      (u.mergeSort fun a b => decide (k a ≤ k b)).Pairwise fun a b => k a ≤ k b := by
    intro k u
    refine (List.pairwise_mergeSort (fun a b c hab hbc => ?_) (fun a b => ?_) u).imp ?_
    · simp only [decide_eq_true_eq] at hab hbc ⊢
      exact hab.trans hbc
    · simp only [Bool.or_eq_true, decide_eq_true_eq]
      exact le_total _ _
    · intro a b hab
      simpa using hab
  have hperm : (l.mergeSort fun a b => decide (key a ≤ key b)).Perm
      (l'.mergeSort fun a b => decide (key' a ≤ key' b)) :=
    (List.mergeSort_perm _ _).trans (h.trans (List.mergeSort_perm _ _).symm)
  refine List.Perm.eq_of_pairwise ?_ ((hsorted key l).imp_of_mem ?_) (hsorted key' l') hperm
  · intro a b ha hb hab hba
    exact hinj a (List.mem_mergeSort.mp ha)
      b (h.mem_iff.mpr (List.mem_mergeSort.mp hb)) (le_antisymm hab hba)
  · intro a b ha hb hab
    exact hmono a (List.mem_mergeSort.mp ha) b (List.mem_mergeSort.mp hb) hab

namespace Reordering

variable {dependent before : α → α → Prop} {l l' : List α}

/-- What is read off some of the elements, when those read differently are dependent. -/
theorem filterMap_eq (h : Reordering dependent before l l')
    (hasymm : ∀ a b, before a b → ¬ before b a) (g : α → Option β)
    (hdependent : ∀ a ∈ l, ∀ b ∈ l, ∀ x ∈ g a, ∀ y ∈ g b, x ≠ y → dependent a b) :
    l.filterMap g = l'.filterMap g := by
  have hread : ∀ u : List α,
      u.filterMap g = ((u.filter fun a => (g a).isSome).map g).filterMap id := by
    intro u
    rw [List.filterMap_map, List.filterMap_filter]
    refine List.filterMap_congr fun a _ => ?_
    cases hg : g a <;> simp [hg]
  rw [hread l, hread l']
  refine congrArg _ (map_eq_map_of_perm hasymm g (h.perm.filter _) ?_ (h.sorted.filter _))
  refine List.pairwise_filter.mpr (h.kept.imp_of_mem ?_)
  intro a b ha hb hkept hsomeA hsomeB hne
  obtain ⟨x, hx⟩ := Option.isSome_iff_exists.mp hsomeA
  obtain ⟨y, hy⟩ := Option.isSome_iff_exists.mp hsomeB
  refine hkept (hdependent a ha b hb x hx y hy ?_)
  rintro rfl
  exact hne (hx.trans hy.symm)

end Reordering

end Tracewake.Traces
