import Mathlib.Data.List.Nodup
import Mathlib.Data.List.ReduceOption

/-!
# First fit

Requests arrive one after the other, and each takes the first free slot that it accepts.
Where two requests that accept a common slot accept the same slots, no other assignment
of slots to the requests serves more of them.
-/

namespace Tracewake.Assignments

variable {R S : Type}

/-- Two requests that accept a common slot accept the same slots. -/
def Rectangular (accepts : R → S → Bool) : Prop :=
  ∀ r r' s s', accepts r s = true → accepts r s' = true → accepts r' s = true →
    accepts r' s' = true

/-- What is equality of two keys is rectangular. -/
theorem Rectangular.of_keys {accepts : R → S → Bool} (related : R → R → Prop)
    (hkeys : ∀ r r' s, accepts r s = true → accepts r' s = true → related r r')
    (hserves : ∀ r r' s, related r r' → accepts r s = true → accepts r' s = true) :
    Rectangular accepts :=
  fun r r' s s' h h' hother => hserves r r' s' (hkeys r r' s h hother) h'

/-- Mark a slot as taken. -/
def consume (i : ℕ) (slots : List (S × Bool)) : List (S × Bool) :=
  slots.modify i fun slot => (slot.1, true)

/-- The first slot that is free and accepted. -/
def firstFit (accepts : S → Bool) (slots : List (S × Bool)) : Option ℕ :=
  slots.findIdx? fun slot => !slot.2 && accepts slot.1

/-- Where the requests are served, the earliest first. -/
def places (accepts : R → S → Bool) : List (S × Bool) → List R → List (Option ℕ)
  | _, [] => []
  | slots, r :: rest =>
    match firstFit (accepts r) slots with
    | none => none :: places accepts slots rest
    | some i => some i :: places accepts (consume i slots) rest

/-- An assignment gives each request a free slot that it accepts, or none, and each slot
at most once. -/
structure Assignment (accepts : R → S → Bool) (slots : List (S × Bool)) (requests : List R)
    (placed : List (Option ℕ)) : Prop where
  fits : List.Forall₂ (fun r place => ∀ i, place = some i → ∃ s, slots[i]? = some (s, false) ∧
    accepts r s = true) requests placed
  once : placed.reduceOption.Nodup

section Slots

variable {accepts : S → Bool} {slots : List (S × Bool)} {i j : ℕ} {s : S}

/-- Consuming one slot leaves the others. -/
theorem consume_ne (h : j ≠ i) : (consume i slots)[j]? = slots[j]? := by
  simp [consume, h.symm]

/-- A slot that is free after another one has been taken was free before. -/
theorem free_of_consume (h : (consume i slots)[j]? = some (s, false)) :
    slots[j]? = some (s, false) ∧ j ≠ i := by
  by_cases hne : j = i
  · subst hne
    simp only [consume, List.getElem?_modify, if_true, Option.map_eq_map,
      Option.map_eq_some_iff] at h
    obtain ⟨slot, _, hslot⟩ := h
    cases hslot
  · rw [consume_ne hne] at h
    exact ⟨h, hne⟩

/-- First fit finds a free slot that is accepted. -/
theorem firstFit_free (h : firstFit accepts slots = some i) :
    ∃ s, slots[i]? = some (s, false) ∧ accepts s = true := by
  obtain ⟨hi, hslot, _⟩ := List.findIdx?_eq_some_iff_getElem.mp h
  simp only [Bool.and_eq_true, Bool.not_eq_true'] at hslot
  refine ⟨slots[i].1, ?_, hslot.2⟩
  rw [List.getElem?_eq_getElem hi, ← hslot.1]

/-- No earlier slot is free and accepted. -/
theorem firstFit_le (h : firstFit accepts slots = some i) (hfree : slots[j]? = some (s, false))
    (haccepts : accepts s = true) : i ≤ j := by
  obtain ⟨_, _, hearlier⟩ := List.findIdx?_eq_some_iff_getElem.mp h
  by_contra hlt
  obtain ⟨hj, hslot⟩ := List.getElem?_eq_some_iff.mp hfree
  have := hearlier j (by omega)
  simp [hslot, haccepts] at this

/-- First fit fails only if no free slot is accepted. -/
theorem firstFit_none (h : firstFit accepts slots = none) (hfree : slots[j]? = some (s, false)) :
    accepts s = false := by
  have := List.findIdx?_eq_none_iff.mp h (s, false) (List.mem_of_getElem? hfree)
  simpa using this

end Slots

section Runs

variable {accepts : R → S → Bool} {slots : List (S × Bool)} {requests : List R} {r : R}
  {placed : List (Option ℕ)} {i j : ℕ}

/-- Without requests nothing is assigned. -/
theorem Assignment.nil : Assignment accepts slots [] [] :=
  ⟨.nil, by simp⟩

/-- An assigned slot is free and accepts its request. -/
theorem Assignment.mem (h : Assignment accepts slots requests placed) (hi : some i ∈ placed) :
    ∃ r ∈ requests, ∃ s, slots[i]? = some (s, false) ∧ accepts r s = true := by
  obtain ⟨n, hn, hplace⟩ := List.getElem_of_mem hi
  have hlength := h.fits.length_eq
  refine ⟨requests[n], List.getElem_mem _, ?_⟩
  exact h.fits.get (by omega) hn i (by simpa using hplace)

/-- A request that takes a slot leaves an assignment of the other slots. -/
theorem assignment_cons_some :
    Assignment accepts slots (r :: requests) (some i :: placed) ↔
      (∃ s, slots[i]? = some (s, false) ∧ accepts r s = true) ∧
        Assignment accepts (consume i slots) requests placed := by
  constructor
  · rintro ⟨hfits, honce⟩
    obtain ⟨hhead, hrest⟩ := List.forall₂_cons.mp hfits
    rw [List.reduceOption_cons_of_some, List.nodup_cons] at honce
    refine ⟨hhead i rfl, ?_, honce.2⟩
    rw [List.forall₂_iff_get] at hrest ⊢
    refine ⟨hrest.1, fun n hn hn' j hj => ?_⟩
    obtain ⟨s, hs, haccepts⟩ := hrest.2 n hn hn' j hj
    have hne : j ≠ i := by
      rintro rfl
      refine honce.1 (List.reduceOption_mem_iff.mpr ?_)
      rw [← hj]
      exact List.get_mem _ _
    exact ⟨s, (consume_ne hne).trans hs, haccepts⟩
  · rintro ⟨hhead, h⟩
    have hfree : some i ∉ placed := by
      intro hmem
      obtain ⟨_, _, s, hs, _⟩ := h.mem hmem
      exact (free_of_consume hs).2 rfl
    refine ⟨List.forall₂_cons.mpr ⟨?_, ?_⟩, ?_⟩
    · rintro j ⟨⟩
      exact hhead
    · refine h.fits.imp fun r place hplace j hj => ?_
      obtain ⟨s, hs, haccepts⟩ := hplace j hj
      exact ⟨s, (free_of_consume hs).1, haccepts⟩
    · rw [List.reduceOption_cons_of_some, List.nodup_cons]
      exact ⟨fun hmem => hfree (List.reduceOption_mem_iff.mp hmem), h.once⟩

/-- A request that gets no slot changes nothing for the others. -/
theorem assignment_cons_none :
    Assignment accepts slots (r :: requests) (none :: placed) ↔
      Assignment accepts slots requests placed := by
  constructor
  · rintro ⟨hfits, honce⟩
    exact ⟨(List.forall₂_cons.mp hfits).2, honce⟩
  · rintro ⟨hfits, honce⟩
    exact ⟨List.forall₂_cons.mpr ⟨fun _ h => (Option.some_ne_none _ h.symm).elim, hfits⟩, honce⟩

/-- First fit gives an assignment. -/
theorem places_assignment : Assignment accepts slots requests (places accepts slots requests) := by
  induction requests generalizing slots with
  | nil => exact .nil
  | cons r rest ih =>
    unfold places
    split
    · exact assignment_cons_none.mpr ih
    · next i hfirst => exact assignment_cons_some.mpr ⟨firstFit_free hfirst, ih⟩

end Runs

section Exchange

variable {accepts : R → S → Bool} {slots : List (S × Bool)} {requests : List R}
  {placed : List (Option ℕ)} {i j : ℕ}

/-- The requests that are served. -/
def hits (placed : List (Option ℕ)) : ℕ := placed.reduceOption.length

/-- Give up a slot. -/
def release (i : ℕ) (placed : List (Option ℕ)) : List (Option ℕ) :=
  placed.map fun place => if place = some i then none else place

/-- Use one slot for another. -/
def swap (i j : ℕ) (placed : List (Option ℕ)) : List (Option ℕ) :=
  placed.map (Option.map fun k => if k = i then j else k)

/-- Giving one slot back takes it out of the slots in use. -/
theorem release_reduceOption (i : ℕ) (placed : List (Option ℕ)) :
    (release i placed).reduceOption = placed.reduceOption.filter (· ≠ i) := by
  induction placed with
  | nil => rfl
  | cons place rest ih =>
    cases place with
    | none => simpa [release, List.reduceOption] using ih
    | some k =>
      by_cases hk : k = i
      · subst hk
        simpa [release, List.reduceOption] using ih
      · simpa [release, List.reduceOption, hk] using ih

/-- Giving up a slot costs at most one request. -/
theorem hits_le_release (h : placed.reduceOption.Nodup) (i : ℕ) :
    hits placed ≤ hits (release i placed) + 1 := by
  unfold hits
  rw [release_reduceOption]
  by_cases hi : i ∈ placed.reduceOption
  · have herase : placed.reduceOption.filter (· ≠ i) = placed.reduceOption.erase i := by
      rw [h.erase_eq_filter]
      exact List.filter_congr fun k _ => by by_cases hk : k = i <;> simp [hk]
    rw [herase, List.length_erase_of_mem hi]
    omega
  · have hsame : placed.reduceOption.filter (· ≠ i) = placed.reduceOption := by
      refine List.filter_eq_self.mpr fun k hk => ?_
      simp only [decide_eq_true_eq]
      rintro rfl
      exact hi hk
    rw [hsame]
    omega

/-- With one slot given back, the assignment goes without it. -/
theorem Assignment.release (h : Assignment accepts slots requests placed) (i : ℕ) :
    Assignment accepts (consume i slots) requests (release i placed) := by
  refine ⟨?_, ?_⟩
  · rw [Assignments.release, List.forall₂_map_right_iff]
    refine h.fits.imp fun r place hplace k hk => ?_
    split at hk
    · cases hk
    · next hne =>
      obtain ⟨s, hs, haccepts⟩ := hplace k hk
      have hki : k ≠ i := by
        rintro rfl
        exact hne hk
      exact ⟨s, (consume_ne hki).trans hs, haccepts⟩
  · rw [release_reduceOption]
    exact h.once.filter _

/-- A swap serves as many requests. -/
theorem hits_swap (i j : ℕ) (placed : List (Option ℕ)) : hits (swap i j placed) = hits placed := by
  unfold hits swap
  rw [List.reduceOption_map, List.length_map]

/-- A slot that nobody uses may be used for one that is accepted by the same requests. -/
theorem Assignment.swap (hrect : Rectangular accepts)
    (h : Assignment accepts (consume j slots) requests placed) {r : R} {s s' : S}
    (hi : slots[i]? = some (s, false)) (hj : slots[j]? = some (s', false)) (hne : i ≠ j)
    (haccepts : accepts r s = true) (haccepts' : accepts r s' = true) :
    Assignment accepts (consume i slots) requests (swap i j placed) := by
  refine ⟨?_, ?_⟩
  · rw [Assignments.swap, List.forall₂_map_right_iff]
    refine h.fits.imp fun r' place hplace k hk => ?_
    obtain ⟨k', rfl, rfl⟩ := Option.map_eq_some_iff.mp hk
    obtain ⟨t, ht, haccept⟩ := hplace k' rfl
    obtain ⟨hfree, hkj⟩ := free_of_consume ht
    split
    · next hki =>
      subst hki
      obtain rfl : t = s := congrArg Prod.fst (Option.some.inj (hfree.symm.trans hi))
      exact ⟨s', (consume_ne hne.symm).trans hj, hrect r r' t s' haccepts haccepts' haccept⟩
    · next hki => exact ⟨t, (consume_ne hki).trans hfree, haccept⟩
  · unfold Assignments.swap
    rw [List.reduceOption_map]
    refine List.Nodup.map_on ?_ h.once
    have hunused : ∀ k ∈ placed.reduceOption, k ≠ j := by
      intro k hk
      obtain ⟨_, _, t, ht, _⟩ := h.mem (List.reduceOption_mem_iff.mp hk)
      exact (free_of_consume ht).2
    intro k hk k' hk' hsame
    have hkj := hunused k hk
    have hkj' := hunused k' hk'
    split at hsame <;> split at hsame <;> omega

/-- No assignment serves more requests than first fit does. -/
theorem hits_le_places (hrect : Rectangular accepts)
    (h : Assignment accepts slots requests placed) :
    hits placed ≤ hits (places accepts slots requests) := by
  induction requests generalizing slots placed with
  | nil =>
    obtain rfl : placed = [] := List.eq_nil_of_length_eq_zero h.fits.length_eq.symm
    exact Nat.le_refl _
  | cons r rest ih =>
    obtain ⟨place, others, rfl⟩ : ∃ place others, placed = place :: others := by
      cases placed with
      | nil => exact absurd h.fits.length_eq (by simp)
      | cons place others => exact ⟨place, others, rfl⟩
    unfold places
    cases hfirst : firstFit (accepts r) slots with
    | none =>
      cases place with
      | none =>
        have hbound := ih (assignment_cons_none.mp h)
        simpa only [hits, List.reduceOption_cons_of_none] using hbound
      | some j =>
        -- A request that first fit cannot serve cannot be served at all.
        obtain ⟨⟨s, hs, haccepts⟩, _⟩ := assignment_cons_some.mp h
        exact absurd (firstFit_none hfirst hs) (by simp [haccepts])
    | some i =>
      obtain ⟨s, hs, haccepts⟩ := firstFit_free hfirst
      cases place with
      | none =>
        have hrest := assignment_cons_none.mp h
        have hbound := ih (hrest.release i)
        have hcost := hits_le_release hrest.once i
        simp only [hits, List.reduceOption_cons_of_some, List.reduceOption_cons_of_none,
          List.length_cons] at hbound hcost ⊢
        omega
      | some j =>
        obtain ⟨⟨s', hs', haccepts'⟩, hrest⟩ := assignment_cons_some.mp h
        have hbound : hits others ≤ hits (places accepts (consume i slots) rest) := by
          by_cases hij : i = j
          · subst hij
            exact ih hrest
          · -- Whoever uses slot `i` may have slot `j`, which the request gives up for it.
            have hswap := hrest.swap hrect hs hs' hij haccepts haccepts'
            rw [← hits_swap i j others]
            exact ih hswap
        simp only [hits, List.reduceOption_cons_of_some, List.length_cons] at hbound ⊢
        omega

end Exchange

section Order

variable {accepts : R → S → Bool} {slots : List (S × Bool)} {requests : List R}

/-- Requests that accept the same slots are served from left to right. -/
theorem places_ordered {n m i j : ℕ} {r r' : R} (hlt : n < m) (hn : requests[n]? = some r)
    (hm : requests[m]? = some r') (hsame : ∀ s, accepts r s = accepts r' s)
    (hi : (places accepts slots requests)[n]? = some (some i))
    (hj : (places accepts slots requests)[m]? = some (some j)) : i < j := by
  induction requests generalizing slots n m with
  | nil => cases hn
  | cons first rest ih =>
    obtain ⟨m, rfl⟩ : ∃ k, m = k + 1 := Nat.exists_eq_add_one_of_ne_zero (by omega)
    unfold places at hi hj
    rw [List.getElem?_cons_succ] at hm
    cases n with
    | zero =>
      obtain rfl : first = r := by simpa using hn
      cases hfirst : firstFit (accepts first) slots with
      | none => simp [hfirst] at hi
      | some k =>
        simp only [hfirst, List.getElem?_cons_zero, Option.some.injEq] at hi
        subst hi
        simp only [hfirst, List.getElem?_cons_succ] at hj
        obtain ⟨s, hs, haccepts⟩ : ∃ s, (consume k slots)[j]? = some (s, false) ∧
            accepts r' s = true := by
          have hfits : Assignment accepts (consume k slots) rest _ := places_assignment
          obtain ⟨hmlt, hget⟩ := List.getElem?_eq_some_iff.mp hj
          obtain ⟨hmlt', hget'⟩ := List.getElem?_eq_some_iff.mp hm
          have := hfits.fits.get hmlt' hmlt j (by simpa using hget)
          rw [List.get_eq_getElem, hget'] at this
          exact this
        obtain ⟨hfree, hne⟩ := free_of_consume hs
        have hle := firstFit_le hfirst hfree ((hsame s).trans haccepts)
        omega
    | succ n =>
      rw [List.getElem?_cons_succ] at hn
      split at hi
      · next hfirst =>
        simp only [hfirst, List.getElem?_cons_succ] at hi hj
        exact ih (by omega) hn hm hi hj
      · next k hfirst =>
        simp only [hfirst, List.getElem?_cons_succ] at hi hj
        exact ih (by omega) hn hm hi hj

/-- A request that is not served accepts no slot that is still free. -/
theorem places_missed {n i : ℕ} {r : R} {s : S} (hn : requests[n]? = some r)
    (hmissed : (places accepts slots requests)[n]? = some none)
    (hfree : slots[i]? = some (s, false)) (haccepts : accepts r s = true) :
    some i ∈ (places accepts slots requests).take n := by
  induction requests generalizing slots n with
  | nil => cases hn
  | cons first rest ih =>
    unfold places at hmissed ⊢
    cases n with
    | zero =>
      obtain rfl : first = r := by simpa using hn
      cases hfirst : firstFit (accepts first) slots with
      | none => exact absurd (firstFit_none hfirst hfree) (by simp [haccepts])
      | some k => simp [hfirst] at hmissed
    | succ n =>
      rw [List.getElem?_cons_succ] at hn
      split
      · next hfirst =>
        simp only [hfirst, List.getElem?_cons_succ] at hmissed
        rw [List.take_succ_cons]
        exact List.mem_cons_of_mem _ (ih hn hmissed hfree)
      · next k hfirst =>
        simp only [hfirst, List.getElem?_cons_succ] at hmissed
        rw [List.take_succ_cons]
        by_cases hik : i = k
        · subst hik
          exact List.mem_cons_self
        · exact List.mem_cons_of_mem _ (ih hn hmissed ((consume_ne hik).trans hfree))

end Order

end Tracewake.Assignments
