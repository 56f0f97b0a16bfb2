import Mathlib.Data.List.AList

/-!
# Row stores and uncommitted writes

A database is a finite map from row keys to rows. The type of a row may depend
on its key, so that the tables of a schema are the constructors of one key type.
A transaction collects its changes in an overlay of this map. The overlay is
what the transaction itself reads, and committing applies it to the store.
-/

namespace Tracewake.ReadCommitted

variable {K : Type} {β : K → Type}

/-- The uncommitted changes of one transaction: the new row of a key, or `none`
where the transaction has deleted the row. -/
abbrev Writes (β : K → Type) := AList fun k => Option (β k)

variable [DecidableEq K]

/-- Apply an overlay to a store, one changed row at a time. -/
def Writes.apply (writes : Writes β) (store : AList β) : AList β :=
  writes.entries.foldr
    (fun entry result => entry.2.elim (result.erase entry.1) (result.insert entry.1)) store

/-- Without writes the committed rows stay as they are. -/
@[simp] theorem Writes.empty_apply (store : AList β) : Writes.apply (∅ : Writes β) store = store :=
  rfl

/-- A changed row is read from the overlay and every other row from the store. -/
@[simp] theorem Writes.lookup_apply (writes : Writes β) (store : AList β) (k : K) :
    (writes.apply store).lookup k = (writes.lookup k).getD (store.lookup k) := by
  obtain ⟨entries, hnodup⟩ := writes
  induction entries with
  | nil => rfl
  | cons entry entries ih =>
    obtain ⟨key, row⟩ := entry
    have hrest := ih (List.nodupKeys_cons.mp hnodup).2
    by_cases hk : k = key
    · subst hk
      have hlookup : AList.lookup k (⟨⟨k, row⟩ :: entries, hnodup⟩ : Writes β) = some row :=
        List.dlookup_cons_eq _ _ _
      rw [hlookup]
      cases row with
      | none => exact AList.lookup_erase _ _
      | some row => exact AList.lookup_insert _
    · have hlookup : AList.lookup k (⟨⟨key, row⟩ :: entries, hnodup⟩ : Writes β) =
          AList.lookup k (⟨entries, (List.nodupKeys_cons.mp hnodup).2⟩ : Writes β) := by
        simp [AList.lookup, List.dlookup_cons_ne, hk]
      rw [hlookup, ← hrest]
      cases row with
      | none => exact AList.lookup_erase_ne hk
      | some row => exact AList.lookup_insert_ne hk

end Tracewake.ReadCommitted
