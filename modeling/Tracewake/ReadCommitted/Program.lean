import Tracewake.ReadCommitted.Store

/-!
# Transactions as programs of statements

A transaction is a program over a few operations on the store. A statement begins
by reading a snapshot. It then locks the rows it is about and re-reads the newest
version of each, which is how READ COMMITTED re-evaluates a row it had to wait
for. The program does not say what other transactions do in between: one
semantics runs it alone and another interleaves it with others.
-/

namespace Tracewake.ReadCommitted

/-- Row lock modes. `SELECT ... FOR SHARE` takes a shared lock; `FOR UPDATE`,
`UPDATE`, `DELETE` and the unique-index entry of an `INSERT` take an exclusive one. -/
inductive LockMode
  | share
  | exclusive
  deriving DecidableEq

/-- A transaction with errors `ε` and result `α`. `pure` commits and `fail`
rolls back. -/
inductive Program {K : Type} (β : K → Type) (ε α : Type) : Type
  /-- Commit and return a value. -/
  | pure (value : α)
  /-- Roll back and report an error. -/
  | fail (error : ε)
  /-- Begin a statement: read the committed rows of this moment under the own writes. -/
  | snapshot (next : AList β → Program β ε α)
  /-- Wait for a row lock, then read the newest version of the row. -/
  | lock (mode : LockMode) (key : K) (next : Option (β key) → Program β ε α)
  /-- `SKIP LOCKED`: `none` when another transaction holds a lock on the row. -/
  | tryLock (key : K) (next : Option (Option (β key)) → Program β ε α)
  /-- Insert under a unique key once nobody else has the key in flight. A key that
  is already taken is left alone and the answer is `false`. -/
  | insert (key : K) (row : β key) (next : Bool → Program β ε α)
  /-- Draw from the identity sequence, which is never rolled back. -/
  | sequence (next : ℕ → Program β ε α)
  /-- Change a row whose exclusive lock is held. -/
  | write (key : K) (row : Option (β key)) (next : Program β ε α)

namespace Program

variable {K : Type} {β : K → Type} {ε α γ ι : Type}

/-- Sequential composition. A failure skips the rest of the transaction. -/
def bind : Program β ε α → (α → Program β ε γ) → Program β ε γ
  | .pure value, next => next value
  | .fail error, _ => .fail error
  | .snapshot rest, next => .snapshot fun store => (rest store).bind next
  | .lock mode key rest, next => .lock mode key fun row => (rest row).bind next
  | .tryLock key rest, next => .tryLock key fun row => (rest row).bind next
  | .insert key row rest, next => .insert key row fun done => (rest done).bind next
  | .sequence rest, next => .sequence fun n => (rest n).bind next
  | .write key row rest, next => .write key row (rest.bind next)

instance : Monad (Program β ε) where
  pure := Program.pure
  bind := Program.bind

/-- The `pure` of the monad is the program that ends at once. -/
@[simp] theorem pure_eq (value : α) : (Pure.pure value : Program β ε α) = .pure value := rfl

/-- The `bind` of the monad is the sequence of programs. -/
@[simp] theorem bind_eq (p : Program β ε α) (next : α → Program β ε γ) :
    p >>= next = p.bind next := rfl

/-- A program that has ended hands its value on. -/
@[simp] theorem pure_bind (value : α) (next : α → Program β ε γ) :
    (Program.pure value : Program β ε α).bind next = next value := rfl

/-- A program that has failed never goes on. -/
@[simp] theorem fail_bind (error : ε) (next : α → Program β ε γ) :
    (Program.fail error : Program β ε α).bind next = .fail error := rfl

/-- Sequences may be bracketed either way. The induction is on the first program. -/
theorem bind_assoc {δ : Type} (p : Program β ε α) (f : α → Program β ε γ)
    (g : γ → Program β ε δ) : (p.bind f).bind g = p.bind fun value => (f value).bind g := by
  induction p with
  | pure value => rfl
  | fail error => rfl
  | snapshot rest ih => exact congrArg Program.snapshot (funext ih)
  | lock mode key rest ih => exact congrArg (Program.lock mode key) (funext ih)
  | tryLock key rest ih => exact congrArg (Program.tryLock key) (funext ih)
  | insert key row rest ih => exact congrArg (Program.insert key row) (funext ih)
  | sequence rest ih => exact congrArg Program.sequence (funext ih)
  | write key row rest ih => exact congrArg (Program.write key row) ih

/-- A query without locks: it sees the rows committed before it starts. -/
def select (query : AList β → γ) : Program β ε γ :=
  .snapshot fun store => .pure (query store)

variable [DecidableEq K]

/-- Lock a row that a statement's snapshot selected and evaluate its condition
again on the newest version. `none` when the row no longer qualifies. -/
def lockRow (mode : LockMode) (key : K) (qualifies : β key → Bool) :
    Program β ε (Option (β key)) :=
  .lock mode key fun row => .pure (row.filter qualifies)

/-- One row of a `SELECT ... FOR UPDATE` or `FOR SHARE` named by its key. -/
def selectLocked (mode : LockMode) (key : K) (qualifies : AList β → β key → Bool) :
    Program β ε (Option (β key)) :=
  .snapshot fun store =>
    if (store.lookup key).any (qualifies store) then lockRow mode key (qualifies store)
    else .pure none

/-- `INSERT` of a row whose unique key is `key`. The answer is `false` on a
uniqueness violation, with which a plain `INSERT` fails. -/
def insertRow (key : K) (row : β key) : Program β ε Bool :=
  .insert key row fun done => .pure done

/-- `UPDATE ... WHERE` naming one row by its key. `none` when no row qualifies. -/
def updateKey (key : K) (qualifies : AList β → β key → Bool) (set : β key → β key) :
    Program β ε (Option (β key)) :=
  .snapshot fun store =>
    if (store.lookup key).any (qualifies store) then
      (lockRow .exclusive key (qualifies store)).bind fun
        | none => .pure none
        | some row => .write key (some (set row)) (.pure (some (set row)))
    else .pure none

/-- Run a transaction's loop over a list of items. -/
def forEach (body : ι → Program β ε Unit) : List ι → Program β ε Unit
  | [] => .pure ()
  | i :: rest => (body i).bind fun _ => forEach body rest

/-- `UPDATE` of the rows that a statement's snapshot selected, in scan order. Each
row is locked, its condition is evaluated again on the newest version, and the
updated rows are returned. -/
def updateRows (key : ι → K) (qualifies : (i : ι) → β (key i) → Bool)
    (set : (i : ι) → β (key i) → β (key i)) :
    List ι → Program β ε (List ((i : ι) × β (key i)))
  | [] => .pure []
  | i :: rest =>
    (lockRow .exclusive (key i) (qualifies i)).bind fun
      | none => updateRows key qualifies set rest
      | some row => .write (key i) (some (set i row))
          ((updateRows key qualifies set rest).bind fun updated => .pure (⟨i, set i row⟩ :: updated))

/-- `UPDATE table SET ... WHERE ...`: the snapshot decides which rows are tried. -/
def update (key : ι → K) (scan : AList β → List ι) (qualifies : AList β → (i : ι) → β (key i) → Bool)
    (set : (i : ι) → β (key i) → β (key i)) : Program β ε (List ((i : ι) × β (key i))) :=
  .snapshot fun store => updateRows key (qualifies store) set
    ((scan store).filter fun i => (store.lookup (key i)).any (qualifies store i))

/-- `DELETE` of the rows that a statement's snapshot selected. -/
def deleteRows (key : ι → K) (qualifies : (i : ι) → β (key i) → Bool) :
    List ι → Program β ε ℕ
  | [] => .pure 0
  | i :: rest =>
    (lockRow .exclusive (key i) (qualifies i)).bind fun
      | none => deleteRows key qualifies rest
      | some _ => .write (key i) none
          ((deleteRows key qualifies rest).bind fun removed => .pure (removed + 1))

/-- `DELETE FROM table WHERE ...`. -/
def delete (key : ι → K) (scan : AList β → List ι)
    (qualifies : AList β → (i : ι) → β (key i) → Bool) : Program β ε ℕ :=
  .snapshot fun store => deleteRows key (qualifies store)
    ((scan store).filter fun i => (store.lookup (key i)).any (qualifies store i))

/-- The locking part of `SELECT ... FOR UPDATE SKIP LOCKED LIMIT n`: rows that are
locked by someone else, or that no longer qualify, do not count. -/
def lockSkipping (key : ι → K) (qualifies : (i : ι) → β (key i) → Bool) :
    List ι → ℕ → Program β ε (List ((i : ι) × β (key i)))
  | [], _ => .pure []
  | _, 0 => .pure []
  | i :: rest, limit + 1 =>
    .tryLock (key i) fun row =>
      match row.bind (·.filter (qualifies i)) with
      | none => lockSkipping key qualifies rest (limit + 1)
      | some row => (lockSkipping key qualifies rest limit).bind fun selected =>
          .pure (⟨i, row⟩ :: selected)

/-- `SELECT ... WHERE ... FOR UPDATE SKIP LOCKED LIMIT n`. -/
def selectSkipLocked (key : ι → K) (scan : AList β → List ι)
    (qualifies : AList β → (i : ι) → β (key i) → Bool) (limit : ℕ) :
    Program β ε (List ((i : ι) × β (key i))) :=
  .snapshot fun store => lockSkipping key (qualifies store)
    ((scan store).filter fun i => (store.lookup (key i)).any (qualifies store i)) limit

end Program

end Tracewake.ReadCommitted
