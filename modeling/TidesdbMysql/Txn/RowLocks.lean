import TidesdbMysql.Txn.Ledger

/-! The row locks of the plugin (`tidesdb_row_lock.cc`) and the connection that takes
them: which steps leave a lock behind its transaction. -/
namespace TidesdbMysql
open Base List Option Conn

variable {W : Type}

inductive LockOwner where
  | this
  | other (n : Nat)
  deriving DecidableEq, Repr

/-- `tdb_row_lock_t`. The key is the number that `held_locks_head` lists it under;
an entry is never removed once it exists. -/
structure RowLock where
  key : Nat
  ownerTxnId : Nat
  ownerTrx : Option LockOwner
  deriving DecidableEq, Repr

/- Every transaction structure gets the same id, so only the pointer tells owners apart. -/
def lockTxnId : Nat := 1

def RowLock.claim (entry : RowLock) (owner : LockOwner) : RowLock :=
  { entry with ownerTxnId := lockTxnId, ownerTrx := some owner }

def RowLock.free (entry : RowLock) : RowLock := { entry with ownerTxnId := 0, ownerTrx := none }

abbrev LockTable := List RowLock

def LockTable.at (table : LockTable) (key : Nat) (change : RowLock → RowLock) : LockTable :=
  table.map fun entry => if entry.key = key then change entry else entry

def tdbLockFindOrCreate (table : LockTable) (key : Nat) (malloc : Bool) : Option (LockTable × RowLock) :=
  match table.find? fun entry => entry.key = key with
  | some entry => some (table, entry)
  | none => if malloc then some (⟨key, 0, none⟩ :: table, ⟨key, 0, none⟩) else none

/-- The walk along `held_locks_head`. -/
def rowLocksReleaseAll (table : LockTable) (held : List Nat) : LockTable :=
  held.foldl (fun table key => table.at key RowLock.free) table

def heldOf (trx : Option (Trx W)) : List Nat := (trx.map Trx.heldLocks).getD []
def attachedOf (trx : Option (Trx W)) : Bool := (trx.bind Trx.txn).isSome

structure Locking (W : Type) where
  conn : Conn W
  table : LockTable

/-- How `row_lock_acquire` ends when it cannot claim the entry; one granted later is a call made
then. -/
structure LockAnswers where
  malloc : Bool
  killed : Bool
  deriving DecidableEq, Repr

def rowLockAcquire (s : Locking W) (key : Nat) (answers : LockAnswers) : Locking W × HaCode :=
  match s.conn.trx with
  | none => (s, .ok)
  | some _ =>
    match tdbLockFindOrCreate s.table key answers.malloc with
    | none => (s, .outOfMem)
    | some (table, entry) =>
      if entry.ownerTxnId = lockTxnId ∧ entry.ownerTrx = some .this then ({ s with table := table }, .ok)
      else if entry.ownerTxnId = 0 then
        (⟨(s.conn.step (.rowLockAcquire key)).1, table.at key (·.claim .this)⟩, .ok)
      else ({ s with table := table }, if answers.killed then .lockWaitTimeout else .lockDeadlock)

/-- A call of the server here, a row lock taken here, and what other connections do to the table. -/
inductive LockEvent (W : Type) where
  | call (e : Event W)
  | acquire (key : Nat) (answers : LockAnswers)
  | otherClaims (n key : Nat)
  | otherReleases (n : Nat)

/- The held list is emptied in `row_locks_release_all` only, which frees each entry. -/
def Locking.call (s : Locking W) (e : Event W) : Locking W × HaCode :=
  let (conn, r) := s.conn.step e
  (⟨conn, if heldOf conn.trx = [] then rowLocksReleaseAll s.table (heldOf s.conn.trx) else s.table⟩, r.code)

def otherClaim (table : LockTable) (n key : Nat) : LockTable :=
  match tdbLockFindOrCreate table key true with
  | some (table, entry) => if entry.ownerTxnId = 0 then table.at key (·.claim (.other n)) else table
  | none => table

def otherRelease (table : LockTable) (n : Nat) : LockTable :=
  table.map fun entry => if entry.ownerTrx = some (.other n) then entry.free else entry

def Locking.step (s : Locking W) : LockEvent W → Locking W × HaCode
  | .call (.rowLockAcquire key) => rowLockAcquire s key ⟨true, false⟩
  | .call e => s.call e
  | .acquire key answers => rowLockAcquire s key answers
  | .otherClaims n key => ({ s with table := otherClaim s.table n key }, .ok)
  | .otherReleases n => ({ s with table := otherRelease s.table n }, .ok)

def LockEvent.realHook (inTrx : Bool) : LockEvent W → Bool
  | .call (.commit all _) | .call (.rollback all _) => isReal inTrx all
  | _ => false

def Locking.Clean (s : Locking W) : Prop :=
  heldOf s.conn.trx = [] ∧ ∀ entry ∈ s.table, entry.ownerTrx ≠ some .this

/- The engine lets `get_or_create_trx` keep a transaction. -/
def TrxSurvives (trx : Option (Trx W)) (rcs : TrxRcs) : Prop :=
  ∀ x ∈ trx, x.needsReset = true → rcs.resetRc = .success ∨ rcs.beginRc = .success
  deriving Decidable

/-- The step does not part the connection from its engine transaction while it holds a row lock, and
takes none without one. -/
def HoldsUnderTxn (s : Locking W) : LockEvent W → Prop
  | .call (.rowLockAcquire _) | .acquire _ _ => attachedOf s.conn.trx = true
  | .call (.deleteAllRows _ _) | .call (.backupDir (.attempted _ _)) => heldOf s.conn.trx = []
  | .call (.startConsistentSnapshot _ rcs) | .call (.externalLock _ _ rcs) =>
    heldOf s.conn.trx = [] ∨ TrxSurvives s.conn.trx rcs
  | .call (.row h row) =>
    heldOf s.conn.trx = [] ∨
      ((s.conn.handlers h).stmtTxn = none → TrxSurvives s.conn.trx row.trxRcs) ∧
        (row.bulkReset = .success ∨ row.bulkBegin = .success)
  | _ => True

instance (s : Locking W) (e : LockEvent W) : Decidable (HoldsUnderTxn s e) := by
  apply LockEvent.casesOn (motive := fun e => Decidable (HoldsUnderTxn s e)) e
  · intro e
    apply Event.casesOn (motive := fun e => Decidable (HoldsUnderTxn s (.call e))) e
    case backupDir =>
      intro check
      apply BackupCheck.casesOn (motive := fun check => Decidable (HoldsUnderTxn s (.call (.backupDir check)))) check <;>
        intros <;> dsimp only [HoldsUnderTxn] <;> exact inferInstance
    all_goals intros; dsimp only [HoldsUnderTxn]; exact inferInstance
  all_goals intros; dsimp only [HoldsUnderTxn]; exact inferInstance

/- Every entry of this connection is on its list, and one that holds a lock has an engine
transaction. -/
structure LocksListed (s : Locking W) : Prop where
  listed : ∀ entry ∈ s.table, entry.ownerTrx = some .this → entry.key ∈ heldOf s.conn.trx
  attached : heldOf s.conn.trx ≠ [] → attachedOf s.conn.trx = true

/- The table: what an entry of this connection was before a change. -/

variable {table : LockTable} {key : Nat} {entry : RowLock} {trx : Option (Trx W)} {s : Locking W} {hook : LockEvent W}

theorem owned_of_at (change : RowLock → RowLock) (keys : ∀ old, (change old).key = old.key)
    (mem : entry ∈ table.at key change) (owned : entry.ownerTrx = some .this) :
    entry ∈ table ∨ (entry.key = key ∧ ∃ old ∈ table, entry = change old) := by
  obtain ⟨old, present, rfl⟩ := mem_map.mp mem
  by_cases same : old.key = key
  · rw [if_pos same]
    exact .inr ⟨(keys old).trans same, old, present, rfl⟩
  · rw [if_neg same]
    exact .inl present

theorem owned_of_release {held : List Nat} (mem : entry ∈ rowLocksReleaseAll table held)
    (owned : entry.ownerTrx = some .this) : entry ∈ table ∧ entry.key ∉ held := by
  induction held generalizing table with
  | nil => exact ⟨mem, not_mem_nil⟩
  | cons key rest ih =>
    obtain ⟨present, outside⟩ := ih mem
    obtain ⟨old, before, changed⟩ := mem_map.mp present
    by_cases same : old.key = key
    · rw [if_pos same] at changed
      rw [← changed] at owned
      cases owned
    · rw [if_neg same] at changed
      subst changed
      exact ⟨before, by simp [same, outside]⟩

theorem owned_of_findOrCreate {table after : LockTable} {malloc : Bool} {found entry : RowLock}
    (ready : tdbLockFindOrCreate table key malloc = some (after, found)) (mem : entry ∈ after)
    (owned : entry.ownerTrx = some .this) : entry ∈ table := by
  unfold tdbLockFindOrCreate at ready
  split at ready
  · cases ready
    exact mem
  · split at ready
    · cases ready
      cases mem_cons.mp mem with
      | inl fresh => rw [fresh] at owned; cases owned
      | inr present => exact present
    · cases ready

theorem owned_of_otherClaim {n key : Nat}
    (mem : entry ∈ otherClaim table n key) (owned : entry.ownerTrx = some .this) : entry ∈ table := by
  unfold otherClaim at mem
  cases ready : tdbLockFindOrCreate table key true with
  | none => rw [ready] at mem; exact mem
  | some pair =>
    obtain ⟨after, found⟩ := pair
    rw [ready] at mem
    dsimp only at mem
    split at mem
    · obtain present | ⟨-, old, -, rfl⟩ := owned_of_at (·.claim (.other n)) (fun _ => rfl) mem owned
      · exact owned_of_findOrCreate ready present owned
      · cases owned
    · exact owned_of_findOrCreate ready mem owned

theorem owned_of_otherRelease {n : Nat}
    (mem : entry ∈ otherRelease table n) (owned : entry.ownerTrx = some .this) : entry ∈ table := by
  obtain ⟨old, present, changed⟩ := mem_map.mp mem
  split at changed
  · rw [← changed] at owned
    cases owned
  · rwa [← changed]

/- The connection: row functions leave the held list alone, and the hooks that touch it
empty it. -/

theorem getOrCreateTrx_held (e : Engine W) (trx : Option (Trx W)) (iso : Isolation) (rcs : TrxRcs) :
    heldOf (getOrCreateTrx e trx iso rcs).2.1 = heldOf trx := by
  cases trx with
  | none =>
    simp only [getOrCreateTrx]
    split
    · split <;> rfl
    · rfl
  | some x =>
    cases live : x.txn with
    | none =>
      simp only [getOrCreateTrx, live]
      split <;> rfl
    | some t =>
      simp only [getOrCreateTrx, live]
      split
      · split
        · rfl
        · split <;> rfl
      · rfl

section
variable (c : Conn W) (h : Nat) (metaCalls : List (EngineCall W)) (call : RowCall W)
  (puts : EngineTxn W → EngineTxn W × List W × Rc) (e : Engine W) (iso : Isolation) (rcs : TrxRcs)

theorem getOrCreateTrx_attached {rcs : TrxRcs} (attached : attachedOf trx = true) (survives : TrxSurvives trx rcs) :
    attachedOf (getOrCreateTrx e trx iso rcs).2.1 = true := by
  cases trx with
  | none => cases attached
  | some x =>
    cases live : x.txn with
    | none => rw [attachedOf, bind_some, live] at attached; cases attached
    | some t =>
      simp only [getOrCreateTrx, live]
      split
      · rename_i flagged
        split
        · rfl
        · rename_i failed
          have begun := (survives x rfl flagged).resolve_left failed
          rw [if_neg (by simp [begun])]
          rfl
      · exact attached

theorem getOrCreate_held : heldOf (c.getOrCreate iso rcs).1.trx = heldOf c.trx :=
  getOrCreateTrx_held c.engine c.trx iso rcs

theorem externalLock_trx : (c.externalLock h iso rcs).1.trx = (c.getOrCreate iso rcs).1.trx := by
  unfold externalLock
  dsimp only
  split <;> rfl

theorem ensureStmtTxn_trx : (c.ensureStmtTxn h iso rcs).1.trx =
      if (c.handlers h).stmtTxn.isSome then c.trx else (c.getOrCreate iso rcs).1.trx := by
  unfold ensureStmtTxn
  split
  · rfl
  · dsimp only
    split <;> rfl

theorem markDirty_locks :
    heldOf (c.markDirty h).trx = heldOf c.trx ∧ attachedOf (c.markDirty h).trx = attachedOf c.trx := by
  unfold markDirty
  split
  · cases trx : c.trx <;> simp [heldOf, attachedOf]
  · exact ⟨rfl, rfl⟩

theorem throughStmtTxn_locks : heldOf (c.throughStmtTxn h puts).1.trx = heldOf c.trx ∧
      (attachedOf c.trx = true → attachedOf (c.throughStmtTxn h puts).1.trx = true) := by
  rcases throughStmtTxn_cases c h puts with same | ⟨x, t, held, -, done⟩
  · rw [same]
    exact ⟨rfl, id⟩
  · rw [done, held]
    exact ⟨rfl, fun _ => rfl⟩

theorem maybeBulkCommit_locks : heldOf (c.maybeBulkCommit h call).1.trx = heldOf c.trx ∧
      (call.bulkReset = .success ∨ call.bulkBegin = .success → attachedOf c.trx = true →
        attachedOf (c.maybeBulkCommit h call).1.trx = true) := by
  rcases maybeBulkCommit_cases c h call with same | ⟨x, t, held, -, outcome⟩
  · rw [same]
    exact ⟨rfl, fun _ => id⟩
  rw [held]
  rcases outcome with ⟨rc, t', -, -, refused⟩ | ⟨ws, -, ⟨unreset, unbegun, lost⟩ | ⟨t', handlers, -, -, renewed⟩⟩
  · rw [refused]
    exact ⟨rfl, fun _ _ => rfl⟩
  · rw [lost]
    exact ⟨rfl, fun answers => absurd (answers.resolve_left unreset) unbegun⟩
  · rw [renewed]
    exact ⟨rfl, fun _ _ => rfl⟩

theorem bulkTail_locks : heldOf (c.bulkTail h call).1.trx = heldOf c.trx ∧
      (call.bulkReset = .success ∨ call.bulkBegin = .success → attachedOf c.trx = true →
        attachedOf (c.bulkTail h call).1.trx = true) := by
  rcases bulkTail_cases c h call with ⟨handlers, same⟩ | ⟨before, handlers, flushed⟩
  · rw [same]
    exact ⟨rfl, fun _ => id⟩
  · rw [flushed]
    exact maybeBulkCommit_locks { c with handlers := before } h call

theorem ensureStmtTxn_locks : heldOf (c.ensureStmtTxn h iso rcs).1.trx = heldOf c.trx ∧
      (((c.handlers h).stmtTxn = none → TrxSurvives c.trx rcs) → attachedOf c.trx = true →
        attachedOf (c.ensureStmtTxn h iso rcs).1.trx = true) := by
  rw [ensureStmtTxn_trx]
  split
  · exact ⟨rfl, fun _ => id⟩
  · rename_i unset
    refine ⟨getOrCreate_held c iso rcs, fun survives attached => ?_⟩
    exact getOrCreateTrx_attached c.engine iso attached (survives (by simpa using unset))

theorem rowOp_locks : heldOf (c.rowOp h call).1.trx = heldOf c.trx ∧
      (((c.handlers h).stmtTxn = none → TrxSurvives c.trx call.trxRcs) →
        call.bulkReset = .success ∨ call.bulkBegin = .success → attachedOf c.trx = true →
        attachedOf (c.rowOp h call).1.trx = true) := by
  have ensured := ensureStmtTxn_locks c h call.iso call.trxRcs
  have marked := markDirty_locks (c.ensureStmtTxn h call.iso call.trxRcs).1 h
  have put := throughStmtTxn_locks ((c.ensureStmtTxn h call.iso call.trxRcs).1.markDirty h) h (putAll · call.calls)
  unfold rowOp
  split
  · exact ⟨rfl, fun _ _ => id⟩
  dsimp only
  split
  · exact ⟨ensured.1, fun survives _ => ensured.2 survives⟩
  split
  · exact ⟨marked.1.trans ensured.1, fun survives _ attached =>
      marked.2.trans (ensured.2 survives attached)⟩
  split
  · exact ⟨put.1.trans (marked.1.trans ensured.1), fun survives _ attached =>
      put.2 (marked.2.trans (ensured.2 survives attached))⟩
  · have tail := bulkTail_locks (((c.ensureStmtTxn h call.iso call.trxRcs).1.markDirty h).throughStmtTxn h
      (putAll · call.calls)).1 h call
    exact ⟨tail.1.trans (put.1.trans (marked.1.trans ensured.1)), fun survives answers attached =>
      tail.2 answers (put.2 (marked.2.trans (ensured.2 survives attached)))⟩

theorem endBulkInsert_locks : heldOf (c.endBulkInsert h metaCalls).1.trx = heldOf c.trx ∧
      (attachedOf c.trx = true → attachedOf (c.endBulkInsert h metaCalls).1.trx = true) := by
  unfold endBulkInsert
  dsimp only
  split
  · exact throughStmtTxn_locks (c.setHandler h _) h (putEach · metaCalls)
  · exact ⟨rfl, id⟩

end

/-- A function of the connection empties the list, or leaves both the list and the
engine transaction in place. -/
def LocksKept (before after : Option (Trx W)) : Prop :=
  heldOf after = [] ∨ heldOf after = heldOf before ∧ (attachedOf before = true → attachedOf after = true)

theorem locksKept_refl (trx : Option (Trx W)) : LocksKept trx trx := .inr ⟨rfl, id⟩

theorem tidesdbPrepare_locks (e : Engine W) (trx : Option (Trx W)) (inTrx all : Bool) (xid : Xid)
    (answer : WriteRc) : LocksKept trx (tidesdbPrepare e trx inTrx all xid answer).2.1 := by
  rcases attached_cases trx with idle | ⟨x, t, rfl, attached⟩
  · rw [tidesdbPrepare_idle idle]
    exact locksKept_refl _
  simp only [tidesdbPrepare, attached]
  split
  · exact locksKept_refl _
  split
  · exact locksKept_refl _
  split
  · exact .inl rfl
  split
  · exact .inl rfl
  · exact .inr ⟨rfl, fun _ => rfl⟩

theorem tidesdbCommit_locks (e : Engine W) {x : Trx W} {t : EngineTxn W} (inTrx all : Bool)
    (answer : WriteRc) (live : x.txn = some t) : LocksKept (some x) (tidesdbCommit e (some x) inTrx all answer).2.1 ∧
      (isReal inTrx all = true → (tidesdbCommit e (some x) inTrx all answer).2.2 = .ok →
        heldOf (tidesdbCommit e (some x) inTrx all answer).2.1 = []) := by
  cases real : isReal inTrx all with
  | false =>
    simp only [tidesdbCommit, live, real, Bool.not_false, if_true]
    exact ⟨locksKept_refl _, fun h => absurd h Bool.false_ne_true⟩
  | true =>
    simp only [tidesdbCommit, live, real, Bool.not_true, Bool.false_eq_true, if_false]
    cases phase : t.phase with
    | committed | aborted => exact ⟨.inl rfl, fun _ _ => rfl⟩
    | prepared ws =>
      dsimp only
      split
      · rename_i failed
        exact ⟨.inr ⟨rfl, fun _ => rfl⟩, fun _ zero => absurd ((tdbRcToHa_eq_ok _).mp zero) failed⟩
      · exact ⟨.inl rfl, fun _ _ => rfl⟩
    | active ws =>
      dsimp only
      split
      · split <;> exact ⟨.inl rfl, fun _ _ => rfl⟩
      · exact ⟨.inl rfl, fun _ _ => rfl⟩

theorem tidesdbRollback_locks (e : Engine W) {x : Trx W} {t : EngineTxn W} (rc : Rc)
    (live : x.txn = some t) : heldOf (tidesdbRollback e (some x) rc).2.1 = [] := by
  obtain ⟨e', t', ending, -, -⟩ := tidesdbRollback_end e rc live
  rw [ending]
  rfl

theorem discardTxn_held (generations : Nat) (e : Engine W) (trx : Option (Trx W)) :
    heldOf (discardTxn generations e trx).2 = heldOf trx := by
  rcases attached_cases trx with idle | ⟨x, t, rfl, attached⟩
  · rw [discardTxn_idle idle]
  simp only [discardTxn, attached]
  rfl

theorem flush_locks (e : Engine W) (trx : Option (Trx W)) (answer : WriteRc) :
    LocksKept trx (flushEngineTxnBeforeCfMutation e trx answer).2 := by
  rcases attached_cases trx with idle | ⟨x, t, rfl, attached⟩
  · rw [flush_idle idle]
    exact locksKept_refl _
  simp only [flushEngineTxnBeforeCfMutation, attached]
  exact .inl rfl

theorem locksKept_of_free {before after : Option (Trx W)} (same : heldOf after = heldOf before)
    (free : heldOf before = []) : LocksKept before after := .inl (same.trans free)

theorem tidesdbCommit_kept (e : Engine W) (trx : Option (Trx W)) (inTrx all : Bool) (answer : WriteRc) :
    LocksKept trx (tidesdbCommit e trx inTrx all answer).2.1 := by
  rcases attached_cases trx with idle | ⟨x, t, rfl, attached⟩
  · rw [tidesdbCommit_idle idle]
    exact locksKept_refl _
  exact (tidesdbCommit_locks e inTrx all answer attached).1

theorem tidesdbRollback_kept (e : Engine W) (trx : Option (Trx W)) (rc : Rc) :
    LocksKept trx (tidesdbRollback e trx rc).2.1 := by
  rcases attached_cases trx with idle | ⟨x, t, rfl, attached⟩
  · rw [tidesdbRollback_idle idle]
    exact locksKept_refl _
  exact .inl (tidesdbRollback_locks e rc attached)

theorem step_locksKept (s : Locking W) (e : Event W) (plain : ∀ key, e ≠ .rowLockAcquire key)
    (holds : HoldsUnderTxn s (.call e)) : LocksKept s.conn.trx (s.conn.step e).1.trx := by
  cases e with
  | startConsistentSnapshot iso rcs =>
    have same := getOrCreate_held s.conn iso rcs
    cases holds with
    | inl free => exact locksKept_of_free same free
    | inr survives => exact .inr ⟨same, fun on => getOrCreateTrx_attached s.conn.engine iso on survives⟩
  | externalLock h iso rcs =>
    have same := getOrCreate_held s.conn iso rcs
    rw [← externalLock_trx s.conn h] at same
    cases holds with
    | inl free => exact locksKept_of_free same free
    | inr survives =>
      refine .inr ⟨same, fun on => ?_⟩
      have kept := getOrCreateTrx_attached s.conn.engine iso on survives
      exact (congrArg attachedOf (externalLock_trx s.conn h iso rcs)).trans kept
  | endBulkInsert h metaCalls => exact .inr (endBulkInsert_locks s.conn h metaCalls)
  | row h call =>
    have kept := rowOp_locks s.conn h call
    cases holds with
    | inl free => exact locksKept_of_free kept.1 free
    | inr answers => exact .inr ⟨kept.1, kept.2 answers.1 answers.2⟩
  | rowLockAcquire key => exact absurd rfl (plain key)
  | prepare all xid answer => exact tidesdbPrepare_locks s.conn.engine s.conn.trx s.conn.inTrx all xid answer
  | commit all answer => exact tidesdbCommit_kept s.conn.engine s.conn.trx s.conn.inTrx all answer
  | rollback all rc => exact tidesdbRollback_kept s.conn.engine s.conn.trx rc
  | closeConnection => exact .inl rfl
  | deleteAllRows h result => exact locksKept_of_free (discardTxn_held 0 s.conn.engine s.conn.trx) holds
  | backupDir check =>
    cases check with
    | cleared | rejected => exact locksKept_refl _
    | attempted destinationEmpty rc =>
      exact locksKept_of_free (discardTxn_held 1 s.conn.engine s.conn.trx) holds
  | flushBeforeCfMutation answer => exact flush_locks s.conn.engine s.conn.trx answer
  | _ => exact locksKept_refl _

theorem call_listed {e : Event W} (inv : LocksListed s)
    (kept : LocksKept s.conn.trx (s.conn.step e).1.trx) : LocksListed (s.call e).1 := by
  by_cases empty : heldOf (s.conn.step e).1.trx = []
  · have table : (s.call e).1.table = rowLocksReleaseAll s.table (heldOf s.conn.trx) := if_pos empty
    refine ⟨fun entry mem owned => ?_, fun held => absurd empty held⟩
    rw [table] at mem
    obtain ⟨present, outside⟩ := owned_of_release mem owned
    exact absurd (inv.listed entry present owned) outside
  · have table : (s.call e).1.table = s.table := if_neg empty
    obtain ⟨same, on⟩ := kept.resolve_left empty
    refine ⟨fun entry mem owned => ?_, fun held => ?_⟩
    · rw [table] at mem
      exact same ▸ inv.listed entry mem owned
    · exact on (inv.attached (same ▸ held))

theorem rowLockAcquire_listed {answers : LockAnswers} (inv : LocksListed s)
    (on : attachedOf s.conn.trx = true) : LocksListed (rowLockAcquire s key answers).1 := by
  cases trx : s.conn.trx with
  | none => rw [trx] at on; cases on
  | some x =>
    cases ready : tdbLockFindOrCreate s.table key answers.malloc with
    | none =>
      simp only [rowLockAcquire, trx, ready]
      exact inv
    | some pair =>
      obtain ⟨table, found⟩ := pair
      have unclaimed : LocksListed { s with table := table } :=
        ⟨fun entry mem owned => inv.listed entry (owned_of_findOrCreate ready mem owned) owned, inv.attached⟩
      simp only [rowLockAcquire, trx, ready]
      split
      · exact unclaimed
      split
      · have listing : heldOf (s.conn.step (.rowLockAcquire key)).1.trx = key :: heldOf s.conn.trx := by
          simp [step, heldOf, trx]
        have still : attachedOf (s.conn.step (.rowLockAcquire key)).1.trx = attachedOf s.conn.trx := by
          simp [step, attachedOf, trx]
        refine ⟨fun entry mem owned => ?_, fun _ => still.trans on⟩
        rw [listing]
        obtain present | ⟨same, -⟩ := owned_of_at (·.claim .this) (fun _ => rfl) mem owned
        · exact mem_cons_of_mem key (unclaimed.listed entry present owned)
        · exact same ▸ mem_cons_self
      · exact unclaimed

theorem step_listed (s : Locking W) (e : LockEvent W) (inv : LocksListed s) (holds : HoldsUnderTxn s e) :
    LocksListed (s.step e).1 := by
  cases e with
  | call e =>
    cases e with
    | rowLockAcquire key => exact rowLockAcquire_listed inv holds
    | _ => exact call_listed inv (step_locksKept s _ (fun _ => nofun) holds)
  | acquire key answers => exact rowLockAcquire_listed inv holds
  | otherClaims n key =>
    exact ⟨fun entry mem owned => inv.listed entry (owned_of_otherClaim mem owned) owned, inv.attached⟩
  | otherReleases n =>
    exact ⟨fun entry mem owned => inv.listed entry (owned_of_otherRelease mem owned) owned, inv.attached⟩

theorem LocksListed.free (inv : LocksListed s) (idle : s.conn.trx.bind Trx.txn = none) : heldOf s.conn.trx = [] := by
  by_contra held
  have attached := inv.attached held
  rw [attachedOf, idle] at attached
  cases attached

theorem realHook_cases {inTrx : Bool} (real : hook.realHook inTrx = true) :
    (∃ all answer, hook = .call (.commit all answer) ∧ isReal inTrx all = true) ∨
      ∃ all rc, hook = .call (.rollback all rc) := by
  cases hook with
  | call e =>
    cases e with
    | commit all answer => exact .inl ⟨all, answer, rfl, real⟩
    | rollback all rc => exact .inr ⟨all, rc, rfl⟩
    | _ => cases real
  | _ => cases real

theorem realHook_empties (inv : LocksListed s) (real : hook.realHook s.conn.inTrx = true)
    (zero : (s.step hook).2 = .ok) : heldOf (s.step hook).1.conn.trx = [] := by
  obtain ⟨all, answer, rfl, final⟩ | ⟨all, rc, rfl⟩ := realHook_cases real
  · change (tidesdbCommit s.conn.engine s.conn.trx s.conn.inTrx all answer).2.2 = .ok at zero
    change heldOf (tidesdbCommit s.conn.engine s.conn.trx s.conn.inTrx all answer).2.1 = []
    rcases attached_cases s.conn.trx with idle | ⟨x, t, present, attached⟩
    · rw [tidesdbCommit_idle idle]
      exact inv.free idle
    · rw [present] at zero ⊢
      exact (tidesdbCommit_locks s.conn.engine s.conn.inTrx all answer attached).2 final zero
  · change heldOf (tidesdbRollback s.conn.engine s.conn.trx rc).2.1 = []
    rcases attached_cases s.conn.trx with idle | ⟨x, t, present, attached⟩
    · rw [tidesdbRollback_idle idle]
      exact inv.free idle
    · rw [present]
      exact tidesdbRollback_locks s.conn.engine rc attached

theorem realHook_holds (real : hook.realHook s.conn.inTrx = true) : HoldsUnderTxn s hook := by
  obtain ⟨all, answer, rfl, -⟩ | ⟨all, rc, rfl⟩ := realHook_cases real <;> trivial

def Locking.opened (table : LockTable) (committed : List W) (nextId : Nat) (handlers : Nat → Handler)
    (recovery : Recovery (EngineTxn W)) : Locking W :=
  ⟨Conn.opened committed nextId handlers recovery, table⟩

theorem opened_listed (foreign : ∀ entry ∈ table, entry.ownerTrx ≠ some .this)
    (committed : List W) (nextId : Nat) (handlers : Nat → Handler) (recovery : Recovery (EngineTxn W)) :
    LocksListed (Locking.opened table committed nextId handlers recovery) :=
  ⟨fun entry mem owned => absurd owned (foreign entry mem), fun held => absurd rfl held⟩

/-- As long as no step takes the engine transaction from under the locks, a final hook
that answers zero leaves none. -/
theorem row_locks_end_with_transaction (table : LockTable)
    (foreign : ∀ entry ∈ table, entry.ownerTrx ≠ some .this) (committed : List W) (nextId : Nat)
    (handlers : Nat → Handler) (recovery : Recovery (EngineTxn W)) (events : List (LockEvent W)) (hook : LockEvent W)
    (holds : Along Locking.step HoldsUnderTxn (Locking.opened table committed nextId handlers recovery) events) :
    let s := run Locking.step (Locking.opened table committed nextId handlers recovery) events
    hook.realHook s.conn.inTrx = true → (s.step hook).2 = .ok → (s.step hook).1.Clean := by
  intro s real zero
  have inv : LocksListed s :=
    run_invariant Locking.step LocksListed step_listed (opened_listed foreign committed nextId handlers recovery) holds
  have empty := realHook_empties inv real zero
  refine ⟨empty, fun entry mem owned => ?_⟩
  have listed := (step_listed s hook inv (realHook_holds real)).listed entry mem owned
  rw [empty] at listed
  exact not_mem_nil listed

/- BEGIN, then a locking read of one row while another connection holds a second one. -/
def lockingRead : List (LockEvent Nat) :=
  [.call (.options true), .call (.externalLock 0 .readCommitted .good), .acquire 7 ⟨true, false⟩,
    .otherClaims 1 8, .acquire 8 ⟨true, false⟩, .call (.externalUnlock 0)]

def lockingStart : Locking Nat := Locking.opened [] [] 0 (fun _ => Handler.opened 0) (.start [])

theorem row_locks_end_with_transaction_read : heldOf (run Locking.step lockingStart lockingRead).conn.trx = [7] ∧
    ((run Locking.step lockingStart lockingRead).step (.call (.commit true ⟨.success, false⟩))).1.Clean :=
  ⟨by decide, row_locks_end_with_transaction [] (by decide) [] 0 (fun _ => Handler.opened 0) (.start []) lockingRead
      (.call (.commit true ⟨.success, false⟩)) (by decide) (by decide) (by decide)⟩

/-- A backup inside the transaction: COMMIT answers zero, and no other connection can claim the
row. -/
theorem lock_outlives_backup :
    let s := run Locking.step lockingStart (lockingRead ++ [.call (.backupDir (.attempted true .success))])
    let ended := s.step (.call (.commit true ⟨.success, false⟩))
    (LockEvent.call (W := Nat) (.commit true ⟨.success, false⟩)).realHook s.conn.inTrx = true ∧
    ended.2 = .ok ∧ heldOf ended.1.conn.trx = [7] ∧
    ⟨7, lockTxnId, some .this⟩ ∈ ended.1.table ∧
    (ended.1.step (.otherClaims 1 7)).1.table = ended.1.table := by
  decide

end TidesdbMysql
