import TidesdbMysql.Txn.Laws

/-! Whether buffered writes can be lost in silence: which steps keep the reset flag
in step with the engine transaction, and what a successful commit then contains. -/
namespace TidesdbMysql
open Base List Conn

variable {W : Type}
variable {es : List (Event W)} {c : Conn W}

/-- The server's side: rows within `external_lock` and its release, statistics flushed after
rows. -/
def ServerContract (c : Conn W) : Event W → Prop
  | .row h _ => (c.handlers h).cachedTrx = true
  | .endBulkInsert _ metaCalls => metaCalls = [] ∨ ∀ x ∈ c.trx, x.dirty = true
  | _ => True

/-- No transaction is begun under a stale reset flag, and none is marked for a
reset that is still prepared. -/
def FlagsInStep (c : Conn W) : Event W → Prop
  | .startConsistentSnapshot _ _ | .externalLock _ _ _ => NoStaleFlag c.trx
  | .row h _ => (c.handlers h).stmtTxn = none → NoStaleFlag c.trx
  | .rollback _ rc => RollbackHeard c.trx rc
  | _ => True

def Orderly (c : Conn W) (e : Event W) : Prop := FlagsInStep c e ∧ ServerContract c e

instance [DecidableEq W] (c : Conn W) (e : Event W) : Decidable (Orderly c e) := by
  cases e <;> dsimp only [Orderly, FlagsInStep, ServerContract] <;> infer_instance

theorem step_sound (c : Conn W) (e : Event W) (sound : SoundTrx c.trx) (orderly : Orderly c e) :
    SoundTrx (c.step e).1.trx := by
  obtain ⟨flags, contract⟩ := orderly
  cases e with
  | startConsistentSnapshot iso rcs => exact (getOrCreate_kept c iso rcs sound flags).1
  | externalLock h iso rcs => exact (externalLock_kept c h iso rcs sound flags).1
  | endBulkInsert h metaCalls => exact (endBulkInsert_kept c h metaCalls sound contract).1
  | row h call => exact (rowOp_kept c h call sound flags contract).1
  | rowLockAcquire key =>
    intro y mem
    obtain ⟨x, held, rfl⟩ := Option.map_eq_some_iff.mp mem
    exact ⟨(sound x held).settled, (sound x held).covered⟩
  | prepare all xid answer => exact (tidesdbPrepare_sound c.engine c.inTrx all xid answer sound).1
  | commit all answer => exact (tidesdbCommit_sound c.engine c.inTrx all answer sound).1
  | rollback all rc => exact (tidesdbRollback_sound c.engine sound flags).1
  | closeConnection => exact soundTrx_none
  | deleteAllRows h result => exact (discardTxn_sound 0 c.engine sound).1
  | backupDir check =>
    cases check with
    | cleared | rejected => exact sound
    | attempted destinationEmpty rc => exact (discardTxn_sound 1 c.engine sound).1
  | flushBeforeCfMutation answer => exact (flush_sound c.engine answer sound).1
  | _ => exact sound

/-- The step discards no buffered write: no rollback, and no handle freed while it holds writes. -/
def DiscardsNothing (c : Conn W) : Event W → Prop
  | .deleteAllRows _ _ | .backupDir (.attempted _ _) => c.pending = []
  | .flushBeforeCfMutation answer => FlushHeard c.trx answer
  | .rollback _ _ | .closeConnection | .commitByXid _ _ | .rollbackByXid _ _ => False
  | _ => True

theorem step_written (c : Conn W) (e : Event W) (sound : SoundTrx c.trx) (orderly : Orderly c e)
    (keeps : DiscardsNothing c e) (succeeds : (c.step e).2.code = .ok) :
    (c.step e).1.written = c.written ++ (c.step e).2.buffered := by
  obtain ⟨flags, contract⟩ := orderly
  cases e with
  | options inTrx => simp [step, answer, written, pending]
  | startConsistentSnapshot iso rcs =>
    exact (getOrCreate_kept c iso rcs sound flags).2.trans (append_nil _).symm
  | externalLock h iso rcs =>
    exact (externalLock_kept c h iso rcs sound flags).2.trans (append_nil _).symm
  | endBulkInsert h metaCalls => exact (endBulkInsert_kept c h metaCalls sound contract).2
  | row h call => exact (rowOp_kept c h call sound flags contract).2 succeeds
  | rowLockAcquire key =>
    simp only [step, answer, written, pending, pendingOf, append_nil]
    cases c.trx <;> rfl
  | prepare all xid answer =>
    have kept := (tidesdbPrepare_sound c.engine c.inTrx all xid answer sound).2 succeeds
    have committed := tidesdbPrepare_committed c.engine c.trx c.inTrx all xid answer
    exact (congrArg₂ (· ++ ·) committed kept).trans (append_nil _).symm
  | commit all answer =>
    exact ((tidesdbCommit_sound c.engine c.inTrx all answer sound).2.1 succeeds).trans (append_nil _).symm
  | deleteAllRows h result =>
    obtain ⟨-, empty, committed⟩ := discardTxn_sound 0 c.engine sound
    exact (congrArg₂ (· ++ ·) committed (empty.trans keeps.symm)).trans (append_nil _).symm
  | backupDir check =>
    cases check with
    | cleared | rejected => exact (append_nil _).symm
    | attempted destinationEmpty rc =>
      obtain ⟨-, empty, committed⟩ := discardTxn_sound 1 c.engine sound
      exact (congrArg₂ (· ++ ·) committed (empty.trans keeps.symm)).trans (append_nil _).symm
  | flushBeforeCfMutation answer =>
    exact ((flush_sound c.engine answer sound).2 keeps).trans (append_nil _).symm
  | rollback | closeConnection | commitByXid | rollbackByXid => exact keeps.elim
  | _ => exact (append_nil _).symm

def Result.succeeded (r : Result W) : Prop := r.code = .ok
  deriving Decidable

def bufferedAlong (c : Conn W) (es : List (Event W)) : List W :=
  (results Conn.step c es).flatMap Result.buffered

theorem run_sound (sound : SoundTrx c.trx) (orderly : Along Conn.step Orderly c es) :
    SoundTrx (run Conn.step c es).trx :=
  run_invariant step (fun c => SoundTrx c.trx) step_sound sound orderly

theorem run_written (sound : SoundTrx c.trx) (orderly : Along Conn.step Orderly c es)
    (keeps : Along Conn.step DiscardsNothing c es) (succeeds : ∀ r ∈ results Conn.step c es, r.succeeded) :
    (run Conn.step c es).written = c.written ++ bufferedAlong c es :=
  run_accumulates step (fun c => SoundTrx c.trx) (fun c e sound ok => step_sound c e sound ok.1) written Result.buffered
    (fun c e sound ok => step_written c e sound ok.1 ok.2.1 ok.2.2) sound
    (along_and step orderly (along_and step keeps ((results_iff_along step _ _).mp succeeds)))

/-- What `get_or_create_trx` hands back when the transaction holds writes. -/
theorem getOrCreateTrx_untouched (e : Engine W) {trx : Option (Trx W)} (iso : Isolation) (rcs : TrxRcs)
    (sound : SoundTrx trx) (held : pendingOf trx ≠ []) : getOrCreateTrx e trx iso rcs = (e, trx, true) := by
  cases trx with
  | none => exact absurd rfl held
  | some x =>
    cases attached : x.txn with
    | none => exact absurd (pendingOf_detached attached) held
    | some t =>
      have unflagged : x.needsReset = false := by
        by_contra flagged
        have finished := (sound x rfl).settled (by simpa using flagged) t attached
        exact held ((pendingOf_attached attached).trans finished.buffer_eq)
      simp [getOrCreateTrx, attached, unflagged]

def insertStmt (w : Nat) : List (Event Nat) :=
  [.externalLock 0 .readCommitted .good,
    .row 0 ⟨.write, .readCommitted, .good, .none, [⟨w, .success, true⟩], ⟨.success, false⟩, .success, .success⟩,
    .commit false ⟨.success, false⟩,
    .externalUnlock 0]

def plainStart : Conn Nat := Conn.opened [] 0 (fun _ => Handler.opened 0) (.start [])

/- An autocommitted insert, a backup, then BEGIN and two more inserts. -/
def backupThenBegin : List (Event Nat) :=
  insertStmt 1 ++ [.backupDir (.attempted true .success), .options true]

def twoInserts : List (Event Nat) := insertStmt 2 ++ insertStmt 3

end TidesdbMysql
