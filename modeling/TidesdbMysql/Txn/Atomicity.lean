import TidesdbMysql.Txn.NoLoss

/-! What a rollback undoes. A statement-level rollback is a rollback of the whole
transaction, and a bulk statement commits a batch whenever enough operations have
been buffered: both are written down in the source as decisions. -/
namespace TidesdbMysql
open Base List Conn Handler

variable {W : Type}

/-- The calls a transaction's statements are made of, the ends of failed and of
successful statements included. -/
def InStatements (c : Conn W) : Event W → Prop
  | .commit all _ => isReal c.inTrx all = false
  | .options _ | .prepare _ _ _ | .closeConnection | .deleteAllRows _ _ | .backupDir _
  | .flushBeforeCfMutation _ | .commitByXid _ _ | .rollbackByXid _ _ => False
  | _ => True

instance (c : Conn W) (e : Event W) : Decidable (InStatements c e) := by
  apply Event.casesOn (motive := fun e => Decidable (InStatements c e)) e <;>
    intros <;> dsimp only [InStatements] <;> exact inferInstance

def flushedAlong (c : Conn W) (es : List (Event W)) : List W :=
  (results Conn.step c es).flatMap Result.flushed

theorem statementCommit_same (e : Engine W) (trx : Option (Trx W)) {inTrx all : Bool} (answer : WriteRc)
    (statement : isReal inTrx all = false) : tidesdbCommit e trx inTrx all answer = (e, trx, .ok) := by
  cases trx with
  | none => rfl
  | some x => cases attached : x.txn <;> simp [tidesdbCommit, attached, statement]

theorem step_committed (c : Conn W) (e : Event W) (inside : InStatements c e) :
    (c.step e).1.engine.committed = c.engine.committed ++ (c.step e).2.flushed := by
  cases e with
  | startConsistentSnapshot | externalLock => simp [step, answer]
  | endBulkInsert h metaCalls => exact endBulkInsert_committed c h metaCalls
  | row h call => exact rowOp_committed c h call
  | commit all rc =>
    have same := statementCommit_same c.engine c.trx rc inside
    simp [step, same, answer]
  | rollback all rc =>
    exact (tidesdbRollback_committed c.engine c.trx rc).trans (append_nil _).symm
  | options | prepare | closeConnection | deleteAllRows | backupDir | flushBeforeCfMutation | commitByXid
    | rollbackByXid => exact inside.elim
  | _ => exact (append_nil _).symm

variable {c : Conn W} {es : List (Event W)}

theorem run_committed (inside : Along Conn.step InStatements c es) :
    (run Conn.step c es).engine.committed = c.engine.committed ++ flushedAlong c es :=
  run_accumulates step (fun _ => True) (fun _ _ _ _ => trivial)
    (fun c => c.engine.committed) Result.flushed (fun c e _ inside => step_committed c e inside) trivial inside

/- The operation counter. -/

def BelowBatch (c : Conn W) : Event W → Prop
  | .row h call => (c.handlers h).inBulk call.kind = true →
    (c.handlers h).bulkInsertOps + 1 + (c.handlers h).numSecondaryIndexes < tidesdbBulkInsertBatchOps
  | _ => True

def Handler.batch (handler : Handler) : Handler := { handler with stmtTxn := none }

theorem ensureStmtTxn_batch (c : Conn W) (h : Nat) (iso : Isolation) (rcs : TrxRcs) :
    ((c.ensureStmtTxn h iso rcs).1.handlers h).batch = (c.handlers h).batch := by
  unfold ensureStmtTxn
  dsimp only
  split
  · rfl
  · split
    · simp [batch, getOrCreate]
    · rfl

theorem inBulk_of_batch {a b : Handler} (same : a.batch = b.batch) (kind : RowKind) :
    a.inBulk kind = b.inBulk kind ∧ a.bulkInsertOps = b.bulkInsertOps ∧
    a.numSecondaryIndexes = b.numSecondaryIndexes := by
  simp only [Handler.batch, Handler.mk.injEq] at same
  obtain ⟨-, -, insert, delete, ops, indexes⟩ := same
  refine ⟨?_, ops, indexes⟩
  cases kind <;> simp [Handler.inBulk, insert, delete]

theorem bulkTail_below {h : Nat} {call : RowCall W} (below : BelowBatch c (.row h call)) :
    (c.bulkTail h call).2.flushed = [] := by
  unfold bulkTail
  split
  · rename_i bulk
    have short := below bulk
    rw [if_neg (by omega)]
    rfl
  · rfl

theorem rowOp_below {h : Nat} {call : RowCall W} (below : BelowBatch c (.row h call)) :
    (c.rowOp h call).2.flushed = [] := by
  unfold rowOp
  split
  · rfl
  dsimp only
  split
  · rfl
  split
  · rfl
  split
  · exact (throughStmtTxn_engine _ h _).2
  · refine bulkTail_below fun bulk => ?_
    simp only [throughStmtTxn_handlers, markDirty_handlers] at bulk ⊢
    obtain ⟨kind, ops, indexes⟩ :=
      inBulk_of_batch (ensureStmtTxn_batch c h call.iso call.trxRcs) call.kind
    rw [ops, indexes]
    exact below (kind ▸ bulk)

theorem step_below (c : Conn W) (e : Event W) (below : BelowBatch c e) : (c.step e).2.flushed = [] := by
  cases e with
  | row h call => exact rowOp_below below
  | endBulkInsert h metaCalls =>
    simp only [step, endBulkInsert]
    split
    · exact (throughStmtTxn_engine _ h _).2
    · rfl
  | _ => rfl

theorem run_below (below : Along Conn.step BelowBatch c es) : flushedAlong c es = [] := by
  have quiet := run_accumulates step (fun _ => True) (fun _ _ _ _ => trivial)
    (fun _ => []) Result.flushed (fun c e _ below => (step_below c e below).symm) trivial below
  exact quiet.symm

/- Where the flushed writes come from. -/

section
variable (c) (h : Nat) (metaCalls : List (EngineCall W)) (call : RowCall W) (e : Engine W) (trx : Option (Trx W))
  (rc : Rc) (iso : Isolation) (rcs : TrxRcs)

theorem getOrCreateTrx_pending : (pendingOf (getOrCreateTrx e trx iso rcs).2.1).Sublist (pendingOf trx) := by
  cases trx with
  | none =>
    simp only [getOrCreateTrx]
    split
    · split <;> exact nil_sublist _
    · exact nil_sublist _
  | some x =>
    cases attached : x.txn with
    | none =>
      simp only [getOrCreateTrx, attached]
      split
      · exact List.Sublist.refl _
      · exact nil_sublist _
    | some t =>
      simp only [getOrCreateTrx, attached]
      split
      · split
        · exact nil_sublist _
        · split <;> exact nil_sublist _
      · exact List.Sublist.refl _

theorem ensureStmtTxn_pending : (c.ensureStmtTxn h iso rcs).1.pending.Sublist c.pending := by
  unfold ensureStmtTxn
  dsimp only
  split
  · exact List.Sublist.refl _
  · split <;> exact getOrCreateTrx_pending c.engine c.trx iso rcs

theorem markDirty_pending : (c.markDirty h).pending = c.pending := by
  unfold markDirty
  split
  · cases held : c.trx <;> simp [pending, held, pendingOf]
  · rfl

theorem throughStmtTxn_pending {puts : EngineTxn W → EngineTxn W × List W × Rc}
    (extending : ∀ t, Extends t (puts t).1 (puts t).2.1) :
    (c.throughStmtTxn h puts).1.pending = c.pending ++ (c.throughStmtTxn h puts).2.buffered := by
  rcases throughStmtTxn_cases c h puts with same | ⟨x, t, held, attached, done⟩
  · simp [same, answer]
  · rw [done, pending, pending, held, pendingOf_attached attached, pendingOf_attached rfl, (extending t).buffer_eq]

theorem maybeBulkCommit_pending :
    ((c.maybeBulkCommit h call).2.flushed ++ (c.maybeBulkCommit h call).1.pending).Sublist c.pending := by
  rcases maybeBulkCommit_cases c h call with same | ⟨x, t, held, attached, outcome⟩
  · simp [same, answer]
  rw [show c.pending = t.buffer by rw [pending, held, pendingOf_attached attached]]
  rcases outcome with ⟨rc, t', -, rfl | rfl, refused⟩ | ⟨ws, active, ⟨-, -, lost⟩ | ⟨t', handlers, -, fresh, renewed⟩⟩
  · simp [refused, answer, pending, pendingOf]
  · simp [refused, answer, pending, pendingOf, EngineTxn.buffer]
  · simp [lost, pending, pendingOf, buffer_of_active active]
  · simp [renewed, pending, pendingOf, buffer_of_active active, buffer_of_active fresh]

theorem bulkTail_pending : ((c.bulkTail h call).2.flushed ++ (c.bulkTail h call).1.pending).Sublist c.pending := by
  rcases bulkTail_cases c h call with ⟨handlers, same⟩ | ⟨before, handlers, flushed⟩
  · rw [same]
    exact List.Sublist.refl _
  · rw [flushed]
    exact maybeBulkCommit_pending { c with handlers := before } h call

theorem rowOp_pending : ((c.rowOp h call).2.flushed ++ (c.rowOp h call).1.pending).Sublist
      (c.pending ++ (c.rowOp h call).2.buffered) := by
  have ensured := ensureStmtTxn_pending c h call.iso call.trxRcs
  have marked := markDirty_pending (c.ensureStmtTxn h call.iso call.trxRcs).1 h
  unfold rowOp
  split
  · simp [answer]
  dsimp only
  split
  · simpa [answer] using ensured
  split
  · simpa [answer, marked] using ensured
  have put := throughStmtTxn_pending ((c.ensureStmtTxn h call.iso call.trxRcs).1.markDirty h) h
    fun t => putAll_extends t call.calls
  split
  · rw [(throughStmtTxn_engine _ h _).2, put, marked]
    exact ensured.append_right _
  · refine (bulkTail_pending _ h call).trans ?_
    rw [put, marked]
    exact ensured.append_right _

theorem endBulkInsert_pending :
    ((c.endBulkInsert h metaCalls).2.flushed ++ (c.endBulkInsert h metaCalls).1.pending).Sublist
      (c.pending ++ (c.endBulkInsert h metaCalls).2.buffered) := by
  unfold endBulkInsert
  dsimp only
  split
  · rw [(throughStmtTxn_engine _ h _).2, throughStmtTxn_pending _ h fun t => putEach_extends t metaCalls]
    exact List.Sublist.refl _
  · simp [answer]

theorem tidesdbRollback_pending : (pendingOf (tidesdbRollback e trx rc).2.1).Sublist (pendingOf trx) := by
  cases trx with
  | none => exact nil_sublist _
  | some x =>
    cases attached : x.txn with
    | none => simp [tidesdbRollback, attached]
    | some t =>
      obtain ⟨e', t', ending, -, finished | ⟨rfl, -, -⟩⟩ := tidesdbRollback_end e rc attached
      · rw [ending, finish_pending x finished]
        exact nil_sublist _
      · rw [ending, pendingOf_attached attached]
        exact List.Sublist.refl _

theorem step_pending (e : Event W) (inside : InStatements c e) :
    ((c.step e).2.flushed ++ (c.step e).1.pending).Sublist (c.pending ++ (c.step e).2.buffered) := by
  cases e with
  | startConsistentSnapshot iso rcs =>
    simp only [step, answer, nil_append, append_nil]
    exact getOrCreateTrx_pending c.engine c.trx iso rcs
  | externalLock h iso rcs =>
    have shrinks := getOrCreateTrx_pending c.engine c.trx iso rcs
    simp only [step, answer, externalLock, nil_append, append_nil]
    split <;> exact shrinks
  | endBulkInsert h metaCalls => exact endBulkInsert_pending c h metaCalls
  | row h call => exact rowOp_pending c h call
  | rowLockAcquire key =>
    simp only [step, answer, pending, pendingOf, append_nil, nil_append]
    cases c.trx <;> exact List.Sublist.refl _
  | commit all rc =>
    have same := statementCommit_same c.engine c.trx rc inside
    simp [step, same, answer, pending]
  | rollback all rc =>
    simpa [step, answer, pending] using tidesdbRollback_pending c.engine c.trx rc
  | options | prepare | closeConnection | deleteAllRows | backupDir | flushBeforeCfMutation | commitByXid
    | rollbackByXid => exact inside.elim
  | _ => simp [step, answer]

end

theorem run_pending (inside : Along Conn.step InStatements c es) :
    (flushedAlong c es ++ (run Conn.step c es).pending).Sublist (c.pending ++ bufferedAlong c es) := by
  induction es generalizing c with
  | nil => simp [flushedAlong, bufferedAlong, results, run]
  | cons e rest ih =>
    have here := step_pending c e inside.1
    have later := ih inside.2
    simp only [flushedAlong, bufferedAlong, results, run, flatMap_cons] at later ⊢
    rw [append_assoc, ← append_assoc c.pending]
    refine (later.append_left _).trans ?_
    rw [← append_assoc]
    exact here.append_right _

/-- A rollback leaves what was committed before and the batches bulk mode committed on the way, none
while no row fills one. -/
theorem rollback_leaves_flushed_batches (c : Conn W) (es : List (Event W)) (all : Bool) (rc : Rc)
    (inside : Along Conn.step InStatements c es) :
    (run Conn.step c (es ++ [.rollback all rc])).engine.committed = c.engine.committed ++ flushedAlong c es ∧
    (flushedAlong c es).Sublist (c.pending ++ bufferedAlong c es) ∧
    (Along Conn.step BelowBatch c es → flushedAlong c es = []) := by
  refine ⟨?_, (sublist_append_left _ _).trans (run_pending inside), run_below⟩
  rw [run_append]
  exact (tidesdbRollback_committed _ _ rc).trans (run_committed inside)

def rowInsert (w : Nat) (refusal : Refusal) : Event Nat :=
  .row 0 ⟨.write, .readCommitted, .good, refusal, [⟨w, .success, true⟩], ⟨.success, false⟩, .success, .success⟩

/- A table with 63 FULLTEXT or SPATIAL indexes over empty columns: one engine write a row, 64
counted operations. -/
def bulkInsert (rows : List Nat) (refusal : Refusal) : List (Event Nat) :=
  [.externalLock 0 .readCommitted .good, .startBulkInsert 0] ++
    rows.map (rowInsert · .none) ++ [rowInsert 100 refusal, .endBulkInsert 0 []]

def wideStart : Conn Nat :=
  { Conn.opened [] 0 (fun _ => Handler.opened 63) (.start []) with inTrx := true }

theorem rollback_leaves_flushed_batches_wide :
    (run Conn.step wideStart (bulkInsert [1, 2] .none ++ [.rollback true .success])).engine.committed =
      flushedAlong wideStart (bulkInsert [1, 2] .none) :=
  (rollback_leaves_flushed_batches wideStart (bulkInsert [1, 2] .none) true .success (by decide)).1

/-- Eight rows fill a batch: neither ROLLBACK nor the failure of the statement's
last row takes them back. -/
theorem bulk_rows_survive_rollback : (run Conn.step wideStart
      (bulkInsert [1, 2, 3, 4, 5, 6, 7, 8] .none ++ [.rollback true .success])).engine.committed =
        [1, 2, 3, 4, 5, 6, 7, 8] ∧
    (run Conn.step wideStart (bulkInsert [1, 2, 3, 4, 5, 6, 7, 8] (.afterTxn .foundDuppKey) ++
        [.rollback false .success])).engine.committed = [1, 2, 3, 4, 5, 6, 7, 8] := by
  decide

/- Statements that fail. -/

def Event.isRollback : Event W → Bool
  | .rollback _ _ => true
  | _ => false

theorem discardsNothing_of_inStatements (c : Conn W) (e : Event W) (inside : InStatements c e)
    (kept : e.isRollback = false) : DiscardsNothing c e := by
  cases e <;> simp_all [DiscardsNothing, InStatements, Event.isRollback]

theorem along_discardsNothing (inside : Along Conn.step InStatements c es) (kept : ∀ e ∈ es, e.isRollback = false) :
    Along Conn.step DiscardsNothing c es := by
  induction es generalizing c with
  | nil => trivial
  | cons e rest ih =>
    rw [forall_mem_cons] at kept
    exact ⟨discardsNothing_of_inStatements c e inside.1 kept.1, ih inside.2 kept.2⟩

theorem rolledBack_pending {ss : List (Event W)} {rc : Rc} (sound : SoundTrx c.trx)
    (orderly : Along Conn.step Orderly c (ss ++ [.rollback false rc])) :
    (run Conn.step c (ss ++ [.rollback false rc])).pending = [] := by
  obtain ⟨first, last⟩ := (along_append step Orderly c ss _).mp orderly
  rw [run_append]
  exact (tidesdbRollback_sound _ (run_sound sound first) last.1.1).2

def Event.isVote : Event W → Bool
  | .prepare true _ _ => true
  | _ => false

theorem vote_step (c : Conn W) {e : Event W} (vote : e.isVote = true) :
    DiscardsNothing c e ∧ Orderly c e ∧ (c.step e).2.buffered = [] := by
  cases e with
  | prepare all xid rc => exact ⟨trivial, ⟨trivial, trivial⟩, rfl⟩
  | _ => simp [Event.isVote] at vote

theorem votes_run (c : Conn W) {votes : List (Event W)} (vote : ∀ e ∈ votes, e.isVote = true) :
    Along Conn.step DiscardsNothing c votes ∧ Along Conn.step Orderly c votes ∧ bufferedAlong c votes = [] := by
  induction votes generalizing c with
  | nil => exact ⟨trivial, trivial, rfl⟩
  | cons e rest ih =>
    rw [forall_mem_cons] at vote
    obtain ⟨keeps, orderly, empty⟩ := vote_step c vote.1
    obtain ⟨keepsRest, orderlyRest, emptyRest⟩ := ih (c.step e).1 vote.2
    refine ⟨⟨keeps, keepsRest⟩, ⟨orderly, orderlyRest⟩, ?_⟩
    simp only [bufferedAlong, results, flatMap_cons] at emptyRest ⊢
    rw [empty, emptyRest, append_nil]

def failingStmt : List (Event Nat) :=
  [.externalLock 0 .readCommitted .good, rowInsert 2 (.afterTxn .foundDuppKey), .rollback false .success]

end TidesdbMysql
