import TidesdbMysql.Txn.Laws

/-! What the hooks of a connection, and the places that free its handle, can do to the engine transaction itself. -/
namespace TidesdbMysql
open Base Engine

variable {W : Type}

structure SameTxn (t t' : EngineTxn W) : Prop where
  handle : t'.handle = t.handle
  isolation : t'.isolation = t.isolation

section
variable (e : Engine W) (t : EngineTxn W) (rc : Rc) (answer : WriteRc)

theorem SameTxn.refl : SameTxn t t := ⟨rfl, rfl⟩

theorem txnRollback_same : (e.txnRollback t).1.nextId = e.nextId ∧ SameTxn t (e.txnRollback t).2 := by
  unfold txnRollback
  split
  · exact ⟨note_nextId e t .rollback, rfl, rfl⟩
  · exact ⟨note_nextId e t .rollback, rfl, rfl⟩
  all_goals exact ⟨rfl, rfl, rfl⟩

theorem Refused.same {t' : EngineTxn W} (refused : Refused t t') : SameTxn t t' := by
  rcases refused with rfl | ⟨-, rfl⟩ <;> exact ⟨rfl, rfl⟩

theorem txnCommit_same : (e.txnCommit t answer).1.nextId = e.nextId ∧ SameTxn t (e.txnCommit t answer).2.1 := by
  rcases txnCommit_cases e t answer with ⟨ws, -, -, done⟩ | ⟨rc, t', -, left, done⟩
  · rw [done]
    exact ⟨rfl, rfl, rfl⟩
  · rw [done]
    exact ⟨rfl, left.same⟩

theorem txnPrepare_same : (e.txnPrepare t answer).1.nextId = e.nextId ∧ SameTxn t (e.txnPrepare t answer).2.1 := by
  rcases txnPrepare_cases e t answer with ⟨ws, -, done⟩ | ⟨rc, t', -, left, done⟩
  · rw [done]
    exact ⟨rfl, rfl, rfl⟩
  · rw [done]
    exact ⟨rfl, left.same⟩

theorem txnCommitPrepared_same :
    (e.txnCommitPrepared t rc).1.nextId = e.nextId ∧ SameTxn t (e.txnCommitPrepared t rc).2.1 := by
  unfold txnCommitPrepared
  split
  · split <;> exact ⟨note_nextId e t _, rfl, rfl⟩
  · exact ⟨rfl, rfl, rfl⟩

theorem txnRollbackPrepared_same :
    (e.txnRollbackPrepared t rc).1.nextId = e.nextId ∧ SameTxn t (e.txnRollbackPrepared t rc).2.1 := by
  unfold txnRollbackPrepared
  split
  · split <;> exact ⟨note_nextId e t _, rfl, rfl⟩
  · exact ⟨rfl, rfl, rfl⟩

end

theorem Extends.same {t t' : EngineTxn W} {ws : List W} (longer : Extends t t' ws) : SameTxn t t' := by
  rcases longer with ⟨rfl, -⟩ | ⟨buffer, -, rfl⟩
  · exact SameTxn.refl _
  · exact ⟨rfl, rfl⟩

/-- What becomes of the transaction: nothing, freed, finished under its handle, or only its writes
touched. -/
inductive Hooked : Option (Trx W) → Option (Trx W) → Prop where
  | same (trx : Option (Trx W)) : Hooked trx trx
  | freed {trx : Option (Trx W)} {x : Trx W} (detached : x.txn = none) : Hooked trx (some x)
  | finished {x : Trx W} {t t' : EngineTxn W} (attached : x.txn = some t) (same : SameTxn t t') :
      Hooked (some x) (some (x.finish t'))
  | touched {x : Trx W} {t t' : EngineTxn W} (attached : x.txn = some t) (same : SameTxn t t') :
      Hooked (some x) (some { x with txn := some t' })

structure HookStep (e : Engine W) (trx : Option (Trx W)) (e' : Engine W) (trx' : Option (Trx W)) : Prop where
  names : e'.nextId = e.nextId
  hooked : Hooked trx trx'

theorem HookStep.idle (e : Engine W) (trx : Option (Trx W)) : HookStep e trx e trx := ⟨rfl, .same trx⟩

variable {e : Engine W} {trx : Option (Trx W)}

theorem tidesdbPrepare_hookStep (inTrx all : Bool) (xid : Xid) (answer : WriteRc) :
    HookStep e trx (tidesdbPrepare e trx inTrx all xid answer).1 (tidesdbPrepare e trx inTrx all xid answer).2.1 := by
  rcases attached_cases trx with idle | ⟨x, t, rfl, attached⟩
  · rw [tidesdbPrepare_idle idle]
    exact HookStep.idle e trx
  have rolled := txnRollback_same e t
  have voted := txnPrepare_same e t answer
  simp only [tidesdbPrepare, attached]
  split
  · exact HookStep.idle e _
  split
  · exact HookStep.idle e _
  split
  · exact ⟨rolled.1, .finished attached rolled.2⟩
  · have undone := txnRollback_same (e.txnPrepare t answer).1 (e.txnPrepare t answer).2.1
    split
    · exact ⟨(note_nextId _ _ _).trans (undone.1.trans voted.1), .freed rfl⟩
    · exact ⟨voted.1, .touched attached voted.2⟩

theorem tidesdbCommit_hookStep (inTrx all : Bool) (answer : WriteRc) :
    HookStep e trx (tidesdbCommit e trx inTrx all answer).1 (tidesdbCommit e trx inTrx all answer).2.1 := by
  rcases attached_cases trx with idle | ⟨x, t, rfl, attached⟩
  · rw [tidesdbCommit_idle idle]
    exact HookStep.idle e trx
  have noted := note_nextId e t .commitHook
  simp only [tidesdbCommit, attached]
  split
  · exact HookStep.idle e _
  cases phase : t.phase with
  | committed | aborted => exact ⟨noted, .finished attached (SameTxn.refl t)⟩
  | prepared ws =>
    have decided := txnCommitPrepared_same (e.note t .commitHook) t answer.rc
    dsimp only
    split
    · exact ⟨decided.1.trans noted, .touched attached decided.2⟩
    · exact ⟨decided.1.trans noted, .finished attached decided.2⟩
  | active ws =>
    have committed := txnCommit_same (e.note t .commitHook) t answer
    have rolled := txnRollback_same (e.note t .commitHook) t
    dsimp only
    split
    · have undone := txnRollback_same ((e.note t .commitHook).txnCommit t answer).1
        ((e.note t .commitHook).txnCommit t answer).2.1
      split
      · exact ⟨(note_nextId _ _ _).trans (undone.1.trans (committed.1.trans noted)), .freed rfl⟩
      · exact ⟨committed.1.trans noted, .finished attached committed.2⟩
    · exact ⟨rolled.1.trans noted, .finished attached rolled.2⟩

theorem tidesdbRollback_hookStep (rc : Rc) :
    HookStep e trx (tidesdbRollback e trx rc).1 (tidesdbRollback e trx rc).2.1 := by
  rcases attached_cases trx with idle | ⟨x, t, rfl, attached⟩
  · rw [tidesdbRollback_idle idle]
    exact HookStep.idle e trx
  have noted := note_nextId e t .rollbackHook
  simp only [tidesdbRollback, attached]
  cases phase : t.phase with
  | committed | aborted => exact ⟨noted, .finished attached (SameTxn.refl t)⟩
  | prepared ws =>
    have decided := txnRollbackPrepared_same (e.note t .rollbackHook) t rc
    exact ⟨decided.1.trans noted, .finished attached decided.2⟩
  | active ws =>
    have rolled := txnRollback_same (e.note t .rollbackHook) t
    exact ⟨rolled.1.trans noted, .finished attached rolled.2⟩

theorem discardTxn_hookStep (generations : Nat) :
    HookStep e trx (discardTxn generations e trx).1 (discardTxn generations e trx).2 := by
  rcases attached_cases trx with idle | ⟨x, t, rfl, attached⟩
  · rw [discardTxn_idle idle]
    exact HookStep.idle e trx
  simp only [discardTxn, attached]
  exact ⟨(note_nextId _ _ _).trans (txnRollback_same e t).1, .freed rfl⟩

theorem flush_hookStep (answer : WriteRc) : HookStep e trx (flushEngineTxnBeforeCfMutation e trx answer).1
    (flushEngineTxnBeforeCfMutation e trx answer).2 := by
  rcases attached_cases trx with idle | ⟨x, t, rfl, attached⟩
  · rw [flush_idle idle]
    exact HookStep.idle e trx
  have committed := (txnCommit_same e t answer).1
  have rolled := (txnRollback_same (e.txnCommit t answer).1 (e.txnCommit t answer).2.1).1
  simp only [flushEngineTxnBeforeCfMutation, attached]
  refine ⟨(note_nextId _ _ _).trans ?_, .freed rfl⟩
  split
  · split
    · exact rolled.trans committed
    · exact committed
  · exact (txnRollback_same e t).1

/- The engine transaction of a connection by its handle, with the connection's generation. -/
def idOf (trx : Option (Trx W)) : Option (Nat × Nat) := trx.bind fun x => x.txn.map fun t => (t.handle, x.txnGeneration)

/-- The transaction is the one it was, or it has a new handle, or its generation has grown. -/
structure Later (e : Engine W) (trx : Option (Trx W)) (e' : Engine W) (trx' : Option (Trx W)) : Prop where
  names : e.nextId ≤ e'.nextId
  id : idOf trx' = idOf trx ∨ ∀ p g, idOf trx' = some (p, g) →
    (e.nextId ≤ p ∧ p < e'.nextId) ∨ ∃ g₀, idOf trx = some (p, g₀) ∧ g₀ < g

theorem idOf_attached {x : Trx W} {t : EngineTxn W} (attached : x.txn = some t) :
    idOf (some x) = some (t.handle, x.txnGeneration) := by
  simp [idOf, attached]

theorem idOf_detached {x : Trx W} (detached : x.txn = none) : idOf (some x) = none := by
  simp [idOf, detached]

variable {e' : Engine W} {trx' : Option (Trx W)}

theorem Later.of_id (names : e.nextId ≤ e'.nextId) (same : idOf trx' = idOf trx) :
    Later e trx e' trx' := ⟨names, .inl same⟩

theorem Later.of_none (names : e.nextId ≤ e'.nextId) (none : idOf trx' = none) : Later e trx e' trx' := by
  refine ⟨names, .inr fun p g here => ?_⟩
  cases none.symm.trans here

theorem Later.begun {x' : Trx W} {t' : EngineTxn W} (attached : x'.txn = some t')
    (names : e'.nextId = e.nextId + 1) (handle : t'.handle = e.nextId) : Later e trx e' (some x') := by
  refine ⟨by omega, .inr fun p g here => .inl ?_⟩
  rw [idOf_attached attached] at here
  cases here
  omega

theorem Later.renewed {x x' : Trx W} {t t' : EngineTxn W} (before : x.txn = some t) (after : x'.txn = some t')
    (names : e.nextId ≤ e'.nextId) (handle : t'.handle = t.handle) (grown : x.txnGeneration < x'.txnGeneration) :
    Later e (some x) e' (some x') := by
  refine ⟨names, .inr fun p g here => .inr ⟨x.txnGeneration, ?_⟩⟩
  rw [idOf_attached after] at here
  cases here
  rw [idOf_attached before, handle]
  exact ⟨rfl, grown⟩

theorem HookStep.later (step : HookStep e trx e' trx') : Later e trx e' trx' := by
  have names := Nat.le_of_eq step.names.symm
  obtain ⟨-, hooked⟩ := step
  cases hooked with
  | same => exact .of_id names rfl
  | freed detached => exact .of_none names (idOf_detached detached)
  | finished attached same => exact .renewed attached rfl names same.handle (Nat.lt_succ_self _)
  | touched attached same =>
    apply Later.of_id names
    rw [idOf_attached attached, idOf_attached rfl, same.handle]

theorem getOrCreateTrx_later (iso : Isolation) (rcs : TrxRcs) :
    Later e trx (getOrCreateTrx e trx iso rcs).1 (getOrCreateTrx e trx iso rcs).2.1 := by
  cases trx with
  | none =>
    simp only [getOrCreateTrx]
    split
    · split
      · exact .of_id le_rfl rfl
      · exact .begun rfl rfl rfl
    · exact .of_id le_rfl rfl
  | some x =>
    cases attached : x.txn with
    | none =>
      simp only [getOrCreateTrx, attached]
      split
      · exact .of_id le_rfl rfl
      · exact .begun rfl rfl rfl
    | some t =>
      have reset := note_nextId e t .reset
      have freed := note_nextId e t .free
      simp only [getOrCreateTrx, attached]
      split
      · split
        · have handle : (e.txnReset t iso).2.handle = t.handle := rfl
          exact .renewed attached rfl (Nat.le_succ_of_le (Nat.le_of_eq reset.symm)) handle (Nat.lt_succ_self _)
        · split
          · exact .of_none (Nat.le_of_eq freed.symm) rfl
          · exact .begun rfl (congrArg Nat.succ freed) freed
      · exact .of_id le_rfl rfl

theorem maybeBulkCommit_later (c : Conn W) (h : Nat) (call : RowCall W) :
    Later c.engine c.trx (c.maybeBulkCommit h call).1.engine (c.maybeBulkCommit h call).1.trx := by
  cases held : c.trx with
  | none =>
    simp only [Conn.maybeBulkCommit, held]
    exact .of_id le_rfl rfl
  | some x =>
    cases attached : x.txn with
    | none =>
      simp only [Conn.maybeBulkCommit, held, attached]
      exact .of_id le_rfl rfl
    | some t =>
      obtain ⟨names, same⟩ := txnCommit_same c.engine t call.bulkCommit
      have reset := (note_nextId (c.engine.txnCommit t call.bulkCommit).1 (c.engine.txnCommit t call.bulkCommit).2.1 .reset).trans names
      have freed := (note_nextId (c.engine.txnCommit t call.bulkCommit).1 (c.engine.txnCommit t call.bulkCommit).2.1 .free).trans names
      simp only [Conn.maybeBulkCommit, held, attached]
      split
      · apply Later.of_id (Nat.le_of_eq names.symm)
        rw [idOf_attached attached, idOf_attached rfl, same.handle]
      split
      · have handle : ((c.engine.txnCommit t call.bulkCommit).1.txnReset (c.engine.txnCommit t call.bulkCommit).2.1
            .readCommitted).2.handle = t.handle := same.handle
        exact .renewed attached rfl (Nat.le_succ_of_le (Nat.le_of_eq reset.symm)) handle (Nat.lt_succ_self _)
      split
      · exact .of_none (Nat.le_of_eq freed.symm) rfl
      · exact .begun rfl (congrArg Nat.succ freed) freed

end TidesdbMysql
