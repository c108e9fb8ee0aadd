import TidesdbMysql.Txn.Hooks
import TidesdbMysql.Xid.Recover
import Mathlib.Logic.Function.Basic

/-! One connection: its engine transaction, the handlers it has open, and the
calls the server makes on them. -/
namespace TidesdbMysql
open Base

variable {W : Type}

/- The transactional part of a handler. A pointer to an engine transaction is its handle's name. -/
structure Handler where
  stmtTxn : Option Nat
  cachedTrx : Bool
  inBulkInsert : Bool
  inBulkDelete : Bool
  bulkInsertOps : Nat
  numSecondaryIndexes : Nat
  deriving DecidableEq, Repr

def Handler.opened (numSecondaryIndexes : Nat) : Handler := ⟨none, false, false, false, 0, numSecondaryIndexes⟩

structure Conn (W : Type) where
  engine : Engine W
  trx : Option (Trx W)
  inTrx : Bool
  handlers : Nat → Handler
  recovery : Recovery (EngineTxn W)

def Conn.setHandler (c : Conn W) (h : Nat) (handler : Handler) : Conn W :=
  { c with handlers := Function.update c.handlers h handler }

/-- One engine write of a row function; deletes of postings and geometry entries are not
`checked`. -/
structure EngineCall (W : Type) where
  write : W
  rc : Rc
  checked : Bool
  deriving DecidableEq

inductive RowKind where
  | write | update | delete
  deriving DecidableEq, Repr

/-- A row function may give up while it builds the row, or in the row lock and the duplicate
checks. -/
inductive Refusal where
  | none
  | beforeTxn (code : HaCode)
  | afterTxn (code : HaCode)
  deriving DecidableEq, Repr

/- A call of `write_row`, `update_row` or `delete_row`. -/
structure RowCall (W : Type) where
  kind : RowKind
  iso : Isolation
  trxRcs : TrxRcs
  refusal : Refusal
  calls : List (EngineCall W)
  bulkCommit : WriteRc
  bulkReset : Rc
  bulkBegin : Rc
  deriving DecidableEq

/-- How far `tidesdb_backup_dir_check` gets: an empty value, a path or state that
is rejected, or the backup itself. -/
inductive BackupCheck where
  | cleared
  | rejected
  | attempted (destinationEmpty : Bool) (rc : Rc)
  deriving DecidableEq, Repr

inductive Event (W : Type) where
  | options (inTrx : Bool)
  | startConsistentSnapshot (iso : Isolation) (rcs : TrxRcs)
  | externalLock (h : Nat) (iso : Isolation) (rcs : TrxRcs)
  | externalUnlock (h : Nat)
  | startBulkInsert (h : Nat)
  | endBulkInsert (h : Nat) (metaCalls : List (EngineCall W))
  | startBulkDelete (h : Nat)
  | endBulkDelete (h : Nat)
  | row (h : Nat) (call : RowCall W)
  | rowLockAcquire (key : Nat)
  | prepare (all : Bool) (xid : Xid) (answer : WriteRc)
  | commit (all : Bool) (answer : WriteRc)
  | rollback (all : Bool) (rc : Rc)
  | closeConnection
  | deleteAllRows (h : Nat) (result : HaCode)
  | backupDir (check : BackupCheck)
  | flushBeforeCfMutation (answer : WriteRc)
  | commitByXid (xid : Option Xid) (rc : Rc)
  | rollbackByXid (xid : Option Xid) (rc : Rc)

/-- What the server gets back, with the writes accepted into the transaction and those a bulk batch
committed. -/
structure Result (W : Type) where
  code : HaCode
  buffered : List W
  flushed : List W
  deriving DecidableEq

def answer (code : HaCode) : Result W := ⟨code, [], []⟩

def putAll (t : EngineTxn W) : List (EngineCall W) → EngineTxn W × List W × Rc
  | [] => (t, [], .success)
  | call :: rest =>
    let (t, rc) := t.put call.write call.rc
    if rc = .success then
      let (t, ws, last) := putAll t rest
      (t, call.write :: ws, last)
    else if call.checked then (t, [], rc)
    else putAll t rest

/-- The writes of `end_bulk_insert`: all are tried, the first failure is kept. -/
def putEach (t : EngineTxn W) : List (EngineCall W) → EngineTxn W × List W × Rc
  | [] => (t, [], .success)
  | call :: rest =>
    let (t, rc) := t.put call.write call.rc
    let (t, ws, last) := putEach t rest
    if rc = .success then (t, call.write :: ws, last) else (t, ws, rc)

/- Run engine writes through a handler's pointer. Only a pointer to the live
transaction can buffer anything. -/
def Conn.throughStmtTxn (c : Conn W) (h : Nat) (puts : EngineTxn W → EngineTxn W × List W × Rc) : Conn W × Result W :=
  match c.trx with
  | none => (c, answer .internalError)
  | some x =>
    match x.txn with
    | none => (c, answer .internalError)
    | some t =>
      if (c.handlers h).stmtTxn = some t.handle then
        let (t, ws, rc) := puts t
        ({ c with trx := some { x with txn := some t } }, ⟨tdbRcToHa rc, ws, []⟩)
      else (c, answer .internalError)

section
variable (c : Conn W) (h : Nat) (iso : Isolation) (rcs : TrxRcs)

def Conn.getOrCreate : Conn W × Bool :=
  let (e, trx, ok) := getOrCreateTrx c.engine c.trx iso rcs
  ({ c with engine := e, trx := trx }, ok)

def Conn.liveHandle : Option Nat := (c.trx.bind Trx.txn).map EngineTxn.handle

def Conn.externalLock : Conn W × HaCode :=
  let (c, ok) := c.getOrCreate iso rcs
  if ok then
    (c.setHandler h { c.handlers h with stmtTxn := c.liveHandle, cachedTrx := true }, .ok)
  else (c, .outOfMem)

def Conn.ensureStmtTxn : Conn W × HaCode :=
  if (c.handlers h).stmtTxn.isSome then (c, .ok)
  else
    let (c, ok) := c.getOrCreate iso rcs
    if ok then (c.setHandler h { c.handlers h with stmtTxn := c.liveHandle }, .ok)
    else (c, .outOfMem)

end

def tidesdbBulkInsertBatchOps : Nat := 500

section
variable (handler : Handler) (c : Conn W) (xid : Option Xid) (hook : CallKind)
  (fn : Engine W → EngineTxn W → Engine W × EngineTxn W × Rc) (h : Nat) (metaCalls : List (EngineCall W))
  (call : RowCall W)

/-- Commit the batch and go on in a fresh transaction; after a failed commit the server rolls
back. -/
def Conn.maybeBulkCommit : Conn W × Result W :=
  match c.trx with
  | none => (c, answer .ok)
  | some x =>
    match x.txn with
    | none => (c, answer .ok)
    | some t =>
      let flushed := t.buffer
      let (e, t, rc) := c.engine.txnCommit t call.bulkCommit
      if rc ≠ .success then
        ({ c with engine := e, trx := some { x with txn := some t } }, answer (tdbRcToHa rc))
      else if call.bulkReset = .success then
        let (e, t) := e.txnReset t .readCommitted
        ({ c with engine := e, trx := some { x with txn := some t, txnGeneration := x.txnGeneration + 1 } }
          |>.setHandler h { c.handlers h with stmtTxn := some t.handle }, ⟨.ok, [], flushed⟩)
      else
        let e := e.txnFree t
        if call.bulkBegin ≠ .success then
          ({ c with engine := e, trx := some { x with txn := none } },
            ⟨tdbRcToHa call.bulkBegin, [], flushed⟩)
        else
          let (e, t) := e.txnBegin .readCommitted
          ({ c with engine := e, trx := some { x with txn := some t, txnGeneration := x.txnGeneration + 1 } }
            |>.setHandler h { c.handlers h with stmtTxn := some t.handle }, ⟨.ok, [], flushed⟩)

/- `in_bulk_update_` is never set: `start_bulk_update` declines. -/
def Handler.inBulk : RowKind → Bool
  | .write => handler.inBulkInsert
  | .delete => handler.inBulkDelete
  | .update => false

def Conn.bulkTail : Conn W × Result W :=
  if (c.handlers h).inBulk call.kind then
    let ops := (c.handlers h).bulkInsertOps + 1 + (c.handlers h).numSecondaryIndexes
    let c := c.setHandler h { c.handlers h with bulkInsertOps := ops }
    if ops ≥ tidesdbBulkInsertBatchOps then
      let (c, r) := if (c.handlers h).cachedTrx then c.maybeBulkCommit h call else (c, answer .ok)
      if r.code ≠ .ok then (c, r)
      else (c.setHandler h { c.handlers h with bulkInsertOps := 0 }, r)
    else (c, answer .ok)
  else (c, answer .ok)

def Conn.markDirty : Conn W :=
  if (c.handlers h).cachedTrx then
    { c with trx := c.trx.map fun x => { x with dirty := true } }
  else c

def Conn.rowOp : Conn W × Result W :=
  match call.refusal with
  | .beforeTxn code => (c, answer code)
  | refusal =>
    let (c, code) := c.ensureStmtTxn h call.iso call.trxRcs
    if code ≠ .ok then (c, answer code)
    else
      let c := c.markDirty h
      match refusal with
      | .afterTxn code => (c, answer code)
      | _ =>
        let (c, r) := c.throughStmtTxn h (putAll · call.calls)
        if r.code ≠ .ok then (c, r)
        else
          let (c, tail) := c.bulkTail h call
          (c, ⟨tail.code, r.buffered, tail.flushed⟩)

def Conn.endBulkInsert : Conn W × Result W :=
  let c := c.setHandler h { c.handlers h with inBulkInsert := false }
  if (c.handlers h).stmtTxn.isSome then c.throughStmtTxn h (putEach · metaCalls) else (c, answer .ok)

def Conn.backupDirCheck : BackupCheck → Conn W × HaCode
  | .cleared => (c, .ok)
  | .rejected => (c, .generic)
  | .attempted destinationEmpty rc =>
    let (e, trx) := backupDirDiscard c.engine c.trx
    ({ c with engine := e, trx := trx },
      if destinationEmpty ∧ rc = .success then .ok else .generic)

def Conn.resolveIndoubt : Conn W × HaCode :=
  let (r, status, called) := tidesdbResolveByXid c.recovery xid fun t => (fn c.engine t).2.2
  let e := match called with
    | some t => (fn (c.engine.note t hook) t).1
    | none => c.engine
  ({ c with engine := e, recovery := r }, if status = .ok then .ok else .generic)

end

def Conn.step (c : Conn W) : Event W → Conn W × Result W
  | .options inTrx => ({ c with inTrx := inTrx }, answer .ok)
  | .startConsistentSnapshot iso rcs =>
    let (c, ok) := c.getOrCreate iso rcs
    (c, answer (if ok then .ok else .generic))
  | .externalLock h iso rcs =>
    let (c, code) := c.externalLock h iso rcs
    (c, answer code)
  | .externalUnlock h =>
    (c.setHandler h { c.handlers h with stmtTxn := none, cachedTrx := false }, answer .ok)
  | .startBulkInsert h =>
    (c.setHandler h { c.handlers h with inBulkInsert := true, bulkInsertOps := 0 }, answer .ok)
  | .endBulkInsert h metaCalls => c.endBulkInsert h metaCalls
  | .startBulkDelete h =>
    (c.setHandler h { c.handlers h with inBulkDelete := true, bulkInsertOps := 0 }, answer .ok)
  | .endBulkDelete h => (c.setHandler h { c.handlers h with inBulkDelete := false }, answer .ok)
  | .row h call => c.rowOp h call
  | .rowLockAcquire key =>
    ({ c with trx := c.trx.map fun x => { x with heldLocks := key :: x.heldLocks } }, answer .ok)
  | .prepare all xid rc =>
    let (e, trx, code) := tidesdbPrepare c.engine c.trx c.inTrx all xid rc
    ({ c with engine := e, trx := trx }, answer code)
  | .commit all rc =>
    let (e, trx, code) := tidesdbCommit c.engine c.trx c.inTrx all rc
    ({ c with engine := e, trx := trx }, answer code)
  | .rollback _ rc =>
    let (e, trx, code) := tidesdbRollback c.engine c.trx rc
    ({ c with engine := e, trx := trx }, answer code)
  | .closeConnection =>
    ({ c with engine := tidesdbCloseConnection c.engine c.trx, trx := none }, answer .ok)
  | .deleteAllRows h result =>
    let (e, trx) := deleteAllRowsDiscard c.engine c.trx
    ({ c with engine := e, trx := trx } |>.setHandler h { c.handlers h with stmtTxn := none },
      answer result)
  | .backupDir check =>
    let (c, code) := c.backupDirCheck check
    (c, answer code)
  | .flushBeforeCfMutation rc =>
    let (e, trx) := flushEngineTxnBeforeCfMutation c.engine c.trx rc
    ({ c with engine := e, trx := trx }, answer .ok)
  | .commitByXid xid rc =>
    let (c, code) := c.resolveIndoubt xid .commitHook fun e t => e.txnCommitPrepared t rc
    (c, answer code)
  | .rollbackByXid xid rc =>
    let (c, code) := c.resolveIndoubt xid .rollbackHook fun e t => e.txnRollbackPrepared t rc
    (c, answer code)

def Conn.opened (committed : List W) (nextId : Nat) (handlers : Nat → Handler)
    (recovery : Recovery (EngineTxn W)) : Conn W :=
  ⟨⟨committed, nextId, []⟩, none, false, handlers, recovery⟩

end TidesdbMysql
