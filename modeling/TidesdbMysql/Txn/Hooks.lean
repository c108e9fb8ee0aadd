import TidesdbMysql.Txn.Engine
import TidesdbMysql.Xid.Wire

/-! The transaction hooks of the handlerton and the other places that detach the
engine transaction of a connection. Each function takes the connection's
`tidesdb_trx_t`, if it has one, and the engine behind it. -/
namespace TidesdbMysql

variable {W : Type}

/-- What `thd_tx_isolation` answers. -/
inductive SessionIsolation where
  | readUncommitted | readCommitted | repeatableRead | serializable | other
  deriving DecidableEq

def resolveEffectiveIsolation (pessimisticLocking : Bool) (sessionIso : SessionIsolation) : Isolation :=
  if pessimisticLocking then .readCommitted
  else
    match sessionIso with
    | .readUncommitted => .readUncommitted
    | .readCommitted => .readCommitted
    | .repeatableRead => .snapshot
    | .serializable => .serializable
    | .other => .readCommitted

/-- The statement `external_lock` opens a transaction for. -/
structure StatementShape where
  isDdl : Bool
  isAutocommit : Bool
  pessimisticLocking : Bool
  sessionIso : SessionIsolation
  deriving DecidableEq

def StatementShape.effectiveIso (shape : StatementShape) : Isolation :=
  if shape.isDdl || shape.isAutocommit then .readCommitted
  else resolveEffectiveIsolation shape.pessimisticLocking shape.sessionIso

def Isolation.frozen : Isolation → Bool
  | .readUncommitted | .readCommitted => false
  | .repeatableRead | .snapshot | .serializable => true

/- `tidesdb_trx_t`. -/
structure Trx (W : Type) where
  txn : Option (EngineTxn W)
  dirty : Bool
  needsReset : Bool
  isolationLevel : Isolation
  txnGeneration : Nat
  heldLocks : List Nat
  deriving DecidableEq

/- The answers `get_or_create_trx` may meet: the allocation, a begin, a reset. -/
structure TrxRcs where
  malloc : Bool
  beginRc : Rc
  resetRc : Rc
  deriving DecidableEq, Repr

def TrxRcs.good : TrxRcs := ⟨true, .success, .success⟩

def Trx.rowLocksReleaseAll (x : Trx W) : Trx W := { x with heldLocks := [] }

def Trx.finish (x : Trx W) (t : EngineTxn W) : Trx W :=
  { x with txn := some t, txnGeneration := x.txnGeneration + 1, needsReset := true, dirty := false }
    |>.rowLocksReleaseAll

def Trx.detach (x : Trx W) : Trx W :=
  { x with txn := none, txnGeneration := x.txnGeneration + 1, dirty := false } |>.rowLocksReleaseAll

def getOrCreateTrx (e : Engine W) (trx : Option (Trx W)) (iso : Isolation) (rcs : TrxRcs) :
    Engine W × Option (Trx W) × Bool :=
  match trx with
  | some x =>
    match x.txn with
    | none =>
      if rcs.beginRc ≠ .success then (e, some x, false)
      else
        let (e, t) := e.txnBegin iso
        -- the reset flag is not touched here
        (e, some { x with txn := some t, dirty := false, isolationLevel := iso,
                          txnGeneration := x.txnGeneration + 1 }, true)
    | some t =>
      if x.needsReset then
        if rcs.resetRc = .success then
          let (e, t) := e.txnReset t iso
          (e, some { x with txn := some t, needsReset := false, isolationLevel := iso,
                            txnGeneration := x.txnGeneration + 1 }, true)
        else
          let e := e.txnFree t
          if rcs.beginRc ≠ .success then (e, some { x with txn := none }, false)
          else
            let (e, t) := e.txnBegin iso
            (e, some { x with txn := some t, needsReset := false, isolationLevel := iso,
                              txnGeneration := x.txnGeneration + 1 }, true)
      else (e, some x, true)
  | none =>
    if rcs.malloc then
      if rcs.beginRc ≠ .success then (e, none, false)
      else
        let (e, t) := e.txnBegin iso
        (e, some ⟨some t, false, false, iso, 1, []⟩, true)
    else (e, none, false)

section
variable (e : Engine W) (trx : Option (Trx W)) (inTrx all : Bool) (xid : Xid) (answer : WriteRc)

def isReal : Bool := all || !inTrx

def tidesdbPrepare : Engine W × Option (Trx W) × HaCode :=
  match trx with
  | none => (e, none, .ok)
  | some x =>
    match x.txn with
    | none => (e, some x, .ok)
    | some t =>
      if !isReal inTrx all then (e, some x, .ok)
      else if !x.dirty then (e, some x, .ok)
      else
        match tdbXidSerialize xid tdbXidMaxSerialized with
        | none =>
          let (e, t) := e.txnRollback t
          (e, some (x.finish t), .internalError)
        | some _ =>
          let (e, t, rc) := e.txnPrepare t answer
          if rc ≠ .success then
            let (e, t) := e.txnRollback t
            (e.txnFree t, some x.detach, tdbRcToHa rc)
          else (e, some { x with txn := some t }, .ok)

def tidesdbCommit : Engine W × Option (Trx W) × HaCode :=
  match trx with
  | none => (e, none, .ok)
  | some x =>
    match x.txn with
    | none => (e, some x, .ok)
    | some t =>
      if !isReal inTrx all then (e, some x, .ok)
      else
        let e := e.note t .commitHook
        match t.phase with
        | .committed | .aborted => (e, some (x.finish t), .ok)
        | .prepared _ =>
          let (e, t, rc) := e.txnCommitPrepared t answer.rc
          if rc ≠ .success then (e, some { x with txn := some t }, tdbRcToHa rc)
          else (e, some (x.finish t), .ok)
        | .active _ =>
          if x.dirty then
            let (e, t, rc) := e.txnCommit t answer
            if rc ≠ .success then
              let (e, t) := e.txnRollback t
              (e.txnFree t, some x.detach, tdbRcToHa rc)
            else (e, some (x.finish t), .ok)
          else
            let (e, t) := e.txnRollback t
            (e, some (x.finish t), .ok)

end

section
variable (generations : Nat) (e : Engine W) (trx : Option (Trx W)) (rc : Rc)

def tidesdbRollback : Engine W × Option (Trx W) × HaCode :=
  match trx with
  | none => (e, none, .ok)
  | some x =>
    match x.txn with
    | none => (e, some x, .ok)
    | some t =>
      let e := e.note t .rollbackHook
      match t.phase with
      | .committed | .aborted => (e, some (x.finish t), .ok)
      | .prepared _ =>
        -- a failure is only logged
        let (e, t, _) := e.txnRollbackPrepared t rc
        (e, some (x.finish t), .ok)
      | .active _ =>
        let (e, t) := e.txnRollback t
        (e, some (x.finish t), .ok)

def tidesdbCloseConnection : Engine W :=
  match trx with
  | some x =>
    match x.txn with
    | some t => let (e, t) := e.txnRollback t; e.txnFree t
    | none => e
  | none => e

def discardTxn : Engine W × Option (Trx W) :=
  match trx with
  | some x =>
    match x.txn with
    | some t =>
      let (e, t) := e.txnRollback t
      (e.txnFree t, some { x with
        txn := none, dirty := false, txnGeneration := x.txnGeneration + generations })
    | none => (e, some x)
  | none => (e, none)

end

section
variable (e : Engine W) (trx : Option (Trx W)) (answer : WriteRc)

/- The transaction part of `delete_all_rows` and of `tidesdb_backup_dir_check`; only
the second counts a new generation. -/
def deleteAllRowsDiscard := discardTxn 0 e trx
def backupDirDiscard := discardTxn 1 e trx

def flushEngineTxnBeforeCfMutation : Engine W × Option (Trx W) :=
  match trx with
  | some x =>
    match x.txn with
    | some t =>
      let (e, t) :=
        if x.dirty then
          let (e, t, rc) := e.txnCommit t answer
          if rc ≠ .success then e.txnRollback t else (e, t)
        else e.txnRollback t
      (e.txnFree t, some { x.detach with needsReset := false })
    | none => (e, some x)
  | none => (e, none)

end

end TidesdbMysql
