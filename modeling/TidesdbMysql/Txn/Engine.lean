import Mathlib.Data.List.Basic

/-! The storage library as the plugin sees it. Its return codes are inputs: every
call takes the code it is going to answer, and only what the plugin's own
comments say about the library decides the effect of that answer. -/
namespace TidesdbMysql

inductive Rc where
  | success | conflict | txnAborted | tooOld | memoryLimit | locked | txnExpired | noSpace | memory
  | notFound | alreadyExists | readonly | io | corruption | tooLarge | invalidDb | invalidArgs | other
  deriving DecidableEq, Repr

/-- The handler error codes the plugin answers to the server; `ok` is zero. -/
inductive HaCode where
  | ok | lockDeadlock | lockWaitTimeout | recordFileFull | outOfMem | keyNotFound | foundDuppKey
  | readOnlyTransaction | crashed | tooBigRow | internalError | generic | endOfFile | wrongCommand
  deriving DecidableEq, Repr

def tdbRcToHa : Rc → HaCode
  | .success => .ok
  | .conflict | .txnAborted | .tooOld | .memoryLimit => .lockDeadlock
  | .locked | .txnExpired => .lockWaitTimeout
  | .noSpace => .recordFileFull
  | .memory => .outOfMem
  | .notFound => .keyNotFound
  | .alreadyExists => .foundDuppKey
  | .readonly => .readOnlyTransaction
  | .io | .corruption => .crashed
  | .tooLarge => .tooBigRow
  | .invalidDb | .invalidArgs => .internalError
  | .other => .generic

@[simp] theorem tdbRcToHa_eq_ok (rc : Rc) : tdbRcToHa rc = .ok ↔ rc = .success := by
  cases rc <;> simp [tdbRcToHa]

theorem tdbRcToHa_eq_keyNotFound (rc : Rc) : tdbRcToHa rc = .keyNotFound ↔ rc = .notFound := by
  cases rc <;> simp [tdbRcToHa]

theorem tdbRcToHa_ne_endOfFile (rc : Rc) : tdbRcToHa rc ≠ .endOfFile := by
  cases rc <;> simp [tdbRcToHa]

/-- The answer of a commit or prepare; a failure past the write phase has already
aborted the transaction. -/
structure WriteRc where
  rc : Rc
  aborts : Bool
  deriving DecidableEq, Repr

inductive Isolation where
  | readUncommitted | readCommitted | repeatableRead | snapshot | serializable
  deriving DecidableEq, Repr

/-- `tidesdb_txn_state_t` together with the writes the state still carries: a
finished transaction has none. -/
inductive Phase (W : Type) where
  | active (buffer : List W)
  | prepared (batch : List W)
  | committed
  | aborted
  deriving DecidableEq

/-- An engine transaction. `handle` is the object, `batch` the unit of work: a reset opens a new
one. -/
structure EngineTxn (W : Type) where
  handle : Nat
  batch : Nat
  isolation : Isolation
  phase : Phase W
  deriving DecidableEq

variable {W : Type}

def EngineTxn.buffer (t : EngineTxn W) : List W :=
  match t.phase with
  | .active ws | .prepared ws => ws
  | .committed | .aborted => []

def EngineTxn.isPrepared (t : EngineTxn W) : Bool :=
  match t.phase with
  | .prepared _ => true
  | _ => false

def EngineTxn.Finished (t : EngineTxn W) : Prop := t.phase = .committed ∨ t.phase = .aborted

theorem EngineTxn.Finished.buffer_eq {t : EngineTxn W} (finished : t.Finished) : t.buffer = [] := by
  rcases finished with h | h <;> simp [buffer, h]

inductive CallKind where
  | commitHook | rollbackHook
  | commitPrepared (ok : Bool) | rollbackPrepared (ok : Bool)
  | reset | free | rollback
  deriving DecidableEq, Repr

structure Call where
  batch : Nat
  kind : CallKind
  deriving DecidableEq, Repr

/-- The database behind one connection: committed writes, next unused name, and calls made on
prepared batches. -/
structure Engine (W : Type) where
  committed : List W
  nextId : Nat
  calls : List Call
  deriving DecidableEq

namespace Engine

section
variable (e : Engine W) (iso : Isolation) (t : EngineTxn W) (rc : Rc) (answer : WriteRc) (kind : CallKind)

def note : Engine W :=
  match t.phase with
  | .prepared _ => { e with calls := e.calls ++ [⟨t.batch, kind⟩] }
  | _ => e

/-- `tidesdb_txn_begin_with_isolation`, when it succeeds. -/
def txnBegin : Engine W × EngineTxn W :=
  ({ e with nextId := e.nextId + 1 }, ⟨e.nextId, e.nextId, iso, .active []⟩)

/-- `tidesdb_txn_reset`, when it succeeds. -/
def txnReset (iso : Isolation) : Engine W × EngineTxn W :=
  let e := e.note t .reset
  ({ e with nextId := e.nextId + 1 }, { t with batch := e.nextId, isolation := iso, phase := .active [] })

def txnFree : Engine W := e.note t .free

def txnRollback : Engine W × EngineTxn W :=
  match t.phase with
  | .active _ | .prepared _ => (e.note t .rollback, { t with phase := .aborted })
  | .committed | .aborted => (e, t)

def txnCommit : Engine W × EngineTxn W × Rc :=
  match t.phase with
  | .active ws =>
    if answer.rc = .success then
      ({ e with committed := e.committed ++ ws }, { t with phase := .committed }, .success)
    else if answer.aborts then (e, { t with phase := .aborted }, answer.rc)
    else (e, t, answer.rc)
  -- the entry check refuses a transaction that is not active
  | _ => (e, t, .invalidArgs)

def votedPhase : List W → Phase W
  | [] => .committed
  | ws => .prepared ws

def txnPrepare : Engine W × EngineTxn W × Rc :=
  match t.phase with
  | .active ws =>
    if answer.rc = .success then (e, { t with phase := votedPhase ws }, .success)
    else if answer.aborts then (e, { t with phase := .aborted }, answer.rc)
    else (e, t, answer.rc)
  | _ => (e, t, .invalidArgs)

def txnCommitPrepared : Engine W × EngineTxn W × Rc :=
  match t.phase with
  | .prepared ws =>
    let e := e.note t (.commitPrepared (rc = .success))
    if rc = .success then
      ({ e with committed := e.committed ++ ws }, { t with phase := .committed }, .success)
    else (e, t, rc)
  | _ => (e, t, .invalidArgs)

def txnRollbackPrepared : Engine W × EngineTxn W × Rc :=
  match t.phase with
  | .prepared _ =>
    let e := e.note t (.rollbackPrepared (rc = .success))
    if rc = .success then (e, { t with phase := .aborted }, .success) else (e, t, rc)
  | _ => (e, t, .invalidArgs)

end

end Engine

/-- `tidesdb_txn_put_cf` and the delete calls: one more buffered write. -/
def EngineTxn.put (t : EngineTxn W) (w : W) (rc : Rc) : EngineTxn W × Rc :=
  match t.phase with
  | .active ws => if rc = .success then ({ t with phase := .active (ws ++ [w]) }, .success) else (t, rc)
  | _ => (t, .invalidArgs)

end TidesdbMysql
