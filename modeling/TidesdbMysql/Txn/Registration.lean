import TidesdbMysql.Txn.Laws

/-! Registration with the server, which calls the hooks of an engine only if it has registered. `external_lock`
registers it for the statement; under `LOCK TABLES` the server calls `start_stmt` instead, and the handler's default
does nothing. -/
namespace TidesdbMysql
open Base List Conn

variable {W : Type}

/-- A table a statement uses: its handler, and what its `external_lock` is going to ask for and meet. -/
structure TableUse where
  h : Nat
  iso : Isolation
  rcs : TrxRcs
  deriving DecidableEq

inductive BodyCall (W : Type) where
  | row (h : Nat) (call : RowCall W)
  | startBulkInsert (h : Nat)
  | endBulkInsert (h : Nat) (metaCalls : List (EngineCall W))
  | startBulkDelete (h : Nat)
  | endBulkDelete (h : Nat)
  | rowLockAcquire (key : Nat)

def BodyCall.event : BodyCall W → Event W
  | .row h call => .row h call
  | .startBulkInsert h => .startBulkInsert h
  | .endBulkInsert h metaCalls => .endBulkInsert h metaCalls
  | .startBulkDelete h => .startBulkDelete h
  | .endBulkDelete h => .endBulkDelete h
  | .rowLockAcquire key => .rowLockAcquire key

def BodyCall.On (tables : List TableUse) : BodyCall W → Prop
  | .row h _ => ∃ use ∈ tables, use.h = h
  | _ => True

structure Statement (W : Type) where
  tables : List TableUse
  body : List (BodyCall W)
  own : ∀ call ∈ body, call.On tables
  commitRc : WriteRc
  rollbackRc : Rc
  succeeds : Bool

inductive Request (W : Type) where
  | options (inTrx : Bool)
  | statement (st : Statement W)
  | lockTables (tables : List TableUse) (commitRc : WriteRc)
  | unlockTables (tables : List TableUse)
  | commit (answer : WriteRc)
  | rollback (rc : Rc)

/-- A connection as the server has it: `LOCK TABLES`, and whether this engine has registered for
statement and transaction. -/
structure Server (W : Type) where
  conn : Conn W
  underLockTables : Bool
  stmtRegistered : Bool
  trxRegistered : Bool

namespace Server

def externalLock (s : Server W) (use : TableUse) : Server W × Bool :=
  let (c, code) := s.conn.externalLock use.h use.iso use.rcs
  if code = .ok then
    ({ s with conn := c, stmtRegistered := true, trxRegistered := s.trxRegistered || s.conn.inTrx }, true)
  else ({ s with conn := c }, false)

def lockAll (s : Server W) : List TableUse → Server W × Bool
  | [] => (s, true)
  | use :: rest => if (s.externalLock use).2 then (s.externalLock use).1.lockAll rest else s.externalLock use

section
variable (s : Server W) (st : Statement W) (e : BodyCall W) (tables : List TableUse)

/- `handler::start_stmt`. -/
def startStmt (_ : TableUse) : Server W := s

def takeTables : Server W × Bool :=
  if s.underLockTables then (tables.foldl startStmt s, true) else s.lockAll tables

def call : Server W × List W :=
  ({ s with conn := (s.conn.step e.event).1 },
    match e with
    | .row .. => (s.conn.step e.event).2.buffered
    | _ => [])

def starts : Server W := { s with stmtRegistered := false }

def bodyDone : Server W :=
  let (s, taken) := s.starts.takeTables st.tables
  if taken then run call s st.body else s

def writes : List W :=
  let (s, taken) := s.starts.takeTables st.tables
  if taken then (results call s st.body).flatten else []

def unlockAll : Server W :=
  { s with conn := run Conn.step s.conn (tables.map fun use => .externalUnlock use.h) }

def endStatement (e : Event W) : Server W :=
  if s.stmtRegistered then { s with conn := (s.conn.step e).1, stmtRegistered := false } else s

def endTrx (e : Event W) : Server W :=
  if s.trxRegistered then { s with conn := (s.conn.step e).1, trxRegistered := false } else s

end

def step (s : Server W) : Request W → Server W × Unit
  | .options inTrx => ({ s with conn := (s.conn.step (.options inTrx)).1 }, ())
  | .statement st =>
    let done := (s.bodyDone st).endStatement
      (if st.succeeds then .commit false st.commitRc else .rollback false st.rollbackRc)
    (if s.underLockTables then done else done.unlockAll st.tables, ())
  | .lockTables tables commitRc =>
    ({ (s.starts.lockAll tables).1.endStatement (.commit false commitRc) with underLockTables := true }, ())
  | .unlockTables tables => ({ s.unlockAll tables with underLockTables := false }, ())
  | .commit answer => (s.endTrx (.commit true answer), ())
  | .rollback rc => (s.endTrx (.rollback true rc), ())

def dirty (s : Server W) : Bool := s.conn.trx.any Trx.dirty

end Server

/-- A statement that buffers a write has, when its body is done, registered the engine and set the dirty flag. -/
def Visible (s : Server W) : Request W → Prop
  | .statement st => s.writes st ≠ [] → (s.bodyDone st).stmtRegistered = true ∧ (s.bodyDone st).dirty = true
  | _ => True

/-- Nothing is written under `LOCK TABLES`. -/
def NotUnderLockTables (s : Server W) : Request W → Prop
  | .statement st => s.underLockTables = true → s.writes st = []
  | _ => True

/- A handler that `external_lock` has been called on. -/
section Locked

variable {c : Conn W} {h h' : Nat}

structure Locked (c : Conn W) (h : Nat) : Prop where
  cached : (c.handlers h).cachedTrx = true
  attached : (c.handlers h).stmtTxn.isSome = true

theorem locked_of_handlers {c' : Conn W} (locked : Locked c h) (same : c'.handlers h = c.handlers h) : Locked c' h :=
  ⟨same ▸ locked.cached, same ▸ locked.attached⟩

theorem locked_setHandler {handler : Handler} (locked : Locked c h) (cached : handler.cachedTrx = (c.handlers h').cachedTrx)
    (attached : (c.handlers h').stmtTxn.isSome = true → handler.stmtTxn.isSome = true) :
    Locked (c.setHandler h' handler) h := by
  by_cases same : h = h'
  · subst same
    constructor
    · rw [setHandler_same, cached]
      exact locked.cached
    · rw [setHandler_same]
      exact attached locked.attached
  · exact locked_of_handlers locked (Function.update_of_ne same _ _)

theorem externalLock_locked {iso : Isolation} {rcs : TrxRcs} (locked : Locked c h ∨ h = h')
    (got : (c.externalLock h' iso rcs).2 = .ok) : Locked (c.externalLock h' iso rcs).1 h := by
  revert got
  unfold externalLock
  dsimp only
  split
  · rename_i live
    intro _
    by_cases same : h = h'
    · subst same
      exact ⟨by rw [setHandler_same], by rw [setHandler_same]; exact getOrCreate_live live⟩
    · have before : Locked (c.getOrCreate iso rcs).1 h := locked_of_handlers (locked.resolve_right same) rfl
      exact locked_of_handlers before (Function.update_of_ne same _ _)
  · intro got
    cases got

section
variable (locked : Locked c h) (call : RowCall W) (iso : Isolation) (rcs : TrxRcs)
include locked

theorem ensureStmtTxn_locked : c.ensureStmtTxn h iso rcs = (c, .ok) := by
  unfold ensureStmtTxn
  rw [if_pos locked.attached]

theorem ensureStmtTxn_keeps_locked : Locked (c.ensureStmtTxn h' iso rcs).1 h := by
  unfold ensureStmtTxn
  split
  · exact locked
  · rename_i unset
    have before : Locked (c.getOrCreate iso rcs).1 h := locked_of_handlers locked rfl
    dsimp only
    split
    · refine locked_setHandler before rfl ?_
      intro attached
      exact absurd attached unset
    · exact before

theorem maybeBulkCommit_locked : Locked (c.maybeBulkCommit h' call).1 h := by
  unfold maybeBulkCommit
  split
  · exact locked
  split
  · exact locked
  dsimp only
  split
  · exact locked_of_handlers locked rfl
  split
  · exact locked_setHandler (locked_of_handlers locked rfl) rfl fun _ => rfl
  split
  · exact locked_of_handlers locked rfl
  · exact locked_setHandler (locked_of_handlers locked rfl) rfl fun _ => rfl

theorem bulkTail_locked : Locked (c.bulkTail h' call).1 h := by
  unfold bulkTail
  dsimp only
  split
  · have counted : Locked (c.setHandler h' { c.handlers h' with
        bulkInsertOps := (c.handlers h').bulkInsertOps + 1 + (c.handlers h').numSecondaryIndexes }) h :=
      locked_setHandler locked rfl id
    split
    · split
      · split
        · exact maybeBulkCommit_locked counted call
        · exact locked_setHandler (maybeBulkCommit_locked counted call) rfl id
      · split
        · exact counted
        · exact locked_setHandler counted rfl id
    · exact counted
  · exact locked

theorem rowOp_locked : Locked (c.rowOp h' call).1 h := by
  have ensured : Locked (c.ensureStmtTxn h' call.iso call.trxRcs).1 h :=
    ensureStmtTxn_keeps_locked locked call.iso call.trxRcs
  have marked : Locked ((c.ensureStmtTxn h' call.iso call.trxRcs).1.markDirty h') h :=
    locked_of_handlers ensured (congrFun (markDirty_handlers _ _) h)
  unfold rowOp
  split
  · exact locked
  dsimp only
  split
  · exact ensured
  split
  · exact marked
  have put : Locked (((c.ensureStmtTxn h' call.iso call.trxRcs).1.markDirty h').throughStmtTxn h' (putAll · call.calls)).1 h :=
    locked_of_handlers marked (congrFun (throughStmtTxn_handlers _ _ _) h)
  split
  · exact put
  · exact bulkTail_locked put call

end

end Locked

/- The dirty flag is not lowered while a statement runs. -/
section Dirty

variable {c : Conn W} {h : Nat}

def Conn.isDirty (c : Conn W) : Prop := ∃ x, c.trx = some x ∧ x.dirty = true

theorem throughStmtTxn_dirty (dirty : c.isDirty) (puts : EngineTxn W → EngineTxn W × List W × Rc) :
    (c.throughStmtTxn h puts).1.isDirty := by
  rcases throughStmtTxn_cases c h puts with same | ⟨x, t, held, -, done⟩
  · rw [same]
    exact dirty
  · obtain ⟨y, held', dirty⟩ := dirty
    cases held.symm.trans held'
    rw [done]
    exact ⟨_, rfl, dirty⟩

theorem bulkTail_dirty (dirty : c.isDirty) (call : RowCall W) : (c.bulkTail h call).1.isDirty := by
  obtain ⟨y, held', dirty⟩ := dirty
  rcases bulkTail_cases c h call with ⟨handlers, same⟩ | ⟨before, handlers, flushed⟩
  · rw [same]
    exact ⟨y, held', dirty⟩
  · rw [flushed]
    rcases maybeBulkCommit_cases { c with handlers := before } h call with
      same | ⟨x, t, held, -, ⟨rc, t', -, -, refused⟩ | ⟨ws, -, ⟨-, -, lost⟩ | ⟨t', handlers', -, -, renewed⟩⟩⟩
    · rw [same]
      exact ⟨y, held', dirty⟩
    · cases held.symm.trans held'
      rw [refused]
      exact ⟨_, rfl, dirty⟩
    · cases held.symm.trans held'
      rw [lost]
      exact ⟨_, rfl, dirty⟩
    · cases held.symm.trans held'
      rw [renewed]
      exact ⟨_, rfl, dirty⟩

theorem markDirty_dirty (locked : Locked c h) {x : Trx W} (held : c.trx = some x) : (c.markDirty h).isDirty := by
  unfold markDirty
  rw [if_pos locked.cached]
  exact ⟨{ x with dirty := true }, by rw [held]; rfl, rfl⟩

theorem rowOp_dirty (locked : Locked c h) (call : RowCall W) (reason : c.isDirty ∨ (c.rowOp h call).2.buffered ≠ []) :
    (c.rowOp h call).1.isDirty := by
  have ensured := ensureStmtTxn_locked locked call.iso call.trxRcs
  cases held : c.trx with
  | none =>
    have nothing : (c.markDirty h).trx = none := by
      unfold markDirty
      split <;> simp [held]
    have clean : ¬ c.isDirty := by
      rintro ⟨x, attached, -⟩
      cases held.symm.trans attached
    have empty : (c.rowOp h call).2.buffered = [] := by
      cases refusal : call.refusal with
      | beforeTxn code => simp only [rowOp, refusal]; rfl
      | afterTxn code => simp only [rowOp, refusal, ensured]; rfl
      | none =>
        simp only [rowOp, refusal, ensured, throughStmtTxn, nothing]
        rfl
    exact absurd empty (reason.resolve_left clean)
  | some x =>
    have marked := markDirty_dirty locked held
    cases refusal : call.refusal with
    | beforeTxn code =>
      simp only [rowOp, refusal] at reason ⊢
      exact reason.resolve_right fun some => some rfl
    | afterTxn code =>
      simp only [rowOp, refusal, ensured]
      exact marked
    | none =>
      have put := throughStmtTxn_dirty (h := h) marked (putAll · call.calls)
      simp only [rowOp, refusal, ensured, ne_eq, not_true_eq_false, if_false]
      split
      · exact put
      · exact bulkTail_dirty put call

end Dirty

namespace Server

variable {s : Server W} {tables : List TableUse}

theorem isDirty_iff (s : Server W) : s.dirty = true ↔ s.conn.isDirty := by
  unfold dirty isDirty
  cases s.conn.trx with
  | none | some => simp

/-- Every table of the statement is locked, and the engine is registered if there is one. -/
structure Prepared (tables : List TableUse) (s : Server W) : Prop where
  locked : ∀ use ∈ tables, Locked s.conn use.h
  registered : tables ≠ [] → s.stmtRegistered = true

theorem lockAll_prepared {before : List TableUse} (prepared : s.Prepared before) (taken : (s.lockAll tables).2 = true) :
    (s.lockAll tables).1.Prepared (before ++ tables) := by
  induction tables generalizing s before with
  | nil =>
    rw [append_nil]
    exact prepared
  | cons use rest ih =>
    rw [lockAll] at taken ⊢
    by_cases got : (s.externalLock use).2 = true
    · rw [if_pos got] at taken ⊢
      have ok : (s.conn.externalLock use.h use.iso use.rcs).2 = .ok := by
        by_contra failed
        simp [externalLock, failed] at got
      have conn : (s.externalLock use).1.conn = (s.conn.externalLock use.h use.iso use.rcs).1 := by
        simp [externalLock, ok]
      have registered : (s.externalLock use).1.stmtRegistered = true := by
        simp [externalLock, ok]
      have one : (s.externalLock use).1.Prepared (before ++ [use]) := by
        constructor
        · intro other mem
          rw [conn]
          rw [mem_append, mem_singleton] at mem
          rcases mem with earlier | rfl
          · exact externalLock_locked (.inl (prepared.locked other earlier)) ok
          · exact externalLock_locked (.inr rfl) ok
        · exact fun _ => registered
      have all := ih one taken
      rw [append_assoc] at all
      exact all
    · rw [if_neg got] at taken
      exact absurd taken got

theorem call_prepared (prepared : s.Prepared tables) (e : BodyCall W) : (s.call e).1.Prepared tables := by
  refine ⟨fun use mem => ?_, prepared.registered⟩
  have locked := prepared.locked use mem
  cases e with
  | row h call => exact rowOp_locked locked call
  | startBulkInsert | startBulkDelete | endBulkDelete => exact locked_setHandler locked rfl id
  | endBulkInsert h metaCalls =>
    have ended : Locked (s.conn.setHandler h { s.conn.handlers h with inBulkInsert := false }) use.h :=
      locked_setHandler locked rfl id
    change Locked (s.conn.endBulkInsert h metaCalls).1 use.h
    unfold endBulkInsert
    dsimp only
    split
    · exact locked_of_handlers ended (congrFun (throughStmtTxn_handlers _ _ _) _)
    · exact ended
  | rowLockAcquire key => exact locked_of_handlers locked rfl

theorem call_dirty (prepared : s.Prepared tables) {e : BodyCall W} (own : e.On tables)
    (reason : s.conn.isDirty ∨ (s.call e).2 ≠ []) : (s.call e).1.conn.isDirty := by
  change (s.conn.step e.event).1.isDirty
  cases e with
  | row h call =>
    obtain ⟨use, mem, rfl⟩ := own
    exact rowOp_dirty (prepared.locked use mem) call reason
  | endBulkInsert h metaCalls =>
    have dirty : (s.conn.setHandler h { s.conn.handlers h with inBulkInsert := false }).isDirty :=
      reason.resolve_right fun buffered => buffered rfl
    change (s.conn.endBulkInsert h metaCalls).1.isDirty
    unfold endBulkInsert
    dsimp only
    split
    · exact throughStmtTxn_dirty dirty _
    · exact dirty
  | rowLockAcquire key =>
    obtain ⟨x, held, dirty⟩ := reason.resolve_right fun buffered => buffered rfl
    exact ⟨{ x with heldLocks := key :: x.heldLocks }, by simp [BodyCall.event, Conn.step, held], dirty⟩
  | startBulkInsert | startBulkDelete | endBulkDelete => exact reason.resolve_right fun buffered => buffered rfl

theorem body_dirty {body : List (BodyCall W)} (prepared : s.Prepared tables) (own : ∀ e ∈ body, e.On tables)
    (reason : s.conn.isDirty ∨ (results call s body).flatten ≠ []) : (run call s body).conn.isDirty := by
  induction body generalizing s with
  | nil => exact reason.resolve_right fun buffered => buffered rfl
  | cons e rest ih =>
    rw [forall_mem_cons] at own
    apply ih (call_prepared prepared e) own.2
    by_cases here : s.conn.isDirty ∨ (s.call e).2 ≠ []
    · exact .inl (call_dirty prepared own.1 here)
    · rw [not_or, not_not] at here
      right
      have later := reason.resolve_left here.1
      rw [results, flatten_cons, here.2] at later
      exact later

theorem run_registered (s : Server W) (body : List (BodyCall W)) : (run call s body).stmtRegistered = s.stmtRegistered := by
  induction body generalizing s with
  | nil => rfl
  | cons e rest ih => exact ih _

theorem body_without_tables {body : List (BodyCall W)} (own : ∀ e ∈ body, e.On []) :
    (results call s body).flatten = [] := by
  induction body generalizing s with
  | nil => rfl
  | cons e rest ih =>
    rw [forall_mem_cons] at own
    rw [results, flatten_cons, ih own.2, append_nil]
    cases e with
    | row h call =>
      obtain ⟨use, mem, -⟩ := own.1
      cases mem
    | _ => rfl

theorem foldl_startStmt (s : Server W) (tables : List TableUse) : tables.foldl startStmt s = s := by
  induction tables with
  | nil => rfl
  | cons use rest ih => exact ih

end Server

theorem visible_iff (s : Server W) (request : Request W) : Visible s request ↔ NotUnderLockTables s request := by
  cases request with
  | statement st =>
    unfold Visible NotUnderLockTables Server.writes Server.bodyDone Server.takeTables
    cases under : s.underLockTables with
    | true =>
      have same : s.starts.underLockTables = true := under
      simp only [same, if_true, Server.foldl_startStmt, Server.run_registered, forall_const]
      constructor
      · intro visible
        by_contra written
        cases (visible written).1
      · intro nothing written
        exact absurd nothing written
    | false =>
      have same : s.starts.underLockTables = false := under
      simp only [same, Bool.false_eq_true, if_false, false_implies, iff_true]
      cases taken : (s.starts.lockAll st.tables).2 with
      | false => exact fun written => absurd rfl written
      | true =>
        simp only [if_true]
        intro written
        have none : s.starts.Prepared [] := ⟨by simp, by simp⟩
        have prepared := Server.lockAll_prepared none taken
        have dirty := Server.body_dirty prepared st.own (.inr written)
        have used : [] ++ st.tables ≠ [] := by
          intro unused
          have own := st.own
          rw [nil_append] at unused
          rw [unused] at own
          exact written (Server.body_without_tables own)
        rw [Server.run_registered, Server.isDirty_iff]
        exact ⟨prepared.registered used, dirty⟩
  | _ => exact Iff.rfl

/- `autocommit` is off; `LOCK TABLES t WRITE`, then an `INSERT`. -/
section LockTables

def tableOne : TableUse := ⟨0, .snapshot, .good⟩

def oneInsert : Statement Unit where
  tables := [tableOne]
  body := [.row 0 ⟨.write, .snapshot, .good, .none, [⟨(), .success, true⟩], ⟨.success, false⟩, .success, .success⟩]
  own := by
    intro e mem
    rw [List.mem_singleton] at mem
    subst mem
    exact ⟨tableOne, List.mem_singleton_self _, rfl⟩
  commitRc := ⟨.success, false⟩
  rollbackRc := .success
  succeeds := true

def newServer : Server Unit := ⟨Conn.opened [] 0 (fun _ => Handler.opened 0) (.start []), false, false, false⟩

def lockedInsert : List (Request Unit) := [.options true, .lockTables [tableOne] ⟨.success, false⟩, .statement oneInsert]

end LockTables

end TidesdbMysql
